import ProxyLoop.Contract.State
import ProxyLoop.Lib.Trace

/-!
# When Slow wakes

`Waking` is the bus subscriber that wakes Slow, with what it drives: the reasons the loop has not
taken up, and the `fire` tasks of its one timer.  A task fires only under the number it was armed
with, so arming replaces the timer.
-/

namespace ProxyLoop

open Lib (Reach anyStep)

/-! ## The subscriber -/

def heartbeatS : Nat := 15

inductive WakeReason
  | relay | callOpened | repTurn | strike | callClosed | evidence | timer | heartbeat
  | fence | replan | approvalDecided | mandateDecided | speakRevoked | approvalDenied
  deriving DecidableEq, Repr

/-- The tools of Slow that the timer depends on. -/
inductive PacingTool
  | wait (seconds : Nat) | finish | other
  deriving DecidableEq, Repr

/-- What the subscriber reads of an event. -/
inductive Cue
  | f2sMsg
  | chanOpened (lane : Lane)
  | chanClosed (lane : Lane)
  | uttFinal (speaker : Voice)
  | fastRequest (lane : Lane) (genId : String) (basisSeq : Nat)
  | fastTurn (genId : String)
  | fastCancelled (genId : String)
  | chanStrike
  | evidenceRecorded
  | stepStarted
  | slowTool (tool : PacingTool) (ok : Bool)
  | stepCompleted
  | other
  deriving DecidableEq, Repr

/-- An event of the log, as the subscriber reads it. -/
structure Note where
  seq : Nat
  tMs : Nat
  cue : Cue
  deriving DecidableEq, Repr

structure Timer where
  armed : Nat
  due : Nat
  why : WakeReason
  deriving DecidableEq, Repr

structure Waking where
  call : Bool := false
  armed : Nat := 0
  /-- the running step's successful wait, in seconds -/
  wait : Option Nat := none
  /-- the running step finished the case -/
  done : Bool := false
  /-- rep lines no cp generation has seen yet -/
  lines : List Nat := []
  /-- cp generations that saw one, not ended -/
  gens : List String := []
  /-- when the first line no step has seen landed -/
  held : Option Nat := none
  /-- the armed timer's due time -/
  due : Option Nat := none
  stepping : Bool := false
  /-- the wakes the loop has not taken up -/
  reasons : List WakeReason := []
  timers : List Timer := []
  log : List Note := []
  now : Nat := 0

def beyond (o : Option Nat) (n : Nat) : Bool :=
  match o with
  | none => true
  | some m => n < m

@[simp] theorem beyond_none (n : Nat) : beyond none n = true := rfl

@[simp] theorem beyond_some (m n : Nat) : beyond (some m) n = (n < m : Bool) := rfl

namespace Waking

def wakes (w : Waking) (reason : WakeReason) : Waking :=
  { w with reasons := w.reasons ++ [reason] }

/-- `_arm`: one timer, arming replaces it. -/
def arm (w : Waking) (due : Nat) (why : WakeReason) : Waking :=
  { w with
    armed := w.armed + 1
    due := some due
    timers := w.timers ++ [⟨w.armed + 1, due, why⟩] }

/-- `_hold`: a line waits for FastC, with the heartbeat behind it. -/
def hold (w : Waking) (tMs : Nat) : Waking :=
  let w := { w with held := some (w.held.getD tMs) }
  let due := tMs + 1000 * heartbeatS
  if w.call && !w.stepping && beyond w.due due then
    w.arm due .heartbeat
  else w

/-- What a completed step arms: its wait, at most the heartbeat in the call, and no later than a
held line needs. -/
def dueAfter (w : Waking) (tMs : Nat) : Option (Nat × WakeReason) :=
  let after : Option (Nat × WakeReason) :=
    if w.call && beyond w.wait heartbeatS then
      some (heartbeatS, .heartbeat)
    else w.wait.map fun s => (s, .timer)
  let due := after.map fun a => (tMs + 1000 * a.1, a.2)
  match w.held with
  | some t =>
    if w.call then
      let held := max tMs (t + 1000 * heartbeatS)
      match due with
      | none => some (held, .heartbeat)
      | some d => if held < d.1 then some (held, .heartbeat) else some d
    else due
  | none => due

def completed (w : Waking) (tMs : Nat) : Waking :=
  match w.dueAfter tMs with
  | some (due, why) => w.arm due why
  | none => w

/-- `on_event`; `fastC` says whether the kernel has a cp lane. -/
def onEvent (fastC : Bool) (w : Waking) (e : Note) : Waking :=
  match e.cue with
  | .f2sMsg => w.wakes .relay
  | .chanOpened .cp => { w with call := true }.wakes .callOpened
  | .chanClosed .cp =>
    let w := if w.lines.isEmpty && w.gens.isEmpty then w else w.wakes .repTurn
    { w with call := false, lines := [], gens := [], held := none }.wakes .callClosed
  | .uttFinal .partner =>
    if w.call then
      if fastC then { w with lines := w.lines ++ [e.seq] }.hold e.tMs else w.wakes .repTurn
    else w
  | .fastRequest .cp genId basis =>
    match w.lines with
    | first :: _ =>
      if first ≤ basis then
        { w with gens := genId :: w.gens, lines := w.lines.filter (basis < ·) }
      else w
    | [] => w
  | .fastTurn genId | .fastCancelled genId =>
    if genId ∈ w.gens then { w with gens := w.gens.filter (· ≠ genId) }.wakes .repTurn else w
  | .chanStrike => if w.call then w.wakes .strike else w
  | .evidenceRecorded => w.wakes .evidence
  | .stepStarted =>
    { w with armed := w.armed + 1, due := none, held := none, wait := none, done := false,
             stepping := true }
  | .slowTool (.wait seconds) true => { w with wait := some seconds }
  | .slowTool .finish true => { w with done := true }
  | .stepCompleted =>
    let w := { w with stepping := false }
    if w.done then w else w.completed e.tMs
  | _ => w

/-! ## The kernel's steps -/

inductive Act
  /-- an event that is not the start of a step -/
  | event (tMs : Nat) (cue : Cue)
  /-- a wake of `kernel.fence.Authority` -/
  | wakes (reason : WakeReason)
  /-- the loop takes the wakes up, and starts a step -/
  | step (tMs : Nat)
  /-- a `fire` task runs -/
  | fire (i : Nat) (tMs : Nat)

/-- An event is appended at a time that does not go back, and told to the subscriber. -/
def emit (fastC : Bool) (w : Waking) (tMs : Nat) (cue : Cue) : Option Waking :=
  if w.now ≤ tMs then
    let e : Note := ⟨w.log.length, tMs, cue⟩
    some { w.onEvent fastC e with log := w.log ++ [e], now := tMs }
  else none

/-- Which events of a step may come when: its tools and its end belong to the running step. -/
def inPlace (w : Waking) : Cue → Bool
  | .stepStarted => false
  | .slowTool .. | .stepCompleted => w.stepping
  | _ => true

def fire (w : Waking) (i tMs : Nat) : Option Waking :=
  match w.timers[i]? with
  | some t =>
    if t.due ≤ tMs ∧ w.now ≤ tMs then
      let w := { w with timers := w.timers.eraseIdx i, now := tMs }
      some (if t.armed = w.armed then { w with due := none }.wakes t.why else w)
    else none
  | none => none

def step (fastC : Bool) (w : Waking) : Act → Option Waking
  | .event tMs cue => if w.inPlace cue then w.emit fastC tMs cue else none
  | .wakes reason => some (w.wakes reason)
  | .step tMs =>
    if w.reasons ≠ [] ∧ !w.stepping ∧ !w.done then
      { w with reasons := [] }.emit fastC tMs .stepStarted
    else none
  | .fire i tMs => w.fire i tMs

end Waking

/-! ## What the log says -/

def callOpen (log : List Note) : Bool :=
  log.foldl (fun open_ e => match e.cue with
    | .chanOpened .cp => true
    | .chanClosed .cp => false
    | _ => open_) false

def stepRunning (log : List Note) : Bool :=
  log.foldl (fun running e => match e.cue with
    | .stepStarted => true
    | .stepCompleted => false
    | _ => running) false

/-- The last step made a successful `finish`. -/
def stepFinished (log : List Note) : Bool :=
  log.foldl (fun finished e => match e.cue with
    | .stepStarted => false
    | .slowTool .finish true => true
    | _ => finished) false

/-- When the first partner line after the last `slow.step.started` landed. -/
def firstLine (log : List Note) : Option Nat :=
  log.foldl (fun first e => match e.cue with
    | .stepStarted => none
    | .uttFinal .partner => some (first.getD e.tMs)
    | _ => first) none

def lastCompleted (log : List Note) : Option Nat :=
  log.foldl (fun last e => match e.cue with
    | .stepCompleted => some e.tMs
    | _ => last) none

namespace Waking

/-- The one timer is armed, and due no later than `t`. -/
def ArmedBy (w : Waking) (t : Nat) : Prop :=
  ∃ x ∈ w.timers, x.armed = w.armed ∧ x.due ≤ t

def Pending (w : Waking) : Prop := w.reasons ≠ []

/-! ## The invariant -/

/-- Until a wake is pending, the subscriber's state is what the log says, and a due time is the one
of its timer. -/
structure Backed (w : Waking) : Prop where
  call : w.call = callOpen w.log
  stepping : w.stepping = stepRunning w.log
  done : w.done = stepFinished w.log
  timer : ∀ d, w.due = some d → ∃ x ∈ w.timers, x.armed = w.armed ∧ x.due = d
  held : w.reasons = [] → w.call = true → w.held = firstLine w.log
  line : w.reasons = [] → w.call = true → w.stepping = false → w.done = false →
    ∀ t, w.held = some t →
      ∃ d, w.due = some d ∧ d ≤ max (t + 1000 * heartbeatS) ((lastCompleted w.log).getD 0)
  idle : w.reasons = [] → w.call = true → w.stepping = false → w.done = false →
    ∀ t, lastCompleted w.log = some t → ∃ d, w.due = some d ∧ d ≤ t + 1000 * heartbeatS

section backed

variable {fastC : Bool} {w w' : Waking} {tMs : Nat} {cue : Cue}

theorem not_pending {w : Waking} {reason : WakeReason} : ¬ (w.wakes reason).reasons = [] := by
  simp [wakes]

/-- A state in which a wake is pending is backed if its bookkeeping is right. -/
theorem Backed.of_pending (pending : w.reasons ≠ []) (call : w.call = callOpen w.log)
    (stepping : w.stepping = stepRunning w.log) (done : w.done = stepFinished w.log)
    (timer : ∀ d, w.due = some d → ∃ x ∈ w.timers, x.armed = w.armed ∧ x.due = d) : w.Backed :=
  ⟨call, stepping, done, timer, fun h => absurd h pending, fun h => absurd h pending,
    fun h => absurd h pending⟩

theorem Backed.wakes (backed : w.Backed) (reason : WakeReason) : (w.wakes reason).Backed :=
  .of_pending not_pending backed.call backed.stepping backed.done backed.timer

/-- An event that none of the readings depends on. -/
theorem Backed.logged {e : Note} (backed : w.Backed) (call : callOpen (w.log ++ [e]) = callOpen w.log)
    (stepping : stepRunning (w.log ++ [e]) = stepRunning w.log)
    (done : stepFinished (w.log ++ [e]) = stepFinished w.log)
    (line : w.call = true → firstLine (w.log ++ [e]) = firstLine w.log)
    (last : lastCompleted (w.log ++ [e]) = lastCompleted w.log) :
    Backed { w with log := w.log ++ [e], now := tMs } where
  call := backed.call.trans call.symm
  stepping := backed.stepping.trans stepping.symm
  done := backed.done.trans done.symm
  timer := backed.timer
  held still open_ := (backed.held still open_).trans (line open_).symm
  line still open_ quiet more t ht := last ▸ backed.line still open_ quiet more t ht
  idle still open_ quiet more t ht := backed.idle still open_ quiet more t (last ▸ ht)

/-- What the tasks of FastC's lines and generations are does not matter. -/
theorem Backed.relined {lines : List Nat} {gens : List String} {wait : Option Nat}
    (backed : w.Backed) : Backed { w with lines, gens, wait } :=
  ⟨backed.call, backed.stepping, backed.done, backed.timer, backed.held, backed.line, backed.idle⟩

/-- A rep line that waits for FastC. -/
theorem Backed.hold {e : Note} {lines : List Nat} (backed : w.Backed) (open_ : w.call = true)
    (cue : e.cue = .uttFinal .partner) :
    Backed { ({ w with lines }.hold e.tMs) with log := w.log ++ [e], now := tMs } := by
  have call : callOpen (w.log ++ [e]) = callOpen w.log := by simp [callOpen, cue]
  have stepping : stepRunning (w.log ++ [e]) = stepRunning w.log := by simp [stepRunning, cue]
  have done : stepFinished (w.log ++ [e]) = stepFinished w.log := by simp [stepFinished, cue]
  have last : lastCompleted (w.log ++ [e]) = lastCompleted w.log := by simp [lastCompleted, cue]
  have line : firstLine (w.log ++ [e]) = some ((firstLine w.log).getD e.tMs) := by
    simp [firstLine, cue]
  unfold Waking.hold
  dsimp only
  split
  · -- the line arms the timer
    rename_i armed
    simp only [open_, Bool.true_and, Bool.and_eq_true, Bool.not_eq_eq_eq_not, Bool.not_true] at armed
    obtain ⟨quiet, later⟩ := armed
    refine ⟨backed.call.trans call.symm, backed.stepping.trans stepping.symm,
      backed.done.trans done.symm, fun d hd => ?_, fun still open_ => ?_, ?_, ?_⟩
    · cases hd
      exact ⟨_, List.mem_append_right _ (List.mem_singleton_self _), rfl, rfl⟩
    · rw [line, ← backed.held still open_]
      rfl
    · intro still _ _ more t ht
      refine ⟨_, rfl, ?_⟩
      cases ht
      cases hh : w.held with
      | none => exact Nat.le_max_left ..
      | some first =>
        -- the first line armed it before
        obtain ⟨d, hd, le⟩ := backed.line still open_ quiet more first hh
        rw [hd] at later
        have sooner : e.tMs + 1000 * heartbeatS < d := by simpa using later
        rw [last]
        show e.tMs + 1000 * heartbeatS ≤ max (first + 1000 * heartbeatS) _
        omega
    · intro still _ _ more t ht
      obtain ⟨d, hd, le⟩ := backed.idle still open_ quiet more t (last ▸ ht)
      rw [hd] at later
      have sooner : e.tMs + 1000 * heartbeatS < d := by simpa using later
      exact ⟨_, rfl, by omega⟩
  · rename_i other
    refine ⟨backed.call.trans call.symm, backed.stepping.trans stepping.symm,
      backed.done.trans done.symm, backed.timer, fun still open_ => ?_, ?_, ?_⟩
    · rw [line, ← backed.held still open_]
    · intro still _ quiet more t ht
      cases ht
      have quiet : w.stepping = false := quiet
      have more : w.done = false := more
      have still : w.reasons = [] := still
      rw [quiet, open_] at other
      cases hd : w.due with
      | none => simp [hd] at other
      | some d =>
        have le : d ≤ e.tMs + 1000 * heartbeatS := by simpa [hd] using other
        refine ⟨d, rfl, ?_⟩
        cases hh : w.held with
        | none =>
          show d ≤ max (e.tMs + 1000 * heartbeatS) _
          omega
        | some first =>
          obtain ⟨d', hd', le'⟩ := backed.line still open_ quiet more first hh
          rw [hd] at hd'
          cases hd'
          rw [last]
          exact le'
    · intro still _ quiet more t ht
      exact backed.idle still open_ quiet more t (last ▸ ht)

theorem dueAfter_of_call (tMs : Nat) (open_ : w.call = true) : ∃ d why, w.dueAfter tMs = some (d, why) ∧
    d ≤ tMs + 1000 * heartbeatS ∧ ∀ t, w.held = some t → d ≤ max (t + 1000 * heartbeatS) tMs := by
  have base : ∃ d why, (if w.call && beyond w.wait heartbeatS then
      some (heartbeatS, WakeReason.heartbeat) else w.wait.map fun s => (s, .timer)).map (fun a => (tMs + 1000 * a.1, a.2)) = some (d, why) ∧ d ≤ tMs + 1000 * heartbeatS := by
    rw [open_]
    cases w.wait with
    | none => exact ⟨_, _, rfl, Nat.le_refl _⟩
    | some s =>
      by_cases long : heartbeatS < s
      · exact ⟨tMs + 1000 * heartbeatS, .heartbeat, by simp [long], Nat.le_refl _⟩
      · exact ⟨tMs + 1000 * s, .timer, by simp [long], by omega⟩
  obtain ⟨d, why, own, le⟩ := base
  unfold dueAfter
  dsimp only
  rw [own]
  cases w.held with
  | none => exact ⟨d, why, rfl, le, fun t ht => by cases ht⟩
  | some first =>
    simp only [open_, if_true]
    split
    · rename_i earlier
      refine ⟨_, _, rfl, by omega, fun t ht => ?_⟩
      cases ht
      omega
    · rename_i later
      refine ⟨_, _, rfl, le, fun t ht => ?_⟩
      cases ht
      have : d ≤ max tMs (first + 1000 * heartbeatS) := Nat.not_lt.mp later
      omega

/-- The end of a step that did not finish the case. -/
theorem Backed.completed {e : Note} (backed : w.Backed) (cue : e.cue = .stepCompleted) :
    Backed { (if w.done then { w with stepping := false }
      else { w with stepping := false }.completed e.tMs) with log := w.log ++ [e], now := tMs } := by
  have call : callOpen (w.log ++ [e]) = callOpen w.log := by simp [callOpen, cue]
  have stepping : stepRunning (w.log ++ [e]) = false := by simp [stepRunning, cue]
  have done : stepFinished (w.log ++ [e]) = stepFinished w.log := by simp [stepFinished, cue]
  have last : lastCompleted (w.log ++ [e]) = some e.tMs := by simp [lastCompleted, cue]
  have line : firstLine (w.log ++ [e]) = firstLine w.log := by simp [firstLine, cue]
  split
  · rename_i finished
    exact ⟨backed.call.trans call.symm, stepping.symm, backed.done.trans done.symm, backed.timer,
      fun still open_ => (backed.held still open_).trans line.symm,
      fun _ _ _ more => (by rw [finished] at more; cases more),
      fun _ _ _ more => (by rw [finished] at more; cases more)⟩
  · by_cases open_ : w.call = true
    · obtain ⟨d, why, due, le, held⟩ :=
        dueAfter_of_call (w := { w with stepping := false }) e.tMs open_
      unfold Waking.completed
      rw [due]
      refine ⟨backed.call.trans call.symm, stepping.symm, backed.done.trans done.symm,
        fun d' hd => ?_, fun still open_ => (backed.held still open_).trans line.symm,
        fun _ _ _ _ t ht => ⟨d, rfl, ?_⟩, fun _ _ _ _ t ht => ⟨d, rfl, ?_⟩⟩
      · cases hd
        exact ⟨_, List.mem_append_right _ (List.mem_singleton_self _), rfl, rfl⟩
      · rw [last]
        exact held t ht
      · rw [last] at ht
        cases ht
        exact le
    · unfold Waking.completed
      split
      · rename_i d why due
        refine ⟨backed.call.trans call.symm, stepping.symm, backed.done.trans done.symm,
          fun d' hd => ?_, fun _ bad => absurd bad open_, fun _ bad => absurd bad open_,
          fun _ bad => absurd bad open_⟩
        cases hd
        exact ⟨_, List.mem_append_right _ (List.mem_singleton_self _), rfl, rfl⟩
      · exact ⟨backed.call.trans call.symm, stepping.symm, backed.done.trans done.symm,
          backed.timer, fun _ bad => absurd bad open_, fun _ bad => absurd bad open_,
          fun _ bad => absurd bad open_⟩

theorem started {seq t : Nat} (call : w.call = callOpen w.log) :
    Backed { w.onEvent fastC ⟨seq, t, .stepStarted⟩ with
      log := w.log ++ [⟨seq, t, .stepStarted⟩], now := tMs } := by
  refine ⟨?_, ?_, ?_, fun d hd => ?_, fun _ _ => ?_, fun _ _ quiet => ?_, fun _ _ quiet => ?_⟩
  · simp [callOpen, Waking.onEvent, call]
  · simp [stepRunning, Waking.onEvent]
  · simp [stepFinished, Waking.onEvent]
  · cases hd
  · simp [firstLine, Waking.onEvent]
  · cases quiet
  · cases quiet

theorem Backed.onEvent {e : Note} (backed : w.Backed) :
    Backed { w.onEvent fastC e with log := w.log ++ [e], now := tMs } := by
  obtain ⟨seq, t, cue⟩ := e
  -- an event that none of the readings depends on, and perhaps a wake
  have plain (still : cue ≠ .chanOpened .cp ∧ cue ≠ .chanClosed .cp ∧ cue ≠ .stepStarted ∧
      cue ≠ .slowTool .finish true ∧ cue ≠ .stepCompleted ∧ cue ≠ .uttFinal .partner) :
      Backed { w with log := w.log ++ [⟨seq, t, cue⟩], now := tMs } := by
    obtain ⟨h₁, h₂, h₃, h₄, h₅, h₆⟩ := still
    refine backed.logged ?_ ?_ ?_ (fun _ => ?_) ?_ <;>
      simp only [callOpen, stepRunning, stepFinished, firstLine, lastCompleted, List.foldl_append,
        List.foldl_cons, List.foldl_nil]
  cases cue with
  | f2sMsg => exact (plain (by simp)).wakes .relay
  | evidenceRecorded => exact (plain (by simp)).wakes .evidence
  | other => exact plain (by simp)
  | chanStrike =>
    by_cases open_ : w.call = true
    · simp only [Waking.onEvent, open_, if_true]
      exact (plain (by simp)).wakes .strike
    · simp only [Waking.onEvent, open_]
      exact plain (by simp)
  | fastTurn genId | fastCancelled genId =>
    by_cases own : genId ∈ w.gens
    · simp only [Waking.onEvent, own, if_true]
      exact (plain (by simp)).relined.wakes .repTurn
    · simp only [Waking.onEvent, own, if_false]
      exact plain (by simp)
  | fastRequest lane genId basis =>
    cases lane with
    | user => exact plain (by simp)
    | cp =>
      simp only [Waking.onEvent]
      split
      · split
        · exact (plain (by simp)).relined
        · exact plain (by simp)
      · exact plain (by simp)
  | slowTool tool ok =>
    cases ok with
    | false => cases tool <;> exact plain (by simp)
    | true =>
      cases tool with
      | wait seconds => exact (plain (by simp)).relined
      | other => exact plain (by simp)
      | finish =>
        -- from here on the step is one that finished
        refine ⟨?_, ?_, ?_, backed.timer, fun still open_ => ?_, fun _ _ _ more => ?_,
          fun _ _ _ more => ?_⟩
        · simp [callOpen, Waking.onEvent, backed.call]
        · simp [stepRunning, Waking.onEvent, backed.stepping]
        · simp [stepFinished, Waking.onEvent]
        · simpa [firstLine, Waking.onEvent] using backed.held still open_
        · cases more
        · cases more
  | stepStarted => exact started backed.call
  | stepCompleted => exact backed.completed rfl
  | chanOpened lane =>
    cases lane with
    | user => exact plain (by simp)
    | cp =>
      refine .of_pending not_pending ?_ ?_ ?_ backed.timer
      · simp [callOpen, Waking.onEvent, Waking.wakes]
      · simp [stepRunning, Waking.onEvent, Waking.wakes, backed.stepping]
      · simp [stepFinished, Waking.onEvent, Waking.wakes, backed.done]
  | chanClosed lane =>
    cases lane with
    | user => exact plain (by simp)
    | cp =>
      have waits (w' : Waking) (call : w'.call = w.call) (stepping : w'.stepping = w.stepping)
          (done : w'.done = w.done) (due : w'.due = w.due) (armed : w'.armed = w.armed)
          (timers : w'.timers = w.timers) : Backed { ({ w' with
            call := false, lines := [], gens := [], held := none }.wakes .callClosed) with
            log := w.log ++ [⟨seq, t, .chanClosed .cp⟩], now := tMs } := by
        refine .of_pending not_pending ?_ ?_ ?_ fun d hd => ?_
        · simp [callOpen, Waking.wakes]
        · simp [stepRunning, Waking.wakes, stepping, backed.stepping]
        · simp [stepFinished, Waking.wakes, done, backed.done]
        · obtain ⟨x, hx, rest⟩ := backed.timer d (due.symm.trans hd)
          exact ⟨x, timers.symm ▸ hx, armed.symm ▸ rest⟩
      simp only [Waking.onEvent]
      split <;> exact waits _ rfl rfl rfl rfl rfl rfl
  | uttFinal speaker =>
    cases speaker with
    | agent => exact plain (by simp)
    | partner =>
      by_cases open_ : w.call = true
      · cases fastC with
        | true =>
          rw [Waking.onEvent, if_pos open_, if_pos rfl]
          exact backed.hold (e := ⟨seq, t, .uttFinal .partner⟩) open_ rfl
        | false =>
          simp only [Waking.onEvent, open_, if_true]
          refine .of_pending not_pending ?_ ?_ ?_ backed.timer
          · simp [callOpen, Waking.wakes, backed.call]
          · simp [stepRunning, Waking.wakes, backed.stepping]
          · simp [stepFinished, Waking.wakes, backed.done]
      · simp only [Waking.onEvent, open_]
        refine backed.logged ?_ ?_ ?_ (fun bad => absurd bad open_) ?_ <;>
          simp [callOpen, stepRunning, stepFinished, lastCompleted]

/-- Step lemma. -/
theorem Backed.step {a : Act} (backed : w.Backed) (h : w.step fastC a = some w') : w'.Backed := by
  have emitted {w : Waking} {t : Nat} {cue : Cue} (backed : w.Backed)
      (h : w.emit fastC t cue = some w') : w'.Backed := by
    unfold Waking.emit at h
    split at h
    · cases h
      exact backed.onEvent
    · cases h
  cases a with
  | event t cue =>
    simp only [Waking.step] at h
    split at h
    · exact emitted backed h
    · cases h
  | wakes reason =>
    cases h
    exact backed.wakes reason
  | step t =>
    simp only [Waking.step, Waking.emit] at h
    split at h
    case isFalse => cases h
    split at h
    case isFalse => cases h
    cases h
    exact started backed.call
  | fire i t =>
    simp only [Waking.step, Waking.fire] at h
    split at h
    case h_2 => cases h
    rename_i x at_
    split at h
    case isFalse => cases h
    cases h
    split
    · refine .of_pending not_pending backed.call backed.stepping backed.done fun d hd => ?_
      cases hd
    · rename_i other
      refine ⟨backed.call, backed.stepping, backed.done, fun d hd => ?_, backed.held, backed.line,
        backed.idle⟩
      obtain ⟨y, hy, own, due⟩ := backed.timer d hd
      -- another number, so another task
      obtain ⟨j, hj⟩ := List.getElem?_of_mem hy
      refine ⟨y, List.mem_eraseIdx_iff_getElem?.mpr ⟨j, fun same => other ?_, hj⟩, own, due⟩
      rw [same, at_] at hj
      cases hj
      exact own

/-- Run lemma. -/
theorem Backed.reach (h : Reach (Waking.step fastC) anyStep {} w) : w.Backed :=
  h.invariant (I := Backed) ⟨rfl, rfl, rfl, (fun _ h => by cases h), (fun _ h => by cases h),
    (fun _ h => by cases h), fun _ h => by cases h⟩ fun _ backed _ hs => backed.step hs

end backed

end Waking

/-- In every run of a kernel with a Slow, while the cp call is open, no step runs and the last step
did not finish the case: a rep line that no step has seen has a wake pending, or the timer armed no
later than the heartbeat after it or the end of the step it was said in; and after a completed step
the timer is armed no later than the heartbeat after its end, or a wake is pending. -/
theorem wake_lag {fastC : Bool} {w : Waking} (h : Reach (Waking.step fastC) anyStep {} w)
    (open_ : callOpen w.log = true) (idle : stepRunning w.log = false)
    (more : stepFinished w.log = false) :
    (∀ t, firstLine w.log = some t →
      w.Pending ∨ w.ArmedBy (max (t + 15000) ((lastCompleted w.log).getD 0))) ∧
    ∀ t, lastCompleted w.log = some t → w.Pending ∨ w.ArmedBy (t + 15000) := by
  have backed := Waking.Backed.reach h
  have call := backed.call.trans open_
  have quiet := backed.stepping.trans idle
  have undone := backed.done.trans more
  -- a due time is the timer's
  have armed {d b : Nat} (hd : w.due = some d) (le : d ≤ b) : w.ArmedBy b := by
    obtain ⟨x, hx, own, rfl⟩ := backed.timer d hd
    exact ⟨x, hx, own, le⟩
  by_cases still : w.reasons = []
  · refine ⟨fun t ht => Or.inr ?_, fun t ht => Or.inr ?_⟩
    · obtain ⟨d, hd, le⟩ := backed.line still call quiet undone t ((backed.held still call).trans ht)
      exact armed hd le
    · obtain ⟨d, hd, le⟩ := backed.idle still call quiet undone t ht
      exact armed hd le
  · exact ⟨fun _ _ => Or.inl still, fun _ _ => Or.inl still⟩

/-! ## Two runs -/

/-- The kernel after `acts`. -/
def wakingAfter (acts : List Waking.Act) : Waking := (Lib.run (Waking.step true) {} acts).getD {}

theorem wakingAfter_reach (acts : List Waking.Act)
    (h : (Lib.run (Waking.step true) {} acts).isSome = true) :
    Reach (Waking.step true) anyStep {} (wakingAfter acts) := by
  obtain ⟨w, hw⟩ := Option.isSome_iff_exists.mp h
  rw [wakingAfter, hw]
  exact Reach.start.run hw

/-- A step that waits a minute, then a line of the rep that FastC has not answered. -/
def heldActs : List Waking.Act :=
  [.event 0 (.chanOpened .cp), .step 1, .event 2 (.slowTool (.wait 60) true),
    .event 3 .stepCompleted, .event 5 (.uttFinal .partner)]

theorem wake_lag_held : firstLine (wakingAfter heldActs).log = some 5 ∧
    ((wakingAfter heldActs).Pending ∨ (wakingAfter heldActs).ArmedBy 15005) :=
  ⟨rfl, (wake_lag (wakingAfter_reach heldActs rfl) rfl rfl rfl).1 5 rfl⟩

/-- A step that finishes the case while the call is open. -/
def finishedActs : List Waking.Act :=
  [.event 0 (.chanOpened .cp), .step 1, .event 2 (.slowTool .finish true), .event 3 .stepCompleted]

/-- After it no timer is armed, and no wake is pending. -/
theorem finished_unarmed : Reach (Waking.step true) anyStep {} (wakingAfter finishedActs) ∧
    callOpen (wakingAfter finishedActs).log = true ∧
    stepRunning (wakingAfter finishedActs).log = false ∧
    lastCompleted (wakingAfter finishedActs).log = some 3 ∧
    ¬ (wakingAfter finishedActs).Pending ∧ ¬ (wakingAfter finishedActs).ArmedBy (3 + 15000) := by
  refine ⟨wakingAfter_reach finishedActs rfl, rfl, rfl, rfl, fun h => h rfl, ?_⟩
  rintro ⟨x, hx, -⟩
  cases hx

end ProxyLoop

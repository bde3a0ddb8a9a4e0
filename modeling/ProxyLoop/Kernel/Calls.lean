import ProxyLoop.Core.Bus
import ProxyLoop.Core.Visible
import ProxyLoop.Lib.Trace

/-!
# The call's gate

The counterparty's lane opens once: when a public fact leaves nothing missing, when Slow starts the
call, or at the intake's deadline, whichever comes first.  Each of them spawns a task, and the
tasks, the bus's deliveries and whatever else is emitted run in any order; a task runs only when
the bus has delivered everything, and itself waits while its own event is delivered.

The end of a hold (`chan.hold`), the disclosure and the ingress are the environment's.
-/

namespace ProxyLoop.Gate

open Lib (Dict)

/-! ## Readiness -/

def identity : List String := ["account.holder_name", "account.last4"]

/-- `required`: the row of the kind, each key only if the task may share it. -/
def required (channels : List Lane) (shareable : List String) : List String :=
  let row := if channels.contains .cp then identity else []
  (row.filter shareable.contains).eraseDups

def missing (bb : Blackboard) (need : List String) : List String :=
  need.filter fun k => !bb.pub.facts.has k

/-! ## The gate -/

/-- `INTAKE_S`, in ms -/
def intakeMs : Nat := 120000

inductive Reason
  | ready | slowStart | intakeDeadline | noIntake
  deriving DecidableEq, Repr

/-- A spawned task: `_soon` or `_deadline`. -/
inductive Task
  | soon (cause : Nat) (reason : Reason)
  | deadline (root due : Nat)
  deriving DecidableEq

/-- The untyped keys of a `chan.opened{cp}`, with its place in the log. -/
structure Opened where
  seq : Nat
  tMs : Nat
  cause : Nat
  reason : Reason
  missing : List String

structure Calls where
  need : List String
  intake : Bool
  started : Bool := false
  startMs : Nat := 0
  deadlineMs : Option Nat := none
  /-- its event is being delivered -/
  opening : Option Opened := none
  opened : Option Opened := none
  tasks : List Task := []
  bus : Bus
  undelivered : List Event := []

inductive Act
  | start (tMs root : Nat)
  | run (tMs n : Nat)
  /-- the delivery of `chan.opened` is over -/
  | resume (tMs : Nat)
  | deliver
  | env (tMs : Nat) (actor : Actor) (causes : List Nat) (p : Payload)

namespace Calls

def emit (c : Calls) (tMs : Nat) (actor : Actor) (causes : List Nat) (p : Payload) :
    Option Calls :=
  (c.bus.emit tMs actor causes p).map fun bus =>
    { c with bus, undelivered := c.undelivered ++ [c.bus.next tMs actor causes p] }

/-- `_call`, to the delivery of its event. -/
def call (c : Calls) (tMs cause : Nat) (reason : Reason) : Option Calls :=
  if c.opened.isSome then some c
  else { c with
      opening := some ⟨c.bus.events.length, tMs, cause, reason, missing c.bus.bb c.need⟩
    }.emit tMs .kernel [cause] (.chanOpened .cp)

/-- `_call`, from there on: its task ends with the status change. -/
def resume (c : Calls) (tMs : Nat) : Option Calls :=
  match c.opening with
  | none => none
  | some o =>
    let c := { c with opened := some o, opening := none, deadlineMs := none }
    match statusChange c.bus.bb .callOpened with
    | none => some c
    | some change => c.emit tMs .guard [o.seq] (.statusChanged change)

/-- `start`: the call now, or the intake and its deadline. -/
def start (c : Calls) (tMs root : Nat) : Option Calls :=
  let c := { c with started := true, startMs := tMs }
  if !c.intake || (missing c.bus.bb c.need).isEmpty then
    c.call tMs root (if c.intake then .ready else .noIntake)
  else
    let due := tMs + intakeMs
    some { c with deadlineMs := some due, tasks := c.tasks ++ [.deadline root due] }

/-- `on_event`, less the ledger and the holds. -/
def onEvent (c : Calls) (e : Event) : Calls :=
  if c.opened.isSome || c.deadlineMs.isNone then c
  else match e.payload with
    | .factRecorded .publicly .. =>
      if (missing c.bus.bb c.need).isEmpty then { c with tasks := c.tasks ++ [.soon e.seq .ready] }
      else c
    | .slowTool name _ ok =>
      if name = "start_call" && ok then { c with tasks := c.tasks ++ [.soon e.seq .slowStart] }
      else c
    | _ => c

/-- A task gets its turn; the deadline's only when it is due. -/
def runTask (c : Calls) (tMs : Nat) : Task → Option Calls
  | .soon cause reason => c.call tMs cause reason
  | .deadline root due => if due ≤ tMs then c.call tMs root .intakeDeadline else none

def quiet (c : Calls) : Bool := c.undelivered.isEmpty && c.opening.isNone

def step (c : Calls) : Act → Option Calls
  | .start tMs root => if c.quiet && !c.started then c.start tMs root else none
  | .run tMs n =>
    match c.tasks[n]? with
    | some task =>
      if c.quiet then { c with tasks := c.tasks.eraseIdx n }.runTask tMs task else none
    | none => none
  | .resume tMs => if c.undelivered.isEmpty then c.resume tMs else none
  | .deliver =>
    match c.undelivered with
    | e :: rest => some ({ c with undelivered := rest }.onEvent e)
    | [] => none
  | .env tMs actor causes p =>
    if p matches .chanOpened .cp then none else c.emit tMs actor causes p

end Calls

/-! ## Facts stay public -/

def publicFact (e : Event) : Bool :=
  match e.payload with
  | .factRecorded .publicly .. => true
  | _ => false

section

variable {bb bb' : Blackboard} {e : Event} {need : List String}

theorem publicFact_of_shown {fact : PublicFact} (h : Views.shown e = some (.fact fact)) :
    publicFact e = true := by
  unfold Views.shown at h
  cases hp : e.payload with
  | factRecorded scope =>
    cases scope <;> simp [Views.Payload.shown, publicFact, hp] at h ⊢
  | uttFinal lane => cases lane <;> simp [Views.Payload.shown, hp] at h
  | uttDelivered lane => cases lane <;> simp [Views.Payload.shown, hp] at h
  | summaryUpdated scope => cases scope <;> simp [Views.Payload.shown, hp] at h
  | speakVerbatim lane kind => cases kind <;> simp [Views.Payload.shown, hp] at h
  | _ => simp [Views.Payload.shown, hp] at h

theorem facts_of_apply (guides : bb.pub.guidanceCp.length ≤ 1) (h : apply bb e = .ok bb') :
    (publicFact e = false → bb'.pub.facts = bb.pub.facts) ∧
      ∀ k, bb.pub.facts.has k = true → bb'.pub.facts.has k = true := by
  obtain ⟨b, hb, rfl⟩ := apply_eq_ok.mp h
  have known := (Views.teaches_of_reduce hb).known guides
  have facts : b.pub.facts = ((Views.shown e).elim (Views.known bb)
      (Views.known bb).learn).pub.facts := congrArg (·.pub.facts) known
  have same : (stamp b e).pub.facts = b.pub.facts := rfl
  rw [same, facts]
  cases shows : Views.shown e with
  | none => exact ⟨fun _ => rfl, fun _ has => has⟩
  | some s =>
    cases s with
    | fact fact =>
      refine ⟨fun quiet => ?_, fun k has => ?_⟩
      · rw [publicFact_of_shown shows] at quiet
        cases quiet
      · show ((Views.known bb).pub.facts.set fact.key fact).has k = true
        by_cases own : k = fact.key
        · simp [own, Dict.has]
        · rw [Dict.has, Dict.get?_set_ne _ own]
          exact has
    | readback r =>
      have kept : ((Views.known bb).withOffer r.offerRef (·.readBack r)).pub.facts =
          bb.pub.facts := by
        unfold Views.Known.withOffer
        split <;> rfl
      exact ⟨fun _ => kept, fun k has => kept ▸ has⟩
    | declined ref =>
      have kept : ((Views.known bb).withOffer ref
          fun offer => { offer with status := .declined }).pub.facts = bb.pub.facts := by
        unfold Views.Known.withOffer
        split <;> rfl
      exact ⟨fun _ => kept, fun k has => kept ▸ has⟩
    | line | guide | hold | summary | offer | status => exact ⟨fun _ => rfl, fun _ has => has⟩

theorem missing_eq_nil : missing bb need = [] ↔ ∀ k ∈ need, bb.pub.facts.has k = true := by
  simp [missing, List.filter_eq_nil_iff]

/-- What is ready stays ready, and a public fact alone makes it so. -/
theorem missing_of_apply (guides : bb.pub.guidanceCp.length ≤ 1) (h : apply bb e = .ok bb') :
    (missing bb need = [] → missing bb' need = []) ∧
      (missing bb' need = [] → missing bb need = [] ∨ publicFact e = true) := by
  obtain ⟨quiet, grow⟩ := facts_of_apply guides h
  rw [missing_eq_nil, missing_eq_nil]
  refine ⟨fun all k hk => grow k (all k hk), fun all => ?_⟩
  cases fact : publicFact e with
  | true => exact .inr rfl
  | false => exact .inl fun k hk => quiet fact ▸ all k hk

end

/-! ## What an opening tells -/

def opens (e : Event) : Bool :=
  match e.payload with
  | .chanOpened .cp => true
  | _ => false

/-- A start of the call by Slow that Guard allowed. -/
def startsCall (e : Event) : Bool :=
  match e.payload with
  | .slowTool name _ ok => name = "start_call" && ok
  | _ => false

/-- What the reason of a call stands for. -/
def Because (c : Calls) (tMs cause : Nat) (missing : List String) : Reason → Prop
  | .ready => missing = []
  | .slowStart => ∃ e ∈ c.bus.events, e.seq = cause ∧ startsCall e = true
  | .intakeDeadline => c.startMs + intakeMs ≤ tMs
  | .noIntake => c.intake = false

/-- The call stands in the log, told what was missing there, and why it was opened. -/
structure Told (c : Calls) (o : Opened) : Prop where
  event : ∃ e, c.bus.events[o.seq]? = some e ∧ opens e = true
  missing : o.missing = missing (boardOf (c.bus.events.take o.seq)) c.need
  because : Because c o.tMs o.cause o.missing o.reason

def Fits (c : Calls) : Task → Prop
  | .soon cause reason => ∀ tMs, Because c tMs cause (missing c.bus.bb c.need) reason
  | .deadline _ due => due = c.startMs + intakeMs

namespace Calls

def calls (c : Calls) : List Opened := c.opened.toList ++ c.opening.toList

end Calls

structure Base (c : Calls) : Prop where
  sound : c.bus.Sound
  listed : ∀ e ∈ c.undelivered, e ∈ c.bus.events
  apart : c.opening = none ∨ c.opened = none
  once : c.bus.events.countP opens = c.calls.length
  told : ∀ o ∈ c.calls, Told c o
  tasks : ∀ t ∈ c.tasks, Fits c t

structure Kept (c : Calls) : Prop extends Base c where
  idle : c.started = false → c.calls = [] ∧ c.tasks = [] ∧ c.deadlineMs = none
  waits : c.started = true → c.calls = [] →
    c.deadlineMs.isSome = true ∧ ∃ root due, .deadline root due ∈ c.tasks
  ready : c.started = true → c.calls = [] → missing c.bus.bb c.need = [] →
    (∃ cause, .soon cause .ready ∈ c.tasks) ∨ ∃ e ∈ c.undelivered, publicFact e = true

structure Emits (c c' : Calls) (e : Event) : Prop where
  same : c' = { c with bus := c'.bus, undelivered := c.undelivered ++ [e] }
  bus : Bus.Emitted c.bus e c'.bus
  seq : e.seq = c.bus.events.length

section

variable {c c' : Calls} {e : Event} {tMs cause : Nat} {reason : Reason}

theorem emits_of_emit {actor : Actor} {causes : List Nat} {p : Payload}
    (h : c.emit tMs actor causes p = some c') : Emits c c' (c.bus.next tMs actor causes p) := by
  obtain ⟨bus, hb, rfl⟩ := Option.map_eq_some_iff.mp h
  exact ⟨rfl, Bus.emitted_of_emit hb, rfl⟩

theorem Emits.missing (emits : Emits c c' e) (sound : c.bus.Sound) (need : List String) :
    (missing c.bus.bb need = [] → missing c'.bus.bb need = []) ∧
      (missing c'.bus.bb need = [] → missing c.bus.bb need = [] ∨ publicFact e = true) :=
  missing_of_apply (Views.bounded_of_fold sound.fold).guides emits.bus.applied

/-- What the two gates differ in is none of what an opening tells. -/
def Alike (c c' : Calls) : Prop :=
  c'.bus = c.bus ∧ c'.need = c.need ∧ c'.intake = c.intake ∧ c'.startMs = c.startMs

theorem Because.alike {missing : List String} (h : Because c tMs cause missing reason)
    (alike : Alike c c') : Because c' tMs cause missing reason := by
  obtain ⟨bus, -, intake, startMs⟩ := alike
  cases reason with
  | ready => exact h
  | slowStart =>
    rw [Because, bus]
    exact h
  | intakeDeadline =>
    rw [Because, startMs]
    exact h
  | noIntake => exact intake.trans h

theorem Told.alike {o : Opened} (told : Told c o) (alike : Alike c c') : Told c' o := by
  refine ⟨?_, ?_, told.because.alike alike⟩
  · rw [alike.1]
    exact told.event
  · rw [alike.1, alike.2.1]
    exact told.missing

theorem Fits.alike {t : Task} (fits : Fits c t) (alike : Alike c c') : Fits c' t := by
  cases t with
  | soon cause reason =>
    intro tMs
    rw [alike.1, alike.2.1]
    exact (fits tMs).alike alike
  | deadline root due =>
    rw [Fits, alike.2.2.2]
    exact fits

theorem Because.emit {missing missing' : List String} (h : Because c tMs cause missing reason)
    (emits : Emits c c' e) (grow : missing = [] → missing' = []) :
    Because c' tMs cause missing' reason := by
  have same := emits.same
  generalize c'.bus = bus at same
  have events : ∀ x ∈ c.bus.events, x ∈ c'.bus.events := by
    rw [emits.bus.events]
    exact fun x hx => List.mem_append_left _ hx
  cases reason with
  | ready => exact grow h
  | slowStart =>
    obtain ⟨x, hx, why⟩ := h
    exact ⟨x, events x hx, why⟩
  | intakeDeadline =>
    subst same
    exact h
  | noIntake =>
    subst same
    exact h

theorem Told.emit {o : Opened} (told : Told c o) (emits : Emits c c' e) : Told c' o := by
  have need : c'.need = c.need := by rw [emits.same]
  obtain ⟨x, hx, opened⟩ := told.event
  have within := (List.getElem?_eq_some_iff.mp hx).1
  refine ⟨⟨x, ?_, opened⟩, ?_, told.because.emit emits id⟩
  · rw [emits.bus.events, List.getElem?_append_left within, hx]
  · rw [emits.bus.events, List.take_append_of_le_length (Nat.le_of_lt within), need]
    exact told.missing

theorem Fits.emit {t : Task} (fits : Fits c t) (emits : Emits c c' e) (sound : c.bus.Sound) :
    Fits c' t := by
  have same : c'.need = c.need ∧ c'.startMs = c.startMs := by rw [emits.same]; exact ⟨rfl, rfl⟩
  cases t with
  | soon cause reason =>
    intro tMs
    rw [same.1]
    exact (fits tMs).emit emits (emits.missing sound c.need).1
  | deadline root due =>
    rw [Fits, same.2]
    exact fits

/-- An event that opens no call. -/
theorem Base.emit (base : Base c) (emits : Emits c c' e) (quiet : opens e = false) : Base c' := by
  have calls : c'.calls = c.calls := by rw [emits.same]; rfl
  refine ⟨base.sound.emitted emits.bus emits.seq, ?_, ?_, ?_, ?_, ?_⟩
  · rw [emits.bus.events, emits.same]
    intro x hx
    rcases List.mem_append.mp hx with hx | hx
    · exact List.mem_append_left _ (base.listed x hx)
    · exact List.mem_append_right _ hx
  · rw [emits.same]
    exact base.apart
  · rw [emits.bus.events, calls, List.countP_append, base.once]
    simp [quiet]
  · rw [calls]
    exact fun o ho => (base.told o ho).emit emits
  · intro t ht
    rw [emits.same] at ht
    exact (base.tasks t ht).emit emits base.sound

theorem Kept.emit (kept : Kept c) (emits : Emits c c' e) (quiet : opens e = false) : Kept c' := by
  have calls : c'.calls = c.calls := by rw [emits.same]; rfl
  have tasks : c'.tasks = c.tasks := by rw [emits.same]
  have started : c'.started = c.started := by rw [emits.same]
  have deadline : c'.deadlineMs = c.deadlineMs := by rw [emits.same]
  have need : c'.need = c.need := by rw [emits.same]
  have undelivered : c'.undelivered = c.undelivered ++ [e] := by rw [emits.same]
  refine { kept.toBase.emit emits quiet with idle := ?_, waits := ?_, ready := ?_ }
  · rw [started, calls, tasks, deadline]
    exact kept.idle
  · rw [started, calls, tasks, deadline]
    exact kept.waits
  · rw [started, calls, tasks, undelivered, need]
    intro begun none_ all
    rcases (emits.missing kept.sound c.need).2 all with before | fact
    · rcases kept.ready begun none_ before with soon | ⟨x, hx, fact⟩
      · exact .inl soon
      · exact .inr ⟨x, List.mem_append_left _ hx, fact⟩
    · exact .inr ⟨e, by simp, fact⟩

/-! ## Steps -/

theorem Base.call (base : Base c) (idle : c.opening = none)
    (because : Because c tMs cause (missing c.bus.bb c.need) reason)
    (h : c.call tMs cause reason = some c') :
    Base c' ∧ c'.calls ≠ [] ∧ c'.started = c.started := by
  unfold Calls.call at h
  cases opened : c.opened with
  | some o =>
    rw [opened] at h
    cases h
    exact ⟨base, by simp [Calls.calls, opened], rfl⟩
  | none =>
    rw [if_neg (by simp [opened])] at h
    have emits := emits_of_emit h
    have opening : opens (c.bus.next tMs .kernel [cause] (.chanOpened .cp)) = true := rfl
    generalize c.bus.next tMs .kernel [cause] (.chanOpened .cp) = e at emits opening
    have calls : c'.calls =
        [⟨c.bus.events.length, tMs, cause, reason, missing c.bus.bb c.need⟩] := by
      rw [emits.same]
      simp [Calls.calls, opened]
    have none_ : c.calls = [] := by simp [Calls.calls, opened, idle]
    refine ⟨⟨base.sound.emitted emits.bus emits.seq, ?_, ?_, ?_, ?_, ?_⟩, by simp [calls], ?_⟩
    · rw [emits.bus.events, emits.same]
      intro x hx
      rcases List.mem_append.mp hx with hx | hx
      · exact List.mem_append_left _ (base.listed x hx)
      · exact List.mem_append_right _ hx
    · rw [emits.same]
      exact .inr opened
    · rw [emits.bus.events, List.countP_append, calls, base.once, none_]
      simp [opening]
    · intro o ho
      rw [calls, List.mem_singleton] at ho
      subst ho
      have need : c'.need = c.need := by rw [emits.same]
      have board : boardOf c.bus.events = c.bus.bb := by rw [boardOf, base.sound.fold]
      refine ⟨⟨e, ?_, opening⟩, ?_, Because.emit ?_ emits id⟩
      · rw [emits.bus.events]
        exact List.getElem?_concat_length
      · rw [emits.bus.events, List.take_left, need, board]
      · exact because
    · intro t ht
      rw [emits.same] at ht
      refine Fits.emit ?_ emits base.sound
      exact base.tasks t ht
    · rw [emits.same]

theorem Kept.call (kept : Base c) (idle : c.opening = none) (begun : c.started = true)
    (because : Because c tMs cause (missing c.bus.bb c.need) reason)
    (h : c.call tMs cause reason = some c') : Kept c' := by
  obtain ⟨base, some_, started⟩ := kept.call idle because h
  exact { base with
    idle := fun fresh => absurd (started.symm.trans fresh) (by simp [begun])
    waits := fun _ none_ => absurd none_ some_
    ready := fun _ none_ => absurd none_ some_ }

theorem quiet_eq (h : c.quiet = true) : c.undelivered = [] ∧ c.opening = none := by
  simpa [Calls.quiet] using h

theorem Kept.start {root : Nat} (kept : Kept c) (quiet : c.quiet = true)
    (fresh : c.started = false) (h : c.start tMs root = some c') : Kept c' := by
  obtain ⟨none_, tasks, -⟩ := kept.idle fresh
  obtain ⟨undelivered, idle⟩ := quiet_eq quiet
  have base : Base { c with started := true, startMs := tMs } :=
    { kept.toBase with
      told := fun o ho => absurd (none_ ▸ ho) List.not_mem_nil
      tasks := fun t ht => absurd (tasks ▸ ht) List.not_mem_nil }
  unfold Calls.start at h
  dsimp only at h
  split at h
  · rename_i now
    refine Kept.call base idle rfl ?_ h
    dsimp only
    by_cases intake : c.intake = true
    · rw [if_pos intake]
      show missing c.bus.bb c.need = []
      simpa [intake] using now
    · rw [if_neg intake]
      exact Bool.eq_false_iff.mpr intake
  · rename_i later
    cases h
    have missing_ : missing c.bus.bb c.need ≠ [] := by
      intro all
      exact later (by simp [all])
    refine { base with told := ?_, tasks := ?_, idle := ?_, waits := ?_, ready := ?_ }
    · exact fun o ho => absurd (none_ ▸ ho) List.not_mem_nil
    · intro t ht
      rw [tasks, List.nil_append, List.mem_singleton] at ht
      subst ht
      rfl
    · intro begun
      cases begun
    · exact fun _ _ => ⟨rfl, root, _, List.mem_append_right _ (List.mem_singleton.mpr rfl)⟩
    · exact fun _ _ all => absurd all missing_

theorem Kept.run {n : Nat} {task : Task} (kept : Kept c) (quiet : c.quiet = true)
    (found : c.tasks[n]? = some task)
    (h : { c with tasks := c.tasks.eraseIdx n }.runTask tMs task = some c') : Kept c' := by
  have mem := List.mem_of_getElem? found
  have fits := kept.tasks task mem
  have begun : c.started = true := by
    cases fresh : c.started with
    | true => rfl
    | false => exact absurd ((kept.idle fresh).2.1 ▸ mem) List.not_mem_nil
  have base : Base { c with tasks := c.tasks.eraseIdx n } :=
    { kept.toBase with
      told := fun o ho => (kept.told o ho).alike ⟨rfl, rfl, rfl, rfl⟩
      tasks := fun t ht =>
        (kept.tasks t (List.mem_of_mem_eraseIdx ht)).alike ⟨rfl, rfl, rfl, rfl⟩ }
  cases task with
  | soon cause reason =>
    exact Kept.call base (quiet_eq quiet).2 begun ((fits tMs).alike ⟨rfl, rfl, rfl, rfl⟩) h
  | deadline root due =>
    unfold Calls.runTask at h
    dsimp only at h
    split at h
    · rename_i reached
      refine Kept.call base (quiet_eq quiet).2 begun ?_ h
      rw [Fits] at fits
      rw [fits] at reached
      exact reached
    · cases h

theorem Kept.resume (kept : Kept c) (h : c.resume tMs = some c') : Kept c' := by
  unfold Calls.resume at h
  cases opening : c.opening with
  | none =>
    rw [opening] at h
    cases h
  | some o =>
    rw [opening] at h
    have opened : c.opened = none := by
      rcases kept.apart with none_ | none_
      · rw [opening] at none_
        cases none_
      · exact none_
    have calls : c.calls = [o] := by simp [Calls.calls, opened, opening]
    have after : Kept { c with opened := some o, opening := none, deadlineMs := none } :=
      { kept.toBase with
        apart := .inl rfl
        once := by
          rw [kept.once, calls]
          rfl
        told := fun o' ho => (kept.told o' (calls ▸ ho)).alike ⟨rfl, rfl, rfl, rfl⟩
        tasks := fun t ht => (kept.tasks t ht).alike ⟨rfl, rfl, rfl, rfl⟩
        idle := fun fresh => by
          have := (kept.idle fresh).1
          rw [calls] at this
          cases this
        waits := fun _ none_ => by cases none_
        ready := fun _ none_ => by cases none_ }
    dsimp only at h
    split at h
    · cases h
      exact after
    · exact after.emit (emits_of_emit h) rfl

/-- What an event spawns. -/
theorem onEvent_cases (c : Calls) (e : Event) :
    (c.onEvent e = c ∧ (c.opened = none → c.deadlineMs.isSome = true → publicFact e = true →
        missing c.bus.bb c.need ≠ [])) ∨
      c.deadlineMs.isSome = true ∧
        ((c.onEvent e = { c with tasks := c.tasks ++ [.soon e.seq .ready] } ∧
          missing c.bus.bb c.need = []) ∨
        (c.onEvent e = { c with tasks := c.tasks ++ [.soon e.seq .slowStart] } ∧
          startsCall e = true ∧ publicFact e = false)) := by
  unfold Calls.onEvent
  by_cases shut : (c.opened.isSome || c.deadlineMs.isNone) = true
  · rw [if_pos shut]
    refine .inl ⟨rfl, fun opened deadline => ?_⟩
    cases due : c.deadlineMs <;> simp [opened, due] at shut deadline
  · rw [if_neg shut]
    have due : c.deadlineMs.isSome = true := by
      cases due : c.deadlineMs <;> simp [due] at shut ⊢
    cases hp : e.payload with
    | factRecorded scope =>
      cases scope with
      | privately => exact .inl ⟨rfl, fun _ _ fact => by simp [publicFact, hp] at fact⟩
      | publicly =>
        by_cases all : missing c.bus.bb c.need = []
        · exact .inr ⟨due, .inl ⟨by simp [all], all⟩⟩
        · exact .inl ⟨by simp [all], fun _ _ _ => all⟩
    | slowTool name text ok =>
      by_cases start : (name = "start_call" && ok) = true
      · exact .inr ⟨due, .inr ⟨by simp only [start, if_true], by simp only [startsCall, hp, start],
          by simp only [publicFact, hp]⟩⟩
      · refine .inl ⟨by simp only [start]; rfl, fun _ _ fact => ?_⟩
        simp [publicFact, hp] at fact
    | _ => exact .inl ⟨rfl, fun _ _ fact => by simp [publicFact, hp] at fact⟩

theorem Kept.deliver {rest : List Event} (kept : Kept c) (next : c.undelivered = e :: rest) :
    Kept ({ c with undelivered := rest }.onEvent e) := by
  have listed : e ∈ c.bus.events := kept.listed e (next ▸ List.mem_cons_self)
  have base : Base { c with undelivered := rest } :=
    { kept.toBase with
      listed := fun x hx => kept.listed x (next ▸ List.mem_cons_of_mem _ hx)
      told := fun o ho => (kept.told o ho).alike ⟨rfl, rfl, rfl, rfl⟩
      tasks := fun t ht => (kept.tasks t ht).alike ⟨rfl, rfl, rfl, rfl⟩ }
  have begun : c.deadlineMs.isSome = true → c.started = true := by
    intro due
    cases fresh : c.started with
    | true => rfl
    | false => simp [(kept.idle fresh).2.2] at due
  have ready : c.started = true → c.calls = [] → missing c.bus.bb c.need = [] →
      publicFact e = false ∨ (∃ cause, .soon cause .ready ∈ c.tasks) →
      (∃ cause, .soon cause .ready ∈ c.tasks) ∨ ∃ x ∈ rest, publicFact x = true := by
    intro begun none_ all other
    rcases kept.ready begun none_ all with soon | ⟨x, hx, fact⟩
    · exact .inl soon
    · rw [next, List.mem_cons] at hx
      rcases hx with rfl | hx
      · exact .inl (other.resolve_left (by simp [fact]))
      · exact .inr ⟨x, hx, fact⟩
  have spawned (reason : Reason) (fits : Fits c (.soon e.seq reason)) (t : Task)
      (ht : t ∈ c.tasks ++ [.soon e.seq reason]) : Fits c t := by
    rcases List.mem_append.mp ht with ht | ht
    · exact kept.tasks t ht
    · exact List.mem_singleton.mp ht ▸ fits
  rcases onEvent_cases { c with undelivered := rest } e with
    ⟨same, blocked⟩ | ⟨due, ⟨same, all⟩ | ⟨same, starts, other⟩⟩
  · rw [same]
    refine { base with idle := kept.idle, waits := kept.waits, ready := fun begun none_ all => ?_ }
    refine ready begun none_ all ?_
    cases fact : publicFact e with
    | false => exact .inl rfl
    | true =>
      have opened : c.opened = none := by
        cases o : c.opened <;> simp [Calls.calls, o] at none_ ⊢
      exact absurd all (blocked opened (kept.waits begun none_).1 fact)
  · rw [same]
    exact { base with
      told := fun o ho => (kept.told o ho).alike ⟨rfl, rfl, rfl, rfl⟩
      tasks := fun t ht => (spawned .ready (fun _ => all) t ht).alike ⟨rfl, rfl, rfl, rfl⟩
      idle := fun fresh => absurd ((begun due).symm.trans fresh) (by simp)
      waits := fun begun none_ => by
        obtain ⟨due, root, at_, mem⟩ := kept.waits begun none_
        exact ⟨due, root, at_, List.mem_append_left _ mem⟩
      ready := fun _ _ _ =>
        .inl ⟨e.seq, List.mem_append_right _ (List.mem_singleton.mpr rfl)⟩ }
  · rw [same]
    have fits : Fits c (.soon e.seq .slowStart) := fun _ => ⟨e, listed, rfl, starts⟩
    exact { base with
      told := fun o ho => (kept.told o ho).alike ⟨rfl, rfl, rfl, rfl⟩
      tasks := fun t ht => (spawned .slowStart fits t ht).alike ⟨rfl, rfl, rfl, rfl⟩
      idle := fun fresh => absurd ((begun due).symm.trans fresh) (by simp)
      waits := fun begun none_ => by
        obtain ⟨due, root, at_, mem⟩ := kept.waits begun none_
        exact ⟨due, root, at_, List.mem_append_left _ mem⟩
      ready := fun begun none_ all => by
        rcases ready begun none_ all (.inl other) with ⟨cause, mem⟩ | fact
        · exact .inl ⟨cause, List.mem_append_left _ mem⟩
        · exact .inr fact }

theorem Kept.step {a : Act} (kept : Kept c) (h : c.step a = some c') : Kept c' := by
  cases a with
  | start tMs root =>
    obtain ⟨allowed, h⟩ := Option.ite_none_right_eq_some.mp h
    rw [Bool.and_eq_true, Bool.not_eq_true'] at allowed
    exact kept.start allowed.1 allowed.2 h
  | run tMs n =>
    unfold Calls.step at h
    dsimp only at h
    cases found : c.tasks[n]? with
    | none =>
      rw [found] at h
      cases h
    | some task =>
      rw [found] at h
      obtain ⟨quiet, h⟩ := Option.ite_none_right_eq_some.mp h
      exact kept.run quiet found h
  | resume tMs => exact kept.resume (Option.ite_none_right_eq_some.mp h).2
  | deliver =>
    unfold Calls.step at h
    dsimp only at h
    cases next : c.undelivered with
    | nil =>
      rw [next] at h
      cases h
    | cons e rest =>
      rw [next] at h
      cases h
      exact kept.deliver next
  | env tMs actor causes p =>
    unfold Calls.step at h
    dsimp only at h
    split at h
    · cases h
    · rename_i other
      refine kept.emit (emits_of_emit h) ?_
      cases p with
      | chanOpened lane =>
        cases lane with
        | user => rfl
        | cp => exact absurd rfl other
      | _ => rfl

/-! ## Runs -/

def gate (runId : String) (need : List String) (intake : Bool) : Calls :=
  { need, intake, bus := { runId } }

theorem kept_gate (runId : String) (need : List String) (intake : Bool) :
    Kept (gate runId need intake) where
  sound := Bus.sound_new runId
  listed := by simp [gate]
  apart := .inl rfl
  once := rfl
  told := by simp [gate, Calls.calls]
  tasks := by simp [gate]
  idle := fun _ => ⟨rfl, rfl, rfl⟩
  waits := fun begun => by cases begun
  ready := fun begun => by cases begun

/-- However the tasks, the deliveries and the rest of the session interleave: the lane is opened at
most once; the opening tells what was missing and a reason that holds; and until then the deadline
is pending, and as soon as nothing is missing and all is delivered, so is the call. -/
theorem opens_once {runId : String} {need : List String} {intake : Bool}
    (h : Lib.Reach Calls.step Lib.anyStep (gate runId need intake) c) :
    c.bus.events.countP opens = c.calls.length ∧ c.calls.length ≤ 1 ∧
      (∀ o ∈ c.calls, Told c o) ∧
      (c.started = true → c.calls = [] →
        (∃ root, .deadline root (c.startMs + intakeMs) ∈ c.tasks) ∧
          (c.undelivered = [] → missing c.bus.bb c.need = [] →
            ∃ cause, .soon cause .ready ∈ c.tasks)) := by
  have kept : Kept c := h.invariant (kept_gate runId need intake) fun _ kept _ hs => kept.step hs
  refine ⟨kept.once, ?_, kept.told, fun begun none_ => ⟨?_, fun delivered all => ?_⟩⟩
  · rcases kept.apart with none_ | none_ <;> rw [Calls.calls, none_]
    · cases c.opened <;> simp
    · cases c.opening <;> simp
  · obtain ⟨-, root, due, mem⟩ := kept.waits begun none_
    have fits := kept.tasks _ mem
    rw [Fits] at fits
    exact ⟨root, fits ▸ mem⟩
  · rcases kept.ready begun none_ all with soon | ⟨x, hx, -⟩
    · exact soon
    · exact absurd (delivered ▸ hx) List.not_mem_nil

end

/-- The user's last digits make the case ready; Slow's start comes too late. -/
def sampleActs : List Act :=
  [.env 0 .kernel [] (.userMsg "It ends in 4711."), .deliver, .start 10 0,
    .env 20 .slow [0] (.factRecorded .publicly "account.last4" "4711" .shareable (some "r1:0")),
    .env 20 .slow [0] (.slowTool "start_call" "ok" true), .deliver, .deliver, .run 30 1,
    .deliver, .resume 30, .deliver, .run 40 1]

def sampleNeed : List String := required [.user, .cp] ["account.last4"]

def sampleGate : Calls :=
  (Lib.run Calls.step (gate "r1" sampleNeed true) sampleActs).getD (gate "r1" [] true)

theorem opens_once_sample :
    sampleGate.bus.events.countP opens = sampleGate.calls.length ∧ sampleGate.calls.length ≤ 1 := by
  have ran : Lib.run Calls.step (gate "r1" sampleNeed true) sampleActs = some sampleGate := rfl
  have h : Lib.Reach Calls.step Lib.anyStep (gate "r1" sampleNeed true) sampleGate :=
    Lib.Reach.run .start ran
  exact ⟨(opens_once h).1, (opens_once h).2.1⟩

end ProxyLoop.Gate

import ProxyLoop.Kernel.Fence
import ProxyLoop.Lib.Trace

/-!
# The bus with the Authority subscribed

An outer emit appends one event and then delivers the queue: each event's handler runs to its end,
its own emits appended and queued behind, before the next event is delivered and before the outer
code goes on.  A `Desk` is the bus, the Authority and where the delivery stands; what the outer
code emits is left to the environment, which may emit anything but a fence.  The one other
subscriber that emits ends a moot hold (`chan.hold`), between two handlers of the Authority.

A rejected emit raises out of the bus, so a desk whose next reaction is rejected has no next step.
-/

namespace ProxyLoop

structure Desk where
  session : Session
  bus : Bus
  now : Nat := 0
  /-- the closing turn of the call has begun -/
  closed : Bool := false
  auth : Authority := {}
  /-- the rest of the running handler -/
  handler : List Reaction := []
  undelivered : List Event := []

/-- One step of a desk; `tMs` is the clock as the step emits. -/
inductive DeskAct
  | tick (tMs : Nat)
  | react (tMs : Nat)
  | deliver
  | close
  | env (tMs : Nat) (actor : Actor) (causes : List Nat) (p : Payload)

namespace Desk

/-- `session.started` is the first event of the log. -/
def start (session : Session) (runId : String) : Desk := { session, bus := { runId } }

/-- Every emitted event was delivered and its handler ran. -/
def quiet (d : Desk) : Bool := d.handler.isEmpty && d.undelivered.isEmpty

def emit (d : Desk) (tMs : Nat) (actor : Actor) (causes : List Nat) (p : Payload) : Option Desk :=
  if tMs < d.now then none
  else (d.bus.emit tMs actor causes p).map fun bus =>
    { d with bus, now := tMs, undelivered := d.undelivered ++ [d.bus.next tMs actor causes p] }

/-- `Authority.move`: the status change of the trigger, if it is legal now. -/
def move (d : Desk) (tMs : Nat) (trigger : Trigger) (cause : Nat) : Option Desk :=
  match nextStatus d.bus.bb.pub.status trigger with
  | none => some d
  | some status => d.emit tMs .guard [cause] (.statusChanged ⟨d.bus.bb.pub.status, status⟩)

def react (d : Desk) (tMs : Nat) : Option Desk :=
  match d.handler with
  | [] => none
  | .emit actor causes p :: rest => { d with handler := rest }.emit tMs actor causes p
  | .move trigger cause :: rest => { d with handler := rest }.move tMs trigger cause

def deliver (d : Desk) : Option Desk :=
  match d.handler, d.undelivered with
  | [], e :: rest =>
    let (auth, handler) := d.auth.onEvent d.session d.closed d.bus.bb e
    some { d with auth, handler, undelivered := rest }
  | _, _ => none

/-- What the code outside the Authority may emit: no fence, and a `chan.closed` only for a call
whose closing turn has begun. -/
def outer (d : Desk) : Payload → Bool
  | .authorityFence .. => false
  | .chanClosed _ => d.closed
  | _ => true

/-- A `chan.hold` between two handlers. -/
def held (d : Desk) : Payload → Bool
  | .chanHold _ => d.handler.isEmpty
  | _ => false

def step (d : Desk) : DeskAct → Option Desk
  | .tick tMs => if d.now ≤ tMs then some { d with now := tMs } else none
  | .react tMs => d.react tMs
  | .deliver => d.deliver
  | .close => if d.quiet then some { d with closed := true } else none
  | .env tMs actor causes p =>
    if d.quiet && d.outer p || d.held p then d.emit tMs actor causes p else none

/-! ## What a step is -/

theorem emit_eq_some {d d' : Desk} {tMs : Nat} {actor : Actor} {causes : List Nat} {p : Payload}
    (h : d.emit tMs actor causes p = some d') :
    ∃ bus, d.bus.emit tMs actor causes p = some bus ∧ d.now ≤ tMs ∧
      d' = { d with
        bus, now := tMs, undelivered := d.undelivered ++ [d.bus.next tMs actor causes p] } := by
  unfold emit at h
  split at h
  · cases h
  · rename_i hle
    obtain ⟨bus, hb, rfl⟩ := Option.map_eq_some_iff.mp h
    exact ⟨bus, hb, by omega, rfl⟩

theorem move_eq_some {d d' : Desk} {tMs : Nat} {trigger : Trigger} {cause : Nat}
    (h : d.move tMs trigger cause = some d') :
    (nextStatus d.bus.bb.pub.status trigger = none ∧ d' = d) ∨
      ∃ status, nextStatus d.bus.bb.pub.status trigger = some status ∧
        d.emit tMs .guard [cause] (.statusChanged ⟨d.bus.bb.pub.status, status⟩) = some d' := by
  unfold move at h
  split at h
  · rename_i hn
    exact Or.inl ⟨hn, (Option.some.inj h).symm⟩
  · rename_i status hn
    exact Or.inr ⟨status, hn, h⟩

/-- The steps of a desk, with what each is allowed by. -/
inductive Stepped (d : Desk) : Desk → Prop
  | tick (tMs : Nat) (later : d.now ≤ tMs) : Stepped d { d with now := tMs }
  | reacted {d' : Desk} (tMs : Nat) (actor : Actor) (causes : List Nat) (p : Payload)
      (rest : List Reaction) (next : d.handler = .emit actor causes p :: rest)
      (emitted : { d with handler := rest }.emit tMs actor causes p = some d') : Stepped d d'
  | moved {d' : Desk} (tMs : Nat) (trigger : Trigger) (cause : Nat) (rest : List Reaction)
      (status : CaseStatus) (next : d.handler = .move trigger cause :: rest)
      (legal : nextStatus d.bus.bb.pub.status trigger = some status)
      (emitted : { d with handler := rest }.emit tMs .guard [cause]
        (.statusChanged ⟨d.bus.bb.pub.status, status⟩) = some d') : Stepped d d'
  | unmoved (trigger : Trigger) (cause : Nat) (rest : List Reaction)
      (next : d.handler = .move trigger cause :: rest)
      (illegal : nextStatus d.bus.bb.pub.status trigger = none) :
      Stepped d { d with handler := rest }
  | delivered (e : Event) (rest : List Event) (idle : d.handler = [])
      (next : d.undelivered = e :: rest) :
      Stepped d { d with
        auth := (d.auth.onEvent d.session d.closed d.bus.bb e).1
        handler := (d.auth.onEvent d.session d.closed d.bus.bb e).2
        undelivered := rest }
  | closed (idle : d.handler = []) (none_left : d.undelivered = []) :
      Stepped d { d with closed := true }
  | env {d' : Desk} (tMs : Nat) (actor : Actor) (causes : List Nat) (p : Payload)
      (idle : d.handler = [])
      (outer : d.undelivered = [] ∧ d.outer p = true ∨ ∃ reason, p = .chanHold reason)
      (emitted : d.emit tMs actor causes p = some d') : Stepped d d'

theorem quiet_iff {d : Desk} : d.quiet = true ↔ d.handler = [] ∧ d.undelivered = [] := by
  simp [quiet]

theorem held_iff {d : Desk} {p : Payload} :
    d.held p = true ↔ d.handler = [] ∧ ∃ reason, p = .chanHold reason := by
  cases p <;> simp [held]

theorem stepped {d d' : Desk} {a : DeskAct} (h : d.step a = some d') : Stepped d d' := by
  cases a with
  | tick tMs =>
    simp only [step] at h
    split at h
    · cases h; exact .tick tMs ‹_›
    · cases h
  | react tMs =>
    simp only [step, react] at h
    split at h
    · cases h
    · rename_i actor causes p rest hn
      exact .reacted tMs actor causes p rest hn h
    · rename_i trigger cause rest hn
      rcases move_eq_some h with ⟨illegal, rfl⟩ | ⟨status, legal, emitted⟩
      · exact .unmoved trigger cause rest hn illegal
      · exact .moved tMs trigger cause rest status hn legal emitted
  | deliver =>
    simp only [step, deliver] at h
    split at h
    · rename_i e rest hh hn
      cases h
      exact .delivered e rest hh hn
    · cases h
  | close =>
    simp only [step] at h
    split at h
    · rename_i hq
      cases h
      exact .closed (quiet_iff.mp hq).1 (quiet_iff.mp hq).2
    · cases h
  | env tMs actor causes p =>
    simp only [step] at h
    split at h
    · rename_i hq
      simp only [Bool.or_eq_true, Bool.and_eq_true] at hq
      rcases hq with ⟨hq, ho⟩ | hh
      · exact .env tMs actor causes p (quiet_iff.mp hq).1 (Or.inl ⟨(quiet_iff.mp hq).2, ho⟩) h
      · obtain ⟨hi, reason⟩ := held_iff.mp hh
        exact .env tMs actor causes p hi (Or.inr reason) h
    · cases h

end Desk

end ProxyLoop

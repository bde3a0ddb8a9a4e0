import Mathlib.Logic.Relation
import ProxyLoop.Kernel.Cards

/-!
# Blocks come to an end

`Kernel.finish` runs a block to its end, each event delivered before the next, with `clock n` the
reading that stamps event `n` and `causes n` what it cites.  A block whose events the bus accepts
gets there, through its tasks, their deliveries and what the Authority does about them.
-/

namespace ProxyLoop

open Lib (Dict Reach anyStep)

/-! ## Running a block -/

namespace Kernel

/-- The next step of the code at work: the running handler, then the next delivery, then the next
task of the block. -/
def advance (host : Host) (clock : Nat → Nat) (causes : Nat → List Nat) (k : Kernel) :
    Option Kernel :=
  if k.desk.handler ≠ [] then k.step host (.react (clock k.log.length))
  else if k.desk.undelivered ≠ [] then k.step host .deliver
  else k.step host (.next (clock k.log.length) (causes k.log.length))

/-- The kernel once the block has ended, within so many steps; `none` where an emit raises. -/
def finish (host : Host) (clock : Nat → Nat) (causes : Nat → List Nat) : Nat → Kernel → Option Kernel
  | 0, _ => none
  | n + 1, k => if k.idle then some k else (k.advance host clock causes).bind (finish host clock causes n)

/-- The steps that finish what has begun: the deliveries, the reactions and the rest of the block,
with a moot hold between them. -/
def finishing (_ : Kernel) : Kernel.Act → Prop
  | .tick _ | .react _ | .deliver | .next .. => True
  | .world _ _ _ p => p.isHold = true
  | _ => False

/-- From `k` the block gets to `k'`. -/
def Leads (host : Host) (clock : Nat → Nat) (causes : Nat → List Nat) : Kernel → Kernel → Prop :=
  Relation.ReflTransGen fun k k' => k.idle = false ∧ k.advance host clock causes = some k'

/-- The session goes on: by a clock that does not go back, with causes that the bus accepts. -/
structure GoesOn (k : Kernel) (clock : Nat → Nat) (causes : Nat → List Nat) : Prop where
  going : k.desk.bus.ended = false
  mono : Monotone clock
  later : k.desk.now ≤ clock k.log.length
  cites : ∀ n, k.log.length ≤ n → causes n ≠ [] ∧ ∀ c ∈ causes n, c < n

section finish

variable {host : Host} {clock : Nat → Nat} {causes : Nat → List Nat} {k k' : Kernel}

theorem leads_of_advance (busy : k.idle = false) (h : k.advance host clock causes = some k') :
    Leads host clock causes k k' := .single ⟨busy, h⟩

theorem Leads.reach (h : Leads host clock causes k k') :
    Reach (Kernel.step host) finishing k k' := by
  induction h with
  | refl => exact .start
  | tail _ h ih =>
    obtain ⟨-, h⟩ := h
    unfold advance at h
    split at h
    · exact .next (.react _) ih trivial h
    · split at h
      · exact .next .deliver ih trivial h
      · exact .next (.next _ _) ih trivial h

theorem finish_of_leads (h : Leads host clock causes k k') (idle : k'.idle = true) :
    ∃ n, finish host clock causes n k = some k' := by
  induction h using Relation.ReflTransGen.head_induction_on with
  | refl => exact ⟨1, by rw [finish, if_pos idle]⟩
  | head h _ ih =>
    obtain ⟨busy, h⟩ := h
    obtain ⟨n, hn⟩ := ih
    exact ⟨n + 1, by rw [finish, busy, h]; exact hn⟩

theorem leads_of_finish {n : Nat} (h : finish host clock causes n k = some k') :
    Leads host clock causes k k' ∧ k'.idle = true := by
  induction n generalizing k with
  | zero => cases h
  | succ n ih =>
    unfold finish at h
    split at h
    · cases h
      exact ⟨.refl, ‹_›⟩
    · rename_i busy
      obtain ⟨k₁, h₁, h⟩ := Option.bind_eq_some_iff.mp h
      obtain ⟨leads, idle⟩ := ih h
      exact ⟨.head ⟨by simpa using busy, h₁⟩ leads, idle⟩

/-- A block that gets to a kernel with no next step never ends. -/
theorem finish_stuck (h : Leads host clock causes k k') (busy : k'.idle = false)
    (stuck : k'.advance host clock causes = none) (n : Nat) : finish host clock causes n k = none := by
  induction h using Relation.ReflTransGen.head_induction_on generalizing n with
  | refl =>
    cases n with
    | zero => rfl
    | succ n => rw [finish, busy, stuck]; rfl
  | head h _ ih =>
    obtain ⟨busy, h⟩ := h
    cases n with
    | zero => rfl
    | succ n =>
      rw [finish, busy, h]
      exact ih n

end finish

end Kernel

/-! ## One event -/

/-- The desk once the event is written and nothing is delivered yet. -/
def Desk.put (d : Desk) (tMs : Nat) (actor : Actor) (causes : List Nat) (p : Payload)
    (bb : Blackboard) : Desk :=
  let e := d.bus.next tMs actor causes p
  { d with
    bus := { d.bus with bb, events := d.bus.events ++ [e] }
    now := tMs
    undelivered := d.undelivered ++ [e] }

def Kernel.put (k : Kernel) (tMs : Nat) (actor : Actor) (causes : List Nat) (p : Payload)
    (todo : List Task) (bb : Blackboard) : Kernel :=
  { k with desk := k.desk.put tMs actor causes p bb, todo, lines := k.lines ++ k.spawned p }

/-- The actor may emit the type. -/
def Payload.emittedBy (p : Payload) (actor : Actor) : Bool :=
  (match p.emitters with
    | some actors => actors.contains actor
    | none => true) &&
  match p.fromWorld with
  | some world => world = Decidable.decide (actor = .world)
  | none => true

section write

variable {host : Host} {k k' : Kernel} {tMs : Nat} {actor : Actor} {causes : List Nat}
  {p : Payload} {todo : List Task} {bb : Blackboard}

theorem Bus.ended_snoc {b : Bus} {e : Event} (going : ∀ reason, e.payload ≠ .sessionEnded reason) :
    Bus.ended { b with events := b.events ++ [e] } = false := by
  unfold Bus.ended
  simp only [List.getLast?_append, List.getLast?_singleton, Option.some_or]
  split
  · rename_i h
    cases h
    exact absurd rfl (going _)
  · rfl

theorem Bus.emit_eq {b : Bus} (going : b.ended = false) (order : b.inOrder tMs = true)
    (wf : (b.next tMs actor causes p).wellFormed = true)
    (ok : apply b.bb (b.next tMs actor causes p) = .ok bb)
    (cited : (b.next tMs actor causes p).isDecision = true →
      checkCauses b.events (b.next tMs actor causes p) = true) :
    b.emit tMs actor causes p = some { b with bb, events := b.events ++ [b.next tMs actor causes p] } := by
  unfold Bus.emit
  simp only [going, wf, ok, order, Bool.not_true, Bool.or_self, Bool.false_eq_true, if_false,
    Bool.false_or]
  rw [if_neg]
  intro h
  simp only [Bool.and_eq_true, Bool.not_eq_eq_eq_not, Bool.not_true] at h
  rw [cited h.1] at h
  cases h.2

theorem Bus.wellFormed_next {b : Bus} (cites : causes ≠ [] ∧ ∀ c ∈ causes, c < b.events.length)
    (by_ : p.emittedBy actor = true) : (b.next tMs actor causes p).wellFormed = true := by
  obtain ⟨some_, before⟩ := cites
  unfold Payload.emittedBy at by_
  rw [Bool.and_eq_true] at by_
  simp only [Event.wellFormed, Bool.and_eq_true, List.all_eq_true, decide_eq_true_eq, Bool.or_eq_true]
  exact ⟨⟨⟨Or.inr some_, before⟩, by_.1⟩, by_.2⟩

theorem KernelInv.inOrder (inv : KernelInv host k) (later : k.desk.now ≤ tMs) :
    k.desk.bus.inOrder tMs = true := by
  unfold Bus.inOrder
  rcases List.eq_nil_or_concat k.desk.bus.events with h | ⟨log, e, h⟩
  · simp [h]
  · have hf := inv.fence.sound.fold
    rw [h, List.concat_eq_append] at hf
    obtain ⟨b, -, ha⟩ := fold_snoc.mp hf
    have last := tMs_of_apply ha
    have clock := inv.clock
    rw [Kernel.board] at clock
    simp only [h, List.concat_eq_append, List.getLast?_append, List.getLast?_singleton,
      Option.some_or, Option.all_some, decide_eq_true_eq]
    omega

theorem Desk.emit_eq {d : Desk} (going : d.bus.ended = false) (order : d.bus.inOrder tMs = true)
    (later : d.now ≤ tMs) (wf : (d.bus.next tMs actor causes p).wellFormed = true)
    (ok : apply d.bus.bb (d.bus.next tMs actor causes p) = .ok bb)
    (cited : (d.bus.next tMs actor causes p).isDecision = true →
      checkCauses d.bus.events (d.bus.next tMs actor causes p) = true) :
    d.emit tMs actor causes p = some (d.put tMs actor causes p bb) := by
  unfold Desk.emit
  rw [if_neg (by omega), Bus.emit_eq going order wf ok cited]
  rfl

/-- An event that the bus and its reducer accept is written. -/
theorem Kernel.emit_eq (order : k.desk.bus.inOrder tMs = true) (quiet : k.desk.quiet = true)
    (outer : k.desk.outer p = true) (going : k.desk.bus.ended = false)
    (later : k.desk.now ≤ tMs) (wf : (k.desk.bus.next tMs actor causes p).wellFormed = true)
    (ok : apply k.board (k.desk.bus.next tMs actor causes p) = .ok bb)
    (cited : (k.desk.bus.next tMs actor causes p).isDecision = true →
      checkCauses k.log (k.desk.bus.next tMs actor causes p) = true) :
    k.emit tMs actor causes p todo = some (k.put tMs actor causes p todo bb) := by
  unfold Kernel.emit
  simp only [Desk.step, quiet, outer, Bool.and_self, Bool.true_or, if_true,
    Desk.emit_eq going order later wf ok cited]
  rfl

/-- An event its reducer rejects is not written. -/
theorem Kernel.emit_none
    (rejected : ∀ bb, apply k.board (k.desk.bus.next tMs actor causes p) ≠ .ok bb) :
    k.emit tMs actor causes p todo = none := by
  by_contra some_
  obtain ⟨k', h⟩ := Option.ne_none_iff_exists'.mp some_
  obtain ⟨desk, hd, -⟩ := Option.map_eq_some_iff.mp h
  simp only [Desk.step] at hd
  split at hd
  · obtain ⟨bus, hb, -, -⟩ := Desk.emit_eq_some hd
    exact rejected _ (Bus.emitted_of_emit hb).applied
  · cases hd

end write

/-! ## What nobody reacts to -/

def Payload.reacts : Payload → Bool
  | .userMsg _ | .uttFinal .. | .actionAuthorized _ | .chanClosed _ | .authorityEpoch _
  | .slowStepCompleted _ | .f2sMsg _ => true
  | _ => false

/-- No handler reacts to it. -/
def Payload.Inert (p : Payload) : Prop :=
  ∀ (s : Session) (closed : Bool) (bb : Blackboard) (a : Authority) (e : Event), e.payload = p →
    (a.onEvent s closed bb e).2 = []

theorem inert_of_calm {p : Payload} (calm : p.reacts = false) : p.Inert := by
  intro s closed bb a e hp
  unfold Authority.onEvent
  rw [hp]
  cases p with
  | statusChanged c =>
    obtain ⟨was, status⟩ := c
    cases status <;> rfl
  | _ => first | rfl | cases calm

/-- An event that cites no post, and after which the log goes on. -/
def Payload.plain : Payload → Bool
  | .approvalDecided _ | .mandateDecided _ | .sessionEnded _ => false
  | _ => true

theorem undecided_of_plain {p : Payload} {e : Event} (h : p.plain = true) (hp : e.payload = p) :
    e.isDecision = false := by
  unfold Event.isDecision
  rw [hp]
  cases p <;> first | rfl | cases h

theorem unended_of_plain {p : Payload} (h : p.plain = true) (reason : String) :
    p ≠ .sessionEnded reason := by
  rintro rfl
  cases h

/-! ## Deliveries and reactions -/

/-- The block got from `k` to `k'`: it wrote `written`, delivered it all, and goes on with `todo`. -/
structure Ran (host : Host) (clock : Nat → Nat) (k k' : Kernel) (written : List Event)
    (todo : List Task) : Prop where
  inv : KernelInv host k'
  quiet : k'.desk.quiet = true
  going : k'.desk.bus.ended = false
  later : k'.desk.now ≤ clock k'.log.length
  log : k'.log = k.log ++ written
  board : fold written k.board = .ok k'.board
  todo_eq : k'.todo = todo

/-- A status move that no verifier judges. -/
def Trigger.Unverified (trigger : Trigger) : Prop :=
  ∀ was status, nextStatus was trigger = some status → verifiedReleases status = none

theorem unverified {trigger : Trigger} (unjudged : trigger ∉ [.completionOk, .noDealVerified]) :
    trigger.Unverified := by
  intro was status legal
  cases status with
  | verifiedComplete => cases was <;> cases trigger <;> simp_all [nextStatus, transitions, terminal]
  | verifiedNoDeal => cases was <;> cases trigger <;> simp_all [nextStatus, transitions, terminal]
  | _ => rfl

/-- A reaction that is written whatever the board: a fence, or a status move. -/
def Reaction.Sure (n : Nat) : Reaction → Prop
  | .emit actor causes p => p.emittedBy actor = true ∧ (causes ≠ [] ∧ ∀ c ∈ causes, c < n) ∧
      ∃ op id utt, p = .authorityFence op id utt
  | .move trigger cause => cause < n ∧ trigger.Unverified

section block

variable {host : Host} {k k₁ k' k'' : Kernel} {clock : Nat → Nat} {cited : Nat → List Nat}
  {actor : Actor} {p : Payload} {todo todo' : List Task} {bb : Blackboard} {e : Event}
  {written more : List Event} {trigger : Trigger}

theorem Ran.trans (h : Ran host clock k k' written todo) (h' : Ran host clock k' k'' more todo') :
    Ran host clock k k'' (written ++ more) todo' :=
  { h' with
    log := by rw [h'.log, h.log, List.append_assoc]
    board := fold_append.mpr ⟨_, h.board, h'.board⟩ }

/-- The run after a first event. -/
theorem Ran.cons (log : k₁.log = k.log ++ [e]) (applied : apply k.board e = .ok k₁.board)
    (ran : Ran host clock k₁ k' written todo) : Ran host clock k k' (e :: written) todo :=
  { ran with
    log := by rw [ran.log, log, List.append_assoc]; rfl
    board := fold_cons.mpr ⟨_, applied, ran.board⟩ }

theorem Ran.goesOn (ran : Ran host clock k k' written todo) (on : k.GoesOn clock cited) :
    k'.GoesOn clock cited :=
  ⟨ran.going, on.mono, ran.later, fun n le => on.cites n (by
    rw [ran.log, List.length_append] at le
    omega)⟩

theorem Kernel.GoesOn.here (on : k.GoesOn clock cited) :
    cited k.log.length ≠ [] ∧ ∀ c ∈ cited k.log.length, c < k.log.length :=
  on.cites _ (Nat.le_refl _)

theorem Kernel.goesOn_of_wrote (mono : Monotone clock)
    (cites : ∀ n, k.log.length < n → cited n ≠ [] ∧ ∀ c ∈ cited n, c < n)
    (log : k₁.log = k.log ++ [e]) (now : k₁.desk.now = clock k.log.length)
    (unended : ∀ reason, e.payload ≠ .sessionEnded reason) : k₁.GoesOn clock cited := by
  have length : k₁.log.length = k.log.length + 1 := by rw [log]; simp
  refine ⟨?_, mono, ?_, fun n le => cites n (by omega)⟩
  · have := Bus.ended_snoc (b := k₁.desk.bus) (e := e) unended
    unfold Bus.ended at this ⊢
    rw [show k₁.desk.bus.events = k.log ++ [e] from log]
    simpa using this
  · rw [now, length]
    exact mono (Nat.le_succ _)

theorem Kernel.GoesOn.wrote (on : k.GoesOn clock cited) (log : k₁.log = k.log ++ [e])
    (now : k₁.desk.now = clock k.log.length) (unended : ∀ reason, e.payload ≠ .sessionEnded reason) :
    k₁.GoesOn clock cited :=
  Kernel.goesOn_of_wrote on.mono (fun n lt => on.cites n lt.le) log now unended

theorem advance_next (quiet : k.desk.quiet = true) :
    k.advance host clock cited = k.runNext (clock k.log.length) (cited k.log.length) := by
  obtain ⟨hh, hu⟩ := Desk.quiet_iff.mp quiet
  simp only [Kernel.advance, Kernel.step, hh, hu, ne_eq, not_true_eq_false, if_false, quiet, if_true]

theorem busy_of_todo {t : Task} (next : k.todo = t :: todo) : k.idle = false := by
  simp [Kernel.idle, next]

theorem step_deliver {rest : List Event} (idle : k.desk.handler = [])
    (next : k.desk.undelivered = e :: rest) : k.step host .deliver = some (k.handled e rest) := by
  simp only [Kernel.step, Kernel.internal, Desk.step, Desk.deliver, idle, next, Option.map_some]
  rfl

theorem leads_of_delivery {rest : List Event} (idle : k.desk.handler = [])
    (next : k.desk.undelivered = e :: rest) : Kernel.Leads host clock cited k (k.handled e rest) := by
  refine Kernel.leads_of_advance ?_ ?_
  · simp [Kernel.idle, Desk.quiet, next]
  · rw [Kernel.advance, if_neg (by simp [idle]), if_pos (by simp [next]), step_deliver idle next]

theorem leads_of_deliveries (inv : KernelInv host k) (on : k.GoesOn clock cited)
    (idle : k.desk.handler = []) (calm : ∀ e ∈ k.desk.undelivered, e.payload.Inert) :
    ∃ k', Kernel.Leads host clock cited k k' ∧ Ran host clock k k' [] k.todo := by
  generalize next : k.desk.undelivered = waiting at calm
  induction waiting generalizing k with
  | nil =>
    exact ⟨k, .refl, inv, Desk.quiet_iff.mpr ⟨idle, next⟩, on.going, on.later,
      (List.append_nil _).symm, rfl, rfl⟩
  | cons e rest ih =>
    obtain ⟨head, tail⟩ := List.forall_mem_cons.mp calm
    have inv₁ := (inv.step (step_deliver idle next)).1
    obtain ⟨k', leads, ran⟩ := ih (k := k.handled e rest) inv₁
      ⟨on.going, on.mono, on.later, on.cites⟩ (head _ _ _ _ _ rfl) rfl tail
    exact ⟨k', (leads_of_delivery idle next).trans leads,
      ⟨ran.inv, ran.quiet, ran.going, ran.later, ran.log, ran.board, ran.todo_eq⟩⟩

theorem apply_statusChanged {e : Event} {b : Blackboard} {trigger : Trigger} {status : CaseStatus}
    (legal : nextStatus b.pub.status trigger = some status)
    (unverified : verifiedReleases status = none)
    (hp : e.payload = .statusChanged ⟨b.pub.status, status⟩) :
    apply b e = .ok (stamp { b with pub := { b.pub with status } } e) := by
  refine apply_eq_ok.mpr ⟨{ b with pub := { b.pub with status } }, ?_, rfl⟩
  simp only [reduce, hp, statusChanged, require_bind, pure_eq_ok, and_true]
  refine ⟨trivial, isEdge_of_nextStatus legal, fun n hn => ?_⟩
  rw [unverified] at hn
  cases hn

/-- The bus and the reducer accept the event, which needs no post and does not end the log. -/
structure Kernel.Takes (k : Kernel) (tMs : Nat) (actor : Actor) (causes : List Nat) (p : Payload)
    (bb : Blackboard) : Prop where
  cites : causes ≠ [] ∧ ∀ c ∈ causes, c < k.log.length
  by_ : p.emittedBy actor = true
  plain : p.plain = true
  ok : apply k.board (k.desk.bus.next tMs actor causes p) = .ok bb

theorem Kernel.Takes.desk {causes : List Nat} {rest : List Reaction}
    (takes : k.Takes (clock k.log.length) actor causes p bb) (inv : KernelInv host k)
    (on : k.GoesOn clock cited) :
    { k.desk with handler := rest }.emit (clock k.log.length) actor causes p =
      some ({ k.desk with handler := rest }.put (clock k.log.length) actor causes p bb) :=
  Desk.emit_eq on.going (inv.inOrder on.later) on.later
    (Bus.wellFormed_next takes.cites takes.by_) takes.ok fun decision => by
      rw [undecided_of_plain takes.plain rfl] at decision
      cases decision

theorem Kernel.Takes.emit {causes : List Nat} (takes : k.Takes (clock k.log.length) actor causes p bb)
    (inv : KernelInv host k) (on : k.GoesOn clock cited) (quiet : k.desk.quiet = true)
    (outer : k.desk.outer p = true) :
    k.emit (clock k.log.length) actor causes p todo =
      some (k.put (clock k.log.length) actor causes p todo bb) :=
  Kernel.emit_eq (inv.inOrder on.later) quiet outer on.going on.later
    (Bus.wellFormed_next takes.cites takes.by_)
    takes.ok fun decision => by
      rw [undecided_of_plain takes.plain rfl] at decision
      cases decision

def Kernel.reacted (k : Kernel) (tMs : Nat) (actor : Actor) (causes : List Nat) (p : Payload)
    (rest : List Reaction) (bb : Blackboard) : Kernel :=
  { k with desk := { k.desk with handler := rest }.put tMs actor causes p bb }

theorem leads_of_reaction {r : Reaction} {rest : List Reaction} {causes : List Nat}
    (inv : KernelInv host k) (on : k.GoesOn clock cited) (next : k.desk.handler = r :: rest)
    (react : k.desk.react (clock k.log.length) =
      { k.desk with handler := rest }.emit (clock k.log.length) actor causes p)
    (takes : k.Takes (clock k.log.length) actor causes p bb) :
    Kernel.Leads host clock cited k (k.reacted (clock k.log.length) actor causes p rest bb) ∧
      KernelInv host (k.reacted (clock k.log.length) actor causes p rest bb) ∧
      (k.reacted (clock k.log.length) actor causes p rest bb).GoesOn clock cited := by
  have step : k.step host (.react (clock k.log.length)) =
      some (k.reacted (clock k.log.length) actor causes p rest bb) := by
    simp only [Kernel.step, Kernel.internal, Desk.step, react, takes.desk inv on, Option.map_some]
    rfl
  refine ⟨Kernel.leads_of_advance ?_ ?_, (inv.step step).1, ?_⟩
  · simp [Kernel.idle, Desk.quiet, next]
  · rw [Kernel.advance, if_pos (by simp [next]), step]
  · exact on.wrote rfl rfl fun reason h => unended_of_plain takes.plain reason h

theorem Reaction.Sure.mono {r : Reaction} {n m : Nat} (sure : r.Sure n) (le : n ≤ m) : r.Sure m := by
  cases r with
  | emit actor causes p =>
    obtain ⟨by_, ⟨some_, before⟩, fence⟩ := sure
    exact ⟨by_, ⟨some_, fun c hc => Nat.lt_of_lt_of_le (before c hc) le⟩, fence⟩
  | move trigger cause => exact ⟨Nat.lt_of_lt_of_le sure.1 le, sure.2⟩

/-- The reactions to an event are written, and delivered. -/
theorem leads_of_handler {rs : List Reaction} (inv : KernelInv host k) (on : k.GoesOn clock cited)
    (next : k.desk.handler = rs) (sure : ∀ r ∈ rs, r.Sure k.log.length)
    (calm : ∀ e ∈ k.desk.undelivered, e.payload.Inert) :
    ∃ k' written, Kernel.Leads host clock cited k k' ∧ Ran host clock k k' written k.todo ∧
      ∀ x ∈ written, (∃ c, x.payload = .statusChanged c) ∨
        ∃ actor causes, .emit actor causes x.payload ∈ rs := by
  induction rs generalizing k with
  | nil =>
    obtain ⟨k', leads, ran⟩ := leads_of_deliveries inv on next calm
    exact ⟨k', [], leads, ran, by simp⟩
  | cons r rest ih =>
    obtain ⟨head, tail⟩ := List.forall_mem_cons.mp sure
    have goes : ∀ {actor causes p bb}, k.desk.react (clock k.log.length) =
          { k.desk with handler := rest }.emit (clock k.log.length) actor causes p →
        k.Takes (clock k.log.length) actor causes p bb → p.Inert →
        ((∃ c, p = .statusChanged c) ∨ ∃ actor causes, .emit actor causes p ∈ r :: rest) →
        ∃ k' written, Kernel.Leads host clock cited k k' ∧ Ran host clock k k' written k.todo ∧
          ∀ x ∈ written, (∃ c, x.payload = .statusChanged c) ∨
            ∃ actor causes, .emit actor causes x.payload ∈ r :: rest := by
      intro actor causes p bb react takes quietly which
      obtain ⟨leads, inv₁, on₁⟩ := leads_of_reaction inv on next react takes
      obtain ⟨k', written, leads', ran, what⟩ := ih inv₁ on₁ rfl
        (fun r hr => (tail r hr).mono (List.length_append ▸ Nat.le_add_right _ _)) (by
          intro x hx
          rcases List.mem_append.mp hx with hx | hx
          · exact calm x hx
          · rw [List.mem_singleton.mp hx]
            exact quietly)
      refine ⟨k', _ :: written, leads.trans leads', .cons rfl takes.ok ran, fun x hx => ?_⟩
      rcases List.mem_cons.mp hx with rfl | hx
      · exact which
      · exact (what x hx).imp_right fun ⟨actor, causes, mem⟩ =>
          ⟨actor, causes, List.mem_cons_of_mem _ mem⟩
    cases r with
    | emit actor causes p =>
      obtain ⟨by_, cites, op, id, utt, rfl⟩ := head
      exact goes (by simp only [Desk.react, next]) ⟨cites, by_, rfl, rfl⟩ (inert_of_calm rfl)
        (Or.inr ⟨actor, causes, List.mem_cons_self ..⟩)
    | move trigger cause =>
      obtain ⟨before, unverified⟩ := head
      cases legal : nextStatus k.board.pub.status trigger with
      | none =>
        have step : k.step host (.react (clock k.log.length)) =
            some { k with desk := { k.desk with handler := rest } } := by
          simp only [Kernel.step, Kernel.internal, Desk.step, Desk.react, next, Desk.move, legal,
            Option.map_some]
        have leads : Kernel.Leads host clock cited k { k with desk := { k.desk with handler := rest } } :=
          Kernel.leads_of_advance (by simp [Kernel.idle, Desk.quiet, next])
            (by rw [Kernel.advance, if_pos (by simp [next]), step])
        obtain ⟨k', written, leads', ran, what⟩ := ih
          (k := { k with desk := { k.desk with handler := rest } }) (inv.step step).1
          ⟨on.going, on.mono, on.later, on.cites⟩ rfl tail calm
        refine ⟨k', written, leads.trans leads', ⟨ran.inv, ran.quiet, ran.going, ran.later, ran.log,
          ran.board, ran.todo_eq⟩, fun x hx => (what x hx).imp_right fun ⟨actor, causes, mem⟩ =>
          ⟨actor, causes, List.mem_cons_of_mem _ mem⟩⟩
      | some status =>
        have takes : k.Takes (clock k.log.length) .guard [cause]
            (.statusChanged ⟨k.board.pub.status, status⟩) (stamp { k.board with
              pub := { k.board.pub with status } } (k.desk.bus.next _ _ _ _)) :=
          ⟨⟨by simp, by simpa using before⟩, rfl, rfl,
            apply_statusChanged legal (unverified _ _ legal) rfl⟩
        exact goes (by simp only [Desk.react, next, Desk.move, legal]) takes (inert_of_calm rfl)
          (Or.inl ⟨_, rfl⟩)

/-- A bump is delivered: a pending card it stales replans the case. -/
theorem leads_of_bumped {bump : EpochBump} (inv : KernelInv host k) (on : k.GoesOn clock cited)
    (idle : k.desk.handler = []) (next : k.desk.undelivered = [e])
    (hp : e.payload = .authorityEpoch bump) :
    ∃ k' written, Kernel.Leads host clock cited k k' ∧ Ran host clock k k' written k.todo ∧
      ∀ x ∈ written, ∃ c, x.payload = .statusChanged c := by
  have before : e.seq < k.log.length := by
    have := seq_of_undelivered inv.fence next
    rw [next, List.length_singleton] at this
    have : e.seq + 1 = k.log.length := this
    omega
  have inv₁ := (inv.step (step_deliver idle next)).1
  have handler : (k.handled e []).desk.handler = [] ∨
      (k.handled e []).desk.handler = [.move .approvalStale e.seq] := by
    show (k.desk.auth.onEvent k.desk.session k.desk.closed k.desk.bus.bb e).2 = [] ∨
      (k.desk.auth.onEvent k.desk.session k.desk.closed k.desk.bus.bb e).2 = _
    simp only [Authority.onEvent, hp]
    split
    · exact Or.inr rfl
    · exact Or.inl rfl
  have stale : Trigger.Unverified .approvalStale := unverified (by decide)
  have on₁ : (k.handled e []).GoesOn clock cited := ⟨on.going, on.mono, on.later, on.cites⟩
  obtain ⟨k', written, leads, ran, what⟩ := leads_of_handler inv₁ on₁ rfl (by
      rcases handler with h | h <;> rw [h] <;> simp [Reaction.Sure, before, stale, Kernel.handled])
    (by simp [Kernel.handled])
  refine ⟨k', written, (leads_of_delivery idle next).trans leads, ⟨ran.inv, ran.quiet, ran.going,
    ran.later, ran.log, ran.board, ran.todo_eq⟩, fun x hx => (what x hx).resolve_right ?_⟩
  rintro ⟨actor, causes, mem⟩
  rcases handler with h | h <;> rw [h] at mem <;> simp at mem

/-! ## Tasks -/

/-- An event nobody reacts to, written by the block, is delivered. -/
theorem leads_of_put {tMs : Nat} {causes : List Nat} (inv : KernelInv host (k.put tMs actor causes p todo bb))
    (on : (k.put tMs actor causes p todo bb).GoesOn clock cited) (quiet : k.desk.quiet = true)
    (calm : p.Inert) (ok : apply k.board (k.desk.bus.next tMs actor causes p) = .ok bb) :
    ∃ k', Kernel.Leads host clock cited (k.put tMs actor causes p todo bb) k' ∧
      Ran host clock k k' [k.desk.bus.next tMs actor causes p] todo := by
  obtain ⟨hh, hu⟩ := Desk.quiet_iff.mp quiet
  obtain ⟨k', leads, ran⟩ := leads_of_deliveries inv on hh (fun x hx => by
    have hx : x ∈ k.desk.undelivered ++ [k.desk.bus.next tMs actor causes p] := hx
    rw [hu, List.nil_append, List.mem_singleton] at hx
    rw [hx]
    exact calm)
  exact ⟨k', leads, .cons rfl ok ran⟩

/-- The next task of the block writes its event. -/
theorem leads_of_task {t : Task} (inv : KernelInv host k) (on : k.GoesOn clock cited)
    (quiet : k.desk.quiet = true) (next : k.todo = t :: todo)
    (runs : k.runNext (clock k.log.length) (cited k.log.length) =
      some (k.put (clock k.log.length) actor (cited k.log.length) p todo bb))
    (unended : ∀ reason, p ≠ .sessionEnded reason) :
    Kernel.Leads host clock cited k
        (k.put (clock k.log.length) actor (cited k.log.length) p todo bb) ∧
      KernelInv host (k.put (clock k.log.length) actor (cited k.log.length) p todo bb) ∧
      (k.put (clock k.log.length) actor (cited k.log.length) p todo bb).GoesOn clock cited := by
  have step : k.step host (.next (clock k.log.length) (cited k.log.length)) =
      some (k.put (clock k.log.length) actor (cited k.log.length) p todo bb) := by
    simp only [Kernel.step, quiet, if_true, runs]
  exact ⟨Kernel.leads_of_advance (busy_of_todo next) ((advance_next quiet).trans runs),
    (inv.step step).1, on.wrote rfl rfl unended⟩

/-- A status move of a block, or none: it writes at most the one `status.changed`. -/
theorem leads_of_move (inv : KernelInv host k) (on : k.GoesOn clock cited)
    (quiet : k.desk.quiet = true) (next : k.todo = .move trigger :: todo)
    (unverified : trigger.Unverified) :
    ∃ k' written, Kernel.Leads host clock cited k k' ∧ Ran host clock k k' written todo ∧
      ∀ e ∈ written, ∃ c, e.payload = .statusChanged c := by
  cases legal : nextStatus k.board.pub.status trigger with
  | none =>
    have runs : k.runNext (clock k.log.length) (cited k.log.length) = some { k with todo } := by
      simp only [Kernel.runNext, next, legal]
    have step : k.step host (.next (clock k.log.length) (cited k.log.length)) =
        some { k with todo } := by
      simp only [Kernel.step, quiet, if_true, runs]
    exact ⟨{ k with todo }, [], Kernel.leads_of_advance (busy_of_todo next)
      ((advance_next quiet).trans runs), ⟨(inv.step step).1, quiet, on.going, on.later, by simp, rfl,
      rfl⟩, by simp⟩
  | some status =>
    let p : Payload := .statusChanged ⟨k.board.pub.status, status⟩
    have takes : k.Takes (clock k.log.length) .guard (cited k.log.length) p (stamp { k.board with
        pub := { k.board.pub with status } } (k.desk.bus.next _ _ _ p)) :=
      ⟨on.here, rfl, rfl, apply_statusChanged legal (unverified _ _ legal) rfl⟩
    obtain ⟨first, inv₁, on₁⟩ := leads_of_task inv on quiet next (by
      simp only [Kernel.runNext, next, legal]
      exact takes.emit inv on quiet rfl) (unended_of_plain (p := p) rfl)
    obtain ⟨k', leads, ran⟩ := leads_of_put inv₁ on₁ quiet (inert_of_calm rfl) takes.ok
    refine ⟨k', _, first.trans leads, ran, fun x hx => ⟨⟨k.board.pub.status, status⟩, ?_⟩⟩
    rw [List.mem_singleton.mp hx]
    rfl

/-- An event of a block that nobody reacts to. -/
theorem leads_of_emit (inv : KernelInv host k) (on : k.GoesOn clock cited)
    (quiet : k.desk.quiet = true) (next : k.todo = .emit actor p :: todo)
    (takes : k.Takes (clock k.log.length) actor (cited k.log.length) p bb)
    (outer : k.desk.outer p = true) (calm : p.Inert) :
    ∃ k', Kernel.Leads host clock cited k k' ∧
      Ran host clock k k' [k.desk.bus.next (clock k.log.length) actor (cited k.log.length) p] todo := by
  obtain ⟨first, inv₁, on₁⟩ := leads_of_task inv on quiet next (by
    simp only [Kernel.runNext, next]
    exact takes.emit inv on quiet outer) (unended_of_plain takes.plain)
  obtain ⟨k', leads, ran⟩ := leads_of_put inv₁ on₁ quiet calm takes.ok
  exact ⟨k', first.trans leads, ran⟩

theorem apply_bump {b : Blackboard} {e : Event} {reason : BumpReason}
    (hp : e.payload = .authorityEpoch (.next b.epoch reason)) :
    ∃ b', apply b e = .ok b' ∧ b'.epoch = b.epoch + 1 := by
  have reduced : reduce b e = .ok { b with
      epoch := (EpochBump.next b.epoch reason).new
      priv := { b.priv with mandate := bumpedMandate b (.next b.epoch reason) } } := by
    simp only [reduce, hp, epochBump, require_bind, pure_eq_ok]
    exact ⟨Nat.lt_succ_self _, trivial⟩
  exact ⟨_, apply_eq_ok.mpr ⟨_, reduced, rfl⟩, rfl⟩

theorem epoch_of_moves {b b' : Blackboard} (h : fold written b = .ok b')
    (moves : ∀ x ∈ written, ∃ c, x.payload = .statusChanged c) : b'.epoch = b.epoch := by
  refine fold_invariant_mem (I := fun x => x.epoch = b.epoch) h rfl fun mem same ha => ?_
  obtain ⟨c, hc⟩ := moves _ mem
  rcases epoch_of_apply ha with ⟨⟨bump, hb⟩, -⟩ | ⟨-, still⟩
  · rw [hc] at hb
    cases hb
  · exact still.trans same

theorem leads_of_bump {t : Task} (actor : Actor) (reason : BumpReason) (inv : KernelInv host k)
    (on : k.GoesOn clock cited) (quiet : k.desk.quiet = true) (next : k.todo = t :: todo)
    (by_ : Payload.emittedBy (.authorityEpoch (.next k.board.epoch reason)) actor = true)
    (task : k.runNext (clock k.log.length) (cited k.log.length) =
      k.emit (clock k.log.length) actor (cited k.log.length)
        (.authorityEpoch (.next k.board.epoch reason)) todo) :
    ∃ k' e written, Kernel.Leads host clock cited k k' ∧ Ran host clock k k' (e :: written) todo ∧
      e.payload = .authorityEpoch (.next k.board.epoch reason) ∧
      (∀ x ∈ written, ∃ c, x.payload = .statusChanged c) ∧ k'.board.epoch = k.board.epoch + 1 := by
  obtain ⟨bb, ok, epoch⟩ := apply_bump (e := k.desk.bus.next (clock k.log.length) actor
    (cited k.log.length) (.authorityEpoch (.next k.board.epoch reason))) rfl
  have takes : k.Takes (clock k.log.length) actor (cited k.log.length)
      (.authorityEpoch (.next k.board.epoch reason)) bb := ⟨on.here, by_, rfl, ok⟩
  obtain ⟨first, inv₁, on₁⟩ := leads_of_task inv on quiet next
    (task.trans (takes.emit inv on quiet rfl)) (unended_of_plain takes.plain)
  obtain ⟨hh, hu⟩ := Desk.quiet_iff.mp quiet
  obtain ⟨k', written, leads, ran, moved⟩ := leads_of_bumped inv₁ on₁ hh
    (e := k.desk.bus.next (clock k.log.length) actor (cited k.log.length) _)
    (by show k.desk.undelivered ++ [_] = _; rw [hu]; rfl) rfl
  exact ⟨k', _, written, first.trans leads, .cons rfl ok ran, rfl, moved,
    (epoch_of_moves ran.board moved).trans epoch⟩

/-! ## The start of a block -/

theorem starts {k₀ : Kernel} {act : Kernel.Act} {causes : List Nat} (inv : KernelInv host k)
    (on : k.GoesOn clock cited) (quiet : k.desk.quiet = true) (desk : k₀.desk = k.desk)
    (step : k.step host act = k₀.emit (clock k.log.length) actor causes p todo)
    (takes : k.Takes (clock k.log.length) actor causes p bb) (outer : k.desk.outer p = true) :
    k.step host act = some (k₀.put (clock k.log.length) actor causes p todo bb) ∧
      KernelInv host (k₀.put (clock k.log.length) actor causes p todo bb) ∧
      (k₀.put (clock k.log.length) actor causes p todo bb).GoesOn clock cited := by
  have stepped : k.step host act = some (k₀.put (clock k.log.length) actor causes p todo bb) := by
    refine step.trans (Kernel.emit_eq ?_ ?_ ?_ ?_ ?_ ?_ ?_ ?_) <;> rw [desk]
    · exact inv.inOrder on.later
    · exact quiet
    · exact outer
    · exact on.going
    · exact on.later
    · exact Bus.wellFormed_next takes.cites takes.by_
    · rw [Kernel.board, desk]
      exact takes.ok
    · intro decision
      rw [undecided_of_plain takes.plain rfl] at decision
      cases decision
  have unended := unended_of_plain takes.plain
  refine ⟨stepped, (inv.step stepped).1,
    on.wrote (e := k₀.desk.bus.next (clock k.log.length) actor causes p) ?_ rfl unended⟩
  show k₀.desk.bus.events ++ [_] = _
  rw [desk]

/-- A block whose first event nobody reacts to. -/
theorem starts_calmly {k₀ : Kernel} {act : Kernel.Act} {causes : List Nat} (inv : KernelInv host k)
    (on : k.GoesOn clock cited) (quiet : k.desk.quiet = true) (desk : k₀.desk = k.desk)
    (step : k.step host act = k₀.emit (clock k.log.length) actor causes p todo)
    (takes : k.Takes (clock k.log.length) actor causes p bb) (outer : k.desk.outer p = true)
    (calm : p.Inert) :
    ∃ k₁ k', k.step host act = some k₁ ∧ Kernel.Leads host clock cited k₁ k' ∧
      Ran host clock k k' [k.desk.bus.next (clock k.log.length) actor causes p] todo := by
  obtain ⟨stepped, inv₁, on₁⟩ := starts inv on quiet desk step takes outer
  obtain ⟨hh, hu⟩ := Desk.quiet_iff.mp quiet
  obtain ⟨k', leads, ran⟩ := leads_of_deliveries inv₁ on₁ (by rw [← hh, ← desk]; rfl) (by
    intro x hx
    have hx : x ∈ k₀.desk.undelivered ++ [k₀.desk.bus.next (clock k.log.length) actor causes p] := hx
    rw [desk, hu, List.nil_append, List.mem_singleton] at hx
    rw [hx]
    exact calm)
  refine ⟨_, k', stepped, leads, .cons ?_ takes.ok ran⟩
  show k₀.desk.bus.events ++ [_] = _
  rw [desk]

end block

end ProxyLoop

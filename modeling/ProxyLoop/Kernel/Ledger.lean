import ProxyLoop.Kernel.Acts

/-!
# What the Authority remembers of cards and replans

Beside the fences, the Authority keeps the event that asked for each decision, a timer for each card
and the last replan.  One event moves at most one of them.
-/

namespace ProxyLoop

open Lib (Dict Reach)

/-- The bookkeeping that is not about fences. -/
structure Ledger where
  asked : Dict String Nat
  timers : List (Nat × ApprovalCard)
  replan : Option Nat
  root : Nat

def Authority.ledger (a : Authority) : Ledger := ⟨a.asked, a.timers, a.replan, a.root⟩

def Ledger.next (l : Ledger) (e : Event) : Ledger :=
  match e.payload with
  | .approvalRequested card =>
    { l with asked := l.asked.set card.approvalId e.seq, timers := l.timers ++ [(e.seq, card)] }
  | .mandateProposed p => { l with asked := l.asked.set p.mandate.mandateId e.seq }
  | .statusChanged ⟨_, .needsReplan⟩ => { l with replan := some e.seq }
  | .slowStepCompleted basis =>
    { l with replan := if l.replan.any (· ≤ basis) then none else l.replan }
  | _ => l

namespace Authority

variable {a : Authority} {s : Session} {closed : Bool} {bb : Blackboard} {e : Event}

theorem ledger_raiseAll {mint : Nat} {ls : List RepLine} :
    (raiseAll mint ls a).1.ledger = a.ledger := by
  induction ls generalizing a with
  | nil => rfl
  | cons l ls ih => exact ih

theorem ledger_repLine {inFlight : Bool} {seq : Nat} {utt : String} :
    (repLine s closed inFlight a seq utt).1.ledger = a.ledger := by
  unfold repLine
  split
  · rfl
  · dsimp only
    split <;> rfl

theorem ledger_minted {mint : Nat} : (minted s closed a mint).1.ledger = a.ledger := by
  unfold minted
  split
  · rfl
  · exact ledger_raiseAll

theorem ledger_completed {step basis : Nat} : (a.completed step basis).1.ledger =
    { a.ledger with replan := if a.replan.any (· ≤ basis) then none else a.replan } := by
  unfold completed
  dsimp only [clearAll]
  split <;> rfl

theorem ledger_onEvent : (a.onEvent s closed bb e).1.ledger = a.ledger.next e := by
  unfold onEvent Ledger.next
  cases e.payload with
  | userMsg text => dsimp only; split <;> rfl
  | uttFinal lane speaker utt text =>
    cases lane <;> cases speaker <;> first | rfl | exact ledger_repLine
  | actionAuthorized auth =>
    obtain ⟨intent, cap⟩ := auth
    cases intent <;> first | rfl | exact ledger_minted
  | authorityEpoch bump => dsimp only; split <;> rfl
  | slowStepCompleted basis => exact ledger_completed
  | f2sMsg msg => dsimp only; split <;> rfl
  | statusChanged c =>
    obtain ⟨was, status⟩ := c
    cases status <;> rfl
  | _ => rfl

end Authority

theorem ledger_of_step {d d' : Desk} {a : DeskAct} (h : d.step a = some d') :
    d'.auth.ledger = d.auth.ledger ∨ ∃ e rest, d.undelivered = e :: rest ∧ d.handler = [] ∧
      d'.undelivered = rest ∧ d'.bus = d.bus ∧ d'.auth.ledger = d.auth.ledger.next e := by
  cases Desk.stepped h with
  | delivered e rest idle next =>
    exact Or.inr ⟨e, rest, next, idle, rfl, rfl, Authority.ledger_onEvent⟩
  | reacted tMs actor causes p rest next emitted =>
    obtain ⟨bus, -, -, rfl⟩ := Desk.emit_eq_some emitted
    exact Or.inl rfl
  | moved tMs trigger cause rest status next legal emitted =>
    obtain ⟨bus, -, -, rfl⟩ := Desk.emit_eq_some emitted
    exact Or.inl rfl
  | env tMs actor causes p idle outer emitted =>
    obtain ⟨bus, -, -, rfl⟩ := Desk.emit_eq_some emitted
    exact Or.inl rfl
  | _ => exact Or.inl rfl

section run

variable {host : Host} {k k' : Kernel}

/-- How the kernel's ledger moves. -/
theorem Kernel.Taken.ledger (taken : Kernel.Taken host k k') :
    k'.desk.auth.ledger = k.desk.auth.ledger ∨ ∃ e rest, k.desk.undelivered = e :: rest ∧
      k.desk.handler = [] ∧ k'.desk.undelivered = rest ∧ k'.desk.bus = k.desk.bus ∧
      k'.todo = k.todo ∧ k'.desk.auth.ledger = k.desk.auth.ledger.next e := by
  cases taken with
  | internally a d own stepped =>
    rcases ledger_of_step stepped with same | ⟨e, rest, hu, hh, hu', bus, moved⟩
    · exact Or.inl same
    · exact Or.inr ⟨e, rest, hu, hh, hu', bus, rfl, moved⟩
  | emitted begins em =>
    refine Or.inl ?_
    have := em.appended.auth
    rw [begins.desk] at this
    rw [this]
  | _ => exact Or.inl rfl

theorem Kernel.Taken.grows (taken : Kernel.Taken host k k')
    (plain : ∀ r ∈ k.desk.handler, r.plain = true) : ∃ more, k'.log = k.log ++ more := by
  rcases taken.wrote plain with bus | ⟨e, appended⟩
  · exact ⟨[], by rw [Kernel.log, bus, List.append_nil]⟩
  · exact ⟨[e], appended.log⟩

structure AskedOk (k : Kernel) : Prop where
  asked : ∀ {id s}, k.desk.auth.asked.get? id = some s → s < k.log.length
  root : k.desk.auth.root = 0

theorem AskedOk.step (ok : AskedOk k) (inv : KernelInv host k) (taken : Kernel.Taken host k k') :
    AskedOk k' := by
  obtain ⟨more, grown⟩ := taken.grows inv.fence.plain
  have le : k.log.length ≤ k'.log.length := by
    rw [grown, List.length_append]
    omega
  rcases taken.ledger with same | ⟨e, rest, hu, -, -, -, -, moved⟩
  · have asked : k'.desk.auth.asked = k.desk.auth.asked := congrArg Ledger.asked same
    exact ⟨fun h => (ok.asked (asked ▸ h)).trans_le le,
      (congrArg Ledger.root same).trans ok.root⟩
  · have here : e.seq < k.log.length := by
      obtain ⟨done, split, -⟩ := inv.fence.books
      exact inv.fence.sound.seq_lt (by rw [split, hu]; simp)
    have asked : k'.desk.auth.asked = (k.desk.auth.ledger.next e).asked := congrArg Ledger.asked moved
    have root : k'.desk.auth.root = (k.desk.auth.ledger.next e).root := congrArg Ledger.root moved
    have set : ∀ {id s key}, (k.desk.auth.asked.set key e.seq).get? id = some s →
        s < k.log.length := by
      intro id s key h
      rw [Dict.get?_set] at h
      split at h
      · cases h
        exact here
      · exact ok.asked h
    unfold Ledger.next at asked root
    constructor
    · intro id s h
      rw [asked] at h
      refine Nat.lt_of_lt_of_le ?_ le
      split at h
      · exact set h
      · exact set h
      · exact ok.asked h
      · exact ok.asked h
      · exact ok.asked h
    · rw [root]
      split <;> exact ok.root

theorem AskedOk.reach {ok : Kernel → Kernel.Act → Prop} {session : Session} {runId : String}
    (h : Reach (Kernel.step host) ok (Kernel.start session runId) k) : AskedOk k :=
  h.invariant ⟨(fun h => by cases h), rfl⟩ fun hr asked _ hs =>
    asked.step (KernelInv.reach hr) (Kernel.taken_of_step hs)

end run

end ProxyLoop

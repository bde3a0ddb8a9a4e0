import ProxyLoop.Kernel.Acts

/-!
# Mandate ids

Slow numbers the mandates it proposes, so that no id is proposed twice in a run.  A mandate is then
decided at most once: the one on record is undecided, or its id was decided before.
-/

namespace ProxyLoop

open Lib (Dict Reach anyStep)

/-! ## Proposed ids -/

def Payload.proposedId : Payload → Option String
  | .mandateProposed p => some p.mandate.mandateId
  | _ => none

/-- A decision awaits its bump; a proposal or a bump ends the wait. -/
def Payload.awaits : Payload → Option Bool
  | .mandateDecided _ => some true
  | .authorityEpoch _ | .mandateProposed _ => some false
  | _ => none

def proposedIds (log : List Event) : List String := log.filterMap (·.payload.proposedId)

def Task.proposedId : Task → Option String
  | .emit _ p => p.proposedId
  | _ => none

def pendingIds (todo : List Task) : List String := todo.filterMap Task.proposedId

def mandateName (n : Nat) : String := "mandate-" ++ toString n

theorem mandateName_inj {m n : Nat} (h : mandateName m = mandateName n) : m = n :=
  Nat.repr_inj.mp ((String.append_right_inj _).mp h)

/-- The ids of a run are distinct, and numbered up to the kernel's count. -/
structure MandateIds (k : Kernel) : Prop where
  distinct : (proposedIds k.log ++ pendingIds k.todo).Nodup
  numbered : ∀ id ∈ proposedIds k.log ++ pendingIds k.todo, ∃ i ≤ k.mandates, id = mandateName i

theorem proposedIds_snoc {log : List Event} {e : Event} :
    proposedIds (log ++ [e]) = proposedIds log ++ e.payload.proposedId.toList := by
  simp only [proposedIds, List.filterMap_append, List.append_cancel_left_eq]
  cases h : e.payload.proposedId <;> simp [h]

section ids

variable {host : Host} {k k' k₀ : Kernel} {p : Payload} {todo : List Task} {e : Event}

theorem unmandated_moved {bb : Blackboard} {trigger : Trigger} :
    ∀ p ∈ moved bb trigger, p.awaits = none := by
  intro p hp
  obtain ⟨next, -, rfl⟩ := mem_moved hp
  rfl

theorem unmandated_denied {intent : String} {r : Refusal} :
    ∀ p ∈ (denied intent r).effects, p.awaits = none := by
  cases r with
  | denied reason => simp [denied, Payload.awaits]
  | raised err => simp [denied]

theorem unmandated_cons {ps : List Payload} (first : p.awaits = none)
    (rest : ∀ q ∈ ps, q.awaits = none) : ∀ q ∈ p :: ps, q.awaits = none := by
  intro q hq
  rcases List.mem_cons.mp hq with rfl | hq
  · exact first
  · exact rest q hq

theorem unmandated_checkAccount {bb : Blackboard} {events : List Event} {conf : String}
    {said : Said} : ∀ p ∈ (caught (checkAccount host.py bb events conf said)).effects,
      p.awaits = none := by
  unfold checkAccount
  split
  · simp [caught]
  · split
    · simp [caught]
    · split
      · exact unmandated_moved
      · simp only [bind, Except.bind]
        split
        · simp [caught]
        · exact unmandated_cons rfl unmandated_moved

theorem unmandated_close {bb : Blackboard} {outcome : Outcome} {trigger : Trigger} :
    ∀ p ∈ (close bb outcome trigger).effects, p.awaits = none := by
  unfold close
  split <;> simp [Payload.awaits]

theorem unmandated_finish {bb : Blackboard} {outcome : Outcome} {heard : Heard} :
    ∀ p ∈ (caught (finish host.py bb outcome heard)).effects, p.awaits = none := by
  cases outcome with
  | completed =>
    simp only [finish, finishCompleted, bind, Except.bind]
    split
    · simp [caught]
    · split
      · simp [caught]
      · split
        · simp [caught, pure, Except.pure, Payload.awaits]
        · exact unmandated_cons rfl unmandated_moved
  | noDeal =>
    simp only [finish, finishNoDeal, bind, Except.bind]
    split
    · simp [caught]
    · split
      · simp [caught]
      · split
        · simp [caught, pure, Except.pure]
        · exact unmandated_cons rfl unmandated_moved
  | escalate =>
    simp only [finish]
    split
    · simp [caught]
    · split
      · simp [caught]
      · exact unmandated_close
  | infoOnly => exact unmandated_close

def ToolCall.movesMandate : ToolCall → Bool
  | .proposeMandate _ | .tightenMandate _ | .revoke => true
  | _ => false

/-- Only `revoke` and the mandate tools move a mandate or the epoch. -/
theorem unmandated_runTool {bb : Blackboard} {events : List Event} {mid : String}
    {call : ToolCall} (other : call.movesMandate = false) :
    ∀ p ∈ (runTool host bb events mid call).effects, p.awaits = none := by
  cases call with
  | proposeMandate => cases other
  | tightenMandate => cases other
  | requestApproval ref msgId =>
    simp only [runTool, requestApprovalTool]
    split
    · exact unmandated_denied
    · intro p hp
      simp only [done_effects, List.cons_append, List.mem_cons, List.mem_append, List.not_mem_nil, or_false] at hp
      rcases hp with rfl | hp | rfl
      · rfl
      · exact unmandated_moved p hp
      · rfl
  | acceptOffer ref =>
    simp only [runTool, acceptOfferTool]
    split
    · exact unmandated_denied
    · exact unmandated_cons rfl (unmandated_cons rfl unmandated_moved)
  | declineOffer ref =>
    simp only [runTool, declineOfferTool]
    split
    · exact unmandated_denied
    · rename_i line ok
      obtain ⟨text, rfl⟩ := declineOffer_eq_ok ok
      exact unmandated_cons rfl (by simp)
  | revoke => cases other
  | recordOffer ref slots expiresMs =>
    simp only [runTool, recordOffer]
    split
    · simp
    · split
      · split
        · simp
        · exact unmandated_cons rfl (by simp)
      · split
        · simp
        · exact unmandated_cons rfl (by simp)
  | checkAccount conf said => exact unmandated_checkAccount
  | finish outcome heard => exact unmandated_finish

theorem unproposed_runTool {bb : Blackboard} {events : List Event} {mid : String}
    {call : ToolCall} (other : call.proposes = false) :
    ∀ p ∈ (runTool host bb events mid call).effects, p.proposedId = none := by
  cases moves : call.movesMandate with
  | false =>
    intro p hp
    have := unmandated_runTool moves p hp
    cases p <;> first | rfl | cases this
  | true =>
    cases call with
    | revoke =>
      intro p hp
      rw [List.mem_singleton.mp hp]
      rfl
    | proposeMandate => cases other
    | tightenMandate => cases other
    | _ => cases moves

theorem pendingIds_runTool {bb : Blackboard} {events : List Event} {mid : String}
    {call : ToolCall} :
    pendingIds ((runTool host bb events mid call).effects.map (.emit .guard)) = [] ∨
      pendingIds ((runTool host bb events mid call).effects.map (.emit .guard)) = [mid] ∧
        call.proposes = true := by
  cases hc : call.proposes with
  | false =>
    refine Or.inl ?_
    simp only [pendingIds, List.filterMap_map, List.filterMap_eq_nil_iff]
    exact unproposed_runTool hc
  | true =>
    cases call with
    | proposeMandate envelope =>
      simp only [runTool, proposeMandate]
      split
      · exact Or.inl rfl
      · exact Or.inr ⟨rfl, trivial⟩
    | tightenMandate changes =>
      simp only [runTool, tightenMandate]
      split
      · exact Or.inl rfl
      · split
        · exact Or.inl rfl
        · split
          · exact Or.inl rfl
          · exact Or.inr ⟨rfl, trivial⟩
    | _ => cases hc

theorem ids_of_begins (begins : k.Begins host k₀ p todo) :
    k.mandates ≤ k₀.mandates ∧ (p.proposedId.toList ++ pendingIds todo = pendingIds k.todo ∨
        p.proposedId.toList ++ pendingIds todo = []) ∨
      k.todo = [] ∧ k₀.mandates = k.mandates + 1 ∧
        p.proposedId.toList ++ pendingIds todo = [mandateName (k.mandates + 1)] := by
  cases begins with
  | world p what =>
    refine Or.inl ⟨Nat.le_refl _, Or.inl ?_⟩
    have : p.proposedId = none := by
      rcases what with hold | ⟨_, causes, free⟩
      · cases p <;> first | rfl | cases hold
      · cases p <;> first | rfl | simp [Kernel.free, Payload.isQuiet] at free
    simp [this]
  | tool call idle =>
    have ids := @pendingIds_runTool host k.bb k.log k.nextMandate call
    rcases ids with none_ | ⟨one, proposes⟩
    · refine Or.inl ⟨?_, Or.inr (by simp [Payload.proposedId, none_])⟩
      show k.mandates ≤ if call.proposes then k.mandates + 1 else k.mandates
      split <;> omega
    · exact Or.inr ⟨(idle_iff.mp idle).1, by simp [proposes], by
        simp only [Payload.proposedId, Option.toList_none, List.nil_append, one]
        rfl⟩
  | posted post by_ d idle allowed =>
    refine Or.inl ⟨Nat.le_refl _, Or.inr ?_⟩
    rcases decide_eq_ok allowed with ⟨m, _, _, _, rfl⟩ | ⟨card, _, _, rfl⟩ <;>
    · unfold Kernel.afterDecision
      cases post.subject <;> cases post.decision <;> rfl
  | revoked i q reason =>
    refine Or.inl ⟨Nat.le_refl _, Or.inr ?_⟩
    cases q.kind <;> rfl
  | heard q seq said =>
    refine Or.inl ⟨Nat.le_refl _, Or.inr ?_⟩
    unfold Kernel.afterDelivery
    cases q.kind <;> split <;> rfl
  | task actor p rest quiet next =>
    refine Or.inl ⟨Nat.le_refl _, Or.inl ?_⟩
    rw [next]
    show _ = List.filterMap Task.proposedId _
    cases h : p.proposedId <;> simp [Task.proposedId, pendingIds, h]
  | bump rest quiet next => exact Or.inl ⟨Nat.le_refl _, Or.inl (by rw [next]; rfl)⟩
  | move trigger status rest quiet next => exact Or.inl ⟨Nat.le_refl _, Or.inl (by rw [next]; rfl)⟩
  | _ => exact Or.inl ⟨Nat.le_refl _, Or.inr rfl⟩

theorem MandateIds.shrink (ids : MandateIds k)
    (sub : (proposedIds k'.log ++ pendingIds k'.todo).Sublist
      (proposedIds k.log ++ pendingIds k.todo)) (le : k.mandates ≤ k'.mandates) :
    MandateIds k' :=
  ⟨ids.distinct.sublist sub, fun id hid => by
    obtain ⟨i, hi, rfl⟩ := ids.numbered id (sub.subset hid)
    exact ⟨i, hi.trans le, rfl⟩⟩

theorem MandateIds.step {a : Kernel.Act} (ids : MandateIds k)
    (plain : ∀ r ∈ k.desk.handler, r.plain = true) (h : k.step host a = some k') :
    MandateIds k' := by
  cases Kernel.taken_of_step h with
  | internally a d own stepped =>
    refine ids.shrink ?_ (Nat.le_refl _)
    cases Kernel.internal_of_own own plain stepped with
    | quietly bus =>
      rw [show Kernel.log { k with desk := d } = k.log from congrArg Bus.events bus]
    | reacted e appended what =>
      have unproposed : e.payload.proposedId = none := by
        rcases Payload.reacted_cases what with ⟨_, _, _, hp⟩ | ⟨_, hp⟩ | ⟨_, hp⟩ <;> rw [hp] <;> rfl
      rw [show Kernel.log { k with desk := d } = k.log ++ [e] from appended.log,
        proposedIds_snoc, unproposed]
      simp
  | @emitted k₀ _ causes p todo e begins em frame =>
    have log : proposedIds k'.log = proposedIds k.log ++ p.proposedId.toList := by
      have : k'.log = k₀.log ++ [e] := em.appended.log
      rw [this, proposedIds_snoc, em.payload, begins.log]
    have count : k'.mandates = k₀.mandates := frame.1
    rcases ids_of_begins begins with ⟨le, same | none_⟩ | ⟨idle, up, one⟩
    · refine ids.shrink ?_ (count ▸ le)
      rw [log, em.todo_eq, List.append_assoc, same]
    · refine ids.shrink ?_ (count ▸ le)
      rw [log, em.todo_eq, List.append_assoc, none_, List.append_nil]
      exact List.sublist_append_left ..
    · have fresh : mandateName (k.mandates + 1) ∉ proposedIds k.log := by
        intro mem
        obtain ⟨i, hi, same⟩ := ids.numbered _ (List.mem_append_left _ mem)
        have := mandateName_inj same
        omega
      have old := ids.distinct.sublist (List.sublist_append_left ..)
      constructor
      · rw [log, em.todo_eq, List.append_assoc, one]
        exact List.Nodup.append old (List.nodup_singleton _) (by simpa using fresh)
      · rw [log, em.todo_eq, List.append_assoc, one, count, up]
        intro id hid
        rcases List.mem_append.mp hid with hid | hid
        · obtain ⟨i, hi, rfl⟩ := ids.numbered id (List.mem_append_left _ hid)
          exact ⟨i, by omega, rfl⟩
        · exact ⟨_, Nat.le_refl _, List.mem_singleton.mp hid⟩
  | waits i q users line => exact ⟨ids.distinct, ids.numbered⟩
  | hangsUp idle => exact ids.shrink (by simp [pendingIds, Task.proposedId]) (Nat.le_refl _)
  | expires seq card idle =>
    refine ids.shrink ?_ (Nat.le_refl _)
    have : pendingIds (if k.board.priv.pendingApproval = some card then
        [Task.move .approvalExpired] else []) = [] := by split <;> rfl
    simp [this]
  | skips trigger rest quiet next =>
    refine ids.shrink ?_ (Nat.le_refl _)
    have : pendingIds k.todo = pendingIds rest := by rw [next]; rfl
    simp [this]

theorem mandateIds_start (session : Session) (runId : String) :
    MandateIds (Kernel.start session runId) :=
  ⟨List.nodup_nil, fun id h => by cases h⟩

/-- Run lemma: no id is proposed twice. -/
theorem MandateIds.reach {ok : Kernel → Kernel.Act → Prop} {session : Session} {runId : String}
    (h : Reach (Kernel.step host) ok (Kernel.start session runId) k) : MandateIds k :=
  h.invariant (mandateIds_start session runId) fun hr ids _ hs =>
    ids.step (KernelInv.reach hr).fence.plain hs

end ids

/-! ## Decided mandates -/

section decided

variable {log : List Event} {bb : Blackboard}

/-- What the log says of the recorded mandate, where no id is proposed twice. -/
structure Recorded (log : List Event) (bb : Blackboard) : Prop where
  proposed : ∀ {m}, bb.priv.mandate = some m → m.mandateId ∈ proposedIds log
  decided : ∀ e ∈ log, ∀ d, e.payload = .mandateDecided d → d.mandateId ∈ proposedIds log
  undecided : ∀ {m}, bb.priv.mandate = some m → m.status = .proposed →
    ∀ e ∈ log, ∀ d, e.payload = .mandateDecided d → d.mandateId ≠ m.mandateId

/-- A decided mandate is the recorded one, undecided until then. -/
theorem mandate_of_decided {b : Blackboard} {e : Event} {d : MandateDecided}
    (h : apply b e = .ok bb) (hp : e.payload = .mandateDecided d) :
    ∃ m, b.priv.mandate = some m ∧ m.mandateId = d.mandateId ∧ m.mandateHash = d.mandateHash ∧
      m.status = .proposed ∧ m.epoch = b.epoch ∧
      bb.priv.mandate = some (m.decide d.decision d.by_) := by
  obtain ⟨b₁, hc, rfl⟩ := change_of_apply h
  cases hc with
  | mandate d' m hp' found id hash undecided epoch =>
    rw [hp] at hp'
    cases hp'
    exact ⟨m, found, id, hash, undecided, epoch, rfl⟩
  | quiet hq => rw [hp] at hq; cases hq
  | _ => simp_all

theorem toStatus_ne_proposed (d : Decision) : d.toStatus ≠ .proposed := by
  cases d <;> simp [Decision.toStatus]

/-- In a log that proposes no id twice, an undecided mandate was never decided. -/
theorem recorded_of_fold (h : fold log = .ok bb) (distinct : (proposedIds log).Nodup) :
    Recorded log bb := by
  induction log using List.reverseRecOn generalizing bb with
  | nil =>
    cases h
    exact ⟨fun h => (by cases h), fun e he => (by cases he), fun h => (by cases h)⟩
  | append_singleton log e ih =>
    obtain ⟨b, hb, ha⟩ := fold_snoc.mp h
    rw [proposedIds_snoc] at distinct
    have was := ih hb (distinct.sublist (List.sublist_append_left ..))
    have mem : ∀ {id}, id ∈ proposedIds log → id ∈ proposedIds (log ++ [e]) := fun h => by
      rw [proposedIds_snoc]
      exact List.mem_append_left _ h
    constructor
    · intro m hm
      have move := mandateMove_of_apply ha
      rw [hm] at move
      generalize ho : some m = o at move
      cases move with
      | kept => exact mem (was.proposed ho.symm)
      | bumped found same => cases ho; exact mem (same.id ▸ was.proposed found)
      | proposed p hp => cases ho; rw [proposedIds_snoc]; simp [hp, Payload.proposedId]
      | decided d m' hp found => cases ho; exact mem (show m'.mandateId ∈ _ from was.proposed found)
    · intro x hx d hp
      rcases List.mem_append.mp hx with hx | hx
      · exact mem (was.decided x hx d hp)
      · rw [List.mem_singleton.mp hx] at hp
        obtain ⟨m, found, id, -⟩ := mandate_of_decided ha hp
        exact mem (id ▸ was.proposed found)
    · intro m hm undecided x hx d hp
      rcases List.mem_append.mp hx with hx | hx
      · have move := mandateMove_of_apply ha
        rw [hm] at move
        generalize ho : some m = o at move
        cases move with
        | kept => exact was.undecided ho.symm undecided x hx d hp
        | bumped found same status =>
          cases ho
          rw [same.id]
          exact was.undecided found (status.symm.trans undecided) x hx d hp
        | proposed p hp' =>
          cases ho
          intro own
          rw [hp'] at distinct
          have := was.decided x hx d hp
          rw [own] at this
          exact List.disjoint_of_nodup_append distinct this (List.mem_singleton_self _)
        | decided d' m' => cases ho; exact absurd undecided (toStatus_ne_proposed _)
      · rw [List.mem_singleton.mp hx] at hp
        obtain ⟨m', -, -, -, -, -, now⟩ := mandate_of_decided ha hp
        rw [hm] at now
        cases now
        exact absurd undecided (toStatus_ne_proposed _)

end decided

end ProxyLoop

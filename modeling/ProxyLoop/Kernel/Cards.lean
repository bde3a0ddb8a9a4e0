import ProxyLoop.Core.History
import ProxyLoop.Kernel.Ledger

/-!
# A case that awaits an approval

While the case awaits a decision a card is pending whose timer runs, and whose epoch is the current
one once what was emitted is delivered: a decision, a bump or the timer ends the wait.
-/

namespace ProxyLoop

open Lib (Dict Reach anyStep)

/-! ## What moves the status from a tool -/

/-- The triggers of the status changes a call may make. -/
def ToolCall.triggers : ToolCall → List Trigger
  | .requestApproval .. => [.approvalRequested]
  | .acceptOffer _ => [.acceptAuthorized]
  | .checkAccount .. => [.evidenceRecorded]
  | .finish .completed _ => [.completionFail, .completionOk]
  | .finish .noDeal _ => [.noDealVerified]
  | .finish .escalate _ => [.escalate]
  | .finish .infoOnly _ => [.infoOnly]
  | _ => []

section effects

variable {host : Host} {bb : Blackboard} {events : List Event} {mid : String} {call : ToolCall}
  {c : StatusChanged} {trigger : Trigger}

theorem nextStatus_of_moved (h : .statusChanged c ∈ moved bb trigger) :
    nextStatus bb.pub.status trigger = some c.status := by
  obtain ⟨next, legal, same⟩ := mem_moved h
  cases same
  exact legal

theorem nextStatus_of_change (h : statusChange bb trigger = some c) :
    nextStatus bb.pub.status trigger = some c.status := by
  obtain ⟨next, legal, rfl⟩ := Option.map_eq_some_iff.mp h
  exact legal

theorem not_mem_denied {intent : String} {r : Refusal} :
    .statusChanged c ∉ (denied intent r).effects := by
  cases r <;> simp [denied]

theorem triggers_of_effects
    (h : .statusChanged c ∈ (runTool host bb events mid call).effects) :
    ∃ t ∈ call.triggers, nextStatus bb.pub.status t = some c.status := by
  cases call with
  | requestApproval ref msgId =>
    simp only [runTool, requestApprovalTool] at h
    split at h
    · exact absurd h not_mem_denied
    · simp only [done_effects, List.cons_append, List.mem_cons, List.mem_append, List.not_mem_nil, or_false,
        reduceCtorEq, false_or] at h
      exact ⟨_, List.mem_singleton_self _, nextStatus_of_moved h⟩
  | acceptOffer ref =>
    simp only [runTool, acceptOfferTool] at h
    split at h
    · exact absurd h not_mem_denied
    · simp only [done_effects, List.cons_append, List.nil_append, List.mem_cons, reduceCtorEq, false_or] at h
      exact ⟨_, List.mem_singleton_self _, nextStatus_of_moved h⟩
  | declineOffer ref =>
    simp only [runTool, declineOfferTool] at h
    split at h
    · exact absurd h not_mem_denied
    · rename_i line ok
      obtain ⟨text, rfl⟩ := declineOffer_eq_ok ok
      simp at h
  | proposeMandate limits =>
    simp only [runTool, proposeMandate] at h
    split at h <;> simp [proposed] at h
  | tightenMandate changes =>
    simp only [runTool, tightenMandate] at h
    split at h
    · simp at h
    · split at h
      · simp at h
      · split at h <;> simp [proposed] at h
  | revoke => simp [runTool, revoke] at h
  | recordOffer ref slots expiresMs =>
    simp only [runTool, recordOffer] at h
    split at h
    · simp at h
    · split at h
      · split at h <;> simp [recordOffer.recorded] at h
      · split at h <;> simp [recordOffer.recorded] at h
  | checkAccount conf said =>
    simp only [runTool, checkAccount] at h
    split at h
    · simp [caught] at h
    split at h
    · simp [caught] at h
    split at h
    · simp only [caught, done_effects] at h
      exact ⟨_, List.mem_singleton_self _, nextStatus_of_moved h⟩
    simp only [bind, Except.bind] at h
    split at h
    · simp [caught] at h
    · simp only [caught, done_effects, pure, Except.pure, List.mem_cons, reduceCtorEq, false_or] at h
      exact ⟨_, List.mem_singleton_self _, nextStatus_of_moved h⟩
  | finish outcome heard =>
    have closed : ∀ {o t}, .statusChanged c ∈ (close bb o t).effects →
        nextStatus bb.pub.status t = some c.status := by
      intro o t h
      unfold close at h
      split at h
      · simp at h
      · rename_i change hc
        simp only [done_effects, List.mem_singleton, Payload.statusChanged.injEq] at h
        exact h ▸ nextStatus_of_change hc
    cases outcome with
    | completed =>
      simp only [runTool, finish, finishCompleted] at h
      split at h
      · simp [caught] at h
      rename_i fail hfail
      simp only [bind, Except.bind] at h
      split at h
      · simp [caught] at h
      split at h
      · simp only [caught, no_effects, pure, Except.pure, List.mem_cons, reduceCtorEq, false_or,
          List.not_mem_nil, or_false, Payload.statusChanged.injEq] at h
        exact ⟨.completionFail, by simp [ToolCall.triggers], h ▸ nextStatus_of_change hfail⟩
      · simp only [caught, done_effects, pure, Except.pure, List.mem_cons, reduceCtorEq, false_or] at h
        exact ⟨.completionOk, by simp [ToolCall.triggers], nextStatus_of_moved h⟩
    | noDeal =>
      simp only [runTool, finish, finishNoDeal] at h
      split at h
      · simp [caught] at h
      simp only [bind, Except.bind] at h
      split at h
      · simp [caught] at h
      split at h
      · simp [caught, pure, Except.pure] at h
      · simp only [caught, done_effects, pure, Except.pure, List.mem_cons, reduceCtorEq, false_or] at h
        exact ⟨_, List.mem_singleton_self _, nextStatus_of_moved h⟩
    | escalate =>
      simp only [runTool, finish] at h
      split at h
      · simp [caught] at h
      split at h
      · simp [caught] at h
      · exact ⟨_, List.mem_singleton_self _, closed h⟩
    | infoOnly => exact ⟨_, List.mem_singleton_self _, closed h⟩

end effects

/-! ## The pending card -/

theorem pendingApproval_of_apply {bb bb' : Blackboard} {e : Event} (h : apply bb e = .ok bb') :
    bb'.priv.pendingApproval = bb.priv.pendingApproval ∧ (∀ card, e.payload ≠ .approvalRequested card) ∨
      (∃ card, e.payload = .approvalRequested card ∧ bb'.priv.pendingApproval = some card ∧
        card.authorityEpoch = bb'.epoch) ∨
      ∃ d, e.payload = .approvalDecided d := by
  obtain ⟨b, hc, rfl⟩ := change_of_apply h
  cases hc with
  | requested card hp current epoch => exact Or.inr (Or.inl ⟨card, hp, rfl, epoch⟩)
  | decided d card hp => exact Or.inr (Or.inr ⟨d, hp⟩)
  | quiet hp same =>
    exact Or.inl ⟨same.pendingApproval, fun card hd => by rw [hd] at hp; cases hp⟩
  | _ => exact Or.inl ⟨rfl, fun card hd => by simp_all⟩

namespace Kernel

/-- A timer of this card runs, or starts with the delivery of its request. -/
def Watched (k : Kernel) (card : ApprovalCard) : Prop :=
  (∃ s, (s, card) ∈ k.desk.auth.timers ∧ s ∉ k.fired) ∨
    ∃ e ∈ k.desk.undelivered, e.payload = .approvalRequested card

/-- The card is of this epoch, or the bump that stales it is still to be delivered or reacted to. -/
def Current (k : Kernel) (card : ApprovalCard) : Prop :=
  card.authorityEpoch = k.board.epoch ∨
    card.authorityEpoch < k.board.epoch ∧
      (∃ e ∈ k.desk.undelivered, ∃ bump, e.payload = .authorityEpoch bump) ∨
    ∃ cause, .move .approvalStale cause ∈ k.desk.handler

/-- A card is pending, and something will end the wait for it. -/
def Held (k : Kernel) : Prop :=
  ∃ card, k.board.priv.pendingApproval = some card ∧ k.Watched card ∧ k.Current card

def Resolving (todo : List Task) : Prop :=
  todo = [.move .approvalDecided] ∨ todo = [.move .approvalExpired]

end Kernel

def Payload.mute : Payload → Bool
  | .approvalRequested _ | .chanHold _ => true
  | _ => false

def Task.routine : Task → Prop
  | .emit _ (.statusChanged c) => c.status ≠ .awaitingApproval
  | .emit _ (.approvalDecided _) => False
  | .move trigger => trigger ≠ .approvalRequested
  | _ => True

/-- What of a block concerns the pending card. -/
inductive Script (k : Kernel) : List Task → Prop
  | plain {todo : List Task} (ok : ∀ t ∈ todo, t.routine) : Script k todo
  | asking (card : ApprovalCard) (c : StatusChanged) {rest : List Task} (ok : ∀ t ∈ rest, t.routine) :
      Script k (.emit .guard (.approvalRequested card) :: .emit .guard (.statusChanged c) :: rest)
  | asked (c : StatusChanged) {rest : List Task} (ok : ∀ t ∈ rest, t.routine)
      (idle : k.desk.handler = []) (mute : ∀ e ∈ k.desk.undelivered, e.payload.mute = true)
      (card : ApprovalCard) (pending : k.board.priv.pendingApproval = some card)
      (watched : k.Watched card) (epoch : card.authorityEpoch = k.board.epoch) :
      Script k (.emit .guard (.statusChanged c) :: rest)
  | deciding (d : ApprovalDecided) :
      Script k [.emit .kernel (.approvalDecided d), .move .approvalDecided]

structure CardInv (k : Kernel) : Prop where
  /-- a timer's request was delivered -/
  timers : ∀ {s card}, (s, card) ∈ k.desk.auth.timers →
    s + k.desk.undelivered.length < k.log.length
  ordered : k.desk.auth.timers.Pairwise (·.1 < ·.1)
  fired : ∀ {s}, s ∈ k.fired → ∃ card, (s, card) ∈ k.desk.auth.timers
  script : Script k k.todo
  waits : k.board.pub.status = .awaitingApproval → Kernel.Resolving k.todo ∨ k.Held

section cards

variable {host : Host} {k k' : Kernel} {e : Event} {causes : List Nat} {p : Payload}
  {todo : List Task} {card : ApprovalCard}

/-! ### Blocks of the tools -/

/-- No tool decides a card. -/
theorem undecided_of_effects {bb : Blackboard} {events : List Event} {mid : String}
    {call : ToolCall} {d : ApprovalDecided} :
    .approvalDecided d ∉ (runTool host bb events mid call).effects := by
  intro h
  cases he : (runTool host bb events mid call).effects with
  | nil => rw [he] at h; cases h
  | cons p rest =>
    rw [he] at h
    cases effect_of_runTool he with
    | card ref card rest ok tail =>
      rcases List.mem_cons.mp h with h | h
      · cases h
      · rcases tail _ h with h | ⟨m, h⟩ <;> cases h
    | evidence conf binding hash rest bound tail =>
      rcases List.mem_cons.mp h with h | h
      · cases h
      · cases tail _ h
    | _ => simp at h

theorem requested_of_triggers {was : CaseStatus} {trigger : Trigger}
    (h : nextStatus was trigger = some .awaitingApproval) : trigger = .approvalRequested := by
  cases trigger <;> cases was <;> first | rfl | cases h

theorem routine_of_effects {bb : Blackboard} {events : List Event} {mid : String} {call : ToolCall}
    (other : ∀ ref msgId, call ≠ .requestApproval ref msgId) :
    ∀ t ∈ (runTool host bb events mid call).effects.map (Task.emit .guard), t.routine := by
  intro t ht
  obtain ⟨p, hp, rfl⟩ := List.mem_map.mp ht
  cases p with
  | approvalDecided d => exact undecided_of_effects hp
  | statusChanged c =>
    intro awaits
    obtain ⟨trigger, mem, legal⟩ := triggers_of_effects hp
    rw [awaits] at legal
    rw [requested_of_triggers legal] at mem
    cases call with
    | requestApproval ref msgId => exact other ref msgId rfl
    | finish outcome heard => cases outcome <;> simp [ToolCall.triggers] at mem
    | _ => simp [ToolCall.triggers] at mem
  | _ => trivial

theorem script_of_effects {bb : Blackboard} {events : List Event} {mid : String} {call : ToolCall} :
    Script k ((runTool host bb events mid call).effects.map (.emit .guard)) := by
  by_cases other : ∀ ref msgId, call ≠ .requestApproval ref msgId
  · exact .plain (routine_of_effects other)
  · push Not at other
    obtain ⟨ref, msgId, rfl⟩ := other
    simp only [runTool, requestApprovalTool]
    split
    · rename_i r _
      refine .plain fun t ht => ?_
      cases r <;> simp [denied] at ht
      rw [ht]
      trivial
    · rename_i card ok
      unfold moved
      cases statusChange bb .approvalRequested with
      | none =>
        refine .plain fun t ht => ?_
        simp at ht
        rcases ht with rfl | rfl <;> trivial
      | some c =>
        refine .asking card c fun t ht => ?_
        simp at ht
        rw [ht]
        trivial

/-! ### One event -/

theorem Kernel.Watched.more (h : k.Watched card)
    (timers : k'.desk.auth.timers = k.desk.auth.timers) (fired : k'.fired = k.fired)
    (undelivered : ∀ x ∈ k.desk.undelivered, x ∈ k'.desk.undelivered) : k'.Watched card := by
  rcases h with ⟨s, hs, unfired⟩ | ⟨x, hx, hp⟩
  · exact Or.inl ⟨s, timers ▸ hs, fired ▸ unfired⟩
  · exact Or.inr ⟨x, undelivered x hx, hp⟩

/-- What an event that decides no card leaves of the wait. -/
structure Kernel.Adds (k k' : Kernel) (e : Event) : Prop where
  applied : apply k.board e = .ok k'.board
  timers : k'.desk.auth.timers = k.desk.auth.timers
  fired : k'.fired = k.fired
  undelivered : k'.desk.undelivered = k.desk.undelivered ++ [e]
  stale : ∀ cause, .move .approvalStale cause ∈ k.desk.handler →
    .move .approvalStale cause ∈ k'.desk.handler

theorem Kernel.Adds.watched (adds : k.Adds k' e) (h : k.Watched card) : k'.Watched card :=
  h.more adds.timers adds.fired fun x hx => by
    rw [adds.undelivered]
    exact List.mem_append_left _ hx

theorem Kernel.Adds.current (adds : k.Adds k' e) (h : k.Current card) : k'.Current card := by
  have here : e ∈ k'.desk.undelivered := by
    rw [adds.undelivered]
    simp
  rcases epoch_of_apply adds.applied with ⟨⟨bump, hp⟩, later⟩ | ⟨-, same⟩
  · rcases h with own | ⟨stale, -⟩ | ⟨cause, hc⟩
    · exact Or.inr (Or.inl ⟨own ▸ later, e, here, bump, hp⟩)
    · exact Or.inr (Or.inl ⟨stale.trans later, e, here, bump, hp⟩)
    · exact Or.inr (Or.inr ⟨cause, adds.stale cause hc⟩)
  · rcases h with own | ⟨stale, x, hx, bump, hp⟩ | ⟨cause, hc⟩
    · exact Or.inl (own.trans same.symm)
    · refine Or.inr (Or.inl ⟨?_, x, ?_, bump, hp⟩)
      · rw [Kernel.board, same]
        exact stale
      · rw [adds.undelivered]
        exact List.mem_append_left _ hx
    · exact Or.inr (Or.inr ⟨cause, adds.stale cause hc⟩)

theorem Kernel.Adds.held (adds : k.Adds k' e) (h : k.Held)
    (undecided : ∀ d, e.payload ≠ .approvalDecided d) : k'.Held := by
  rcases pendingApproval_of_apply adds.applied with ⟨same, -⟩ | ⟨card, hp, pending, epoch⟩ | ⟨d, hp⟩
  · obtain ⟨card, pending, watched, current⟩ := h
    exact ⟨card, same.trans pending, adds.watched watched, adds.current current⟩
  · refine ⟨card, pending, Or.inr ⟨e, ?_, hp⟩, Or.inl epoch⟩
    rw [adds.undelivered]
    simp
  · exact absurd hp (undecided d)

/-! ### A delivery -/

def Event.timer (e : Event) : List (Nat × ApprovalCard) :=
  match e.payload with
  | .approvalRequested card => [(e.seq, card)]
  | _ => []

theorem timers_next (l : Ledger) (e : Event) : (l.next e).timers = l.timers ++ e.timer := by
  unfold Ledger.next Event.timer
  cases e.payload with
  | statusChanged c =>
    obtain ⟨was, status⟩ := c
    cases status <;> simp
  | _ => simp

theorem timers_onEvent {d : Desk} : (d.auth.onEvent d.session d.closed d.bus.bb e).1.timers =
    d.auth.timers ++ e.timer :=
  (congrArg Ledger.timers Authority.ledger_onEvent).trans (timers_next d.auth.ledger e)

/-- The next event to be delivered comes after the delivered ones. -/
theorem seq_of_undelivered {d : Desk} (fence : FenceInv d) {rest : List Event}
    (next : d.undelivered = e :: rest) : e.seq + d.undelivered.length = d.bus.events.length := by
  obtain ⟨done, split, -⟩ := fence.books
  rw [next] at split
  have := fence.sound.seq_eq split
  rw [split, next, List.length_append]
  omega

/-- The kernel after the Authority handled `e`. -/
def Kernel.handled (k : Kernel) (e : Event) (rest : List Event) : Kernel :=
  { k with desk := { k.desk with
    auth := (k.desk.auth.onEvent k.desk.session k.desk.closed k.desk.bus.bb e).1
    handler := (k.desk.auth.onEvent k.desk.session k.desk.closed k.desk.bus.bb e).2
    undelivered := rest } }

theorem CardInv.unfired (inv : CardInv k) (fence : FenceInv k.desk) {rest : List Event}
    (next : k.desk.undelivered = e :: rest) : e.seq ∉ k.fired := by
  intro fired
  obtain ⟨card, mem⟩ := inv.fired fired
  have before := inv.timers mem
  have here : e.seq + k.desk.undelivered.length = k.log.length := seq_of_undelivered fence next
  omega

theorem CardInv.watched_handled (inv : CardInv k) (fence : FenceInv k.desk) {rest : List Event}
    (next : k.desk.undelivered = e :: rest) (h : k.Watched card) :
    (k.handled e rest).Watched card := by
  have timers : (k.handled e rest).desk.auth.timers = k.desk.auth.timers ++ e.timer := timers_onEvent
  rcases h with ⟨s, hs, unfired⟩ | ⟨x, hx, hp⟩
  · exact Or.inl ⟨s, by rw [timers]; exact List.mem_append_left _ hs, unfired⟩
  · rw [next] at hx
    rcases List.mem_cons.mp hx with rfl | hx
    · refine Or.inl ⟨x.seq, ?_, inv.unfired fence next⟩
      rw [timers, Event.timer, hp]
      simp
    · exact Or.inr ⟨x, hx, hp⟩

/-- The bump that stales a pending card is reacted to with the move of the case. -/
theorem Kernel.Current.handled {rest : List Event} (idle : k.desk.handler = [])
    (next : k.desk.undelivered = e :: rest) (pending : k.board.priv.pendingApproval = some card)
    (h : k.Current card) : (k.handled e rest).Current card := by
  rcases h with own | ⟨stale, x, hx, bump, hp⟩ | ⟨cause, hc⟩
  · exact Or.inl own
  · rw [next] at hx
    rcases List.mem_cons.mp hx with rfl | hx
    · refine Or.inr (Or.inr ⟨x.seq, ?_⟩)
      have pending' : k.desk.bus.bb.priv.pendingApproval.any
          (·.authorityEpoch < k.desk.bus.bb.epoch) = true := by
        rw [show k.desk.bus.bb.priv.pendingApproval = some card from pending]
        simpa using stale
      show _ ∈ (k.desk.auth.onEvent k.desk.session k.desk.closed k.desk.bus.bb x).2
      simp only [Authority.onEvent, hp, pending', if_true]
      exact List.mem_singleton_self _
    · exact Or.inr (Or.inl ⟨stale, x, hx, bump, hp⟩)
  · rw [idle] at hc
    cases hc

theorem onEvent_mute {d : Desk} (h : e.payload.mute = true) :
    (d.auth.onEvent d.session d.closed d.bus.bb e).2 = [] := by
  unfold Authority.onEvent
  cases hp : e.payload <;> rw [hp] at h <;> first | rfl | cases h

theorem CardInv.handled (inv : CardInv k) (fence : FenceInv k.desk) {rest : List Event}
    (idle : k.desk.handler = []) (next : k.desk.undelivered = e :: rest) :
    CardInv (k.handled e rest) := by
  have timers : (k.handled e rest).desk.auth.timers = k.desk.auth.timers ++ e.timer := timers_onEvent
  have here : e.seq + k.desk.undelivered.length = k.log.length := seq_of_undelivered fence next
  have length : k.desk.undelivered.length = rest.length + 1 := by rw [next, List.length_cons]
  have new : ∀ {s card}, (s, card) ∈ e.timer → s = e.seq := by
    intro s card h
    unfold Event.timer at h
    split at h
    · cases List.mem_singleton.mp h
      rfl
    · cases h
  constructor
  · intro s card h
    show s + rest.length < k.log.length
    rw [timers] at h
    rcases List.mem_append.mp h with h | h
    · have := inv.timers h
      omega
    · have := new h
      omega
  · rw [timers, List.pairwise_append]
    refine ⟨inv.ordered, ?_, fun a ha b hb => ?_⟩
    · unfold Event.timer
      split <;> simp
    · have := inv.timers ha
      have := new hb
      omega
  · intro s h
    obtain ⟨card, mem⟩ := inv.fired h
    exact ⟨card, by rw [timers]; exact List.mem_append_left _ mem⟩
  · show Script _ k.todo
    have script := inv.script
    generalize k.todo = todo at script
    cases script with
    | plain ok => exact .plain ok
    | asking card c ok => exact .asking card c ok
    | deciding d => exact .deciding d
    | asked c ok _ mute card pending watched epoch =>
      have muted : ∀ x ∈ e :: rest, x.payload.mute = true := next ▸ mute
      exact .asked c ok (onEvent_mute (muted e (List.mem_cons_self ..)))
        (fun x hx => muted x (List.mem_cons_of_mem _ hx)) card pending
        (inv.watched_handled fence next watched) epoch
  · intro awaits
    rcases inv.waits awaits with resolving | ⟨card, pending, watched, current⟩
    · exact Or.inl resolving
    · exact Or.inr ⟨card, pending, inv.watched_handled fence next watched,
        current.handled idle next pending⟩

/-! ### A step -/

/-- An event was written, by a reaction or by a block. -/
theorem CardInv.wrote (inv : CardInv k) (log : k'.log = k.log ++ [e])
    (timers : k'.desk.auth.timers = k.desk.auth.timers) (fired : k'.fired = k.fired)
    (undelivered : k'.desk.undelivered = k.desk.undelivered ++ [e]) (script : Script k' k'.todo)
    (waits : k'.board.pub.status = .awaitingApproval → Kernel.Resolving k'.todo ∨ k'.Held) :
    CardInv k' := by
  refine ⟨fun h => ?_, timers ▸ inv.ordered, fun h => ?_, script, waits⟩
  · have := inv.timers (timers ▸ h)
    rw [undelivered, log, List.length_append, List.length_append]
    simp only [List.length_singleton]
    omega
  · obtain ⟨card, mem⟩ := inv.fired (fired ▸ h)
    exact ⟨card, timers ▸ mem⟩

/-- A running handler does not touch what the block still does. -/
theorem Script.reacting (script : Script k todo) (busy : k.desk.handler ≠ []) : Script k' todo := by
  cases script with
  | plain ok => exact .plain ok
  | asking card c ok => exact .asking card c ok
  | deciding d => exact .deciding d
  | asked c ok idle => exact absurd idle busy

/-- Time and the closing turn change nothing of the wait. -/
theorem CardInv.timed (inv : CardInv k) (now : Nat) (closed : Bool) :
    CardInv { k with desk := { k.desk with now, closed } } := by
  refine ⟨inv.timers, inv.ordered, inv.fired, ?_, inv.waits⟩
  show Script _ k.todo
  have script := inv.script
  generalize k.todo = todo at script
  cases script with
  | plain ok => exact .plain ok
  | asking card c ok => exact .asking card c ok
  | deciding d => exact .deciding d
  | asked c ok idle mute card pending watched epoch =>
    exact .asked c ok idle mute card pending watched epoch

theorem CardInv.unmoved (inv : CardInv k) {trigger : Trigger} {cause : Nat} {rest : List Reaction}
    (next : k.desk.handler = .move trigger cause :: rest)
    (illegal : nextStatus k.board.pub.status trigger = none) :
    CardInv { k with desk := { k.desk with handler := rest } } := by
  refine ⟨inv.timers, inv.ordered, inv.fired, inv.script.reacting (by rw [next]; simp), fun awaits => ?_⟩
  rcases inv.waits awaits with resolving | ⟨card, pending, watched, current⟩
  · exact Or.inl resolving
  · refine Or.inr ⟨card, pending, watched, ?_⟩
    rcases current with own | stale | ⟨cause', hc⟩
    · exact Or.inl own
    · exact Or.inr (Or.inl stale)
    · rw [next] at hc
      rcases List.mem_cons.mp hc with same | hc
      · -- the move of a stale card is legal while the case waits
        cases same
        rw [show k.board.pub.status = .awaitingApproval from awaits] at illegal
        cases illegal
      · exact Or.inr (Or.inr ⟨cause', hc⟩)

theorem CardInv.reacted (inv : CardInv k) {d : Desk} {r : Reaction} {rest : List Reaction}
    (next : k.desk.handler = r :: rest) (appended : ({ k.desk with handler := rest } : Desk).Appended e d)
    (undelivered : d.undelivered = k.desk.undelivered ++ [e]) (handler : d.handler = rest)
    (what : e.payload.reacted)
    (unmoved : (∀ c, e.payload ≠ .statusChanged c) → ∀ cause, r ≠ .move .approvalStale cause) :
    CardInv { k with desk := d } := by
  have auth : d.auth = k.desk.auth := appended.auth
  have script : Script { k with desk := d } k.todo := inv.script.reacting (by rw [next]; simp)
  refine inv.wrote appended.log (congrArg Authority.timers auth) rfl undelivered script fun awaits => ?_
  cases hm : e.payload.movesStatus with
  | true =>
    obtain ⟨c, hp⟩ := movesStatus_eq_true hm
    obtain ⟨-, now, -⟩ := status_of_changed appended.applied hp
    rw [hp] at what
    have awaits : d.bus.bb.pub.status = .awaitingApproval := awaits
    rw [now] at awaits
    rcases what with ⟨-, hs⟩ | ⟨-, hs⟩ <;> rw [awaits] at hs <;> cases hs
  | false =>
    have same : d.bus.bb.pub.status = k.board.pub.status := status_of_apply appended.applied hm
    have still : ∀ c, e.payload ≠ .statusChanged c := fun c hp => by rw [hp] at hm; cases hm
    have adds : k.Adds { k with desk := d } e := by
      refine ⟨appended.applied, congrArg Authority.timers auth, rfl, undelivered, fun cause hc => ?_⟩
      rw [next] at hc
      rcases List.mem_cons.mp hc with hr | hc
      · exact absurd hr.symm (unmoved still cause)
      · show _ ∈ d.handler
        rw [handler]
        exact hc
    rcases inv.waits (same.symm.trans awaits) with resolving | held
    · exact Or.inl resolving
    · refine Or.inr (adds.held held fun d' hp => ?_)
      rw [hp] at what
      cases what

/-- The Authority's own steps. -/
theorem CardInv.internal (inv : CardInv k) (fence : FenceInv k.desk) {a : DeskAct} {d : Desk}
    (own : ∀ t actor causes p, a ≠ .env t actor causes p) (h : k.desk.step a = some d) :
    CardInv { k with desk := d } := by
  cases a with
  | env t actor causes p => exact absurd rfl (own t actor causes p)
  | tick t =>
    simp only [Desk.step] at h
    split at h
    · cases h
      exact inv.timed t k.desk.closed
    · cases h
  | close =>
    simp only [Desk.step] at h
    split at h
    · cases h
      exact inv.timed k.desk.now true
    · cases h
  | deliver =>
    simp only [Desk.step, Desk.deliver] at h
    split at h
    · rename_i e rest idle next
      cases h
      exact inv.handled fence idle next
    · cases h
  | react t =>
    simp only [Desk.step, Desk.react] at h
    split at h
    · cases h
    · rename_i actor causes p rest next
      obtain ⟨appended, undelivered, handler⟩ := Desk.appended_of_emit h
      have plain := fence.plain _ (next ▸ List.mem_cons_self ..)
      refine inv.reacted next appended undelivered handler ?_ fun _ _ hr => by cases hr
      show p.reacted
      cases p with
      | authorityFence => trivial
      | authorityEpoch bump =>
        show bump.reason = .f2sRevoke
        simpa [Reaction.plain] using plain
      | _ => cases plain
    · rename_i trigger cause rest next
      rcases Desk.move_eq_some h with ⟨illegal, rfl⟩ | ⟨status, legal, emitted⟩
      · exact inv.unmoved next illegal
      · obtain ⟨appended, undelivered, handler⟩ := Desk.appended_of_emit emitted
        have plain := fence.plain _ (next ▸ List.mem_cons_self ..)
        exact inv.reacted next appended undelivered handler
          (reacted_of_move (by simpa [Reaction.plain] using plain) legal) fun still => absurd rfl (still _)

theorem Script.tail {t : Task} {rest : List Task} (script : Script k (t :: rest))
    (other : ∀ actor p, t ≠ .emit actor p) : ∀ x ∈ rest, x.routine := by
  cases script with
  | plain ok => exact fun x hx => ok x (List.mem_cons_of_mem _ hx)
  | asking card c ok => exact absurd rfl (other _ _)
  | asked c ok => exact absurd rfl (other _ _)
  | deciding d => exact absurd rfl (other _ _)

/-- What the world and the lanes emit neither asks for a decision nor makes one. -/
theorem free_undecided (what : p.isHold = true ∨ k.todo = [] ∧ ∃ causes, k.free causes p = true) :
    (∀ d, p ≠ .approvalDecided d) ∧ ∀ c, p ≠ .statusChanged c := by
  refine ⟨?_, ?_⟩ <;> rintro x rfl <;> rcases what with hold | ⟨-, causes, free⟩ <;> first | cases hold | cases free

theorem Kernel.Begins.fired {k₀ : Kernel} (begins : Kernel.Begins host k k₀ p todo) :
    k₀.fired = k.fired := by
  cases begins <;> rfl

theorem adds_of_emits {k₀ : Kernel} (begins : Kernel.Begins host k k₀ p todo)
    (em : k₀.Emits causes p todo e k') (fired : k'.fired = k₀.fired) : k.Adds k' e := by
  have appended := em.appended
  have undelivered := em.undelivered
  have idle := em.idle
  rw [begins.desk] at appended undelivered idle
  refine ⟨appended.applied, congrArg Authority.timers appended.auth, fired.trans begins.fired,
    undelivered, fun cause hc => ?_⟩
  rw [idle] at hc
  cases hc

theorem routine_afterDelivery {q : Waiting} {said : String} :
    ∀ t ∈ Kernel.afterDelivery q said, t.routine := by
  intro t ht
  unfold Kernel.afterDelivery at ht
  rcases List.mem_append.mp ht with ht | ht
  · split at ht
    · cases ht
    · rw [List.mem_singleton.mp ht]
      trivial
  · split at ht
    · rw [List.mem_singleton.mp ht]
      split <;> exact fun h => by cases h
    · cases ht

theorem Script.emitted {k₀ : Kernel} (script : Script k k.todo)
    (begins : Kernel.Begins host k k₀ p todo) (em : k₀.Emits causes p todo e k')
    (adds : k.Adds k' e) : Script k' todo := by
  have hp := em.payload
  cases begins with
  | world p what =>
    rcases what with hold | ⟨empty, -⟩
    · generalize k.todo = todo at script
      cases script with
      | plain ok => exact .plain ok
      | asking card c ok => exact .asking card c ok
      | deciding d => exact .deciding d
      | asked c ok idle mute card pending watched epoch =>
        have muted : e.payload.mute = true := by
          rw [hp]
          cases p <;> first | rfl | cases hold
        have quiet : e.payload.isQuiet = true := by
          rw [hp]
          cases p <;> first | rfl | cases hold
        have same := sameAuthority_of_apply adds.applied quiet
        refine .asked c ok em.handler (fun x hx => ?_) card (same.pendingApproval.trans pending)
          (adds.watched watched) (epoch.trans same.epoch.symm)
        rw [adds.undelivered] at hx
        rcases List.mem_append.mp hx with hx | hx
        · exact mute x hx
        · rw [List.mem_singleton.mp hx]
          exact muted
    · rw [empty]
      exact .plain (by simp)
  | tool call idle => exact script_of_effects
  | posted post by_ d idle allowed =>
    cases decide_spec allowed with
    | mandate m subject =>
      refine .plain fun t ht => ?_
      simp only [Kernel.afterDecision, subject, List.mem_cons] at ht
      rcases ht with rfl | rfl | ht
      · trivial
      · trivial
      · split at ht
        · rw [List.mem_singleton.mp ht]
          exact fun h => by cases h
        · cases ht
    | approval card subject =>
      simp only [Kernel.afterDecision, subject]
      exact .deciding _
  | revoked i q reason idle free line =>
    refine .plain fun t ht => ?_
    split at ht
    · rw [List.mem_singleton.mp ht]
      exact fun h => by cases h
    · cases ht
  | heard q seq said idle onFloor => exact .plain routine_afterDelivery
  | opened idle =>
    exact .plain fun t ht => by rw [List.mem_singleton.mp ht]; exact fun h => by cases h
  | task actor p rest quiet next =>
    rw [next] at script
    cases script with
    | plain ok => exact .plain fun t ht => ok t (List.mem_cons_of_mem _ ht)
    | asked c ok => exact .plain ok
    | deciding d =>
      exact .plain fun t ht => by rw [List.mem_singleton.mp ht]; exact fun h => by cases h
    | asking card c ok =>
      rcases pendingApproval_of_apply adds.applied with ⟨-, other⟩ | ⟨card', hp', pending, epoch⟩ | ⟨d, hp'⟩
      · exact absurd hp (other card)
      · rw [hp] at hp'
        cases hp'
        have last : k'.desk.undelivered = [e] := by
          rw [adds.undelivered, (Desk.quiet_iff.mp quiet).2, List.nil_append]
        refine .asked c ok em.handler (fun x hx => ?_) card pending (Or.inr ⟨e, ?_, hp⟩) epoch
        · rw [last] at hx
          rw [List.mem_singleton.mp hx, hp]
          rfl
        · rw [last]
          exact List.mem_singleton_self _
      · rw [hp] at hp'
        cases hp'
  | bump rest quiet next =>
    rw [next] at script
    exact .plain (script.tail fun _ _ h => by cases h)
  | move trigger status rest quiet next legal =>
    rw [next] at script
    exact .plain (script.tail fun _ _ h => by cases h)
  | _ => exact .plain (by simp)

/-- A block's event keeps the wait, or ends it. -/
theorem CardInv.emitted {k₀ : Kernel} (inv : CardInv k)
    (begins : Kernel.Begins host k k₀ p todo) (em : k₀.Emits causes p todo e k')
    (fired : k'.fired = k₀.fired) : CardInv k' := by
  have adds := adds_of_emits begins em fired
  have log : k'.log = k.log ++ [e] := by
    have := em.appended.log
    rwa [begins.desk] at this
  have script := inv.script.emitted begins em adds
  refine inv.wrote log adds.timers adds.fired adds.undelivered (em.todo_eq ▸ script) fun awaits => ?_
  rw [em.todo_eq]
  have hp := em.payload
  by_cases moves : ∃ c, p = .statusChanged c
  · obtain ⟨c, rfl⟩ := moves
    obtain ⟨was, now, -⟩ := status_of_changed adds.applied hp
    have target : c.status = .awaitingApproval := now.symm.trans awaits
    have here := inv.script
    cases begins with
    | world p what => exact absurd rfl ((free_undecided what).2 c)
    | task actor p rest quiet next =>
      rw [next] at here
      cases here with
      | plain ok => exact absurd target (ok _ (List.mem_cons_self ..))
      | asked c ok idle mute card pending watched epoch =>
        have quiet : ∀ bump, e.payload ≠ .authorityEpoch bump := fun bump h => by
          rw [hp] at h
          cases h
        rcases pendingApproval_of_apply adds.applied with ⟨same, -⟩ | ⟨card', hp', -⟩ | ⟨d, hp'⟩
        · exact Or.inr ⟨card, same.trans pending, adds.watched watched, adds.current (Or.inl epoch)⟩
        · rw [hp] at hp'
          cases hp'
        · rw [hp] at hp'
          cases hp'
    | move trigger status rest quiet next legal =>
      rw [next] at here
      cases here with
      | plain ok =>
        have target : status = .awaitingApproval := target
        rw [target] at legal
        exact absurd (requested_of_triggers legal) (ok _ (List.mem_cons_self ..))
  · have still : e.payload.movesStatus = false := by
      cases hm : e.payload.movesStatus with
      | false => rfl
      | true =>
        obtain ⟨c, hc⟩ := movesStatus_eq_true hm
        exact absurd ⟨c, hp.symm.trans hc⟩ moves
    have same : k'.board.pub.status = k.board.pub.status := status_of_apply adds.applied still
    have was := inv.waits (same.symm.trans awaits)
    have here := inv.script
    have resolved : k.todo = [] → ¬ Kernel.Resolving k.todo := fun empty h => by
      rcases h with h | h <;> rw [empty] at h <;> cases h
    cases begins with
    | world p what =>
      rcases was with resolving | held
      · exact Or.inl resolving
      · exact Or.inr (adds.held held fun d hd => (free_undecided what).1 d (hp.symm.trans hd))
    | task actor p rest quiet next =>
      rw [next] at was here
      cases here with
      | deciding d => exact Or.inl (Or.inl rfl)
      | plain ok =>
        rcases was with (h | h) | held
        · cases h
        · cases h
        · refine Or.inr (adds.held held fun d hd => ?_)
          have := ok _ (List.mem_cons_self ..)
          rw [← hp, hd] at this
          exact this
      | asking card c ok =>
        rcases was with (h | h) | held
        · cases h
        · cases h
        · exact Or.inr (adds.held held fun d hd => by rw [hp] at hd; cases hd)
      | asked c => exact absurd ⟨c, rfl⟩ moves
    | bump rest quiet next =>
      rw [next] at was
      rcases was with (h | h) | held
      · cases h
      · cases h
      · exact Or.inr (adds.held held fun d hd => by rw [hp] at hd; cases hd)
    | move trigger status rest quiet next legal => exact absurd ⟨_, rfl⟩ moves
    | _ =>
      -- the block starts: nothing was left to end the wait
      have held := was.resolve_left (resolved (idle_iff.mp ‹k.idle = true›).1)
      exact Or.inr (adds.held held fun d hd => by rw [hp] at hd; cases hd)

/-- Each request has one timer. -/
theorem CardInv.same_card (inv : CardInv k) {s : Nat} {card card' : ApprovalCard}
    (h : (s, card) ∈ k.desk.auth.timers) (h' : (s, card') ∈ k.desk.auth.timers) : card = card' := by
  have nodup : (k.desk.auth.timers.map Prod.fst).Nodup :=
    List.pairwise_map.mpr (inv.ordered.imp fun hlt => Nat.ne_of_lt hlt)
  exact congrArg Prod.snd (List.inj_on_of_nodup_map nodup h h' rfl)

theorem CardInv.find_timer (inv : CardInv k) {s : Nat} {card : ApprovalCard}
    (h : (s, card) ∈ k.desk.auth.timers) :
    k.desk.auth.timers.find? (·.1 = s) = some (s, card) := by
  obtain ⟨found, hf⟩ := Option.isSome_iff_exists.mp
    (List.find?_isSome.mpr ⟨(s, card), h, by simp⟩ : (k.desk.auth.timers.find? (·.1 = s)).isSome = true)
  obtain ⟨s', card'⟩ := found
  have own : s' = s := by simpa using List.find?_some hf
  subst own
  rw [hf, inv.same_card h (List.mem_of_find?_eq_some hf)]

/-- The timer of another card ends: the pending one keeps its own. -/
theorem CardInv.expired (inv : CardInv k) {seq : Nat} {card : ApprovalCard} (idle : k.todo = [])
    (timer : (seq, card) ∈ k.desk.auth.timers) :
    CardInv { k with
      fired := seq :: k.fired
      todo := if k.board.priv.pendingApproval = some card then [.move .approvalExpired] else [] } := by
  refine ⟨inv.timers, inv.ordered, fun h => ?_, .plain fun t ht => ?_, fun awaits => ?_⟩
  · rcases List.mem_cons.mp h with rfl | h
    · exact ⟨card, timer⟩
    · exact inv.fired h
  · dsimp only at ht
    split at ht
    · rw [List.mem_singleton.mp ht]
      exact fun h => by cases h
    · cases ht
  · dsimp only
    rcases inv.waits awaits with (h | h) | ⟨card', pending, watched, current⟩
    · rw [idle] at h
      cases h
    · rw [idle] at h
      cases h
    by_cases own : card' = card
    · rw [if_pos (own ▸ pending)]
      exact Or.inl (Or.inr rfl)
    · refine Or.inr ⟨card', pending, ?_, current⟩
      rcases watched with ⟨s, hs, unfired⟩ | asked
      · refine Or.inl ⟨s, hs, fun h => ?_⟩
        rcases List.mem_cons.mp h with rfl | h
        · exact own (inv.same_card hs timer)
        · exact unfired h
      · exact Or.inr asked

theorem CardInv.step (inv : CardInv k) (base : KernelInv host k) (taken : Kernel.Taken host k k') :
    CardInv k' := by
  cases taken with
  | internally a d own stepped => exact inv.internal base.fence own stepped
  | emitted begins em frame => exact inv.emitted begins em frame.2.2
  | waits i q users line =>
    refine ⟨inv.timers, inv.ordered, inv.fired, ?_, inv.waits⟩
    show Script _ k.todo
    have script := inv.script
    generalize k.todo = todo at script
    cases script with
    | plain ok => exact .plain ok
    | asking card c ok => exact .asking card c ok
    | deciding d => exact .deciding d
    | asked c ok idle mute card pending watched epoch =>
      exact .asked c ok idle mute card pending watched epoch
  | hangsUp idle =>
    refine ⟨inv.timers, inv.ordered, inv.fired, .plain fun t ht => ?_, fun awaits => ?_⟩
    · rw [List.mem_singleton.mp ht]
      exact fun h => by cases h
    · refine Or.inr ((inv.waits awaits).resolve_left fun h => ?_)
      rcases h with h | h <;> rw [(idle_iff.mp idle).1] at h <;> cases h
  | expires seq card idle timer due unfired =>
    exact inv.expired (idle_iff.mp idle).1 (List.mem_of_find?_eq_some timer)
  | skips trigger rest quiet next illegal =>
    have script := inv.script
    rw [next] at script
    refine ⟨inv.timers, inv.ordered, inv.fired, .plain (script.tail fun _ _ h => by cases h),
      fun awaits => Or.inr ((inv.waits awaits).resolve_left fun h => ?_)⟩
    -- the end of the wait is legal while the case waits
    have awaits : k.board.pub.status = .awaitingApproval := awaits
    rw [awaits] at illegal
    rcases h with h | h <;> rw [next] at h <;> cases h <;> cases illegal

theorem CardInv.reach {session : Session} {runId : String}
    (h : Reach (Kernel.step host) anyStep (Kernel.start session runId) k) : CardInv k :=
  h.invariant ⟨(fun h => by cases h), List.Pairwise.nil, (fun h => by cases h), .plain (by simp [Kernel.start]),
    fun h => by cases h⟩ fun hr inv _ hs => inv.step (KernelInv.reach hr) (Kernel.taken_of_step hs)

end cards

end ProxyLoop

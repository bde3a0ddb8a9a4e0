import ProxyLoop.Kernel.Decisions
import ProxyLoop.Kernel.Lines

/-!
# What an ended block leaves

`Kernel.Leaves` is about every way a block may go once it has begun, its deliveries and reactions at
any times: whenever it is done, the case is in the given status.
-/

namespace ProxyLoop

open Lib (Dict Reach anyStep)

/-! ## The last task of a block -/

/-- The block moves the case from `was` by its last task, or has. -/
def Kernel.Ends (was : CaseStatus) (trigger : Trigger) (k : Kernel) : Prop :=
  k.desk.handler = [] ∧ (∀ x ∈ k.desk.undelivered, x.payload.Inert) ∧
    (k.board.pub.status = was ∧ (∃ pre, k.todo = pre ++ [.move trigger] ∧
        ∀ t ∈ pre, ∃ actor p, t = .emit actor p ∧ p.Inert ∧ p.movesStatus = false) ∨
      nextStatus was trigger = some k.board.pub.status ∧ k.todo = [])

/-- A completed step that covers the replan is delivered, and the case moved. -/
inductive Kernel.Replanning (k : Kernel) : Prop
  | told (e : Event) (rest : List Event) (basis : Nat) (idle : k.desk.handler = [])
      (next : k.desk.undelivered = e :: rest) (completed : e.payload = .slowStepCompleted basis)
      (covers : k.desk.auth.replan.any (· ≤ basis) = true) (inert : ∀ x ∈ rest, x.payload.Inert)
      (needs : k.board.pub.status = .needsReplan) (empty : k.todo = [])
  | clearing (cleared : List Reaction) (cause : Nat)
      (next : k.desk.handler = cleared ++ [.move .replan cause])
      (fences : ∀ r ∈ cleared, ∃ causes op id utt, r = .emit .kernel causes (.authorityFence op id utt))
      (inert : ∀ x ∈ k.desk.undelivered, x.payload.Inert)
      (needs : k.board.pub.status = .needsReplan) (empty : k.todo = [])
  | moved (idle : k.desk.handler = []) (inert : ∀ x ∈ k.desk.undelivered, x.payload.Inert)
      (inCall : k.board.pub.status = .inCall) (empty : k.todo = [])

/-! ## A bump stales the card -/

/-- What the blocks that bump the epoch write, and what is written in reaction. -/
def Payload.bumping : Payload → Bool
  | .slowTool .. | .approvalPost _ | .mandateDecided _ | .mandateProposed _ | .authorityEpoch _
  | .f2sMsg _ | .chanHold _ | .statusChanged _ => true
  | _ => false

def Task.bumping : Task → Prop
  | .emit _ p => p.bumping = true ∧ p.movesStatus = false
  | .move trigger => trigger = .mandateGranted
  | .bump => True

def Reaction.bumping : Reaction → Prop
  | .emit _ _ p => ∃ bump, p = .authorityEpoch bump
  | .move trigger _ => trigger = .approvalStale

def Kernel.ToBump (k : Kernel) : Prop :=
  .bump ∈ k.todo ∨ (∃ actor bump, .emit actor (.authorityEpoch bump) ∈ k.todo) ∨
    (∃ e ∈ k.desk.undelivered, ∃ msg, e.payload = .f2sMsg msg ∧ msg.type = .revoke) ∨
    ∃ actor causes bump, .emit actor causes (.authorityEpoch bump) ∈ k.desk.handler

structure Kernel.Staling (k : Kernel) (card : ApprovalCard) : Prop where
  pending : k.board.priv.pendingApproval = some card
  status : k.board.pub.status = .awaitingApproval ∨ k.board.pub.status = .needsReplan
  stale : card.authorityEpoch < k.board.epoch ∨ card.authorityEpoch = k.board.epoch ∧ k.ToBump
  todo : ∀ t ∈ k.todo, t.bumping
  handler : ∀ r ∈ k.desk.handler, r.bumping
  undelivered : ∀ e ∈ k.desk.undelivered, e.payload.bumping = true

section leaves

variable {host : Host} {k k' : Kernel} {e : Event} {causes : List Nat} {p : Payload}
  {todo : List Task}

theorem inert_snoc {es : List Event} (inert : ∀ x ∈ es, x.payload.Inert) (new : e.payload.Inert) :
    ∀ x ∈ es ++ [e], x.payload.Inert := by
  intro x hx
  rcases List.mem_append.mp hx with hx | hx
  · exact inert x hx
  · rw [List.mem_singleton.mp hx]
    exact new

/-- A completed step whose basis covers the replan moves the case. -/
theorem move_of_completed {d : Desk} {basis : Nat} (hp : e.payload = .slowStepCompleted basis)
    (covers : d.auth.replan.any (· ≤ basis) = true) :
    ∃ cleared, (d.auth.onEvent d.session d.closed d.bus.bb e).2 = cleared ++ [.move .replan e.seq] ∧
      ∀ r ∈ cleared, ∃ op id utt, r = .emit .kernel [e.seq] (.authorityFence op id utt) := by
  simp only [Authority.onEvent, hp, Authority.completed, Authority.clearAll, covers, if_true]
  refine ⟨_, rfl, fun r hr => ?_⟩
  obtain ⟨q, -, rfl⟩ := List.mem_map.mp hr
  exact ⟨_, _, _, rfl⟩

/-- The steps between the start of a block and its end, from a desk whose handlers are done. -/
theorem finishing_cases {a : Kernel.Act} (ok : k.finishing a) (h : k.step host a = some k') :
    (∃ t, k' = { k with desk := { k.desk with now := t } }) ∨
      (∃ t desk, k.desk.react t = some desk ∧ k' = { k with desk }) ∨
      (∃ desk, k.desk.deliver = some desk ∧ k' = { k with desk }) ∨
      (∃ e p causes, p.isHold = true ∧ k.Emits causes p k.todo e k') ∨
      ∃ t causes, k.desk.quiet = true ∧ k.runNext t causes = some k' := by
  cases a with
  | tick t =>
    obtain ⟨d, hd, rfl⟩ := Option.map_eq_some_iff.mp h
    simp only [Desk.step] at hd
    split at hd
    · cases hd
      exact Or.inl ⟨t, rfl⟩
    · cases hd
  | react t =>
    obtain ⟨d, hd, rfl⟩ := Option.map_eq_some_iff.mp h
    exact Or.inr (Or.inl ⟨t, d, hd, rfl⟩)
  | deliver =>
    obtain ⟨d, hd, rfl⟩ := Option.map_eq_some_iff.mp h
    exact Or.inr (Or.inr (Or.inl ⟨d, hd, rfl⟩))
  | world t actor causes p =>
    have hold : p.isHold = true := ok
    simp only [Kernel.step, hold, Bool.true_or, if_true] at h
    obtain ⟨e, em⟩ := Kernel.emits_of_emit h
    exact Or.inr (Or.inr (Or.inr (Or.inl ⟨e, p, causes, hold, em⟩)))
  | next t causes =>
    simp only [Kernel.step] at h
    split at h
    · exact Or.inr (Or.inr (Or.inr (Or.inr ⟨t, causes, ‹_›, h⟩)))
    · cases h
  | _ => exact absurd ok id

theorem deliver_inert {d : Desk} (inert : ∀ x ∈ k.desk.undelivered, x.payload.Inert)
    (h : k.desk.deliver = some d) : d.bus = k.desk.bus ∧ d.handler = [] ∧
      ∀ x ∈ d.undelivered, x.payload.Inert := by
  unfold Desk.deliver at h
  split at h
  · rename_i e rest idle next
    cases h
    rw [next] at inert
    exact ⟨rfl, inert e (List.mem_cons_self ..) _ _ _ _ _ rfl,
      fun x hx => inert x (List.mem_cons_of_mem _ hx)⟩
  · cases h

theorem inert_hold (h : p.isHold = true) : p.Inert :=
  inert_of_calm (by cases p <;> first | rfl | cases h)

theorem still_hold (h : p.isHold = true) : p.movesStatus = false := by
  cases p <;> first | rfl | cases h

theorem Kernel.Ends.step {was : CaseStatus} {trigger : Trigger} {a : Kernel.Act}
    (ends : k.Ends was trigger) (ok : k.finishing a) (legal : (nextStatus was trigger).isSome = true)
    (h : k.step host a = some k') : k'.Ends was trigger := by
  obtain ⟨idle, inert, where_⟩ := ends
  rcases finishing_cases ok h with ⟨t, rfl⟩ | ⟨t, d, hd, rfl⟩ | ⟨d, hd, rfl⟩ |
    ⟨e, p, causes, hold, em⟩ | ⟨t, causes, quiet, hn⟩
  · exact ⟨idle, inert, where_⟩
  · rw [Desk.react, idle] at hd
    cases hd
  · obtain ⟨bus, handler, later⟩ := deliver_inert inert hd
    have board : ({ k with desk := d } : Kernel).board = k.board := congrArg Bus.bb bus
    exact ⟨handler, later, by rw [board]; exact where_⟩
  · have same : k'.board.pub.status = k.board.pub.status :=
      status_of_apply em.appended.applied (by rw [em.payload]; exact still_hold hold)
    refine ⟨em.handler, ?_, by rw [same, em.todo_eq]; exact where_⟩
    rw [em.undelivered]
    exact inert_snoc inert (em.payload ▸ inert_hold hold)
  · rcases where_ with ⟨status, pre, next, block⟩ | ⟨-, empty⟩
    · unfold Kernel.runNext at hn
      rw [next] at hn
      cases pre with
      | nil =>
        obtain ⟨after, ha⟩ := Option.isSome_iff_exists.mp legal
        simp only [List.nil_append, status, ha] at hn
        obtain ⟨e, em⟩ := Kernel.emits_of_emit hn
        have now := (status_of_changed em.appended.applied em.payload).2.1
        refine ⟨em.handler, ?_, Or.inr ⟨ha.trans (congrArg some now.symm), em.todo_eq⟩⟩
        rw [em.undelivered]
        exact inert_snoc inert (em.payload ▸ inert_of_calm rfl)
      | cons task pre =>
        obtain ⟨actor, p, rfl, quietly, still⟩ := block task (List.mem_cons_self ..)
        obtain ⟨e, em⟩ := Kernel.emits_of_emit hn
        have same : k'.board.pub.status = k.board.pub.status :=
          status_of_apply em.appended.applied (by rw [em.payload]; exact still)
        refine ⟨em.handler, ?_, Or.inl ⟨same.trans status, pre, em.todo_eq,
          fun t ht => block t (List.mem_cons_of_mem _ ht)⟩⟩
        rw [em.undelivered]
        exact inert_snoc inert (em.payload ▸ quietly)
    · rw [Kernel.runNext, empty] at hn
      cases hn

/-- A block that ends a wait has moved the case once it is done. -/
theorem Kernel.Ends.ended {was : CaseStatus} {trigger : Trigger} (ends : k.Ends was trigger)
    (legal : (nextStatus was trigger).isSome = true)
    (run : Reach (Kernel.step host) Kernel.finishing k k') (idle : k'.idle = true) :
    nextStatus was trigger = some k'.board.pub.status := by
  have ends' : k'.Ends was trigger :=
    run.invariant (I := Kernel.Ends was trigger) ends fun _ ends ok hs => ends.step ok legal hs
  obtain ⟨-, -, ⟨-, pre, next, -⟩ | ⟨moved, -⟩⟩ := ends'
  · rw [(idle_iff.mp idle).1] at next
    cases pre <;> cases next
  · exact moved

theorem Kernel.Replanning.react {d : Desk} {t : Nat} (replanning : k.Replanning)
    (hd : k.desk.react t = some d) : ({ k with desk := d } : Kernel).Replanning := by
  cases replanning with
  | told e rest basis idle =>
    rw [Desk.react, idle] at hd
    cases hd
  | moved idle =>
    rw [Desk.react, idle] at hd
    cases hd
  | clearing cleared cause next fences inert needs empty =>
    cases cleared with
    | nil =>
      rw [Desk.react, next, List.nil_append] at hd
      have legal : nextStatus k.desk.bus.bb.pub.status .replan = some .inCall := by
        rw [show k.desk.bus.bb.pub.status = .needsReplan from needs]
        rfl
      rcases Desk.move_eq_some hd with ⟨illegal, -⟩ | ⟨status, own, emitted⟩
      · rw [legal] at illegal
        cases illegal
      · cases legal.symm.trans own
        obtain ⟨appended, undelivered, handler⟩ := Desk.appended_of_emit emitted
        have now := (status_of_changed appended.applied rfl).2.1
        refine .moved handler ?_ now empty
        rw [undelivered]
        exact inert_snoc inert (inert_of_calm rfl)
    | cons r cleared =>
      obtain ⟨causes, op, id, utt, rfl⟩ := fences r (List.mem_cons_self ..)
      rw [Desk.react, next] at hd
      obtain ⟨appended, undelivered, handler⟩ := Desk.appended_of_emit hd
      have same : d.bus.bb.pub.status = k.board.pub.status := status_of_apply appended.applied rfl
      refine .clearing cleared cause handler (fun r hr => fences r (List.mem_cons_of_mem _ hr)) ?_
        (same.trans needs) empty
      rw [undelivered]
      exact inert_snoc inert (inert_of_calm rfl)

theorem Kernel.Replanning.deliver {d : Desk} (replanning : k.Replanning)
    (hd : k.desk.deliver = some d) : ({ k with desk := d } : Kernel).Replanning := by
  cases replanning with
  | told e rest basis idle next completed covers inert needs empty =>
    obtain ⟨cleared, handler, fences⟩ := move_of_completed completed covers
    rw [Desk.deliver, idle, next] at hd
    cases hd
    exact .clearing cleared e.seq handler (fun r hr => ⟨_, fences r hr⟩) inert needs empty
  | clearing cleared cause next =>
    rw [Desk.deliver, next] at hd
    cases cleared <;> cases hd
  | moved idle inert inCall empty =>
    obtain ⟨bus, handler, later⟩ := deliver_inert inert hd
    have board : ({ k with desk := d } : Kernel).board = k.board := congrArg Bus.bb bus
    exact .moved handler later (by rw [board]; exact inCall) empty

theorem Kernel.Replanning.step {a : Kernel.Act} (replanning : k.Replanning) (ok : k.finishing a)
    (h : k.step host a = some k') : k'.Replanning := by
  rcases finishing_cases ok h with ⟨t, rfl⟩ | ⟨t, d, hd, rfl⟩ | ⟨d, hd, rfl⟩ |
    ⟨e', p, causes, hold, em⟩ | ⟨t, causes, quiet, hn⟩
  · cases replanning with
    | told e rest basis idle next completed covers inert needs empty =>
      exact .told e rest basis idle next completed covers inert needs empty
    | clearing cleared cause next fences inert needs empty =>
      exact .clearing cleared cause next fences inert needs empty
    | moved idle inert inCall empty => exact .moved idle inert inCall empty
  · exact replanning.react hd
  · exact replanning.deliver hd
  · have same : k'.board.pub.status = k.board.pub.status :=
      status_of_apply em.appended.applied (by rw [em.payload]; exact still_hold hold)
    have mute : e'.payload.Inert := em.payload ▸ inert_hold hold
    cases replanning with
    | told e rest basis idle next completed covers inert needs empty =>
      refine .told e (rest ++ [e']) basis em.handler ?_ completed ?_ (inert_snoc inert mute)
        (same.trans needs) (em.todo_eq.trans empty)
      · rw [em.undelivered, next, List.cons_append]
      · rw [em.appended.auth]
        exact covers
    | clearing cleared cause next =>
      have idle := em.idle
      rw [next] at idle
      cases cleared <;> cases idle
    | moved idle inert inCall empty =>
      refine .moved em.handler ?_ (same.trans inCall) (em.todo_eq.trans empty)
      rw [em.undelivered]
      exact inert_snoc inert mute
  · have empty : k.todo = [] := by cases replanning <;> assumption
    rw [Kernel.runNext, empty] at hn
    cases hn

/-- Once the completed step has been dealt with, the case is back in the call. -/
theorem Kernel.Replanning.ended (replanning : k.Replanning)
    (run : Reach (Kernel.step host) Kernel.finishing k k') (idle : k'.idle = true) :
    k'.board.pub.status = .inCall := by
  have done : k'.Replanning := run.invariant (I := Kernel.Replanning) replanning
    fun _ replanning ok hs => replanning.step ok hs
  have quiet := Desk.quiet_iff.mp (idle_iff.mp idle).2
  cases done with
  | told e rest basis idle next =>
    rw [quiet.2] at next
    cases next
  | clearing cleared cause next =>
    rw [quiet.1] at next
    cases cleared <;> cases next
  | moved idle inert inCall => exact inCall

/-- The case is in `next` once `act`, and what it begins, is done. -/
def Kernel.Leaves (host : Host) (k : Kernel) (act : Kernel.Act) (next : CaseStatus) : Prop :=
  ∀ k₁ k', k.step host act = some k₁ → Reach (Kernel.step host) Kernel.finishing k₁ k' →
    k'.idle = true → k'.board.pub.status = next

theorem leaves_of_ends {act : Kernel.Act} {next : CaseStatus} (was : CaseStatus) (trigger : Trigger)
    (legal : nextStatus was trigger = some next)
    (ends : ∀ k₁, k.step host act = some k₁ → k₁.Ends was trigger) : k.Leaves host act next := by
  intro k₁ k' hs run idle
  have moved := (ends k₁ hs).ended (by rw [legal]; rfl) run idle
  exact Option.some.inj (moved.symm.trans legal)

/-- The timer of the pending card, due, ends the wait for it. -/
theorem expire_leaves (inv : CardInv k) {card : ApprovalCard} {s : Nat} (idle : k.idle = true)
    (awaits : k.board.pub.status = .awaitingApproval)
    (pending : k.board.priv.pendingApproval = some card) (timer : (s, card) ∈ k.desk.auth.timers) :
    k.Leaves host (.expire s) .needsReplan := by
  have quiet := Desk.quiet_iff.mp (idle_iff.mp idle).2
  refine leaves_of_ends .awaitingApproval .approvalExpired rfl fun k₁ h => ?_
  simp only [Kernel.step, idle, if_true, Kernel.expireCard, inv.find_timer timer, pending] at h
  split at h
  · cases h
  · cases h
    refine ⟨quiet.1, fun x hx => ?_, Or.inl ⟨awaits, [], rfl, by simp⟩⟩
    have hx : x ∈ k.desk.undelivered := hx
    rw [quiet.2] at hx
    cases hx

/-- A block that starts in a quiescent state with an event that no handler reacts to. -/
theorem ends_of_emits {k₀ : Kernel} {was : CaseStatus} {trigger : Trigger}
    (desk : k₀.desk = k.desk) (em : k₀.Emits causes p todo e k') (idle : k.idle = true)
    (status : k.board.pub.status = was) (inert : p.Inert) (still : p.movesStatus = false)
    (block : ∃ pre, todo = pre ++ [.move trigger] ∧
      ∀ t ∈ pre, ∃ actor p, t = .emit actor p ∧ p.Inert ∧ p.movesStatus = false) :
    k'.Ends was trigger := by
  have quiet := Desk.quiet_iff.mp (idle_iff.mp idle).2
  have applied : apply k.board e = .ok k'.board := by
    have := em.appended.applied
    rwa [desk] at this
  have same : k'.board.pub.status = k.board.pub.status :=
    status_of_apply applied (by rw [em.payload]; exact still)
  obtain ⟨pre, next, ok⟩ := block
  refine ⟨em.handler, ?_, Or.inl ⟨same.trans status, pre, em.todo_eq.trans next, ok⟩⟩
  rw [em.undelivered, desk, quiet.2]
  exact inert_snoc (by simp) (by rw [em.payload]; exact inert)

theorem post_leaves {t : Nat} {post : ApprovalPost} {by_ : Approver} {d : ApprovalDecided}
    (idle : k.idle = true) (awaits : k.board.pub.status = .awaitingApproval)
    (allowed : decide k.bb post by_ = .ok (.approvalDecided d)) :
    k.Leaves host (.post t causes post by_) .inCall := by
  refine leaves_of_ends .awaitingApproval .approvalDecided rfl fun k₁ h => ?_
  simp only [Kernel.step, idle, if_true, Kernel.decidePost, allowed] at h
  obtain ⟨e, em⟩ := Kernel.emits_of_emit h
  refine ends_of_emits rfl em idle awaits
    (inert_of_calm rfl) rfl
    ⟨[.emit .kernel (.approvalDecided d)], ?_, ?_⟩
  · cases decide_spec allowed with
    | approval card subject => simp [Kernel.afterDecision, subject]
  · intro t ht
    rw [List.mem_singleton.mp ht]
    exact ⟨_, _, rfl, inert_of_calm rfl, rfl⟩

theorem revoke_leaves {t i : Nat} {q : Waiting} {reason : String} (idle : k.idle = true)
    (authorized : k.board.pub.status = .commitAuthorized) (line : k.lines[i]? = some q)
    (accept : q.isAccept = true) (revoked : k.revalidated host q = .revoke reason) :
    k.Leaves host (.floor t i) .needsReplan := by
  refine leaves_of_ends .commitAuthorized .acceptRevoked rfl fun k₁ h => ?_
  simp only [Kernel.step, idle, if_true, Kernel.takeFloor, line] at h
  split at h
  · rename_i q' free same
    cases same
    simp only [revoked] at h
    obtain ⟨e, em⟩ := Kernel.emits_of_emit h
    have kind : q.kind = .accept := by simpa [Waiting.isAccept] using accept
    exact ends_of_emits rfl em idle authorized
      (inert_of_calm rfl) rfl
      ⟨[], by simp [kind], by simp⟩
  · cases h

/-- An accept line that was heard commits the case; one that was cut needs a replan. -/
theorem heard_leaves {t n : Nat} {q : Waiting} {said : String} (idle : k.idle = true)
    (authorized : k.board.pub.status = .commitAuthorized) (onFloor : k.floor = some (q, n))
    (accept : q.isAccept = true) :
    k.Leaves host (.heard t said) (if said = q.text then .committed else .needsReplan) := by
  have kind : q.kind = .accept := by simpa [Waiting.isAccept] using accept
  refine leaves_of_ends .commitAuthorized
    (if said = q.text then .acceptHeard else .acceptTruncated) (by split <;> rfl)
    fun k₁ h => ?_
  simp only [Kernel.step, idle, if_true, Kernel.hearLine, onFloor] at h
  split at h
  · obtain ⟨e, em⟩ := Kernel.emits_of_emit h
    refine ends_of_emits rfl em idle authorized
      (inert_of_calm rfl) rfl
      ⟨_, by rw [Kernel.afterDelivery, if_pos kind], fun task ht => ?_⟩
    split at ht
    · cases ht
    · rw [List.mem_singleton.mp ht]
      exact ⟨_, _, rfl, inert_of_calm rfl, rfl⟩
  · cases h

/-- A completed step whose basis reaches the replan brings the case back into the call. -/
theorem replan_leaves {t s basis : Nat} {actor : Actor} (idle : k.idle = true)
    (needs : k.board.pub.status = .needsReplan) (remembered : k.desk.auth.replan = some s)
    (covers : s ≤ basis) :
    k.Leaves host (.world t actor causes (.slowStepCompleted basis)) .inCall := by
  have quiet := Desk.quiet_iff.mp (idle_iff.mp idle).2
  have empty := (idle_iff.mp idle).1
  intro k₁ k' h run done
  refine Kernel.Replanning.ended ?_ run done
  simp only [Kernel.step] at h
  split at h
  · obtain ⟨e, em⟩ := Kernel.emits_of_emit h
    have same : k₁.board.pub.status = k.board.pub.status :=
      status_of_apply em.appended.applied (by rw [em.payload]; rfl)
    refine .told e [] basis em.handler ?_ em.payload ?_ (by simp) (same.trans needs)
      (em.todo_eq.trans empty)
    · rw [em.undelivered, quiet.2, List.nil_append]
    · rw [em.appended.auth, remembered]
      simpa using covers
  · cases h

/-! ### A stale card -/

/-- An event of the block is written. -/
theorem Kernel.Staling.wrote {card : ApprovalCard} (staling : k.Staling card)
    (applied : apply k.board e = .ok k'.board) (kind : e.payload.bumping = true)
    (status : k'.board.pub.status = .awaitingApproval ∨ k'.board.pub.status = .needsReplan)
    (todo : ∀ t ∈ k'.todo, t.bumping) (handler : ∀ r ∈ k'.desk.handler, r.bumping)
    (undelivered : k'.desk.undelivered = k.desk.undelivered ++ [e])
    (still : (∀ bump, e.payload ≠ .authorityEpoch bump) → k.ToBump → k'.ToBump) :
    k'.Staling card := by
  refine ⟨?_, status, ?_, todo, handler, fun x hx => ?_⟩
  · rcases pendingApproval_of_apply applied with ⟨same, -⟩ | ⟨card', asked, -⟩ | ⟨d, decided⟩
    · exact same.trans staling.pending
    · rw [asked] at kind
      cases kind
    · rw [decided] at kind
      cases kind
  · rcases epoch_of_apply applied with ⟨-, forward⟩ | ⟨other, same⟩
    · rcases staling.stale with stale | ⟨own, -⟩ <;> exact Or.inl (by omega)
    · rw [same]
      exact staling.stale.imp_right fun ⟨own, ahead⟩ => ⟨own, still other ahead⟩
  · rw [undelivered] at hx
    rcases List.mem_append.mp hx with hx | hx
    · exact staling.undelivered x hx
    · rw [List.mem_singleton.mp hx]
      exact kind

/-- Only a bump and a user's revocation are reacted to. -/
theorem bumping_onEvent (s : Session) (closed : Bool) (bb : Blackboard) (a : Authority)
    (kind : e.payload.bumping = true) :
    (∀ r ∈ (a.onEvent s closed bb e).2, r.bumping) ∧
      ∀ msg, e.payload = .f2sMsg msg → msg.type = .revoke →
        ∃ actor causes bump, .emit actor causes (.authorityEpoch bump) ∈ (a.onEvent s closed bb e).2 := by
  unfold Authority.onEvent
  cases hp : e.payload with
  | statusChanged c =>
    obtain ⟨was, status⟩ := c
    cases status <;> simp
  | f2sMsg msg =>
    by_cases revoke : msg.type = .revoke
    · simp [revoke, Reaction.bumping]
    · simp [revoke]
  | authorityEpoch bump =>
    dsimp only
    split <;> simp [Reaction.bumping]
  | slowTool | approvalPost | mandateDecided | mandateProposed | chanHold => simp
  | _ =>
    rw [hp] at kind
    cases kind

theorem Kernel.Staling.react {card : ApprovalCard} {t : Nat} {d : Desk} (staling : k.Staling card)
    (hd : k.desk.react t = some d) : ({ k with desk := d } : Kernel).Staling card := by
  unfold Desk.react at hd
  split at hd
  · cases hd
  · rename_i actor causes p rest next
    obtain ⟨head, tail⟩ := List.forall_mem_cons.mp (next ▸ staling.handler)
    obtain ⟨bump, rfl⟩ := head
    obtain ⟨appended, undelivered, handler⟩ := Desk.appended_of_emit hd
    have same : d.bus.bb.pub.status = k.board.pub.status := status_of_apply appended.applied rfl
    exact staling.wrote appended.applied rfl (same ▸ staling.status) staling.todo
      (by rw [handler]; exact tail) undelivered fun other _ => absurd rfl (other bump)
  · rename_i trigger cause rest next
    obtain ⟨rfl, tail⟩ := List.forall_mem_cons.mp (next ▸ staling.handler)
    have left : ∀ {actor causes bump}, .emit actor causes (.authorityEpoch bump) ∈ k.desk.handler →
        .emit actor causes (.authorityEpoch bump) ∈ rest := fun mem => by
      rw [next] at mem
      exact (List.mem_cons.mp mem).resolve_left nofun
    rcases Desk.move_eq_some hd with ⟨illegal, rfl⟩ | ⟨status, legal, emitted⟩
    · exact ⟨staling.pending, staling.status, staling.stale.imp_right fun ⟨own, ahead⟩ =>
        ⟨own, ahead.imp_right (Or.imp_right (Or.imp_right fun ⟨actor, causes, bump, mem⟩ =>
          ⟨actor, causes, bump, left mem⟩))⟩, staling.todo, tail, staling.undelivered⟩
    · obtain ⟨appended, undelivered, handler⟩ := Desk.appended_of_emit emitted
      have now := (status_of_changed appended.applied rfl).2.1
      have replans : status = .needsReplan := by
        rcases staling.status with awaits | needs
        · rw [show k.desk.bus.bb.pub.status = _ from awaits] at legal
          exact (Option.some.inj legal).symm
        · rw [show k.desk.bus.bb.pub.status = _ from needs] at legal
          cases legal
      refine staling.wrote appended.applied rfl (Or.inr (now.trans replans)) staling.todo
        (by rw [handler]; exact tail) undelivered fun _ ahead => ?_
      refine ahead.imp_right (Or.imp_right (Or.imp ?_ ?_))
      · rintro ⟨x, hx, msg⟩
        exact ⟨x, by rw [undelivered]; exact List.mem_append_left _ hx, msg⟩
      · rintro ⟨actor, causes, bump, mem⟩
        exact ⟨actor, causes, bump, by rw [handler]; exact left mem⟩

theorem Kernel.Staling.deliver {card : ApprovalCard} {d : Desk} (staling : k.Staling card)
    (hd : k.desk.deliver = some d) : ({ k with desk := d } : Kernel).Staling card := by
  unfold Desk.deliver at hd
  split at hd
  · rename_i e rest idle next
    cases hd
    obtain ⟨head, tail⟩ := List.forall_mem_cons.mp (next ▸ staling.undelivered)
    obtain ⟨mild, revokes⟩ := bumping_onEvent k.desk.session k.desk.closed k.desk.bus.bb
      k.desk.auth head
    refine ⟨staling.pending, staling.status, staling.stale.imp_right fun ⟨own, ahead⟩ => ⟨own, ?_⟩,
      staling.todo, mild, tail⟩
    refine ahead.imp_right (Or.imp_right ?_)
    rintro (⟨x, hx, msg, hp, type⟩ | ⟨actor, causes, bump, mem⟩)
    · rw [next] at hx
      rcases List.mem_cons.mp hx with rfl | hx
      · exact Or.inr (revokes msg hp type)
      · exact Or.inl ⟨x, hx, msg, hp, type⟩
    · rw [idle] at mem
      cases mem
  · cases hd

theorem Kernel.Staling.task {card : ApprovalCard} {t : Nat} (staling : k.Staling card)
    (hn : k.runNext t causes = some k') : k'.Staling card := by
  unfold Kernel.runNext at hn
  split at hn
  · cases hn
  · rename_i actor p rest next
    obtain ⟨⟨kind, still⟩, tail⟩ := List.forall_mem_cons.mp (next ▸ staling.todo)
    obtain ⟨e, em⟩ := Kernel.emits_of_emit hn
    have same : k'.board.pub.status = k.board.pub.status :=
      status_of_apply em.appended.applied (by rw [em.payload]; exact still)
    refine staling.wrote em.appended.applied (by rw [em.payload]; exact kind)
      (same ▸ staling.status) (by rw [em.todo_eq]; exact tail) (by simp [em.handler])
      em.undelivered fun other ahead => ?_
    rcases ahead with bump | ⟨actor', bump, mem⟩ | ⟨x, hx, msg⟩ | ⟨actor', causes', bump, mem⟩
    · rw [next] at bump
      exact Or.inl (by rw [em.todo_eq]; exact (List.mem_cons.mp bump).resolve_left nofun)
    · rw [next] at mem
      rcases List.mem_cons.mp mem with first | mem
      · cases first
        exact absurd em.payload (other bump)
      · exact Or.inr (Or.inl ⟨actor', bump, by rw [em.todo_eq]; exact mem⟩)
    · exact Or.inr (Or.inr (Or.inl ⟨x, by rw [em.undelivered]; exact List.mem_append_left _ hx,
        msg⟩))
    · rw [em.idle] at mem
      cases mem
  · rename_i rest next
    obtain ⟨-, tail⟩ := List.forall_mem_cons.mp (next ▸ staling.todo)
    obtain ⟨e, em⟩ := Kernel.emits_of_emit hn
    have same : k'.board.pub.status = k.board.pub.status :=
      status_of_apply em.appended.applied (by rw [em.payload]; rfl)
    exact staling.wrote em.appended.applied (by rw [em.payload]; rfl) (same ▸ staling.status)
      (by rw [em.todo_eq]; exact tail) (by simp [em.handler]) em.undelivered
      fun other _ => absurd em.payload (other _)
  · rename_i trigger rest next
    obtain ⟨rfl, tail⟩ := List.forall_mem_cons.mp (next ▸ staling.todo)
    have illegal : nextStatus k.board.pub.status .mandateGranted = none := by
      rcases staling.status with status | status <;> rw [status] <;> rfl
    rw [illegal] at hn
    cases hn
    refine ⟨staling.pending, staling.status, staling.stale.imp_right fun ⟨own, ahead⟩ => ⟨own, ?_⟩,
      tail, staling.handler, staling.undelivered⟩
    refine ahead.imp (fun bump => ?_) (Or.imp_left ?_)
    · rw [next] at bump
      exact (List.mem_cons.mp bump).resolve_left nofun
    · rintro ⟨actor, bump, mem⟩
      rw [next] at mem
      exact ⟨actor, bump, (List.mem_cons.mp mem).resolve_left nofun⟩

theorem Kernel.Staling.step {card : ApprovalCard} {a : Kernel.Act} (staling : k.Staling card)
    (ok : k.finishing a) (h : k.step host a = some k') : k'.Staling card := by
  rcases finishing_cases ok h with ⟨t, rfl⟩ | ⟨t, d, hd, rfl⟩ | ⟨d, hd, rfl⟩ |
    ⟨e, p, causes, hold, em⟩ | ⟨t, causes, quiet, hn⟩
  · exact ⟨staling.pending, staling.status, staling.stale, staling.todo, staling.handler,
      staling.undelivered⟩
  · exact staling.react hd
  · exact staling.deliver hd
  · have still := still_hold hold
    have same : k'.board.pub.status = k.board.pub.status :=
      status_of_apply em.appended.applied (by rw [em.payload]; exact still)
    refine staling.wrote em.appended.applied (by rw [em.payload]; cases p <;> first | rfl | cases hold)
      (same ▸ staling.status) (by rw [em.todo_eq]; exact staling.todo) (by simp [em.handler])
      em.undelivered fun _ ahead => ?_
    rcases ahead with bump | bump | ⟨x, hx, msg⟩ | ⟨actor, causes, bump, mem⟩
    · exact Or.inl (by rw [em.todo_eq]; exact bump)
    · exact Or.inr (Or.inl (by rw [em.todo_eq]; exact bump))
    · exact Or.inr (Or.inr (Or.inl ⟨x, by rw [em.undelivered]; exact List.mem_append_left _ hx, msg⟩))
    · rw [em.idle] at mem
      cases mem
  · exact staling.task hn

/-- Once the bump has been dealt with, the case needs a replan. -/
theorem Kernel.Staling.ended {card : ApprovalCard} {session : Session} {runId : String}
    (staling : k.Staling card)
    (reach : Reach (Kernel.step host) anyStep (Kernel.start session runId) k)
    (run : Reach (Kernel.step host) Kernel.finishing k k') (idle : k'.idle = true) :
    k'.board.pub.status = .needsReplan := by
  have done : k'.Staling card := run.invariant (I := fun k => k.Staling card) staling
    fun _ staling ok hs => staling.step ok hs
  obtain ⟨empty, quiet⟩ := idle_iff.mp idle
  obtain ⟨idle, none_⟩ := Desk.quiet_iff.mp quiet
  refine done.status.resolve_left fun awaits => ?_
  obtain ⟨card', pending, -, current⟩ :=
    ((CardInv.reach (reach.trans run.any)).waits awaits).resolve_left (by simp [Kernel.Resolving, empty])
  cases pending.symm.trans done.pending
  have own : card.authorityEpoch = k'.board.epoch := by
    rcases current with own | ⟨-, e, he, -⟩ | ⟨cause, hc⟩
    · exact own
    · rw [none_] at he
      cases he
    · rw [idle] at hc
      cases hc
  rcases done.stale with stale | ⟨-, ahead⟩
  · omega
  · simp [Kernel.ToBump, empty, idle, none_] at ahead

/-- A block that bumps the epoch starts in a quiescent state that awaits the decision of a card. -/
theorem staling_of_emits {k₀ : Kernel} {card : ApprovalCard} (desk : k₀.desk = k.desk)
    (em : k₀.Emits causes p todo e k') (idle : k.idle = true)
    (awaits : k.board.pub.status = .awaitingApproval)
    (pending : k.board.priv.pendingApproval = some card) (own : card.authorityEpoch = k.board.epoch)
    (kind : p.bumping = true) (still : p.movesStatus = false) (mild : ∀ t ∈ todo, t.bumping)
    (ahead : .bump ∈ todo ∨ (∃ actor bump, .emit actor (.authorityEpoch bump) ∈ todo) ∨
      ∃ msg, p = .f2sMsg msg ∧ msg.type = .revoke) : k'.Staling card := by
  have quiet := Desk.quiet_iff.mp (idle_iff.mp idle).2
  have applied : apply k.board e = .ok k'.board := by
    have := em.appended.applied
    rwa [desk] at this
  have undelivered : k'.desk.undelivered = [e] := by rw [em.undelivered, desk, quiet.2]; rfl
  have same : k'.board.pub.status = k.board.pub.status :=
    status_of_apply applied (by rw [em.payload]; exact still)
  refine ⟨?_, Or.inl (same.trans awaits), ?_, by rw [em.todo_eq]; exact mild, by simp [em.handler],
    by simp [undelivered, em.payload, kind]⟩
  · rcases pendingApproval_of_apply applied with ⟨same, -⟩ | ⟨card', asked, -⟩ | ⟨d, decided⟩
    · exact same.trans pending
    · rw [← em.payload, asked] at kind
      cases kind
    · rw [← em.payload, decided] at kind
      cases kind
  · rcases epoch_of_apply applied with ⟨-, forward⟩ | ⟨-, same⟩
    · exact Or.inl (by omega)
    · refine Or.inr ⟨own.trans same.symm, ?_⟩
      rw [Kernel.ToBump, em.todo_eq, undelivered]
      rcases ahead with bump | bump | ⟨msg, rfl, type⟩
      · exact Or.inl bump
      · exact Or.inr (Or.inl bump)
      · exact Or.inr (Or.inr (Or.inl ⟨e, List.mem_singleton_self e, msg, em.payload, type⟩))

end leaves

end ProxyLoop

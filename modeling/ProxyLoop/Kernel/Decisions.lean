import ProxyLoop.Kernel.Endings
import ProxyLoop.Kernel.Grants
import ProxyLoop.Kernel.Mandates

/-!
# The approvals queue

`Authority.decide` asks Guard at one instant and writes at later ones: the post, its decision and
what follows are each stamped and folded anew.
-/

namespace ProxyLoop

open Lib (Dict Reach anyStep)

/-! ## What a decision cites -/

section causes

variable {log before after : List Event} {e d : Event}

theorem find_seq (stamped : Stamped log) (split : log = before ++ e :: after) :
    log.find? (·.seq = e.seq) = some e := by
  refine List.find?_eq_some_iff_append.mpr ⟨by simp, before, after, split, fun x hx => ?_⟩
  obtain ⟨pre, post, rfl⟩ := List.append_of_mem hx
  have at_e := (stamped _ e after split).1
  have at_x := (stamped pre x (post ++ e :: after) (by rw [split]; simp)).1
  simp only [List.length_append, List.length_cons] at at_e
  simp only [Bool.not_eq_eq_eq_not, Bool.not_true, decide_eq_false_iff_not]
  omega

theorem citedPosts_before (stamped : Stamped log) (split : log = before ++ e :: after) :
    citedPosts log e = citedPosts before e := by
  obtain ⟨seq, causes, -⟩ := stamped before e after split
  unfold citedPosts
  refine List.filterMap_congr fun c hc => ?_
  have lt : c < before.length := by
    have := causes c hc
    omega
  have here : before[c]? = some before[c] := List.getElem?_eq_getElem lt
  have split' := split_at here
  have own : before[c].seq = c := by
    have := (stamped _ before[c] (before.drop (c + 1) ++ e :: after) (by
      rw [split, ← List.cons_append, ← List.append_assoc, ← split'])).1
    rw [this, List.length_take]
    omega
  have stamped' : Stamped before := fun x y z h => stamped x y (z ++ e :: after) (by
    rw [split, h]
    simp)
  have found := find_seq stamped' split'
  rw [own] at found
  rw [split, List.find?_append, found]
  rfl

/-- A decision of a run decides the card or the mandate its post names. -/
theorem decided_of_subject (stamped : Stamped log) (mem : d ∈ log) (decision : d.isDecision = true)
    {subject : PostSubject} {id hash : String} (h : decidedSubject log d = some (subject, id, hash)) :
    subject = .approval ∧ (∃ x, d.payload = .approvalDecided x ∧ x.approvalId = id) ∨
      subject = .mandate ∧ ∃ x, d.payload = .mandateDecided x ∧ x.mandateId = id := by
  obtain ⟨before, after, split⟩ := List.append_of_mem mem
  obtain ⟨-, -, -, checked, -⟩ := stamped before d after split
  have checked := checked decision
  unfold decidedSubject at h
  rw [citedPosts_before stamped split] at h
  unfold checkCauses at checked
  split at h
  · rename_i p cited
    cases h
    rw [cited] at checked
    simp only [Bool.and_eq_true] at checked
    have decided := checked.1
    unfold decides at decided
    split at decided
    · rename_i x q hd hp
      cases hp
      simp only [Bool.and_eq_true, decide_eq_true_eq] at decided
      exact Or.inl ⟨decided.1.1.1, x, hd, decided.1.1.2.symm⟩
    · rename_i x q hd hp
      cases hp
      simp only [Bool.and_eq_true, decide_eq_true_eq] at decided
      exact Or.inr ⟨decided.1.1.1.1, x, hd, decided.1.1.1.2.symm⟩
    · cases decided
  · cases h

theorem decided_recorded {bb : Blackboard} (h : fold log = .ok bb) (mem : d ∈ log)
    {x : ApprovalDecided} (hp : d.payload = .approvalDecided x) :
    bb.priv.approvals.has x.approvalId = true := by
  obtain ⟨before, after, rfl⟩ := List.append_of_mem mem
  obtain ⟨b, b', hb, ha, rest⟩ := fold_at h
  refine fold_invariant (I := fun c => c.priv.approvals.has x.approvalId = true) rest ?_ ?_
  · rcases approvals_of_apply ha with same | ⟨y, card, hp', -, -, -, set⟩
    · obtain ⟨b₁, hc, rfl⟩ := change_of_apply ha
      cases hc with
      | decided y card hp' =>
        rw [hp] at hp'
        cases hp'
        simp [stamp, Dict.has]
      | quiet hq => rw [hp] at hq; cases hq
      | _ => simp_all
    · rw [hp] at hp'
      cases hp'
      simp [set, Dict.has]
  · intro c e c' hI hc
    rcases approvals_of_apply hc with same | ⟨y, card, -, -, -, -, set⟩
    · rw [same]; exact hI
    · simp only [set, Dict.has, Dict.get?_set] at hI ⊢
      split
      · rfl
      · exact hI

end causes

/-! ## `decide`, from the queue to its end -/

namespace Kernel

/-- The causes of the first event of `decide`: a refusal cites the card or the proposal, a post of
the sim approver too; a post of the UI is exogenous. -/
def firstCauses (k : Kernel) (post : ApprovalPost) (by_ : Approver) : List Nat :=
  match decide k.bb post by_ with
  | .error _ => [(k.desk.auth.asked.get? post.subjectId).getD k.desk.auth.root]
  | .ok _ => if by_ = .simApprover then (k.desk.auth.asked.get? post.subjectId).toList else []

/-- The causes of the later events: the decision cites the post at `first`, the rest the
decision. -/
def laterCauses (first n : Nat) : List Nat := if n = first + 1 then [first] else [first + 1]

/-- `Authority.decide`, to its end. -/
def decides (host : Host) (clock : Nat → Nat) (k : Kernel) (post : ApprovalPost) (by_ : Approver)
    (fuel : Nat) : Option Kernel :=
  (k.step host (.post (clock k.log.length) (k.firstCauses post by_) post by_)).bind
    (finish host clock (laterCauses k.log.length) fuel)

end Kernel

/-- `decide` has ended, and wrote one refusal, or one post with its decision and what follows it. -/
def Kernel.DecidedAs (k : Kernel) (post : ApprovalPost) (by_ : Approver) (k' : Kernel) : Prop :=
  k'.idle = true ∧ ∃ written, k'.log = k.log ++ written ∧
    ((∃ e reason, written = [e] ∧ e.payload = .actionDenied "approval.post" reason) ∨
      ∃ posted decided rest, written = posted :: decided :: rest ∧
        posted.payload = .approvalPost post ∧ posted.actor = by_.actor ∧
        ((decided.payload = .approvalDecided ⟨post.subjectId, post.decision, by_⟩ ∧
            ∀ x ∈ rest, ∃ c, x.payload = .statusChanged c) ∨
          decided.payload = .mandateDecided ⟨post.subjectId, post.subjectHash, post.decision, by_⟩ ∧
            ∃ bump moves, rest = bump :: moves ∧
              bump.payload = .authorityEpoch (.next k.board.epoch .mandateDecided) ∧
              ∀ x ∈ moves, ∃ c, x.payload = .statusChanged c))

/-- A card that Guard decides is still live as its decision is stamped, one event after the post. -/
def Kernel.InTime (k : Kernel) (clock : Nat → Nat) (post : ApprovalPost) (by_ : Approver) : Prop :=
  ∀ card x, k.board.priv.pendingApproval = some card →
    decide k.bb post by_ = .ok (.approvalDecided x) →
    (clock (k.log.length + 1) : Int) < card.expiresMs

section decides

variable {host : Host} {clock : Nat → Nat} {k : Kernel} {post : ApprovalPost} {by_ : Approver}

theorem firstCauses_lt (asked : AskedOk k) (started : k.log ≠ []) :
    ∀ c ∈ k.firstCauses post by_, c < k.log.length := by
  intro c hc
  unfold Kernel.firstCauses at hc
  split at hc
  · rw [List.mem_singleton] at hc
    subst hc
    cases ha : k.desk.auth.asked.get? post.subjectId with
    | none =>
      rw [Option.getD_none, asked.root]
      exact List.length_pos_iff.mpr started
    | some s => exact asked.asked ha
  · split at hc
    · exact asked.asked (Option.mem_toList.mp hc)
    · cases hc

theorem laterCauses_cites (first n : Nat) (lt : first < n) :
    Kernel.laterCauses first n ≠ [] ∧ ∀ c ∈ Kernel.laterCauses first n, c < n := by
  unfold Kernel.laterCauses
  split
  · simp [lt]
  · simp
    omega

theorem goesOn_put {tMs : Nat} {actor : Actor} {causes : List Nat} {p : Payload} {todo : List Task}
    {bb : Blackboard} (mono : Monotone clock) (now : tMs = clock k.log.length)
    (unended : ∀ reason, p ≠ .sessionEnded reason) :
    (k.put tMs actor causes p todo bb).GoesOn clock (Kernel.laterCauses k.log.length) :=
  Kernel.goesOn_of_wrote mono (laterCauses_cites _) rfl now unended

/-- A refusal is written. -/
theorem decides_denied (inv : KernelInv host k) (asked : AskedOk k) (mono : Monotone clock)
    (idle : k.idle = true) (started : k.log ≠ []) (going : k.desk.bus.ended = false)
    (later : k.desk.now ≤ clock k.log.length) {reason : String}
    (refused : decide k.bb post by_ = .error (.denied reason)) :
    ∃ fuel k', k.decides host clock post by_ fuel = some k' ∧ k.DecidedAs post by_ k' := by
  obtain ⟨empty, quiet⟩ := idle_iff.mp idle
  let p : Payload := .actionDenied "approval.post" reason
  let e := k.desk.bus.next (clock k.log.length) .kernel (k.firstCauses post by_) p
  have some_cause : k.firstCauses post by_ ≠ [] := by simp [Kernel.firstCauses, refused]
  have step : k.step host (.post (clock k.log.length) (k.firstCauses post by_) post by_) =
      some (k.put (clock k.log.length) .kernel (k.firstCauses post by_) p [] (stamp k.board e)) := by
    simp only [Kernel.step, idle, if_true, Kernel.decidePost, refused]
    exact Kernel.emit_eq (inv.inOrder later) quiet rfl going later
      (Bus.wellFormed_next ⟨some_cause, firstCauses_lt asked started⟩ rfl) rfl (fun h => by cases h)
  obtain ⟨k', leads, ran⟩ := leads_of_put (inv.step step).1
    (goesOn_put mono rfl (unended_of_plain (p := p) rfl)) quiet (inert_of_calm rfl) rfl
  have ended : k'.idle = true := idle_iff.mpr ⟨ran.todo_eq, ran.quiet⟩
  obtain ⟨fuel, hf⟩ := Kernel.finish_of_leads leads ended
  exact ⟨fuel, k', by rw [Kernel.decides, step]; exact hf, ended, [e], ran.log, Or.inl ⟨e, reason, rfl, rfl⟩⟩

theorem posted_of_decide {session : Session} {runId : String}
    (reach : Reach (Kernel.step host) anyStep (Kernel.start session runId) k)
    (inv : KernelInv host k) (asked : AskedOk k) (mono : Monotone clock)
    (idle : k.idle = true) (started : k.log ≠ []) (going : k.desk.bus.ended = false)
    (later : k.desk.now ≤ clock k.log.length) {d : Payload}
    (allowed : decide k.bb post by_ = .ok d) :
    ∃ k₁ k', k.step host (.post (clock k.log.length) (k.firstCauses post by_) post by_) = some k₁ ∧
      Kernel.Leads host clock (Kernel.laterCauses k.log.length) k₁ k' ∧
      Ran host clock k k'
        [k.desk.bus.next (clock k.log.length) by_.actor (k.firstCauses post by_) (.approvalPost post)]
        (.emit .kernel d :: Kernel.afterDecision post) ∧
      k'.GoesOn clock (Kernel.laterCauses k.log.length) ∧
      Reach (Kernel.step host) anyStep (Kernel.start session runId) k' ∧
      k'.board = stamp k.board (k.desk.bus.next (clock k.log.length) by_.actor
        (k.firstCauses post by_) (.approvalPost post)) := by
  obtain ⟨empty, quiet⟩ := idle_iff.mp idle
  let e := k.desk.bus.next (clock k.log.length) by_.actor (k.firstCauses post by_) (.approvalPost post)
  have ok : apply k.board e = .ok (stamp k.board e) := by
    refine apply_eq_ok.mpr ⟨_, ?_, rfl⟩
    simp only [reduce, e, Bus.next, posted, require_bind, pure_eq_ok, and_true]
    cases decide_spec allowed with
    | mandate m subject found undecided id hash own epoch =>
      have found : k.board.priv.mandate = some m := found
      have epoch : m.epoch = k.board.epoch := epoch
      simp [postSubject, subject, found, undecided, id, hash, own, epoch]
    | approval card subject pending fresh id current hash own epoch =>
      have pending : k.board.priv.pendingApproval = some card := pending
      have epoch : card.authorityEpoch = k.board.epoch := epoch
      simp [postSubject, subject, pending, id, hash, own, epoch]
  have wf : e.wellFormed = true := by
    simp only [Event.wellFormed, Bool.and_eq_true, List.all_eq_true, decide_eq_true_eq]
    refine ⟨⟨⟨rfl, firstCauses_lt asked started⟩, ?_⟩, ?_⟩ <;> cases by_ <;> rfl
  have step : k.step host (.post (clock k.log.length) (k.firstCauses post by_) post by_) =
      some (k.put (clock k.log.length) by_.actor (k.firstCauses post by_) (.approvalPost post)
        (.emit .kernel d :: Kernel.afterDecision post) (stamp k.board e)) := by
    simp only [Kernel.step, idle, if_true, Kernel.decidePost, allowed]
    exact Kernel.emit_eq (inv.inOrder later) quiet rfl going later wf ok (fun h => by cases h)
  obtain ⟨k', leads, ran⟩ := leads_of_put (inv.step step).1
    (goesOn_put mono rfl (unended_of_plain (p := .approvalPost post) rfl)) quiet (inert_of_calm rfl) ok
  refine ⟨_, k', step, leads, ran, ?_, (Reach.next _ reach trivial step).trans leads.reach.any, ?_⟩
  · exact ⟨ran.going, mono, ran.later, fun n le => laterCauses_cites _ _ (by
      rw [ran.log, List.length_append, List.length_singleton] at le
      omega)⟩
  obtain ⟨b, hb, done⟩ := fold_cons.mp ran.board
  rw [ok] at hb
  cases hb
  exact (Except.ok.inj done).symm

/-- The decision cites the one post it decides, and decides it first. -/
theorem checked_decision {log : List Event} {posted e : Event} {bb : Blackboard}
    (stamped : Stamped (log ++ [posted])) (h : fold (log ++ [posted]) = .ok bb)
    (distinct : (proposedIds (log ++ [posted])).Nodup) {d : Payload}
    (allowed : DecideOk bb post by_ d) (hp : posted.payload = .approvalPost post)
    (ha : posted.actor = by_.actor) (he : e.payload = d) (cites : e.causes = [log.length]) :
    checkCauses (log ++ [posted]) e = true := by
  have seq : posted.seq = log.length := (stamped log posted [] rfl).1
  have cited : citedPosts (log ++ [posted]) e = [posted] := by
    have found := find_seq stamped (rfl : log ++ [posted] = log ++ posted :: [])
    rw [seq] at found
    unfold citedPosts
    rw [cites, List.filterMap_cons, found]
    simp [Option.filter, Event.isPost, hp]
  have subject : decidedSubject (log ++ [posted]) e =
      some (post.subject, post.subjectId, post.subjectHash) := by
    unfold decidedSubject
    rw [cited]
    obtain ⟨_, _, _, _, _, _, payload⟩ := posted
    cases hp
    rfl
  have decided : decides e posted = true := by
    unfold decides
    rw [he, hp]
    cases allowed with
    | mandate m subject found undecided id hash => simp [subject, id, hash, ha]
    | approval card subject pending fresh id => simp [subject, id, ha]
  unfold checkCauses
  rw [cited]
  simp only [decided, Bool.true_and, List.all_eq_true, List.mem_filter, decide_eq_true_eq, ne_eq,
    and_imp]
  intro x hx decision same
  rw [subject] at same
  rcases decided_of_subject stamped hx decision same with ⟨sub, y, hy, id⟩ | ⟨sub, y, hy, id⟩
  · cases allowed with
    | mandate m subject => rw [subject] at sub; cases sub
    | approval card subject pending fresh =>
      rw [← id, decided_recorded h hx hy] at fresh
      cases fresh
  · cases allowed with
    | mandate m subject found undecided own =>
      exact (recorded_of_fold h distinct).undecided found undecided x hx y hy (id.trans own.symm)
    | approval card subject => rw [subject] at sub; cases sub

theorem DecideOk.posted {bb : Blackboard} {e : Event} {d : Payload} (h : DecideOk bb post by_ d)
    {b : Blackboard} (same : SameAuthority bb b) (time : b.tMs = e.tMs)
    (live : ∀ card, bb.priv.pendingApproval = some card → post.subject = .approval →
      (e.tMs : Int) < card.expiresMs) : DecideOk b post by_ d := by
  cases h with
  | mandate m subject found undecided id hash own epoch =>
    exact .mandate m subject (same.mandate.trans found) undecided id hash own
      (epoch.trans same.epoch.symm)
  | approval card subject pending fresh id current hash own epoch =>
    refine .approval card subject (same.pendingApproval.trans pending) ?_ id ?_ hash own
      (epoch.trans same.epoch.symm) ?_
    · rw [same.approvals]; exact fresh
    · rw [same.offers]; exact current
    · rw [time]; exact live card pending subject

/-- The decision of a card: accepted as long as the card is live as it is stamped. -/
theorem apply_approvalDecided {bb : Blackboard} {card : ApprovalCard} {e : Event}
    (pending : bb.priv.pendingApproval = some card) (id : card.approvalId = post.subjectId)
    (current : isCurrent card (bb.pub.offers.get? card.offerRef) = true)
    (epoch : card.authorityEpoch = bb.epoch)
    (hp : e.payload = .approvalDecided ⟨card.approvalId, post.decision, by_⟩) :
    (∃ b, apply bb e = .ok b) ↔ (e.tMs : Int) < card.expiresMs := by
  constructor
  · rintro ⟨b, h⟩
    obtain ⟨b₁, hc, -⟩ := change_of_apply h
    cases hc with
    | decided d card' hp' pending' _ _ _ live =>
      rw [pending] at pending'
      cases pending'
      exact live
    | quiet hq => rw [hp] at hq; cases hq
    | _ => simp_all
  · intro live
    have reduced : reduce bb e = .ok { bb with priv := { bb.priv with
        pendingApproval := none
        approvals := bb.priv.approvals.set card.approvalId
          (approvalOf card ⟨card.approvalId, post.decision, by_⟩) } } := by
      simp only [reduce, hp, approvalDecided, fetch_bind, require_bind, pure_eq_ok]
      exact ⟨card, pending, rfl, ⟨current, epoch, live⟩, rfl⟩
    exact ⟨_, apply_eq_ok.mpr ⟨_, reduced, rfl⟩⟩

theorem apply_mandateDecided {bb : Blackboard} {m : Mandate} {e : Event}
    (found : bb.priv.mandate = some m) (undecided : m.status = .proposed) (epoch : m.epoch = bb.epoch)
    (hp : e.payload = .mandateDecided ⟨m.mandateId, m.mandateHash, post.decision, by_⟩) :
    ∃ b, apply bb e = .ok b := by
  have reduced : reduce bb e = .ok (withMandate bb (m.decide post.decision by_)) := by
    simp only [reduce, hp, mandateDecided, fetch_bind, require_bind, pure_eq_ok]
    exact ⟨m, found, ⟨rfl, rfl, undecided, epoch⟩, rfl⟩
  exact ⟨_, apply_eq_ok.mpr ⟨_, reduced, rfl⟩⟩

theorem leads_of_decision {session : Session} {runId : String} {k' : Kernel} {posted : Event}
    {d : Payload} {todo : List Task} {cited : Nat → List Nat}
    (reach : Reach (Kernel.step host) anyStep (Kernel.start session runId) k')
    (on : k'.GoesOn clock cited) (ran : Ran host clock k k' [posted] (.emit .kernel d :: todo))
    (allowed : DecideOk k'.board post by_ d) (hp : posted.payload = .approvalPost post)
    (ha : posted.actor = by_.actor) (cites : cited k'.log.length = [k.log.length])
    {b : Blackboard}
    (ok : apply k'.board (k'.desk.bus.next (clock k'.log.length) .kernel (cited k'.log.length) d) =
      .ok b) :
    ∃ k'' e, Kernel.Leads host clock cited k' k'' ∧ Ran host clock k' k'' [e] todo ∧
      e.payload = d := by
  let e := k'.desk.bus.next (clock k'.log.length) .kernel (cited k'.log.length) d
  have kind : (∃ x, d = .approvalDecided x) ∨ ∃ x, d = .mandateDecided x := by
    cases allowed with
    | mandate => exact Or.inr ⟨_, rfl⟩
    | approval => exact Or.inl ⟨_, rfl⟩
  have checked : checkCauses k'.log e = true := by
    have stamped := stamped_reach reach
    have folded := fold_reach reach
    have distinct := (MandateIds.reach reach).distinct.sublist (List.sublist_append_left ..)
    rw [ran.log] at stamped folded distinct ⊢
    exact checked_decision stamped folded distinct allowed hp ha rfl cites
  have wf : e.wellFormed = true := by
    have before : k.log.length < k'.log.length := by rw [ran.log]; simp
    rcases kind with ⟨x, rfl⟩ | ⟨x, rfl⟩ <;>
    · simp only [Event.wellFormed, Bool.and_eq_true, List.all_eq_true, decide_eq_true_eq]
      exact ⟨⟨⟨by simp [e, Bus.next, cites], by simpa [e, Bus.next, cites] using before⟩, rfl⟩, rfl⟩
  have unended : ∀ reason, d ≠ .sessionEnded reason := by
    rcases kind with ⟨x, rfl⟩ | ⟨x, rfl⟩ <;> simp
  have outer : k'.desk.outer d = true := by rcases kind with ⟨x, rfl⟩ | ⟨x, rfl⟩ <;> rfl
  have calm : d.reacts = false := by rcases kind with ⟨x, rfl⟩ | ⟨x, rfl⟩ <;> rfl
  have runs : k'.runNext (clock k'.log.length) (cited k'.log.length) =
      some (k'.put (clock k'.log.length) .kernel (cited k'.log.length) d todo b) := by
    simp only [Kernel.runNext, ran.todo_eq]
    exact Kernel.emit_eq (ran.inv.inOrder ran.later) ran.quiet outer ran.going ran.later wf ok fun _ => checked
  obtain ⟨first, inv₁, on₁⟩ := leads_of_task ran.inv on ran.quiet ran.todo_eq runs unended
  obtain ⟨k'', leads, ran'⟩ := leads_of_put inv₁ on₁ ran.quiet (inert_of_calm calm) ok
  exact ⟨k'', e, first.trans leads, ran', rfl⟩

/-- A decision that is accepted is written, with what follows it, and `decide` ends. -/
theorem decides_decided {session : Session} {runId : String} {k₁ k' : Kernel} {posted : Event}
    {d : Payload} {b : Blackboard} (on : k'.GoesOn clock (Kernel.laterCauses k.log.length))
    (step : k.step host (.post (clock k.log.length) (k.firstCauses post by_) post by_) = some k₁)
    (leads : Kernel.Leads host clock (Kernel.laterCauses k.log.length) k₁ k')
    (ran : Ran host clock k k' [posted] (.emit .kernel d :: Kernel.afterDecision post))
    (reach : Reach (Kernel.step host) anyStep (Kernel.start session runId) k')
    (allowed : DecideOk k'.board post by_ d) (hp : posted.payload = .approvalPost post)
    (ha : posted.actor = by_.actor) (same : k'.board.epoch = k.board.epoch)
    (ok : apply k'.board (k'.desk.bus.next (clock k'.log.length) .kernel
      (Kernel.laterCauses k.log.length k'.log.length) d) = .ok b) :
    ∃ fuel k₂, k.decides host clock post by_ fuel = some k₂ ∧ k.DecidedAs post by_ k₂ := by
  have here : k'.log.length = k.log.length + 1 := by rw [ran.log]; simp
  obtain ⟨k₂, e, leads₂, ran₂, he⟩ : ∃ k₂ e,
      Kernel.Leads host clock (Kernel.laterCauses k.log.length) k' k₂ ∧
      Ran host clock k' k₂ [e] (Kernel.afterDecision post) ∧ e.payload = d :=
    leads_of_decision reach on ran allowed hp ha (by simp [Kernel.laterCauses, here]) ok
  have there : k₂.log.length = k.log.length + 2 := by rw [ran₂.log, List.length_append, here]; simp
  have ends : ∀ {k₃ : Kernel} {written : List Event},
      Kernel.Leads host clock (Kernel.laterCauses k.log.length) k₂ k₃ →
      Ran host clock k₂ k₃ written [] → ∃ fuel, k.decides host clock post by_ fuel = some k₃ ∧
        k₃.idle = true ∧ k₃.log = k.log ++ posted :: e :: written := by
    intro k₃ written leads₃ ran₃
    have ended : k₃.idle = true := idle_iff.mpr ⟨ran₃.todo_eq, ran₃.quiet⟩
    obtain ⟨fuel, hf⟩ := Kernel.finish_of_leads ((leads.trans leads₂).trans leads₃) ended
    refine ⟨fuel, by rw [Kernel.decides, step]; exact hf, ended, ?_⟩
    rw [ran₃.log, ran₂.log, ran.log]
    simp
  have on₂ := ran₂.goesOn on
  cases allowed with
  | approval card subject pending fresh id =>
    have todo : k₂.todo = [.move .approvalDecided] := by
      rw [ran₂.todo_eq, Kernel.afterDecision, subject]
    obtain ⟨k₃, written, leads₃, ran₃, moved⟩ :=
      leads_of_move ran₂.inv on₂ ran₂.quiet todo (unverified (by decide))
    obtain ⟨fuel, hf, ended, log⟩ := ends leads₃ ran₃
    exact ⟨fuel, k₃, hf, ended, _, log, Or.inr ⟨posted, e, written, rfl, hp, ha,
      Or.inl ⟨by rw [he, id], moved⟩⟩⟩
  | mandate m subject found undecided id hash =>
    have todo : k₂.todo = .bump :: if post.decision = .granted then [.move .mandateGranted] else [] := by
      rw [ran₂.todo_eq, Kernel.afterDecision, subject]
    obtain ⟨k₃, bump, stale, leads₃, ran₃, hb, moved₃, -⟩ := leads_of_bump .kernel
      .mandateDecided ran₂.inv on₂ ran₂.quiet todo rfl (by simp only [Kernel.runNext, todo])
    obtain ⟨k₄, written, leads₄, ran₄, moved⟩ : ∃ k₄ written,
        Kernel.Leads host clock (Kernel.laterCauses k.log.length) k₃ k₄ ∧
        Ran host clock k₃ k₄ written [] ∧ ∀ x ∈ written, ∃ c, x.payload = .statusChanged c := by
      have next := ran₃.todo_eq
      split at next
      · exact leads_of_move ran₃.inv (ran₃.goesOn on₂) ran₃.quiet next (unverified (by decide))
      · exact ⟨k₃, [], .refl, ⟨ran₃.inv, ran₃.quiet, ran₃.going, ran₃.later,
          (List.append_nil _).symm, rfl, next⟩, by simp⟩
    obtain ⟨fuel, hf, ended, log⟩ := ends (leads₃.trans leads₄) (ran₃.trans ran₄)
    have still : k₂.board.epoch = k.board.epoch := by
      obtain ⟨b₂, hb₂, done⟩ := fold_cons.mp ran₂.board
      have now : b₂ = k₂.board := Except.ok.inj done
      rw [← now, ← same]
      rcases epoch_of_apply hb₂ with ⟨⟨bump, hbump⟩, -⟩ | ⟨-, kept⟩
      · rw [he] at hbump
        cases hbump
      · exact kept
    refine ⟨fuel, k₄, hf, ended, _, log, Or.inr ⟨posted, e, _, rfl, hp, ha, Or.inr ⟨?_, bump,
      stale ++ written, rfl, ?_, ?_⟩⟩⟩
    · rw [he, id, hash]
    · rw [hb]
      simp only [still]
    · intro x hx
      rcases List.mem_append.mp hx with hx | hx
      · exact moved₃ x hx
      · exact moved x hx

theorem accepted_iff {k' : Kernel} {card : ApprovalCard} {x : ApprovalDecided}
    (pending : k.board.priv.pendingApproval = some card)
    (allowed : decide k.bb post by_ = .ok (.approvalDecided x))
    (ran : Ran host clock k k'
      [k.desk.bus.next (clock k.log.length) by_.actor (k.firstCauses post by_) (.approvalPost post)]
      (.emit .kernel (.approvalDecided x) :: Kernel.afterDecision post))
    (board : k'.board = stamp k.board (k.desk.bus.next (clock k.log.length) by_.actor
      (k.firstCauses post by_) (.approvalPost post))) :
    (∃ b, apply k'.board (k'.desk.bus.next (clock k'.log.length) .kernel
      (Kernel.laterCauses k.log.length k'.log.length) (.approvalDecided x)) = .ok b) ↔
      (clock (k.log.length + 1) : Int) < card.expiresMs := by
  have same : SameAuthority k.bb k'.board := by rw [board]; constructor <;> rfl
  have here : k'.log.length = k.log.length + 1 := by rw [ran.log]; simp
  have stamp_eq : (k'.desk.bus.next (clock k'.log.length) .kernel
      (Kernel.laterCauses k.log.length k'.log.length) (.approvalDecided x)).tMs =
        clock (k.log.length + 1) := by
    show clock k'.log.length = _
    rw [here]
  rw [← stamp_eq]
  have spec := decide_spec allowed
  generalize hd : Payload.approvalDecided x = d at spec
  cases spec with
  | mandate => cases hd
  | approval card' subject pending' fresh id current hash own now =>
    cases hd
    cases pending.symm.trans pending'
    exact apply_approvalDecided (same.pendingApproval.trans pending) id
      (by rw [same.offers]; exact current) (now.trans same.epoch.symm) rfl

/-- A decision stamped once its card has expired is rejected, after its post was written. -/
theorem decides_late {session : Session} {runId : String} {card : ApprovalCard} {x : ApprovalDecided}
    (reach : Reach (Kernel.step host) anyStep (Kernel.start session runId) k)
    (mono : Monotone clock) (idle : k.idle = true) (started : k.log ≠ [])
    (going : k.desk.bus.ended = false) (later : k.desk.now ≤ clock k.log.length)
    (pending : k.board.priv.pendingApproval = some card)
    (allowed : decide k.bb post by_ = .ok (.approvalDecided x))
    (late : card.expiresMs ≤ (clock (k.log.length + 1) : Int)) (fuel : Nat) :
    k.decides host clock post by_ fuel = none := by
  obtain ⟨k₁, k', step, leads, ran, -, -, board⟩ := posted_of_decide reach (KernelInv.reach reach)
    (AskedOk.reach reach) mono idle started going later allowed
  have accepted := accepted_iff pending allowed ran board
  have stuck : k'.advance host clock (Kernel.laterCauses k.log.length) = none := by
    rw [advance_next ran.quiet]
    simp only [Kernel.runNext, ran.todo_eq]
    refine Kernel.emit_none fun b ok => ?_
    have := accepted.mp ⟨b, ok⟩
    omega
  rw [Kernel.decides, step]
  exact Kernel.finish_stuck leads (busy_of_todo ran.todo_eq) stuck fuel

/-- A decision that Guard allows, and that is in time, is written. -/
theorem decides_allowed {session : Session} {runId : String} {d : Payload}
    (reach : Reach (Kernel.step host) anyStep (Kernel.start session runId) k)
    (mono : Monotone clock) (idle : k.idle = true) (started : k.log ≠ [])
    (going : k.desk.bus.ended = false) (later : k.desk.now ≤ clock k.log.length)
    (allowed : decide k.bb post by_ = .ok d) (inTime : k.InTime clock post by_) :
    ∃ fuel k', k.decides host clock post by_ fuel = some k' ∧ k.DecidedAs post by_ k' := by
  obtain ⟨k₁, k', step, leads, ran, on, reach', board⟩ := posted_of_decide reach
    (KernelInv.reach reach) (AskedOk.reach reach) mono idle started going later allowed
  let posted := k.desk.bus.next (clock k.log.length) by_.actor (k.firstCauses post by_)
    (.approvalPost post)
  have same : SameAuthority k.bb k'.board := by rw [board]; constructor <;> rfl
  have epoch : k'.board.epoch = k.board.epoch := by rw [board]; rfl
  have time : k'.board.tMs = posted.tMs := by rw [board]; rfl
  have spec := decide_spec allowed
  cases spec with
  | mandate m subject found undecided id hash own now =>
    have allowed' := (decide_spec allowed).posted same time fun card _ h => by
      rw [subject] at h
      cases h
    obtain ⟨b, ok⟩ := apply_mandateDecided (same.mandate.trans found) undecided
      (now.trans same.epoch.symm) (rfl : (k'.desk.bus.next (clock k'.log.length) .kernel
        (Kernel.laterCauses k.log.length k'.log.length)
        (.mandateDecided ⟨m.mandateId, m.mandateHash, post.decision, by_⟩)).payload = _)
    exact decides_decided on step leads ran reach' allowed' rfl rfl epoch ok
  | approval card subject pending =>
    have live := inTime card _ pending allowed
    have allowed' := (decide_spec allowed).posted same time fun card' pending' _ => by
      cases pending.symm.trans pending'
      refine lt_of_le_of_lt ?_ live
      exact_mod_cast mono (Nat.le_succ _)
    obtain ⟨b, ok⟩ := (accepted_iff pending allowed ran board).mpr live
    exact decides_decided on step leads ran reach' allowed' rfl rfl epoch ok

end decides

/-- `decide` ends, having written a refusal, or the post with its decision and what follows it, if
and only if a card that Guard decides is still live as its decision is stamped. -/
theorem decide_ends (host : Host) (session : Session) (runId : String) (k : Kernel)
    (reach : Reach (Kernel.step host) anyStep (Kernel.start session runId) k)
    (idle : k.idle = true) (started : k.log ≠ []) (going : k.desk.bus.ended = false)
    (post : ApprovalPost) (by_ : Approver) (clock : Nat → Nat) (mono : Monotone clock)
    (later : k.desk.now ≤ clock k.log.length) :
    (∃ fuel k', k.decides host clock post by_ fuel = some k' ∧ k.DecidedAs post by_ k') ↔
      k.InTime clock post by_ := by
  rcases decide_total k.bb post by_ with ⟨d, allowed⟩ | ⟨reason, refused⟩
  · refine ⟨?_, decides_allowed reach mono idle started going later allowed⟩
    rintro ⟨fuel, k₂, ended, -⟩ card x pending decided
    by_contra late
    rw [decides_late reach mono idle started going later pending decided (by omega) fuel] at ended
    cases ended
  · refine ⟨fun _ card x _ allowed => ?_, fun _ => decides_denied (KernelInv.reach reach)
      (AskedOk.reach reach) mono idle started going later refused⟩
    rw [refused] at allowed
    cases allowed

/-! ## A run

A card is asked for at 0 and expires at 120000.  Granted in time it is decided; a grant that Guard
reads at 119999, and whose decision is stamped a millisecond later, leaves a post without one. -/

def askedCard : List Kernel.Act :=
  sampleCall ++ blockOf (.tool 0 [0] (.requestApproval "A" "m-1")) [0] 4

def cardPost : ApprovalPost :=
  { subject := .approval, subjectId := "apr-A-r1-e1-0", decision := .granted
    subjectHash := sampleTermsHash, authorityEpoch := 1 }

def cardRun (now : Nat) : Kernel :=
  Kernel.after (hostOf sampleDigests) sampleSession (askedCard ++ [.tick now])

theorem cardRun_reach (now : Nat) :
    Reach (Kernel.step (hostOf sampleDigests)) anyStep (Kernel.start sampleSession "run")
      (cardRun now) := Kernel.reach_after _ _

/-- The clock reads `early` up to event `n`, and `late` from then on. -/
def clockAt (n early late_ : Nat) (i : Nat) : Nat := if i ≤ n then early else late_

theorem clockAt_mono {n early late_ : Nat} (h : early ≤ late_) : Monotone (clockAt n early late_) := by
  intro i j hij
  unfold clockAt
  split <;> split <;> omega

/-- The board waits for the decision of a card that ends at 120000. -/
def awaitsDecision (k : Kernel) : Bool :=
  k.idle && !k.log.isEmpty && !k.desk.bus.ended && k.desk.now ≤ 119999 && k.log.length = 16 &&
    (k.board.priv.pendingApproval.map ApprovalCard.expiresMs) = some 120000 &&
    (match ProxyLoop.decide k.bb cardPost .ui with
      | .ok (.approvalDecided _) => true
      | _ => false)

theorem awaits_facts {k : Kernel} (h : awaitsDecision k = true) :
    k.idle = true ∧ k.log ≠ [] ∧ k.desk.bus.ended = false ∧ k.desk.now ≤ 119999 ∧
      k.log.length = 16 ∧ ∃ card x, k.board.priv.pendingApproval = some card ∧
        card.expiresMs = 120000 ∧ decide k.bb cardPost .ui = .ok (.approvalDecided x) := by
  simp only [awaitsDecision, Bool.and_eq_true, decide_eq_true_eq, Bool.not_eq_eq_eq_not,
    Bool.not_true, List.isEmpty_eq_false_iff] at h
  obtain ⟨⟨⟨⟨⟨⟨idle, started⟩, going⟩, now⟩, length⟩, pending⟩, allowed⟩ := h
  obtain ⟨card, hc, expires⟩ := Option.map_eq_some_iff.mp pending
  refine ⟨idle, started, going, now, length, card, ?_⟩
  split at allowed
  · rename_i x hx
    exact ⟨x, hc, expires, hx⟩
  · cases allowed

theorem cardRun_facts : awaitsDecision (cardRun 119999) = true := by decide +kernel

theorem decide_ends_sample :
    ∃ fuel k', (cardRun 119999).decides (hostOf sampleDigests) (clockAt 16 119999 119999) cardPost .ui
      fuel = some k' ∧ (cardRun 119999).DecidedAs cardPost .ui k' := by
  obtain ⟨idle, started, going, now, length, card, x, pending, expires, allowed⟩ :=
    awaits_facts cardRun_facts
  refine (decide_ends (hostOf sampleDigests) sampleSession "run" (cardRun 119999)
    (cardRun_reach 119999) idle started going cardPost .ui (clockAt 16 119999 119999)
    (clockAt_mono (Nat.le_refl _)) ?_).mpr ?_
  · rw [length]
    exact now
  · intro card' y pending' _
    cases pending.symm.trans pending'
    rw [expires, length]
    decide

/-- A grant that Guard reads a millisecond before the card's expiry, and whose decision is stamped
at it: the post is written, its decision is rejected, and `decide` does not end. -/
theorem decide_stuck :
    ∃ k clock, Reach (Kernel.step (hostOf sampleDigests)) anyStep (Kernel.start sampleSession "run") k ∧
      k.idle = true ∧ k.log ≠ [] ∧ k.desk.bus.ended = false ∧ Monotone clock ∧
      k.desk.now ≤ clock k.log.length ∧
      ¬ ∃ fuel k', k.decides (hostOf sampleDigests) clock cardPost .ui fuel = some k' ∧
        k.DecidedAs cardPost .ui k' := by
  obtain ⟨idle, started, going, now, length, card, x, pending, expires, allowed⟩ :=
    awaits_facts cardRun_facts
  have mono : Monotone (clockAt 16 119999 120000) := clockAt_mono (by omega)
  have later : (cardRun 119999).desk.now ≤ clockAt 16 119999 120000 (cardRun 119999).log.length := by
    rw [length]
    exact now
  refine ⟨cardRun 119999, clockAt 16 119999 120000, cardRun_reach 119999, idle, started, going, mono,
    later, ?_⟩
  rintro ⟨fuel, k', ended, -⟩
  rw [decides_late (cardRun_reach 119999) mono idle started going later pending allowed
    (by rw [expires, length]; decide) fuel] at ended
  cases ended

end ProxyLoop

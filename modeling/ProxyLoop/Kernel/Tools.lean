import ProxyLoop.Kernel.Session

/-!
# What a tool call emits

`Effect host bb p rest` says what a call evaluated on `bb` may emit first, and what it emits then.
No proof after this module unfolds a tool.
-/

namespace ProxyLoop

/-- A status change a tool makes with no verdict behind it. -/
def calmChange (c : StatusChanged) : Prop :=
  c.status ≠ .committed ∧ c.status ≠ .verifiedComplete ∧ c.status ≠ .verifiedNoDeal ∧
    c.previous ≠ .commitAuthorized

instance (c : StatusChanged) : Decidable (calmChange c) := by unfold calmChange; infer_instance

/-- A verified status rests on its verifier. -/
structure Judged (py : Runtime) (bb : Blackboard) (c : StatusChanged) : Prop where
  uncommitted : c.status ≠ .committed ∧ c.previous ≠ .commitAuthorized
  complete : c.status = .verifiedComplete → ∃ d, verifyCompletion py bb = .ok d ∧ d.verdict = .ok
  noDeal : c.status = .verifiedNoDeal →
    ∃ heard d, verifyNoDeal py bb heard = .ok d ∧ d.verdict = .ok

theorem Judged.of_calm {py : Runtime} {bb : Blackboard} {c : StatusChanged} (h : calmChange c) :
    Judged py bb c :=
  ⟨⟨h.1, h.2.2.2⟩, fun e => absurd e h.2.1, fun e => absurd e h.2.2.1⟩

theorem Judged.congr {py : Runtime} {bb b : Blackboard} {c : StatusChanged} (h : Judged py bb c)
    (same : SameRecord bb b) : Judged py b c where
  uncommitted := h.uncommitted
  complete e := by rw [verifyCompletion_congr same]; exact h.complete e
  noDeal e := by
    obtain ⟨heard, d, hd, ok⟩ := h.noDeal e
    exact ⟨heard, d, by rw [verifyNoDeal_congr same]; exact hd, ok⟩

/-- What a call may emit first, and then. -/
inductive Effect (host : Host) (bb : Blackboard) (events : List Event) :
    Payload → List Payload → Prop
  | refused (intent reason : String) : Effect host bb events (.actionDenied intent reason) []
  | card (ref : String) (card : ApprovalCard) (rest : List Payload)
      (ok : requestApproval host.py bb ref host.case_ = .ok card)
      (tail : ∀ p ∈ rest, p = .statusChanged ⟨.inCall, .awaitingApproval⟩ ∨ ∃ m, p = .s2fMsg m) :
      Effect host bb events (.approvalRequested card) rest
  | accept (ref : String) (cap : Capability) (text : String)
      (ok : acceptOffer host.py bb ref host.case_ = .ok (cap, text)) :
      Effect host bb events (.actionAuthorized ⟨.acceptOffer, cap⟩)
        [.speakVerbatim .cp .accept text (some cap.capId) none,
          .statusChanged ⟨.inCall, .commitAuthorized⟩]
  | decline (ref text : String) :
      Effect host bb events (.speakVerbatim .cp .decline text none (some ref)) []
  | propose (p : MandateProposal) : Effect host bb events (.mandateProposed p) []
  | tighten (bump : EpochBump) (p : MandateProposal) :
      Effect host bb events (.authorityEpoch bump) [.mandateProposed p]
  | revoke (bump : EpochBump) : Effect host bb events (.authorityEpoch bump) []
  | offer (ref : String) (revision : Nat) (slots : List ReadbackSlot) (expiresMs : Option Int) :
      Effect host bb events (.offerRecorded ref revision slots expiresMs) []
  | evidence (conf : String) (binding : LedgerBinding) (hash : Option String)
      (rest : List Payload) (bound : boundHash host.py bb binding = .ok hash)
      (tail : ∀ p ∈ rest, p = .statusChanged ⟨.committed, .evidencePending⟩) :
      Effect host bb events (.evidenceRecorded (ledgerEvidence conf hash)) rest
  | status (c : StatusChanged) (calm : calmChange c) : Effect host bb events (.statusChanged c) []
  | verdict (d : CompletionDecision) (c : StatusChanged) (judged : Judged host.py bb c) :
      Effect host bb events (.completionDecided d) [.statusChanged c]

section effects

variable {host : Host} {bb : Blackboard} {events : List Event} {p : Payload}
  {rest : List Payload}

attribute [local simp] nextStatus transitions

theorem mem_moved {trigger : Trigger} (h : p ∈ moved bb trigger) :
    ∃ next, nextStatus bb.pub.status trigger = some next ∧
      p = .statusChanged ⟨bb.pub.status, next⟩ := by
  simp only [moved, statusChange, Option.toList_map, List.map_map, List.mem_map, Option.mem_toList]
    at h
  obtain ⟨next, hn, rfl⟩ := h
  exact ⟨next, hn, rfl⟩

theorem nextStatus_requested {was next : CaseStatus}
    (h : nextStatus was .approvalRequested = some next) :
    was = .inCall ∧ next = .awaitingApproval := by
  cases was <;> simp at h
  exact ⟨rfl, h.symm⟩

theorem nextStatus_evidence {was next : CaseStatus}
    (h : nextStatus was .evidenceRecorded = some next) :
    was = .committed ∧ next = .evidencePending := by
  cases was <;> simp at h
  exact ⟨rfl, h.symm⟩

theorem effect_denied {intent : String} {r : Refusal} (h : (denied intent r).effects = p :: rest) :
    Effect host bb events p rest := by
  cases r with
  | denied reason => cases h; exact .refused intent reason
  | raised err => cases h

theorem effect_requestApproval {ref msgId : String}
    (h : (requestApprovalTool host.py bb ref host.case_ msgId).effects = p :: rest) :
    Effect host bb events p rest := by
  unfold requestApprovalTool at h
  split at h
  · exact effect_denied h
  · rename_i card ok
    cases h
    refine .card ref card _ ok fun q hq => ?_
    rcases List.mem_append.mp hq with hq | hq
    · obtain ⟨next, hn, rfl⟩ := mem_moved hq
      obtain ⟨was, rfl⟩ := nextStatus_requested hn
      rw [was]
      exact Or.inl rfl
    · exact Or.inr ⟨_, List.mem_singleton.mp hq⟩

theorem effect_acceptOffer {ref : String}
    (h : (acceptOfferTool host.py bb ref host.case_).effects = p :: rest) :
    Effect host bb events p rest := by
  unfold acceptOfferTool at h
  split at h
  · exact effect_denied h
  · rename_i cap text ok
    obtain ⟨o, t, g, accept, -⟩ := acceptOffer_eq_ok ok
    have line : moved bb .acceptAuthorized = [.statusChanged ⟨.inCall, .commitAuthorized⟩] := by
      simp [moved, statusChange, accept.inCall]
    simp only [line] at h
    cases h
    exact .accept ref cap text ok

theorem effect_tightenMandate {changes : Envelope} {mid : String}
    (h : (tightenMandate host.py bb changes mid).effects = p :: rest) :
    Effect host bb events p rest := by
  unfold tightenMandate at h
  split at h
  · cases h
  · split at h
    · cases h
    · dsimp only at h
      split at h
      · cases h; exact .refused _ _
      · cases h; exact .tighten _ _

theorem effect_checkAccount {conf : String} {said : Said}
    (h : (caught (checkAccount host.py bb events conf said)).effects = p :: rest) :
    Effect host bb events p rest := by
  unfold checkAccount at h
  split at h
  · cases h
  · split at h
    · cases h
    · rename_i binding _
      split at h
      · have hp : p ∈ moved bb .evidenceRecorded := by
          simp only [caught, done_effects] at h
          rw [h]
          exact List.mem_cons_self ..
        obtain ⟨next, hn, rfl⟩ := mem_moved hp
        obtain ⟨was, rfl⟩ := nextStatus_evidence hn
        have hrest : rest = [] := by
          simp only [caught, done_effects, moved, statusChange, hn] at h
          cases h
          rfl
        rw [hrest, was]
        exact .status _ (by decide)
      · simp only [bind, Except.bind] at h
        split at h
        · cases h
        · rename_i hash bound
          cases h
          refine .evidence conf binding hash _ bound fun q hq => ?_
          obtain ⟨next, hn, rfl⟩ := mem_moved hq
          obtain ⟨was, rfl⟩ := nextStatus_evidence hn
          rw [was]

theorem effect_recordOffer {ref : String} {slots : List ReadbackSlot} {expiresMs : Option Int}
    (h : (recordOffer bb ref slots expiresMs).effects = p :: rest) :
    Effect host bb events p rest := by
  unfold recordOffer at h
  dsimp only at h
  split at h
  · cases h
  · split at h
    · split at h
      · cases h
      · cases h; exact .offer ..
    · split at h
      · cases h
      · cases h; exact .offer ..

theorem effect_finishCompleted (h : (caught (finishCompleted host.py bb)).effects = p :: rest) :
    Effect host bb events p rest := by
  unfold finishCompleted at h
  split at h
  · cases h
  · rename_i fail hfail
    have pending : bb.pub.status = .evidencePending ∧ fail = ⟨.evidencePending, .needsReplan⟩ := by
      unfold statusChange at hfail
      cases hs : bb.pub.status <;> rw [hs] at hfail <;> simp at hfail
      exact ⟨rfl, hfail.symm⟩
    simp only [bind, Except.bind] at h
    split at h
    · cases h
    · rename_i d hd
      split at h
      · cases h
        rw [pending.2]
        exact .verdict d _ (.of_calm (by decide))
      · rename_i ok
        simp only [caught, pure, Except.pure, moved, statusChange, pending.1, nextStatus,
          transitions] at h
        cases h
        refine .verdict d _ ⟨by decide, fun _ => ⟨d, hd, ?_⟩, fun e => by cases e⟩
        cases hv : d.verdict
        · rfl
        · exact absurd hv ok

theorem effect_finishNoDeal {heard : Heard}
    (h : (caught (finishNoDeal host.py bb heard)).effects = p :: rest) :
    Effect host bb events p rest := by
  unfold finishNoDeal at h
  split at h
  · cases h
  · rename_i change hchange
    have inCall : bb.pub.status = .inCall := by
      unfold statusChange at hchange
      cases hs : bb.pub.status <;> rw [hs] at hchange <;> simp at hchange ⊢
    simp only [bind, Except.bind] at h
    split at h
    · cases h
    · rename_i d hd
      split at h
      · cases h
      · rename_i ok
        simp only [caught, pure, Except.pure, moved, statusChange, inCall, nextStatus,
          transitions] at h
        cases h
        refine .verdict d _ ⟨by decide, (fun e => by cases e), fun _ => ⟨heard, d, hd, ?_⟩⟩
        cases hv : d.verdict
        · rfl
        · exact absurd hv ok

theorem effect_close {outcome : Outcome} {trigger : Trigger}
    (kind : trigger = .escalate ∨ trigger = .infoOnly)
    (h : (close bb outcome trigger).effects = p :: rest) : Effect host bb events p rest := by
  unfold close at h
  split at h
  · cases h
  · rename_i c hc
    cases h
    refine .status c ?_
    unfold statusChange at hc
    rcases kind with rfl | rfl <;> cases hs : bb.pub.status <;> rw [hs] at hc <;>
      simp at hc <;> rw [← hc] <;> decide

/-- What the tools emit. -/
theorem effect_of_runTool {mid : String} {call : ToolCall}
    (h : (runTool host bb events mid call).effects = p :: rest) : Effect host bb events p rest := by
  cases call with
  | requestApproval ref msgId => exact effect_requestApproval h
  | acceptOffer ref => exact effect_acceptOffer h
  | declineOffer ref =>
    simp only [runTool, declineOfferTool] at h
    split at h
    · exact effect_denied h
    · rename_i line ok
      obtain ⟨text, rfl⟩ := declineOffer_eq_ok ok
      cases h
      exact .decline ref text
  | proposeMandate envelope =>
    simp only [runTool, proposeMandate] at h
    split at h
    · cases h
    · cases h; exact .propose _
  | tightenMandate changes => exact effect_tightenMandate h
  | revoke => cases h; exact .revoke _
  | recordOffer ref slots expiresMs => exact effect_recordOffer h
  | checkAccount conf said => exact effect_checkAccount h
  | finish outcome heard =>
    cases outcome with
    | completed => exact effect_finishCompleted h
    | noDeal => exact effect_finishNoDeal h
    | escalate =>
      simp only [runTool, finish] at h
      split at h
      · cases h
      · split at h
        · cases h
        · exact effect_close (Or.inl rfl) h
    | infoOnly => exact effect_close (Or.inr rfl) h

end effects

end ProxyLoop

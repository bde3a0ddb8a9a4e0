import ProxyLoop.Contract.Events

/-!
# The status machine

`status.changed` is emitted only for a legal transition.  Only verifier outcomes reach a verified
status; a hang-up abandons any case that is not closed.
-/

namespace ProxyLoop

inductive Trigger
  | mandateGranted | callOpened | approvalRequested | approvalDecided | approvalStale
  | approvalExpired | acceptAuthorized | acceptHeard | acceptRevoked | acceptTruncated
  | evidenceRecorded | escalate | completionOk | completionFail | replan | noDealVerified
  | infoOnly | hangUp
  deriving DecidableEq, Repr

/-- The transition table: from, trigger, to. -/
def transitions : CaseStatus → Trigger → Option CaseStatus
  | .intake, .mandateGranted => some .mandated
  | .intake, .callOpened => some .inCall
  | .mandated, .callOpened => some .inCall
  | .inCall, .approvalRequested => some .awaitingApproval
  | .awaitingApproval, .approvalDecided => some .inCall
  | .awaitingApproval, .approvalStale => some .needsReplan
  | .awaitingApproval, .approvalExpired => some .needsReplan
  | .inCall, .acceptAuthorized => some .commitAuthorized
  | .commitAuthorized, .acceptHeard => some .committed
  | .commitAuthorized, .acceptRevoked => some .needsReplan
  | .commitAuthorized, .acceptTruncated => some .needsReplan
  | .committed, .evidenceRecorded => some .evidencePending
  | .committed, .escalate => some .escalated
  | .evidencePending, .completionOk => some .verifiedComplete
  | .evidencePending, .completionFail => some .needsReplan
  | .needsReplan, .replan => some .inCall
  | .needsReplan, .escalate => some .escalated
  | .inCall, .noDealVerified => some .verifiedNoDeal
  | .inCall, .infoOnly => some .closedNoAction
  | _, _ => none

def terminal : CaseStatus → Bool
  | .verifiedComplete | .verifiedNoDeal | .escalated | .abandoned | .closedNoAction => true
  | _ => false

def allTriggers : List Trigger :=
  [.mandateGranted, .callOpened, .approvalRequested, .approvalDecided, .approvalStale,
    .approvalExpired, .acceptAuthorized, .acceptHeard, .acceptRevoked, .acceptTruncated,
    .evidenceRecorded, .escalate, .completionOk, .completionFail, .replan, .noDealVerified,
    .infoOnly, .hangUp]

/-- `_EDGES`: the pairs some trigger of the table joins. -/
def isEdge (was next : CaseStatus) : Bool := allTriggers.any fun t => transitions was t = some next

/-- The status after `trigger`, if it is a transition. -/
def nextStatus (status : CaseStatus) : Trigger → Option CaseStatus
  | .hangUp => if terminal status then none else some .abandoned
  | trigger => transitions status trigger

/-- The `status.changed` of `trigger`, if it moves the case. -/
def statusChange (bb : Blackboard) (trigger : Trigger) : Option StatusChanged :=
  (nextStatus bb.pub.status trigger).map (⟨bb.pub.status, ·⟩)

/-! ## What each status can come from -/

theorem transitions_terminal {was : CaseStatus} (h : terminal was = true) (t : Trigger) :
    transitions was t = none := by
  cases was <;> simp [terminal] at h <;> cases t <;> rfl

theorem not_isEdge_of_terminal {was : CaseStatus} (h : terminal was = true) (next : CaseStatus) :
    isEdge was next = false := by
  simp [isEdge, transitions_terminal h]

/-- A move of the machine is a transition, or the hang-up of an open case. -/
theorem isEdge_of_nextStatus {was next : CaseStatus} {trigger : Trigger}
    (legal : nextStatus was trigger = some next) :
    isEdge was next = true ∨ next = .abandoned ∧ terminal was = false := by
  by_cases hang : trigger = .hangUp
  · rw [hang] at legal
    simp only [nextStatus] at legal
    split at legal
    · cases legal
    · rename_i live
      cases legal
      exact Or.inr ⟨rfl, by simpa using live⟩
  · refine Or.inl (List.any_eq_true.mpr ⟨trigger, by cases trigger <;> decide, ?_⟩)
    cases trigger <;> first | exact absurd rfl hang | simpa [nextStatus] using legal

theorem isEdge_evidencePending {was : CaseStatus} (h : isEdge was .evidencePending = true) :
    was = .committed := by
  revert h; cases was <;> decide

theorem isEdge_verifiedComplete {was : CaseStatus} (h : isEdge was .verifiedComplete = true) :
    was = .evidencePending := by
  revert h; cases was <;> decide

end ProxyLoop

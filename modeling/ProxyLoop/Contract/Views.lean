import ProxyLoop.Contract.State

/-!
# Views of the board

What one Fast generation may see of the board, and one Slow step.  The counterparty's view reads
public state and the counterparty's channel alone; the brief is task data and not state, so the
views take it as an argument.
-/

namespace ProxyLoop.Views

/-! ## Triggers -/

inductive TriggerKind
  | userMsg | slowMsg | approvalCard | sessionStart
  | repSpoke | holdWait | guidance | callConnected
  deriving DecidableEq, Repr

/-- `USER_TRIGGERS`; the others are the counterparty's. -/
def TriggerKind.lane : TriggerKind → Lane
  | .userMsg | .slowMsg | .approvalCard | .sessionStart => .user
  | .repSpoke | .holdWait | .guidance | .callConnected => .cp

structure Trigger where
  kind : TriggerKind
  /-- the pending message it voices -/
  msgId : Option String := none
  waitS : Option Nat := none
  args : (msgId.isSome = true ↔ kind = .slowMsg) ∧ (waitS.isSome = true ↔ kind = .holdWait)
  deriving DecidableEq

def repSpoke : Trigger := ⟨.repSpoke, none, none, by decide⟩

/-! ## Views -/

def maxBrief : Nat := 800
def maxGuides : Nat := 3

structure FastView where
  lane : Lane
  brief : String
  privateSummary : Option String := none
  publicSummary : String
  actionLog : List String := []
  offers : List OfferPublic
  publicFacts : List PublicFact := []
  pendingApproval : Option ApprovalCard := none
  guidance : List Guide := []
  hold : Option HoldState := none
  status : CaseStatus
  transcript : List Line
  trigger : Trigger
  slowMsg : Option SlowToFast := none

namespace FastView

variable (v : FastView)

/-- The bounds of the fields, so that a prompt fits its budget. -/
def bounded : Bool :=
  v.brief.length ≤ maxBrief && v.privateSummary.all (·.length ≤ maxPrivateSummary) &&
    v.publicSummary.length ≤ maxPublicText && v.offers.length ≤ maxOffers &&
    v.guidance.length ≤ maxGuides

def laneFields : Bool :=
  v.trigger.kind.lane = v.lane &&
  (match v.lane with
    | .cp => v.privateSummary.isNone && v.pendingApproval.isNone && v.slowMsg.isNone
    | .user => v.guidance.isEmpty && v.hold.isNone && v.publicFacts.isEmpty) &&
  v.slowMsg.isSome = (v.trigger.kind = .slowMsg : Bool) &&
  (v.trigger.kind ≠ .approvalCard || v.pendingApproval.isSome)

/-- A view that passes its validation; any other raises. -/
def valid? : Option FastView := if v.bounded && v.laneFields then some v else none

end FastView

/-- The pending message that the trigger names; `none` where it raises. -/
def pendingMsg (bb : Blackboard) (trigger : Trigger) : Option (Option SlowToFast) :=
  if trigger.kind = .slowMsg then
    match ((bb.s2fPending.get? .user).getD []).find? (some ·.msgId = trigger.msgId) with
    | some msg => if msg.type = .askUser ∨ msg.type = .tellUser then some (some msg) else none
    | none => none
  else some none

def viewUser (bb : Blackboard) (trigger : Trigger) (brief : String) : Option FastView := do
  let slowMsg ← pendingMsg bb trigger
  FastView.valid?
    { lane := .user
      brief
      privateSummary := some bb.priv.summary
      publicSummary := bb.pub.summary
      offers := bb.pub.offers.values
      pendingApproval := bb.priv.pendingApproval
      status := bb.pub.status
      transcript := bb.channels.user.lines
      trigger
      slowMsg }

def viewCp (bb : Blackboard) (trigger : Trigger) (brief : String) : Option FastView :=
  FastView.valid?
    { lane := .cp
      brief
      publicSummary := bb.pub.summary
      offers := bb.pub.offers.values
      publicFacts := bb.pub.facts.values
      guidance := bb.pub.guidanceCp
      hold := bb.pub.cpHold
      status := bb.pub.status
      transcript := bb.channels.cp.lines
      trigger }

/-! ## What Slow sees -/

inductive SlowViewMode
  | transcript | relayOnly
  deriving DecidableEq, Repr

structure SlowView where
  mode : SlowViewMode
  brief : String
  publicSummary : String
  privateSummary : String
  relays : List FastToSlow
  offers : List OfferPublic
  publicFacts : List PublicFact
  caseFacts : List Fact
  mandate : Option Mandate
  pendingApproval : Option ApprovalCard
  approvals : List Approval
  status : CaseStatus
  epoch : Nat
  fences : List Fence
  cpHold : Option HoldState
  cpStrikes : Nat
  transcripts : List (Lane × List Line) := []

def viewSlow (bb : Blackboard) (mode : SlowViewMode) (brief : String) : SlowView where
  mode
  brief
  publicSummary := bb.pub.summary
  privateSummary := bb.priv.summary
  relays := bb.f2sPending
  offers := bb.pub.offers.values
  publicFacts := bb.pub.facts.values
  caseFacts := bb.priv.caseFacts.values
  mandate := bb.priv.mandate
  pendingApproval := bb.priv.pendingApproval
  approvals := bb.priv.approvals.values
  status := bb.pub.status
  epoch := bb.epoch
  fences := bb.fences
  cpHold := bb.pub.cpHold
  cpStrikes := bb.channels.cp.strikes
  transcripts :=
    if mode = .transcript then [(.user, bb.channels.user.lines), (.cp, bb.channels.cp.lines)]
    else []

end ProxyLoop.Views

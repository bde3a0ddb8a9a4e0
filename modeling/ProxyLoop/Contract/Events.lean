import ProxyLoop.Contract.State

/-!
# Events

The event envelope and the registry, one `Payload` constructor a type with the payload keys that
reducers and subscribers read.  A log belongs to one run, so a cause is the `seq` of an earlier
event of it.  World and ops events nobody in this development reads share one constructor.
-/

namespace ProxyLoop

/-! ## Payloads -/

inductive PostSubject
  | approval | mandate
  deriving DecidableEq, Repr

/-- `approval.post`: what the endpoint received for a card or a proposed mandate. -/
structure ApprovalPost where
  subject : PostSubject
  subjectId : String
  decision : Decision
  subjectHash : String
  authorityEpoch : Nat
  deriving DecidableEq

structure ApprovalDecided where
  approvalId : String
  decision : Decision
  by_ : Approver
  deriving DecidableEq

structure MandateDecided where
  mandateId : String
  mandateHash : String
  decision : Decision
  by_ : Approver
  deriving DecidableEq

inductive BumpReason
  | mandateDecided | slowRevoke | tightenMandate | f2sRevoke
  deriving DecidableEq, Repr

structure EpochBump where
  new : Nat
  reason : BumpReason
  pos : 1 ≤ new
  deriving DecidableEq

abbrev EpochBump.next (epoch : Nat) (reason : BumpReason) : EpochBump :=
  ⟨epoch + 1, reason, Nat.succ_pos epoch⟩

structure MandateProposal where
  mandate : Mandate
  proposed : mandate.status = .proposed ∧ mandate.decidedBy = none
  deriving DecidableEq

structure ActionAuthorized where
  intent : Intent
  capability : Capability
  deriving DecidableEq

structure StatusChanged where
  previous : CaseStatus
  status : CaseStatus
  deriving DecidableEq

inductive FactScope
  | privately | publicly
  deriving DecidableEq, Repr

inductive VerbatimKind
  | accept | decline | other
  deriving DecidableEq, Repr

inductive FenceOp
  | raised | cleared
  deriving DecidableEq, Repr

/-- A read-back update: Guard's slot statuses and terms hash of one offer revision. -/
structure Readback where
  offerRef : String
  revision : Nat
  slotStatuses : Lib.Dict String SlotStatus
  termsHash : Option String
  deriving DecidableEq

/-- What the world's ledger binds under a confirmation id. -/
structure LedgerBinding where
  terms : List (String × String)
  termMonths : String
  deriving DecidableEq

/-- What `session.started` tells that the manifest tells too. -/
structure SessionStarted where
  cfgHash : String
  split : String
  contractVersion : String
  deriving DecidableEq

inductive Payload
  -- world and ops: no reducer
  | worldOps (type : String)
  | sessionStarted (started : SessionStarted)
  | ledgerWrite (confirmationId : String) (binding : LedgerBinding)
  | sessionEnded (reason : String)
  -- recorded only
  | llmCall
  | fastRequest (lane : Lane) (genId : String) (basisSeq : Nat)
  | fastTurn (lane : Lane) (genId : String)
  | fastSentence (lane : Lane) (genId uttId text : String)
  | fastCancelled (genId reason : String)
  | slowStepStarted (basisSeq : Nat)
  | slowStepCompleted (basisSeq : Nat)
  | slowTool (name resultText : String) (ok : Bool)
  | declassDenied (violations : List String)
  | chanOpened (lane : Lane)
  | chanClosed (lane : Lane)
  | chanBargeIn (lane : Lane) (uttId : String)
  | actionDenied (intent reason : String)
  | screenRedacted
  -- the conversation
  | userMsg (text : String)
  | uttFinal (lane : Lane) (speaker : Voice) (uttId text : String)
  | uttDelivered (lane : Lane) (uttId textGenerated textHeard : String) (interrupted : Bool)
  | f2sMsg (msg : FastToSlow)
  | s2fMsg (msg : SlowToFast)
  | s2fVoiced (msgId genId : String)
  | factRecorded (scope : FactScope) (key value : String) (source : FactSource)
      (sourceRef : Option String)
  | chanHold (reason : Option HoldReason)
  | chanStrike
  | summaryUpdated (scope : FactScope) (text : String)
  -- offers
  | offerRecorded (offerRef : String) (revision : Nat) (slots : List ReadbackSlot)
      (expiresMs : Option Int)
  | readbackUpdated (update : Readback)
  -- authority
  | authorityFence (op : FenceOp) (fenceId uttId : String)
  | authorityEpoch (bump : EpochBump)
  | statusChanged (change : StatusChanged)
  | completionDecided (decision : CompletionDecision)
  | approvalPost (post : ApprovalPost)
  | mandateProposed (proposal : MandateProposal)
  | mandateDecided (decided : MandateDecided)
  | approvalRequested (card : ApprovalCard)
  | approvalDecided (decided : ApprovalDecided)
  | actionAuthorized (auth : ActionAuthorized)
  | speakVerbatim (lane : Lane) (kind : VerbatimKind) (text : String) (capId : Option String)
      (offerRef : Option String)
  | speakReleased (lane : Lane) (capId : Option String)
  | speakRevoked (lane : Lane) (reason : String) (capId : Option String)
  | evidenceRecorded (evidence : Evidence)

/-! ## The envelope -/

inductive Actor
  | fastUser | fastCp | slow | guard | kernel | ui | simApprover | world
  deriving DecidableEq, Repr

def Approver.actor : Approver → Actor
  | .ui => .ui
  | .simApprover => .simApprover

/-- One line of `events.jsonl`; `tMs` is monotonic ms since the start. -/
structure Event where
  runId : String
  seq : Nat
  tMs : Nat
  actor : Actor
  causes : List Nat
  epoch : Nat
  payload : Payload

def Event.eventId (e : Event) : String := e.runId ++ ":" ++ toString e.seq

/-- The world and ops types that a timer can emit, with no cause. -/
def exogenousOps : List String := ["parity.checked", "attest.recorded", "rep.policy"]

/-- The types of the world's own stream among the unread ones. -/
def worldTypes : List String :=
  ["rep.ear", "rep.policy", "rep.mouth", "rep.commit_heard", "user.sim"]

/-- Whether the type is derived, so that its event must cite a cause. -/
def Payload.causeRequired : Payload → Bool
  | .userMsg _ | .uttFinal .. | .approvalPost _ | .chanStrike | .fastRequest ..
  | .slowStepStarted _ | .sessionStarted _ | .sessionEnded _ => false
  | .worldOps type => !exogenousOps.contains type
  | _ => true

/-- The actors that may emit the type: the authority group is closed, the rest open. -/
def Payload.emitters : Payload → Option (List Actor)
  | .approvalPost _ => some [.ui, .simApprover]
  | .approvalDecided _ | .userMsg _ | .uttFinal .. | .uttDelivered .. | .chanOpened _
  | .mandateDecided _ | .speakReleased .. => some [.kernel]
  | .authorityFence .. | .authorityEpoch _ => some [.kernel, .guard]
  | .summaryUpdated .. | .mandateProposed _ | .approvalRequested _ | .actionAuthorized _
  | .speakVerbatim .. | .screenRedacted | .evidenceRecorded _ | .offerRecorded ..
  | .readbackUpdated _ | .completionDecided _ | .statusChanged _ => some [.guard]
  | _ => none

/-- Whether the type is on the world's stream; `none` where either is allowed. -/
def Payload.fromWorld : Payload → Option Bool
  | .ledgerWrite .. => some true
  | .worldOps type => some (worldTypes.contains type)
  | .llmCall => none
  | _ => some false

/-- What `Event` checks of its own envelope. -/
def Event.wellFormed (e : Event) : Bool :=
  (!e.payload.causeRequired || e.causes ≠ []) && e.causes.all (· < e.seq) &&
  (match e.payload.emitters with
    | some actors => actors.contains e.actor
    | none => true) &&
  (match e.payload.fromWorld with
    | some world => world = decide (e.actor = .world)
    | none => true)

/-- Whether `decision` records exactly what `post` decided. -/
def decides (decision post : Event) : Bool :=
  match decision.payload, post.payload with
  | .approvalDecided d, .approvalPost p =>
    p.subject = .approval && p.subjectId = d.approvalId && p.decision = d.decision &&
      post.actor = d.by_.actor
  | .mandateDecided d, .approvalPost p =>
    p.subject = .mandate && p.subjectId = d.mandateId && p.decision = d.decision &&
      post.actor = d.by_.actor && p.subjectHash = d.mandateHash
  | _, _ => false

def Event.isDecision (e : Event) : Bool :=
  match e.payload with
  | .approvalDecided _ | .mandateDecided _ => true
  | _ => false

def Event.isPost (e : Event) : Bool :=
  match e.payload with
  | .approvalPost _ => true
  | _ => false

def citedPosts (log : List Event) (e : Event) : List Event :=
  e.causes.filterMap fun c => (log.find? (·.seq = c)).filter Event.isPost

def decidedSubject (log : List Event) (e : Event) : Option (PostSubject × String × String) :=
  match citedPosts log e with
  | [⟨_, _, _, _, _, _, .approvalPost p⟩] => some (p.subject, p.subjectId, p.subjectHash)
  | _ => none

/-- `check_causes` of a decision `e` that is appended to `log`: it cites the one post it decides,
and its (subject, id, hash) was not decided before. -/
def checkCauses (log : List Event) (e : Event) : Bool :=
  match citedPosts log e with
  | [post] => decides e post &&
      (log.filter Event.isDecision).all fun d => decidedSubject log d ≠ decidedSubject log e
  | _ => false

end ProxyLoop

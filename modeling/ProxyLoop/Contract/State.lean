import Mathlib.Algebra.Order.Ring.Int
import ProxyLoop.Lib.Dict

/-!
# The blackboard

Public and private state of one case, with the messages between the lanes.  A record whose source
type has a validator (`Mandate`, `ApprovalCard`, `ReadbackSlot`, the two messages) carries what it
checks as a field, so that no invalid one can be built; bounds that the source enforces on a whole
board (how many offers, how long a summary) are checked by the reducers.

Fields that no rule reads or writes (`spend`, `action_log`, a channel's `open` and `floor`, a
slot's `span`) are left out.
-/

namespace ProxyLoop

open Lib (Dict)

/-! ## Vocabulary -/

inductive Lane
  | user | cp
  deriving DecidableEq, Repr

inductive HoldReason
  | offer | decision | factRequest | pressure | unclear
  deriving DecidableEq, Repr

inductive CaseStatus
  | intake | mandated | inCall | awaitingApproval | commitAuthorized | committed
  | evidencePending | needsReplan | verifiedComplete | verifiedNoDeal | escalated | abandoned
  | closedNoAction
  deriving DecidableEq, Repr

def CaseStatus.text : CaseStatus → String
  | .intake => "INTAKE"
  | .mandated => "MANDATED"
  | .inCall => "IN_CALL"
  | .awaitingApproval => "AWAITING_APPROVAL"
  | .commitAuthorized => "COMMIT_AUTHORIZED"
  | .committed => "COMMITTED"
  | .evidencePending => "EVIDENCE_PENDING"
  | .needsReplan => "NEEDS_REPLAN"
  | .verifiedComplete => "VERIFIED_COMPLETE"
  | .verifiedNoDeal => "VERIFIED_NO_DEAL"
  | .escalated => "ESCALATED"
  | .abandoned => "ABANDONED"
  | .closedNoAction => "CLOSED_NO_ACTION"

/-- Who spoke a line: the other side, or the agent. -/
inductive Voice
  | partner | agent
  deriving DecidableEq, Repr

inductive Decision
  | granted | denied
  deriving DecidableEq, Repr

inductive Approver
  | ui | simApprover
  deriving DecidableEq, Repr

inductive Intent
  | acceptOffer | submitTransaction
  deriving DecidableEq, Repr

def maxSlotField : Nat := 40
def maxSlotValue : Nat := 24
def maxSlots : Nat := 8
def maxOffers : Nat := 6
def maxFactValue : Nat := 120
def maxPublicText : Nat := 400
def maxPrivateSummary : Nat := 1200
def maxReadbackText : Nat := 600
def maxGuideSlots : Nat := 3
def maxF2sText : Nat := 240

/-- `expires_ms is not None and expires_ms <= t_ms`. -/
def expired (expiresMs : Option Int) (tMs : Nat) : Bool :=
  match expiresMs with
  | none => false
  | some x => x ≤ tMs

theorem expired_eq_false {expiresMs : Option Int} {tMs : Nat} :
    expired expiresMs tMs = false ↔ ∀ x, expiresMs = some x → (tMs : Int) < x := by
  cases expiresMs <;> simp [expired]

/-! ## Text grammars -/

def isLower (c : Char) : Bool := 'a' ≤ c && c ≤ 'z'
def isUpper (c : Char) : Bool := 'A' ≤ c && c ≤ 'Z'
def isDigit (c : Char) : Bool := '0' ≤ c && c ≤ '9'
def isAlnum (c : Char) : Bool := isLower c || isUpper c || isDigit c

/-- `s.partition(":")`, without the separator: the text before the first colon and after it. -/
def partitionColon : List Char → List Char × List Char
  | [] => ([], [])
  | c :: cs => if c = ':' then ([], cs) else
    let (kind, code) := partitionColon cs
    (c :: kind, code)

/-- The kind of a read-back field: `fee` of `fee:porting`, the whole of `monthly_price`. -/
def fieldKind (field : String) : String := String.ofList (partitionColon field.toList).1

/-- The code of a coded read-back field: `porting` of `fee:porting`. -/
def fieldCode (field : String) : String := String.ofList (partitionColon field.toList).2

def isCoded (field : String) : Bool := field.toList.contains ':'

def codeChar (c : Char) : Bool := isAlnum c || c = '_' || c = '.' || c = ':' || c = '-'

/-- `READBACK_FIELD`: one of the plain fields, or a coded one with a non-empty code. -/
def readbackField (field : String) : Bool :=
  ["monthly_price", "term_months", "fees_none", "changes_none", "expires"].contains field ||
  (isCoded field && ["fee", "credit", "applied_change", "feature"].contains (fieldKind field) &&
    fieldCode field ≠ "" && (fieldCode field).toList.all codeChar)

/-- `OFFER_REF`: 1 to 24 letters, digits, `_` or `-`. -/
def offerRefOk (ref : String) : Bool :=
  1 ≤ ref.length && ref.length ≤ 24 && ref.toList.all fun c => isAlnum c || c = '_' || c = '-'

def factPart (c : Char) : Bool := isLower c || isDigit c || c = '_'

/-- The rest of a fact key: parts of letters, digits and `_`, joined by single dots. -/
def factRest : List Char → Bool
  | [] => true
  | ['.'] => false
  | '.' :: c :: cs => factPart c && factRest cs
  | c :: cs => factPart c && factRest cs

def factKey (key : String) : Bool :=
  match key.toList with
  | [] => false
  | c :: cs => isLower c && factRest cs

/-! ## Offers -/

inductive SlotUnit
  | usdMinor | months | bool | iso
  deriving DecidableEq, Repr

inductive SlotRole
  | recurring | oneTime | credit | change | feature | expiry
  deriving DecidableEq, Repr

inductive SlotStatus
  | unknown | heard | confirmed
  deriving DecidableEq, Repr

/-- What `ReadbackSlot`'s field and value must satisfy. -/
def slotOk (field value : String) : Bool :=
  readbackField field && field.length ≤ maxSlotField && value.length ≤ maxSlotValue

/-- One read-back slot of an offer; `value` is normalised text. -/
structure ReadbackSlot where
  field : String
  value : String
  unit : SlotUnit
  role : SlotRole
  sourceUtt : Option String := none
  span : Option (Nat × Nat) := none
  status : SlotStatus := .unknown
  ok : slotOk field value = true
  deriving DecidableEq

/-- `ReadbackSlot.model_validate`. -/
def ReadbackSlot.make? (field value : String) (unit : SlotUnit) (role : SlotRole)
    (sourceUtt : Option String := none) : Option ReadbackSlot :=
  if h : slotOk field value = true then
    some { field, value, unit, role, sourceUtt, ok := h }
  else none

def ReadbackSlot.withStatus (s : ReadbackSlot) (status : SlotStatus) : ReadbackSlot :=
  { s with status }

inductive OfferStatus
  | «open» | withdrawn | expired | declined | accepted
  deriving DecidableEq, Repr

structure OfferPublic where
  offerRef : String
  revision : Nat
  slots : List ReadbackSlot := []
  status : OfferStatus := .open
  expiresMs : Option Int := none
  termsHash : Option String := none
  deriving DecidableEq

def OfferPublic.valid (o : OfferPublic) : Bool :=
  offerRefOk o.offerRef && 1 ≤ o.revision && o.slots.length ≤ maxSlots

/-! ## Facts -/

inductive FactSource
  | cpUtt | shareable | user
  deriving DecidableEq, Repr

/-- A source-bound public fact: said by the rep, or shareable and said by the user. -/
structure PublicFact where
  key : String
  value : String
  source : FactSource
  sourceRef : String
  deriving DecidableEq

/-- A case fact; `protected_` marks PINs and account numbers. -/
structure Fact where
  key : String
  value : String
  protected_ : Bool := false
  sourceRef : Option String := none
  deriving DecidableEq

/-! ## Authority -/

inductive MandateStatus
  | proposed | granted | denied | revoked
  deriving DecidableEq, Repr

def Decision.toStatus : Decision → MandateStatus
  | .granted => .granted
  | .denied => .denied

/-- The principal's envelope.  A decided one names who decided it. -/
structure Mandate where
  mandateId : String
  mandateHash : String
  status : MandateStatus
  epoch : Nat
  maxMonthlyPriceMinor : Option Int := none
  maxTermMonths : Option Int := none
  maxOneTimeFeesMinor : Option Int := none
  requiredFeatures : List String := []
  forbiddenChanges : List String := []
  expiresMs : Option Int := none
  decidedBy : Option Approver := none
  decided : status = .granted ∨ status = .denied → decidedBy.isSome
  deriving DecidableEq

def Mandate.decide (m : Mandate) (d : Decision) (by_ : Approver) : Mandate :=
  { m with status := d.toStatus, decidedBy := some by_, decided := fun _ => rfl }

def Mandate.withEpoch (m : Mandate) (epoch : Nat) : Mandate := { m with epoch }

structure ReadbackBinding where
  offerRef : String
  revision : Nat
  accountRef : String
  principalRef : String
  purpose : String
  authorityEpoch : Nat
  deriving DecidableEq

/-- `approval.requested`: a card bound to one offer revision, its terms and the epoch. -/
structure ApprovalCard where
  approvalId : String
  offerRef : String
  revision : Nat
  termsHash : String
  readbackText : String
  authorityEpoch : Nat
  expiresMs : Int
  binding : ReadbackBinding
  bound : binding.offerRef = offerRef ∧ binding.revision = revision ∧
    binding.authorityEpoch = authorityEpoch
  deriving DecidableEq

/-- The offer's current revision and terms are the card's. -/
def isCurrent (card : ApprovalCard) (offer : Option OfferPublic) : Bool :=
  match offer with
  | none => false
  | some o => o.revision = card.revision && o.termsHash = some card.termsHash

structure Approval where
  approvalId : String
  decision : Decision
  by_ : Approver
  termsHash : String
  authorityEpoch : Nat
  expiresMs : Option Int := none
  deriving DecidableEq

/-- A one-use release token. -/
structure Capability where
  capId : String
  businessActionId : String
  intent : Intent
  termsHash : String
  epoch : Nat
  expiresMs : Int
  consumed : Bool := false
  deriving DecidableEq

structure Authorization where
  intent : Intent
  offerRef : Option String
  termsHash : Option String
  capId : String
  epoch : Nat
  deriving DecidableEq

/-- A raised ingress fence; cleared fences leave the blackboard. -/
structure Fence where
  fenceId : String
  uttId : String
  raisedSeq : Nat
  deriving DecidableEq

/-! ## Conversation -/

structure HoldState where
  reason : HoldReason
  sinceMs : Nat
  deriving DecidableEq

structure Line where
  uttId : String
  speaker : Voice
  text : String
  deriving DecidableEq

structure ChannelState where
  lines : List Line := []
  strikes : Nat := 0
  deriving DecidableEq

structure Channels where
  user : ChannelState := {}
  cp : ChannelState := {}
  deriving DecidableEq

def Channels.get (c : Channels) : Lane → ChannelState
  | .user => c.user
  | .cp => c.cp

def Channels.set (c : Channels) (lane : Lane) (s : ChannelState) : Channels :=
  match lane with
  | .user => { c with user := s }
  | .cp => { c with cp := s }

/-! ## Evidence and completion -/

inductive EvidenceKind
  | ledger | portal
  deriving DecidableEq, Repr

structure Evidence where
  evidenceId : String
  kind : EvidenceKind
  confirmationId : String
  termsHash : Option String := none
  businessActionId : Option String := none
  deriving DecidableEq

inductive Verdict
  | ok | fail
  deriving DecidableEq, Repr

structure CompletionDecision where
  verdict : Verdict
  reasons : List String := []
  deriving DecidableEq

/-! ## Messages between the lanes -/

inductive GuideMove
  | openCall | identify | askDiscount | citeCompetitor | mentionTenure | cancelLever
  | askReadback | holdForDecision | declineOffer | askFinalOffer | deflectFactRequest
  | closeCall | holdForFact
  deriving DecidableEq, Repr

/-- A move and slot references; it carries no free text. -/
structure Guide where
  move : GuideMove
  slots : List String := []
  few : slots.length ≤ maxGuideSlots
  deriving DecidableEq

inductive F2SType
  | userUpdate | cpUpdate | request | revoke | note | hold
  deriving DecidableEq, Repr

def F2SType.lane? : F2SType → Option Lane
  | .userUpdate | .request | .revoke => some .user
  | .cpUpdate | .hold => some .cp
  | .note => none

/-- `f2s.msg`: one typed relay from a Fast lane. -/
structure FastToSlow where
  msgId : String
  lane : Lane
  genId : String
  uttRef : Option String
  type : F2SType
  facts : List (String × String) := []
  correction : Bool := false
  text : String := ""
  laneRules : (∀ l, type.lane? = some l → l = lane) ∧ (correction = true → type = .userUpdate) ∧
    text.length ≤ maxF2sText

inductive S2FType
  | askUser | tellUser | guide | approvalNotice | «end»
  deriving DecidableEq, Repr

/-- `SlowToFast._lane_rules`. -/
def s2fRules (lane : Lane) (type : S2FType) (text : String) (guide : Option Guide)
    (approvalId : Option String) : Bool :=
  (!(type = .askUser || type = .tellUser || type = .approvalNotice) || lane = .user) &&
  (!(type = .guide) || lane = .cp) && (!(lane = .cp) || text = "") &&
  (!(type = .askUser || type = .tellUser) || text ≠ "") &&
  (guide.isSome = (type = .guide : Bool)) &&
  (approvalId.isSome = (type = .approvalNotice : Bool)) && text.length ≤ maxPublicText

/-- `s2f.msg`, acknowledged by `s2f.voiced`.  The cp lane never gets text. -/
structure SlowToFast where
  msgId : String
  lane : Lane
  type : S2FType
  text : String := ""
  guide : Option Guide := none
  approvalId : Option String := none
  laneRules : s2fRules lane type text guide approvalId = true

/-! ## The board -/

structure PublicState where
  summary : String := ""
  facts : Dict String PublicFact := .empty
  offers : Dict String OfferPublic := .empty
  guidanceCp : List Guide := []
  status : CaseStatus := .intake
  cpHold : Option HoldState := none

structure PrivateState where
  summary : String := ""
  caseFacts : Dict String Fact := .empty
  mandate : Option Mandate := none
  pendingApproval : Option ApprovalCard := none
  approvals : Dict String Approval := .empty

/-- The pure fold of the event log. -/
structure Blackboard where
  seq : Nat := 0
  tMs : Nat := 0
  epoch : Nat := 0
  fences : List Fence := []
  pub : PublicState := {}
  priv : PrivateState := {}
  channels : Channels := {}
  f2sPending : List FastToSlow := []
  s2fPending : Dict Lane (List SlowToFast) := .empty
  authorizations : List Authorization := []
  capabilities : Dict String Capability := .empty
  evidence : List Evidence := []
  completion : Option CompletionDecision := none

end ProxyLoop

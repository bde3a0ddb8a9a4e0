import ProxyLoop.Kernel.Desk
import ProxyLoop.Slow.OfferSlots

/-!
# The kernel

Everything that shares the bus: Slow's tools, the approvals queue, the Speaker's queued lines, the
gate of the call, the expiry timers of the cards, and the rest of the world.  Code between two
awaits runs alone: a block of it evaluates on the board as it starts, emits its first event, and
leaves the rest in `todo`; each event is delivered to its end before the block goes on, and no
other block starts before `todo` is empty.

Where the source names the causes of an event, a step takes them from the scheduler: only what the
bus checks of them is used (the post a decision cites), and the causes of a release's delivery,
which are the Speaker's own.
-/

namespace ProxyLoop

/-- The case, and the library functions the kernel uses. -/
structure Host where
  py : Runtime
  case_ : CaseRef
  /-- `round(1000 * speech_s(text))` -/
  speechMs : String → Nat

/-! ## Slow's tools -/

/-- The calls with an effect on authority.  Any other tool only speaks, guides or records facts. -/
inductive ToolCall
  | requestApproval (ref msgId : String)
  | acceptOffer (ref : String)
  | declineOffer (ref : String)
  | proposeMandate (envelope : Envelope)
  | tightenMandate (changes : Envelope)
  | revoke
  | recordOffer (ref : String) (slots : List ReadbackSlot) (expiresMs : Option Int)
  | checkAccount (conf : String) (said : Said)
  | finish (outcome : Outcome) (heard : Heard)

def ToolCall.name : ToolCall → String
  | .requestApproval .. => "request_approval"
  | .acceptOffer _ => "accept_offer"
  | .declineOffer _ => "decline_offer"
  | .proposeMandate _ => "propose_mandate"
  | .tightenMandate _ => "tighten_mandate"
  | .revoke => "revoke"
  | .recordOffer .. => "record_offer"
  | .checkAccount .. => "check_account"
  | .finish .. => "finish"

def ToolCall.proposes : ToolCall → Bool
  | .proposeMandate _ | .tightenMandate _ => true
  | _ => false

/-- An exception of the runtime is caught by the tool runner. -/
def caught : Except PyError Result → Result
  | .ok r => r
  | .error _ => invalidArgs

/-- `SlowTools._run`; `mid` is the id of a mandate it proposes. -/
def runTool (host : Host) (bb : Blackboard) (events : List Event) (mid : String) :
    ToolCall → Result
  | .requestApproval ref msgId => requestApprovalTool host.py bb ref host.case_ msgId
  | .acceptOffer ref => acceptOfferTool host.py bb ref host.case_
  | .declineOffer ref => declineOfferTool bb ref
  | .proposeMandate envelope => proposeMandate host.py bb envelope mid
  | .tightenMandate changes => tightenMandate host.py bb changes mid
  | .revoke => revoke bb
  | .recordOffer ref slots expiresMs => recordOffer bb ref slots expiresMs
  | .checkAccount conf said => caught (checkAccount host.py bb events conf said)
  | .finish outcome heard => caught (finish host.py bb outcome heard)

/-! ## The state -/

/-- What a running block still does: an emit, a status move if it is legal then, or the bump of a
decided mandate. -/
inductive Task
  | emit (actor : Actor) (p : Payload)
  | move (trigger : Trigger)
  | bump

/-- A verbatim line waiting for the floor: its `speak.verbatim`, and the user fences raised when it
first gave the floor back. -/
structure Waiting where
  seq : Nat
  kind : VerbatimKind
  text : String
  cap : Option String
  users : Option Nat := none
  deriving DecidableEq

def Payload.isHold : Payload → Bool
  | .chanHold _ => true
  | _ => false

structure Kernel where
  desk : Desk
  todo : List Task := []
  lines : List Waiting := []
  /-- the line on the floor, with the seq of its release -/
  floor : Option (Waiting × Nat) := none
  /-- `_mandates` -/
  mandates : Nat := 0
  /-- the cp call was opened -/
  opened : Bool := false
  /-- the cards whose timer has ended, by the seq of their request -/
  fired : List Nat := []

namespace Kernel

def start (session : Session) (runId : String) : Kernel := { desk := Desk.start session runId }

abbrev log (k : Kernel) : List Event := k.desk.bus.events

abbrev board (k : Kernel) : Blackboard := k.desk.bus.bb

/-- `Kernel.bb`: the board at the bus clock's now. -/
def bb (k : Kernel) : Blackboard := { k.board with tMs := max k.board.tMs k.desk.now }

/-! ## The Speaker -/

inductive Floor
  | release
  | revoke (reason : String)
  | wait (users : Nat)
  deriving DecidableEq

/-- `_floor_revalidated`, once the floor is taken with no partner turn pending. -/
def revalidated (host : Host) (k : Kernel) (q : Waiting) : Floor :=
  let speechEnd : Nat := k.desk.now + host.speechMs q.text
  let why := if k.desk.closed then some "call_closed" else
    q.cap.bind fun id => ProxyLoop.revalidate k.bb id speechEnd
  let raised := k.desk.auth.userFences
  -- a user fence rose, even if it cleared, while the line waited
  if (why = none || why = some "fence") && q.users.any (· ≠ raised) then .revoke "fence"
  else if why ≠ some "fence" || q.cap.isNone || !k.desk.auth.partnerOnly then
    match why with
    | none => .release
    | some reason => .revoke reason
  else if (q.cap.bind k.board.capabilities.get?).any fun c => c.expiresMs ≤ (speechEnd : Int) then
    .revoke "expired"
  else .wait (q.users.getD raised)

/-! ## Steps -/

inductive Act
  | tick (tMs : Nat)
  | react (tMs : Nat)
  | deliver
  | closing
  | world (tMs : Nat) (actor : Actor) (causes : List Nat) (p : Payload)
  | tool (tMs : Nat) (causes : List Nat) (call : ToolCall)
  | readback (tMs : Nat) (causes : List Nat) (ref : String)
      (statuses : Lib.Dict String SlotStatus)
  | post (tMs : Nat) (causes : List Nat) (post : ApprovalPost) (by_ : Approver)
  | floor (tMs : Nat) (i : Nat)
  | heard (tMs : Nat) (said : String)
  | openCall (tMs : Nat) (causes : List Nat)
  | hangUp
  | expire (seq : Nat)
  | next (tMs : Nat) (causes : List Nat)

/-- The event at `seq` releases no capability. -/
def citesNoAccept (k : Kernel) (seq : Nat) : Bool :=
  k.log.all fun e => e.seq ≠ seq || !e.payload.releasesCap

/-- What the lanes, the channels, the wakes and the world may emit: nothing of the authority group.
Fast delivers its own sentences. -/
def free (k : Kernel) (causes : List Nat) : Payload → Bool
  | .uttDelivered .. => causes.all k.citesNoAccept
  | .chanOpened lane => lane = .user
  | .speakVerbatim _ kind _ capId offerRef => kind = .other && capId.isNone && offerRef.isNone
  | .speakReleased _ capId => capId.isNone
  | .speakRevoked .. => false
  | .approvalPost _ => false
  | p => p.isQuiet

/-- The verbatim task that an emitted accept or decline line starts. -/
def spawned (k : Kernel) : Payload → List Waiting
  | .speakVerbatim _ kind text cap _ =>
    if kind = .other then [] else [{ seq := k.log.length, kind, text, cap }]
  | _ => []

/-- One outer emit; `todo` is what the block does after it. -/
def emit (k : Kernel) (tMs : Nat) (actor : Actor) (causes : List Nat) (p : Payload)
    (todo : List Task) : Option Kernel :=
  (k.desk.step (.env tMs actor causes p)).map fun desk =>
    { k with desk, todo, lines := k.lines ++ k.spawned p }

def internal (k : Kernel) (a : DeskAct) : Option Kernel :=
  (k.desk.step a).map fun desk => { k with desk }

def idle (k : Kernel) : Bool := k.todo.isEmpty && k.desk.quiet

def nextMandate (k : Kernel) : String := "mandate-" ++ toString (k.mandates + 1)

/-- `_apply`: the `slow.tool`, then Guard's effects. -/
def tool (host : Host) (k : Kernel) (tMs : Nat) (causes : List Nat) (call : ToolCall) :
    Option Kernel :=
  let r := runTool host k.bb k.log k.nextMandate call
  { k with mandates := if call.proposes then k.mandates + 1 else k.mandates }.emit tMs .slow causes
    (.slowTool call.name r.text r.ok) (r.effects.map (.emit .guard))

/-- One offer of `readback`: only an open one is read back. -/
def readback (host : Host) (k : Kernel) (tMs : Nat) (causes : List Nat) (ref : String)
    (statuses : Lib.Dict String SlotStatus) : Option Kernel :=
  match k.board.pub.offers.get? ref with
  | none => none
  | some o =>
    if o.status ≠ .open then none
    else match readbackUpdate host.py o statuses with
      | .error _ => none
      | .ok r => k.emit tMs .guard causes (.readbackUpdated r) []

/-- What follows a decision: the status of a decided card, or a decided mandate's epoch. -/
def afterDecision (post : ApprovalPost) : List Task :=
  match post.subject with
  | .approval => [.move .approvalDecided]
  | .mandate => .bump :: if post.decision = .granted then [.move .mandateGranted] else []

/-- `Authority.decide`. -/
def decidePost (k : Kernel) (tMs : Nat) (causes : List Nat) (post : ApprovalPost)
    (by_ : Approver) : Option Kernel :=
  match decide k.bb post by_ with
  | .error (.denied reason) => k.emit tMs .kernel causes (.actionDenied "approval.post" reason) []
  | .error (.raised _) => none
  | .ok decided =>
    k.emit tMs by_.actor causes (.approvalPost post) (.emit .kernel decided :: afterDecision post)

/-- `Speaker.verbatim` on the floor: the line is released, revoked, or waits on. -/
def takeFloor (host : Host) (k : Kernel) (tMs : Nat) (i : Nat) : Option Kernel :=
  match k.floor, k.lines[i]? with
  | none, some q =>
    let left := k.lines.eraseIdx i
    match k.revalidated host q with
    | .wait users => some { k with lines := k.lines.set i { q with users := some users } }
    | .revoke reason =>
      { k with lines := left }.emit tMs .kernel [q.seq] (.speakRevoked .cp reason q.cap)
        (if q.kind = VerbatimKind.accept then [.move .acceptRevoked] else [])
    | .release =>
      { k with lines := left, floor := some (q, k.log.length) }.emit tMs .kernel [q.seq]
        (.speakReleased .cp q.cap) []
  | _, _ => none

def kindText : VerbatimKind → String
  | .accept => "accept"
  | .decline => "decline"
  | .other => "disclosure"

/-- What follows the delivery of the line on the floor: a barge-in if it was cut, and an accept's
status. -/
def afterDelivery (q : Waiting) (said : String) : List Task :=
  let utt := kindText q.kind ++ "-" ++ toString q.seq
  (if said = q.text then [] else [.emit .kernel (.chanBargeIn .cp utt)]) ++
  (if q.kind = .accept then
    [.move (if said = q.text then .acceptHeard else .acceptTruncated)] else [])

/-- `_deliver` of the line on the floor: `said` is the prefix that was heard. -/
def hearLine (k : Kernel) (tMs : Nat) (said : String) : Option Kernel :=
  match k.floor with
  | none => none
  | some (q, seq) =>
    if said.toList.isPrefixOf q.text.toList then
      { k with floor := none }.emit tMs .kernel [seq]
        (.uttDelivered .cp (kindText q.kind ++ "-" ++ toString q.seq) q.text said
          (said ≠ q.text)) (afterDelivery q said)
    else none

/-- `_expires`: a card still pending at its expiry replans the case. -/
def expireCard (k : Kernel) (seq : Nat) : Option Kernel :=
  match k.desk.auth.timers.find? (·.1 = seq) with
  | none => none
  | some (_, card) =>
    if (k.desk.now : Int) < card.expiresMs ∨ seq ∈ k.fired then none
    else some { k with
      fired := seq :: k.fired
      todo := if k.board.priv.pendingApproval = some card then [.move .approvalExpired] else [] }

def runNext (k : Kernel) (tMs : Nat) (causes : List Nat) : Option Kernel :=
  match k.todo with
  | [] => none
  | .emit actor p :: rest => k.emit tMs actor causes p rest
  | .bump :: rest =>
    k.emit tMs .kernel causes (.authorityEpoch (.next k.board.epoch .mandateDecided)) rest
  | .move trigger :: rest =>
    match nextStatus k.board.pub.status trigger with
    | none => some { k with todo := rest }
    | some status =>
      k.emit tMs .guard causes (.statusChanged ⟨k.board.pub.status, status⟩) rest

def step (host : Host) (k : Kernel) : Act → Option Kernel
  | .tick tMs => k.internal (.tick tMs)
  | .react tMs => k.internal (.react tMs)
  | .deliver => k.internal .deliver
  | .closing => if k.todo.isEmpty then k.internal .close else none
  | .world tMs actor causes p =>
    if p.isHold || k.todo.isEmpty && k.free causes p then k.emit tMs actor causes p k.todo else none
  | .tool tMs causes call => if k.idle then k.tool host tMs causes call else none
  | .readback tMs causes ref statuses =>
    if k.idle then k.readback host tMs causes ref statuses else none
  | .post tMs causes post by_ => if k.idle then k.decidePost tMs causes post by_ else none
  | .floor tMs i => if k.idle then k.takeFloor host tMs i else none
  | .heard tMs said => if k.idle then k.hearLine tMs said else none
  | .openCall tMs causes =>
    if k.idle && !k.opened then
      { k with opened := true }.emit tMs .kernel causes (.chanOpened .cp) [.move .callOpened]
    else none
  | .hangUp => if k.idle then some { k with todo := [.move .hangUp] } else none
  | .expire seq => if k.idle then k.expireCard seq else none
  | .next tMs causes => if k.desk.quiet then k.runNext tMs causes else none

end Kernel

end ProxyLoop

import ProxyLoop.Contract.Events

/-!
# The auditor of approvals

`approval_b` re-derives from a log alone that every released accept rests on a decision of the
user's: from cause ids, event epochs and hashes.
-/

namespace ProxyLoop.Eval

open Lib (Dict)

/-! ## The code -/

/-- The events that `e` cites. -/
def causesOf (log : List Event) (e : Event) : List Event :=
  e.causes.filterMap fun c => log.find? (·.seq = c)

inductive Path
  | approval | mandate
  deriving DecidableEq, Repr

/-- The card, the post and the capability are of one hash and one epoch. -/
def joined (card : ApprovalCard) (post : ApprovalPost) (cap : Capability) : Bool :=
  card.termsHash = post.subjectHash && post.subjectHash = cap.termsHash &&
    card.authorityEpoch = post.authorityEpoch && post.authorityEpoch = cap.epoch

/-- `decided` grants a card that the principal saw, and that binds the capability. -/
def viaApproval (log : List Event) (cap : Capability) (decided : Event) : Bool :=
  match decided.payload with
  | .approvalDecided d =>
    d.decision = .granted && log.any fun c =>
      match c.payload with
      | .approvalRequested card =>
        card.approvalId = d.approvalId && c.seq < decided.seq &&
          (causesOf log decided).any fun p =>
            match p.payload with
            | .approvalPost post => joined card post cap
            | _ => false
      | _ => false
  | _ => false

/-- `decided` is caused by exactly that decision, and bumps its epoch. -/
def isOwnBump (decided b : Event) : Bool :=
  match b.payload with
  | .authorityEpoch bump => b.causes = [decided.seq] && bump.reason = .mandateDecided &&
      bump.new = decided.epoch + 1
  | _ => false

/-- `decided` grants a mandate in the capability's epoch, its own bump counted. -/
def viaMandate (log : List Event) (cap : Capability) (decided : Event) : Bool :=
  match decided.payload with
  | .mandateDecided d =>
    d.decision = .granted && (cap.epoch = decided.epoch ||
      log.any (isOwnBump decided) && cap.epoch = decided.epoch + 1)
  | _ => false

/-- The capabilities authorized, with their events; `none` where a `cap_id` is authorized twice. -/
def authorizations (log : List Event) : Dict String (Option (Event × Capability)) :=
  log.foldl (fun caps e =>
    match e.payload with
    | .actionAuthorized a =>
      let id := a.capability.capId
      caps.set id (if (caps.get? id).isSome then none else some (e, a.capability))
    | _ => caps) .empty

def line? : Payload → Option (VerbatimKind × Option String)
  | .speakVerbatim _ kind _ capId _ => some (kind, capId)
  | _ => none

/-- `_chain`: the path an accept's chain holds by, else `none`. -/
def chain (log : List Event) (caps : Dict String (Option (Event × Capability))) (release : Event)
    (capId : Option (Option String)) : Option Path :=
  match capId.bind fun id => caps.get? (id.getD "None") with
  | some (some (authorized, cap)) =>
    if authorized.seq > release.seq then none
    else if release.epoch ≠ cap.epoch || cap.intent ≠ .acceptOffer then none
    else if (causesOf log authorized).any (viaApproval log cap) then some .approval
    else if (causesOf log authorized).any (viaMandate log cap) then some .mandate
    else none
  | _ => none

def isRelease (e : Event) : Bool :=
  match e.payload with
  | .speakReleased .. => true
  | _ => false

/-- The accepts that `e` releases, by their capability: one for each accept line it cites, and a
broken one if it cites no line. -/
def acceptsOf (log : List Event) (e : Event) : List (Event × Option (Option String)) :=
  let said := (causesOf log e).filterMap (line? ·.payload)
  (if said.isEmpty then [(e, none)] else []) ++
    (said.filter (·.1 = .accept)).map fun line => (e, some line.2)

/-- The loop of `approval_b`: a capability released again is a broken accept. -/
def judge (log : List Event) (caps : Dict String (Option (Event × Capability))) :
    List String → List (Event × Option (Option String)) → List (Option Path)
  | _, [] => []
  | released, (e, v) :: rest =>
    match v.join with
    | some id => (if released.contains id then none else chain log caps e v) ::
        judge log caps (id :: released) rest
    | none => chain log caps e v :: judge log caps released rest

structure Verdict where
  held : Bool
  accepts : Nat
  viaApproval : Nat
  viaMandate : Nat
  deriving DecidableEq, Repr

def isRequest (e : Event) : Bool :=
  match e.payload with
  | .approvalRequested _ => true
  | _ => false

/-- `approval_b`; `none` where there is nothing to judge. -/
def approvalB (log : List Event) : Option Verdict :=
  let accepts := (log.filter isRelease).flatMap (acceptsOf log)
  if accepts.isEmpty && !log.any isRequest then none
  else
    let paths := judge log (authorizations log) [] accepts
    some ⟨!paths.contains none, accepts.length, paths.count (some .approval),
      paths.count (some .mandate)⟩

end ProxyLoop.Eval

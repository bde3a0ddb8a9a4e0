import ProxyLoop.Slow.Authority

/-!
# The offers line's hints

Guard's verdicts on an open offer and the one next step they imply, read from the status bar's view.
Nothing is sent: a dry run of `accept_offer` on a board made of the view binds nothing.
-/

namespace ProxyLoop.Hints

open Lib (Dict)

/-! ## What the hints read -/

/-- `SlowView`, less what no hint reads. -/
structure SlowView where
  offers : List OfferPublic
  mandate : Option Mandate
  pendingApproval : Option ApprovalCard
  approvals : List Approval
  status : CaseStatus
  epoch : Nat
  fences : List Fence

def viewSlow (bb : Blackboard) : SlowView where
  offers := bb.pub.offers.values
  mandate := bb.priv.mandate
  pendingApproval := bb.priv.pendingApproval
  approvals := bb.priv.approvals.values
  status := bb.pub.status
  epoch := bb.epoch
  fences := bb.fences

/-- What the bar counts of a revision's read-backs: the asks heard, the slots two replies omitted,
and an ask not answered yet. -/
structure BarReadback where
  asked : Nat
  stuck : List String
  pending : Bool

/-- `Bar`, less what no hint reads: the levers to try, one on its way, the public fact slot a lever
needs, and each revision's read-backs. -/
structure Bar where
  free : List String
  waiting : Bool
  slots : Dict String String
  readbacks : Dict (String × Nat) BarReadback

def Bar.stuck (more : Bar) (o : OfferPublic) : Bool :=
  (more.readbacks.get? (o.offerRef, o.revision)).any fun r => r.asked ≠ 0 && !r.stuck.isEmpty

/-! ## Steps and hints -/

inductive Step
  | accept (ref : String)
  | request (ref : String)
  | wait
  | lever (calls : String)
  | stuck
  | asked (ref : String)
  | ask (ref : String)
  deriving DecidableEq

def Step.text : Step → String
  | .accept ref => "accept_offer(" ++ ref ++ ")"
  | .request ref => "request_approval(" ++ ref ++ ")"
  | .wait => "wait for the rep to hear and answer the lever sent (levers line)"
  | .lever calls => "first one lever: " ++ calls ++ "; request_approval only once none is left"
  | .stuck => "read-back stuck (see note)"
  | .asked ref => "read-back asked: accept_offer(" ++ ref ++ ") once confirmed"
  | .ask ref =>
    "guide_fast(ask_readback, [\"offer:" ++ ref ++ "\"]), then accept_offer(" ++ ref ++ ")"

/-- Why another open offer comes first. -/
inductive Why
  | inside | denied | dominates
  deriving DecidableEq

def Why.text : Why → String
  | .inside => "inside the granted mandate"
  | .denied => "no worse on price, term and fees, denied by the user: the after-denial rule applies"
  | .dominates => "no worse on price, term and fees as recorded, better on one"

inductive Hint
  | nothing
  | approved (ref : String)
  | outside (ref : String) (step : Step)
  | inside (step : Option Step)
  | deferred (ref : String) (why : Why) (step : Option Step)
  deriving DecidableEq

def Hint.text : Hint → String
  | .nothing => ""
  | .approved ref => ref ++ " confirmed, approved → " ++ (Step.accept ref).text
  | .outside ref step => ref ++ " confirmed, outside mandate → " ++ step.text
  | .inside step => Why.inside.text ++ " → " ++ (step.map Step.text).getD ""
  | .deferred ref why step =>
    "outside mandate; no step for it now: " ++
      (match why with
        | .denied => ref ++ " " ++ why.text
        | _ => ref ++ " (" ++ why.text ++ ") comes first") ++
      (step.map fun s => " → " ++ s.text).getD ""

def Hint.step : Hint → Option Step
  | .nothing => none
  | .approved ref => some (.accept ref)
  | .outside _ step => some step
  | .inside step | .deferred _ _ step => step

section hints

variable (py : Runtime)

/-- `_free`: the levers to try, as `guide_fast` calls. -/
def freeLevers (more : Bar) : String :=
  String.intercalate " or " (more.free.map fun move =>
    "guide_fast(" ++ move ++
      ((more.slots.get? move).map fun slot => ", [\"" ++ slot ++ "\"]").getD "" ++ ")")

def viewGap (view : SlowView) (nowMs : Nat) (t : Terms) : Option String :=
  mandateGap view.mandate view.epoch nowMs t

/-- `_board`: the view's board as Guard's accept rule reads it; the view holds no capabilities. -/
def viewBoard (view : SlowView) (nowMs : Nat) : Blackboard :=
  let bb : Blackboard := { tMs := nowMs, epoch := view.epoch, fences := view.fences }
  { bb with
    pub := { bb.pub with
      status := view.status
      offers := view.offers.foldl (fun d o => d.set o.offerRef o) .empty }
    priv := { bb.priv with
      mandate := view.mandate
      pendingApproval := view.pendingApproval
      approvals := view.approvals.foldl (fun d a => d.set a.approvalId a) .empty } }

/-- `_CASE`: a dry run binds nothing. -/
def dryCase : CaseRef := ⟨"case", "account", "principal"⟩

def dryRun (view : SlowView) (ref : String) (nowMs : Nat) : Except PyError Bool :=
  match acceptOffer py (viewBoard view nowMs) ref dryCase with
  | .ok _ => .ok true
  | .error (.denied _) => .ok false
  | .error (.raised err) => .error err

/-- `_decided`: the user decided the offer's terms so in this epoch. -/
def viewDecided (view : SlowView) (o : OfferPublic) (d : Decision) : Bool :=
  view.approvals.any fun a =>
    a.decision = d && some a.termsHash = o.termsHash && a.authorityEpoch = view.epoch

/-- `approved`: the user granted the offer's terms in this epoch, and the accept rule passes. -/
def approved (view : SlowView) (o : OfferPublic) (nowMs : Nat) : Except PyError Bool :=
  if viewDecided view o .granted then dryRun py view o.offerRef nowMs else .ok false

/-- A card or a decision for the offer's terms exists in this epoch. -/
def carded (view : SlowView) (o : OfferPublic) : Bool :=
  (view.pendingApproval.any fun c =>
    some c.termsHash = o.termsHash && c.authorityEpoch = view.epoch) ||
    view.approvals.any fun a => some a.termsHash = o.termsHash && a.authorityEpoch = view.epoch

/-- `approval_hint`: an offer Guard would put on a card, outside the granted mandate, needs the
user's approval: a lever first, then the request; once approved, the accept. -/
def approvalHint (view : SlowView) (o : OfferPublic) (nowMs : Nat) (more : Option Bar) :
    Except PyError Hint :=
  match openOffer py (some o) view.mandate nowMs !view.fences.isEmpty with
  | .error (.raised err) => .error err
  | .error (.denied _) => .ok .nothing
  | .ok (_, terms) =>
    let ofCard := view.pendingApproval.bind fun c => view.offers.find? (·.offerRef = c.offerRef)
    if cardBlocks view.pendingApproval ofCard view.epoch nowMs then .ok .nothing
    else do
      if ← approved py view o nowMs then return .approved o.offerRef
      else if carded view o then return .nothing
      else if viewGap view nowMs terms ≠ some "outside_mandate" then return .nothing
      else match more with
        | none => return .outside o.offerRef (.request o.offerRef)
        | some more =>
          if more.waiting then return .outside o.offerRef .wait
          else if freeLevers more ≠ "" then
            return .outside o.offerRef (.lever (freeLevers more))
          else return .outside o.offerRef (.request o.offerRef)

/-- `_as_recorded`: the terms of the slots recorded so far, each unstated one neutral. -/
def asRecorded (o : OfferPublic) : Except PyError (Option Terms) :=
  let have_ := o.slots.foldl (fun (d : Dict String String) s => d.set s.field s.value) .empty
  let listed := (have_.keys.filter (·.toList.contains ':')).map fieldKind
  let changed := (have_.entries.filter (·.2 = "true")).map fun p => fieldKind p.1
  let fill := [("monthly_price", "0"), ("term_months", "0"), ("expires", "none")] ++
    (if listed.contains "fee" then [] else [("fees_none", "true")]) ++
    if changed.contains "applied_change" then [] else [("changes_none", "true")]
  let extra := (fill.filter fun p => !have_.has p.1).filterMap fun p =>
    ReadbackSlot.make? p.1 p.2 (unitOf p.1) (roleOf p.1)
  offerTerms py { o with slots := o.slots ++ extra }

/-- `_verdict`: the terms Guard's verdicts judge, and the mandate to judge them by: in a revision
still incomplete, a required feature not yet stated is not yet missing. -/
def verdict (view : SlowView) (o : OfferPublic) :
    Except PyError (Option (Terms × Option Mandate)) := do
  match ← offerTerms py o with
  | some terms => return some (terms, view.mandate)
  | none =>
    match ← asRecorded py o with
    | none => return none
    | some terms =>
      let fields := o.slots.map ReadbackSlot.field
      return some (terms, view.mandate.map fun m => { m with
        requiredFeatures := m.requiredFeatures.filter fun f => fields.contains ("feature:" ++ f)
        decided := m.decided })

def viewOpen (o : OfferPublic) (nowMs : Nat) : Bool :=
  o.status = .open && !expired o.expiresMs nowMs

/-- `_inside`: the monthly price of an offer inside the granted mandate as recorded. -/
def insidePrice (view : SlowView) (b : OfferPublic) (nowMs : Nat) :
    Except PyError (Option Int) := do
  match ← verdict py view b with
  | none => return none
  | some (terms, m) =>
    let priced := b.slots.any (·.field = "monthly_price")
    if !priced || hardViolations terms m ≠ [] then return none
    else if viewGap view nowMs terms = none then return some terms.monthlyPriceMinor
    else return none

/-- `_inside_step`: its read-back, then the accept; or the accept once confirmed, where the accept
rule passes. -/
def insideStep (view : SlowView) (b : OfferPublic) (nowMs : Nat) (more : Bar) :
    Except PyError (Option Step) := do
  if readbackConfirmed b then
    if ← dryRun py view b.offerRef nowMs then return some (.accept b.offerRef) else return none
  else if more.stuck b then return some .stuck
  else if (more.readbacks.get? (b.offerRef, b.revision)).any fun r => r.asked ≠ 0 || r.pending then
    return some (.asked b.offerRef)
  else return some (.ask b.offerRef)

/-- The cheapest of the offers that are inside; the first of the cheapest. -/
def cheapest : List (Int × OfferPublic) → Option (Int × OfferPublic)
  | [] => none
  | p :: rest =>
    match cheapest rest with
    | some q => some (if q.1 < p.1 then q else p)
    | none => some p

/-- `inside_hint`: the cheapest open offer inside the granted mandate, not yet confirmed, names its
own read-back step. -/
def insideHint (view : SlowView) (o : OfferPublic) (nowMs : Nat) (more : Bar) :
    Except PyError Hint := do
  if !viewOpen o nowMs || readbackConfirmed o then return .nothing
  else
    let live := view.offers.filter fun b => viewOpen b nowMs && !viewDecided view b .denied
    let priced ← live.mapM fun b => do return (← insidePrice py view b nowMs).map (·, b)
    match cheapest priced.reduceOption with
    | none => return .nothing
    | some (_, b) =>
      if b.offerRef ≠ o.offerRef then return .nothing
      else return .inside (← insideStep py view o nowMs more)

/-- `defer_hint`: a worse offer's hint names the offer that comes first, and for one inside the
mandate its step. -/
def deferHint (view : SlowView) (b : OfferPublic) (why : Why) (nowMs : Nat) (more : Bar) :
    Except PyError Hint :=
  match why with
  | .denied | .dominates => .ok (.deferred b.offerRef why none)
  | .inside => do return .deferred b.offerRef .inside (← insideStep py view b nowMs more)

end hints

end ProxyLoop.Hints

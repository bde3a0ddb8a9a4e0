import ProxyLoop.Guard.Authorize
import ProxyLoop.Guard.Verify

/-!
# Slow's authority, evidence and close tools

Each calls Guard and returns Guard's effects, or its denial as text.  Models may restrict authority
(revoke, tighten) but never grant it: a proposed mandate grants nothing until it is decided.
-/

namespace ProxyLoop

/-- The class of a refusal. -/
inductive Code
  | invalidArgs | unknownTool | actShape
  deriving DecidableEq, Repr

/-- A tool's outcome: the text Slow reads and the effects to emit. -/
structure Result where
  ok : Bool
  text : String
  effects : List Payload
  code : Option Code

def done (text : String) (effects : List Payload) : Result := ⟨true, text, effects, none⟩

def no (text : String) (effects : List Payload := []) : Result := ⟨false, text, effects, none⟩

def refused (code : Code) (text : String) : Result := ⟨false, text, [], some code⟩

/-- An exception the tool runner catches; what follows in the text is the exception's. -/
def invalidArgs : Result := refused .invalidArgs "invalid arguments: "

@[simp] theorem done_effects {text : String} {effects : List Payload} :
    (done text effects).effects = effects := rfl

@[simp] theorem no_effects {text : String} {effects : List Payload} :
    (no text effects).effects = effects := rfl

@[simp] theorem refused_effects {code : Code} {text : String} : (refused code text).effects = [] := rfl

@[simp] theorem invalidArgs_effects : invalidArgs.effects = [] := rfl

/-- What Slow can do about a denial. -/
def hint (reason : String) : String :=
  match reason with
  | "fence_raised" => " (a new user message or rep turn is not reflected in your view " ++
      "yet: wait for the next step)"
  | "readback_not_confirmed" => " (every required slot must be confirmed: record the " ++
      "offer as read back, then guide_fast(ask_readback, [offer:<ref>]) for that " ++
      "revision; the rep's next read-back confirms it)"
  | "outside_mandate" => " (request_approval(offer_ref) and wait for the user)"
  | "not_authorized" => " (no granted mandate covers it and no approval is granted: " ++
      "request_approval(offer_ref))"
  | "approval_denied" => " (the user denied these terms: never accept them)"
  | "approval_pending" => " (a card is pending: wait for the user's decision)"
  | "not_in_call" => " (an accept is authorised only while the case is IN_CALL)"
  | _ => ""

/-- `denied`: a refusal as text, counted as an `action.denied`. -/
def denied (intent : String) : Refusal → Result
  | .denied reason => no ("denied: " ++ reason ++ hint reason) [.actionDenied intent reason]
  | .raised _ => invalidArgs

/-- `moved`: the status change of the trigger, if it moves the case. -/
def moved (bb : Blackboard) (trigger : Trigger) : List Payload :=
  (statusChange bb trigger).toList.map .statusChanged

/-- `APPROVAL_NOTICE`: FastU voices the card. -/
def approvalNotice (msgId approvalId : String) : SlowToFast where
  msgId := msgId
  lane := .user
  type := .approvalNotice
  approvalId := some approvalId
  laneRules := by simp [s2fRules]

section tools

variable (py : Runtime)

def requestApprovalTool (bb : Blackboard) (ref : String) (case_ : CaseRef) (msgId : String) :
    Result :=
  match requestApproval py bb ref case_ with
  | .error r => denied "request_approval" r
  | .ok card =>
    done ("card " ++ card.approvalId ++ " sent to the user: wait for [APPROVAL] " ++ card.approvalId)
      (.approvalRequested card :: moved bb .approvalRequested ++
        [.s2fMsg (approvalNotice msgId card.approvalId)])

def acceptOfferTool (bb : Blackboard) (ref : String) (case_ : CaseRef) : Result :=
  match acceptOffer py bb ref case_ with
  | .error r => denied "accept_offer" r
  | .ok (cap, text) =>
    done ("accept line queued (" ++ cap.capId ++ "): the phone voice says it once revalidated")
      ([.actionAuthorized ⟨.acceptOffer, cap⟩,
        .speakVerbatim .cp .accept text (some cap.capId) none] ++ moved bb .acceptAuthorized)

def declineOfferTool (bb : Blackboard) (ref : String) : Result :=
  match declineOffer bb ref with
  | .error r => denied "decline_offer" r
  | .ok line => done ("decline line queued for " ++ ref) [line]

/-! ## Mandates -/

def Envelope.isEmpty (b : Envelope) : Bool :=
  b.maxMonthlyPriceMinor.isNone && b.maxTermMonths.isNone && b.maxOneTimeFeesMinor.isNone &&
    b.requiredFeatures.isEmpty && b.forbiddenChanges.isEmpty

def proposed (epoch : Nat) (mid : String) (b : Envelope) (expiresMs : Option Int := none) :
    Payload :=
  .mandateProposed ⟨proposal py epoch mid b expiresMs, rfl, rfl⟩

/-- `propose_mandate`: any envelope is only proposed. -/
def proposeMandate (bb : Blackboard) (envelope : Envelope) (mid : String) : Result :=
  if envelope.isEmpty then
    no ("an envelope needs at least one of max_monthly_price_minor, max_term_months, " ++
      "max_one_time_fees_minor, required_features, forbidden_changes")
  else done ("mandate " ++ mid ++ " proposed: it grants nothing until the user decides it")
    [proposed py bb.epoch mid envelope]

def looser (was v : Option Int) : Bool :=
  match was, v with
  | some w, some v => w < v
  | _, _ => false

def joined (kept more : List String) : List String := sortedStrings (kept ++ more).dedup

/-- The envelope of `m` with the changes: each bound replaced, each list joined. -/
def tightened (m : Mandate) (changes : Envelope) : Envelope where
  maxMonthlyPriceMinor := changes.maxMonthlyPriceMinor <|> m.maxMonthlyPriceMinor
  maxTermMonths := changes.maxTermMonths <|> m.maxTermMonths
  maxOneTimeFeesMinor := changes.maxOneTimeFeesMinor <|> m.maxOneTimeFeesMinor
  requiredFeatures := joined m.requiredFeatures changes.requiredFeatures
  forbiddenChanges := joined m.forbiddenChanges changes.forbiddenChanges

def loosened (m : Mandate) (changes : Envelope) : List String :=
  (if looser m.maxMonthlyPriceMinor changes.maxMonthlyPriceMinor then
    ["max_monthly_price_minor"] else []) ++
  (if looser m.maxTermMonths changes.maxTermMonths then ["max_term_months"] else []) ++
  (if looser m.maxOneTimeFeesMinor changes.maxOneTimeFeesMinor then
    ["max_one_time_fees_minor"] else [])

/-- `tighten_mandate`: a new epoch, and the tighter mandate proposed in it. -/
def tightenMandate (bb : Blackboard) (changes : Envelope) (mid : String) : Result :=
  match bb.priv.mandate with
  | none => no "there is no mandate to tighten"
  | some m =>
    if m.status = .denied || m.status = .revoked then no "there is no mandate to tighten"
    else
      let loose := loosened m changes
      if !loose.isEmpty || changes.isEmpty then
        let why := if loose.isEmpty then "no change" else
          String.intercalate ", " loose ++ " would loosen"
        no ("tighten_mandate only restricts: " ++ why ++ "; propose_mandate asks the user")
          [.actionDenied "tighten_mandate" (if loose.isEmpty then "none" else "loosen")]
      else done ("mandate tightened as " ++ mid ++ ", epoch " ++ toString (bb.epoch + 1) ++
          ": the user must re-grant it")
        [.authorityEpoch (.next bb.epoch .tightenMandate),
          proposed py (bb.epoch + 1) mid (tightened m changes) m.expiresMs]

/-- `revoke`: every grant, card and capability of the old epoch is stale. -/
def revoke (bb : Blackboard) : Result :=
  done ("revoked: epoch " ++ toString (bb.epoch + 1) ++ "; earlier grants and cards are stale")
    [.authorityEpoch (.next bb.epoch .slowRevoke)]

/-! ## Evidence -/

def unitOf (kind : String) : SlotUnit :=
  match kind with
  | "monthly_price" | "fee" | "credit" => .usdMinor
  | "term_months" => .months
  | "expires" => .iso
  | _ => .bool

def roleOf (kind : String) : SlotRole :=
  match kind with
  | "monthly_price" | "term_months" => .recurring
  | "fee" | "fees_none" => .oneTime
  | "credit" => .credit
  | "applied_change" | "changes_none" => .change
  | "expires" => .expiry
  | _ => .feature

/-- One bound term as a slot; money is said in dollars. -/
def ledgerSlot (field value : String) : Option ReadbackSlot := do
  let kind := fieldKind field
  let unit := unitOf kind
  let text ← if unit = .usdMinor then (py.cents value).toOption.map jsonInt else some value
  ReadbackSlot.make? field text unit (roleOf kind)

def byField (a b : String × String) : Prop := a.1 ≤ b.1

instance : DecidableRel byField := fun a b => by unfold byField; infer_instance

/-- The bound terms, with the term's months, by field. -/
def LedgerBinding.fields (b : LedgerBinding) : List (String × String) :=
  ((b.terms.filter (·.1 ≠ "term_months")) ++ [("term_months", b.termMonths)]).insertionSort byField

/-- `_ledger_hash`: the hash of the ledger's bound terms as a revision of `o`; `none` if a value is
unreadable, or completeness is unstated. -/
def ledgerHash (b : LedgerBinding) (o : OfferPublic) : Except PyError (Option String) :=
  match b.fields.mapM fun p => ledgerSlot py p.1 p.2 with
  | none => .ok none
  | some slots => offerTermsHash py { o with slots }

/-- The one released accept, if there is exactly one. -/
def theAccept (bb : Blackboard) : Option Capability :=
  match releasedAccepts bb with
  | [cap] => some cap
  | _ => none

/-- The terms hash of `_evidence`: the ledger's terms as the accepted offer's revision; `none`
without one, or if unreadable. -/
def boundHash (bb : Blackboard) (binding : LedgerBinding) : Except PyError (Option String) :=
  match (theAccept bb).bind fun cap => offerWith bb cap.termsHash with
  | none => .ok none
  | some (_, o) => ledgerHash py binding o

def ledgerEvidence (conf : String) (hash : Option String) : Evidence where
  evidenceId := "ledger:" ++ conf
  kind := .ledger
  confirmationId := conf
  termsHash := hash

/-- The text of `_evidence`; a hash is unreadable where the accept has an offer and there is none. -/
def evidenceText (bb : Blackboard) (conf : String) (hash : Option String) : String :=
  let offer := (theAccept bb).bind fun cap => offerWith bb cap.termsHash
  if offer.isSome && hash.isNone then conf ++ ": evidence unreadable, it binds nothing"
  else if hash.isSome && hash = (theAccept bb).map Capability.termsHash then
    conf ++ " binds the accepted terms"
  else conf ++ " does not bind the accepted terms"

/-- Whether the id is said in `text`, at `text`'s start or later, not inside a longer word;
`inWord`: a letter or digit stands before. -/
def saysFrom (conf : List Char) (inWord : Bool) : List Char → Bool
  | [] => !inWord && conf.isEmpty
  | c :: cs =>
    (!inWord && conf.isPrefixOf (c :: cs) &&
      ((c :: cs).drop conf.length).head?.all (!isAlnum ·)) || saysFrom conf (isAlnum c) cs

def saysId (conf text : String) : Bool := saysFrom conf.toList false text.toList

def ledgerWrite? (events : List Event) (conf : String) : Option LedgerBinding :=
  (events.filterMap fun e => match e.payload with
    | .ledgerWrite c binding => if c = conf then some binding else none
    | _ => none).getLast?

/-- Where the id was said: a rep line Slow cites, no newer than its view, or a cp relay. -/
structure Said where
  cited : Option String
  seen : Option Nat
  relays : List FastToSlow

/-- Why the id was not said there; `none` if it was.  The texts are without the quotes of `repr`. -/
def Said.missing (s : Said) (bb : Blackboard) (events : List Event) (conf : String) :
    Option String :=
  match s.cited with
  | some utt =>
    match (bb.channels.cp.lines.filter (·.uttId = utt)).getLast? with
    | none => some (utt ++ " is no rep line: cite the REP line that said " ++ conf)
    | some line =>
      if line.speaker ≠ .partner then
        some (utt ++ " is no rep line: cite the REP line that said " ++ conf)
      else if conf = "" || !saysId conf line.text then
        some ("rep line " ++ utt ++ " does not say " ++ conf ++ ": cite it as said")
      else
        let at_ := (events.filterMap fun e => match e.payload with
          | .uttFinal _ _ u _ => if u = utt then some e.seq else none
          | _ => none).getLast?
        if s.seen.any fun seen => at_.any (seen < ·) then
          some ("rep line " ++ utt ++ " came after your view: cite a line shown")
        else none
  | none =>
    let told := s.relays.any fun r => r.lane = .cp && conf ≠ "" &&
      (saysId conf r.text || r.facts.any fun f => saysId conf f.2)
    if told then none
    else some ("no such confirmation relayed: " ++ conf ++ "; cite the id the rep said")

/-- `check_account`: the binding of an id the rep said, recorded once as evidence; while the case
is COMMITTED that evidence moves it to EVIDENCE_PENDING, whenever it was recorded. -/
def checkAccount (bb : Blackboard) (events : List Event) (conf : String) (said : Said) :
    Except PyError Result :=
  match said.missing bb events conf with
  | some why => .ok (no why)
  | none =>
    match ledgerWrite? events conf with
    | none => .ok (no ("the account shows no confirmation " ++ conf))
    | some binding =>
      if bb.evidence.any (·.evidenceId = "ledger:" ++ conf) then
        .ok (done (conf ++ " is already recorded") (moved bb .evidenceRecorded))
      else do
        let hash ← boundHash py bb binding
        return done (evidenceText bb conf hash)
          (.evidenceRecorded (ledgerEvidence conf hash) :: moved bb .evidenceRecorded)

/-! ## Closing -/

inductive Outcome
  | completed | noDeal | escalate | infoOnly
  deriving DecidableEq, Repr

def Outcome.text : Outcome → String
  | .completed => "completed"
  | .noDeal => "no_deal"
  | .escalate => "escalate"
  | .infoOnly => "info_only"

/-- `finish` with an outcome no verifier decides. -/
def close (bb : Blackboard) (outcome : Outcome) (trigger : Trigger) : Result :=
  match statusChange bb trigger with
  | none => no ("finish(" ++ outcome.text ++ ") is not possible while the case is " ++
      bb.pub.status.text)
  | some change => done "case closed" [.statusChanged change]

def finishCompleted (bb : Blackboard) : Except PyError Result :=
  match statusChange bb .completionFail with
  | none =>
    .ok (no ("finish(completed) needs EVIDENCE_PENDING; the case is " ++ bb.pub.status.text))
  | some fail => do
    let d ← verifyCompletion py bb
    if d.verdict = .fail then
      return no ("not verified: " ++ String.intercalate ", " d.reasons ++
        "; the case needs a replan") [.completionDecided d, .statusChanged fail]
    else return done "verified complete" (.completionDecided d :: moved bb .completionOk)

def finishNoDeal (bb : Blackboard) (heard : Heard) : Except PyError Result :=
  match statusChange bb .noDealVerified with
  | none => .ok (no ("finish(no_deal) needs IN_CALL; the case is " ++ bb.pub.status.text))
  | some _ => do
    let d ← verifyNoDeal py bb heard
    if d.verdict = .fail then
      return no ("no deal not verified: " ++ String.intercalate ", " d.reasons)
    else return done "verified no deal" (.completionDecided d :: moved bb .noDealVerified)

/-- `finish`: `completed` and `no_deal` go through the verifiers; `escalate` while COMMITTED waits
for the rep's answer, and is refused once that carries a confirmation id. -/
def finish (bb : Blackboard) (outcome : Outcome) (heard : Heard) : Except PyError Result :=
  match outcome with
  | .completed => finishCompleted py bb
  | .noDeal => finishNoDeal py bb heard
  | .escalate =>
    if bb.pub.status = .committed && !heard.answered then
      .ok (no ("finish(escalate) is refused: the rep has not answered the accept " ++
        "yet; wait for its reply (a confirmation id: check_account it; a " ++
        "refusal: tell_user, then finish(escalate))"))
    else
      let said := heard.confirmed.getD ""
      if bb.pub.status = .committed && said ≠ "" then
        .ok (no ("finish(escalate) is refused: the rep's line " ++ said ++ " since the " ++
          "accept carries a confirmation id; check_account it (citing that " ++
          "line), then finish(completed) once it binds the accepted terms"))
      else .ok (close bb .escalate .escalate)
  | .infoOnly => .ok (close bb .infoOnly .infoOnly)

end tools

end ProxyLoop

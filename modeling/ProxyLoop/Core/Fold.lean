import ProxyLoop.Contract.Events
import ProxyLoop.Guard.Capability
import ProxyLoop.Guard.Status

/-!
# The fold

The blackboard is a pure fold of the log.  Every registered type has a reducer, is recorded only,
or belongs to the world.  The authority reducers join each event to what it decides or uses (a
decision to its card or proposal, a line or a release to its capability), so that the bus never
writes one that does not join.
-/

namespace ProxyLoop

open Lib (Dict)

/-! ## Rejections -/

/-- Why an event is rejected: a reducer's own error, or a record that fails its validation. -/
inductive FoldError
  | value (msg : String)
  | validation (model : String)
  deriving DecidableEq, Repr

def require (c : Prop) [Decidable c] (msg : String) : Except FoldError Unit :=
  if c then .ok () else .error (.value msg)

def validated (c : Prop) [Decidable c] (model : String) : Except FoldError Unit :=
  if c then .ok () else .error (.validation model)

def fetch {α : Type} (o : Option α) (msg : String) : Except FoldError α :=
  match o with
  | some a => .ok a
  | none => .error (.value msg)

section peel

variable {α β : Type}

@[simp] theorem require_bind {c : Prop} [Decidable c] {msg : String}
    {f : Unit → Except FoldError β} {r : β} :
    (require c msg >>= f) = .ok r ↔ c ∧ f () = .ok r := by
  unfold require
  split <;> simp_all [bind, Except.bind]

@[simp] theorem validated_bind {c : Prop} [Decidable c] {model : String}
    {f : Unit → Except FoldError β} {r : β} :
    (validated c model >>= f) = .ok r ↔ c ∧ f () = .ok r := by
  unfold validated
  split <;> simp_all [bind, Except.bind]

@[simp] theorem fetch_bind {o : Option α} {msg : String} {f : α → Except FoldError β} {r : β} :
    (fetch o msg >>= f) = .ok r ↔ ∃ a, o = some a ∧ f a = .ok r := by
  cases o <;> simp [fetch, bind, Except.bind]

@[simp] theorem pure_eq_ok {a b : β} : (pure a : Except FoldError β) = .ok b ↔ a = b := by
  simp [pure, Except.pure]

end peel

/-! ## Conversation reducers -/

def appendLine (bb : Blackboard) (lane : Lane) (line : Line) : Blackboard :=
  let channel := bb.channels.get lane
  { bb with channels := bb.channels.set lane { channel with lines := channel.lines ++ [line] } }

/-- The utterances the other side of `lane` said. -/
def partnerUtts (bb : Blackboard) (lane : Lane) : List String :=
  ((bb.channels.get lane).lines.filter (·.speaker = .partner)).map Line.uttId

def f2s (bb : Blackboard) (msg : FastToSlow) : Blackboard :=
  { bb with f2sPending := bb.f2sPending ++ [msg] }

/-- The newest guide alone is kept. -/
def s2f (bb : Blackboard) (msg : SlowToFast) : Blackboard :=
  let pending := bb.s2fPending.set msg.lane ((bb.s2fPending.get? msg.lane).getD [] ++ [msg])
  let guides := (bb.pub.guidanceCp ++ msg.guide.toList).getLast?.toList
  { bb with s2fPending := pending, pub := { bb.pub with guidanceCp := guides } }

def s2fVoiced (bb : Blackboard) (msgId : String) : Blackboard :=
  { bb with s2fPending := bb.s2fPending.mapValues (·.filter (·.msgId ≠ msgId)) }

def privateFact (bb : Blackboard) (key value : String) (sourceRef : Option String) :
    Except FoldError Blackboard := do
  validated (factKey key = true) "Fact"
  return { bb with priv := { bb.priv with
    caseFacts := bb.priv.caseFacts.set key { key, value, sourceRef } } }

def publicFact (bb : Blackboard) (key value : String) (source : FactSource)
    (sourceRef : Option String) : Except FoldError Blackboard := do
  let ref := sourceRef.getD "None"
  require (source = .cpUtt → sourceRef.any (partnerUtts bb .cp).contains = true)
    s!"public fact {key}: {ref} is no rep line"
  require (source = .shareable → sourceRef.any (partnerUtts bb .user).contains = true)
    s!"public fact {key}: {ref} is no user msg"
  validated (factKey key = true ∧ value.length ≤ maxFactValue ∧ source ≠ .user ∧
    sourceRef.isSome = true) "PublicFact"
  return { bb with pub := { bb.pub with
    facts := bb.pub.facts.set key { key, value, source, sourceRef := ref } } }

def hold (bb : Blackboard) (e : Event) (reason : Option HoldReason) : Blackboard :=
  { bb with pub := { bb.pub with cpHold := reason.map fun r => ⟨r, e.tMs⟩ } }

def strike (bb : Blackboard) : Blackboard :=
  { bb with channels := { bb.channels with
    cp := { bb.channels.cp with strikes := bb.channels.cp.strikes + 1 } } }

def summary (bb : Blackboard) (scope : FactScope) (text : String) :
    Except FoldError Blackboard :=
  match scope with
  | .publicly => do
    validated (text.length ≤ maxPublicText) "PublicState"
    return { bb with pub := { bb.pub with summary := text } }
  | .privately => do
    validated (text.length ≤ maxPrivateSummary) "PrivateState"
    return { bb with priv := { bb.priv with summary := text } }

/-! ## Offer reducers -/

def withOffer (bb : Blackboard) (ref : String) (offer : OfferPublic) : Blackboard :=
  { bb with pub := { bb.pub with offers := bb.pub.offers.set ref offer } }

/-- A new revision: its slots start `unknown` and its terms unbound. -/
def newRevision (ref : String) (revision : Nat) (slots : List ReadbackSlot)
    (expiresMs : Option Int) : OfferPublic where
  offerRef := ref
  revision := revision
  slots := slots.map (·.withStatus .unknown)
  expiresMs := expiresMs

def offerRecorded (bb : Blackboard) (ref : String) (revision : Nat) (slots : List ReadbackSlot)
    (expiresMs : Option Int) : Except FoldError Blackboard := do
  require (∀ prev, bb.pub.offers.get? ref = some prev → prev.revision < revision)
    s!"offer {ref}: revision {revision} is not new"
  let offer := newRevision ref revision slots expiresMs
  let bb' := withOffer bb ref offer
  validated (offer.valid = true) "OfferPublic"
  validated (bb'.pub.offers.size ≤ maxOffers) "PublicState"
  return bb'

/-- The offer with its slots' statuses and its terms hash from a read-back. -/
def OfferPublic.readBack (o : OfferPublic) (r : Readback) : OfferPublic :=
  { o with
    slots := o.slots.map fun s => s.withStatus ((r.slotStatuses.get? s.field).getD s.status)
    termsHash := r.termsHash }

/-- Whether the statuses name exactly the offer's fields. -/
def sameFields (o : OfferPublic) (r : Readback) : Bool :=
  (o.slots.all fun s => r.slotStatuses.keys.contains s.field) &&
    r.slotStatuses.keys.all fun f => (o.slots.map ReadbackSlot.field).contains f

def readback (bb : Blackboard) (r : Readback) : Except FoldError Blackboard := do
  let msg := s!"readback for {r.offerRef} r{r.revision}: not the offer"
  let offer ← fetch (bb.pub.offers.get? r.offerRef) msg
  require (offer.revision = r.revision ∧ sameFields offer r = true) msg
  return withOffer bb r.offerRef (offer.readBack r)

/-! ## Authority reducers -/

def fence (bb : Blackboard) (e : Event) (op : FenceOp) (fenceId uttId : String) : Blackboard :=
  { bb with fences := match op with
    | .raised => bb.fences ++ [⟨fenceId, uttId, e.seq⟩]
    | .cleared => bb.fences.filter (·.fenceId ≠ fenceId) }

def withMandate (bb : Blackboard) (m : Mandate) : Blackboard :=
  { bb with priv := { bb.priv with mandate := some m } }

/-- The mandate after a bump: one decided in this epoch carries the new one. -/
def bumpedMandate (bb : Blackboard) (bump : EpochBump) : Option Mandate :=
  bb.priv.mandate.map fun m =>
    if bump.reason = .mandateDecided ∧ m.status ≠ .proposed ∧ m.epoch = bb.epoch then
      m.withEpoch bump.new
    else m

def epochBump (bb : Blackboard) (bump : EpochBump) : Except FoldError Blackboard := do
  require (bb.epoch < bump.new) s!"epoch {bump.new} does not follow {bb.epoch}"
  return { bb with epoch := bump.new, priv := { bb.priv with mandate := bumpedMandate bb bump } }

/-- How many released accepts each verified status needs. -/
def verifiedReleases : CaseStatus → Option Nat
  | .verifiedComplete => some 1
  | .verifiedNoDeal => some 0
  | _ => none

def statusChanged (bb : Blackboard) (change : StatusChanged) : Except FoldError Blackboard := do
  let was := change.previous.text
  require (change.previous = bb.pub.status)
    s!"status.changed from {was}, but the case is {bb.pub.status.text}"
  require (isEdge change.previous change.status = true ∨
      change.status = .abandoned ∧ terminal change.previous = false)
    s!"{was} -> {change.status.text} is not a status transition"
  require (∀ n, verifiedReleases change.status = some n →
      (∃ d, bb.completion = some d ∧ d.verdict = .ok) ∧
        bb.capabilities.count isReleasedAccept = n)
    s!"{change.status.text} needs a completion.decided(ok) of its kind"
  return { bb with pub := { bb.pub with status := change.status } }

def mandateProposed (bb : Blackboard) (p : MandateProposal) : Except FoldError Blackboard := do
  require (p.mandate.epoch = bb.epoch)
    s!"mandate {p.mandate.mandateId}: epoch {p.mandate.epoch}, not {bb.epoch}"
  return withMandate bb p.mandate

def mandateDecided (bb : Blackboard) (d : MandateDecided) : Except FoldError Blackboard := do
  let msg := s!"mandate.decided {d.mandateId}: no such proposed mandate"
  let m ← fetch bb.priv.mandate msg
  require (m.mandateId = d.mandateId ∧ m.mandateHash = d.mandateHash ∧ m.status = .proposed ∧
    m.epoch = bb.epoch) msg
  return withMandate bb (m.decide d.decision d.by_)

def PostSubject.text : PostSubject → String
  | .approval => "approval"
  | .mandate => "mandate"

/-- What a post must bind to: the pending card's or proposed mandate's id, hash and epoch. -/
def postSubject (bb : Blackboard) : PostSubject → Option (String × String × Nat)
  | .approval => bb.priv.pendingApproval.map fun c => (c.approvalId, c.termsHash, c.authorityEpoch)
  | .mandate => (bb.priv.mandate.filter (·.status = .proposed)).map fun m =>
      (m.mandateId, m.mandateHash, m.epoch)

def posted (bb : Blackboard) (p : ApprovalPost) : Except FoldError Blackboard := do
  require (postSubject bb p.subject = some (p.subjectId, p.subjectHash, bb.epoch) ∧
    p.authorityEpoch = bb.epoch)
    s!"approval.post {p.subjectId}: not the pending {p.subject.text}"
  return bb

def approvalRequested (bb : Blackboard) (card : ApprovalCard) : Except FoldError Blackboard := do
  validated (card.readbackText.length ≤ maxReadbackText) "ApprovalCard"
  require (isCurrent card (bb.pub.offers.get? card.offerRef) = true)
    s!"card {card.approvalId}: not the recorded offer"
  require (card.authorityEpoch = bb.epoch)
    s!"card {card.approvalId}: not minted in epoch {bb.epoch}"
  return { bb with priv := { bb.priv with pendingApproval := some card } }

/-- The record of a decision: it keeps the card's terms, epoch and window. -/
def approvalOf (card : ApprovalCard) (d : ApprovalDecided) : Approval where
  approvalId := d.approvalId
  decision := d.decision
  by_ := d.by_
  termsHash := card.termsHash
  authorityEpoch := card.authorityEpoch
  expiresMs := some card.expiresMs

def approvalDecided (bb : Blackboard) (e : Event) (d : ApprovalDecided) :
    Except FoldError Blackboard := do
  let msg := s!"approval.decided {d.approvalId}: no such pending card"
  let card ← fetch bb.priv.pendingApproval msg
  require (card.approvalId = d.approvalId) msg
  require (isCurrent card (bb.pub.offers.get? card.offerRef) = true ∧
      card.authorityEpoch = bb.epoch ∧ (e.tMs : Int) < card.expiresMs)
    s!"card {d.approvalId} is superseded, stale or expired"
  return { bb with priv := { bb.priv with
    pendingApproval := none
    approvals := bb.priv.approvals.set d.approvalId (approvalOf card d) } }

def authorized (bb : Blackboard) (e : Event) (a : ActionAuthorized) :
    Except FoldError Blackboard := do
  let cap := a.capability
  let id := cap.capId
  require (cap.intent = a.intent ∧ cap.epoch = bb.epoch ∧ cap.consumed = false ∧
      bb.capabilities.get? id = none)
    s!"capability {id}: not a new one of this epoch"
  require ((e.tMs : Int) < cap.expiresMs) s!"capability {id}: expired when minted"
  require (a.intent = .acceptOffer → releasedAccept bb (some cap.termsHash) = false)
    s!"capability {id}: an accept was already released"
  require (a.intent = .acceptOffer → acceptInFlight bb = false)
    s!"capability {id}: another accept is in flight"
  let ref := (offerWith bb cap.termsHash).map Prod.fst
  require (a.intent = .acceptOffer → ref.isSome = true)
    s!"capability {id}: no offer has these terms"
  let auth : Authorization := ⟨a.intent, ref, some cap.termsHash, id, cap.epoch⟩
  return { bb with
    authorizations := bb.authorizations ++ [auth]
    capabilities := bb.capabilities.set id cap }

/-- `_live_cap`: the named capability, if it is there and unused. -/
def liveCap (bb : Blackboard) (type : String) (capId : Option String) :
    Except FoldError Capability := do
  let id := capId.getD "None"
  let msg := s!"{type}: capability {id} is unknown or used"
  let cap ← fetch (bb.capabilities.get? id) msg
  require (cap.consumed = false) msg
  return cap

def verbatim (bb : Blackboard) (kind : VerbatimKind) (capId offerRef : Option String) :
    Except FoldError Blackboard :=
  match kind with
  | .accept => do
    let _ ← liveCap bb "speak.verbatim" capId
    return bb
  | .decline => do
    let ref := offerRef.getD "None"
    let offer ← fetch (bb.pub.offers.get? ref) s!"decline of unknown offer {ref}"
    return withOffer bb ref { offer with status := .declined }
  | .other => return bb

def consume (bb : Blackboard) (cap : Capability) : Blackboard :=
  { bb with capabilities := bb.capabilities.set cap.capId { cap with consumed := true } }

/-- A replayed log never releases under a fence, at a stale epoch, or for changed or closed
terms. -/
def released (bb : Blackboard) (e : Event) (capId : Option String) :
    Except FoldError Blackboard :=
  match capId with
  | none => return bb
  | some id => do
    let live ← liveCap bb "speak.released" (some id)
    let cap ← fetch (bb.capabilities.get? live.capId) live.capId
    let auth ← fetch (bb.authorizations.find? (·.capId = cap.capId)) cap.capId
    let msg := s!"release of {cap.capId}: stale epoch, fence or closed offer"
    let offer ← fetch (authorizedOffer bb (some auth)) msg
    require (cap.epoch = bb.epoch ∧ bb.fences = [] ∧ offer.status = .open) msg
    require (offer.termsHash = some cap.termsHash) s!"release of {cap.capId}: the terms changed"
    require ((e.tMs : Int) < cap.expiresMs) s!"release of {cap.capId}: expired"
    require (cap.intent = .acceptOffer → releasedAccept bb (some cap.termsHash) = false)
      s!"release of {cap.capId}: an accept was already released"
    return consume bb cap

def revoked (bb : Blackboard) (capId : Option String) : Except FoldError Blackboard :=
  match capId with
  | none => return bb
  | some id => do
    let dead ← liveCap bb "speak.revoked" (some id)
    return { bb with capabilities := bb.capabilities.erase dead.capId }

/-! ## Apply and fold -/

/-- The reducer of the event's type; a type without one changes nothing. -/
def reduce (bb : Blackboard) (e : Event) : Except FoldError Blackboard :=
  match e.payload with
  | .userMsg text => .ok (appendLine bb .user ⟨e.eventId, .partner, text⟩)
  | .uttFinal lane speaker uttId text => .ok (appendLine bb lane ⟨uttId, speaker, text⟩)
  | .uttDelivered lane uttId _ textHeard _ =>
    .ok (if textHeard = "" then bb else appendLine bb lane ⟨uttId, .agent, textHeard⟩)
  | .f2sMsg msg => .ok (f2s bb msg)
  | .s2fMsg msg => .ok (s2f bb msg)
  | .s2fVoiced msgId _ => .ok (s2fVoiced bb msgId)
  | .factRecorded .privately key value _ ref => privateFact bb key value ref
  | .factRecorded .publicly key value source ref => publicFact bb key value source ref
  | .chanHold reason => .ok (hold bb e reason)
  | .chanStrike => .ok (strike bb)
  | .summaryUpdated scope text => summary bb scope text
  | .offerRecorded ref revision slots expiresMs => offerRecorded bb ref revision slots expiresMs
  | .readbackUpdated r => readback bb r
  | .authorityFence op fenceId uttId => .ok (fence bb e op fenceId uttId)
  | .authorityEpoch bump => epochBump bb bump
  | .statusChanged change => statusChanged bb change
  | .completionDecided d => .ok { bb with completion := some d }
  | .approvalPost p => posted bb p
  | .mandateProposed p => mandateProposed bb p
  | .mandateDecided d => mandateDecided bb d
  | .approvalRequested card => approvalRequested bb card
  | .approvalDecided d => approvalDecided bb e d
  | .actionAuthorized a => authorized bb e a
  | .speakVerbatim _ kind _ capId offerRef => verbatim bb kind capId offerRef
  | .speakReleased _ capId => released bb e capId
  | .speakRevoked _ _ capId => revoked bb capId
  | .evidenceRecorded evidence => .ok { bb with evidence := bb.evidence ++ [evidence] }
  | _ => .ok bb

def stamp (bb : Blackboard) (e : Event) : Blackboard := { bb with seq := e.seq, tMs := e.tMs }

def apply (bb : Blackboard) (e : Event) : Except FoldError Blackboard :=
  (reduce bb e).map (stamp · e)

def fold (events : List Event) (bb : Blackboard := {}) : Except FoldError Blackboard :=
  events.foldlM apply bb

theorem apply_eq_ok {bb bb' : Blackboard} {e : Event} :
    apply bb e = .ok bb' ↔ ∃ b, reduce bb e = .ok b ∧ bb' = stamp b e := by
  unfold apply
  cases reduce bb e <;> simp [Except.map, eq_comm]

theorem fold_snoc {events : List Event} {e : Event} {bb bb' : Blackboard} :
    fold (events ++ [e]) bb = .ok bb' ↔
      ∃ b, fold events bb = .ok b ∧ apply b e = .ok bb' := by
  unfold fold
  rw [List.foldlM_append]
  cases List.foldlM apply bb events with
  | error err => simp [bind, Except.bind]
  | ok b => cases h : apply b e <;> simp [List.foldlM, bind, Except.bind, pure, Except.pure, h]

theorem fold_append {events more : List Event} {bb bb' : Blackboard} :
    fold (events ++ more) bb = .ok bb' ↔ ∃ b, fold events bb = .ok b ∧ fold more b = .ok bb' := by
  unfold fold
  rw [List.foldlM_append]
  cases List.foldlM apply bb events <;> simp [bind, Except.bind]

theorem fold_cons {e : Event} {events : List Event} {bb bb' : Blackboard} :
    fold (e :: events) bb = .ok bb' ↔ ∃ b, apply bb e = .ok b ∧ fold events b = .ok bb' := by
  unfold fold
  rw [List.foldlM_cons]
  cases apply bb e <;> simp [bind, Except.bind]

/-- What holds of a board and is kept by each of the events holds after them. -/
theorem fold_invariant_mem {I : Blackboard → Prop} {events : List Event} {bb bb' : Blackboard}
    (h : fold events bb = .ok bb') (start : I bb)
    (kept : ∀ {b e b'}, e ∈ events → I b → apply b e = .ok b' → I b') : I bb' := by
  induction events generalizing bb with
  | nil => cases h; exact start
  | cons e events ih =>
    obtain ⟨b, hb, h⟩ := fold_cons.mp h
    exact ih h (kept (List.mem_cons_self ..) start hb) fun he => kept (List.mem_cons_of_mem _ he)

/-- What is kept by every accepted event holds after any accepted events. -/
theorem fold_invariant {I : Blackboard → Prop} {events : List Event} {bb bb' : Blackboard}
    (h : fold events bb = .ok bb') (start : I bb)
    (kept : ∀ {b e b'}, I b → apply b e = .ok b' → I b') : I bb' :=
  fold_invariant_mem h start fun _ => kept

end ProxyLoop

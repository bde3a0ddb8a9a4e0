import ProxyLoop.Core.Fold

/-!
# What one event does to the board

`Change bb e b` says everything an accepted event can do: its guards and the board it leaves.  Each
invariant of the fold is a case analysis over it, and no proof after this module unfolds a reducer.
-/

namespace ProxyLoop

open Lib (Dict)

/-- The two boards agree on everything authority depends on. -/
structure SameAuthority (bb b : Blackboard) : Prop where
  epoch : b.epoch = bb.epoch
  fences : b.fences = bb.fences
  offers : b.pub.offers = bb.pub.offers
  status : b.pub.status = bb.pub.status
  mandate : b.priv.mandate = bb.priv.mandate
  pendingApproval : b.priv.pendingApproval = bb.priv.pendingApproval
  approvals : b.priv.approvals = bb.priv.approvals
  authorizations : b.authorizations = bb.authorizations
  capabilities : b.capabilities = bb.capabilities
  evidence : b.evidence = bb.evidence
  completion : b.completion = bb.completion

theorem SameAuthority.refl (bb : Blackboard) : SameAuthority bb bb := by
  constructor <;> rfl

theorem SameAuthority.appendLine (bb : Blackboard) (lane : Lane) (line : Line) :
    SameAuthority bb (appendLine bb lane line) := by
  constructor <;> rfl

/-- The payloads whose reducers touch nothing authority depends on. -/
def Payload.isQuiet : Payload → Bool
  | .offerRecorded .. | .readbackUpdated _ | .authorityFence .. | .authorityEpoch _
  | .statusChanged _ | .completionDecided _ | .mandateProposed _ | .mandateDecided _
  | .approvalRequested _ | .approvalDecided _ | .actionAuthorized _ | .evidenceRecorded _
  | .speakVerbatim .. | .speakReleased _ (some _) | .speakRevoked _ _ (some _) => false
  | _ => true

/-- What the accepted event `e` does to `bb`. -/
inductive Change (bb : Blackboard) (e : Event) : Blackboard → Prop
  | quiet {b : Blackboard} (hp : e.payload.isQuiet = true) (same : SameAuthority bb b) :
      Change bb e b
  | offer (ref : String) (revision : Nat) (slots : List ReadbackSlot) (expiresMs : Option Int)
      (hp : e.payload = .offerRecorded ref revision slots expiresMs)
      (newer : ∀ prev, bb.pub.offers.get? ref = some prev → prev.revision < revision) :
      Change bb e (withOffer bb ref (newRevision ref revision slots expiresMs))
  | readback (r : Readback) (offer : OfferPublic) (hp : e.payload = .readbackUpdated r)
      (found : bb.pub.offers.get? r.offerRef = some offer) (rev : offer.revision = r.revision) :
      Change bb e (withOffer bb r.offerRef (offer.readBack r))
  | fence (op : FenceOp) (fenceId uttId : String)
      (hp : e.payload = .authorityFence op fenceId uttId) :
      Change bb e (fence bb e op fenceId uttId)
  | epoch (bump : EpochBump) (hp : e.payload = .authorityEpoch bump)
      (forward : bb.epoch < bump.new) :
      Change bb e { bb with
        epoch := bump.new
        priv := { bb.priv with mandate := bumpedMandate bb bump } }
  | status (change : StatusChanged) (hp : e.payload = .statusChanged change)
      (was : change.previous = bb.pub.status)
      (edge : isEdge change.previous change.status = true ∨
        change.status = .abandoned ∧ terminal change.previous = false)
      (verified : ∀ n, verifiedReleases change.status = some n →
        (∃ d, bb.completion = some d ∧ d.verdict = .ok) ∧
          bb.capabilities.count isReleasedAccept = n) :
      Change bb e { bb with pub := { bb.pub with status := change.status } }
  | completion (d : CompletionDecision) (hp : e.payload = .completionDecided d) :
      Change bb e { bb with completion := some d }
  | proposed (p : MandateProposal) (hp : e.payload = .mandateProposed p)
      (epoch : p.mandate.epoch = bb.epoch) :
      Change bb e (withMandate bb p.mandate)
  | mandate (d : MandateDecided) (m : Mandate) (hp : e.payload = .mandateDecided d)
      (found : bb.priv.mandate = some m) (id : m.mandateId = d.mandateId)
      (hash : m.mandateHash = d.mandateHash) (undecided : m.status = .proposed)
      (epoch : m.epoch = bb.epoch) :
      Change bb e (withMandate bb (m.decide d.decision d.by_))
  | requested (card : ApprovalCard) (hp : e.payload = .approvalRequested card)
      (current : isCurrent card (bb.pub.offers.get? card.offerRef) = true)
      (epoch : card.authorityEpoch = bb.epoch) :
      Change bb e { bb with priv := { bb.priv with pendingApproval := some card } }
  | decided (d : ApprovalDecided) (card : ApprovalCard) (hp : e.payload = .approvalDecided d)
      (pending : bb.priv.pendingApproval = some card) (id : card.approvalId = d.approvalId)
      (current : isCurrent card (bb.pub.offers.get? card.offerRef) = true)
      (epoch : card.authorityEpoch = bb.epoch) (live : (e.tMs : Int) < card.expiresMs) :
      Change bb e { bb with priv := { bb.priv with
        pendingApproval := none
        approvals := bb.priv.approvals.set d.approvalId (approvalOf card d) } }
  | minted (a : ActionAuthorized) (hp : e.payload = .actionAuthorized a)
      (intent : a.capability.intent = a.intent) (epoch : a.capability.epoch = bb.epoch)
      (unused : a.capability.consumed = false)
      (fresh : bb.capabilities.get? a.capability.capId = none)
      (live : (e.tMs : Int) < a.capability.expiresMs)
      (once : a.intent = .acceptOffer → releasedAccept bb (some a.capability.termsHash) = false)
      (alone : a.intent = .acceptOffer → acceptInFlight bb = false)
      (bound : a.intent = .acceptOffer →
        ((offerWith bb a.capability.termsHash).map Prod.fst).isSome = true) :
      Change bb e { bb with
        authorizations := bb.authorizations ++ [⟨a.intent,
          (offerWith bb a.capability.termsHash).map Prod.fst, some a.capability.termsHash,
          a.capability.capId, a.capability.epoch⟩]
        capabilities := bb.capabilities.set a.capability.capId a.capability }
  | acceptLine (lane : Lane) (text : String) (capId offerRef : Option String) (cap : Capability)
      (hp : e.payload = .speakVerbatim lane .accept text capId offerRef)
      (found : bb.capabilities.get? (capId.getD "None") = some cap)
      (live : cap.consumed = false) :
      Change bb e bb
  | declineLine (lane : Lane) (text : String) (capId offerRef : Option String)
      (offer : OfferPublic) (hp : e.payload = .speakVerbatim lane .decline text capId offerRef)
      (found : bb.pub.offers.get? (offerRef.getD "None") = some offer) :
      Change bb e (withOffer bb (offerRef.getD "None") { offer with status := .declined })
  | otherLine (lane : Lane) (text : String) (capId offerRef : Option String)
      (hp : e.payload = .speakVerbatim lane .other text capId offerRef) :
      Change bb e bb
  | released (lane : Lane) (id : String) (named cap : Capability) (auth : Authorization)
      (offer : OfferPublic) (hp : e.payload = .speakReleased lane (some id))
      (found : bb.capabilities.get? id = some named) (unused : named.consumed = false)
      (own : bb.capabilities.get? named.capId = some cap)
      (authorized : bb.authorizations.find? (·.capId = cap.capId) = some auth)
      (of : authorizedOffer bb (some auth) = some offer) (epoch : cap.epoch = bb.epoch)
      (unfenced : bb.fences = []) (isOpen : offer.status = .open)
      (terms : offer.termsHash = some cap.termsHash) (live : (e.tMs : Int) < cap.expiresMs)
      (once : cap.intent = .acceptOffer → releasedAccept bb (some cap.termsHash) = false) :
      Change bb e (consume bb cap)
  | revoked (lane : Lane) (reason id : String) (cap : Capability)
      (hp : e.payload = .speakRevoked lane reason (some id))
      (found : bb.capabilities.get? id = some cap) (unused : cap.consumed = false) :
      Change bb e { bb with capabilities := bb.capabilities.erase cap.capId }
  | evidence (x : Evidence) (hp : e.payload = .evidenceRecorded x) :
      Change bb e { bb with evidence := bb.evidence ++ [x] }

/-! ## Every accepted event is a change -/

theorem sameAuthority_privateFact {bb b : Blackboard} {key value : String} {ref : Option String}
    (h : privateFact bb key value ref = .ok b) : SameAuthority bb b := by
  simp only [privateFact, validated_bind, pure_eq_ok] at h
  obtain ⟨_, rfl⟩ := h
  constructor <;> rfl

theorem sameAuthority_publicFact {bb b : Blackboard} {key value : String} {source : FactSource}
    {ref : Option String} (h : publicFact bb key value source ref = .ok b) :
    SameAuthority bb b := by
  simp only [publicFact, require_bind, validated_bind, pure_eq_ok] at h
  obtain ⟨_, _, _, rfl⟩ := h
  constructor <;> rfl

theorem sameAuthority_summary {bb b : Blackboard} {scope : FactScope} {text : String}
    (h : summary bb scope text = .ok b) : SameAuthority bb b := by
  cases scope <;>
  · simp only [summary, validated_bind, pure_eq_ok] at h
    obtain ⟨_, rfl⟩ := h
    constructor <;> rfl

theorem liveCap_bind {bb : Blackboard} {type : String} {capId : Option String} {β : Type}
    {f : Capability → Except FoldError β} {r : β} :
    (liveCap bb type capId >>= f) = .ok r ↔
      ∃ cap, bb.capabilities.get? (capId.getD "None") = some cap ∧ cap.consumed = false ∧
        f cap = .ok r := by
  unfold liveCap
  cases h : bb.capabilities.get? (capId.getD "None") with
  | none => simp [fetch, bind, Except.bind, h]
  | some cap =>
    cases hc : cap.consumed <;>
      simp [fetch, require, bind, Except.bind, pure, Except.pure, h, hc]

theorem change_of_reduce {bb b : Blackboard} {e : Event} (h : reduce bb e = .ok b) :
    Change bb e b := by
  unfold reduce at h
  cases hp : e.payload <;> rw [hp] at h
  case userMsg | uttFinal | f2sMsg | s2fMsg | s2fVoiced | chanHold | chanStrike =>
    cases h
    exact .quiet (by rw [hp]; rfl) (by constructor <;> rfl)
  case uttDelivered =>
    cases h
    refine .quiet (by rw [hp]; rfl) ?_
    split
    · exact .refl bb
    · exact .appendLine ..
  case factRecorded scope _ _ _ _ =>
    cases scope with
    | privately => exact .quiet (by rw [hp]; rfl) (sameAuthority_privateFact h)
    | publicly => exact .quiet (by rw [hp]; rfl) (sameAuthority_publicFact h)
  case summaryUpdated => exact .quiet (by rw [hp]; rfl) (sameAuthority_summary h)
  case offerRecorded =>
    simp only [offerRecorded, require_bind, validated_bind, pure_eq_ok] at h
    obtain ⟨newer, _, _, rfl⟩ := h
    exact .offer _ _ _ _ hp newer
  case readbackUpdated =>
    simp only [readback, fetch_bind, require_bind, pure_eq_ok] at h
    obtain ⟨offer, found, ⟨rev, _⟩, rfl⟩ := h
    exact .readback _ _ hp found rev
  case authorityFence => cases h; exact .fence _ _ _ hp
  case authorityEpoch =>
    simp only [epochBump, require_bind, pure_eq_ok] at h
    obtain ⟨forward, rfl⟩ := h
    exact .epoch _ hp forward
  case statusChanged =>
    simp only [statusChanged, require_bind, pure_eq_ok] at h
    obtain ⟨was, edge, verified, rfl⟩ := h
    exact .status _ hp was edge verified
  case completionDecided => cases h; exact .completion _ hp
  case approvalPost =>
    simp only [posted, require_bind, pure_eq_ok] at h
    obtain ⟨_, rfl⟩ := h
    exact .quiet (by rw [hp]; rfl) (.refl bb)
  case mandateProposed =>
    simp only [mandateProposed, require_bind, pure_eq_ok] at h
    obtain ⟨epoch, rfl⟩ := h
    exact .proposed _ hp epoch
  case mandateDecided =>
    simp only [mandateDecided, fetch_bind, require_bind, pure_eq_ok] at h
    obtain ⟨m, found, ⟨id, hash, undecided, epoch⟩, rfl⟩ := h
    exact .mandate _ m hp found id hash undecided epoch
  case approvalRequested =>
    simp only [approvalRequested, validated_bind, require_bind, pure_eq_ok] at h
    obtain ⟨_, current, epoch, rfl⟩ := h
    exact .requested _ hp current epoch
  case approvalDecided =>
    simp only [approvalDecided, fetch_bind, require_bind, pure_eq_ok] at h
    obtain ⟨card, pending, id, ⟨current, epoch, live⟩, rfl⟩ := h
    exact .decided _ card hp pending id current epoch live
  case actionAuthorized =>
    simp only [authorized, require_bind, pure_eq_ok] at h
    obtain ⟨⟨intent, epoch, unused, fresh⟩, live, once, alone, bound, rfl⟩ := h
    exact .minted _ hp intent epoch unused fresh live once alone bound
  case speakVerbatim lane kind text capId offerRef =>
    cases kind with
    | accept =>
      simp only [verbatim, liveCap_bind, pure_eq_ok] at h
      obtain ⟨cap, found, live, rfl⟩ := h
      exact .acceptLine _ _ _ _ cap hp found live
    | decline =>
      simp only [verbatim, fetch_bind, pure_eq_ok] at h
      obtain ⟨offer, found, rfl⟩ := h
      exact .declineLine _ _ _ _ offer hp found
    | other =>
      cases h
      exact .otherLine _ _ _ _ hp
  case speakReleased lane capId =>
    cases capId with
    | none =>
      cases h
      exact .quiet (by rw [hp]; rfl) (.refl bb)
    | some id =>
      simp only [released, liveCap_bind, fetch_bind, require_bind, pure_eq_ok, Option.getD_some]
        at h
      obtain ⟨named, found, unused, cap, own, auth, authorized, offer, of,
        ⟨epoch, unfenced, isOpen⟩, terms, live, once, rfl⟩ := h
      exact .released _ id named cap auth offer hp found unused own authorized of epoch unfenced
        isOpen terms live once
  case speakRevoked lane reason capId =>
    cases capId with
    | none =>
      cases h
      exact .quiet (by rw [hp]; rfl) (.refl bb)
    | some id =>
      simp only [revoked, liveCap_bind, pure_eq_ok, Option.getD_some] at h
      obtain ⟨cap, found, unused, rfl⟩ := h
      exact .revoked _ _ id cap hp found unused
  case evidenceRecorded => cases h; exact .evidence _ hp
  all_goals
    cases h
    exact .quiet (by rw [hp]; rfl) (.refl bb)

/-- The board an accepted event leaves is the changed one, stamped. -/
theorem change_of_apply {bb bb' : Blackboard} {e : Event} (h : apply bb e = .ok bb') :
    ∃ b, Change bb e b ∧ bb' = stamp b e := by
  obtain ⟨b, hb, rfl⟩ := apply_eq_ok.mp h
  exact ⟨b, change_of_reduce hb, rfl⟩

/-! ## What other events leave alone -/

/-- The payloads that mint, use or revoke a capability. -/
def Payload.movesCap : Payload → Bool
  | .actionAuthorized _ | .speakReleased _ (some _) | .speakRevoked _ _ (some _) => true
  | _ => false

def Payload.releasesCap : Payload → Bool
  | .speakReleased _ (some _) => true
  | _ => false

theorem Payload.releasesCap_eq_true {p : Payload} (h : p.releasesCap = true) :
    ∃ lane id, p = .speakReleased lane (some id) := by
  unfold Payload.releasesCap at h
  split at h
  · exact ⟨_, _, rfl⟩
  · cases h

def Payload.movesStatus : Payload → Bool
  | .statusChanged _ => true
  | _ => false

theorem capabilities_of_apply {bb bb' : Blackboard} {e : Event} (h : apply bb e = .ok bb')
    (other : e.payload.movesCap = false) : bb'.capabilities = bb.capabilities := by
  obtain ⟨b, hc, rfl⟩ := change_of_apply h
  cases hc with
  | quiet hp same => exact same.capabilities
  | minted a hp => rw [hp] at other; cases other
  | released lane id named cap auth offer hp => rw [hp] at other; cases other
  | revoked lane reason id cap hp => rw [hp] at other; cases other
  | _ => rfl

theorem status_of_apply {bb bb' : Blackboard} {e : Event} (h : apply bb e = .ok bb')
    (other : e.payload.movesStatus = false) : bb'.pub.status = bb.pub.status := by
  obtain ⟨b, hc, rfl⟩ := change_of_apply h
  cases hc with
  | quiet hp same => exact same.status
  | status c hp => rw [hp] at other; cases other
  | _ => rfl

/-- A status change is from the case's status, and terminal cases stay. -/
theorem status_of_changed {bb bb' : Blackboard} {e : Event} {c : StatusChanged}
    (h : apply bb e = .ok bb') (hp : e.payload = .statusChanged c) :
    c.previous = bb.pub.status ∧ bb'.pub.status = c.status ∧
      terminal bb.pub.status = false := by
  obtain ⟨b, hc, rfl⟩ := change_of_apply h
  cases hc with
  | status c' hp' was edge verified =>
    rw [hp] at hp'
    cases hp'
    refine ⟨was, rfl, ?_⟩
    rw [← was]
    rcases edge with edge | ⟨_, live⟩
    · by_contra ht
      rw [not_isEdge_of_terminal (by simpa using ht)] at edge
      cases edge
    · exact live
  | quiet hq => rw [hp] at hq; cases hq
  | _ => simp_all

theorem sameAuthority_of_apply {bb bb' : Blackboard} {e : Event} (h : apply bb e = .ok bb')
    (quiet : e.payload.isQuiet = true) : SameAuthority bb bb' := by
  obtain ⟨b, hc, rfl⟩ := change_of_apply h
  cases hc with
  | quiet hp same =>
    exact ⟨same.epoch, same.fences, same.offers, same.status, same.mandate, same.pendingApproval,
      same.approvals, same.authorizations, same.capabilities, same.evidence, same.completion⟩
  | acceptLine => constructor <;> rfl
  | otherLine => constructor <;> rfl
  | _ => simp_all [Payload.isQuiet]

theorem tMs_of_apply {bb bb' : Blackboard} {e : Event} (h : apply bb e = .ok bb') :
    bb'.tMs = e.tMs := by
  obtain ⟨b, _, rfl⟩ := apply_eq_ok.mp h
  rfl

theorem SameAuthority.trans {a b c : Blackboard} (h : SameAuthority a b) (h' : SameAuthority b c) :
    SameAuthority a c where
  epoch := h'.epoch.trans h.epoch
  fences := h'.fences.trans h.fences
  offers := h'.offers.trans h.offers
  status := h'.status.trans h.status
  mandate := h'.mandate.trans h.mandate
  pendingApproval := h'.pendingApproval.trans h.pendingApproval
  approvals := h'.approvals.trans h.approvals
  authorizations := h'.authorizations.trans h.authorizations
  capabilities := h'.capabilities.trans h.capabilities
  evidence := h'.evidence.trans h.evidence
  completion := h'.completion.trans h.completion

/-! ## Fences -/

theorem fences_of_apply {bb bb' : Blackboard} {e : Event} (h : apply bb e = .ok bb')
    (other : ∀ op id utt, e.payload ≠ .authorityFence op id utt) : bb'.fences = bb.fences := by
  obtain ⟨b, hc, rfl⟩ := change_of_apply h
  cases hc with
  | quiet hp same => exact same.fences
  | fence op id utt hp => exact absurd hp (other _ _ _)
  | _ => rfl

theorem fences_of_raised {bb bb' : Blackboard} {e : Event} {id utt : String}
    (h : apply bb e = .ok bb') (hp : e.payload = .authorityFence .raised id utt) :
    bb'.fences.map Fence.fenceId = bb.fences.map Fence.fenceId ++ [id] := by
  obtain ⟨b, hr, rfl⟩ := apply_eq_ok.mp h
  simp only [reduce, hp, Except.ok.injEq] at hr
  subst hr
  simp [stamp, fence]

theorem fences_of_cleared {bb bb' : Blackboard} {e : Event} {id utt : String}
    (h : apply bb e = .ok bb') (hp : e.payload = .authorityFence .cleared id utt) :
    bb'.fences.map Fence.fenceId = (bb.fences.map Fence.fenceId).filter (· ≠ id) := by
  obtain ⟨b, hr, rfl⟩ := apply_eq_ok.mp h
  simp only [reduce, hp, Except.ok.injEq] at hr
  subst hr
  simp only [stamp, fence, List.filter_map]
  rfl

end ProxyLoop

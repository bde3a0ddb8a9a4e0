import ProxyLoop.Contract.Events
import ProxyLoop.Guard.Capability
import ProxyLoop.Guard.Readback
import ProxyLoop.Guard.Status

/-!
# The rules

Pure checks over the blackboard that return the Guard events to emit, or a refusal.  Restrictions
are always allowed; grants come only from a UI or sim-approver decision joined to its card or
proposal, bound to terms and epoch.
-/

namespace ProxyLoop

/-- Why a rule gives no events: its `Denial`, or an exception of the runtime. -/
inductive Refusal
  | denied (reason : String)
  | raised (err : PyError)
  deriving DecidableEq, Repr

/-- Task data a rule binds to. -/
structure CaseRef where
  caseId : String
  accountRef : String
  principalRef : String
  deriving DecidableEq

def cardTtlMs : Int := 120000

/-- `_COMMITTED`: after an accept was heard, no second accept is minted. -/
def committedStatus (s : CaseStatus) : Bool := s = .committed || s = .evidencePending

/-- `_OFFER`: the reasons of `openOffer`, in its order. -/
def offerReasons : List String :=
  ["fence_raised", "no_such_offer", "offer_not_open", "offer_expired", "readback_not_confirmed",
    "policy_violation"]

section rules

variable (py : Runtime)

/-! ## An offer that may be accepted -/

/-- An open, unexpired, confirmed offer without hard violations. -/
def openOffer (offer : Option OfferPublic) (mandate : Option Mandate) (tMs : Nat) (fenced : Bool) :
    Except Refusal (OfferPublic × Terms) :=
  if fenced then .error (.denied "fence_raised")
  else match offer with
  | none => .error (.denied "no_such_offer")
  | some o =>
    if o.status ≠ .open then .error (.denied "offer_not_open")
    else if expired o.expiresMs tMs then .error (.denied "offer_expired")
    else match offerTerms py o with
      | .error e => .error (.raised e)
      | .ok none => .error (.denied "readback_not_confirmed")
      | .ok (some t) =>
        if o.termsHash ≠ some (termsHash py t) ∨ readbackConfirmed o = false then
          .error (.denied "readback_not_confirmed")
        else if hardViolations t mandate ≠ [] then .error (.denied "policy_violation")
        else .ok (o, t)

def openOfferAt (bb : Blackboard) (ref : String) : Except Refusal (OfferPublic × Terms) :=
  openOffer py (bb.pub.offers.get? ref) bb.priv.mandate bb.tMs !bb.fences.isEmpty

structure Acceptable (o : OfferPublic) (t : Terms) (mandate : Option Mandate) (tMs : Nat) :
    Prop where
  isOpen : o.status = .open
  live : expired o.expiresMs tMs = false
  terms : offerTerms py o = .ok (some t)
  bound : o.termsHash = some (termsHash py t)
  confirmed : readbackConfirmed o = true
  allowed : hardViolations t mandate = []

/-! ## Approval cards -/

/-- `card_blocks`: the pending card is current, of this epoch and unexpired. -/
def cardBlocks (card : Option ApprovalCard) (offer : Option OfferPublic) (epoch tMs : Nat) : Bool :=
  match card with
  | none => false
  | some c => isCurrent c offer && c.authorityEpoch = epoch && (tMs : Int) < c.expiresMs

/-- `min` over the instants that are known. -/
def earliest : List (Option Int) → Int → Int
  | [], last => last
  | none :: rest, last => earliest rest last
  | some x :: rest, last => min x (earliest rest last)

def approvalStem (o : OfferPublic) (epoch : Nat) : String :=
  "apr-" ++ o.offerRef ++ "-r" ++ toString o.revision ++ "-e" ++ toString epoch ++ "-"

/-- The id of the next card for this offer revision in this epoch: numbered by the decided ones. -/
def approvalId (bb : Blackboard) (o : OfferPublic) : String :=
  let stem := approvalStem o bb.epoch
  stem ++ toString (bb.priv.approvals.keys.countP fun k => stem.toList.isPrefixOf k.toList)

/-- The card `request_approval` asks the user to decide. -/
def newCard (bb : Blackboard) (o : OfferPublic) (t : Terms) (case_ : CaseRef) : ApprovalCard where
  approvalId := approvalId bb o
  offerRef := o.offerRef
  revision := o.revision
  termsHash := termsHash py t
  readbackText := readbackText o
  authorityEpoch := bb.epoch
  expiresMs := earliest [o.expiresMs] (bb.tMs + cardTtlMs)
  binding := ⟨o.offerRef, o.revision, case_.accountRef, case_.principalRef, "accept_offer", bb.epoch⟩
  bound := ⟨rfl, rfl, rfl⟩

/-- `request_approval`: a card bound to the terms and the epoch.  The offer may be outside the
mandate: that is what the user decides. -/
def requestApproval (bb : Blackboard) (ref : String) (case_ : CaseRef) :
    Except Refusal ApprovalCard := do
  let (o, t) ← openOfferAt py bb ref
  let card := bb.priv.pendingApproval
  if cardBlocks card (card.bind fun c => bb.pub.offers.get? c.offerRef) bb.epoch bb.tMs then
    .error (.denied "approval_pending")
  else .ok (newCard py bb o t case_)

/-! ## Accepting -/

inductive Grant
  | mandate (m : Mandate)
  | approval (a : Approval)
  deriving DecidableEq

/-- What the business action binds of its grant. -/
def Grant.key : Grant → String
  | .mandate m => m.mandateHash
  | .approval a => a.approvalId

def Grant.expiresMs : Grant → Option Int
  | .mandate m => m.expiresMs
  | .approval a => a.expiresMs

/-- The decisions of these terms in this epoch. -/
def decidedNow (bb : Blackboard) (hash : Option String) : List Approval :=
  bb.priv.approvals.values.filter fun a => some a.termsHash = hash && a.authorityEpoch = bb.epoch

/-- An approval with time left; `none` is never live. -/
def isLiveApproval (tMs : Nat) (a : Approval) : Bool := a.expiresMs.any ((tMs : Int) < ·)

/-- `_grant`: the covering mandate or a live approval, else why neither.  A user's denial of these
terms in this epoch wins over both. -/
def grantOf (bb : Blackboard) (o : OfferPublic) (t : Terms) : Except Refusal Grant :=
  let mine := bb.priv.approvals.values.filter fun a => some a.termsHash = o.termsHash
  let now := decidedNow bb o.termsHash
  let why := mandateGap bb.priv.mandate bb.epoch bb.tMs t
  if now.any (·.decision = .denied) then .error (.denied "approval_denied")
  else match bb.priv.mandate, why, releasedAccept bb with
    -- after any released accept, only a new approval grants
    | some m, none, false => .ok (.mandate m)
    | _, _, _ => match now.find? (isLiveApproval bb.tMs) with
      | some a => .ok (.approval a)
      | none =>
        if now ≠ [] then .error (.denied "approval_expired")
        else if mine ≠ [] then .error (.denied "approval_stale_epoch")
        else .error (.denied (why.getD "not_authorized"))

/-- The capability an accept of `o` mints under `g`. -/
def acceptCap (bb : Blackboard) (o : OfferPublic) (t : Terms) (g : Grant) (bid : String) :
    Capability :=
  let th := termsHash py t
  mint bb bid .acceptOffer th (earliest [g.expiresMs, o.expiresMs] (bb.tMs + capTtlMs))

def acceptText (o : OfferPublic) : String :=
  "Yes, we accept these terms: " ++ readbackText o ++ "."

/-- `accept_offer`: the capability of `action.authorized`, and the text of the accept line that
holds it. -/
def acceptOffer (bb : Blackboard) (ref : String) (case_ : CaseRef) :
    Except Refusal (Capability × String) := do
  if committedStatus bb.pub.status then .error (.denied "already_committed")
  else if terminal bb.pub.status then .error (.denied "case_closed")
  else if bb.pub.status ≠ .inCall then .error (.denied "not_in_call")
  else
    let (o, t) ← openOfferAt py bb ref
    if releasedAccept bb o.termsHash then .error (.denied "already_accepted")
    else
      let g ← grantOf bb o t
      let bid := businessActionId py case_.caseId .acceptOffer ref o.revision (termsHash py t) g.key
      if bb.capabilities.values.any (·.businessActionId = bid) then
        .error (.denied "already_authorized")
      else if acceptInFlight bb then .error (.denied "accept_in_flight")
      else .ok (acceptCap py bb o t g bid, acceptText o)

/-- `decline_offer`, a restriction: allowed under a fence and at any epoch. -/
def declineOffer (bb : Blackboard) (ref : String) : Except Refusal Payload :=
  match bb.pub.offers.get? ref with
  | none => .error (.denied "no_such_offer")
  | some o =>
    if o.status ≠ .open then .error (.denied "offer_not_open")
    else .ok (.speakVerbatim .cp .decline "No, thank you: we will not take that offer." none
      (some ref))

/-! ## Decisions -/

/-- `decide`: the decision an `approval.post` may become, or why it is refused. -/
def decide (bb : Blackboard) (post : ApprovalPost) (by_ : Approver) : Except Refusal Payload :=
  match post.subject with
  | .mandate =>
    match bb.priv.mandate with
    | none => .error (.denied "no_proposal")
    | some m =>
      if m.mandateId ≠ post.subjectId then .error (.denied "no_proposal")
      else if m.status ≠ .proposed then .error (.denied "already_decided")
      else if post.subjectHash ≠ m.mandateHash then .error (.denied "subject_hash_mismatch")
      else if post.authorityEpoch ≠ m.epoch ∨ m.epoch ≠ bb.epoch then
        .error (.denied "stale_epoch")
      else .ok (.mandateDecided ⟨m.mandateId, m.mandateHash, post.decision, by_⟩)
  | .approval =>
    if bb.priv.approvals.has post.subjectId then .error (.denied "already_decided")
    else match bb.priv.pendingApproval with
    | none => .error (.denied "no_pending_card")
    | some card =>
      if card.approvalId ≠ post.subjectId then .error (.denied "no_pending_card")
      else if isCurrent card (bb.pub.offers.get? card.offerRef) = false then
        .error (.denied "card_superseded")
      else if post.subjectHash ≠ card.termsHash then .error (.denied "subject_hash_mismatch")
      else if post.authorityEpoch ≠ card.authorityEpoch ∨ card.authorityEpoch ≠ bb.epoch then
        .error (.denied "stale_epoch")
      else if card.expiresMs ≤ bb.tMs then .error (.denied "card_expired")
      else .ok (.approvalDecided ⟨card.approvalId, post.decision, by_⟩)

/-! ## What each rule gives -/

variable {py}

theorem openOffer_eq_ok {offer : Option OfferPublic} {mandate : Option Mandate} {tMs : Nat}
    {fenced : Bool} {o : OfferPublic} {t : Terms} :
    openOffer py offer mandate tMs fenced = .ok (o, t) ↔
      offer = some o ∧ fenced = false ∧ Acceptable py o t mandate tMs := by
  cases offer with
  | none => cases fenced <;> simp [openOffer]
  | some o' =>
    constructor
    · intro h
      simp only [openOffer] at h
      split at h
      · cases h
      rename_i unfenced
      split at h
      · cases h
      rename_i isOpen
      split at h
      · cases h
      rename_i live
      split at h
      · cases h
      · cases h
      rename_i t' terms
      split at h
      · cases h
      rename_i bound
      split at h
      · cases h
      rename_i allowed
      cases h
      simp only [not_or, ne_eq, not_not, Bool.not_eq_false] at bound
      exact ⟨rfl, by simpa using unfenced, by simpa using isOpen, by simpa using live, terms,
        bound.1, bound.2, by simpa using allowed⟩
    · rintro ⟨hs, unfenced, ok⟩
      cases hs
      simp [openOffer, unfenced, ok.isOpen, ok.live, ok.terms, ok.bound, ok.confirmed, ok.allowed]

/-- An offer with a hard violation is refused with `policy_violation` or an earlier reason. -/
theorem openOffer_refused {o : OfferPublic} {mandate : Option Mandate} {tMs : Nat} {fenced : Bool}
    {t : Terms} (terms : offerTerms py o = .ok (some t)) (hard : hardViolations t mandate ≠ []) :
    ∃ why ∈ offerReasons, openOffer py (some o) mandate tMs fenced = .error (.denied why) := by
  have found : ∀ why, why ∈ offerReasons → ∀ r : Except Refusal (OfferPublic × Terms),
      r = .error (.denied why) → ∃ why ∈ offerReasons, r = .error (.denied why) :=
    fun why hw r hr => ⟨why, hw, hr⟩
  simp only [openOffer, terms, if_pos hard]
  split
  · exact found _ (by decide) _ rfl
  split
  · exact found _ (by decide) _ rfl
  split
  · exact found _ (by decide) _ rfl
  split
  · exact found _ (by decide) _ rfl
  · exact found _ (by decide) _ rfl

theorem openOfferAt_eq_ok {bb : Blackboard} {ref : String} {o : OfferPublic} {t : Terms} :
    openOfferAt py bb ref = .ok (o, t) ↔
      bb.pub.offers.get? ref = some o ∧ bb.fences = [] ∧ Acceptable py o t bb.priv.mandate bb.tMs := by
  simp [openOfferAt, openOffer_eq_ok]

theorem requestApproval_eq_ok {bb : Blackboard} {ref : String} {case_ : CaseRef}
    {card : ApprovalCard} (h : requestApproval py bb ref case_ = .ok card) :
    ∃ o t, openOfferAt py bb ref = .ok (o, t) ∧ card = newCard py bb o t case_ ∧
      cardBlocks bb.priv.pendingApproval
        (bb.priv.pendingApproval.bind fun c => bb.pub.offers.get? c.offerRef) bb.epoch bb.tMs
          = false := by
  simp only [requestApproval, bind, Except.bind] at h
  split at h
  · cases h
  · rename_i ot hot
    split at h
    · cases h
    · rename_i free
      cases h
      exact ⟨ot.1, ot.2, hot, rfl, by simpa using free⟩

inductive GrantOk (bb : Blackboard) (o : OfferPublic) (t : Terms) : Grant → Prop
  | mandate (m : Mandate) (found : bb.priv.mandate = some m) (granted : m.status = .granted)
      (epoch : m.epoch = bb.epoch) (live : ∀ x, m.expiresMs = some x → (bb.tMs : Int) < x)
      (within : withinBounds m t) (first : releasedAccept bb = false) : GrantOk bb o t (.mandate m)
  | approval (a : Approval) (mem : a ∈ bb.priv.approvals.values)
      (hash : some a.termsHash = o.termsHash) (epoch : a.authorityEpoch = bb.epoch)
      (granted : a.decision = .granted) (x : Int) (expires : a.expiresMs = some x)
      (live : (bb.tMs : Int) < x) : GrantOk bb o t (.approval a)

theorem mem_decidedNow {bb : Blackboard} {hash : Option String} {a : Approval} :
    a ∈ decidedNow bb hash ↔ a ∈ bb.priv.approvals.values ∧ some a.termsHash = hash ∧
      a.authorityEpoch = bb.epoch := by
  simp [decidedNow]

/-- A granted accept: no denial of these terms stands in this epoch, and the grant covers it. -/
theorem grantOf_eq_ok {bb : Blackboard} {o : OfferPublic} {t : Terms} {g : Grant}
    (h : grantOf bb o t = .ok g) :
    (∀ a ∈ decidedNow bb o.termsHash, a.decision ≠ .denied) ∧ GrantOk bb o t g := by
  simp only [grantOf] at h
  split at h
  · cases h
  rename_i undenied
  have none_denied : ∀ a ∈ decidedNow bb o.termsHash, a.decision ≠ .denied := by
    simpa using undenied
  refine ⟨none_denied, ?_⟩
  split at h
  · rename_i m hm hgap hrel
    cases h
    obtain ⟨m', hm', granted, epoch, live, within⟩ := mandateGap_eq_none.mp hgap
    rw [hm] at hm'
    cases hm'
    exact .mandate m hm granted epoch live within hrel
  · split at h
    · rename_i a ha
      cases h
      have hmem := mem_decidedNow.mp (List.mem_of_find?_eq_some ha)
      have hlive := List.find?_some ha
      simp only [isLiveApproval, Option.any_eq_true, decide_eq_true_eq] at hlive
      obtain ⟨x, hx, hlt⟩ := hlive
      have granted : a.decision = .granted := by
        have := none_denied a (List.mem_of_find?_eq_some ha)
        cases hd : a.decision
        · rfl
        · exact absurd hd this
      exact .approval a hmem.1 hmem.2.1 hmem.2.2 granted x hx hlt
    · split at h
      · cases h
      · split at h <;> cases h

structure AcceptOk (py : Runtime) (bb : Blackboard) (ref : String) (o : OfferPublic) (t : Terms)
    (g : Grant) (cap : Capability) : Prop where
  inCall : bb.pub.status = .inCall
  found : bb.pub.offers.get? ref = some o
  unfenced : bb.fences = []
  acceptable : Acceptable py o t bb.priv.mandate bb.tMs
  undenied : ∀ a ∈ decidedNow bb o.termsHash, a.decision ≠ .denied
  grant : GrantOk bb o t g
  alone : acceptInFlight bb = false
  unreleased : releasedAccept bb o.termsHash = false
  cap : ∃ bid, cap = acceptCap py bb o t g bid

theorem acceptOffer_eq_ok {bb : Blackboard} {ref : String} {case_ : CaseRef} {cap : Capability}
    {text : String} (h : acceptOffer py bb ref case_ = .ok (cap, text)) :
    ∃ o t g, AcceptOk py bb ref o t g cap ∧ text = acceptText o := by
  simp only [acceptOffer, bind, Except.bind] at h
  split at h
  · cases h
  split at h
  · cases h
  split at h
  · cases h
  rename_i inCall
  split at h
  · cases h
  rename_i ot hot
  split at h
  · cases h
  rename_i unreleased
  split at h
  · cases h
  rename_i g hg
  split at h
  · cases h
  split at h
  · cases h
  rename_i alone
  cases h
  obtain ⟨found, unfenced, acceptable⟩ := openOfferAt_eq_ok (o := ot.1) (t := ot.2).mp hot
  obtain ⟨undenied, grant⟩ := grantOf_eq_ok hg
  exact ⟨ot.1, ot.2, g, ⟨by simpa using inCall, found, unfenced, acceptable, undenied, grant,
    by simpa using alone, by simpa using unreleased, _, rfl⟩, rfl⟩

@[simp] theorem acceptCap_intent {bb : Blackboard} {o : OfferPublic} {t : Terms} {g : Grant}
    {bid : String} : (acceptCap py bb o t g bid).intent = .acceptOffer := rfl

@[simp] theorem acceptCap_termsHash {bb : Blackboard} {o : OfferPublic} {t : Terms} {g : Grant}
    {bid : String} : (acceptCap py bb o t g bid).termsHash = termsHash py t := rfl

@[simp] theorem acceptCap_epoch {bb : Blackboard} {o : OfferPublic} {t : Terms} {g : Grant}
    {bid : String} : (acceptCap py bb o t g bid).epoch = bb.epoch := rfl

theorem earliest_le {known : List (Option Int)} {last : Int} :
    earliest known last ≤ last ∧ ∀ x, some x ∈ known → earliest known last ≤ x := by
  induction known with
  | nil => simp [earliest]
  | cons k ks ih =>
    cases k with
    | none => simpa [earliest] using ih
    | some y =>
      refine ⟨(min_le_right ..).trans ih.1, ?_⟩
      intro x hx
      rcases List.mem_cons.mp hx with h | h
      · cases h; exact min_le_left ..
      · exact (min_le_right ..).trans (ih.2 x h)

/-- An accept capability never outlives its grant. -/
theorem acceptCap_expires_le {bb : Blackboard} {o : OfferPublic} {t : Terms} {g : Grant}
    {bid : String} {x : Int} (h : g.expiresMs = some x) :
    (acceptCap py bb o t g bid).expiresMs ≤ x :=
  earliest_le.2 x (by simp [h])

theorem declineOffer_eq_ok {bb : Blackboard} {ref : String} {p : Payload}
    (h : declineOffer bb ref = .ok p) :
    ∃ text, p = .speakVerbatim .cp .decline text none (some ref) := by
  simp only [declineOffer] at h
  split at h
  · cases h
  · split at h
    · cases h
    · cases h; exact ⟨_, rfl⟩

/-- What a decision that Guard allows rests on: the post is of the recorded proposal or the pending
card, in this epoch. -/
inductive DecideOk (bb : Blackboard) (post : ApprovalPost) (by_ : Approver) : Payload → Prop
  | mandate (m : Mandate) (subject : post.subject = .mandate) (found : bb.priv.mandate = some m)
      (undecided : m.status = .proposed) (id : m.mandateId = post.subjectId)
      (hash : post.subjectHash = m.mandateHash) (own : post.authorityEpoch = m.epoch)
      (epoch : m.epoch = bb.epoch) :
      DecideOk bb post by_ (.mandateDecided ⟨m.mandateId, m.mandateHash, post.decision, by_⟩)
  | approval (card : ApprovalCard) (subject : post.subject = .approval)
      (pending : bb.priv.pendingApproval = some card)
      (fresh : bb.priv.approvals.has post.subjectId = false) (id : card.approvalId = post.subjectId)
      (current : isCurrent card (bb.pub.offers.get? card.offerRef) = true)
      (hash : post.subjectHash = card.termsHash) (own : post.authorityEpoch = card.authorityEpoch)
      (epoch : card.authorityEpoch = bb.epoch) (live : (bb.tMs : Int) < card.expiresMs) :
      DecideOk bb post by_ (.approvalDecided ⟨card.approvalId, post.decision, by_⟩)

theorem decide_spec {bb : Blackboard} {post : ApprovalPost} {by_ : Approver} {p : Payload}
    (h : decide bb post by_ = .ok p) : DecideOk bb post by_ p := by
  simp only [decide] at h
  split at h
  · rename_i subject
    split at h
    · cases h
    rename_i m hm
    split at h
    · cases h
    rename_i id
    split at h
    · cases h
    rename_i proposed
    split at h
    · cases h
    rename_i hash
    split at h
    · cases h
    rename_i epoch
    cases h
    simp only [not_or, ne_eq, not_not] at id proposed hash epoch
    exact .mandate m subject hm proposed id hash epoch.1 epoch.2
  · rename_i subject
    split at h
    · cases h
    rename_i fresh
    split at h
    · cases h
    rename_i card hc
    split at h
    · cases h
    rename_i id
    split at h
    · cases h
    rename_i current
    split at h
    · cases h
    rename_i hash
    split at h
    · cases h
    rename_i epoch
    split at h
    · cases h
    rename_i live
    cases h
    simp only [not_or, ne_eq, not_not, Bool.not_eq_true, Bool.not_eq_false, Int.not_le]
      at fresh id current hash epoch live
    exact .approval card subject hc fresh id current hash epoch.1 epoch.2 live

/-- Guard decides or denies; it never fails. -/
theorem decide_total (bb : Blackboard) (post : ApprovalPost) (by_ : Approver) :
    (∃ p, decide bb post by_ = .ok p) ∨ ∃ why, decide bb post by_ = .error (.denied why) := by
  unfold decide
  cases post.subject <;> dsimp only <;> repeat' split
  all_goals first | exact Or.inl ⟨_, rfl⟩ | exact Or.inr ⟨_, rfl⟩

/-- A decision is of the recorded proposal or the pending card, as the post says. -/
theorem decide_eq_ok {bb : Blackboard} {post : ApprovalPost} {by_ : Approver} {p : Payload}
    (h : decide bb post by_ = .ok p) :
    (∃ m, bb.priv.mandate = some m ∧ m.status = .proposed ∧ m.epoch = bb.epoch ∧
      p = .mandateDecided ⟨m.mandateId, m.mandateHash, post.decision, by_⟩) ∨
    (∃ card, bb.priv.pendingApproval = some card ∧
      bb.priv.approvals.has card.approvalId = false ∧
      p = .approvalDecided ⟨card.approvalId, post.decision, by_⟩) := by
  cases decide_spec h with
  | mandate m subject found undecided id hash own epoch =>
    exact Or.inl ⟨m, found, undecided, epoch, rfl⟩
  | approval card subject pending fresh id =>
    exact Or.inr ⟨card, pending, id ▸ fresh, rfl⟩

end rules

end ProxyLoop

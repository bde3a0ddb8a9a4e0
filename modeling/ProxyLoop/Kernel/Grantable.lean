import ProxyLoop.Kernel.CardIds
import ProxyLoop.Kernel.Decisions
import ProxyLoop.Kernel.Offers

/-!
# What a granted card is good for

A card that the user grants in time lets its offer be accepted, as soon as the case is in the call,
unless the user had denied the same terms in this epoch or an accept of them was released before.
-/

namespace ProxyLoop

open Lib (Dict Reach anyStep)

/-! ## Nothing else happens meanwhile -/

/-- What moves no offer, grant or capability: talk, fences and the moves of the case. -/
def Payload.meanwhile : Payload → Bool
  | .authorityFence .. | .statusChanged _ => true
  | .speakVerbatim _ kind _ _ _ => kind = .other
  | p => p.isQuiet

/-- What the rules read of offers, grants and capabilities is the same. -/
structure SameGrants (bb b : Blackboard) : Prop where
  epoch : b.epoch = bb.epoch
  offers : b.pub.offers = bb.pub.offers
  mandate : b.priv.mandate = bb.priv.mandate
  pendingApproval : b.priv.pendingApproval = bb.priv.pendingApproval
  approvals : b.priv.approvals = bb.priv.approvals
  capabilities : b.capabilities = bb.capabilities

section same

variable {bb b b' : Blackboard} {e : Event} {log : List Event}

theorem SameGrants.refl (bb : Blackboard) : SameGrants bb bb := by
  constructor <;> rfl

theorem SameGrants.trans (h : SameGrants bb b) (h' : SameGrants b b') : SameGrants bb b' :=
  ⟨h'.epoch.trans h.epoch, h'.offers.trans h.offers, h'.mandate.trans h.mandate,
    h'.pendingApproval.trans h.pendingApproval, h'.approvals.trans h.approvals,
    h'.capabilities.trans h.capabilities⟩

theorem SameAuthority.grants (h : SameAuthority bb b) : SameGrants bb b :=
  ⟨h.epoch, h.offers, h.mandate, h.pendingApproval, h.approvals, h.capabilities⟩

theorem sameGrants_of_apply (h : apply b e = .ok b') (hp : e.payload.meanwhile = true) :
    SameGrants b b' := by
  obtain ⟨b₁, hc, rfl⟩ := change_of_apply h
  cases hc with
  | quiet hq same => exact same.grants.trans (by constructor <;> rfl)
  | fence op fenceId uttId hf => cases op <;> constructor <;> rfl
  | status | otherLine | acceptLine => constructor <;> rfl
  | released lane id named cap auth offer hr => rw [hr] at hp; cases hp
  | revoked lane reason id cap hr => rw [hr] at hp; cases hp
  | _ => simp_all [Payload.meanwhile, Payload.isQuiet]

theorem sameGrants_of_fold (h : fold log b = .ok b') (all : ∀ e ∈ log, e.payload.meanwhile = true) :
    SameGrants b b' :=
  fold_invariant_mem (I := fun c => SameGrants b c) h (.refl b)
    fun mem same applied => same.trans (sameGrants_of_apply applied (all _ mem))

theorem requested_of_apply {card : ApprovalCard} (h : apply b e = .ok b')
    (hp : e.payload = .approvalRequested card) :
    SameGrants { b with priv := { b.priv with pendingApproval := some card } } b' := by
  obtain ⟨b₁, hc, rfl⟩ := change_of_apply h
  cases hc with
  | requested card' hp' =>
    rw [hp] at hp'
    cases hp'
    constructor <;> rfl
  | quiet hq => rw [hp] at hq; cases hq
  | _ => simp_all

theorem decided_of_apply {d : ApprovalDecided} (h : apply b e = .ok b')
    (hp : e.payload = .approvalDecided d) :
    ∃ card, b.priv.pendingApproval = some card ∧
      SameGrants { b with priv := { b.priv with
        pendingApproval := none
        approvals := b.priv.approvals.set d.approvalId (approvalOf card d) } } b' := by
  obtain ⟨b₁, hc, rfl⟩ := change_of_apply h
  cases hc with
  | decided d' card hp' pending =>
    rw [hp] at hp'
    cases hp'
    exact ⟨card, pending, by constructor <;> rfl⟩
  | quiet hq => rw [hp] at hq; cases hq
  | _ => simp_all

/-- What a run adds is the request of `card` and then its grant, and otherwise moves no grant. -/
def GrantsOnly (card : ApprovalCard) (more : List Event) : Prop :=
  ∃ asked granted by_, more.filter (!·.payload.meanwhile) = [asked, granted] ∧
    asked.payload = .approvalRequested card ∧
    granted.payload = .approvalDecided ⟨card.approvalId, .granted, by_⟩

structure AfterGrant (bb b : Blackboard) (card : ApprovalCard) (by_ : Approver) : Prop where
  epoch : b.epoch = bb.epoch
  offers : b.pub.offers = bb.pub.offers
  mandate : b.priv.mandate = bb.priv.mandate
  capabilities : b.capabilities = bb.capabilities
  approvals : b.priv.approvals = bb.priv.approvals.set card.approvalId
    (approvalOf card ⟨card.approvalId, .granted, by_⟩)

theorem filter_pair {p : Event → Bool} {l : List Event} {x y : Event} (h : l.filter p = [x, y]) :
    ∃ l₁ l₂ l₃, l = l₁ ++ x :: (l₂ ++ y :: l₃) ∧ ∀ z ∈ l₁ ++ l₂ ++ l₃, p z = false := by
  obtain ⟨l₁, rest, rfl, h₁, -, hrest⟩ := List.filter_eq_cons_iff.mp h
  obtain ⟨l₂, l₃, rfl, h₂, -, h₃⟩ := List.filter_eq_cons_iff.mp hrest
  rw [List.filter_eq_nil_iff] at h₃
  refine ⟨l₁, l₂, l₃, rfl, fun z hz => ?_⟩
  simp only [List.mem_append] at hz
  rcases hz with (hz | hz) | hz
  · simpa using h₁ z hz
  · simpa using h₂ z hz
  · simpa using h₃ z hz

theorem afterGrant_of_fold {card : ApprovalCard} (h : fold log bb = .ok b) (only : GrantsOnly card log) :
    ∃ by_, AfterGrant bb b card by_ := by
  obtain ⟨asked, granted, by_, pair, hasked, hgranted⟩ := only
  obtain ⟨l₁, l₂, l₃, rfl, rest⟩ := filter_pair pair
  have calm : ∀ z ∈ l₁ ++ l₂ ++ l₃, z.payload.meanwhile = true := fun z hz => by simpa using rest z hz
  obtain ⟨b₁, h₁, h⟩ := fold_append.mp h
  obtain ⟨b₂, happ, h⟩ := fold_cons.mp h
  obtain ⟨b₃, h₂, h⟩ := fold_append.mp h
  obtain ⟨b₄, happ', h₃⟩ := fold_cons.mp h
  have s₁ := sameGrants_of_fold h₁ fun z hz => calm z (by simp [hz])
  have s₂ := sameGrants_of_fold h₂ fun z hz => calm z (by simp [hz])
  have s₃ := sameGrants_of_fold h₃ fun z hz => calm z (by simp [hz])
  have asks := requested_of_apply happ hasked
  obtain ⟨card', pending, grants⟩ := decided_of_apply happ' hgranted
  -- the card decided is the one asked for
  have own : card' = card := by
    rw [s₂.pendingApproval, asks.pendingApproval] at pending
    exact (Option.some.inj pending).symm
  subst own
  have first : SameGrants { bb with priv := { bb.priv with pendingApproval := some card' } }
      { b₁ with priv := { b₁.priv with pendingApproval := some card' } } :=
    ⟨s₁.epoch, s₁.offers, s₁.mandate, rfl, s₁.approvals, s₁.capabilities⟩
  have upTo := first.trans (asks.trans s₂)
  have after := grants.trans s₃
  refine ⟨by_, after.epoch.trans upTo.epoch, after.offers.trans upTo.offers,
    after.mandate.trans upTo.mandate, after.capabilities.trans upTo.capabilities, ?_⟩
  rw [after.approvals, upTo.approvals]

end same

/-! ## The accept -/

def deniedTerms (bb : Blackboard) (hash : String) : Bool :=
  (decidedNow bb (some hash)).any (·.decision = .denied)

/-- No capability of other terms has a business action id of these: its hash collides with none. -/
def DistinctActions (host : Host) (bb : Blackboard) (hash : String) : Prop :=
  ∀ c ∈ bb.capabilities.values, ∀ ref revision by_,
    c.businessActionId =
      businessActionId host.py host.case_.caseId .acceptOffer ref revision hash by_ →
    c.termsHash = hash

section accept

variable {host : Host} {k k' : Kernel} {bb b : Blackboard} {card : ApprovalCard} {by_ : Approver}
  {o : OfferPublic} {t : Terms} {ref : String}

theorem AfterGrant.deniedTerms_iff (after : AfterGrant bb b card by_)
    (fresh : card.approvalId ∉ bb.priv.approvals.keys) {hash : String} :
    deniedTerms b hash = deniedTerms bb hash := by
  have same : ∀ a : Approval, a.decision = .denied →
      (a ∈ b.priv.approvals.values ↔ a ∈ bb.priv.approvals.values) := by
    intro a denied
    rw [after.approvals]
    constructor
    · intro mem
      rcases Dict.mem_values_set mem with rfl | ⟨id, -, found⟩
      · cases denied
      · exact Dict.mem_values_of_get? found
    · intro mem
      obtain ⟨id, found⟩ := Dict.mem_values.mp mem
      have other : id ≠ card.approvalId := by
        rintro rfl
        exact fresh (List.mem_map.mpr ⟨_, Dict.get?_eq_some.mp found, rfl⟩)
      exact Dict.mem_values_of_get? ((Dict.get?_set_ne _ other _).trans found)
  unfold deniedTerms
  rw [Bool.eq_iff_iff, List.any_eq_true, List.any_eq_true]
  constructor <;> rintro ⟨a, mem, denied⟩ <;> obtain ⟨values, terms, epoch⟩ := mem_decidedNow.mp mem <;>
    have is := of_decide_eq_true denied
  · exact ⟨a, mem_decidedNow.mpr ⟨(same a is).mp values, terms, epoch.trans after.epoch⟩, denied⟩
  · exact ⟨a, mem_decidedNow.mpr ⟨(same a is).mpr values, terms, epoch.trans after.epoch.symm⟩, denied⟩

/-- A live granted approval of undenied terms is a grant, if the mandate is none. -/
theorem grantOf_isOk {a : Approval} (undenied : deniedTerms bb (termsHash host.py t) = false)
    (bound : o.termsHash = some (termsHash host.py t))
    (mem : a ∈ decidedNow bb o.termsHash) (live : isLiveApproval bb.tMs a = true) :
    ∃ g, grantOf bb o t = .ok g := by
  have free : (decidedNow bb o.termsHash).any (·.decision = .denied) = false := by
    rw [bound]
    exact undenied
  simp only [grantOf, free, Bool.false_eq_true, if_false]
  split
  · exact ⟨_, rfl⟩
  · cases hf : (decidedNow bb o.termsHash).find? (isLiveApproval bb.tMs) with
    | some g => exact ⟨_, rfl⟩
    | none => exact absurd live (List.find?_eq_none.mp hf a mem)

/-- Between blocks, a capability of a case in the call was released. -/
theorem consumed_of_idle (inv : KernelInv host k) (idle : k.idle = true)
    (inCall : k.board.pub.status = .inCall) {c : Capability} (mem : c ∈ k.board.capabilities.values) :
    isReleasedAccept c = true := by
  obtain ⟨id, found⟩ := Dict.mem_values.mp mem
  have intent := inv.intents found
  cases used : c.consumed with
  | true => simp [isReleasedAccept, intent, used]
  | false =>
    have live : isLiveAccept c = true := by simp [isLiveAccept, intent, used]
    rcases inv.live found live with (h | h) | ⟨-, mint⟩
    · rw [inCall] at h
      cases h
    · rw [inCall] at h
      cases h
    · rw [(idle_iff.mp idle).1] at mint
      exact absurd mint not_minting_nil

theorem log_grows {session : Session} {runId : String}
    (h : Reach (Kernel.step host) anyStep (Kernel.start session runId) k)
    (h' : Reach (Kernel.step host) anyStep k k') : ∃ more, k'.log = k.log ++ more := by
  refine h'.invariant (I := fun x : Kernel => ∃ more, x.log = k.log ++ more) ⟨[], by simp⟩ ?_
  rintro x a x' reach ⟨more, grown⟩ - hs
  have plain := (KernelInv.reach (h.trans reach)).fence.plain
  obtain ⟨next, added⟩ := (Kernel.taken_of_step hs).grows plain
  exact ⟨more ++ next, by rw [added, grown, List.append_assoc]⟩

/-- A granted card's offer is accepted, but for a denial or a released accept of its terms. -/
theorem granted_card_works (host : Host) (session : Session) (runId : String) (k : Kernel)
    (h : Reach (Kernel.step host) anyStep (Kernel.start session runId) k) (ref : String)
    (card : ApprovalCard) (issued : requestApproval host.py k.bb ref host.case_ = .ok card)
    (k' : Kernel) (h' : Reach (Kernel.step host) anyStep k k')
    (only : GrantsOnly card (k'.log.drop k.log.length)) (idle : k'.idle = true)
    (inCall : k'.board.pub.status = .inCall) (unfenced : k'.board.fences = [])
    (live : (k'.bb.tMs : Int) < card.expiresMs)
    (distinct : DistinctActions host k.board card.termsHash) :
    (releasedAccept k.board (some card.termsHash) = true →
      acceptOffer host.py k'.bb ref host.case_ = .error (.denied "already_accepted")) ∧
    (releasedAccept k.board (some card.termsHash) = false →
      deniedTerms k.board card.termsHash = true →
      acceptOffer host.py k'.bb ref host.case_ = .error (.denied "approval_denied")) ∧
    (releasedAccept k.board (some card.termsHash) = false →
      deniedTerms k.board card.termsHash = false →
      ∃ cap text, acceptOffer host.py k'.bb ref host.case_ = .ok (cap, text) ∧
        cap.termsHash = card.termsHash) := by
  have reach' := h.trans h'
  have inv' := KernelInv.reach reach'
  have folded : fold (k'.log.drop k.log.length) k.board = .ok k'.board := by
    obtain ⟨more, grows⟩ := log_grows h h'
    have all := fold_reach reach'
    rw [grows] at all ⊢
    rw [List.drop_left]
    obtain ⟨b, hb, rest⟩ := fold_append.mp all
    rw [fold_reach h] at hb
    cases hb
    exact rest
  obtain ⟨by_, after⟩ := afterGrant_of_fold folded only
  obtain ⟨o, t, offer, rfl, -⟩ := requestApproval_eq_ok issued
  obtain ⟨found, -, acceptable⟩ := openOfferAt_eq_ok.mp offer
  have fresh : (newCard host.py k.bb o t host.case_).approvalId ∉ k.board.priv.approvals.keys :=
    (cardIds_of_traced (traced_reach h) (fold_reach h)).fresh
  have unexpired : expired o.expiresMs k'.bb.tMs = false := by
    refine expired_eq_false.mpr fun x hx => ?_
    exact lt_of_lt_of_le live (earliest_le.2 x (List.mem_singleton.mpr hx.symm))
  have open' : openOfferAt host.py k'.bb ref = .ok (o, t) :=
    openOfferAt_eq_ok.mpr ⟨by rw [Kernel.bb, after.offers]; exact found, unfenced, acceptable.isOpen,
      unexpired, acceptable.terms, acceptable.bound, acceptable.confirmed,
      by rw [Kernel.bb, after.mandate]; exact acceptable.allowed⟩
  have released : releasedAccept k'.bb o.termsHash =
      releasedAccept k.board (some (newCard host.py k.bb o t host.case_).termsHash) := by
    rw [acceptable.bound, releasedAccept, releasedAccept, Kernel.bb, after.capabilities]
    rfl
  have denied : deniedTerms k'.bb (termsHash host.py t) =
      deniedTerms k.board (newCard host.py k.bb o t host.case_).termsHash := after.deniedTerms_iff fresh
  have status : k'.bb.pub.status = .inCall := inCall
  refine ⟨fun was => ?_, fun was no => ?_, fun was yes => ?_⟩
  · simp [acceptOffer, status, committedStatus, terminal, open', bind, Except.bind, released, was]
  · have refused : grantOf k'.bb o t = .error (.denied "approval_denied") := by
      have any_ : (decidedNow k'.bb o.termsHash).any (·.decision = .denied) = true := by
        rw [acceptable.bound]
        exact denied.trans no
      simp only [grantOf, any_, if_true]
    simp [acceptOffer, status, committedStatus, terminal, open', bind, Except.bind, released, was, refused]
  · let new := newCard host.py k.bb o t host.case_
    have mem : approvalOf new ⟨new.approvalId, .granted, by_⟩ ∈ decidedNow k'.bb o.termsHash := by
      refine mem_decidedNow.mpr ⟨?_, acceptable.bound.symm, after.epoch.symm⟩
      refine Dict.mem_values_of_get? (k := new.approvalId) ?_
      rw [Kernel.bb, after.approvals]
      exact Dict.get?_set_self _ _ _
    obtain ⟨g, granted⟩ := grantOf_isOk (denied.trans yes) acceptable.bound mem (decide_eq_true live)
    have caps : k'.bb.capabilities = k.board.capabilities := after.capabilities
    have mem_caps : ∀ c ∈ k.board.capabilities.values, isReleasedAccept c = true := fun c hc =>
      consumed_of_idle inv' idle inCall (by rw [after.capabilities]; exact hc)
    have unused : ∀ bid, bid = businessActionId host.py host.case_.caseId .acceptOffer ref o.revision
        (termsHash host.py t) g.key → k'.bb.capabilities.values.any (·.businessActionId = bid) = false := by
      rintro bid rfl
      rw [caps, List.any_eq_false]
      intro c hc own
      have terms : c.termsHash = new.termsHash := distinct c hc ref o.revision g.key (of_decide_eq_true own)
      obtain ⟨id, hid⟩ := Dict.mem_values.mp hc
      exact releasedAccept_eq_false.mp was id c hid (mem_caps c hc) terms
    have alone : acceptInFlight k'.bb = false := by
      refine acceptInFlight_eq_false.mpr fun id c hc => ?_
      rw [caps] at hc
      have used := mem_caps c (Dict.mem_values_of_get? hc)
      simp only [isReleasedAccept, Bool.and_eq_true, decide_eq_true_eq] at used
      simp [isLiveAccept, used.2]
    refine ⟨acceptCap host.py k'.bb o t g (businessActionId host.py host.case_.caseId .acceptOffer ref
      o.revision (termsHash host.py t) g.key), acceptText o, ?_, rfl⟩
    simp [acceptOffer, status, committedStatus, terminal, open', bind, Except.bind, released, was,
      granted, unused _ rfl, alone]

end accept

/-! ## Runs

A card is asked for and granted; then one is denied, and the next card for the same terms granted. -/

/-- The run from `k` by `acts`, if each is allowed. -/
def Kernel.on (k : Kernel) (acts : List Kernel.Act) : Kernel :=
  (Lib.run (Kernel.step (hostOf sampleDigests)) k acts).getD k

theorem Kernel.on_reach (k : Kernel) (acts : List Kernel.Act) :
    Reach (Kernel.step (hostOf sampleDigests)) anyStep k (k.on acts) :=
  Reach.start.run_getD acts

/-- The card is asked for and decided; `n` events are logged before. -/
def decideCard (n : Nat) (id : String) (decision : Decision) : List Kernel.Act :=
  blockOf (.tool 0 [0] (.requestApproval "A" "m-1")) [0] 4 ++
    blockOf (.post 0 [] ⟨.approval, id, decision, sampleTermsHash, 1⟩ .ui) [n + 4] 3

def inCallRun : Kernel := Kernel.after (hostOf sampleDigests) sampleSession sampleCall

def deniedCardRun : Kernel :=
  Kernel.after (hostOf sampleDigests) sampleSession
    (sampleCall ++ decideCard 12 "apr-A-r1-e1-0" .denied)

def grantsOnly (card : ApprovalCard) (more : List Event) : Bool :=
  match (more.filter (!·.payload.meanwhile)).map Event.payload with
  | [.approvalRequested asked, .approvalDecided d] =>
    asked = card && d.approvalId = card.approvalId && d.decision = .granted
  | _ => false

theorem grantsOnly_spec {card : ApprovalCard} {more : List Event} (h : grantsOnly card more = true) :
    GrantsOnly card more := by
  unfold grantsOnly at h
  split at h
  · rename_i asked d pair
    obtain ⟨x, rest, filtered, hx, hrest⟩ := List.map_eq_cons_iff.mp pair
    obtain ⟨y, rest, rfl, hy, hnil⟩ := List.map_eq_cons_iff.mp hrest
    simp only [Bool.and_eq_true, decide_eq_true_eq] at h
    obtain ⟨⟨rfl, id⟩, decision⟩ := h
    obtain ⟨id', decision', by_⟩ := d
    cases id
    cases decision
    rw [List.map_eq_nil_iff.mp hnil] at filtered
    exact ⟨x, y, by_, filtered, hx, hy⟩
  · cases h

/-- What the theorem asks of the two states, for the offer A. -/
def grantsA (k k' : Kernel) : Bool :=
  match requestApproval (hostOf sampleDigests).py k.bb "A" (hostOf sampleDigests).case_ with
  | .ok card => grantsOnly card (k'.log.drop k.log.length) && k'.idle &&
      k'.board.pub.status = .inCall && k'.board.fences = [] && (k'.bb.tMs : Int) < card.expiresMs &&
      k.board.capabilities.values = []
  | .error _ => false

theorem grantsA_spec {k k' : Kernel} (h : grantsA k k' = true) :
    ∃ card, requestApproval (hostOf sampleDigests).py k.bb "A" (hostOf sampleDigests).case_ = .ok card ∧
      GrantsOnly card (k'.log.drop k.log.length) ∧ k'.idle = true ∧
      k'.board.pub.status = .inCall ∧ k'.board.fences = [] ∧ (k'.bb.tMs : Int) < card.expiresMs ∧
      k.board.capabilities.values = [] := by
  unfold grantsA at h
  split at h
  · rename_i card issued
    simp only [Bool.and_eq_true, decide_eq_true_eq] at h
    obtain ⟨⟨⟨⟨⟨only, idle⟩, inCall⟩, unfenced⟩, live⟩, empty⟩ := h
    exact ⟨card, issued, grantsOnly_spec only, idle, inCall, unfenced, live, empty⟩
  · cases h

def grantedCardRun : Kernel := inCallRun.on (decideCard 12 "apr-A-r1-e1-0" .granted)

theorem grantedCard_facts :
    (grantsA inCallRun grantedCardRun && inCallRun.board.priv.approvals.values = []) = true := by
  decide +kernel

theorem granted_card_works_sample :
    ∃ cap text, acceptOffer (hostOf sampleDigests).py grantedCardRun.bb "A"
      (hostOf sampleDigests).case_ = .ok (cap, text) := by
  obtain ⟨grants, undecided⟩ := Bool.and_eq_true_iff.mp grantedCard_facts
  obtain ⟨card, issued, only, idle, inCall, unfenced, live, empty⟩ := grantsA_spec grants
  have distinct : DistinctActions (hostOf sampleDigests) inCallRun.board card.termsHash := by
    intro c hc
    rw [empty] at hc
    cases hc
  have works := granted_card_works (hostOf sampleDigests) sampleSession "run" inCallRun
    (Kernel.reach_after _ _) "A" card issued grantedCardRun (Kernel.on_reach _ _) only idle inCall
    unfenced live distinct
  have unreleased : releasedAccept inCallRun.board (some card.termsHash) = false := by
    rw [releasedAccept, empty]
    rfl
  have undenied : deniedTerms inCallRun.board card.termsHash = false := by
    rw [deniedTerms, decidedNow, of_decide_eq_true undecided]
    rfl
  obtain ⟨cap, text, ok, -⟩ := works.2.2 unreleased undenied
  exact ⟨cap, text, ok⟩

/-- Whether the accept of A is refused because its terms were denied. -/
def refusedDenied (k : Kernel) : Bool :=
  match acceptOffer (hostOf sampleDigests).py k.bb "A" (hostOf sampleDigests).case_ with
  | .error r => r = .denied "approval_denied"
  | .ok _ => false

theorem deniedCard_facts :
    (grantsA deniedCardRun (deniedCardRun.on (decideCard 19 "apr-A-r1-e1-1" .granted)) &&
      refusedDenied (deniedCardRun.on (decideCard 19 "apr-A-r1-e1-1" .granted))) = true := by
  decide +kernel

/-- Guard issues a second card for terms the user denied, and refuses to use its grant. -/
theorem denied_terms_reissued :
    ∃ k k' card, Reach (Kernel.step (hostOf sampleDigests)) anyStep (Kernel.start sampleSession "run") k ∧
      requestApproval (hostOf sampleDigests).py k.bb "A" (hostOf sampleDigests).case_ = .ok card ∧
      Reach (Kernel.step (hostOf sampleDigests)) anyStep k k' ∧
      GrantsOnly card (k'.log.drop k.log.length) ∧ k'.idle = true ∧
      k'.board.pub.status = .inCall ∧ k'.board.fences = [] ∧ (k'.bb.tMs : Int) < card.expiresMs ∧
      acceptOffer (hostOf sampleDigests).py k'.bb "A" (hostOf sampleDigests).case_ =
        .error (.denied "approval_denied") := by
  obtain ⟨grants, refused⟩ := Bool.and_eq_true_iff.mp deniedCard_facts
  obtain ⟨card, issued, only, idle, inCall, unfenced, live, -⟩ := grantsA_spec grants
  refine ⟨deniedCardRun, _, card, Kernel.reach_after _ _, issued, Kernel.on_reach _ _, only, idle,
    inCall, unfenced, live, ?_⟩
  unfold refusedDenied at refused
  split at refused
  · rename_i r hr
    rw [hr, of_decide_eq_true refused]
  · cases refused

end ProxyLoop

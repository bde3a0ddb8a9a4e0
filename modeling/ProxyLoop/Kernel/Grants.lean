import ProxyLoop.Kernel.Runs

/-!
# What a released accept rests on

Every accept line that is released was minted under a decision of the user's: a granted card of its
terms, or a granted mandate whose bounds cover them.  A denial of the same terms wins over the grant
as long as it lands before the mint.
-/

namespace ProxyLoop

open Lib (Dict Reach anyStep)

/-! ## Capability numbers -/

def Numbered (bb : Blackboard) : Prop :=
  ∀ (i : Nat) (a : Authorization), bb.authorizations[i]? = some a →
    a.capId = "cap-" ++ toString (i + 1)

section run

variable {host : Host} {log before after : List Event} {e : Event} {bb b b' : Blackboard}

theorem authorizations_of_apply (h : apply b e = .ok b') :
    b'.authorizations = b.authorizations ∨ ∃ a : ActionAuthorized, e.payload = .actionAuthorized a ∧
      b'.authorizations = b.authorizations ++ [⟨a.intent,
        (offerWith b a.capability.termsHash).map Prod.fst, some a.capability.termsHash,
        a.capability.capId, a.capability.epoch⟩] := by
  obtain ⟨b₁, hc, rfl⟩ := change_of_apply h
  cases hc with
  | quiet hp same => exact Or.inl same.authorizations
  | minted a hp => exact Or.inr ⟨a, hp, rfl⟩
  | _ => exact Or.inl rfl

theorem capId_of_minted (origin : Provenance host b before e) {a : ActionAuthorized}
    (hp : e.payload = .actionAuthorized a) :
    a.capability.capId = "cap-" ++ toString (b.authorizations.length + 1) := by
  obtain ⟨ref, cap, text, was, rfl, same, _, ok⟩ := accept_of_minted origin hp
  obtain ⟨o, t, g, accept, -⟩ := acceptOffer_eq_ok ok
  obtain ⟨bid, rfl⟩ := accept.cap
  rw [same.authorizations]
  rfl

theorem numbered (traced : Traced host log) (h : fold log = .ok bb) : Numbered bb := by
  refine traced.invariant h (fun i a hi => by cases hi) ?_
  intro before e after b b' _ _ num ha origin i a hi
  rcases authorizations_of_apply ha with same | ⟨act, hp, added⟩
  · exact num i a (same ▸ hi)
  · rw [added, List.getElem?_append] at hi
    split at hi
    · exact num i a hi
    · rename_i hle
      rw [List.getElem?_singleton] at hi
      split at hi
      · cases hi
        have : i = b.authorizations.length := by omega
        rw [this]
        exact capId_of_minted origin hp
      · cases hi

theorem capId_inj {m n : Nat} (h : "cap-" ++ toString (m + 1) = "cap-" ++ toString (n + 1)) :
    m = n := by
  have := Nat.repr_inj.mp ((String.append_right_inj _).mp h)
  omega

theorem authorizations_grow (h : fold log b = .ok bb) :
    ∃ more, bb.authorizations = b.authorizations ++ more := by
  refine fold_invariant (I := fun c => ∃ more, c.authorizations = b.authorizations ++ more) h
    ⟨[], by simp⟩ ?_
  rintro c e c' ⟨more, hm⟩ ha
  rcases authorizations_of_apply ha with same | ⟨a, _, added⟩
  · exact ⟨more, same.trans hm⟩
  · exact ⟨more ++ [_], by rw [added, hm, List.append_assoc]⟩

theorem authorization_of_minted {m : Event} {bm bm' : Blackboard} {a : ActionAuthorized}
    {auth : Authorization} (num : Numbered bb) (minted : apply bm m = .ok bm')
    (hp : m.payload = .actionAuthorized a) (after : fold log bm' = .ok bb)
    (found : bb.authorizations.find? (·.capId = a.capability.capId) = some auth) :
    auth.offerRef = (offerWith bm a.capability.termsHash).map Prod.fst := by
  obtain ⟨more, grown⟩ := authorizations_grow after
  rcases authorizations_of_apply minted with same | ⟨a', hp', added⟩
  · obtain ⟨b₁, hc, rfl⟩ := change_of_apply minted
    cases hc with
    | quiet hq => rw [hp] at hq; cases hq
    | minted a' hp' =>
      have := congrArg List.length same
      simp [stamp] at this
    | _ => simp_all
  · rw [hp] at hp'
    cases hp'
    rw [added] at grown
    -- the mint's own entry, and the one that was found
    have own : bb.authorizations[bm.authorizations.length]? = some ⟨a.intent,
        (offerWith bm a.capability.termsHash).map Prod.fst, some a.capability.termsHash,
        a.capability.capId, a.capability.epoch⟩ := by
      rw [grown]
      simp
    obtain ⟨i, hi⟩ := List.getElem?_of_mem (List.mem_of_find?_eq_some found)
    have id : auth.capId = a.capability.capId := by simpa using List.find?_some found
    have here : i = bm.authorizations.length :=
      capId_inj ((num i auth hi).symm.trans (id.trans (num _ _ own)))
    rw [here, own] at hi
    cases hi
    rfl

/-! ## The grant -/

/-- The decision of the user's that an accept was minted under: `before` is the log and `bm` the
board that the mint `m` found. -/
inductive UserGrant (host : Host) (before : List Event) (bm : Blackboard) (m : Event)
    (cap : Capability) : Prop
  | card (id : String) (a : Approval) (card : ApprovalCard) (decided : CardDecided before id a card)
      (granted : a.decision = .granted) (terms : card.termsHash = cap.termsHash)
      (epoch : card.authorityEpoch = cap.epoch) (live : (m.tMs : Int) < card.expiresMs) :
      UserGrant host before bm m cap
  | mandate (m₀ g : Mandate) (granted : Granted before m₀) (same : SameLimits m₀ g)
      (recorded : bm.priv.mandate = some g) (epoch : g.epoch = cap.epoch)
      (live : ∀ x, g.expiresMs = some x → (m.tMs : Int) < x) (ref : String) (o : OfferPublic)
      (found : bm.pub.offers.get? ref = some o) (t : Terms)
      (terms : offerTerms host.py o = .ok (some t)) (hash : termsHash host.py t = cap.termsHash)
      (within : withinBounds m₀ t) : UserGrant host before bm m cap

/-- Every mint of a run is under a decision of the user's. -/
theorem userGrant_of_minted {a : ActionAuthorized} (origin : Provenance host b before e)
    (hb : fold before = .ok b) (applied : apply b e = .ok b')
    (hp : e.payload = .actionAuthorized a) : UserGrant host before b e a.capability := by
  have alive := (minted_of_apply applied hp).live
  obtain ⟨ref, cap, text, was, rfl, same, _, ok⟩ := accept_of_minted origin hp
  obtain ⟨o, t, g, accept, -⟩ := acceptOffer_eq_ok ok
  obtain ⟨bid, rfl⟩ := accept.cap
  have ends : ∀ x, g.expiresMs = some x → (e.tMs : Int) < x := fun x hx =>
    lt_of_lt_of_le alive (acceptCap_expires_le hx)
  cases accept.grant with
  | mandate g found granted epoch live within =>
    have recorded : b.priv.mandate = some g := same.mandate.trans found
    obtain ⟨m₀, given, limits⟩ := granted_of_status hb recorded granted
    exact .mandate m₀ g given limits recorded epoch ends ref o (same.offers ▸ accept.found) t
      accept.acceptable.terms rfl (limits.withinBounds.mp within)
  | approval x mem hash epoch granted y expires live =>
    obtain ⟨id, hid⟩ := Dict.mem_values.mp mem
    obtain ⟨card, decided⟩ := approval_decided hb (same.approvals ▸ hid)
    have bound : some x.termsHash = some (termsHash host.py t) :=
      hash.trans accept.acceptable.bound
    have ending : y = card.expiresMs := Option.some.inj (expires.symm.trans decided.expires)
    exact .card id x card decided granted (decided.terms.symm.trans (Option.some.inj bound))
      (decided.epoch.symm.trans epoch) (ending ▸ ends y expires)

end run

/-- Provenance of every released accept: its mint rests on a decision of the user's, and at the
release no fence is raised, the epoch is the mint's, the authorized offer is open with the same
terms, and the capability has time left. -/
theorem released_granted (host : Host) (session : Session) (runId : String) (k : Kernel)
    (reach : Reach (Kernel.step host) anyStep (Kernel.start session runId) k)
    (before after : List Event) (e : Event) (lane : Lane) (id : String)
    (split : k.log = before ++ e :: after) (release : e.payload = .speakReleased lane (some id)) :
    ∃ pre m mid cap bm b ref o, before = pre ++ m :: mid ∧
      m.payload = .actionAuthorized ⟨.acceptOffer, cap⟩ ∧ cap.capId = id ∧
      fold pre = .ok bm ∧ fold before = .ok b ∧ b.capabilities.get? id = some cap ∧
      UserGrant host pre bm m cap ∧
      b.fences = [] ∧ (∀ x ∈ mid, ∀ bump, x.payload ≠ .authorityEpoch bump) ∧
      (offerWith bm cap.termsHash).map Prod.fst = some ref ∧ b.pub.offers.get? ref = some o ∧
      o.status = .open ∧ o.termsHash = some cap.termsHash ∧ (e.tMs : Int) < cap.expiresMs := by
  have traced := traced_reach reach
  obtain ⟨b, b', hb, applied, law, _, _⟩ := traced before e after split
  obtain ⟨cap, auth, offer, ok, -⟩ :=
    release_spec (capabilityLaw_of_fold hb) applied ⟨lane, release⟩
  obtain ⟨pre, m, mid, bm, a, rfl, hbm, minted, rfl, own, epoch⟩ :=
    unused_minted hb ok.found ok.unused
  have split' : k.log = pre ++ m :: (mid ++ e :: after) := by simpa using split
  obtain ⟨bm', appliedm, _, _, originm⟩ := traced.at split' hbm
  obtain ⟨_, _, hbm₂, appliedm₂, rest⟩ := fold_at hb
  rw [hbm] at hbm₂
  cases hbm₂
  rw [appliedm] at appliedm₂
  cases appliedm₂
  -- the mint's own epoch, and so no bump since
  have bumped : bm'.epoch = bm.epoch := by
    rcases epoch_of_apply appliedm with ⟨⟨bump, hbump⟩, _⟩ | ⟨_, same⟩
    · rw [minted] at hbump
      cases hbump
    · exact same
  have none_since := no_bump rest (ok.epoch.symm.trans (epoch.trans bumped.symm))
  have traced_before : Traced host (pre ++ m :: mid) := fun x y z h =>
    traced x y (z ++ e :: after) (by rw [split, h]; simp)
  have ofRef := authorization_of_minted (numbered traced_before hb) appliedm minted rest
    (own.symm ▸ ok.authorized)
  obtain ⟨_, cap, _, _, rfl, _⟩ := accept_of_minted originm minted
  have bound := (minted_of_apply appliedm minted).bound rfl
  obtain ⟨ref, href⟩ := Option.isSome_iff_exists.mp bound
  have found : b.pub.offers.get? ref = some offer := by
    have of := ok.of
    simpa [authorizedOffer, ofRef, href] using of
  exact ⟨pre, m, mid, cap, bm, b, ref, offer, rfl, minted, own, hbm, hb, ok.found,
    userGrant_of_minted originm hbm appliedm minted, ok.unfenced, none_since, href, found,
    ok.isOpen, ok.terms, ok.live⟩

/-! ## A run

An offer is recorded and read back, a mandate is proposed and granted, and in the call the offer is
accepted under it. -/

/-- `int(text)` of plain digits. -/
def readInt (text : String) : Except PyError Int :=
  if text.toList ≠ [] && text.toList.all isDigit then .ok (decimal text.toList) else .error .value

/-- A host that knows the digests of the texts a run hashes. -/
def hostOf (digests : List (String × String)) : Host where
  py :=
    { sha256 := fun text => ((digests.find? (·.1 = text)).map Prod.snd).getD text
      int := readInt
      utcText := fun _ => .error .value
      cents := fun text => (readInt text).map (· * 100) }
  case_ := ⟨"case-1", "acct-1", "user-1"⟩
  speechMs text := 60 * text.length

/-- An offer at `price`, for a year, without fees or changes. -/
def sampleSlots (price : String) (ok : slotOk "monthly_price" price = true) : List ReadbackSlot :=
  [{ field := "monthly_price", value := price, unit := .usdMinor, role := .recurring, ok },
    { field := "term_months", value := "12", unit := .months, role := .recurring
      ok := Eq.refl true },
    { field := "fees_none", value := "true", unit := .bool, role := .oneTime, ok := Eq.refl true },
    { field := "changes_none", value := "true", unit := .bool, role := .change
      ok := Eq.refl true }]

def sampleTerms (price : Int) (revision : Nat) : Terms where
  monthlyPriceMinor := price
  currency := "USD"
  termMonths := 12
  features := []
  fees := []
  credits := []
  appliedChanges := []
  totalCost12mMinor := price * 12
  offerId := "A"
  offerRevision := revision
  expiresAt := noExpiry

def allConfirmed : Dict String SlotStatus :=
  ["monthly_price", "term_months", "fees_none", "changes_none"].foldl
    (fun d field => d.set field .confirmed) .empty

def sampleLimits : Envelope := { maxMonthlyPriceMinor := some 7000 }

def sampleMandateHash : String :=
  "0885b68851aa93780640b8227847890bee5ee1034ece3279d964a669215b84b6"

def sampleTermsHash : String :=
  "5bc97d269124aa213f822cb0e7bbad307cc0c860600c5537e68dddda430ffd5c"

def sampleDigests : List (String × String) :=
  [(mandateJson (unhashed 0 "mandate-1" sampleLimits none), sampleMandateHash),
    (termsJson (sampleTerms 6000 1), sampleTermsHash),
    (jsonList [jsonString "case-1", jsonString "accept_offer", jsonString "A", jsonInt 1,
      jsonString sampleTermsHash, jsonString sampleMandateHash],
      "63a4ef6395e877f2a50d5bc52014ab4ab522fb98d5a28723a60017b91d75b044")]

/-- A block of `n` events, each delivered to its end. -/
def blockOf (a : Kernel.Act) (causes : List Nat) (n : Nat) : List Kernel.Act :=
  [a, .deliver] ++ (List.replicate (n - 1) [Kernel.Act.next 0 causes, .deliver]).flatten

/-- The case up to the call: offer A is confirmed, and a mandate with these limits is granted. -/
def callUnder (limits : Envelope) (mandateHash : String) : List Kernel.Act :=
  blockOf (.world 0 .kernel [] (.sessionStarted ⟨"0", "dev", "1"⟩)) [] 1 ++
  blockOf (.tool 0 [0] (.recordOffer "A" (sampleSlots "6000" (Eq.refl true)) none)) [0] 2 ++
  blockOf (.readback 0 [2] "A" allConfirmed) [] 1 ++
  blockOf (.tool 0 [0] (.proposeMandate limits)) [0] 2 ++
  blockOf (.post 0 [] ⟨.mandate, "mandate-1", .granted, mandateHash, 0⟩ .ui) [6] 4 ++
  blockOf (.openCall 0 [0]) [0] 2

def sampleCall : List Kernel.Act := callUnder sampleLimits sampleMandateHash

def sampleAccept : List Kernel.Act := blockOf (.tool 0 [0] (.acceptOffer "A")) [0] 4

def sampleSession : Session := { slowView := .transcript }

def acceptRun : Kernel :=
  Kernel.after (hostOf sampleDigests) sampleSession
    (sampleCall ++ sampleAccept ++ blockOf (.floor 0 0) [] 1)

def Payload.releases (id : String) : Payload → Bool
  | .speakReleased _ (some x) => x = id
  | _ => false

/-- The `n`-th event releases `id`. -/
def releasedAt (log : List Event) (n : Nat) (id : String) : Bool :=
  (log[n]?).any (·.payload.releases id)

theorem release_at {log : List Event} {n : Nat} {id : String} (h : releasedAt log n id = true) :
    ∃ e lane, log = log.take n ++ e :: log.drop (n + 1) ∧
      e.payload = .speakReleased lane (some id) := by
  obtain ⟨e, he, hp⟩ := (Option.any_eq_true ..).mp h
  refine ⟨e, ?_⟩
  unfold Payload.releases at hp
  split at hp
  · rename_i lane x hpay
    exact ⟨lane, split_at he, by rw [hpay, of_decide_eq_true hp]⟩
  · cases hp

def Payload.isCardDecision : Payload → Bool
  | .approvalDecided _ => true
  | _ => false

theorem acceptRun_releases : releasedAt acceptRun.log 16 "cap-1" = true := by decide +kernel

theorem acceptRun_reach :
    Reach (Kernel.step (hostOf sampleDigests)) anyStep (Kernel.start sampleSession "run")
      acceptRun := Kernel.reach_after _ _

theorem released_granted_sample :
    ∃ pre m cap bm, m.payload = .actionAuthorized ⟨.acceptOffer, cap⟩ ∧ cap.capId = "cap-1" ∧
      UserGrant (hostOf sampleDigests) pre bm m cap := by
  obtain ⟨e, lane, split, release⟩ := release_at acceptRun_releases
  obtain ⟨pre, m, mid, cap, bm, b, ref, o, -, minted, own, -, -, -, grant, -⟩ :=
    released_granted (hostOf sampleDigests) sampleSession "run" acceptRun acceptRun_reach _ _ e lane
      "cap-1" split release
  exact ⟨pre, m, cap, bm, minted, own, grant⟩

/-! ## Denials -/

section denials

variable {host : Host} {log before after : List Event} {e : Event} {bb b b' : Blackboard}

/-- A denial spares the accept in flight: none of this epoch has the denied terms. -/
def DenialSpares (before : List Event) (e : Event) : Prop :=
  ∀ b d card, fold before = .ok b → e.payload = .approvalDecided d → d.decision = .denied →
    b.priv.pendingApproval = some card → ∀ id c, b.capabilities.get? id = some c →
      isLiveAccept c = true → c.epoch = b.epoch → c.termsHash ≠ card.termsHash

/-- The user did not deny the terms of the accept in flight in this epoch. -/
def Undenied (bb : Blackboard) (c : Capability) : Prop :=
  ∀ a ∈ bb.priv.approvals.values, a.decision = .denied → a.termsHash = c.termsHash →
    a.authorityEpoch ≠ bb.epoch

/-- A mint of a run is of undenied terms. -/
theorem undenied_of_minted {a : ActionAuthorized} (origin : Provenance host b before e)
    (applied : apply b e = .ok b') (hp : e.payload = .actionAuthorized a) :
    Undenied b' a.capability := by
  obtain ⟨ref, cap, text, was, rfl, same, _, ok⟩ := accept_of_minted origin hp
  obtain ⟨o, t, g, accept, -⟩ := acceptOffer_eq_ok ok
  obtain ⟨bid, rfl⟩ := accept.cap
  have epoch : b'.epoch = b.epoch := by
    rcases epoch_of_apply applied with ⟨⟨bump, hb⟩, _⟩ | ⟨_, same⟩
    · rw [hp] at hb; cases hb
    · exact same
  intro x hx denied terms now
  rcases approvals_of_apply applied with kept | ⟨d, card, hp', _⟩
  · rw [kept, same.approvals] at hx
    have now : x.authorityEpoch = was.epoch := now.trans (epoch.trans same.epoch)
    refine accept.undenied x (mem_decidedNow.mpr ⟨hx, ?_, now⟩) denied
    rw [accept.acceptable.bound, terms]
    rfl
  · rw [hp] at hp'; cases hp'

/-- Step lemma: while denials spare it, an accept in flight of this epoch stays undenied. -/
theorem undenied_of_apply {id : String} {c : Capability} (hb : fold before = .ok b)
    (origin : Provenance host b before e) (spares : DenialSpares before e)
    (applied : apply b e = .ok b')
    (was : ∀ {id c}, b.capabilities.get? id = some c → isLiveAccept c = true → c.epoch = b.epoch →
      Undenied b c)
    (found : b'.capabilities.get? id = some c) (live : isLiveAccept c = true)
    (epoch : c.epoch = b'.epoch) : Undenied b' c := by
  rcases isLive_of_apply (capabilityLaw_of_fold hb) applied found live with old | ⟨a, hp⟩
  · have le := capEpoch_le hb old
    rcases epoch_of_apply applied with ⟨_, forward⟩ | ⟨_, same⟩
    · omega
    · have undenied := was old live (epoch.trans same)
      intro x hx denied terms
      rw [same]
      rcases approvals_of_apply applied with kept | ⟨d, card, hp, pending, own, _, set⟩
      · exact undenied x (kept ▸ hx) denied terms
      · rw [set] at hx
        rcases Dict.mem_values_set hx with rfl | ⟨_, _, hx⟩
        · exact absurd terms.symm
            (spares b d card hb hp denied pending id c old live (epoch.trans same))
        · exact undenied x (Dict.mem_values_of_get? hx) denied terms
  · cases capabilityOrigin_of_apply (capabilityLaw_of_fold hb) applied found with
    | kept old =>
      -- another accept was in flight at the mint
      obtain ⟨ref, cap, text, w, rfl, same, _, ok⟩ := accept_of_minted origin hp
      obtain ⟨o, t, g, accept, -⟩ := acceptOffer_eq_ok ok
      have := acceptInFlight_eq_false.mp accept.alone id c (same.capabilities ▸ old)
      rw [live] at this
      cases this
    | released _ _ rel =>
      obtain ⟨lane, hp'⟩ := rel
      rw [hp] at hp'
      cases hp'
    | minted a' hp' =>
      exact undenied_of_minted origin applied hp'

end denials

/-- In every run whose denials spare the accept in flight, no accept is released against a denial of
its terms in its epoch. -/
theorem released_undenied (host : Host) (session : Session) (runId : String) (k : Kernel)
    (reach : Reach (Kernel.step host) anyStep (Kernel.start session runId) k)
    (spares : Lib.Each DenialSpares k.log) (before after : List Event) (e : Event) (lane : Lane)
    (id : String) (split : k.log = before ++ e :: after)
    (release : e.payload = .speakReleased lane (some id)) :
    ∃ b cap, fold before = .ok b ∧ b.capabilities.get? id = some cap ∧
      ∀ a ∈ b.priv.approvals.values, a.decision = .denied → a.termsHash = cap.termsHash →
        a.authorityEpoch ≠ b.epoch := by
  have traced := traced_reach reach
  obtain ⟨b, b', hb, applied, law, _, _⟩ := traced before e after split
  obtain ⟨cap, auth, offer, ok, -⟩ :=
    release_spec (capabilityLaw_of_fold hb) applied ⟨lane, release⟩
  have traced_before : Traced host before := fun x y z h =>
    traced x y (z ++ e :: after) (by rw [split, h]; simp)
  have inv : ∀ {id c}, b.capabilities.get? id = some c → isLiveAccept c = true →
      c.epoch = b.epoch → Undenied b c := by
    refine traced_before.invariant
      (I := fun b => ∀ {id c}, b.capabilities.get? id = some c → isLiveAccept c = true →
        c.epoch = b.epoch → Undenied b c) hb (fun h => by cases h) ?_
    intro x y z b₁ b₂ hs hb₁ was ha origin id c found live epoch
    exact undenied_of_apply hb₁ origin
      (spares x y (z ++ e :: after) (by rw [split, hs]; simp)) ha was found live epoch
  exact ⟨b, cap, hb, ok.found,
    inv ok.found (by simp [isLiveAccept, law.intents ok.found, ok.unused]) ok.epoch⟩

/-- No accept is in flight at the `n`-th event, if it decides a card. -/
def restsAt (log : List Event) (n : Nat) : Bool :=
  (log[n]?).all fun e => !e.payload.isCardDecision || !acceptInFlight (boardOf (log.take n))

/-- The decisions of cards that no accept in flight awaits spare it. -/
theorem spares_of_resting {log : List Event} (h : ((List.range log.length).all (restsAt log)) = true) :
    Lib.Each DenialSpares log := by
  rintro before e after rfl b d card hb hp _ _ id c found live
  have rests := List.all_eq_true.mp h before.length (by simp)
  simp only [restsAt, List.getElem?_append_right (Nat.le_refl _), Nat.sub_self,
    List.getElem?_cons_zero, Option.all_some, hp, Payload.isCardDecision, Bool.not_true,
    Bool.false_or, Bool.not_eq_eq_eq_not, List.take_left'] at rests
  rw [Except.ok.inj (hb.symm.trans (fold_boardOf hb))] at found
  rw [acceptInFlight_eq_false.mp rests id c found] at live
  cases live

def secondMandateHash : String :=
  "b7603faf8259eb80fc81fe14c06eb1beae287dbca87e666106d4d17353c79bc4"

def regrantDigests : List (String × String) := sampleDigests ++
  [(mandateJson (unhashed 1 "mandate-2" sampleLimits none), secondMandateHash),
    (jsonList [jsonString "case-1", jsonString "accept_offer", jsonString "A", jsonInt 1,
      jsonString sampleTermsHash, jsonString secondMandateHash],
      "5258ba051a79c05ccdaf229ce3fe42b66c3bf1d12975a23eb906e78c0ad30c52")]

/-- A card for offer A is denied; then the user grants the limits again, and its accept is
released. -/
def regrantedRun : Kernel :=
  Kernel.after (hostOf regrantDigests) sampleSession
    (sampleCall ++ blockOf (.tool 0 [0] (.requestApproval "A" "s2f-1")) [0] 4 ++
      blockOf (.post 0 [] ⟨.approval, "apr-A-r1-e1-0", .denied, sampleTermsHash, 1⟩ .ui) [16] 3 ++
      blockOf (.tool 0 [0] (.proposeMandate sampleLimits)) [0] 2 ++
      blockOf (.post 0 [] ⟨.mandate, "mandate-2", .granted, secondMandateHash, 1⟩ .ui) [21] 3 ++
      [.next 0 []] ++ sampleAccept ++ blockOf (.floor 0 0) [] 1)

/-- A denial of the capability's terms, in whatever epoch, among the decided cards. -/
def deniedOnce (bb : Blackboard) (id : String) : Bool :=
  (bb.capabilities.get? id).any fun c => bb.priv.approvals.values.any fun a =>
    a.decision = .denied && a.termsHash = c.termsHash

theorem regrantedRun_facts : (releasedAt regrantedRun.log 28 "cap-1" &&
    deniedOnce (boardOf (regrantedRun.log.take 28)) "cap-1" &&
    (List.range regrantedRun.log.length).all (restsAt regrantedRun.log)) = true := by decide +kernel

theorem regrantedRun_reach :
    Reach (Kernel.step (hostOf regrantDigests)) anyStep (Kernel.start sampleSession "run")
      regrantedRun := Kernel.reach_after _ _

theorem released_undenied_sample :
    ∃ b cap, fold (regrantedRun.log.take 28) = .ok b ∧ b.capabilities.get? "cap-1" = some cap ∧
      deniedOnce b "cap-1" = true ∧ Undenied b cap := by
  have facts := regrantedRun_facts
  simp only [Bool.and_eq_true] at facts
  obtain ⟨⟨releases, denied⟩, rests⟩ := facts
  obtain ⟨e, lane, split, release⟩ := release_at releases
  obtain ⟨b, cap, hb, found, undenied⟩ := released_undenied (hostOf regrantDigests) sampleSession
    "run" regrantedRun regrantedRun_reach (spares_of_resting rests) _ _ e lane "cap-1" split release
  rw [Except.ok.inj (hb.symm.trans (fold_boardOf hb))] at found undenied
  exact ⟨_, cap, fold_boardOf hb, found, denied, undenied⟩

/-- The accept is queued, a card for the same terms is asked and denied, and the line takes the
floor. -/
def deniedRun : Kernel :=
  Kernel.after (hostOf sampleDigests) sampleSession
    (sampleCall ++ sampleAccept ++ blockOf (.tool 0 [0] (.requestApproval "A" "s2f-1")) [0] 3 ++
      blockOf (.post 0 [] ⟨.approval, "apr-A-r1-e1-0", .denied, sampleTermsHash, 1⟩ .ui) [19] 2 ++
      [.next 0 []] ++ blockOf (.floor 0 0) [] 1)

/-- A denial of the capability's terms in this epoch, among the decided cards. -/
def deniedNow (bb : Blackboard) (id : String) : Bool :=
  (bb.capabilities.get? id).any fun c => bb.priv.approvals.values.any fun a =>
    a.decision = .denied && a.termsHash = c.termsHash && a.authorityEpoch = bb.epoch

theorem deniedRun_facts : (releasedAt deniedRun.log 21 "cap-1" &&
    deniedNow (boardOf (deniedRun.log.take 21)) "cap-1") = true := by decide +kernel

theorem deniedRun_reach :
    Reach (Kernel.step (hostOf sampleDigests)) anyStep (Kernel.start sampleSession "run")
      deniedRun := Kernel.reach_after _ _

/-- An accept is released although its terms were denied while its line was queued. -/
theorem released_denied :
    Reach (Kernel.step (hostOf sampleDigests)) anyStep (Kernel.start sampleSession "run") deniedRun ∧
      ∃ e lane b, deniedRun.log = deniedRun.log.take 21 ++ e :: deniedRun.log.drop 22 ∧
        e.payload = .speakReleased lane (some "cap-1") ∧
        fold (deniedRun.log.take 21) = .ok b ∧ deniedNow b "cap-1" = true := by
  obtain ⟨releases, denied⟩ := Bool.and_eq_true_iff.mp deniedRun_facts
  obtain ⟨e, lane, split, release⟩ := release_at releases
  obtain ⟨b, _, hb, _⟩ := traced_reach deniedRun_reach _ e _ split
  exact ⟨deniedRun_reach, e, lane, _, split, release, fold_boardOf hb, denied⟩

end ProxyLoop

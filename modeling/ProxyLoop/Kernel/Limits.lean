import ProxyLoop.Kernel.Grants

/-!
# The user's hard limits

The lists of a mandate, its required features and forbidden changes, are what no approval lifts.
Guard judges by the mandate on record, which a proposal replaces before anyone decides it: the
lists the user granted hold as long as every later proposal keeps them, and a verified no-deal rests
on the user's decisions as long as no undecided or denied mandate excludes an offer by itself.
-/

namespace ProxyLoop

open Lib (Dict Reach anyStep)

/-! ## Refusals -/

/-- The reasons of `accept_offer` up to a hard violation, in its order. -/
def acceptReasons : List String := ["already_committed", "case_closed", "not_in_call"] ++ offerReasons

section refusals

variable {py : Runtime} {bb : Blackboard} {ref why : String} {case_ : CaseRef}

theorem requestApproval_refused (h : openOfferAt py bb ref = .error (.denied why)) :
    requestApproval py bb ref case_ = .error (.denied why) := by
  simp [requestApproval, h, bind, Except.bind]

theorem acceptOffer_refused (h : openOfferAt py bb ref = .error (.denied why))
    (hw : why ∈ offerReasons) :
    ∃ why' ∈ acceptReasons, acceptOffer py bb ref case_ = .error (.denied why') := by
  unfold acceptOffer
  split
  · exact ⟨_, by simp [acceptReasons], rfl⟩
  split
  · exact ⟨_, by simp [acceptReasons], rfl⟩
  split
  · exact ⟨_, by simp [acceptReasons], rfl⟩
  · exact ⟨why, by simp [acceptReasons, hw], by simp [h, bind, Except.bind]⟩

end refusals

/-- Guard holds the lists of `m`: an offer whose terms break them is refused, and its accept is not
verified. -/
structure Holds (host : Host) (bb : Blackboard) (m : Mandate) : Prop where
  requested : ∀ ref o t, bb.pub.offers.get? ref = some o → offerTerms host.py o = .ok (some t) →
    breaksLists t m → ∃ why ∈ offerReasons,
      requestApproval host.py bb ref host.case_ = .error (.denied why)
  accepted : ∀ ref o t, bb.pub.offers.get? ref = some o → offerTerms host.py o = .ok (some t) →
    breaksLists t m → ∃ why ∈ acceptReasons,
      acceptOffer host.py bb ref host.case_ = .error (.denied why)
  unverified : ∀ cap t d, releasedAccepts bb = [cap] →
    acceptedTerms host.py bb cap.termsHash = .ok (some t) → breaksLists t m →
    verifyCompletion host.py bb = .ok d → d.verdict = .fail

section run

variable {host : Host} {before after : List Event} {g : Event} {d : MandateDecided}
  {b bb : Blackboard} {m m' : Mandate}

theorem holds_of_keeps (recorded : bb.priv.mandate = some m') (keeps : keepsLists m m') :
    Holds host bb m := by
  have refused : ∀ ref o t, bb.pub.offers.get? ref = some o →
      offerTerms host.py o = .ok (some t) → breaksLists t m →
      ∃ why ∈ offerReasons, openOfferAt host.py bb ref = .error (.denied why) := by
    intro ref o t found terms breaks
    have hard := hardViolations_ne_nil_of_breaksLists (breaksLists_of_keepsLists keeps breaks)
    rw [← recorded] at hard
    unfold openOfferAt
    rw [found]
    exact openOffer_refused terms hard
  refine ⟨?_, ?_, ?_⟩
  · intro ref o t found terms breaks
    obtain ⟨why, hw, h⟩ := refused ref o t found terms breaks
    exact ⟨why, hw, requestApproval_refused h⟩
  · intro ref o t found terms breaks
    obtain ⟨why, hw, h⟩ := refused ref o t found terms breaks
    exact acceptOffer_refused h hw
  · intro cap t d released terms breaks verified
    by_contra hd
    have ok : d.verdict = .ok := by
      cases hv : d.verdict with
      | ok => rfl
      | fail => exact absurd hv hd
    obtain ⟨-, cap', t', released', -, terms', none_hard⟩ := verifyCompletion_ok.mp ⟨verified, ok⟩
    rw [released] at released'
    cases released'
    rw [terms] at terms'
    cases terms'
    rw [recorded] at none_hard
    exact hardViolations_ne_nil_of_breaksLists (breaksLists_of_keepsLists keeps breaks) none_hard

/-- Run lemma: as long as every proposal keeps the lists that were granted, the recorded mandate
does. -/
theorem recorded_keeps (h : fold (before ++ g :: after) = .ok bb)
    (decision : g.payload = .mandateDecided d) (hb : fold before = .ok b)
    (mandate : b.priv.mandate = some m)
    (undecided : ∀ x ∈ after, ∀ d', x.payload ≠ .mandateDecided d')
    (keeps : ∀ x ∈ after, ∀ p, x.payload = .mandateProposed p → keepsLists m p.mandate) :
    ∃ m', bb.priv.mandate = some m' ∧ keepsLists m m' := by
  obtain ⟨b₀, b', hb₀, applied, rest⟩ := fold_at h
  rw [hb] at hb₀
  cases hb₀
  have limits : ∀ {m₁ m₂ : Mandate}, SameLimits m₁ m₂ → keepsLists m m₁ → keepsLists m m₂ := by
    intro m₁ m₂ same keeps
    have lists := same.envelope
    simp only [Mandate.envelope, Envelope.mk.injEq] at lists
    unfold keepsLists
    rw [lists.2.2.2.1, lists.2.2.2.2]
    exact keeps
  refine fold_invariant_mem (I := fun c => ∃ m', c.priv.mandate = some m' ∧ keepsLists m m') rest ?_ ?_
  · have move := mandateMove_of_apply applied
    generalize b'.priv.mandate = o at move
    cases move with
    | kept => exact ⟨m, mandate, keepsLists_refl m⟩
    | bumped was same =>
      rw [mandate] at was
      cases was
      exact ⟨_, rfl, limits same (keepsLists_refl m)⟩
    | proposed p hp => rw [decision] at hp; cases hp
    | decided d' m₁ hp found =>
      rw [mandate] at found
      cases found
      exact ⟨_, rfl, limits ⟨rfl, rfl, rfl, rfl⟩ (keepsLists_refl m)⟩
  · rintro c e c' he ⟨m', hm, kept⟩ ha
    have move := mandateMove_of_apply ha
    generalize c'.priv.mandate = o at move
    cases move with
    | kept => exact ⟨m', hm, kept⟩
    | bumped was same =>
      rw [hm] at was
      cases was
      exact ⟨_, rfl, limits same kept⟩
    | proposed p hp => exact ⟨_, rfl, keeps e he p hp⟩
    | decided d' m₁ hp => exact absurd hp (undecided e he d')

end run

/-- Only the user moves the hard limits: in every run whose proposals since a decision keep the lists
of the decided mandate, granted or not, Guard holds them until the next decision, and no accept that
breaks them is verified. -/
theorem granted_lists_hold (host : Host) (session : Session) (runId : String) (k : Kernel)
    (reach : Reach (Kernel.step host) anyStep (Kernel.start session runId) k)
    (before after : List Event) (g : Event) (d : MandateDecided) (b : Blackboard) (m : Mandate)
    (split : k.log = before ++ g :: after) (decision : g.payload = .mandateDecided d)
    (hb : fold before = .ok b) (mandate : b.priv.mandate = some m)
    (undecided : ∀ x ∈ after, ∀ d', x.payload ≠ .mandateDecided d')
    (keeps : ∀ x ∈ after, ∀ p, x.payload = .mandateProposed p → keepsLists m p.mandate) :
    Holds host k.bb m ∧
      ∀ mid x rest c bx, after = mid ++ x :: rest → fold (before ++ g :: mid) = .ok bx →
        x.payload = .statusChanged c → c.status = .verifiedComplete → ∀ cap t,
          releasedAccepts bx = [cap] → acceptedTerms host.py bx cap.termsHash = .ok (some t) →
            ¬ breaksLists t m := by
  have sound := fold_reach reach
  constructor
  · rw [split] at sound
    obtain ⟨m', recorded, kept⟩ := recorded_keeps sound decision hb mandate undecided keeps
    exact holds_of_keeps recorded kept
  · intro mid x rest c bx hafter hbx hp complete cap t released terms breaks
    have split' : k.log = (before ++ g :: mid) ++ x :: rest := by simp [split, hafter]
    obtain ⟨_, _, _, _, origin⟩ := (traced_reach reach).at split' hbx
    obtain ⟨m', recorded, kept⟩ := recorded_keeps hbx decision hb mandate
      (fun y hy => undecided y (by simp [hafter, hy]))
      (fun y hy => keeps y (by simp [hafter, hy]))
    obtain ⟨d, verified, ok⟩ := (statusOk_of_origin origin hp).complete complete
    have := (holds_of_keeps recorded kept).unverified cap t d released terms breaks verified
    rw [ok] at this
    cases this

/-! ## Two runs

The user grants a mandate that requires a feature offer A lacks. -/

def featureLimits : Envelope := { sampleLimits with requiredFeatures := ["unlimited_data"] }

def featureHash : String := "bb110400cf367ea25da343ea645c2d4d7f7a5071db2e60c371d57ab111a8237d"

def limitDigests : List (String × String) :=
  [(mandateJson (unhashed 0 "mandate-1" featureLimits none), featureHash),
    (mandateJson (unhashed 1 "mandate-2" sampleLimits none),
      "b7603faf8259eb80fc81fe14c06eb1beae287dbca87e666106d4d17353c79bc4"),
    (mandateJson (unhashed 1 "mandate-2" featureLimits none),
      "eeb3f7af70e582623fa070270dde8c48a308f8e187ef32245f084d1279df0645"),
    (mandateJson (unhashed 1 "mandate-2" { featureLimits with maxMonthlyPriceMinor := some 6500 } none),
      "e708ab7f9da654f38d424e88de130554a825fb5475ffb6ea71d720601495f781")] ++ sampleDigests

/-- Slow then proposes a lower price, and keeps the feature. -/
def loweredRun : Kernel :=
  Kernel.after (hostOf limitDigests) sampleSession
    (callUnder featureLimits featureHash ++
      blockOf (.tool 0 [0] (.proposeMandate { featureLimits with maxMonthlyPriceMinor := some 6500 }))
        [0] 2)

/-- Slow then proposes a mandate without the feature, which nobody decides. -/
def loosenedRun : Kernel :=
  Kernel.after (hostOf limitDigests) sampleSession
    (callUnder featureLimits featureHash ++
      blockOf (.tool 0 [0] (.proposeMandate sampleLimits)) [0] 2)

theorem loweredRun_reach :
    Reach (Kernel.step (hostOf limitDigests)) anyStep (Kernel.start sampleSession "run")
      loweredRun := Kernel.reach_after _ _

theorem loosenedRun_reach :
    Reach (Kernel.step (hostOf limitDigests)) anyStep (Kernel.start sampleSession "run")
      loosenedRun := Kernel.reach_after _ _

/-- No decision, and no proposal that drops an entry of the lists of `m`. -/
def Payload.keeps (m : Mandate) : Payload → Bool
  | .mandateProposed p => keepsLists m p.mandate
  | .mandateDecided _ => false
  | _ => true

/-- The mandate that the `n`-th event grants. -/
def grantedAt (log : List Event) (n : Nat) : Option Mandate :=
  match log[n]?.map Event.payload with
  | some (.mandateDecided d) =>
    if d.decision = .granted then (boardOf (log.take n)).priv.mandate else none
  | _ => none

theorem granted_at {log : List Event} {bb : Blackboard} {n : Nat} {m : Mandate}
    (h : fold log = .ok bb) (at_ : grantedAt log n = some m) :
    ∃ g d b, log = log.take n ++ g :: log.drop (n + 1) ∧ g.payload = .mandateDecided d ∧
      d.decision = .granted ∧ fold (log.take n) = .ok b ∧ b.priv.mandate = some m := by
  unfold grantedAt at at_
  split at at_
  case h_2 => cases at_
  rename_i d hp
  split at at_
  case isFalse => cases at_
  rename_i granted
  obtain ⟨g, hg, hp⟩ := Option.map_eq_some_iff.mp hp
  have split := split_at hg
  rw [split] at h
  obtain ⟨b, _, hb, _⟩ := fold_at h
  exact ⟨g, d, _, split, hp, granted, fold_boardOf hb, at_⟩

theorem loweredRun_facts : (((grantedAt loweredRun.log 7).any fun m =>
      m.requiredFeatures = ["unlimited_data"] && (loweredRun.log.drop 8).all (·.payload.keeps m)) &&
    loweredRun.bb.priv.mandate.map Mandate.status = some .proposed) = true := by decide +kernel

theorem granted_lists_hold_sample :
    loweredRun.bb.priv.mandate.map Mandate.status = some .proposed ∧
      ∃ m, m.requiredFeatures = ["unlimited_data"] ∧ Holds (hostOf limitDigests) loweredRun.bb m := by
  obtain ⟨granted, proposed⟩ := Bool.and_eq_true_iff.mp loweredRun_facts
  obtain ⟨m, at_, granted⟩ := (Option.any_eq_true ..).mp granted
  obtain ⟨features, keeps⟩ := Bool.and_eq_true_iff.mp granted
  obtain ⟨g, d, b, split, decision, -, hb, mandate⟩ :=
    granted_at (fold_reach loweredRun_reach) at_
  refine ⟨of_decide_eq_true proposed, m, of_decide_eq_true features, (granted_lists_hold
    (hostOf limitDigests) sampleSession "run" loweredRun loweredRun_reach _ _ g d b m split decision
    hb mandate (fun x hx d' hp => ?_) (fun x hx p hp => ?_)).1⟩
  · have kept := List.all_eq_true.mp keeps x hx
    rw [hp] at kept
    cases kept
  · have kept := List.all_eq_true.mp keeps x hx
    rw [hp] at kept
    exact of_decide_eq_true kept

/-- Whether `request_approval` of offer A gives a card although its terms break the lists. -/
def cardBreaks (host : Host) (bb : Blackboard) (m : Mandate) : Bool :=
  match bb.pub.offers.get? "A", requestApproval host.py bb "A" host.case_ with
  | some o, .ok _ =>
    match offerTerms host.py o with
    | .ok (some t) => Decidable.decide (breaksLists t m)
    | _ => false
  | _, _ => false

def Payload.isMandateDecision : Payload → Bool
  | .mandateDecided _ => true
  | _ => false

theorem loosenedRun_facts :
    ((grantedAt loosenedRun.log 7).any (cardBreaks (hostOf limitDigests) loosenedRun.bb) &&
      (loosenedRun.log.drop 8).all fun e => !e.payload.isMandateDecision) = true := by
  decide +kernel

/-- An undecided proposal makes Guard ask for terms that break what the user granted. -/
theorem proposal_loosens :
    ∃ g d b m o t card, loosenedRun.log = loosenedRun.log.take 7 ++ g :: loosenedRun.log.drop 8 ∧
      g.payload = .mandateDecided d ∧ d.decision = .granted ∧
      fold (loosenedRun.log.take 7) = .ok b ∧ b.priv.mandate = some m ∧
      (∀ x ∈ loosenedRun.log.drop 8, ∀ d', x.payload ≠ .mandateDecided d') ∧
      Reach (Kernel.step (hostOf limitDigests)) anyStep (Kernel.start sampleSession "run")
        loosenedRun ∧
      loosenedRun.bb.pub.offers.get? "A" = some o ∧
      offerTerms (hostOf limitDigests).py o = .ok (some t) ∧ breaksLists t m ∧
      requestApproval (hostOf limitDigests).py loosenedRun.bb "A" (hostOf limitDigests).case_ =
        .ok card := by
  obtain ⟨breaks, undecided⟩ := Bool.and_eq_true_iff.mp loosenedRun_facts
  obtain ⟨m, at_, breaks⟩ := (Option.any_eq_true ..).mp breaks
  obtain ⟨g, d, b, split, decision, granted, hb, mandate⟩ :=
    granted_at (fold_reach loosenedRun_reach) at_
  unfold cardBreaks at breaks
  split at breaks
  case h_2 => cases breaks
  rename_i o card found asked
  split at breaks
  case h_2 => cases breaks
  rename_i t terms
  refine ⟨g, d, b, m, o, t, card, split, decision, granted, hb, mandate, fun x hx d' hp => ?_,
    loosenedRun_reach, found, terms, of_decide_eq_true breaks, asked⟩
  have := List.all_eq_true.mp undecided x hx
  rw [hp] at this
  cases this

/-! ## A verified no-deal -/

def Denied (log : List Event) (hash : String) : Prop :=
  ∃ id a card, CardDecided log id a card ∧ a.decision = .denied ∧ a.termsHash = hash

/-- The offer is declined, was denied, applies an unsupported change, or breaks the lists of a
mandate the user granted. -/
def ClosedToUser (py : Runtime) (log : List Event) (o : OfferPublic) : Prop :=
  o.status = .declined ∨ (∃ h, o.termsHash = some h ∧ Denied log h) ∨
    ∃ t, offerTerms py o = .ok (some t) ∧ (unsupportedAppliedChanges t.appliedChanges ≠ [] ∨
      ∃ m, Granted log m ∧ breaksLists t m)

/-- A recorded mandate that is not granted excludes no offer by itself: what it alone would exclude,
a mandate the user granted excludes too. -/
def UserLimits (py : Runtime) (log : List Event) (bb : Blackboard) : Prop :=
  ∀ m, bb.priv.mandate = some m → m.status ≠ .granted →
    ∀ p ∈ bb.pub.offers.entries, p.2.status ≠ .declined →
      (∀ h, p.2.termsHash = some h → ¬ Denied log h) →
      ∀ t, offerTerms py p.2 = .ok (some t) → unsupportedAppliedChanges t.appliedChanges = [] →
        breaksLists t m → ∃ m', Granted log m' ∧ breaksLists t m'

theorem denied_of_hash {log : List Event} {bb : Blackboard} (h : fold log = .ok bb) {hash : String}
    (mem : hash ∈ deniedHashes bb) : Denied log hash := by
  obtain ⟨a, ha, rfl⟩ := List.mem_map.mp mem
  obtain ⟨ha, denied⟩ := List.mem_filter.mp ha
  obtain ⟨id, hid⟩ := Dict.mem_values.mp ha
  obtain ⟨card, decided⟩ := approval_decided h hid
  exact ⟨id, a, card, decided, of_decide_eq_true denied, rfl⟩

/-- After a closing status, no accept is released. -/
theorem unreleased_after {host : Host} {log before after : List Event} {e : Event}
    {bb : Blackboard} {c : StatusChanged} (traced : Traced host log) (h : fold log = .ok bb)
    (split : log = before ++ e :: after) (hp : e.payload = .statusChanged c)
    (closed : terminal c.status = true) (unawaiting : ¬ awaitsLine c.status) :
    ∀ x ∈ after, x.payload.releasesCap = false := by
  intro x hx
  by_contra hr
  rw [Bool.not_eq_false] at hr
  obtain ⟨mid, rest, rfl⟩ := List.append_of_mem hx
  rw [split] at h
  obtain ⟨b, b', hb, applied, h⟩ := fold_at h
  have now : b'.pub.status = c.status := (status_of_changed applied hp).2.1
  obtain ⟨bx, hbx, h⟩ := fold_append.mp h
  obtain ⟨bx', appliedx, _⟩ := fold_cons.mp h
  have hbx' : fold (before ++ e :: mid) = .ok bx :=
    fold_append.mpr ⟨b, hb, fold_cons.mpr ⟨b', applied, hbx⟩⟩
  have split' : log = (before ++ e :: mid) ++ x :: rest := by simp [split]
  obtain ⟨_, _, law, _, _⟩ := traced.at split' hbx'
  obtain ⟨lane, id, rel⟩ := Payload.releasesCap_eq_true hr
  obtain ⟨cap, _, _, ok, -⟩ := release_spec (capabilityLaw_of_fold hbx') appliedx ⟨lane, rel⟩
  have still : bx.pub.status = c.status :=
    (status_terminal hbx (by rw [now]; exact closed)).trans now
  rcases law.live ok.found (by simp [isLiveAccept, law.intents ok.found, ok.unused]) with w | w
  · exact unawaiting (still ▸ w)
  · rw [still] at w
    rw [w] at closed
    cases closed

/-- Where the verifier finds no deal, every offer is closed to the user exactly when the limits are
the user's. -/
theorem closed_iff_userLimits {py : Runtime} {log : List Event} {bb : Blackboard} {heard : Heard}
    {d : CompletionDecision} (hb : fold log = .ok bb) (verified : verifyNoDeal py bb heard = .ok d)
    (ok : d.verdict = .ok) :
    (∀ p ∈ bb.pub.offers.entries, ClosedToUser py log p.2) ↔ UserLimits py log bb := by
  have offers := (verifyNoDeal_ok verified ok).1
  constructor
  · intro closed m hm ungranted p hmem undeclined undenied t terms supported _
    rcases closed p hmem with h | ⟨h, hh, denied⟩ | ⟨t', terms', h⟩
    · exact absurd h undeclined
    · exact absurd denied (undenied h hh)
    · rw [terms] at terms'
      cases terms'
      rcases h with h | h
      · exact absurd supported h
      · exact h
  · intro limits p hmem
    by_cases declined : p.2.status = .declined
    · exact Or.inl declined
    by_cases denied : ∃ h, p.2.termsHash = some h ∧ Denied log h
    · exact Or.inr (Or.inl denied)
    rcases offers p hmem with h | ⟨h, hh, hash⟩ | ⟨t, terms, hard⟩
    · exact absurd h declined
    · exact absurd ⟨h, hash, denied_of_hash hb hh⟩ denied
    refine Or.inr (Or.inr ⟨t, terms, ?_⟩)
    by_cases supported : unsupportedAppliedChanges t.appliedChanges = []
    · right
      have breaks : ∃ m, bb.priv.mandate = some m ∧ breaksLists t m := by
        by_contra none_
        refine hard (hardViolations_eq_nil.mpr ⟨fun m hm hbr => none_ ⟨m, hm, hbr⟩, supported⟩)
      obtain ⟨m, recorded, breaks⟩ := breaks
      by_cases granted : m.status = .granted
      · obtain ⟨m₀, given, same⟩ := granted_of_status hb recorded granted
        exact ⟨m₀, given, same.breaksLists.mp breaks⟩
      · exact limits m recorded granted p hmem declined
          (fun h hh hd => denied ⟨h, hh, hd⟩) t terms supported breaks
    · exact Or.inl supported

/-- A verified no-deal: no accept is ever released, and every offer is closed to the user exactly
when no mandate the user did not grant excludes an offer by itself. -/
theorem noDeal_rests (host : Host) (session : Session) (runId : String) (k : Kernel)
    (reach : Reach (Kernel.step host) anyStep (Kernel.start session runId) k)
    (before after : List Event) (e : Event) (c : StatusChanged) (b : Blackboard)
    (split : k.log = before ++ e :: after) (hp : e.payload = .statusChanged c)
    (noDeal : c.status = .verifiedNoDeal) (hb : fold before = .ok b) :
    (∀ x ∈ k.log, x.payload.releasesCap = false) ∧
      ((∀ p ∈ b.pub.offers.entries, ClosedToUser host.py before p.2) ↔
        UserLimits host.py before b) := by
  have traced := traced_reach reach
  have sound := fold_reach reach
  obtain ⟨b', applied, law, _, origin⟩ := traced.at split hb
  obtain ⟨heard, d, verified, ok⟩ := (statusOk_of_origin origin hp).noDeal noDeal
  refine ⟨?_, closed_iff_userLimits hb verified ok⟩
  have released := (verifyNoDeal_ok verified ok).2
  have none_used : b.capabilities.count Capability.consumed = 0 := by
    rw [Dict.count_eq_zero]
    intro id cap hc
    cases hu : cap.consumed with
    | false => rfl
    | true =>
      have : cap ∈ releasedAccepts b := List.mem_filter.mpr
        ⟨Dict.mem_values_of_get? hc, by simp [isReleasedAccept, law.intents hc, hu]⟩
      rw [released] at this
      cases this
  rw [← releases_count hb, List.countP_eq_zero] at none_used
  have later := unreleased_after traced sound split hp (by rw [noDeal]; rfl)
    (by rw [noDeal]; rintro (h | h) <;> cases h)
  intro x hx
  rw [split] at hx
  rcases List.mem_append.mp hx with hx | hx
  · simpa using none_used x hx
  · rcases List.mem_cons.mp hx with rfl | hx
    · rw [hp]; rfl
    · exact later x hx

/-- A granted mandate excludes by itself. -/
theorem userLimits_of_granted {py : Runtime} {log : List Event} {bb : Blackboard}
    (granted : ∀ m, bb.priv.mandate = some m → m.status = .granted) : UserLimits py log bb :=
  fun m hm ungranted => absurd (granted m hm) ungranted

/-- A verified no-deal under a granted mandate, or under none, has closed every offer to the user. -/
theorem closed_of_granted (host : Host) (session : Session) (runId : String) (k : Kernel)
    (reach : Reach (Kernel.step host) anyStep (Kernel.start session runId) k)
    (before after : List Event) (e : Event) (c : StatusChanged) (b : Blackboard)
    (split : k.log = before ++ e :: after) (hp : e.payload = .statusChanged c)
    (noDeal : c.status = .verifiedNoDeal) (hb : fold before = .ok b)
    (granted : ∀ m, b.priv.mandate = some m → m.status = .granted) :
    ∀ p ∈ b.pub.offers.entries, ClosedToUser host.py before p.2 := by
  obtain ⟨b', applied, -, -, origin⟩ := (traced_reach reach).at split hb
  obtain ⟨heard, d, verified, ok⟩ := (statusOk_of_origin origin hp).noDeal noDeal
  exact (closed_iff_userLimits hb verified ok).mpr (userLimits_of_granted granted)

/-! ## Two closings

Offer A lacks the feature that is required by the granted mandate, or only by one that Slow
proposed. -/

def finishNoDealCall : Kernel.Act := .tool 0 [0] (.finish .noDeal ⟨true, true, false, none⟩)

def noDealRun : Kernel :=
  Kernel.after (hostOf limitDigests) sampleSession
    (callUnder featureLimits featureHash ++ blockOf finishNoDealCall [0] 3)

def proposedNoDealRun : Kernel :=
  Kernel.after (hostOf limitDigests) sampleSession
    (sampleCall ++ blockOf (.tool 0 [0] (.proposeMandate featureLimits)) [0] 2 ++
      blockOf finishNoDealCall [0] 3)

/-- The `n`-th event moves the case to `s`. -/
def statusAt (log : List Event) (n : Nat) (s : CaseStatus) : Bool :=
  match log[n]?.map Event.payload with
  | some (.statusChanged c) => c.status = s
  | _ => false

theorem status_at {log : List Event} {bb : Blackboard} {n : Nat} {s : CaseStatus}
    (h : fold log = .ok bb) (at_ : statusAt log n s = true) :
    ∃ e c, log = log.take n ++ e :: log.drop (n + 1) ∧ e.payload = .statusChanged c ∧
      c.status = s ∧ fold (log.take n) = .ok (boardOf (log.take n)) := by
  unfold statusAt at at_
  split at at_
  case h_2 => cases at_
  rename_i c hp
  obtain ⟨e, he, hp⟩ := Option.map_eq_some_iff.mp hp
  have split := split_at he
  rw [split] at h
  obtain ⟨b, _, hb, _⟩ := fold_at h
  exact ⟨e, c, split, hp, of_decide_eq_true at_, fold_boardOf hb⟩

theorem noDealRun_facts :
    statusAt noDealRun.log 14 .verifiedNoDeal = true ∧
      ((boardOf (noDealRun.log.take 14)).priv.mandate).map Mandate.status = some .granted ∧
      (boardOf (noDealRun.log.take 14)).pub.offers.entries ≠ [] := by
  decide +kernel

theorem noDealRun_reach :
    Reach (Kernel.step (hostOf limitDigests)) anyStep (Kernel.start sampleSession "run")
      noDealRun := Kernel.reach_after _ _

theorem noDeal_rests_sample :
    (boardOf (noDealRun.log.take 14)).pub.offers.entries ≠ [] ∧
      ∀ p ∈ (boardOf (noDealRun.log.take 14)).pub.offers.entries,
        ClosedToUser (hostOf limitDigests).py (noDealRun.log.take 14) p.2 := by
  obtain ⟨e, c, split, hp, noDeal, hb⟩ :=
    status_at (fold_reach noDealRun_reach) noDealRun_facts.1
  have rests := noDeal_rests (hostOf limitDigests) sampleSession "run" noDealRun noDealRun_reach
    (noDealRun.log.take 14) (noDealRun.log.drop 15) e c (boardOf (noDealRun.log.take 14)) split hp
    noDeal hb
  obtain ⟨m, recorded, granted⟩ := Option.map_eq_some_iff.mp noDealRun_facts.2.1
  exact ⟨noDealRun_facts.2.2, rests.2.mpr (userLimits_of_granted fun m' h => by
    cases recorded.symm.trans h
    exact granted)⟩

/-- An offer that no decline, denial or unsupported change closes, in a log that grants no mandate
with lists. -/
def stillOpenAt (py : Runtime) (log : List Event) (ref : String) : Bool :=
  match (boardOf log).pub.offers.get? ref with
  | some o =>
    o.status = .open && (boardOf log).priv.approvals.values.isEmpty &&
      (log.all fun e => !e.payload.isCardDecision) &&
      match offerTerms py o with
      | .ok (some t) => (unsupportedAppliedChanges t.appliedChanges).isEmpty &&
          (List.range log.length).all fun n =>
            (grantedAt log n).all fun m => !Decidable.decide (breaksLists t m)
      | _ => false
  | none => false

theorem proposedNoDealRun_facts :
    statusAt proposedNoDealRun.log 16 .verifiedNoDeal = true ∧
      stillOpenAt (hostOf limitDigests).py (proposedNoDealRun.log.take 16) "A" = true := by
  decide +kernel

theorem not_closed_of_stillOpen {py : Runtime} {log : List Event} {ref : String} {bb : Blackboard}
    (h : fold log = .ok bb) (stillOpen : stillOpenAt py log ref = true) :
    ∃ o, (boardOf log).pub.offers.get? ref = some o ∧ ¬ ClosedToUser py log o := by
  unfold stillOpenAt at stillOpen
  split at stillOpen
  case h_2 => cases stillOpen
  rename_i o found
  simp only [Bool.and_eq_true, decide_eq_true_eq] at stillOpen
  obtain ⟨⟨⟨isOpen, _⟩, undecided⟩, rest⟩ := stillOpen
  split at rest
  case h_2 => cases rest
  rename_i t terms
  simp only [Bool.and_eq_true, List.isEmpty_iff, List.all_eq_true, List.mem_range] at rest
  refine ⟨o, found, ?_⟩
  rintro (h | ⟨hash, _, id, a, card, decided, _⟩ | ⟨t', terms', hard | ⟨m, granted, breaks⟩⟩)
  · rw [isOpen] at h; cases h
  · obtain ⟨before, e, after, b, d, rfl, _, hp, _⟩ := decided.event
    have := List.all_eq_true.mp undecided e (by simp)
    rw [hp] at this
    cases this
  · rw [terms] at terms'
    cases terms'
    exact hard rest.1
  · rw [terms] at terms'
    cases terms'
    obtain ⟨before, e, after, b, d, rfl, hb, hp, yes, recorded, _⟩ := granted
    have at_ : grantedAt (before ++ e :: after) before.length = some m := by
      have board : boardOf before = b := by rw [boardOf, hb]
      simp [grantedAt, hp, yes, board, recorded]
    have := rest.2 before.length (by simp)
    rw [at_] at this
    simp [breaks] at this

theorem proposedNoDealRun_reach :
    Reach (Kernel.step (hostOf limitDigests)) anyStep (Kernel.start sampleSession "run")
      proposedNoDealRun := Kernel.reach_after _ _

/-- The case is closed without a deal over an offer that only an undecided proposal excludes. -/
theorem noDeal_over_open_offer :
    Reach (Kernel.step (hostOf limitDigests)) anyStep (Kernel.start sampleSession "run")
        proposedNoDealRun ∧
      ∃ e c o, proposedNoDealRun.log =
          proposedNoDealRun.log.take 16 ++ e :: proposedNoDealRun.log.drop 17 ∧
        e.payload = .statusChanged c ∧ c.status = .verifiedNoDeal ∧
        fold (proposedNoDealRun.log.take 16) = .ok (boardOf (proposedNoDealRun.log.take 16)) ∧
        (boardOf (proposedNoDealRun.log.take 16)).pub.offers.get? "A" = some o ∧
        ¬ ClosedToUser (hostOf limitDigests).py (proposedNoDealRun.log.take 16) o := by
  refine ⟨proposedNoDealRun_reach, ?_⟩
  obtain ⟨e, c, split, hp, noDeal, hb⟩ :=
    status_at (fold_reach proposedNoDealRun_reach) proposedNoDealRun_facts.1
  obtain ⟨o, found, stillOpen⟩ := not_closed_of_stillOpen hb proposedNoDealRun_facts.2
  exact ⟨e, c, o, split, hp, noDeal, hb, found, stillOpen⟩

end ProxyLoop

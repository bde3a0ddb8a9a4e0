import ProxyLoop.Core.Effects

/-!
# The capabilities of the fold

Of the accept capabilities on the board at most one is in flight, at most one of each terms was
released, and the two never share their terms.  A released one stays: only a capability in flight
leaves the board, by its revocation, after which its id may be minted again.
-/

namespace ProxyLoop

open Lib (Dict)

def Event.mints (e : Event) (id : String) : Prop :=
  ∃ a, e.payload = .actionAuthorized a ∧ a.capability.capId = id

def Event.releases (e : Event) (id : String) : Prop :=
  ∃ lane, e.payload = .speakReleased lane (some id)

def Event.revokes (e : Event) (id : String) : Prop :=
  ∃ lane reason, e.payload = .speakRevoked lane reason (some id)

/-! ## The law of one board -/

structure CapabilityLaw (bb : Blackboard) : Prop where
  /-- a capability is kept under its own id -/
  keyed : ∀ {k c}, bb.capabilities.get? k = some c → c.capId = k
  /-- one accept in flight -/
  alone : ∀ {k k' c c'}, bb.capabilities.get? k = some c → bb.capabilities.get? k' = some c' →
    isLiveAccept c = true → isLiveAccept c' = true → k = k'
  /-- one released accept of the same terms -/
  once : ∀ {k k' c c'}, bb.capabilities.get? k = some c → bb.capabilities.get? k' = some c' →
    isReleasedAccept c = true → isReleasedAccept c' = true → c.termsHash = c'.termsHash → k = k'
  /-- an accept in flight is not of released terms -/
  apart : ∀ {k k' c c'}, bb.capabilities.get? k = some c → bb.capabilities.get? k' = some c' →
    isLiveAccept c = true → isReleasedAccept c' = true → c.termsHash ≠ c'.termsHash
  /-- every capability was authorized -/
  authorized : ∀ {k c}, bb.capabilities.get? k = some c →
    ∃ a ∈ bb.authorizations, a.capId = c.capId

theorem capabilityLaw_empty : CapabilityLaw {} where
  keyed h := by cases h
  alone h := by cases h
  once h := by cases h
  apart h := by cases h
  authorized h := by cases h

theorem CapabilityLaw.congr {bb b : Blackboard} (law : CapabilityLaw bb)
    (caps : b.capabilities = bb.capabilities) (auths : b.authorizations = bb.authorizations) :
    CapabilityLaw b where
  keyed h := law.keyed (caps ▸ h)
  alone h h' := law.alone (caps ▸ h) (caps ▸ h')
  once h h' := law.once (caps ▸ h) (caps ▸ h')
  apart h h' := law.apart (caps ▸ h) (caps ▸ h')
  authorized h := auths ▸ law.authorized (caps ▸ h)

theorem isLiveAccept_of_unused {c : Capability} (h : c.consumed = false) :
    isLiveAccept c = decide (c.intent = .acceptOffer) := by
  simp [isLiveAccept, h]

theorem isReleasedAccept_of_unused {c : Capability} (h : c.consumed = false) :
    isReleasedAccept c = false := by
  simp [isReleasedAccept, h]

/-- A mint: the new capability is the one in flight, of terms never released. -/
theorem CapabilityLaw.minted {bb : Blackboard} (law : CapabilityLaw bb) {cap : Capability}
    {auth : Authorization} (hid : auth.capId = cap.capId) (unused : cap.consumed = false)
    (once : cap.intent = .acceptOffer → releasedAccept bb (some cap.termsHash) = false)
    (alone : cap.intent = .acceptOffer → acceptInFlight bb = false) :
    CapabilityLaw { bb with
      authorizations := bb.authorizations ++ [auth]
      capabilities := bb.capabilities.set cap.capId cap } := by
  have accept : isLiveAccept cap = true → cap.intent = .acceptOffer := fun h => by
    simpa [isLiveAccept_of_unused unused] using h
  have none_live : isLiveAccept cap = true → ∀ {k c}, bb.capabilities.get? k = some c →
      isLiveAccept c = false := fun h k c hc =>
    acceptInFlight_eq_false.mp (alone (accept h)) k c hc
  have none_same : isLiveAccept cap = true → ∀ {k c}, bb.capabilities.get? k = some c →
      isReleasedAccept c = true → c.termsHash ≠ cap.termsHash := fun h k c hc =>
    releasedAccept_eq_false.mp (once (accept h)) k c hc
  have unreleased := isReleasedAccept_of_unused unused
  constructor
  · intro k c h
    rw [Dict.get?_set] at h
    split at h
    · cases h; rename_i hk; exact hk.symm
    · exact law.keyed h
  · intro k k' c c' h h' hl hl'
    rw [Dict.get?_set] at h h'
    split at h <;> split at h'
    · rename_i e e'; rw [e, e']
    · cases h; rw [none_live hl h'] at hl'; cases hl'
    · cases h'; rw [none_live hl' h] at hl; cases hl
    · exact law.alone h h' hl hl'
  · intro k k' c c' h h' hr hr' ht
    rw [Dict.get?_set] at h h'
    split at h
    · cases h; rw [unreleased] at hr; cases hr
    · split at h'
      · cases h'; rw [unreleased] at hr'; cases hr'
      · exact law.once h h' hr hr' ht
  · intro k k' c c' h h' hl hr
    rw [Dict.get?_set] at h h'
    split at h'
    · cases h'; rw [unreleased] at hr; cases hr
    · split at h
      · cases h; exact (none_same hl h' hr).symm
      · exact law.apart h h' hl hr
  · intro k c h
    rw [Dict.get?_set] at h
    split at h
    · cases h; exact ⟨auth, by simp, hid⟩
    · obtain ⟨a, ha, e⟩ := law.authorized h
      exact ⟨a, by simp [ha], e⟩

/-- A release: the capability in flight becomes the one released accept of its terms. -/
theorem CapabilityLaw.consumed {bb : Blackboard} (law : CapabilityLaw bb) {cap : Capability}
    (found : bb.capabilities.get? cap.capId = some cap) (unused : cap.consumed = false)
    (once : cap.intent = .acceptOffer → releasedAccept bb (some cap.termsHash) = false) :
    CapabilityLaw (consume bb cap) := by
  have hlive := isLiveAccept_of_unused unused
  have accept : isReleasedAccept { cap with consumed := true } = true →
      cap.intent = .acceptOffer := fun h => by simpa [isReleasedAccept] using h
  have dead : isLiveAccept { cap with consumed := true } = false := by simp [isLiveAccept]
  have none_same : cap.intent = .acceptOffer → ∀ {k c}, bb.capabilities.get? k = some c →
      isReleasedAccept c = true → c.termsHash ≠ cap.termsHash := fun h k c hc =>
    releasedAccept_eq_false.mp (once h) k c hc
  constructor
  · intro k c h
    simp only [consume, Dict.get?_set] at h
    split at h
    · cases h; rename_i hk; exact hk.symm
    · exact law.keyed h
  · intro k k' c c' h h' hl hl'
    simp only [consume, Dict.get?_set] at h h'
    split at h
    · cases h; rw [dead] at hl; cases hl
    · split at h'
      · cases h'; rw [dead] at hl'; cases hl'
      · exact law.alone h h' hl hl'
  · intro k k' c c' h h' hr hr' ht
    simp only [consume, Dict.get?_set] at h h'
    split at h <;> split at h'
    · rename_i e e'; rw [e, e']
    · cases h; exact absurd ht.symm (none_same (accept hr) h' hr')
    · cases h'; exact absurd ht (none_same (accept hr') h hr)
    · exact law.once h h' hr hr' ht
  · intro k k' c c' h h' hl hr
    simp only [consume, Dict.get?_set] at h h'
    split at h
    · cases h; rw [dead] at hl; cases hl
    · rename_i hk
      split at h'
      · cases h'
        -- the other live accept would be the released one itself
        have : isLiveAccept cap = true := by rw [hlive]; simpa using accept hr
        exact absurd (law.alone h found hl this) hk
      · exact law.apart h h' hl hr
  · intro k c h
    simp only [consume, Dict.get?_set] at h
    split at h
    · cases h
      obtain ⟨a, ha, e⟩ := law.authorized found
      exact ⟨a, ha, e⟩
    · exact law.authorized h

theorem CapabilityLaw.erased {bb : Blackboard} (law : CapabilityLaw bb) (id : String) :
    CapabilityLaw { bb with capabilities := bb.capabilities.erase id } := by
  have kept : ∀ {k c}, (bb.capabilities.erase id).get? k = some c →
      bb.capabilities.get? k = some c := fun {k c} h => by
    rw [Dict.get?_erase] at h
    split at h
    · cases h
    · exact h
  exact
    { keyed := fun h => law.keyed (kept h)
      alone := fun h h' => law.alone (kept h) (kept h')
      once := fun h h' => law.once (kept h) (kept h')
      apart := fun h h' => law.apart (kept h) (kept h')
      authorized := fun h => law.authorized (kept h) }

/-- Step lemma: every accepted event keeps the law. -/
theorem CapabilityLaw.apply {bb bb' : Blackboard} {e : Event} (law : CapabilityLaw bb)
    (h : apply bb e = .ok bb') : CapabilityLaw bb' := by
  obtain ⟨b, hc, rfl⟩ := change_of_apply h
  suffices hb : CapabilityLaw b from hb.congr rfl rfl
  cases hc with
  | quiet hp same => exact law.congr same.capabilities same.authorizations
  | minted a hp intent epoch unused fresh live once alone bound =>
    exact law.minted rfl unused (fun h => once (intent ▸ h)) (fun h => alone (intent ▸ h))
  | released lane id named cap auth offer hp found unused own =>
    have hid := law.keyed found
    rw [hid, found] at own
    cases own
    rename_i once
    exact law.consumed (hid ▸ found) unused once
  | revoked lane reason id cap hp found unused => exact law.erased cap.capId
  | _ => exact law.congr rfl rfl

theorem capabilityLaw_of_fold {events : List Event} {bb : Blackboard}
    (h : fold events = .ok bb) : CapabilityLaw bb :=
  fold_invariant h capabilityLaw_empty fun law ha => law.apply ha

structure MintOk (bb : Blackboard) (e : Event) (a : ActionAuthorized) : Prop where
  intent : a.capability.intent = a.intent
  epoch : a.capability.epoch = bb.epoch
  unused : a.capability.consumed = false
  live : (e.tMs : Int) < a.capability.expiresMs
  bound : a.intent = .acceptOffer →
    ((offerWith bb a.capability.termsHash).map Prod.fst).isSome = true

theorem minted_of_apply {bb bb' : Blackboard} {e : Event} {a : ActionAuthorized}
    (h : apply bb e = .ok bb') (hp : e.payload = .actionAuthorized a) : MintOk bb e a := by
  obtain ⟨b, hc, rfl⟩ := change_of_apply h
  cases hc with
  | minted a' hp' intent epoch unused fresh live once alone bound =>
    rw [hp] at hp'
    cases hp'
    exact ⟨intent, epoch, unused, live, bound⟩
  | quiet hq => rw [hp] at hq; cases hq
  | _ => simp_all

/-! ## What one event does to one capability -/

/-- A capability stays, or it was in flight and the event released or revoked it. -/
inductive CapabilityMove (e : Event) (k : String) (c : Capability) :
    Option Capability → Prop
  | kept : CapabilityMove e k c (some c)
  | released (unused : c.consumed = false) (by_ : e.releases k) :
      CapabilityMove e k c (some { c with consumed := true })
  | revoked (unused : c.consumed = false) (by_ : e.revokes k) : CapabilityMove e k c none

theorem capabilityMove_of_apply {bb bb' : Blackboard} {e : Event} (law : CapabilityLaw bb)
    (h : apply bb e = .ok bb') {k : String} {c : Capability}
    (hk : bb.capabilities.get? k = some c) :
    CapabilityMove e k c (bb'.capabilities.get? k) := by
  obtain ⟨b, hc, rfl⟩ := change_of_apply h
  show CapabilityMove e k c (b.capabilities.get? k)
  cases hc with
  | quiet hp same => rw [same.capabilities, hk]; exact .kept
  | minted a hp intent epoch unused fresh =>
    have hne : k ≠ a.capability.capId := fun e => by rw [e, fresh] at hk; cases hk
    rw [Dict.get?_set_ne _ hne, hk]
    exact .kept
  | released lane id named cap auth offer hp found unused own =>
    have hid := law.keyed found
    rw [hid, found] at own
    cases own
    by_cases e' : k = id
    · subst e'
      rw [found] at hk
      cases hk
      have : (consume bb c).capabilities.get? k = some { c with consumed := true } := by
        rw [← hid]; exact Dict.get?_set_self ..
      rw [this]
      exact .released unused ⟨lane, hp⟩
    · simp only [consume, hid, Dict.get?_set_ne _ e', hk]
      exact .kept
  | revoked lane reason id cap hp found unused =>
    have hid := law.keyed found
    by_cases e' : k = id
    · subst e'
      rw [found] at hk
      cases hk
      simp only [hid, Dict.get?_erase_self]
      exact .revoked unused ⟨lane, reason, hp⟩
    · simp only [hid, Dict.get?_erase_ne _ e', hk]
      exact .kept
  | _ =>
    show CapabilityMove e k c (bb.capabilities.get? k)
    rw [hk]; exact .kept

/-- Where a capability on the board comes from: it was there, or was used by this release, or is
minted by this event. -/
inductive CapabilityOrigin (bb : Blackboard) (e : Event) (k : String) : Capability → Prop
  | kept {c : Capability} (was : bb.capabilities.get? k = some c) : CapabilityOrigin bb e k c
  | released {c : Capability} (was : bb.capabilities.get? k = some c)
      (unused : c.consumed = false) (by_ : e.releases k) :
      CapabilityOrigin bb e k { c with consumed := true }
  | minted (a : ActionAuthorized) (hp : e.payload = .actionAuthorized a)
      (intent : a.capability.intent = a.intent) (unused : a.capability.consumed = false)
      (own : a.capability.capId = k) : CapabilityOrigin bb e k a.capability

theorem capabilityOrigin_of_apply {bb bb' : Blackboard} {e : Event} (law : CapabilityLaw bb)
    (h : apply bb e = .ok bb') {k : String} {c : Capability}
    (hk : bb'.capabilities.get? k = some c) : CapabilityOrigin bb e k c := by
  obtain ⟨b, hc, rfl⟩ := change_of_apply h
  replace hk : b.capabilities.get? k = some c := hk
  cases hc with
  | quiet hp same => exact .kept (same.capabilities ▸ hk)
  | minted a hp intent epoch unused fresh =>
    rw [Dict.get?_set] at hk
    split at hk
    · rename_i own
      cases hk
      exact .minted a hp intent unused own.symm
    · exact .kept hk
  | released lane id named cap auth offer hp found unused own =>
    have hid := law.keyed found
    rw [hid, found] at own
    cases own
    simp only [consume, Dict.get?_set] at hk
    split at hk
    · rename_i e'
      cases hk
      rw [hid] at e'
      subst e'
      exact .released found unused ⟨lane, hp⟩
    · exact .kept hk
  | revoked lane reason id cap hp found unused =>
    rw [Dict.get?_erase] at hk
    split at hk
    · cases hk
    · exact .kept hk
  | _ => exact .kept hk

/-- A consumed capability is never un-consumed, replaced or removed. -/
theorem consumed_stays {events : List Event} {bb bb' : Blackboard} (law : CapabilityLaw bb)
    (h : fold events bb = .ok bb') {k : String} {c : Capability}
    (hk : bb.capabilities.get? k = some c) (used : c.consumed = true) :
    bb'.capabilities.get? k = some c := by
  refine (fold_invariant (I := fun b => CapabilityLaw b ∧ b.capabilities.get? k = some c) h
    ⟨law, hk⟩ ?_).2
  rintro b e b' ⟨lawb, hb⟩ ha
  refine ⟨lawb.apply ha, ?_⟩
  have := capabilityMove_of_apply lawb ha hb
  generalize b'.capabilities.get? k = o at this
  cases this with
  | kept => rfl
  | released unused => rw [used] at unused; cases unused
  | revoked unused => rw [used] at unused; cases unused

/-- A revoked id is free until it is minted again. -/
theorem absent_until_minted {events : List Event} {bb bb' : Blackboard}
    (h : fold events bb = .ok bb') {k : String} (hk : bb.capabilities.get? k = none)
    (unminted : ∀ m ∈ events, ¬ m.mints k) (law : CapabilityLaw bb) :
    bb'.capabilities.get? k = none := by
  induction events generalizing bb with
  | nil => cases h; exact hk
  | cons e events ih =>
    obtain ⟨b, hb, h⟩ := fold_cons.mp h
    refine ih h ?_ (fun m hm => unminted m (List.mem_cons_of_mem _ hm)) (law.apply hb)
    obtain ⟨b', hc, rfl⟩ := change_of_apply hb
    show b'.capabilities.get? k = none
    cases hc with
    | quiet hp same => rw [same.capabilities, hk]
    | minted a hp =>
      have hne : k ≠ a.capability.capId := fun e' =>
        unminted e (List.mem_cons_self ..) ⟨a, hp, e'.symm⟩
      exact (Dict.get?_set_ne _ hne _).trans hk
    | released lane id named cap auth offer hp found unused own =>
      have hne : k ≠ cap.capId := fun e' => by
        rw [← law.keyed own, ← e', hk] at own; cases own
      exact (Dict.get?_set_ne _ hne _).trans hk
    | revoked lane reason id cap hp found unused =>
      show (bb.capabilities.erase cap.capId).get? k = none
      rw [Dict.get?_erase]
      split
      · rfl
      · exact hk
    | _ => exact hk

/-! ## Releases and revocations in the log -/

/-- What an accepted release found: the capability in flight, no fence, the epoch, the open offer
with the authorized terms, and time left. -/
structure ReleaseOk (bb : Blackboard) (e : Event) (id : String) (cap : Capability)
    (auth : Authorization) (offer : OfferPublic) : Prop where
  found : bb.capabilities.get? id = some cap
  own : cap.capId = id
  unused : cap.consumed = false
  authorized : bb.authorizations.find? (·.capId = id) = some auth
  of : authorizedOffer bb (some auth) = some offer
  epoch : cap.epoch = bb.epoch
  unfenced : bb.fences = []
  isOpen : offer.status = .open
  terms : offer.termsHash = some cap.termsHash
  live : (e.tMs : Int) < cap.expiresMs
  once : cap.intent = .acceptOffer → releasedAccept bb (some cap.termsHash) = false

theorem release_spec {bb bb' : Blackboard} {e : Event} {id : String} (law : CapabilityLaw bb)
    (h : apply bb e = .ok bb') (rel : e.releases id) :
    ∃ cap auth offer, ReleaseOk bb e id cap auth offer ∧ bb' = stamp (consume bb cap) e := by
  obtain ⟨lane, hp⟩ := rel
  obtain ⟨b, hc, rfl⟩ := change_of_apply h
  cases hc with
  | released lane' id' named cap auth offer hp' found unused own authorized of epoch unfenced
      isOpen terms live once =>
    rw [hp] at hp'
    cases hp'
    have hid := law.keyed found
    rw [hid, found] at own
    cases own
    exact ⟨_, auth, offer, ⟨found, hid, unused, hid ▸ authorized, of, epoch, unfenced, isOpen,
      terms, live, once⟩, rfl⟩
  | quiet hq => rw [hp] at hq; cases hq
  | _ => simp_all

theorem released_get? {bb bb' : Blackboard} {e : Event} {id : String} (law : CapabilityLaw bb)
    (h : apply bb e = .ok bb') (rel : e.releases id) :
    ∃ c, bb.capabilities.get? id = some c ∧ c.consumed = false ∧
      bb'.capabilities.get? id = some { c with consumed := true } := by
  obtain ⟨cap, auth, offer, ok, rfl⟩ := release_spec law h rel
  refine ⟨cap, ok.found, ok.unused, ?_⟩
  rw [← ok.own]
  exact Dict.get?_set_self ..

/-- A revocation takes a capability in flight off the board. -/
theorem revoked_get? {bb bb' : Blackboard} {e : Event} {id : String} (law : CapabilityLaw bb)
    (h : apply bb e = .ok bb') (rev : e.revokes id) :
    (∃ c, bb.capabilities.get? id = some c ∧ c.consumed = false) ∧
      bb'.capabilities.get? id = none := by
  obtain ⟨lane, reason, hp⟩ := rev
  obtain ⟨b, hc, rfl⟩ := change_of_apply h
  cases hc with
  | revoked lane' reason' id' cap hp' found unused =>
    rw [hp] at hp'
    cases hp'
    exact ⟨⟨cap, found, unused⟩, by simp [stamp, law.keyed found]⟩
  | quiet hq => rw [hp] at hq; cases hq
  | _ => simp_all

/-- The capability laws of a run: the law of its board, what each event did to each capability,
and, in the log, that a released capability is never released again or revoked, and a revoked one
is released only if minted again in between. -/
theorem capability_laws (events : List Event) (bb : Blackboard) (h : fold events = .ok bb) :
    CapabilityLaw bb ∧
    (∀ before e after b b', events = before ++ e :: after → fold before = .ok b →
      apply b e = .ok b' → ∀ k c, b.capabilities.get? k = some c →
        CapabilityMove e k c (b'.capabilities.get? k)) ∧
    (∀ before after b, events = before ++ after → fold before = .ok b →
      ∀ k c, b.capabilities.get? k = some c → c.consumed = true →
        bb.capabilities.get? k = some c) ∧
    (∀ before e mid e' after id, events = before ++ e :: (mid ++ e' :: after) →
      e.releases id → ¬ e'.releases id ∧ ¬ e'.revokes id) ∧
    (∀ before e mid e' after id, events = before ++ e :: (mid ++ e' :: after) →
      e.revokes id → e'.releases id → ∃ m ∈ mid, m.mints id) := by
  refine ⟨capabilityLaw_of_fold h, ?_, ?_, ?_, ?_⟩
  · intro before e after b b' _ hb ha k c hk
    exact capabilityMove_of_apply (capabilityLaw_of_fold hb) ha hk
  · rintro before after b rfl hb k c hk used
    obtain ⟨b', hb', hr⟩ := fold_append.mp h
    rw [hb] at hb'
    cases hb'
    exact consumed_stays (capabilityLaw_of_fold hb) hr hk used
  · rintro before e mid e' after id rfl rel
    obtain ⟨b, hb, h⟩ := fold_append.mp h
    obtain ⟨b1, h1, h⟩ := fold_cons.mp h
    obtain ⟨b2, h2, h⟩ := fold_append.mp h
    obtain ⟨b3, h3, _⟩ := fold_cons.mp h
    have law := capabilityLaw_of_fold hb
    have law1 := law.apply h1
    have law2 : CapabilityLaw b2 := fold_invariant h2 law1 fun l ha => l.apply ha
    obtain ⟨c, _, _, hc⟩ := released_get? law h1 rel
    have stays := consumed_stays law1 h2 hc rfl
    constructor
    · intro again
      obtain ⟨c', hc', hu, _⟩ := released_get? law2 h3 again
      rw [stays] at hc'
      cases hc'
      cases hu
    · intro revoked
      obtain ⟨⟨c', hc', hu⟩, _⟩ := revoked_get? law2 h3 revoked
      rw [stays] at hc'
      cases hc'
      cases hu
  · rintro before e mid e' after id rfl rev rel
    obtain ⟨b, hb, h⟩ := fold_append.mp h
    obtain ⟨b1, h1, h⟩ := fold_cons.mp h
    obtain ⟨b2, h2, h⟩ := fold_append.mp h
    obtain ⟨b3, h3, _⟩ := fold_cons.mp h
    have law := capabilityLaw_of_fold hb
    have law1 := law.apply h1
    have law2 : CapabilityLaw b2 := fold_invariant h2 law1 fun l ha => l.apply ha
    by_contra unminted
    have absent := absent_until_minted h2 (revoked_get? law h1 rev).2
      (fun m hm hmint => unminted ⟨m, hm, hmint⟩) law1
    obtain ⟨c, hc, _⟩ := released_get? law2 h3 rel
    rw [absent] at hc
    cases hc

/-! ## A run -/

/-- An offer recorded and read back, an accept of it minted, queued and released. -/
def releaseLog : List Event :=
  let price : ReadbackSlot :=
    { field := "monthly_price", value := "6000", unit := .usdMinor, role := .recurring
      ok := Eq.refl true }
  let cap : Capability :=
    { capId := "cap-1", businessActionId := "bid", intent := .acceptOffer, termsHash := "h"
      epoch := 0, expiresMs := 60000 }
  let statuses : Dict String SlotStatus := Dict.empty.set "monthly_price" .confirmed
  [⟨"run", 0, 0, .guard, [], 0, .offerRecorded "A" 1 [price] none⟩,
    ⟨"run", 1, 1, .guard, [0], 0, .readbackUpdated ⟨"A", 1, statuses, some "h"⟩⟩,
    ⟨"run", 2, 2, .guard, [1], 0, .actionAuthorized ⟨.acceptOffer, cap⟩⟩,
    ⟨"run", 3, 3, .guard, [2], 0, .speakVerbatim .cp .accept "Yes" (some "cap-1") none⟩,
    ⟨"run", 4, 4, .kernel, [3], 0, .speakReleased .cp (some "cap-1")⟩]

def releaseBoard : Blackboard :=
  match fold releaseLog with
  | .ok bb => bb
  | .error _ => {}

theorem capability_laws_release :
    (releaseBoard.capabilities.get? "cap-1").map Capability.consumed = some true ∧
      CapabilityLaw releaseBoard :=
  ⟨by decide, (capability_laws releaseLog releaseBoard rfl).1⟩

end ProxyLoop

import Mathlib.Data.List.Induction
import ProxyLoop.Core.Capabilities

/-!
# What a board says of its log

The board is folded from the log, so each fact on it was written by an event: `fold_since` finds the
event that made a fact true, and the lemmas after it name that event for what authority rests on.
-/

namespace ProxyLoop

open Lib (Dict)

section history

variable {log before after : List Event} {e : Event} {bb b : Blackboard}

/-- A fact that holds now and did not at the start was made true by an event of the log. -/
theorem fold_since {Q : Blackboard → Prop} (h : fold log = .ok bb) (now : Q bb) (start : ¬ Q {}) :
    ∃ before e after b b', log = before ++ e :: after ∧ fold before = .ok b ∧
      apply b e = .ok b' ∧ ¬ Q b ∧ Q b' := by
  induction log using List.reverseRecOn generalizing bb with
  | nil => cases h; exact absurd now start
  | append_singleton log e ih =>
    obtain ⟨b, hb, ha⟩ := fold_snoc.mp h
    by_cases was : Q b
    · obtain ⟨before, e', after, b₁, b₂, split, rest⟩ := ih hb was
      exact ⟨before, e', after ++ [e], b₁, b₂, by simp [split], rest⟩
    · exact ⟨log, e, [], b, bb, rfl, hb, ha, was, now⟩

/-- The board before an event of the log, and after it. -/
theorem fold_at (h : fold (before ++ e :: after) = .ok bb) :
    ∃ b b', fold before = .ok b ∧ apply b e = .ok b' ∧ fold after b' = .ok bb := by
  obtain ⟨b, hb, h⟩ := fold_append.mp h
  obtain ⟨b', ha, h⟩ := fold_cons.mp h
  exact ⟨b, b', hb, ha, h⟩

def boardOf (log : List Event) : Blackboard :=
  match fold log with
  | .ok bb => bb
  | .error _ => {}

theorem fold_boardOf (h : fold log = .ok bb) : fold log = .ok (boardOf log) := by
  rw [boardOf, h]

/-- The log around its `n`-th event. -/
theorem split_at {n : Nat} (h : log[n]? = some e) : log = log.take n ++ e :: log.drop (n + 1) := by
  obtain ⟨hn, rfl⟩ := List.getElem?_eq_some_iff.mp h
  rw [← List.drop_eq_getElem_cons hn, List.take_append_drop]

/-! ## Epochs -/

/-- The epoch moves at an `authority.epoch`, forward, and nowhere else. -/
theorem epoch_of_apply {bb' : Blackboard} (h : apply bb e = .ok bb') :
    (∃ bump, e.payload = .authorityEpoch bump) ∧ bb.epoch < bb'.epoch ∨
      (∀ bump, e.payload ≠ .authorityEpoch bump) ∧ bb'.epoch = bb.epoch := by
  obtain ⟨b, hc, rfl⟩ := change_of_apply h
  cases hc with
  | epoch bump hp forward => exact Or.inl ⟨⟨bump, hp⟩, forward⟩
  | quiet hp same => exact Or.inr ⟨(fun bump hb => by rw [hb] at hp; cases hp), same.epoch⟩
  | _ => exact Or.inr ⟨(fun bump hb => by simp_all), rfl⟩

theorem epoch_le_of_fold (h : fold log b = .ok bb) : b.epoch ≤ bb.epoch := by
  refine fold_invariant (I := fun c => b.epoch ≤ c.epoch) h (Nat.le_refl _) fun hI ha => ?_
  rcases epoch_of_apply ha with ⟨_, forward⟩ | ⟨_, same⟩
  · omega
  · omega

theorem no_bump (h : fold log b = .ok bb) (same : bb.epoch = b.epoch) :
    ∀ x ∈ log, ∀ bump, x.payload ≠ .authorityEpoch bump := by
  induction log generalizing b with
  | nil => simp
  | cons e log ih =>
    obtain ⟨b', ha, h⟩ := fold_cons.mp h
    have := epoch_le_of_fold h
    rcases epoch_of_apply ha with ⟨_, forward⟩ | ⟨none_, still⟩
    · omega
    · intro x hx
      rcases List.mem_cons.mp hx with rfl | hx
      · exact none_
      · exact ih h (same.trans still.symm) x hx

theorem capEpoch_le (h : fold log = .ok bb) {id : String} {c : Capability}
    (found : bb.capabilities.get? id = some c) : c.epoch ≤ bb.epoch := by
  have all : ∀ {id c}, bb.capabilities.get? id = some c → c.epoch ≤ bb.epoch := by
    refine fold_invariant
      (I := fun bb => CapabilityLaw bb ∧
        ∀ {id c}, bb.capabilities.get? id = some c → c.epoch ≤ bb.epoch)
      h ⟨capabilityLaw_empty, fun h => by cases h⟩ ?_ |>.2
    rintro bb e bb' ⟨law, le⟩ ha
    refine ⟨law.apply ha, fun {id c} hc => ?_⟩
    have forward : bb.epoch ≤ bb'.epoch := by
      rcases epoch_of_apply ha with ⟨_, h⟩ | ⟨_, h⟩ <;> omega
    cases capabilityOrigin_of_apply law ha hc with
    | kept was => exact (le was).trans forward
    | released was => exact (le was).trans forward
    | minted a hp intent unused own =>
      have := (minted_of_apply ha hp).epoch
      omega
  exact all found

/-! ## Decisions -/

/-- The user's decision of a card: the event, the board it found, and the card. -/
structure CardDecided (log : List Event) (id : String) (a : Approval) (card : ApprovalCard) :
    Prop where
  event : ∃ before e after b d, log = before ++ e :: after ∧ fold before = .ok b ∧
    e.payload = .approvalDecided d ∧ d.decision = a.decision ∧ d.approvalId = id ∧
    b.priv.pendingApproval = some card ∧ card.approvalId = id ∧ (e.tMs : Int) < card.expiresMs ∧
    ∃ r ∈ before, r.payload = .approvalRequested card
  terms : a.termsHash = card.termsHash
  epoch : a.authorityEpoch = card.authorityEpoch
  expires : a.expiresMs = some card.expiresMs

theorem card_requested (h : fold log = .ok bb) {card : ApprovalCard}
    (pending : bb.priv.pendingApproval = some card) :
    ∃ r ∈ log, r.payload = .approvalRequested card := by
  obtain ⟨before, e, after, b, b', rfl, hb, ha, was, now⟩ :=
    fold_since (Q := fun b => b.priv.pendingApproval = some card) h pending (fun h => by cases h)
  refine ⟨e, by simp, ?_⟩
  obtain ⟨b₁, hc, rfl⟩ := change_of_apply ha
  cases hc with
  | requested card' hp => cases now; exact hp
  | quiet hp same => exact absurd (same.pendingApproval ▸ now) was
  | decided => cases now
  | _ => exact absurd now was

/-- The decided cards change only by a decision of the pending one. -/
theorem approvals_of_apply {bb' : Blackboard} (h : apply bb e = .ok bb') :
    bb'.priv.approvals = bb.priv.approvals ∨
      ∃ d card, e.payload = .approvalDecided d ∧ bb.priv.pendingApproval = some card ∧
        card.approvalId = d.approvalId ∧ (e.tMs : Int) < card.expiresMs ∧
        bb'.priv.approvals = bb.priv.approvals.set d.approvalId (approvalOf card d) := by
  obtain ⟨b, hc, rfl⟩ := change_of_apply h
  cases hc with
  | quiet hp same => exact Or.inl same.approvals
  | decided d card hp pending same current epoch live =>
    exact Or.inr ⟨d, card, hp, pending, same, live, rfl⟩
  | _ => exact Or.inl rfl

theorem approval_decided (h : fold log = .ok bb) {id : String} {a : Approval}
    (found : bb.priv.approvals.get? id = some a) : ∃ card, CardDecided log id a card := by
  obtain ⟨before, e, after, b, b', rfl, hb, ha, was, now⟩ :=
    fold_since (Q := fun b => b.priv.approvals.get? id = some a) h found (fun h => by cases h)
  rcases approvals_of_apply ha with same | ⟨d, card, hp, pending, same, live, set⟩
  · exact absurd (same ▸ now) was
  · rw [set, Dict.get?_set] at now
    split at now
    · rename_i own
      cases now
      exact ⟨card, ⟨before, e, after, b, d, rfl, hb, hp, rfl, own.symm, pending, same.trans own.symm,
        live, card_requested hb pending⟩, rfl, rfl, rfl⟩
    · exact absurd now was

/-- The limits of a mandate: its envelope and when it ends. -/
def Mandate.envelope (m : Mandate) : Envelope where
  maxMonthlyPriceMinor := m.maxMonthlyPriceMinor
  maxTermMonths := m.maxTermMonths
  maxOneTimeFeesMinor := m.maxOneTimeFeesMinor
  requiredFeatures := m.requiredFeatures
  forbiddenChanges := m.forbiddenChanges

/-- `m'` is `m` but for its status and its epoch. -/
structure SameLimits (m m' : Mandate) : Prop where
  id : m'.mandateId = m.mandateId
  hash : m'.mandateHash = m.mandateHash
  envelope : m'.envelope = m.envelope
  expires : m'.expiresMs = m.expiresMs

theorem SameLimits.refl (m : Mandate) : SameLimits m m := ⟨rfl, rfl, rfl, rfl⟩

theorem SameLimits.trans {a b c : Mandate} (h : SameLimits a b) (h' : SameLimits b c) :
    SameLimits a c :=
  ⟨h'.id.trans h.id, h'.hash.trans h.hash, h'.envelope.trans h.envelope, h'.expires.trans h.expires⟩

theorem SameLimits.breaksLists {m m' : Mandate} {t : Terms} (h : SameLimits m m') :
    breaksLists t m' ↔ breaksLists t m := by
  have lists := h.envelope
  simp only [Mandate.envelope, Envelope.mk.injEq] at lists
  unfold ProxyLoop.breaksLists
  rw [lists.2.2.2.1, lists.2.2.2.2]

theorem SameLimits.withinBounds {m m' : Mandate} {t : Terms} (h : SameLimits m m') :
    withinBounds m' t ↔ withinBounds m t := by
  have bounds := h.envelope
  simp only [Mandate.envelope, Envelope.mk.injEq] at bounds
  unfold ProxyLoop.withinBounds
  rw [bounds.1, bounds.2.1, bounds.2.2.1]

/-- The user granted `m`: a `mandate.decided` of the log found it proposed. -/
def Granted (log : List Event) (m : Mandate) : Prop :=
  ∃ before e after b d, log = before ++ e :: after ∧ fold before = .ok b ∧
    e.payload = .mandateDecided d ∧ d.decision = .granted ∧ b.priv.mandate = some m ∧
    m.mandateId = d.mandateId ∧ m.mandateHash = d.mandateHash

inductive MandateMove (bb : Blackboard) (e : Event) : Option Mandate → Prop
  | kept : MandateMove bb e bb.priv.mandate
  | bumped {m m' : Mandate} (was : bb.priv.mandate = some m) (same : SameLimits m m')
      (status : m'.status = m.status) : MandateMove bb e (some m')
  | proposed (p : MandateProposal) (hp : e.payload = .mandateProposed p) :
      MandateMove bb e (some p.mandate)
  | decided (d : MandateDecided) (m : Mandate) (hp : e.payload = .mandateDecided d)
      (found : bb.priv.mandate = some m) (id : m.mandateId = d.mandateId)
      (hash : m.mandateHash = d.mandateHash) (undecided : m.status = .proposed) :
      MandateMove bb e (some (m.decide d.decision d.by_))

theorem mandateMove_of_apply {bb' : Blackboard} (h : apply bb e = .ok bb') :
    MandateMove bb e bb'.priv.mandate := by
  obtain ⟨b, hc, rfl⟩ := change_of_apply h
  cases hc with
  | quiet hp same =>
    show MandateMove bb e b.priv.mandate
    rw [same.mandate]
    exact .kept
  | epoch bump hp =>
    show MandateMove bb e (bumpedMandate bb bump)
    cases hm : bb.priv.mandate with
    | none =>
      have : bumpedMandate bb bump = bb.priv.mandate := by simp [bumpedMandate, hm]
      rw [this]
      exact .kept
    | some m =>
      simp only [bumpedMandate, hm, Option.map_some]
      split
      · exact .bumped hm ⟨rfl, rfl, rfl, rfl⟩ rfl
      · exact .bumped hm (.refl m) rfl
  | proposed p hp => exact .proposed p hp
  | mandate d m hp found id hash undecided => exact .decided d m hp found id hash undecided
  | _ => exact .kept

theorem granted_of_status (h : fold log = .ok bb) {g : Mandate} (found : bb.priv.mandate = some g)
    (status : g.status = .granted) : ∃ m, Granted log m ∧ SameLimits m g := by
  obtain ⟨before, e, after, b, b', rfl, hb, ha, was, g', now, granted, same⟩ :=
    fold_since (Q := fun b => ∃ g', b.priv.mandate = some g' ∧ g'.status = .granted ∧
      SameLimits g' g) h ⟨g, found, status, .refl g⟩ (fun ⟨_, h, _⟩ => by cases h)
  have move := mandateMove_of_apply ha
  rw [now] at move
  generalize ho : some g' = o at move
  cases move with
  | kept => exact absurd ⟨g', ho.symm, granted, same⟩ was
  | bumped found' limits status' =>
    cases ho
    exact absurd ⟨_, found', status'.symm.trans granted, limits.trans same⟩ was
  | proposed p hp =>
    cases ho
    rw [p.proposed.1] at granted
    cases granted
  | decided d m hp found' id hash =>
    cases ho
    have yes : d.decision = .granted := by
      cases hd : d.decision with
      | granted => rfl
      | denied =>
        rw [hd] at granted
        cases granted
    exact ⟨m, ⟨before, e, after, b, d, rfl, hb, hp, yes, found', id, hash⟩,
      ⟨same.id, same.hash, same.envelope, same.expires⟩⟩

/-! ## Capabilities -/

/-- An unused capability was minted, by an event that found its epoch. -/
theorem unused_minted (h : fold log = .ok bb) {id : String} {c : Capability}
    (found : bb.capabilities.get? id = some c) (unused : c.consumed = false) :
    ∃ before m after b a, log = before ++ m :: after ∧ fold before = .ok b ∧
      m.payload = .actionAuthorized a ∧ a.capability = c ∧ c.capId = id ∧ c.epoch = b.epoch := by
  obtain ⟨before, e, after, b, b', rfl, hb, ha, was, now⟩ :=
    fold_since (Q := fun b => b.capabilities.get? id = some c) h found (fun h => by cases h)
  have law := capabilityLaw_of_fold hb
  cases capabilityOrigin_of_apply law ha now with
  | kept h => exact absurd h was
  | released => cases unused
  | minted a hp intent _ own =>
    exact ⟨before, e, after, b, a, rfl, hb, hp, rfl, own, (minted_of_apply ha hp).epoch⟩

/-- How an event moves the number of used capabilities. -/
theorem count_consumed_of_apply {bb' : Blackboard} (law : CapabilityLaw bb)
    (h : apply bb e = .ok bb') : bb'.capabilities.count Capability.consumed =
      bb.capabilities.count Capability.consumed + e.payload.releasesCap.toNat := by
  obtain ⟨b, hc, rfl⟩ := change_of_apply h
  cases hc with
  | quiet hp same =>
    have : e.payload.releasesCap = false := by
      cases h : e.payload <;> rw [h] at hp <;> try rfl
      rename_i c
      cases c
      · rfl
      · cases hp
    simp [stamp, same.capabilities, this]
  | minted a hp intent epoch unused fresh =>
    have := Dict.count_set_of_none fresh Capability.consumed a.capability
    simpa [stamp, hp, Payload.releasesCap, unused] using this
  | released lane id named cap auth offer hp found unused own =>
    have hid := law.keyed found
    rw [hid, found] at own
    cases own
    have := Dict.count_set_of_some (hid ▸ found) Capability.consumed { named with consumed := true }
    rw [unused] at this
    simpa [stamp, consume, hp, Payload.releasesCap] using this
  | revoked lane reason id cap hp found unused =>
    have hid := law.keyed found
    have := Dict.count_erase_of_not (d := bb.capabilities) (k := cap.capId)
      (p := Capability.consumed) fun w hw => by
        rw [hid, found] at hw
        cases hw
        exact unused
    simpa [stamp, hp, Payload.releasesCap] using this
  | _ => simp_all [Payload.releasesCap, stamp, withOffer, withMandate, fence]

/-- The releases of a log are the used capabilities of its board. -/
theorem releases_count (h : fold log = .ok bb) :
    log.countP (·.payload.releasesCap) = bb.capabilities.count Capability.consumed := by
  induction log using List.reverseRecOn generalizing bb with
  | nil => cases h; rfl
  | append_singleton log e ih =>
    obtain ⟨b, hb, ha⟩ := fold_snoc.mp h
    rw [count_consumed_of_apply (capabilityLaw_of_fold hb) ha, ← ih hb, List.countP_append]
    cases he : e.payload.releasesCap <;> simp [he]

/-! ## Evidence -/

theorem evidence_recorded (h : fold log = .ok bb) {x : Evidence} (mem : x ∈ bb.evidence) :
    ∃ before e after, log = before ++ e :: after ∧ e.payload = .evidenceRecorded x := by
  obtain ⟨before, e, after, b, b', rfl, hb, ha, was, now⟩ :=
    fold_since (Q := fun b => x ∈ b.evidence) h mem (fun h => by cases h)
  refine ⟨before, e, after, rfl, ?_⟩
  obtain ⟨b₁, hc, rfl⟩ := change_of_apply ha
  cases hc with
  | quiet hp same => exact absurd (same.evidence ▸ now) was
  | evidence y hp =>
    rcases List.mem_append.mp now with now | now
    · exact absurd now was
    · rw [List.mem_singleton.mp now]
      exact hp
  | _ => exact absurd now was

/-! ## Statuses -/

theorem status_reached (h : fold log = .ok bb) (first : bb.pub.status ≠ .intake) :
    ∃ before e after b c, log = before ++ e :: after ∧ fold before = .ok b ∧
      e.payload = .statusChanged c ∧ c.status = bb.pub.status ∧ c.previous = b.pub.status ∧
      (isEdge c.previous c.status = true ∨ c.status = .abandoned) := by
  obtain ⟨before, e, after, b, b', rfl, hb, ha, was, now⟩ :=
    fold_since (Q := fun b => b.pub.status = bb.pub.status) h rfl (fun h => first h.symm)
  obtain ⟨b₁, hc, rfl⟩ := change_of_apply ha
  cases hc with
  | quiet hp same => exact absurd (same.status.symm.trans now) was
  | status c hp prev edge =>
    exact ⟨before, e, after, b, c, rfl, hb, hp, now, prev, edge.imp_right And.left⟩
  | _ => exact absurd now was

/-- A closed case stays as it is. -/
theorem status_terminal (h : fold log b = .ok bb) (closed : terminal b.pub.status = true) :
    bb.pub.status = b.pub.status := by
  refine fold_invariant (I := fun c => c.pub.status = b.pub.status) h rfl fun {c e c'} hI ha => ?_
  cases hm : e.payload.movesStatus with
  | false => rw [status_of_apply ha hm, hI]
  | true =>
    cases hp : e.payload <;> rw [hp] at hm <;> try cases hm
    have := (status_of_changed ha hp).2.2
    rw [hI, closed] at this
    cases this

end history

end ProxyLoop

import ProxyLoop.Guard.Policy
import ProxyLoop.Guard.Terms

/-!
# The principal's mandate

Its hash, what it covers, and the hard constraints no approval can lift.
-/

namespace ProxyLoop

/-! ## Hash and proposal -/

def jsonOption {α : Type} (f : α → String) : Option α → String
  | none => jsonNull
  | some a => f a

/-- The text `mandate_hash` hashes: the bounds, and the epoch too, so that a re-proposal after a
decision is a new subject. -/
def mandateJson (m : Mandate) : String :=
  jsonObject
    [("epoch", jsonInt m.epoch),
      ("expires_ms", jsonOption jsonInt m.expiresMs),
      ("forbidden_changes", jsonList ((sortedStrings m.forbiddenChanges).map jsonString)),
      ("mandate_id", jsonString m.mandateId),
      ("max_monthly_price_minor", jsonOption jsonInt m.maxMonthlyPriceMinor),
      ("max_one_time_fees_minor", jsonOption jsonInt m.maxOneTimeFeesMinor),
      ("max_term_months", jsonOption jsonInt m.maxTermMonths),
      ("required_features", jsonList ((sortedStrings m.requiredFeatures).map jsonString))]

def mandateHash (py : Runtime) (m : Mandate) : String := py.sha256 (mandateJson m)

structure Envelope where
  maxMonthlyPriceMinor : Option Int := none
  maxTermMonths : Option Int := none
  maxOneTimeFeesMinor : Option Int := none
  requiredFeatures : List String := []
  forbiddenChanges : List String := []
  deriving DecidableEq

/-- The undecided, unhashed mandate of an envelope. -/
def unhashed (epoch : Nat) (mandateId : String) (b : Envelope) (expiresMs : Option Int) :
    Mandate where
  mandateId := mandateId
  mandateHash := ""
  status := .proposed
  epoch := epoch
  maxMonthlyPriceMinor := b.maxMonthlyPriceMinor
  maxTermMonths := b.maxTermMonths
  maxOneTimeFeesMinor := b.maxOneTimeFeesMinor
  requiredFeatures := b.requiredFeatures
  forbiddenChanges := b.forbiddenChanges
  expiresMs := expiresMs
  decided := fun h => by simp at h

/-- The mandate `proposal` proposes: bound to its hash and the epoch. -/
def proposal (py : Runtime) (epoch : Nat) (mandateId : String) (b : Envelope)
    (expiresMs : Option Int := none) : Mandate :=
  let m := unhashed epoch mandateId b expiresMs
  { m with mandateHash := mandateHash py m, decided := m.decided }

/-! ## Hard constraints -/

/-- Constraints an approval cannot lift, by code. -/
def hardViolations (t : Terms) (m : Option Mandate) : List String :=
  (match m with
    | none => []
    | some m =>
      (if m.requiredFeatures.all (t.features.contains ·) then [] else
        ["required_feature_missing"]) ++
      (if m.forbiddenChanges.any (t.appliedChanges.contains ·) then
        ["forbidden_change_present"] else [])) ++
  (if (unsupportedAppliedChanges t.appliedChanges).isEmpty then [] else
    [unsupportedAppliedChange])

/-- `t` misses a required feature of `m` or applies one of its forbidden changes. -/
def breaksLists (t : Terms) (m : Mandate) : Prop :=
  (∃ f ∈ m.requiredFeatures, f ∉ t.features) ∨ ∃ c ∈ m.forbiddenChanges, c ∈ t.appliedChanges

instance (t : Terms) (m : Mandate) : Decidable (breaksLists t m) := by
  unfold breaksLists; infer_instance

/-- `m'` keeps every required feature and forbidden change of `m`. -/
def keepsLists (m m' : Mandate) : Prop :=
  (∀ f ∈ m.requiredFeatures, f ∈ m'.requiredFeatures) ∧
    ∀ c ∈ m.forbiddenChanges, c ∈ m'.forbiddenChanges

instance (m m' : Mandate) : Decidable (keepsLists m m') := by
  unfold keepsLists; infer_instance

theorem keepsLists_refl (m : Mandate) : keepsLists m m := ⟨fun _ h => h, fun _ h => h⟩

theorem breaksLists_of_keepsLists {t : Terms} {m m' : Mandate} (keeps : keepsLists m m')
    (h : breaksLists t m) : breaksLists t m' := by
  rcases h with ⟨f, hf, hn⟩ | ⟨c, hc, hm⟩
  · exact Or.inl ⟨f, keeps.1 f hf, hn⟩
  · exact Or.inr ⟨c, keeps.2 c hc, hm⟩

/-- No hard violation: the lists are kept and every applied change is supported. -/
theorem hardViolations_eq_nil {t : Terms} {m : Option Mandate} :
    hardViolations t m = [] ↔
      (∀ m', m = some m' → ¬ breaksLists t m') ∧
        unsupportedAppliedChanges t.appliedChanges = [] := by
  unfold hardViolations breaksLists
  cases m with
  | none => simp
  | some m => simp [and_assoc]

theorem hardViolations_ne_nil_of_breaksLists {t : Terms} {m : Mandate} (h : breaksLists t m) :
    hardViolations t (some m) ≠ [] := fun e => (hardViolations_eq_nil.mp e).1 m rfl h

/-! ## Coverage -/

def overBound (bound : Option Int) (value : Int) : Bool :=
  match bound with
  | none => false
  | some b => b < value

/-- Why the mandate does not cover `t` now; `none` if it does. -/
def mandateGap (m : Option Mandate) (epoch : Nat) (tMs : Nat) (t : Terms) : Option String :=
  match m with
  | none => some "not_authorized"
  | some m =>
    if m.status ≠ .granted then some "not_authorized"
    else if m.epoch ≠ epoch then some "mandate_stale_epoch"
    else if expired m.expiresMs tMs then some "mandate_expired"
    else if overBound m.maxMonthlyPriceMinor t.monthlyPriceMinor ||
        overBound m.maxTermMonths t.termMonths ||
        overBound m.maxOneTimeFeesMinor (t.fees.map Fee.amountMinor).sum then
      some "outside_mandate"
    else none

/-- The price, term and fee bounds of `m` cover `t`. -/
def withinBounds (m : Mandate) (t : Terms) : Prop :=
  (∀ b, m.maxMonthlyPriceMinor = some b → t.monthlyPriceMinor ≤ b) ∧
    (∀ b, m.maxTermMonths = some b → t.termMonths ≤ b) ∧
    ∀ b, m.maxOneTimeFeesMinor = some b → (t.fees.map Fee.amountMinor).sum ≤ b

theorem overBound_eq_false {bound : Option Int} {value : Int} :
    overBound bound value = false ↔ ∀ b, bound = some b → value ≤ b := by
  cases bound <;> simp [overBound]

/-- A mandate without a gap is granted, of this epoch, unexpired, and its bounds cover the
terms. -/
theorem mandateGap_eq_none {m : Option Mandate} {epoch tMs : Nat} {t : Terms} :
    mandateGap m epoch tMs t = none ↔
      ∃ m', m = some m' ∧ m'.status = .granted ∧ m'.epoch = epoch ∧
        (∀ x, m'.expiresMs = some x → (tMs : Int) < x) ∧ withinBounds m' t := by
  cases m with
  | none => simp [mandateGap]
  | some m =>
    simp only [mandateGap, withinBounds, Option.some.injEq, exists_eq_left', ← expired_eq_false,
      ← overBound_eq_false]
    constructor
    · intro h
      split at h
      · cases h
      · split at h
        · cases h
        · split at h
          · cases h
          · split at h
            · cases h
            · simp_all
    · rintro ⟨granted, epoch, live, price, term, fees⟩
      simp [granted, epoch, live, price, term, fees]

end ProxyLoop

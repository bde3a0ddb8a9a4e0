import Mathlib.Algebra.BigOperators.Group.List.Basic
import Mathlib.Data.String.Basic
import Mathlib.Logic.Equiv.Basic
import ProxyLoop.Slow.Recorded
import ProxyLoop.Contract.Instant
import ProxyLoop.Lib.Json

/-!
# What the terms hash binds

The hashed text is the compact JSON of the terms with their lists sorted, so it determines them: the
lists as multisets, the expiry to the second.  It does not depend on the order of an offer's slots.
-/

namespace ProxyLoop

open Lib (Json)

/-! ## The hashed text -/

/-- `json.dumps(value, ensure_ascii=False, separators=(",", ":"))`. -/
def compactDumps (v : Json) : String := String.ofList (v.chars Json.plain)

theorem compactDumps_inj {v w : Json} : compactDumps v = compactDumps w ↔ v = w :=
  ⟨fun h => Json.chars_inj Json.plain Json.legal_plain (String.ofList_injective h), congrArg compactDumps⟩

theorem jsonChar_eq (c : Char) : jsonChar c = Json.escape Json.plain c := by
  unfold jsonChar Json.escape Json.short?
  split
  · rfl
  split
  · rfl
  split
  · rfl
  split
  · rfl
  split
  · rfl
  split
  · rfl
  split
  · rfl
  dsimp only
  split
  · rename_i small
    have below : ¬ 32 ≤ c.toNat := by omega
    have high : c.toNat / 4096 = 0 := by omega
    have low : c.toNat / 256 % 16 = 0 := by omega
    have mid : c.toNat / 16 % 16 = c.toNat / 16 := by omega
    have whole : c.toNat < 65536 := by omega
    simp only [Json.plain, below, decide_false, Bool.false_eq_true, if_false, Json.units, whole,
      if_true, Json.unit, high, low, mid]
    rfl
  · rename_i large
    have above : 32 ≤ c.toNat := by omega
    simp only [Json.plain, above, decide_true, if_true]

theorem jsonString_eq (s : String) : jsonString s = compactDumps (.str s) := by
  have chars : s.toList.flatMap jsonChar = s.toList.flatMap (Json.escape Json.plain) := by
    congr 1
    funext c
    exact jsonChar_eq c
  rw [← String.toList_inj, jsonString, chars]
  simp [compactDumps, Json.chars_str, Json.quote]

theorem jsonInt_eq (n : Int) : jsonInt n = compactDumps (.int n) := by
  rw [← String.toList_inj]
  simp [compactDumps, Json.chars_int, jsonInt]

theorem jsonBool_eq (b : Bool) : jsonBool b = compactDumps (.bool b) := by
  rw [← String.toList_inj]
  cases b <;> simp [compactDumps, Json.chars_bool, jsonBool]

theorem elements_intercalate (vs : List Json) :
    (String.intercalate "," (vs.map compactDumps)).toList ++ [']'] = Json.elements Json.plain true vs := by
  induction vs with
  | nil => rfl
  | cons v vs ih =>
    cases vs with
    | nil => simp [Json.elements_succ, Json.elements_nil, Json.comma, compactDumps]
    | cons w ws =>
      have next : Json.elements Json.plain false (w :: ws) =
          ',' :: Json.elements Json.plain true (w :: ws) := rfl
      rw [Json.elements_succ, next, ← ih]
      simp [Json.comma, compactDumps, String.intercalate_cons_cons]

theorem jsonList_eq (vs : List Json) : jsonList (vs.map compactDumps) = compactDumps (.arr vs) := by
  rw [← String.toList_inj, jsonList, compactDumps, String.toList_ofList, Json.chars_arr,
    ← elements_intercalate]
  simp

theorem members_intercalate (fs : List (String × Json)) :
    (String.intercalate "," (fs.map fun f => jsonString f.1 ++ ":" ++ compactDumps f.2)).toList ++ ['\x7d'] =
      Json.members Json.plain true fs := by
  induction fs with
  | nil => rfl
  | cons f fs ih =>
    have key : ∀ s, (jsonString s).toList = Json.quote Json.plain s.toList := by
      intro s
      rw [jsonString_eq, compactDumps, String.toList_ofList, Json.chars_str]
    cases fs with
    | nil => simp [Json.members_succ, Json.members_nil, Json.comma, compactDumps, key]
    | cons g gs =>
      have next : Json.members Json.plain false (g :: gs) =
          ',' :: Json.members Json.plain true (g :: gs) := rfl
      rw [Json.members_succ, next, ← ih]
      simp [Json.comma, compactDumps, String.intercalate_cons_cons, key]

theorem jsonObject_eq (fs : List (String × Json)) :
    jsonObject (fs.map fun f => (f.1, compactDumps f.2)) = compactDumps (.obj fs) := by
  rw [← String.toList_inj, jsonObject, compactDumps, String.toList_ofList, Json.chars_obj,
    ← members_intercalate]
  simp [Function.comp_def]

/-! ## What is bound -/

/-- What the hash is of: the terms, with the expiry as text. -/
structure Bound where
  monthlyPriceMinor : Int
  currency : String
  termMonths : Int
  features : List String
  fees : List Fee
  credits : List Fee
  appliedChanges : List String
  totalCost12mMinor : Int
  offerId : String
  offerRevision : Int
  expiresAt : String

namespace Bound

def feeValue (f : Fee) : Json := .obj [("amount_minor", .int f.amountMinor), ("code", .str f.code)]

def lines (fees : List Fee) : Json := .arr ((fees.insertionSort feeLe).map feeValue)

def names (xs : List String) : Json := .arr ((sortedStrings xs).map .str)

/-- `_v2_fields(terms) | complete` -/
def value (b : Bound) : Json :=
  .obj [("applied_changes", names b.appliedChanges),
    ("changes_none", .bool b.appliedChanges.isEmpty),
    ("credits", lines b.credits),
    ("currency", .str b.currency),
    ("expires_at", .str b.expiresAt),
    ("features", names b.features),
    ("fees", lines b.fees),
    ("fees_none", .bool b.fees.isEmpty),
    ("monthly_price_minor", .int b.monthlyPriceMinor),
    ("offer_id", .str b.offerId),
    ("offer_revision", .int b.offerRevision),
    ("term_months", .int b.termMonths),
    ("total_cost_12m_minor", .int b.totalCost12mMinor)]

/-- The same terms but for the expiry: the lists are multisets. -/
structure Same (a b : Bound) : Prop where
  price : a.monthlyPriceMinor = b.monthlyPriceMinor
  currency : a.currency = b.currency
  term : a.termMonths = b.termMonths
  total : a.totalCost12mMinor = b.totalCost12mMinor
  offerId : a.offerId = b.offerId
  revision : a.offerRevision = b.offerRevision
  features : a.features.Perm b.features
  changes : a.appliedChanges.Perm b.appliedChanges
  fees : a.fees.Perm b.fees
  credits : a.credits.Perm b.credits

end Bound

def Terms.bound (t : Terms) : Bound where
  monthlyPriceMinor := t.monthlyPriceMinor
  currency := t.currency
  termMonths := t.termMonths
  features := t.features
  fees := t.fees
  credits := t.credits
  appliedChanges := t.appliedChanges
  totalCost12mMinor := t.totalCost12mMinor
  offerId := t.offerId
  offerRevision := t.offerRevision
  expiresAt := t.expiresAt

theorem feeLines_eq (fees : List Fee) : feeLines fees = compactDumps (Bound.lines fees) := by
  unfold feeLines Bound.lines
  rw [← jsonList_eq, List.map_map]
  congr 1
  refine List.map_congr_left fun f _ => ?_
  rw [jsonInt_eq, jsonString_eq]
  exact jsonObject_eq [("amount_minor", .int f.amountMinor), ("code", .str f.code)]

theorem names_eq (xs : List String) :
    jsonList ((sortedStrings xs).map jsonString) = compactDumps (Bound.names xs) := by
  unfold Bound.names
  rw [← jsonList_eq, List.map_map]
  congr 1
  exact List.map_congr_left fun s _ => jsonString_eq s

/-- The hashed text is the dump of what is bound. -/
theorem termsJson_eq (t : Terms) : termsJson t = compactDumps t.bound.value := by
  unfold termsJson
  rw [names_eq, names_eq, feeLines_eq, feeLines_eq]
  simp only [jsonInt_eq, jsonString_eq, jsonBool_eq]
  exact jsonObject_eq [("applied_changes", Bound.names t.appliedChanges),
    ("changes_none", .bool t.appliedChanges.isEmpty),
    ("credits", Bound.lines t.credits),
    ("currency", .str t.currency),
    ("expires_at", .str t.expiresAt),
    ("features", Bound.names t.features),
    ("fees", Bound.lines t.fees),
    ("fees_none", .bool t.fees.isEmpty),
    ("monthly_price_minor", .int t.monthlyPriceMinor),
    ("offer_id", .str t.offerId),
    ("offer_revision", .int t.offerRevision),
    ("term_months", .int t.termMonths),
    ("total_cost_12m_minor", .int t.totalCost12mMinor)]

/-! ## Lists as multisets -/

/-- Sorting by a linear order forgets the order, and no more. -/
theorem insertionSort_eq {α : Type} {r : α → α → Prop} [DecidableRel r] (total : ∀ x y, r x y ∨ r y x)
    (trans : ∀ x y z, r x y → r y z → r x z) (antisymm : ∀ x y, r x y → r y x → x = y) {a b : List α} :
    a.insertionSort r = b.insertionSort r ↔ a.Perm b := by
  have : Std.Total r := ⟨total⟩
  have : IsTrans α r := ⟨trans⟩
  have : Std.Antisymm r := ⟨antisymm⟩
  constructor
  · intro h
    exact (List.perm_insertionSort r a).symm.trans (h ▸ List.perm_insertionSort r b)
  · intro h
    refine List.Perm.eq_of_pairwise' (r := r) (List.pairwise_insertionSort r a)
      (List.pairwise_insertionSort r b) ?_
    exact (List.perm_insertionSort r a).trans (h.trans (List.perm_insertionSort r b).symm)

theorem sortedStrings_eq {a b : List String} : sortedStrings a = sortedStrings b ↔ a.Perm b :=
  insertionSort_eq String.le_total (fun _ _ _ => String.le_trans) fun _ _ => String.le_antisymm

theorem sortedFees_eq {a b : List Fee} :
    a.insertionSort feeLe = b.insertionSort feeLe ↔ a.Perm b := by
  refine insertionSort_eq ?_ ?_ ?_
  · intro x y
    unfold feeLe
    rcases lt_trichotomy x.code y.code with below | same | above
    · exact Or.inl (Or.inl below)
    · rcases Int.le_total x.amountMinor y.amountMinor with le | ge
      · exact Or.inl (Or.inr ⟨same, le⟩)
      · exact Or.inr (Or.inr ⟨same.symm, ge⟩)
    · exact Or.inr (Or.inl above)
  · rintro x y z (below | ⟨same, le⟩) (below' | ⟨same', le'⟩)
    · exact Or.inl (below.trans below')
    · exact Or.inl (same' ▸ below)
    · exact Or.inl (same ▸ below')
    · exact Or.inr ⟨same.trans same', le.trans le'⟩
  · rintro ⟨code, amount⟩ ⟨code', amount'⟩ (below | ⟨same, le⟩) (above | ⟨same', ge⟩)
    · exact absurd above below.asymm
    · exact absurd same' below.ne'
    · exact absurd same above.ne'
    · rw [Fee.mk.injEq]
      exact ⟨same, le.antisymm ge⟩

theorem feeValue_injective : Function.Injective Bound.feeValue := by
  intro f g h
  cases f
  cases g
  simp only [Bound.feeValue, Json.obj.injEq, List.cons.injEq, Prod.mk.injEq, Json.int.injEq,
    Json.str.injEq, true_and, and_true] at h
  rw [h.1, h.2]

theorem lines_eq {a b : List Fee} : Bound.lines a = Bound.lines b ↔ a.Perm b := by
  rw [← sortedFees_eq, Bound.lines, Bound.lines, Json.arr.injEq,
    List.map_inj_right (f := Bound.feeValue) fun _ _ h => feeValue_injective h]

theorem names_inj {a b : List String} : Bound.names a = Bound.names b ↔ a.Perm b := by
  rw [← sortedStrings_eq, Bound.names, Bound.names, Json.arr.injEq,
    List.map_inj_right (f := Json.str) fun _ _ h => Json.str.inj h]

/-- The text binds the terms, and the flags add nothing to the lists. -/
theorem Bound.value_eq {a b : Bound} : a.value = b.value ↔ a.Same b ∧ a.expiresAt = b.expiresAt := by
  simp only [value, Json.obj.injEq, List.cons.injEq, Prod.mk.injEq, true_and, and_true, names_inj,
    lines_eq, Json.bool.injEq, Json.str.injEq, Json.int.injEq]
  constructor
  · rintro ⟨changes, -, credits, currency, expires, features, fees, -, price, id, revision, term, total⟩
    exact ⟨⟨price, currency, term, total, id, revision, features, changes, fees, credits⟩, expires⟩
  · rintro ⟨same, expires⟩
    refine ⟨same.changes, ?_, same.credits, same.currency, expires, same.features, same.fees, ?_,
      same.price, same.offerId, same.revision, same.term, same.total⟩
    · exact same.changes.isEmpty_eq
    · exact same.fees.isEmpty_eq

/-! ## The order of the slots -/

section order

variable (sha256 : String → String) (cents : String → Except PyError Int)
  {by_ by' : List (String × String)}

theorem mapM_eq {α β : Type} {f : α → Except PyError β} (value : ∀ x e, f x = .error e → e = .value)
    (xs : List α) : xs.mapM f = if xs.all fun x => (f x).toOption.isSome then
      .ok (xs.filterMap fun x => (f x).toOption) else .error .value := by
  induction xs with
  | nil => rfl
  | cons x xs ih =>
    rw [List.mapM_cons, ih]
    cases hx : f x with
    | error e => simp [value x e hx, bind, Except.bind, Except.toOption, hx]
    | ok y =>
      have some_ : (f x).toOption = some y := by
        rw [hx]
        rfl
      rw [List.all_cons, List.filterMap_cons, some_]
      by_cases all : (xs.all fun x => (f x).toOption.isSome) = true
      · simp only [all, if_true, Option.isSome_some, Bool.and_self]
        rfl
      · simp only [all, Bool.and_false, Bool.false_eq_true, if_false]
        rfl

theorem mapM_perm {α β : Type} {f : α → Except PyError β} (value : ∀ x e, f x = .error e → e = .value)
    {xs ys : List α} (perm : xs.Perm ys) :
    (xs.mapM f = .error .value ∧ ys.mapM f = .error .value) ∨
      ∃ us vs, xs.mapM f = .ok us ∧ ys.mapM f = .ok vs ∧ us.Perm vs := by
  rw [mapM_eq value, mapM_eq value, perm.all_eq]
  split
  · exact Or.inr ⟨_, _, rfl, rfl, perm.filterMap _⟩
  · exact Or.inl ⟨rfl, rfl⟩

theorem coded_perm (perm : by_.Perm by') (kind : String) : (coded by_ kind).Perm (coded by' kind) :=
  (perm.filter _).map _

theorem trueCodes_perm (perm : by_.Perm by') (kind : String) :
    (trueCodes by_ kind).Perm (trueCodes by' kind) :=
  ((coded_perm perm kind).filter _).map _

theorem codedFees_perm (perm : by_.Perm by') (kind : String) :
    (codedFees (Slots.python sha256 cents) by_ kind = .error .value ∧
        codedFees (Slots.python sha256 cents) by' kind = .error .value) ∨
      ∃ fees fees', codedFees (Slots.python sha256 cents) by_ kind = .ok fees ∧
        codedFees (Slots.python sha256 cents) by' kind = .ok fees' ∧ fees.Perm fees' := by
  refine mapM_perm ?_ (coded_perm perm kind)
  rintro ⟨code, text⟩ e h
  simp only [Slots.python, Time.int, bind, Except.bind, pure, Except.pure] at h
  split at h
  · rename_i raised
    split at raised
    · cases raised
    · cases raised
      cases h
      rfl
  · cases h

theorem valueOf_perm (perm : by_.Perm by') (distinct : (by_.map Prod.fst).Nodup) (field : String) :
    valueOf by_ field = valueOf by' field := by
  have distinct' : (by'.map Prod.fst).Nodup := (perm.map _).nodup_iff.mp distinct
  have mem : ∀ {l : List (String × String)}, (l.map Prod.fst).Nodup → ∀ v,
      valueOf l field = some v ↔ (field, v) ∈ l := by
    intro l distinct v
    unfold valueOf
    rw [Option.map_eq_some_iff]
    constructor
    · rintro ⟨⟨k, v⟩, found, rfl⟩
      have own : k = field := by simpa using List.find?_some found
      exact own ▸ List.mem_of_find?_eq_some found
    · intro held
      cases found : l.find? (·.1 = field) with
      | none => exact absurd (List.find?_eq_none.mp found _ held) (by simp)
      | some p =>
        have own : p.1 = field := by simpa using List.find?_some found
        have mem := List.mem_of_find?_eq_some found
        exact ⟨p, rfl, by rw [List.inj_on_of_nodup_map distinct mem held own]⟩
  exact Option.ext fun v => by rw [mem distinct, mem distinct', perm.mem_iff]

theorem stated_perm {α : Type} {xs ys : List α} (perm : xs.Perm ys) (flag : Option String) :
    stated flag xs = stated flag ys := by
  unfold stated
  rw [perm.isEmpty_eq]

/-- Two readings that are the same but for the order of the lists. -/
def Alike (x y : Except PyError (Option Terms)) : Prop :=
  (∃ e, x = .error e ∧ y = .error e) ∨ (x = .ok none ∧ y = .ok none) ∨
    ∃ t t', x = .ok (some t) ∧ y = .ok (some t') ∧ t.bound.Same t'.bound ∧ t.expiresAt = t'.expiresAt

theorem readTerms_perm (perm : by_.Perm by') (distinct : (by_.map Prod.fst).Nodup) (ref : String)
    (revision : Nat) :
    Alike (readTerms (Slots.python sha256 cents) ref revision by_)
      (readTerms (Slots.python sha256 cents) ref revision by') := by
  have value := valueOf_perm perm distinct
  have required : requiredInt (Slots.python sha256 cents) by' =
      requiredInt (Slots.python sha256 cents) by_ := by
    funext field
    unfold requiredInt
    rw [value]
  have expiry : expiresAt (Slots.python sha256 cents) by' =
      expiresAt (Slots.python sha256 cents) by_ := by
    unfold expiresAt
    rw [value]
  have changes := trueCodes_perm perm "applied_change"
  unfold readTerms
  rw [required, expiry, ← value, ← value]
  rcases codedFees_perm sha256 cents perm "fee" with ⟨h, h'⟩ | ⟨fees, fees', h, h', feesPerm⟩
  · rw [h, h']
    exact Or.inl ⟨_, rfl, rfl⟩
  rcases codedFees_perm sha256 cents perm "credit" with
    ⟨g, g'⟩ | ⟨credits, credits', g, g', creditsPerm⟩
  · rw [h, h', g, g']
    exact Or.inl ⟨_, rfl, rfl⟩
  simp only [h, h', g, g', stated_perm feesPerm, stated_perm changes, bind, Except.bind]
  cases requiredInt (Slots.python sha256 cents) by_ "monthly_price" with
  | error e => exact Or.inl ⟨e, rfl, rfl⟩
  | ok monthly =>
    dsimp only
    split
    · exact Or.inr (Or.inl ⟨rfl, rfl⟩)
    · cases requiredInt (Slots.python sha256 cents) by_ "term_months" with
      | error e => exact Or.inl ⟨e, rfl, rfl⟩
      | ok months =>
        cases expiresAt (Slots.python sha256 cents) by_ with
        | error e => exact Or.inl ⟨e, rfl, rfl⟩
        | ok expires =>
          refine Or.inr (Or.inr ⟨_, _, rfl, rfl, ⟨rfl, rfl, rfl, ?_, rfl, rfl,
            trueCodes_perm perm "feature", changes, feesPerm, creditsPerm⟩, rfl⟩)
          show monthly * 12 + _ - _ = monthly * 12 + _ - _
          rw [(feesPerm.map Fee.amountMinor).sum_eq, (creditsPerm.map Fee.amountMinor).sum_eq]

end order

/-! ## Hashes -/

section hashes

variable (sha256 : String → String) (cents : String → Except PyError Int)

/-- The order of its slots does not change how an offer is read. -/
theorem offerTerms_perm {o : OfferPublic} {slots : List ReadbackSlot} (perm : o.slots.Perm slots) :
    Alike (offerTerms (Slots.python sha256 cents) o)
      (offerTerms (Slots.python sha256 cents) { o with slots }) := by
  have fields : (fieldValues o.slots).Perm (fieldValues slots) := perm.map _
  have nodup : (Decidable.decide ((fieldValues o.slots).map Prod.fst).Nodup) =
      Decidable.decide ((fieldValues slots).map Prod.fst).Nodup := by
    rw [decide_eq_decide]
    exact (fields.map _).nodup_iff
  unfold offerTerms termsOf
  dsimp only
  rw [nodup, fields.any_eq]
  split
  · exact Or.inr (Or.inl ⟨rfl, rfl⟩)
  rename_i distinct
  split
  · exact Or.inr (Or.inl ⟨rfl, rfl⟩)
  rw [← nodup] at distinct
  rcases readTerms_perm sha256 cents fields (by simpa using distinct) o.offerRef o.revision with
    ⟨e, h, h'⟩ | ⟨h, h'⟩ | ⟨t, t', h, h', same⟩
  · rw [h, h']
    cases e with
    | key => exact Or.inr (Or.inl ⟨rfl, rfl⟩)
    | value => exact Or.inr (Or.inl ⟨rfl, rfl⟩)
    | type => exact Or.inl ⟨_, rfl, rfl⟩
    | overflow => exact Or.inl ⟨_, rfl, rfl⟩
  · rw [h, h']
    exact Or.inr (Or.inl ⟨rfl, rfl⟩)
  · rw [h, h']
    exact Or.inr (Or.inr ⟨t, t', rfl, rfl, same⟩)

theorem offerTermsHash_perm {o : OfferPublic} {slots : List ReadbackSlot} (perm : o.slots.Perm slots) :
    offerTermsHash (Slots.python sha256 cents) { o with slots } =
      offerTermsHash (Slots.python sha256 cents) o := by
  unfold offerTermsHash
  rcases offerTerms_perm sha256 cents perm with ⟨e, h, h'⟩ | ⟨h, h'⟩ | ⟨t, t', h, h', same, expires⟩
  · rw [h, h']
  · rw [h, h']
  · rw [h, h']
    have json : termsJson t = termsJson t' := by
      rw [termsJson_eq, termsJson_eq, compactDumps_inj]
      exact Bound.value_eq.mpr ⟨same, expires⟩
    show Except.ok (some (termsHash _ t')) = Except.ok (some (termsHash _ t))
    rw [termsHash, termsHash, json]

theorem offerTerms_ref {py : Runtime} {o : OfferPublic} {t : Terms}
    (h : offerTerms py o = .ok (some t)) : t.offerId = o.offerRef ∧ t.offerRevision = o.revision := by
  have read : readTerms py o.offerRef o.revision (fieldValues o.slots) = .ok (some t) := by
    unfold offerTerms termsOf at h
    split at h
    · cases h
    · split at h
      · cases h
      · split at h
        · cases h
        · cases h
        · exact h
  have bind_ok : ∀ {α β : Type} {x : Except PyError α} {f : α → Except PyError β} {r : β},
      (x >>= f) = .ok r → ∃ v, f v = .ok r := by
    intro α β x f r h
    cases x with
    | error e => cases h
    | ok v => exact ⟨v, h⟩
  unfold readTerms at read
  obtain ⟨fees, read⟩ := bind_ok read
  obtain ⟨credits, read⟩ := bind_ok read
  obtain ⟨monthly, read⟩ := bind_ok read
  dsimp only at read
  split at read
  · cases read
  obtain ⟨months, read⟩ := bind_ok read
  obtain ⟨expires, read⟩ := bind_ok read
  cases read
  exact ⟨rfl, rfl⟩

/-- `Terms`, with an aware expiry, which `__post_init__` moves to UTC. -/
structure Dated where
  monthlyPriceMinor : Int
  currency : String
  termMonths : Int
  features : List String
  fees : List Fee
  credits : List Fee
  appliedChanges : List String
  totalCost12mMinor : Int
  offerId : String
  offerRevision : Int
  expiresAt : Time.Stamp
  utc : Int
  aware : expiresAt.utc? = some utc
  inside : Time.representable utc = true

def Dated.bound (d : Dated) : Bound where
  monthlyPriceMinor := d.monthlyPriceMinor
  currency := d.currency
  termMonths := d.termMonths
  features := d.features
  fees := d.fees
  credits := d.credits
  appliedChanges := d.appliedChanges
  totalCost12mMinor := d.totalCost12mMinor
  offerId := d.offerId
  offerRevision := d.offerRevision
  expiresAt := Time.isoText d.utc.toNat

def Dated.hash (d : Dated) : String := sha256 (compactDumps d.bound.value)

def Dated.second (d : Dated) : Int := d.utc / Time.microsPerSecond

theorem Dated.expiry_eq {a b : Dated} :
    a.bound.expiresAt = b.bound.expiresAt ↔ a.second = b.second := by
  have born : ∀ d : Dated, 0 ≤ d.utc := by
    intro d
    have inside := d.inside
    rw [Time.representable, Bool.and_eq_true, decide_eq_true_eq] at inside
    exact inside.1
  have ha := born a
  have hb := born b
  refine Time.isoText_eq.trans ?_
  unfold second Time.microsPerSecond
  omega

/-- The terms hash binds exactly the terms: of terms as such, and of offers, whatever the order of
their slots. -/
theorem terms_hash_binds (collisionless : Function.Injective sha256) :
    (∀ a b : Dated, a.hash sha256 = b.hash sha256 ↔ a.bound.Same b.bound ∧ a.second = b.second) ∧
      (∀ (o : OfferPublic) (slots : List ReadbackSlot), o.slots.Perm slots →
        offerTermsHash (Slots.python sha256 cents) { o with slots } =
          offerTermsHash (Slots.python sha256 cents) o) ∧
      ∀ (o o' : OfferPublic) (hash : String),
        offerTermsHash (Slots.python sha256 cents) o = .ok (some hash) →
        offerTermsHash (Slots.python sha256 cents) o' = .ok (some hash) →
        o.offerRef = o'.offerRef ∧ o.revision = o'.revision ∧
          ∃ t t', offerTerms (Slots.python sha256 cents) o = .ok (some t) ∧
            offerTerms (Slots.python sha256 cents) o' = .ok (some t') ∧
            t.bound.Same t'.bound ∧ t.expiresAt = t'.expiresAt := by
  refine ⟨fun a b => ?_, fun o slots perm => offerTermsHash_perm sha256 cents perm, ?_⟩
  · rw [← Dated.expiry_eq, ← Bound.value_eq, ← compactDumps_inj]
    exact collisionless.eq_iff
  · intro o o' hash h h'
    obtain ⟨t, terms, own⟩ := offerTermsHash_eq_some.mp h
    obtain ⟨t', terms', own'⟩ := offerTermsHash_eq_some.mp h'
    have json : termsJson t = termsJson t' := collisionless (own.trans own'.symm)
    rw [termsJson_eq, termsJson_eq, compactDumps_inj] at json
    obtain ⟨same, expires⟩ := Bound.value_eq.mp json
    obtain ⟨ref, revision⟩ := offerTerms_ref terms
    obtain ⟨ref', revision'⟩ := offerTerms_ref terms'
    refine ⟨ref.symm.trans (same.offerId.trans ref'), ?_, t, t', terms, terms', same, expires⟩
    exact revision.symm.trans ((Int.ofNat_inj.mp same.revision).trans revision')

end hashes

/-- Two fees, until noon of the first day, two hours east of Greenwich. -/
def quoted : Dated where
  monthlyPriceMinor := 7500
  currency := "USD"
  termMonths := 12
  features := ["roaming"]
  fees := [⟨"porting", 500⟩, ⟨"a\",\"b", -1⟩]
  credits := []
  appliedChanges := []
  totalCost12mMinor := 90499
  offerId := "basic"
  offerRevision := 1
  expiresAt := ⟨43200000000, some 7200000000⟩
  utc := 36000000000
  aware := rfl
  inside := by decide

/-- The same terms, half a second later in UTC, with the fees the other way. -/
def requoted : Dated :=
  { quoted with
    fees := [⟨"a\",\"b", -1⟩, ⟨"porting", 500⟩]
    expiresAt := ⟨36000500000, some 0⟩
    utc := 36000500000
    aware := rfl
    inside := by decide }

def renamed : Dated := { quoted with offerId := "plus" }

def quotedHash : String := "886687ef2e4dbc3b7231a43689efc231b3603be072b55b74e10e5e7d1b52c2d5"

def renamedHash : String := "f65572ab3fcb6b6e1902224c430ebbf164ff55c94a40ec918f9be3932ea5ee99"

/-- A bijection with the digests of the two texts. -/
def quotedSha : Equiv.Perm String :=
  (Equiv.swap (compactDumps quoted.bound.value) quotedHash).trans
    (Equiv.swap (compactDumps renamed.bound.value) renamedHash)

theorem quotedSha_texts : quoted.hash quotedSha = quotedHash ∧ renamed.hash quotedSha = renamedHash := by
  decide +kernel

theorem terms_hash_binds_requoted :
    requoted.hash quotedSha = quotedHash ∧ quoted.hash quotedSha ≠ renamed.hash quotedSha := by
  obtain ⟨binds, -⟩ := terms_hash_binds quotedSha (fun _ => .error .value) quotedSha.injective
  refine ⟨((binds requoted quoted).mpr
    ⟨⟨rfl, rfl, rfl, rfl, rfl, rfl, .refl _, .refl _, .swap .., .refl _⟩, rfl⟩).trans
    quotedSha_texts.1, ?_⟩
  intro h
  have offers := ((binds _ _).mp h).1.offerId
  exact absurd offers (by decide)

end ProxyLoop

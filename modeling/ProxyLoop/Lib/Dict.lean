import Mathlib.Data.List.Nodup
import Mathlib.Data.List.Basic
import Mathlib.Data.List.Find

/-!
# Insertion-ordered dictionaries

A `Dict` is a finite map that remembers the order its keys were first written in: writing a key
that is there replaces the value in place, writing a new key appends it.  Iteration order is part
of the meaning (a first match over the values is well defined), which is why the keys are kept in
a list rather than in a quotient.  That the keys are distinct is a field, so every `Dict` is well
formed by construction.
-/

namespace Lib

variable {κ α : Type}

/-! ## Entry lists -/

/-- Write `k` in place if it is there, else at the end. -/
def setEntries [DecidableEq κ] : List (κ × α) → κ → α → List (κ × α)
  | [], k, v => [(k, v)]
  | p :: rest, k, v => if p.1 = k then (k, v) :: rest else p :: setEntries rest k v

theorem keys_setEntries [DecidableEq κ] (l : List (κ × α)) (k : κ) (v : α) :
    (setEntries l k v).map Prod.fst =
      if k ∈ l.map Prod.fst then l.map Prod.fst else l.map Prod.fst ++ [k] := by
  induction l with
  | nil => simp [setEntries]
  | cons p rest ih =>
    unfold setEntries
    by_cases hp : p.1 = k
    · simp [hp]
    · have hk : k ≠ p.1 := fun h => hp h.symm
      simp only [if_neg hp, List.map_cons, ih, List.mem_cons, hk, false_or]
      split <;> simp

theorem nodup_setEntries [DecidableEq κ] {l : List (κ × α)} (h : (l.map Prod.fst).Nodup)
    (k : κ) (v : α) : ((setEntries l k v).map Prod.fst).Nodup := by
  rw [keys_setEntries]
  split
  · exact h
  · rename_i hk
    exact List.Nodup.append h (List.nodup_singleton k) (by simpa using hk)

theorem mem_setEntries [DecidableEq κ] {l : List (κ × α)} (h : (l.map Prod.fst).Nodup)
    (k : κ) (v : α) (p : κ × α) :
    p ∈ setEntries l k v ↔ p = (k, v) ∨ (p ∈ l ∧ p.1 ≠ k) := by
  induction l with
  | nil => simp [setEntries]
  | cons q rest ih =>
    simp only [List.map_cons, List.nodup_cons] at h
    unfold setEntries
    by_cases hq : q.1 = k
    · rw [if_pos hq]
      have away : p ∈ rest → p.1 ≠ k := fun hp e =>
        h.1 (List.mem_map.mpr ⟨p, hp, e.trans hq.symm⟩)
      constructor
      · intro hp
        rcases List.mem_cons.mp hp with rfl | hp
        · exact Or.inl rfl
        · exact Or.inr ⟨List.mem_cons_of_mem _ hp, away hp⟩
      · rintro (rfl | ⟨hp, hne⟩)
        · exact List.mem_cons_self ..
        · rcases List.mem_cons.mp hp with rfl | hp
          · exact absurd hq hne
          · exact List.mem_cons_of_mem _ hp
    · rw [if_neg hq, List.mem_cons, ih h.2, List.mem_cons]
      constructor
      · rintro (rfl | rfl | ⟨hp, hne⟩)
        · exact Or.inr ⟨Or.inl rfl, hq⟩
        · exact Or.inl rfl
        · exact Or.inr ⟨Or.inr hp, hne⟩
      · rintro (rfl | ⟨rfl | hp, hne⟩)
        · exact Or.inr (Or.inl rfl)
        · exact Or.inl rfl
        · exact Or.inr (Or.inr ⟨hp, hne⟩)

theorem setEntries_new [DecidableEq κ] {l : List (κ × α)} {k : κ} {v : α} (new : k ∉ l.map Prod.fst) :
    setEntries l k v = l ++ [(k, v)] := by
  induction l with
  | nil => rfl
  | cons p rest ih =>
    simp only [List.map_cons, List.mem_cons, not_or] at new
    unfold setEntries
    rw [if_neg (Ne.symm new.1), ih new.2, List.cons_append]

/-! ## Dictionaries -/

/-- A finite map with an iteration order. -/
structure Dict (κ α : Type) where
  entries : List (κ × α)
  nodup : (entries.map Prod.fst).Nodup

namespace Dict

def empty : Dict κ α := ⟨[], List.nodup_nil⟩

instance : Inhabited (Dict κ α) := ⟨empty⟩

instance [DecidableEq κ] [DecidableEq α] : DecidableEq (Dict κ α) := fun d e =>
  decidable_of_iff (d.entries = e.entries) ⟨fun h => by cases d; cases e; cases h; rfl,
    fun h => by rw [h]⟩

def keys (d : Dict κ α) : List κ := d.entries.map Prod.fst

def values (d : Dict κ α) : List α := d.entries.map Prod.snd

def size (d : Dict κ α) : Nat := d.entries.length

section ops

variable [DecidableEq κ]

def get? (d : Dict κ α) (k : κ) : Option α := (d.entries.find? (·.1 = k)).map Prod.snd

/-- `{**d, k: v}`. -/
def set (d : Dict κ α) (k : κ) (v : α) : Dict κ α :=
  ⟨setEntries d.entries k v, nodup_setEntries d.nodup k v⟩

def erase (d : Dict κ α) (k : κ) : Dict κ α :=
  ⟨d.entries.filter (·.1 ≠ k), d.nodup.sublist (List.filter_sublist.map Prod.fst)⟩

def filterValues (p : α → Bool) (d : Dict κ α) : Dict κ α :=
  ⟨d.entries.filter fun e => p e.2, d.nodup.sublist (List.filter_sublist.map Prod.fst)⟩

def has (d : Dict κ α) (k : κ) : Bool := (d.get? k).isSome

/-- The map `f` on every value, the keys and their order kept. -/
def mapValues {β : Type} (f : α → β) (d : Dict κ α) : Dict κ β :=
  ⟨d.entries.map fun p => (p.1, f p.2), by simpa [List.map_map, Function.comp_def] using d.nodup⟩

/-! ## Lookup -/

theorem get?_eq_some {d : Dict κ α} {k : κ} {v : α} : d.get? k = some v ↔ (k, v) ∈ d.entries := by
  unfold get?
  constructor
  · intro h
    obtain ⟨p, hp, rfl⟩ := Option.map_eq_some_iff.mp h
    have hk : p.1 = k := by simpa using List.find?_some hp
    exact hk ▸ List.mem_of_find?_eq_some hp
  · intro h
    cases hf : d.entries.find? (·.1 = k) with
    | none => simpa using List.find?_eq_none.mp hf _ h
    | some p =>
      have hk : p.1 = k := by simpa using List.find?_some hf
      have hp := List.mem_of_find?_eq_some hf
      have := List.inj_on_of_nodup_map d.nodup hp h hk
      simp [this]

theorem get?_eq_none {d : Dict κ α} {k : κ} : d.get? k = none ↔ ∀ v, (k, v) ∉ d.entries := by
  constructor
  · intro h v hv
    rw [get?_eq_some.mpr hv] at h
    cases h
  · intro h
    cases hg : d.get? k with
    | none => rfl
    | some v => exact absurd (get?_eq_some.mp hg) (h v)

@[simp] theorem get?_empty (k : κ) : (empty : Dict κ α).get? k = none := rfl

@[simp] theorem get?_set_self (d : Dict κ α) (k : κ) (v : α) : (d.set k v).get? k = some v :=
  get?_eq_some.mpr ((mem_setEntries d.nodup k v _).mpr (Or.inl rfl))

theorem get?_set_ne (d : Dict κ α) {k k' : κ} (h : k' ≠ k) (v : α) :
    (d.set k v).get? k' = d.get? k' := by
  apply Option.ext
  intro w
  rw [get?_eq_some, get?_eq_some]
  show (k', w) ∈ setEntries d.entries k v ↔ _
  rw [mem_setEntries d.nodup]
  constructor
  · rintro (e | ⟨hm, -⟩)
    · exact absurd (congrArg Prod.fst e) h
    · exact hm
  · exact fun hm => Or.inr ⟨hm, h⟩

theorem get?_set (d : Dict κ α) (k k' : κ) (v : α) :
    (d.set k v).get? k' = if k' = k then some v else d.get? k' := by
  split
  · rename_i h; rw [h, get?_set_self]
  · rename_i h; exact get?_set_ne d h v

@[simp] theorem get?_erase_self (d : Dict κ α) (k : κ) : (d.erase k).get? k = none :=
  get?_eq_none.mpr fun v h => by simpa using (List.mem_filter.mp h).2

theorem get?_erase_ne (d : Dict κ α) {k k' : κ} (h : k' ≠ k) :
    (d.erase k).get? k' = d.get? k' := by
  apply Option.ext
  intro w
  rw [get?_eq_some, get?_eq_some]
  simp [erase, h]

theorem get?_erase (d : Dict κ α) (k k' : κ) :
    (d.erase k).get? k' = if k' = k then none else d.get? k' := by
  split
  · rename_i h; rw [h, get?_erase_self]
  · rename_i h; exact get?_erase_ne d h

theorem get?_mapValues {β : Type} (f : α → β) (d : Dict κ α) (k : κ) :
    (d.mapValues f).get? k = (d.get? k).map f := by
  apply Option.ext
  intro w
  rw [get?_eq_some, Option.map_eq_some_iff]
  simp only [mapValues, List.mem_map, Prod.mk.injEq, Prod.exists]
  constructor
  · rintro ⟨a, b, hm, rfl, rfl⟩
    exact ⟨b, get?_eq_some.mpr hm, rfl⟩
  · rintro ⟨b, hb, rfl⟩
    exact ⟨k, b, get?_eq_some.mp hb, rfl, rfl⟩

theorem get?_filterValues {p : α → Bool} {d : Dict κ α} {k : κ} {v : α} :
    (d.filterValues p).get? k = some v ↔ d.get? k = some v ∧ p v = true := by
  rw [get?_eq_some, get?_eq_some]
  simp [filterValues]

/-! ## Values -/

theorem mem_keys_set {d : Dict κ α} {k k' : κ} {v : α} :
    k' ∈ (d.set k v).keys ↔ k' = k ∨ k' ∈ d.keys := by
  show k' ∈ (setEntries d.entries k v).map Prod.fst ↔ k' = k ∨ k' ∈ d.entries.map Prod.fst
  rw [keys_setEntries]
  split
  · rename_i own
    exact ⟨Or.inr, fun h => h.elim (fun same => same ▸ own) id⟩
  · rw [List.mem_append, List.mem_singleton, or_comm]

theorem keys_set_new {d : Dict κ α} {k : κ} {v : α} (new : k ∉ d.keys) :
    (d.set k v).keys = d.keys ++ [k] := by
  show (setEntries d.entries k v).map Prod.fst = d.entries.map Prod.fst ++ [k]
  rw [keys_setEntries]
  exact if_neg new

theorem size_set_of_some {d : Dict κ α} {k : κ} {v : α} (h : d.get? k = some v) (w : α) :
    (d.set k w).size = d.size := by
  have own : k ∈ d.entries.map Prod.fst := List.mem_map.mpr ⟨_, get?_eq_some.mp h, rfl⟩
  have keys := keys_setEntries d.entries k w
  rw [if_pos own] at keys
  have := congrArg List.length keys
  rwa [List.length_map, List.length_map] at this

theorem mem_values {d : Dict κ α} {v : α} : v ∈ d.values ↔ ∃ k, d.get? k = some v := by
  simp only [values, List.mem_map, Prod.exists, exists_eq_right, get?_eq_some]

theorem mem_values_of_get? {d : Dict κ α} {k : κ} {v : α} (h : d.get? k = some v) :
    v ∈ d.values :=
  mem_values.mpr ⟨k, h⟩

theorem mem_values_set {d : Dict κ α} {k : κ} {v w : α} (h : w ∈ (d.set k v).values) :
    w = v ∨ ∃ k', k' ≠ k ∧ d.get? k' = some w := by
  obtain ⟨k', hk⟩ := mem_values.mp h
  rw [get?_set] at hk
  split at hk
  · exact Or.inl (Option.some.inj hk).symm
  · rename_i hne; exact Or.inr ⟨k', hne, hk⟩

/-- A dictionary whose values hold their keys is the one made of its values. -/
theorem foldl_set_values {d : Dict κ α} {key : α → κ}
    (keyed : ∀ {k v}, d.get? k = some v → key v = k) :
    d.values.foldl (fun d v => d.set (key v) v) empty = d := by
  have written : ∀ (l : List (κ × α)) (made : Dict κ α), (∀ p ∈ l, key p.2 = p.1) →
      (made.keys ++ l.map Prod.fst).Nodup →
      ((l.map Prod.snd).foldl (fun d v => d.set (key v) v) made).entries = made.entries ++ l := by
    intro l
    induction l with
    | nil =>
      intro made _ _
      simp
    | cons p rest ih =>
      intro made keyed nodup
      have own : key p.2 = p.1 := keyed p (List.mem_cons_self ..)
      have new : p.1 ∉ made.keys := fun mem =>
        (List.nodup_append.mp nodup).2.2 p.1 mem p.1 (by simp) rfl
      have set_ : (made.set p.1 p.2).entries = made.entries ++ [p] := setEntries_new new
      rw [List.map_cons, List.foldl_cons, own,
        ih _ (fun q hq => keyed q (List.mem_cons_of_mem _ hq)), set_, List.append_assoc,
        List.singleton_append]
      rw [keys_set_new new, List.append_assoc]
      exact nodup
  have same := written d.entries empty (fun p hp => keyed (get?_eq_some.mpr hp))
    (by simpa [keys, empty] using d.nodup)
  show List.foldl _ _ (d.entries.map Prod.snd) = d
  cases h : List.foldl (fun d v => d.set (key v) v) empty (d.entries.map Prod.snd) with
  | mk entries nodup =>
    rw [h] at same
    cases d
    cases same
    rfl

theorem find?_values {d : Dict κ α} {key : α → κ} (keyed : ∀ {k v}, d.get? k = some v → key v = k)
    (k : κ) : (d.values.find? fun v => key v = k) = d.get? k := by
  unfold values get?
  rw [List.find?_map]
  congr 1
  refine List.find?_congr fun p hp => ?_
  simp [keyed (get?_eq_some.mpr hp)]

/-! ## Counting

How a write or a removal moves the number of entries that satisfy `p`. -/

def count (p : α → Bool) (d : Dict κ α) : Nat := d.entries.countP fun e => p e.2

theorem countP_setEntries {l : List (κ × α)} (hn : (l.map Prod.fst).Nodup) (p : α → Bool) (k : κ)
    (v w : α) (hw : (k, w) ∈ l) :
    (setEntries l k v).countP (fun e => p e.2) + (p w).toNat =
      l.countP (fun e => p e.2) + (p v).toNat := by
  induction l with
  | nil => cases hw
  | cons q rest ih =>
    simp only [List.map_cons, List.nodup_cons] at hn
    unfold setEntries
    by_cases hq : q.1 = k
    · have hqw : q = (k, w) := by
        rcases List.mem_cons.mp hw with e | hr
        · exact e.symm
        · exact absurd (List.mem_map.mpr ⟨_, hr, rfl⟩) (hq ▸ hn.1)
      subst hqw
      rw [if_pos rfl, List.countP_cons, List.countP_cons]
      cases p v <;> cases p w <;> simp
    · have hr : (k, w) ∈ rest := by
        rcases List.mem_cons.mp hw with e | hr
        · exact absurd (congrArg Prod.fst e.symm) hq
        · exact hr
      have := ih hn.2 hr
      rw [if_neg hq, List.countP_cons, List.countP_cons]
      omega

theorem countP_setEntries_new {l : List (κ × α)} (p : α → Bool) (k : κ) (v : α)
    (hk : k ∉ l.map Prod.fst) :
    (setEntries l k v).countP (fun e => p e.2) = l.countP (fun e => p e.2) + (p v).toNat := by
  induction l with
  | nil => cases hv : p v <;> simp [setEntries, hv]
  | cons q rest ih =>
    simp only [List.map_cons, List.mem_cons, not_or] at hk
    unfold setEntries
    rw [if_neg (fun e => hk.1 e.symm), List.countP_cons, List.countP_cons, ih hk.2]
    omega

theorem count_set_of_some {d : Dict κ α} {k : κ} {w : α} (h : d.get? k = some w) (p : α → Bool)
    (v : α) : (d.set k v).count p + (p w).toNat = d.count p + (p v).toNat :=
  countP_setEntries d.nodup p k v w (get?_eq_some.mp h)

theorem count_set_of_none {d : Dict κ α} {k : κ} (h : d.get? k = none) (p : α → Bool) (v : α) :
    (d.set k v).count p = d.count p + (p v).toNat := by
  refine countP_setEntries_new p k v fun hk => ?_
  obtain ⟨⟨k', w⟩, hw, rfl⟩ := List.mem_map.mp hk
  exact get?_eq_none.mp h w hw

theorem count_erase_of_not {d : Dict κ α} {k : κ} {p : α → Bool}
    (h : ∀ w, d.get? k = some w → p w = false) : (d.erase k).count p = d.count p := by
  unfold count erase
  rw [List.countP_filter]
  refine List.countP_congr fun e he => ?_
  have hp : e.1 = k → p e.2 = false := fun hk => h e.2 (get?_eq_some.mpr (hk ▸ he))
  by_cases hk : e.1 = k
  · simp [hk, hp hk]
  · simp [hk]

theorem count_pos {d : Dict κ α} {k : κ} {v : α} {p : α → Bool} (h : d.get? k = some v)
    (hp : p v = true) : 0 < d.count p :=
  List.countP_pos_iff.mpr ⟨_, get?_eq_some.mp h, hp⟩

theorem count_eq_zero {d : Dict κ α} {p : α → Bool} :
    d.count p = 0 ↔ ∀ k v, d.get? k = some v → p v = false := by
  unfold count
  rw [List.countP_eq_zero]
  constructor
  · intro h k v hv
    simpa using h _ (get?_eq_some.mp hv)
  · intro h e he
    simpa using h e.1 e.2 (get?_eq_some.mpr he)

end ops

end Dict

end Lib

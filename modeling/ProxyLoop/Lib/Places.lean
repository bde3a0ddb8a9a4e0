import Mathlib.Data.List.Basic
import Mathlib.Data.List.Induction

/-!
# Places in a log

What stands at a place of a list, what does not stand between two, and how both are kept when the
list is extended.  A rule that each element keeps of the elements before it holds at every place.
-/

namespace Lib

variable {α : Type}

/-- The element at place `n` is so. -/
def At (log : List α) (n : Nat) (P : α → Prop) : Prop := ∃ e, log[n]? = some e ∧ P e

/-- No element between the two places is so. -/
def Quiet (log : List α) (i j : Nat) (P : α → Prop) : Prop := ∀ n, i < n → n < j → ¬ At log n P

section places

variable {log log' : List α} {e : α} {P Q : α → Prop} {i j n : Nat}

theorem At.lt (h : At log n P) : n < log.length := by
  obtain ⟨e, get, -⟩ := h
  exact (List.getElem?_eq_some_iff.mp get).1

theorem At.imp (h : At log n P) (imp : ∀ e, P e → Q e) : At log n Q := by
  obtain ⟨e, get, holds⟩ := h
  exact ⟨e, get, imp e holds⟩

/-- One place holds one element. -/
theorem At.both (h : At log n P) (h' : At log n Q) : ∃ e, log[n]? = some e ∧ P e ∧ Q e := by
  obtain ⟨e, get, holds⟩ := h
  obtain ⟨e', get', holds'⟩ := h'
  obtain rfl : e = e' := Option.some.inj (get.symm.trans get')
  exact ⟨e, get, holds, holds'⟩

theorem exists_at : (∃ n, At log n P) ↔ ∃ e ∈ log, P e := by
  constructor
  · rintro ⟨n, e, get, holds⟩
    exact ⟨e, List.mem_of_getElem? get, holds⟩
  · rintro ⟨e, mem, holds⟩
    obtain ⟨n, get⟩ := List.mem_iff_getElem?.mp mem
    exact ⟨n, e, get, holds⟩

theorem at_of_extends (ext : log <+: log') (h : n < log.length) : At log' n P ↔ At log n P := by
  obtain ⟨more, rfl⟩ := ext
  unfold At
  rw [List.getElem?_append_left h]

theorem At.mono (h : At log n P) (ext : log <+: log') : At log' n P :=
  (at_of_extends ext h.lt).mpr h

theorem at_take : At (log.take i) n P ↔ n < i ∧ At log n P := by
  constructor
  · intro h
    refine ⟨?_, h.mono (List.take_prefix _ _)⟩
    have := h.lt
    rw [List.length_take] at this
    omega
  · rintro ⟨lt, h⟩
    have := h.lt
    exact (at_of_extends (List.take_prefix _ _) (by rw [List.length_take]; omega)).mp h

theorem at_snoc : At (log ++ [e]) n P ↔ At log n P ∨ n = log.length ∧ P e := by
  by_cases below : n < log.length
  · rw [at_of_extends (List.prefix_append _ _) below]
    exact ⟨Or.inl, fun h => h.resolve_right fun bad => by omega⟩
  · unfold At
    rw [List.getElem?_append_right (Nat.le_of_not_lt below),
      List.getElem?_eq_none (Nat.le_of_not_lt below)]
    by_cases last : n = log.length
    · subst last
      simp
    · rw [List.getElem?_eq_none (by simp; omega)]
      simp [last]

theorem Quiet.mono (h : Quiet log i j P) (ext : log <+: log') (le : j ≤ log.length) :
    Quiet log' i j P := fun n lt lt' bad =>
  h n lt lt' ((at_of_extends ext (by omega)).mp bad)

theorem quiet_of_extends (ext : log <+: log') (h : Quiet log' i j P) : Quiet log i j P :=
  fun n lt lt' bad => h n lt lt' (bad.mono ext)

/-- Nothing is so in between, and not the next element either. -/
theorem Quiet.snoc (h : Quiet log i log.length P) (calm : ¬ P e) :
    Quiet (log ++ [e]) i (log ++ [e]).length P := by
  intro n lt lt' bad
  rcases at_snoc.mp bad with bad | ⟨-, bad⟩
  · exact h n lt bad.lt bad
  · exact calm bad

theorem quiet_self : Quiet log n (n + 1) P := fun m lt lt' => by omega

theorem At.last (h : At log n P) : ∃ m, At log m P ∧ Quiet log m log.length P := by
  induction log using List.reverseRecOn with
  | nil => exact absurd h.lt (Nat.not_lt_zero _)
  | append_singleton log e ih =>
    by_cases here_ : P e
    · refine ⟨log.length, at_snoc.mpr (Or.inr ⟨rfl, here_⟩), ?_⟩
      rw [List.length_append]
      exact quiet_self
    · obtain ⟨m, holds, quiet⟩ := ih ((at_snoc.mp h).resolve_right fun bad => here_ bad.2)
      exact ⟨m, holds.mono (List.prefix_append _ _), quiet.snoc here_⟩

end places

/-! ## Rules -/

/-- Each element keeps the rule, of the elements before it. -/
def Ruled (rule : List α → α → Prop) (log : List α) : Prop :=
  ∀ n e, log[n]? = some e → rule (log.take n) e

section rules

variable {rule : List α → α → Prop} {log : List α}

theorem Ruled.append {es : List α} (h : Ruled rule log)
    (kept : ∀ n e, es[n]? = some e → rule (log ++ es.take n) e) : Ruled rule (log ++ es) := by
  intro n e get
  by_cases below : n < log.length
  · rw [List.getElem?_append_left below] at get
    rw [List.take_append_of_le_length (Nat.le_of_lt below)]
    exact h n e get
  · rw [List.getElem?_append_right (Nat.le_of_not_lt below)] at get
    rw [List.take_append, List.take_of_length_le (Nat.le_of_not_lt below)]
    exact kept _ e get

/-- What rules itself out for later is at one place. -/
theorem Ruled.unique {P : α → Prop} {i j : Nat} (h : Ruled rule log)
    (once : ∀ log e, rule log e → P e → ∀ n, ¬ At log n P) (hi : At log i P) (hj : At log j P) :
    i = j := by
  have earlier : ∀ {i j}, At log i P → At log j P → ¬ i < j := by
    rintro i j hi ⟨e, get, holds⟩ lt
    exact once _ e (h j e get) holds i (at_take.mpr ⟨lt, hi⟩)
  have before := earlier hi hj
  have after := earlier hj hi
  omega

end rules

end Lib

import Mathlib.Data.List.Basic

/-!
# Lines of a growing text

`lines` are the parts a separator ends, and `rest` the part it does not end yet.  A text that grows
keeps its lines, and those that come next are read from what was left and what is new.
-/

namespace Lib

variable {α : Type} [BEq α]

def lines (sep : α) (text : List α) : List (List α) := (text.splitOn sep).dropLast

def rest (sep : α) (text : List α) : List α := ((text.splitOn sep).getLast?).getD []

theorem splitOn_eq (sep : α) (text : List α) :
    text.splitOn sep = lines sep text ++ [rest sep text] := by
  have hne := List.splitOn_ne_nil sep text
  rw [lines, rest, List.getLast?_eq_some_getLast hne, Option.getD_some,
    List.dropLast_append_getLast]

/-- The parts of a text, from those of its beginning. -/
theorem splitOn_append (sep : α) (a b : List α) :
    (a ++ b).splitOn sep = lines sep a ++ (rest sep a ++ b).splitOn sep := by
  induction a with
  | nil => simp [lines, rest]
  | cons x a ih =>
    rw [List.cons_append, List.splitOn_cons_eq_if_modifyHead, lines, rest,
      List.splitOn_cons_eq_if_modifyHead, ih, splitOn_eq sep a]
    by_cases hx : (x == sep) = true
    · simp [hx, List.dropLast_cons_of_ne_nil, List.getLast?_cons]
    · rcases hl : lines sep a with - | ⟨l, ls⟩
      · simp [hx, List.splitOn_cons_eq_if_modifyHead]
      · simp [hx, List.dropLast_cons_of_ne_nil, List.getLast?_cons]

theorem lines_append (sep : α) (a b : List α) :
    lines sep (a ++ b) = lines sep a ++ lines sep (rest sep a ++ b) := by
  have h := splitOn_append sep a b
  rw [splitOn_eq sep (a ++ b), splitOn_eq sep (rest sep a ++ b), ← List.append_assoc] at h
  exact List.append_inj_left' h rfl

theorem rest_append (sep : α) (a b : List α) :
    rest sep (a ++ b) = rest sep (rest sep a ++ b) := by
  have h := splitOn_append sep a b
  rw [splitOn_eq sep (a ++ b), splitOn_eq sep (rest sep a ++ b), ← List.append_assoc] at h
  simpa using List.append_inj_right' h rfl

theorem lines_prefix (sep : α) (a b : List α) : lines sep a <+: lines sep (a ++ b) :=
  ⟨_, (lines_append sep a b).symm⟩

/-- The parts of a split text stand in it, the first at its start. -/
theorem infix_splitOn (sep : α) (text : List α) :
    (∀ part ∈ text.splitOn sep, part <:+: text) ∧
      ∀ part, (text.splitOn sep).head? = some part → part <+: text := by
  induction text with
  | nil => simp
  | cons x text ih =>
    obtain ⟨inside, first⟩ := ih
    obtain ⟨part, parts, hp⟩ := List.exists_cons_of_ne_nil (List.splitOn_ne_nil sep text)
    rw [List.splitOn_cons_eq_if_modifyHead]
    rw [hp] at inside first ⊢
    split
    · refine ⟨fun p h => ?_, fun p h => ?_⟩
      · rcases List.mem_cons.mp h with rfl | h
        · exact List.nil_infix
        · exact (inside p h).trans (List.infix_cons (List.infix_refl _))
      · cases h
        exact List.nil_prefix
    · have start : x :: part <+: x :: text := List.cons_prefix_cons.mpr ⟨rfl, first part rfl⟩
      refine ⟨fun p h => ?_, fun p h => ?_⟩
      · rcases List.mem_cons.mp h with rfl | h
        · exact start.isInfix
        · exact (inside p (List.mem_cons_of_mem _ h)).trans (List.infix_cons (List.infix_refl _))
      · cases h
        exact start

section

variable [LawfulBEq α] {sep : α}

theorem not_mem_splitOn (text : List α) : ∀ part ∈ text.splitOn sep, sep ∉ part := by
  induction text with
  | nil => simp
  | cons x text ih =>
    rw [List.splitOn_cons_eq_if_modifyHead]
    split
    · intro part hp
      rcases List.mem_cons.mp hp with rfl | hp
      · exact List.not_mem_nil
      · exact ih part hp
    · rename_i other
      have some_ := List.splitOn_ne_nil sep text
      obtain ⟨first, others, hf⟩ := List.exists_cons_of_ne_nil some_
      rw [hf] at ih ⊢
      intro part hp
      rcases List.mem_cons.mp hp with rfl | hp
      · intro bad
        rcases List.mem_cons.mp bad with rfl | bad
        · simp at other
        · exact ih first (by simp) bad
      · exact ih part (List.mem_cons_of_mem _ hp)

theorem not_mem_rest (text : List α) : sep ∉ rest sep text := by
  refine not_mem_splitOn text _ ?_
  rw [splitOn_eq]
  simp

/-- A part that is not ended goes on. -/
theorem splitOn_append_of_not_mem {a : List α} (h : sep ∉ a) (b : List α) :
    (a ++ b).splitOn sep = (b.splitOn sep).modifyHead (a ++ ·) := by
  induction a with
  | nil => cases hb : b.splitOn sep <;> simp [hb]
  | cons x a ih =>
    have other : ¬(x == sep) = true := fun same => h (by simp [eq_of_beq same])
    rw [List.cons_append, List.splitOn_cons_eq_if_modifyHead, if_neg other,
      ih (fun bad => h (List.mem_cons_of_mem _ bad)), List.modifyHead_modifyHead]
    rfl

end

end Lib

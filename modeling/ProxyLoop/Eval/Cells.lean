import Mathlib.Data.List.DropRight
import ProxyLoop.Contract.Instant
import ProxyLoop.Contract.Text
import ProxyLoop.Lib.Groups

/-!
# The cells of a matrix and their folders

A cell's folder is named after its place in the schedule, its condition, its instance and its
seed; the report reads the cell back from the name.
-/

namespace ProxyLoop.Matrix

open Lib (Regex)
open Lib.Json (Stops stops_cons int_form)
open Text (char digit digits word isDecimal natOf)
open Time (padded)

structure Cell where
  condition : String
  instance_ : String
  seed : Int
  deriving DecidableEq

/-- `cell_dir`, of the runs dir: `f"{k:04d}-{condition}-{instance}-s{seed}"` -/
def cellDir (k : Nat) (cell : Cell) : List Char :=
  (padded 4 k).toList ++ '-' :: (cell.condition.toList ++
    '-' :: (cell.instance_.toList ++ '-' :: 's' :: (toString cell.seed).toList))

def name (path : List Char) : List Char := path.rtakeWhile (· ≠ '/')

/-- `_CELL_DIR` -/
def cellDirRe : Regex Char :=
  .all [.times digit 4, char '-', .group 1 (.plus (.set (· ≠ '-'))), char '-',
    .group 2 (.plus (.set (· ≠ '\n'))), word "-s", .group 3 digits]

def groupOf (groups : List (Nat × List Char)) (i : Nat) : List Char :=
  ((groups.find? (·.1 = i)).map Prod.snd).getD []

/-- `read_cell_dir`, of the folder's name -/
def readCellDir (folder : List Char) : Option Cell :=
  (cellDirRe.full? folder).map fun groups =>
    ⟨String.ofList (groupOf groups 1), String.ofList (groupOf groups 2),
      (natOf (groupOf groups 3) : Int)⟩

example : readCellDir "0012-C2-bill-1-s3-s40".toList = some ⟨"C2", "bill-1-s3", 40⟩ := by
  decide +kernel

/-! ## The parts of a name -/

/-- How the pattern reads a name. -/
structure Parts (text place condition instance_ seed : List Char) : Prop where
  whole : text = place ++ '-' :: (condition ++ '-' :: (instance_ ++ '-' :: 's' :: seed))
  four : place.length = 4
  decimal : ∀ c ∈ place, isDecimal c = true
  named : condition ≠ []
  plain : '-' ∉ condition
  some_ : instance_ ≠ []
  one_line : '\n' ∉ instance_
  seeded : seed ≠ []
  numeral : ∀ c ∈ seed, isDecimal c = true

section

variable {text a b m p s t : List Char} {c : Char} {g : List (Nat × List Char)}

theorem reads_char {x : Char} : (char x).Reads b m a ↔ m = [x] := by
  simp [char, Regex.reads_set]

theorem reads_times {q : Char → Bool} (n : Nat) : ∀ {b m : List Char},
    (Regex.times (.set q) n).Reads b m a ↔ m.length = n ∧ ∀ c ∈ m, q c = true := by
  induction n with
  | zero => simp [Regex.times, Regex.reads_eps, List.length_eq_zero_iff]
  | succ n ih =>
    intro b m
    rw [Regex.times, Regex.reads_seq]
    constructor
    · rintro ⟨m₁, m₂, rfl, one, more⟩
      obtain ⟨x, rfl, hx⟩ := Regex.reads_set.mp one
      obtain ⟨length, all⟩ := ih.mp more
      exact ⟨by simp [length], List.forall_mem_cons.mpr ⟨hx, all⟩⟩
    · rintro ⟨length, all⟩
      cases m with
      | nil => cases length
      | cons x m =>
        obtain ⟨hx, all⟩ := List.forall_mem_cons.mp all
        exact ⟨[x], m, rfl, Regex.reads_set.mpr ⟨x, rfl, hx⟩,
          ih.mpr ⟨Nat.succ.inj length, all⟩⟩

theorem reads_dash_s : (word "-s").Reads b m a ↔ m = ['-', 's'] := by
  have letters : "-s".toList = ['-', 's'] := rfl
  rw [word, letters, Regex.reads_word]
  constructor
  · intro h
    cases h with
    | cons dash h =>
      cases h with
      | cons s h =>
        cases h
        rw [← eq_of_beq dash, ← eq_of_beq s]
  · rintro rfl
    exact .cons rfl (.cons rfl .nil)

theorem groupless_times (r : Regex Char) (h : r.Groupless) : ∀ n, (Regex.times r n).Groupless
  | 0 => trivial
  | n + 1 => ⟨h, groupless_times r h n⟩

theorem takes_plus {p : Char → Bool} {i : Nat} :
    (Regex.group i (.plus (.set p))).Takes b m a g ↔
      g = [(i, m)] ∧ m ≠ [] ∧ ∀ c ∈ m, p c = true := by
  have inner : (Regex.plus (.set p)).Groupless := ⟨trivial, trivial⟩
  rw [Regex.takes_group]
  constructor
  · rintro ⟨g', rfl, h⟩
    obtain ⟨rfl, read⟩ := (Regex.takes_groupless inner).mp h
    exact ⟨rfl, Regex.reads_plus_set.mp read⟩
  · rintro ⟨rfl, h⟩
    exact ⟨[], rfl, (Regex.takes_groupless inner).mpr ⟨rfl, Regex.reads_plus_set.mpr h⟩⟩

/-- The pattern reads a name in its parts. -/
theorem takes_cellDir : cellDirRe.Takes [] text [] g ↔
    ∃ place condition instance_ seed, Parts text place condition instance_ seed ∧
      g = [(3, seed), (2, instance_), (1, condition)] := by
  have digits_ : ∀ {b m a g}, (Regex.times (.set isDecimal) 4).Takes b m a g ↔
      g = [] ∧ m.length = 4 ∧ ∀ c ∈ m, isDecimal c = true := by
    intro b m a g
    rw [Regex.takes_groupless (groupless_times (.set isDecimal) trivial 4), reads_times]
  have dash : ∀ {b m a g}, (char '-').Takes b m a g ↔ g = [] ∧ m = ['-'] := by
    intro b m a g
    have single : (char '-').Groupless := trivial
    rw [Regex.takes_groupless single, reads_char]
  have dash_s : ∀ {b m a g}, (word "-s").Takes b m a g ↔ g = [] ∧ m = ['-', 's'] := by
    intro b m a g
    have two : (word "-s").Groupless := ⟨trivial, trivial, trivial⟩
    rw [Regex.takes_groupless two, reads_dash_s]
  have nothing : ∀ {b m a g}, (Regex.eps : Regex Char).Takes b m a g ↔ g = [] ∧ m = [] := by
    intro b m a g
    have none_ : (Regex.eps : Regex Char).Groupless := trivial
    rw [Regex.takes_groupless none_, Regex.reads_eps]
  constructor
  · intro h
    simp only [cellDirRe, Regex.all, List.foldr, Regex.takes_seq, digits_, dash, dash_s, nothing,
      takes_plus, digits, digit] at h
    obtain ⟨place, _, _, _, rfl, rfl, ⟨rfl, four, decimal⟩, _, _, _, _, rfl, rfl, ⟨rfl, rfl⟩,
      condition, _, _, _, rfl, rfl, ⟨rfl, named, plain⟩, _, _, _, _, rfl, rfl, ⟨rfl, rfl⟩,
      instance_, _, _, _, rfl, rfl, ⟨rfl, some_, one_line⟩, _, _, _, _, rfl, rfl, ⟨rfl, rfl⟩,
      seed, _, _, _, rfl, rfl, ⟨rfl, seeded, numeral⟩, rfl, rfl⟩ := h
    refine ⟨place, condition, instance_, seed, ⟨by simp, four, decimal, named, ?_, some_, ?_,
      seeded, numeral⟩, rfl⟩
    · intro bad
      exact absurd (plain _ bad) (by decide)
    · intro bad
      exact absurd (one_line _ bad) (by decide)
  · rintro ⟨place, condition, instance_, seed, parts, rfl⟩
    simp only [cellDirRe, Regex.all, List.foldr, Regex.takes_seq, digits_, dash, dash_s, nothing,
      takes_plus, digits, digit]
    have plain : ∀ c ∈ condition, Decidable.decide (c ≠ '-') = true := by
      intro c hc
      exact decide_eq_true fun same => parts.plain (same ▸ hc)
    have one_line : ∀ c ∈ instance_, Decidable.decide (c ≠ '\n') = true := by
      intro c hc
      exact decide_eq_true fun same => parts.one_line (same ▸ hc)
    exact ⟨place, _, [], [(3, seed), (2, instance_), (1, condition)], by rw [parts.whole]; rfl, rfl,
      ⟨rfl, parts.four, parts.decimal⟩, ['-'], _, [], [(3, seed), (2, instance_), (1, condition)],
      rfl, rfl, ⟨rfl, rfl⟩, condition, _, [(1, condition)], [(3, seed), (2, instance_)], rfl, rfl,
      ⟨rfl, parts.named, plain⟩, ['-'], _, [], [(3, seed), (2, instance_)], rfl, rfl, ⟨rfl, rfl⟩,
      instance_, _, [(2, instance_)], [(3, seed)], rfl, rfl, ⟨rfl, parts.some_, one_line⟩,
      ['-', 's'], _, [], [(3, seed)], rfl, rfl, ⟨rfl, rfl⟩, seed, [], [(3, seed)], [],
      (List.append_nil seed).symm, rfl, ⟨rfl, parts.seeded, parts.numeral⟩, rfl, rfl⟩

end

/-- A text before the first of a character. -/
theorem takeWhile_cut {x : Char} {a t : List Char} (first : x ∉ a) :
    (a ++ x :: t).takeWhile (· ≠ x) = a := by
  rw [List.takeWhile_append_of_pos, List.takeWhile_cons_of_neg (by simp), List.append_nil]
  intro c hc
  exact decide_eq_true fun bad => first (bad ▸ hc)

theorem s_not_decimal {seed : List Char} (numeral : ∀ c ∈ seed, isDecimal c = true) :
    's' ∉ seed := by
  intro bad
  exact absurd (numeral _ bad) (by decide)

theorem s_not_int (seed : Int) : 's' ∉ (toString seed).toList := by
  obtain ⟨ds, digits, -, form | form⟩ := int_form seed
  · rw [form]
    intro bad
    exact absurd (digits _ bad) (by decide)
  · rw [form, List.mem_cons, not_or]
    exact ⟨by decide, fun bad => absurd (digits _ bad) (by decide)⟩

theorem cut_last {i i' s s' : List Char} (hs : 's' ∉ s) (hs' : 's' ∉ s')
    (h : i ++ '-' :: 's' :: s = i' ++ '-' :: 's' :: s') : i = i' ∧ s = s' := by
  have turned : ∀ i s : List Char, (i ++ '-' :: 's' :: s).reverse =
      s.reverse ++ 's' :: '-' :: i.reverse := by
    intro i s
    simp
  have h := congrArg List.reverse h
  rw [turned, turned] at h
  have seeds := congrArg (List.takeWhile (· ≠ 's')) h
  rw [takeWhile_cut fun bad => hs (List.mem_reverse.mp bad),
    takeWhile_cut fun bad => hs' (List.mem_reverse.mp bad)] at seeds
  rw [seeds] at h
  injection List.append_cancel_left h with _ h
  injection h with _ h
  exact ⟨List.reverse_injective h, List.reverse_injective seeds⟩

theorem Parts.unique {text p c i s p' c' i' s' : List Char} (h : Parts text p c i s)
    (h' : Parts text p' c' i' s') : p = p' ∧ c = c' ∧ i = i' ∧ s = s' := by
  obtain ⟨rfl, rest⟩ :=
    List.append_inj (h.whole.symm.trans h'.whole) (h.four.trans h'.four.symm)
  injection rest with _ same
  -- the condition ends at the first dash, and the seed starts at the last `s`
  have cond := congrArg (List.takeWhile (· ≠ '-')) same
  rw [takeWhile_cut h.plain, takeWhile_cut h'.plain] at cond
  subst cond
  injection List.append_cancel_left same with _ same
  obtain ⟨rfl, rfl⟩ := cut_last (s_not_decimal h.numeral) (s_not_decimal h'.numeral) same
  exact ⟨rfl, rfl, rfl, rfl⟩

/-- What a name in parts is read as. -/
theorem readCellDir_parts {text p c i s : List Char} (h : Parts text p c i s) :
    readCellDir text = some ⟨String.ofList c, String.ofList i, (natOf s : Int)⟩ := by
  have read : cellDirRe.full? text = some [(3, s), (2, i), (1, c)] := by
    refine Regex.full?_eq_some (takes_cellDir.mpr ⟨p, c, i, s, h, rfl⟩) fun g' took => ?_
    obtain ⟨p', c', i', s', h', rfl⟩ := takes_cellDir.mp took
    obtain ⟨-, rfl, rfl, rfl⟩ := h.unique h'
    rfl
  rw [readCellDir, read]
  rfl

theorem parts_of_readCellDir {text : List Char} {cell : Cell} (h : readCellDir text = some cell) :
    ∃ p s, Parts text p cell.condition.toList cell.instance_.toList s ∧
      cell.seed = (natOf s : Int) := by
  obtain ⟨g, read, rfl⟩ := Option.map_eq_some_iff.mp h
  obtain ⟨p, c, i, s, parts, rfl⟩ := takes_cellDir.mp (Regex.takes_of_full? read)
  refine ⟨p, s, ?_, rfl⟩
  show Parts text p (String.ofList c).toList (String.ofList i).toList s
  rw [String.toList_ofList, String.toList_ofList]
  exact parts

/-! ## The name of a cell -/

theorem decimal_of_isDigit {c : Char} (h : c.isDigit = true) :
    isDecimal c = true ∧ Text.decimal? c = some (c.toNat - '0'.toNat) := by
  simp only [Char.isDigit, Bool.and_eq_true, decide_eq_true_eq, ge_iff_le,
    UInt32.le_iff_toNat_le] at h
  have low : 48 ≤ c.toNat := h.1
  have high : c.toNat ≤ 57 := h.2
  have value : Text.decimal? c = some (c.toNat - 48) := by
    rw [Text.decimal?, if_pos (by omega), if_pos (by simp [low, high])]
  exact ⟨by rw [isDecimal, value]; rfl, value⟩

theorem natOf_eq {ds : List Char} (h : ∀ c ∈ ds, c.isDigit = true) :
    natOf ds = Nat.ofDigitChars 10 ds 0 := by
  rw [natOf, Nat.ofDigitChars_eq_foldl]
  refine List.foldl_ext _ _ 0 fun n c hc => ?_
  rw [(decimal_of_isDigit (h c hc)).2]
  rfl

theorem natOf_toString (n : Nat) : natOf (toString (n : Int)).toList = n := by
  have text : (toString (n : Int)).toList = Nat.toDigits 10 n := by
    simp [toString, Int.repr]
  rw [text, natOf_eq fun c hc => Nat.isDigit_of_mem_toDigits (by decide) (Nat.le_refl 10) hc,
    Nat.ofDigitChars_ten_toDigits]

theorem padded_digits (w n : Nat) : ∀ c ∈ (padded w n).toList, c.isDigit = true := by
  intro c hc
  have form : (padded w n).toList =
      List.replicate (w - (toString n).length) '0' ++ Nat.toDigits 10 n := by
    simp [padded]
  rw [form, List.mem_append] at hc
  rcases hc with zero | digit
  · rw [List.eq_of_mem_replicate zero]
    rfl
  · exact Nat.isDigit_of_mem_toDigits (by decide) (Nat.le_refl 10) digit

theorem place_cut {k : Nat} {p s t : List Char} (decimal : ∀ c ∈ p, isDecimal c = true)
    (h : (padded 4 k).toList ++ '-' :: s = p ++ '-' :: t) : (padded 4 k).toList = p ∧ s = t := by
  have dash : ∀ {ds : List Char}, (∀ c ∈ ds, isDecimal c = true) → '-' ∉ ds := by
    intro ds decimal bad
    exact absurd (decimal _ bad) (by decide)
  have cut := congrArg (List.takeWhile (· ≠ '-')) h
  rw [takeWhile_cut (dash fun c hc => (decimal_of_isDigit (padded_digits 4 k c hc)).1),
    takeWhile_cut (dash decimal)] at cut
  rw [cut] at h
  exact ⟨cut, (List.cons.inj (List.append_cancel_left h)).2⟩

theorem padded_length (k : Nat) : (padded 4 k).toList.length = 4 ↔ k < 10000 := by
  have width := Nat.length_toDigits_le_iff (n := k) (by decide : 1 < 10) (by decide : 0 < 4)
  have form : (padded 4 k).toList.length =
      4 - (Nat.toDigits 10 k).length + (Nat.toDigits 10 k).length := by
    simp [padded, Nat.toList_repr, ← String.length_toList]
  omega

/-- The cell can be read back from its folder's name. -/
structure Readable (cell : Cell) : Prop where
  named : cell.condition ≠ ""
  plain : '-' ∉ cell.condition.toList
  some_ : cell.instance_ ≠ ""
  one_line : '\n' ∉ cell.instance_.toList
  flat : '/' ∉ cell.condition.toList ∧ '/' ∉ cell.instance_.toList
  seeded : 0 ≤ cell.seed

theorem name_eq {path : List Char} (flat : '/' ∉ path) : name path = path := by
  rw [name, List.rtakeWhile_eq_self_iff]
  intro c hc
  exact decide_eq_true fun bad => flat (bad ▸ hc)

theorem not_mem_name (path : List Char) : '/' ∉ name path := by
  intro bad
  exact absurd (List.mem_rtakeWhile_imp bad) (by decide)

/-- A slash in the path is one of the condition's or of the instance's. -/
theorem flat_cellDir {cell : Cell}
    (flat : '/' ∉ cell.condition.toList ∧ '/' ∉ cell.instance_.toList) (k : Nat) :
    '/' ∉ cellDir k cell := by
  have number : '/' ∉ (toString cell.seed).toList := by
    obtain ⟨ds, digits, -, form | form⟩ := int_form cell.seed
    · rw [form]
      intro bad
      exact absurd (digits _ bad) (by decide)
    · rw [form, List.mem_cons, not_or]
      exact ⟨by decide, fun bad => absurd (digits _ bad) (by decide)⟩
  have place : '/' ∉ (padded 4 k).toList := by
    intro bad
    exact absurd (padded_digits 4 k _ bad) (by decide)
  simp only [cellDir, List.mem_append, List.mem_cons, flat.1, flat.2, number, place, or_false,
    false_or]
  decide

theorem parts_cellDir {k : Nat} {cell : Cell} (small : k < 10000) (h : Readable cell) :
    Parts (cellDir k cell) (padded 4 k).toList cell.condition.toList cell.instance_.toList
      (toString (cell.seed.toNat : Int)).toList where
  whole := by
    rw [cellDir, Int.toNat_of_nonneg h.seeded]
  four := (padded_length k).mpr small
  decimal c hc := (decimal_of_isDigit (padded_digits 4 k c hc)).1
  named := fun bad => h.named (String.toList_eq_nil_iff.mp bad)
  plain := h.plain
  some_ := fun bad => h.some_ (String.toList_eq_nil_iff.mp bad)
  one_line := h.one_line
  seeded := by
    obtain ⟨ds, -, some_, form | form⟩ := int_form (cell.seed.toNat : Int) <;> rw [form]
    · exact some_
    · exact List.cons_ne_nil _ _
  numeral c hc := by
    have text : (toString (cell.seed.toNat : Int)).toList = Nat.toDigits 10 cell.seed.toNat := by
      simp [toString, Int.repr]
    rw [text] at hc
    exact (decimal_of_isDigit
      (Nat.isDigit_of_mem_toDigits (by decide) (Nat.le_refl 10) hc)).1

/-- A cell is read back from its folder's name exactly when it is among the first ten thousand and
its texts are not cut. -/
theorem readCellDir_cellDir (k : Nat) (cell : Cell) :
    readCellDir (name (cellDir k cell)) = some cell ↔ k < 10000 ∧ Readable cell := by
  constructor
  · intro h
    obtain ⟨p, s, parts, seed⟩ := parts_of_readCellDir h
    have whole := parts.whole
    have slash := not_mem_name (cellDir k cell)
    rw [whole, List.mem_append, not_or, List.mem_cons, not_or, List.mem_append, not_or,
      List.mem_cons, not_or, List.mem_append, not_or] at slash
    have flat : '/' ∉ cell.condition.toList ∧ '/' ∉ cell.instance_.toList :=
      ⟨slash.2.2.1, slash.2.2.2.2.1⟩
    rw [name_eq (flat_cellDir flat k), cellDir] at whole
    obtain ⟨place, -⟩ := place_cut parts.decimal whole
    refine ⟨(padded_length k).mp (by rw [place]; exact parts.four), ?_, parts.plain, ?_,
      parts.one_line, flat, by omega⟩
    · intro bad
      exact parts.named (String.toList_eq_nil_iff.mpr bad)
    · intro bad
      exact parts.some_ (String.toList_eq_nil_iff.mpr bad)
  · rintro ⟨small, h⟩
    rw [name_eq (flat_cellDir h.flat k), readCellDir_parts (parts_cellDir small h),
      String.ofList_toList, String.ofList_toList, natOf_toString, Int.toNat_of_nonneg h.seeded]

/-- The folder of a cell whose condition holds no dash is read as no other cell. -/
theorem readCellDir_own {k : Nat} {cell other : Cell}
    (flat : '/' ∉ cell.condition.toList ∧ '/' ∉ cell.instance_.toList)
    (plain : '-' ∉ cell.condition.toList) (h : readCellDir (name (cellDir k cell)) = some other) :
    other = cell := by
  rw [name_eq (flat_cellDir flat k)] at h
  obtain ⟨p, s, parts, seed⟩ := parts_of_readCellDir h
  have whole := parts.whole
  rw [cellDir] at whole
  obtain ⟨-, rest⟩ := place_cut parts.decimal whole
  have condition : cell.condition.toList = other.condition.toList := by
    have cut := congrArg (List.takeWhile (· ≠ '-')) rest
    rwa [takeWhile_cut plain, takeWhile_cut parts.plain] at cut
  rw [condition] at rest
  have rest := (List.cons.inj (List.append_cancel_left rest)).2
  obtain ⟨instances, seeds⟩ := cut_last (s_not_int cell.seed) (s_not_decimal parts.numeral) rest
  have own : other.seed = cell.seed := by
    rw [seed, ← seeds]
    cases positive : cell.seed with
    | ofNat n => exact congrArg Int.ofNat (natOf_toString n)
    | negSucc n =>
      rw [positive] at seeds
      have minus : (toString (Int.negSucc n)).toList = '-' :: Nat.toDigits 10 (n + 1) := by
        simp [toString, Int.repr]
      have bad : '-' ∈ s := by
        rw [← seeds, minus]
        exact List.mem_cons_self
      exact absurd (parts.numeral _ bad) (by decide)
  have texts := String.toList_injective condition
  have texts' := String.toList_injective instances
  rcases other with ⟨c, i, n⟩
  rcases cell with ⟨c', i', n'⟩
  exact Cell.mk.injEq .. ▸ ⟨texts.symm, texts'.symm, own⟩

theorem cellDir_place {k k' : Nat} {cell cell' : Cell} (h : cellDir k cell = cellDir k' cell') :
    k = k' :=
  (Time.padded_cancel (stops_cons rfl) (stops_cons rfl) h).1

end ProxyLoop.Matrix

import ProxyLoop.Lib.Json

/-!
# The characters of JSON

Of the characters of a value's text, those outside printable ASCII are characters of its strings;
the control characters are never among them.
-/

namespace Lib.Json

/-! ## The texts of a value -/

mutual

/-- The strings of a value, its keys among them. -/
def texts : Json → List String
  | .str text => [text]
  | .arr items => textsOf items
  | .obj fields => textsIn fields
  | _ => []

def textsOf : List Json → List String
  | [] => []
  | v :: vs => texts v ++ textsOf vs

def textsIn : List (String × Json) → List String
  | [] => []
  | (k, v) :: fs => k :: (texts v ++ textsIn fs)

end

section

variable {c : Char}

/-- A character of a literal is of its text, or printable ASCII. -/
theorem mem_escape_plain {x : Char} (h : c ∈ escape plain x) :
    ascii c = true ∨ c = x ∧ plain x = true := by
  by_cases kept : escape plain x = escape ascii x
  · refine .inl (ascii_quote [x] c ?_)
    simp [quote, ← kept, h]
  · have short : short? x = none := by
      cases short : short? x with
      | some e => exact absurd (by simp [escape, short]) kept
      | none => rfl
    by_cases raw : plain x = true
    · exact .inr ⟨by simpa [escape, short, raw] using h, raw⟩
    · have wide : ¬ ascii x = true := by
        simp only [plain, ascii, decide_eq_true_eq, Bool.and_eq_true] at raw ⊢
        omega
      exact absurd (by simp [escape, short, raw, wide]) kept

theorem escape_wide (wide : ascii c = false) (raw : plain c = true) : escape plain c = [c] := by
  have short : short? c = none := by
    cases short : short? c with
    | none => rfl
    | some e =>
      unfold short? at short
      repeat' split at short
      all_goals try cases short
      all_goals simp_all [plain]
      all_goals subst_vars
      all_goals revert wide
      all_goals decide
  simp [escape, short, raw]

theorem mem_quote_plain {text : List Char} (h : c ∈ quote plain text) :
    ascii c = true ∨ c ∈ text ∧ plain c = true := by
  simp only [quote, List.cons_append, List.mem_append, List.mem_cons, List.mem_flatMap,
    List.not_mem_nil, or_false] at h
  rcases h with rfl | ⟨x, hx, h⟩ | rfl
  · exact .inl rfl
  · rcases mem_escape_plain h with small | ⟨rfl, raw⟩
    · exact .inl small
    · exact .inr ⟨hx, raw⟩
  · exact .inl rfl

theorem mem_quote_wide {text : List Char} (wide : ascii c = false) (raw : plain c = true)
    (h : c ∈ text) : c ∈ quote plain text := by
  simp only [quote, List.cons_append, List.mem_append, List.mem_cons, List.mem_flatMap]
  exact .inr (.inl ⟨c, h, by simp [escape_wide wide raw]⟩)

theorem ascii_word {word : List Char} (all : word.all ascii = true) (h : c ∈ word) :
    ascii c = true :=
  List.all_eq_true.mp all c h

theorem ascii_digit (digit : c.isDigit = true) : ascii c = true := by
  simp only [Char.isDigit, Bool.and_eq_true, decide_eq_true_eq, ge_iff_le,
    UInt32.le_iff_toNat_le] at digit
  have low : ('0').val.toNat = 48 := rfl
  have high : ('9').val.toNat = 57 := rfl
  simp only [ascii, Bool.and_eq_true, decide_eq_true_eq, Char.toNat]
  omega

theorem ascii_int {n : Int} (h : c ∈ (toString n).toList) : ascii c = true := by
  obtain ⟨ds, digits, -, form⟩ := int_form n
  rcases form with form | form <;> rw [form] at h
  · exact ascii_digit (digits c h)
  · rcases List.mem_cons.mp h with rfl | h
    · rfl
    · exact ascii_digit (digits c h)

theorem ascii_numeral (h : numeral c = true) : ascii c = true := by
  rw [numeral, Bool.or_eq_true] at h
  rcases h with digit | mark
  · exact ascii_digit digit
  · have mark : c = '-' ∨ c = '+' ∨ c = '.' ∨ c = 'e' := by simpa using mark
    rcases mark with rfl | rfl | rfl | rfl <;> rfl

theorem ascii_comma {first : Bool} (h : c ∈ comma first) : ascii c = true := by
  unfold comma at h
  split at h
  · cases h
  · cases List.mem_singleton.mp h
    rfl

/-- A character is of one of the texts, and not a control character, or is printable ASCII. -/
def Of (c : Char) (texts : List String) : Prop :=
  ascii c = true ∨ plain c = true ∧ ∃ text ∈ texts, c ∈ text.toList

theorem Of.left {a : List String} (h : Of c a) (b : List String) : Of c (a ++ b) := by
  rcases h with h | ⟨raw, text, ht, h⟩
  · exact .inl h
  · exact .inr ⟨raw, text, List.mem_append_left _ ht, h⟩

theorem Of.right {b : List String} (h : Of c b) (a : List String) : Of c (a ++ b) := by
  rcases h with h | ⟨raw, text, ht, h⟩
  · exact .inl h
  · exact .inr ⟨raw, text, List.mem_append_right _ ht, h⟩

theorem of_quote {text : String} (h : c ∈ quote plain text.toList) : Of c [text] := by
  rcases mem_quote_plain h with h | ⟨h, raw⟩
  · exact .inl h
  · exact .inr ⟨raw, text, List.mem_singleton.mpr rfl, h⟩

mutual

theorem of_chars : ∀ v : Json, c ∈ chars plain v → Of c (texts v)
  | .null, h => .inl (ascii_word (by decide) h)
  | .bool b, h => .inl (ascii_word (by cases b <;> decide) h)
  | .int n, h => .inl (ascii_int h)
  | .float x, h => .inl (ascii_numeral (float_numerals x c h))
  | .str text, h => of_quote h
  | .arr items, h => by
    rw [chars_arr, List.mem_cons] at h
    rcases h with rfl | h
    · exact .inl rfl
    · exact of_elements items true h
  | .obj fields, h => by
    rw [chars_obj, List.mem_cons] at h
    rcases h with rfl | h
    · exact .inl rfl
    · exact of_members fields true h

theorem of_elements : ∀ (vs : List Json) (first : Bool), c ∈ elements plain first vs →
    Of c (textsOf vs)
  | [], first, h => by
    cases List.mem_singleton.mp h
    exact .inl rfl
  | v :: vs, first, h => by
    rw [elements_succ, List.mem_append, List.mem_append] at h
    rcases h with h | h | h
    · exact .inl (ascii_comma h)
    · exact (of_chars v h).left _
    · exact (of_elements vs false h).right _

theorem of_members : ∀ (fs : List (String × Json)) (first : Bool), c ∈ members plain first fs →
    Of c (textsIn fs)
  | [], first, h => by
    cases List.mem_singleton.mp h
    exact .inl rfl
  | (k, v) :: fs, first, h => by
    rw [members_succ, List.mem_append, List.mem_append, List.mem_cons, List.mem_append] at h
    rcases h with h | h | rfl | h | h
    · exact .inl (ascii_comma h)
    · exact (of_quote h).left _
    · exact .inl rfl
    · exact ((of_chars v h).left _).right [k]
    · exact ((of_members fs false h).right _).right [k]

end

mutual

theorem wide_chars (wide : ascii c = false) (raw : plain c = true) : ∀ v : Json,
    (∃ text ∈ texts v, c ∈ text.toList) → c ∈ chars plain v
  | .null, h => by simp [texts] at h
  | .bool b, h => by simp [texts] at h
  | .int n, h => by simp [texts] at h
  | .float x, h => by simp [texts] at h
  | .str text, h => by
    obtain ⟨t, ht, h⟩ := h
    cases List.mem_singleton.mp ht
    exact mem_quote_wide wide raw h
  | .arr items, h => List.mem_cons_of_mem _ (wide_elements wide raw items true h)
  | .obj fields, h => List.mem_cons_of_mem _ (wide_members wide raw fields true h)

theorem wide_elements (wide : ascii c = false) (raw : plain c = true) : ∀ (vs : List Json)
    (first : Bool), (∃ text ∈ textsOf vs, c ∈ text.toList) → c ∈ elements plain first vs
  | [], first, h => by simp [textsOf] at h
  | v :: vs, first, ⟨text, ht, h⟩ => by
    rw [elements_succ, List.mem_append, List.mem_append]
    rcases List.mem_append.mp ht with ht | ht
    · exact .inr (.inl (wide_chars wide raw v ⟨text, ht, h⟩))
    · exact .inr (.inr (wide_elements wide raw vs false ⟨text, ht, h⟩))

theorem wide_members (wide : ascii c = false) (raw : plain c = true) :
    ∀ (fs : List (String × Json)) (first : Bool), (∃ text ∈ textsIn fs, c ∈ text.toList) →
      c ∈ members plain first fs
  | [], first, h => by simp [textsIn] at h
  | (k, v) :: fs, first, ⟨text, ht, h⟩ => by
    rw [members_succ, List.mem_append, List.mem_append, List.mem_cons, List.mem_append]
    rcases List.mem_cons.mp ht with rfl | ht
    · exact .inr (.inl (mem_quote_wide wide raw h))
    rcases List.mem_append.mp ht with ht | ht
    · exact .inr (.inr (.inr (.inl (wide_chars wide raw v ⟨text, ht, h⟩))))
    · exact .inr (.inr (.inr (.inr (wide_members wide raw fs false ⟨text, ht, h⟩))))

end

end

end Lib.Json

import Mathlib.Data.List.Basic
import Std.Data.String.ToInt

/-!
# Compact JSON

Values as `json.dumps` writes them with compact separators, and the reading of its string literals.
A literal is read back from whatever follows it, and so no two values have one text.
-/

namespace Lib

namespace Json

/-- The characters of a number's text. -/
def numeral (c : Char) : Bool := c.isDigit || "-+.e".toList.contains c

/-- The text of a finite `float`, as `repr` writes it: with a point or an exponent, unlike that of
an `int`. -/
structure FloatText where
  text : String
  numerals : text.toList.all numeral = true
  marked : text.toList.any (fun c => c = '.' || c = 'e') = true
  deriving DecidableEq

end Json

/-- A value; the caller lists the keys of an object in their order. -/
inductive Json
  | null
  | bool (b : Bool)
  | int (n : Int)
  | float (x : Json.FloatText)
  | str (text : String)
  | arr (items : List Json)
  | obj (fields : List (String × Json))

namespace Json

/-! ## String literals -/

def hexDigit (n : Nat) : Char := "0123456789abcdef".toList.getD n '0'

/-- The value of a hexadecimal digit, of either case. -/
def hexValue? (c : Char) : Option Nat :=
  if 48 ≤ c.toNat && c.toNat ≤ 57 then some (c.toNat - 48)
  else if 97 ≤ c.toNat && c.toNat ≤ 102 then some (c.toNat - 87)
  else if 65 ≤ c.toNat && c.toNat ≤ 70 then some (c.toNat - 55)
  else none

/-- `\uXXXX`, of a 16-bit number. -/
def unit (n : Nat) : List Char :=
  ['\\', 'u', hexDigit (n / 4096), hexDigit (n / 256 % 16), hexDigit (n / 16 % 16), hexDigit (n % 16)]

/-- The escapes of one character. -/
def short? (c : Char) : Option Char :=
  if c = '\x22' then some '\x22'
  else if c = '\\' then some '\\'
  else if c = '\n' then some 'n'
  else if c = '\r' then some 'r'
  else if c = '\t' then some 't'
  else if c.toNat = 8 then some 'b'
  else if c.toNat = 12 then some 'f'
  else none

/-- A character, in one or two units. -/
def units (c : Char) : List Char :=
  if c.toNat < 65536 then unit c.toNat
  else unit (55296 + (c.toNat - 65536) / 1024) ++ unit (56320 + (c.toNat - 65536) % 1024)

/-- A character of a literal; `raw` are the characters that need no escape. -/
def escape (raw : Char → Bool) (c : Char) : List Char :=
  match short? c with
  | some e => ['\\', e]
  | none => if raw c then [c] else units c

/-- `ensure_ascii=False`: only control characters are escaped. -/
def plain (c : Char) : Bool := 32 ≤ c.toNat

/-- `ensure_ascii=True`: printable ASCII is not escaped. -/
def ascii (c : Char) : Bool := 32 ≤ c.toNat && c.toNat ≤ 126

/-- A literal may hold the characters as they are. -/
def Legal (raw : Char → Bool) : Prop := ∀ c, raw c = true → plain c = true

theorem legal_plain : Legal plain := fun _ h => h

theorem legal_ascii : Legal ascii := fun _ h => by
  rw [ascii, Bool.and_eq_true] at h
  exact h.1

def quote (raw : Char → Bool) (text : List Char) : List Char :=
  '\x22' :: text.flatMap (escape raw) ++ ['\x22']

/-! ## Reading a literal -/

def long? (e : Char) : Option Char :=
  if e = '\x22' then some '\x22'
  else if e = '\\' then some '\\'
  else if e = '/' then some '/'
  else if e = 'n' then some '\n'
  else if e = 'r' then some '\r'
  else if e = 't' then some '\t'
  else if e = 'b' then some (Char.ofNat 8)
  else if e = 'f' then some (Char.ofNat 12)
  else none

def unit? : List Char → Option (Nat × List Char)
  | '\\' :: 'u' :: a :: b :: c :: d :: rest => do
    let high := (← hexValue? a) * 16 + (← hexValue? b)
    let low := (← hexValue? c) * 16 + (← hexValue? d)
    return (high * 256 + low, rest)
  | _ => none

def isHigh (n : Nat) : Bool := 55296 ≤ n && n < 56320

def isLow (n : Nat) : Bool := 56320 ≤ n && n < 57344

/-- The first character of a literal's body, and the rest.  A control character must be escaped; a
surrogate without the other is no character. -/
def unescape (text : List Char) : Option (Char × List Char) :=
  match unit? text with
  | some (n, rest) =>
    if isHigh n then
      match unit? rest with
      | some (m, rest) =>
        if isLow m then some (Char.ofNat (65536 + (n - 55296) * 1024 + (m - 56320)), rest) else none
      | none => none
    else if isLow n then none
    else some (Char.ofNat n, rest)
  | none =>
    match text with
    | '\\' :: e :: rest => (long? e).map (·, rest)
    | '\x22' :: _ => none
    | c :: rest => if plain c then some (c, rest) else none
    | [] => none

/-- A literal's body up to its quote, and the rest. -/
def body? : Nat → List Char → Option (List Char × List Char)
  | 0, _ => none
  | fuel + 1, text =>
    if text.head? = some '\x22' then some ([], text.tail)
    else do
      let (c, rest) ← unescape text
      let (cs, rest) ← body? fuel rest
      return (c :: cs, rest)

/-- `json.loads`, of a text that is one literal. -/
def loads (text : List Char) : Option (List Char) :=
  match text with
  | '\x22' :: rest =>
    match body? (rest.length + 1) rest with
    | some (text, []) => some text
    | _ => none
  | _ => none

theorem hexValue_digit {n : Nat} (h : n < 16) : hexValue? (hexDigit n) = some n := by
  have all : ∀ n < 16, hexValue? (hexDigit n) = some n := by decide
  exact all n h

theorem unit_of_digits {a b c d : Char} {v w x y : Nat} (ha : hexValue? a = some v)
    (hb : hexValue? b = some w) (hc : hexValue? c = some x) (hd : hexValue? d = some y)
    (rest : List Char) :
    unit? ('\\' :: 'u' :: a :: b :: c :: d :: rest) =
      some ((v * 16 + w) * 256 + (x * 16 + y), rest) := by
  unfold unit?
  simp only [ha, hb, hc, hd]
  rfl

theorem unit_value (n : Nat) :
    (n / 4096 * 16 + n / 256 % 16) * 256 + (n / 16 % 16 * 16 + n % 16) = n := by
  omega

theorem unit_eq {n : Nat} (h : n < 65536) (rest : List Char) :
    unit? (unit n ++ rest) = some (n, rest) := by
  have read := unit_of_digits (hexValue_digit (n := n / 4096) (by omega))
    (hexValue_digit (n := n / 256 % 16) (by omega)) (hexValue_digit (n := n / 16 % 16) (by omega))
    (hexValue_digit (n := n % 16) (by omega)) rest
  simp only [unit, List.cons_append, List.nil_append]
  rw [read, unit_value]

theorem valid_toNat (c : Char) : c.toNat < 55296 ∨ 57343 < c.toNat ∧ c.toNat < 1114112 := c.valid

theorem unescape_unit {text rest : List Char} {n : Nat} (read : unit? text = some (n, rest))
    (high : isHigh n = false) (low : isLow n = false) :
    unescape text = some (Char.ofNat n, rest) := by
  unfold unescape
  simp only [read, high, low, Bool.false_eq_true, if_false]

theorem unescape_pair {text rest rest' : List Char} {n m : Nat} (read : unit? text = some (n, rest))
    (high : isHigh n = true) (read' : unit? rest = some (m, rest')) (low : isLow m = true) :
    unescape text = some (Char.ofNat (65536 + (n - 55296) * 1024 + (m - 56320)), rest') := by
  unfold unescape
  simp only [read, high, read', low, if_true]

theorem unescape_units (c : Char) (rest : List Char) :
    unescape (units c ++ rest) = some (c, rest) := by
  have valid := valid_toNat c
  unfold units
  split
  · rename_i small
    have high : isHigh c.toNat = false := by
      rw [isHigh, Bool.and_eq_false_iff, decide_eq_false_iff_not, decide_eq_false_iff_not]
      omega
    have low : isLow c.toNat = false := by
      rw [isLow, Bool.and_eq_false_iff, decide_eq_false_iff_not, decide_eq_false_iff_not]
      omega
    rw [unescape_unit (unit_eq small rest) high low, Char.ofNat_toNat]
  · rename_i large
    have high : isHigh (55296 + (c.toNat - 65536) / 1024) = true := by
      rw [isHigh, Bool.and_eq_true, decide_eq_true_eq, decide_eq_true_eq]
      omega
    have low : isLow (56320 + (c.toNat - 65536) % 1024) = true := by
      rw [isLow, Bool.and_eq_true, decide_eq_true_eq, decide_eq_true_eq]
      omega
    have whole : 65536 + (55296 + (c.toNat - 65536) / 1024 - 55296) * 1024 +
        (56320 + (c.toNat - 65536) % 1024 - 56320) = c.toNat := by
      omega
    rw [List.append_assoc, unescape_pair (unit_eq (by omega) _) high (unit_eq (by omega) rest) low,
      whole, Char.ofNat_toNat]

/-- The escapes that are read as the characters they are of. -/
theorem long_short {c e : Char} (h : short? c = some e) : long? e = some c ∧ e ≠ 'u' := by
  have eq : ∀ n, c.toNat = n → c = Char.ofNat n := fun n hn => hn ▸ (Char.ofNat_toNat c).symm
  unfold short? at h
  split at h
  · cases h; subst c; decide
  split at h
  · cases h; subst c; decide
  split at h
  · cases h; subst c; decide
  split at h
  · cases h; subst c; decide
  split at h
  · cases h; subst c; decide
  split at h
  · rename_i n; cases h; rw [eq _ n]; decide
  split at h
  · rename_i n; cases h; rw [eq _ n]; decide
  · cases h

theorem short_none {c : Char} (h : short? c = none) : c ≠ '\x22' ∧ c ≠ '\\' := by
  constructor
  · rintro rfl
    cases h
  · rintro rfl
    cases h

variable (raw : Char → Bool)

/-- A character of a literal is read back. -/
theorem unescape_escape (legal : Legal raw) (c : Char) (rest : List Char) :
    unescape (escape raw c ++ rest) = some (c, rest) := by
  unfold escape
  cases hc : short? c with
  | some e =>
    obtain ⟨long, other⟩ := long_short hc
    have none_ : unit? ('\\' :: e :: rest) = none := by
      unfold unit?
      split
      · rename_i eq
        simp only [List.cons.injEq] at eq
        exact absurd eq.2.1 other
      · rfl
    show unescape ('\\' :: e :: rest) = _
    unfold unescape
    simp only [none_, long, Option.map_some]
  | none =>
    obtain ⟨quote, slash⟩ := short_none hc
    dsimp only
    split
    · rename_i kept
      have none_ : unit? (c :: rest) = none := by
        unfold unit?
        split
        · rename_i eq
          exact absurd (List.cons.inj eq).1 slash
        · rfl
      show unescape (c :: rest) = _
      unfold unescape
      simp only [none_]
      split
      · rename_i eq
        exact absurd (List.cons.inj eq).1 slash
      · rename_i eq
        exact absurd (List.cons.inj eq).1 quote
      · rename_i eq
        cases eq
        rw [if_pos (legal c kept)]
      · rename_i eq
        cases eq
    · exact unescape_units c rest

theorem escape_head (c : Char) : ∃ x xs, escape raw c = x :: xs ∧ x ≠ '\x22' := by
  unfold escape
  cases hc : short? c with
  | some e => exact ⟨_, _, rfl, by decide⟩
  | none =>
    dsimp only
    split
    · exact ⟨_, _, rfl, (short_none hc).1⟩
    · unfold units
      split
      · exact ⟨_, _, rfl, by decide⟩
      · exact ⟨_, _, rfl, by decide⟩

/-- A literal's body is read back, with what follows it. -/
theorem body_escape (legal : Legal raw) (text rest : List Char) (fuel : Nat) (enough : text.length < fuel) :
    body? fuel (text.flatMap (escape raw) ++ '\x22' :: rest) = some (text, rest) := by
  induction text generalizing fuel with
  | nil =>
    cases fuel with
    | zero => cases enough
    | succ fuel => rfl
  | cons c text ih =>
    cases fuel with
    | zero => cases enough
    | succ fuel =>
      have step := unescape_escape raw legal c (text.flatMap (escape raw) ++ '\x22' :: rest)
      obtain ⟨x, xs, head, other⟩ := escape_head raw c
      have open_ : ¬ (escape raw c ++ (text.flatMap (escape raw) ++ '\x22' :: rest)).head? =
          some '\x22' := by
        rw [head]
        exact fun bad => other (Option.some.inj bad)
      rw [List.flatMap_cons, List.append_assoc, body?, if_neg open_, step]
      simp only [bind, Option.bind, ih fuel (Nat.lt_of_succ_lt_succ enough), pure]

theorem length_le_escape (text : List Char) :
    text.length ≤ (text.flatMap (escape raw)).length := by
  induction text with
  | nil => exact Nat.le_refl _
  | cons c text ih =>
    obtain ⟨x, xs, head, -⟩ := escape_head raw c
    rw [List.flatMap_cons, head, List.length_append, List.length_cons, List.length_cons]
    omega

/-- `json.loads` reads back what `json.dumps` writes. -/
theorem loads_quote (legal : Legal raw) (text : List Char) : loads (quote raw text) = some text := by
  have enough := length_le_escape raw text
  unfold loads quote
  rw [List.cons_append]
  simp only
  rw [body_escape raw legal text [] _ (by rw [List.length_append]; omega)]

/-- A literal and what follows it determine its text. -/
theorem quote_cancel (legal : Legal raw) {a b s t : List Char} (h : quote raw a ++ s = quote raw b ++ t) :
    a = b ∧ s = t := by
  have bodies : a.flatMap (escape raw) ++ '\x22' :: s = b.flatMap (escape raw) ++ '\x22' :: t := by
    simpa [quote] using h
  have left := body_escape raw legal a s (a.length + b.length + 1) (by omega)
  have right := body_escape raw legal b t (a.length + b.length + 1) (by omega)
  rw [bodies, right] at left
  cases left
  exact ⟨rfl, rfl⟩

theorem ascii_hexDigit (n : Nat) : ascii (hexDigit n) = true := by
  have small : ∀ m < 16, ascii (hexDigit m) = true := by decide
  by_cases h : n < 16
  · exact small n h
  · rw [hexDigit, List.getD_eq_getElem?_getD, List.getElem?_eq_none (by simpa using h)]
    rfl

theorem ascii_short {c e : Char} (h : short? c = some e) : ascii e = true := by
  unfold short? at h
  repeat' split at h
  all_goals first
    | cases h; rfl
    | cases h

/-- A literal of `ensure_ascii=True` has printable ASCII only. -/
theorem ascii_quote (text : List Char) : ∀ c ∈ quote ascii text, ascii c = true := by
  have unit_ : ∀ n, ∀ c ∈ unit n, ascii c = true := by
    intro n c hc
    simp only [unit, List.mem_cons, List.not_mem_nil, or_false] at hc
    rcases hc with rfl | rfl | rfl | rfl | rfl | rfl
    · rfl
    · rfl
    all_goals exact ascii_hexDigit _
  have escape_ : ∀ d, ∀ c ∈ escape ascii d, ascii c = true := by
    intro d c hc
    unfold escape at hc
    cases short : short? d with
    | some e =>
      simp only [short, List.mem_cons, List.not_mem_nil, or_false] at hc
      rcases hc with rfl | rfl
      · rfl
      · exact ascii_short short
    | none =>
      simp only [short] at hc
      by_cases raw : ascii d = true
      · rw [if_pos raw, List.mem_singleton] at hc
        exact hc ▸ raw
      · rw [if_neg raw, units] at hc
        by_cases one : d.toNat < 65536
        · rw [if_pos one] at hc
          exact unit_ _ c hc
        · rw [if_neg one, List.mem_append] at hc
          exact hc.elim (unit_ _ c) (unit_ _ c)
  intro c hc
  simp only [quote, List.cons_append, List.mem_cons, List.mem_append, List.mem_flatMap,
    List.not_mem_nil, or_false] at hc
  rcases hc with rfl | ⟨d, -, hd⟩ | rfl
  · rfl
  · exact escape_ d c hd
  · rfl

/-! ## Values -/

/-- Nothing that continues a run of characters that satisfy `p`. -/
def Stops (p : Char → Bool) (text : List Char) : Prop := ∀ c, text.head? = some c → p c = false

theorem run_cancel {p : Char → Bool} {a b s t : List Char} (ha : ∀ c ∈ a, p c = true)
    (hb : ∀ c ∈ b, p c = true) (hs : Stops p s) (ht : Stops p t) (h : a ++ s = b ++ t) :
    a = b ∧ s = t := by
  induction a generalizing b with
  | nil =>
    cases b with
    | nil => exact ⟨rfl, h⟩
    | cons d b =>
      have stop := hs d (by rw [← List.nil_append s, h]; rfl)
      rw [hb d (List.mem_cons_self ..)] at stop
      cases stop
  | cons c a ih =>
    cases b with
    | nil =>
      have stop := ht c (by rw [← List.nil_append t, ← h]; rfl)
      rw [ha c (List.mem_cons_self ..)] at stop
      cases stop
    | cons d b =>
      injection h with head rest
      obtain ⟨same, rest⟩ := ih (fun c hc => ha c (List.mem_cons_of_mem _ hc))
        (fun c hc => hb c (List.mem_cons_of_mem _ hc)) rest
      exact ⟨by rw [head, same], rest⟩

theorem int_form (n : Int) : ∃ ds, (∀ c ∈ ds, c.isDigit = true) ∧ ds ≠ [] ∧
    ((toString n).toList = ds ∨ (toString n).toList = '-' :: ds) := by
  have digits : ∀ m, (∀ c ∈ Nat.toDigits 10 m, c.isDigit = true) ∧ Nat.toDigits 10 m ≠ [] := by
    intro m
    exact ⟨fun c hc => Nat.isDigit_of_mem_toDigits (by decide) (Nat.le_refl 10) hc, Nat.toDigits_ne_nil⟩
  cases n with
  | ofNat m => exact ⟨_, (digits m).1, (digits m).2, Or.inl (by simp [toString, Int.repr])⟩
  | negSucc m =>
    exact ⟨_, (digits (m + 1)).1, (digits (m + 1)).2, Or.inr (by simp [toString, Int.repr])⟩

theorem int_chars (n : Int) : ∀ c ∈ (toString n).toList, c.isDigit = true ∨ c = '-' := by
  obtain ⟨ds, digits, -, form | form⟩ := int_form n
  · rw [form]
    exact fun c hc => .inl (digits c hc)
  · rw [form]
    intro c hc
    rcases List.mem_cons.mp hc with rfl | hc
    · exact .inr rfl
    · exact .inl (digits c hc)

theorem int_numerals (n : Int) : ∀ c ∈ (toString n).toList, numeral c = true := by
  intro c hc
  rcases int_chars n c hc with digit | rfl
  · simp [numeral, digit]
  · rfl

theorem float_numerals (x : FloatText) : ∀ c ∈ x.text.toList, numeral c = true :=
  List.all_eq_true.mp x.numerals

theorem int_ne_float (n : Int) (x : FloatText) : (toString n).toList ≠ x.text.toList := by
  intro same
  obtain ⟨c, hc, mark⟩ := List.any_eq_true.mp x.marked
  simp only [Bool.or_eq_true, decide_eq_true_eq] at mark
  rcases int_chars n c (same ▸ hc) with digit | rfl
  · rcases mark with rfl | rfl <;> cases digit
  · rcases mark with mark | mark <;> cases mark

theorem float_inj {x y : FloatText} (h : x.text.toList = y.text.toList) : x = y := by
  rcases x with ⟨text, _, _⟩
  rcases y with ⟨text', _, _⟩
  obtain rfl : text = text' := String.toList_inj.mp h
  rfl

variable (raw : Char → Bool)

/-- The comma before an item that is not the first. -/
def comma (first : Bool) : List Char := if first then [] else [',']

mutual

/-- `json.dumps(value, separators=(",", ":"))`. -/
def chars : Json → List Char
  | .null => "null".toList
  | .bool b => if b then "true".toList else "false".toList
  | .int n => (toString n).toList
  | .float x => x.text.toList
  | .str text => quote raw text.toList
  | .arr items => '[' :: elements true items
  | .obj fields => '\x7b' :: members true fields

/-- The items of an array, and its bracket. -/
def elements (first : Bool) : List Json → List Char
  | [] => [']']
  | v :: vs => comma first ++ (chars v ++ elements false vs)

/-- The fields of an object, and its brace. -/
def members (first : Bool) : List (String × Json) → List Char
  | [] => ['\x7d']
  | (k, v) :: fs => comma first ++ (quote raw k.toList ++ ':' :: (chars v ++ members false fs))

end

section equations

variable (first : Bool) (v : Json) (vs : List Json) (f : String × Json) (fs : List (String × Json))

theorem chars_bool (b : Bool) :
    chars raw (.bool b) = if b then "true".toList else "false".toList := rfl

theorem chars_int (n : Int) : chars raw (.int n) = (toString n).toList := rfl

theorem chars_float (x : FloatText) : chars raw (.float x) = x.text.toList := rfl

theorem chars_str (text : String) : chars raw (.str text) = quote raw text.toList := rfl

theorem chars_arr : chars raw (.arr vs) = '[' :: elements raw true vs := rfl

theorem chars_obj : chars raw (.obj fs) = '\x7b' :: members raw true fs := rfl

theorem elements_nil : elements raw first [] = [']'] := rfl

theorem elements_succ : elements raw first (v :: vs) =
    comma first ++ (chars raw v ++ elements raw false vs) := rfl

theorem members_nil : members raw first [] = ['\x7d'] := rfl

theorem members_succ : members raw first (f :: fs) =
    comma first ++ (quote raw f.1.toList ++ ':' :: (chars raw f.2 ++ members raw false fs)) := rfl

end equations

/-- Which constructor a value's first character is of. -/
def tag (c : Char) : Nat :=
  if c = 'n' then 0 else if c = 't' ∨ c = 'f' then 1 else if c = '\x22' then 3
  else if c = '[' then 4 else if c = '\x7b' then 5 else 2

def index : Json → Nat
  | .null => 0
  | .bool _ => 1
  | .int _ => 2
  | .float _ => 2
  | .str _ => 3
  | .arr _ => 4
  | .obj _ => 5

/-- A number's text begins with what no other value's does. -/
theorem numerals_head {text : List Char} (all : ∀ c ∈ text, numeral c = true) (some_ : text ≠ []) :
    ∃ x xs, text = x :: xs ∧ tag x = 2 ∧ x ≠ ']' := by
  cases text with
  | nil => exact absurd rfl some_
  | cons c cs =>
    have own := all c (List.mem_cons_self ..)
    have ne : ∀ d : Char, numeral d = false → c ≠ d := by
      rintro d other rfl
      rw [own] at other
      cases other
    refine ⟨c, cs, rfl, ?_, ne ']' rfl⟩
    simp [tag, ne 'n' rfl, ne 't' rfl, ne 'f' rfl, ne '\x22' rfl, ne '[' rfl, ne '\x7b' rfl]

theorem chars_head (v : Json) : ∃ x xs, chars raw v = x :: xs ∧ tag x = index v ∧ x ≠ ']' := by
  cases v with
  | null => exact ⟨_, _, rfl, rfl, by decide⟩
  | bool b => cases b <;> exact ⟨_, _, rfl, rfl, by decide⟩
  | str text => exact ⟨_, _, rfl, rfl, by decide⟩
  | arr items => exact ⟨_, _, rfl, rfl, by decide⟩
  | obj fields => exact ⟨_, _, rfl, rfl, by decide⟩
  | int n =>
    refine numerals_head (int_numerals n) fun none_ => ?_
    obtain ⟨ds, -, some_, form | form⟩ := int_form n
    · exact some_ (form.symm.trans none_)
    · cases form.symm.trans none_
  | float x =>
    refine numerals_head (float_numerals x) fun none_ => ?_
    have marked := x.marked
    rw [show x.text.toList = [] from none_] at marked
    cases marked

theorem index_eq {v w : Json} {s t : List Char} (h : chars raw v ++ s = chars raw w ++ t) :
    index v = index w := by
  obtain ⟨x, xs, hv, tv, -⟩ := chars_head raw v
  obtain ⟨y, ys, hw, tw, -⟩ := chars_head raw w
  rw [hv, hw] at h
  injection h with head
  rw [← tv, ← tw, head]

theorem stops_cons {p : Char → Bool} {c : Char} {text : List Char} (h : p c = false) : Stops p (c :: text) := by
  rintro d ⟨⟩
  exact h

theorem stops_elements (items : List Json) (rest : List Char) :
    Stops numeral (elements raw false items ++ rest) := by
  cases items <;> exact stops_cons rfl

theorem stops_members (fields : List (String × Json)) (rest : List Char) :
    Stops numeral (members raw false fields ++ rest) := by
  rcases fields with _ | ⟨⟨k, v⟩, fields⟩ <;> exact stops_cons rfl

/-- No item begins with the bracket. -/
theorem elements_cons (first : Bool) (v : Json) (vs : List Json) (s t : List Char) :
    elements raw first (v :: vs) ++ s ≠ ']' :: t := by
  obtain ⟨x, xs, head, -, other⟩ := chars_head raw v
  intro h
  cases first <;> rw [elements, comma] at h
  · injection h with bracket
    cases bracket
  · rw [if_pos rfl, List.nil_append, head] at h
    injection h with bracket
    exact other bracket

theorem members_cons (first : Bool) (f : String × Json) (fs : List (String × Json)) (s t : List Char) :
    members raw first (f :: fs) ++ s ≠ '\x7d' :: t := by
  intro h
  cases first <;> injection h with brace <;> cases brace

mutual

/-- A value's text and what follows it determine the value. -/
theorem chars_cancel (legal : Legal raw) : ∀ (v w : Json) {s t : List Char},
    Stops numeral s → Stops numeral t →
    chars raw v ++ s = chars raw w ++ t → v = w ∧ s = t
  | .null, w, s, t, hs, ht, h => by
    have same := index_eq raw h
    cases w <;> cases same
    exact ⟨rfl, List.append_cancel_left h⟩
  | .bool b, w, s, t, hs, ht, h => by
    have same := index_eq raw h
    cases w <;> cases same
    rename_i b'
    cases b <;> cases b'
    · exact ⟨rfl, List.append_cancel_left h⟩
    · cases h
    · cases h
    · exact ⟨rfl, List.append_cancel_left h⟩
  | .int n, w, s, t, hs, ht, h => by
    have same := index_eq raw h
    cases w with
    | int m =>
      obtain ⟨number, rest⟩ := run_cancel (int_numerals n) (int_numerals m) hs ht h
      exact ⟨congrArg _ (Int.repr_inj.mp (String.toList_inj.mp number)), rest⟩
    | float y =>
      exact absurd (run_cancel (int_numerals n) (float_numerals y) hs ht h).1 (int_ne_float n y)
    | _ => cases same
  | .float x, w, s, t, hs, ht, h => by
    have same := index_eq raw h
    cases w with
    | int m =>
      exact absurd (run_cancel (float_numerals x) (int_numerals m) hs ht h).1.symm
        (int_ne_float m x)
    | float y =>
      obtain ⟨number, rest⟩ := run_cancel (float_numerals x) (float_numerals y) hs ht h
      exact ⟨congrArg _ (float_inj number), rest⟩
    | _ => cases same
  | .str text, w, s, t, hs, ht, h => by
    have same := index_eq raw h
    cases w <;> cases same
    obtain ⟨text, rest⟩ := quote_cancel raw legal h
    exact ⟨congrArg _ (String.toList_inj.mp text), rest⟩
  | .arr items, w, s, t, hs, ht, h => by
    have same := index_eq raw h
    cases w <;> cases same
    injection h with _ h
    obtain ⟨items, rest⟩ := elements_cancel legal items _ h
    exact ⟨congrArg _ items, rest⟩
  | .obj fields, w, s, t, hs, ht, h => by
    have same := index_eq raw h
    cases w <;> cases same
    injection h with _ h
    obtain ⟨fields, rest⟩ := members_cancel legal fields _ h
    exact ⟨congrArg _ fields, rest⟩

theorem elements_cancel (legal : Legal raw) : ∀ (vs ws : List Json) {first : Bool} {s t : List Char},
    elements raw first vs ++ s = elements raw first ws ++ t → vs = ws ∧ s = t
  | [], [], _, _, _, h => ⟨rfl, List.append_cancel_left h⟩
  | [], w :: ws, _, _, _, h => absurd h.symm (elements_cons raw _ w ws _ _)
  | v :: vs, [], _, _, _, h => absurd h (elements_cons raw _ v vs _ _)
  | v :: vs, w :: ws, first, s, t, h => by
    rw [elements, elements, List.append_assoc, List.append_assoc, List.append_assoc,
      List.append_assoc] at h
    obtain ⟨same, h⟩ := chars_cancel legal v w (stops_elements raw vs s) (stops_elements raw ws t)
      (List.append_cancel_left h)
    obtain ⟨same', rest⟩ := elements_cancel legal vs ws h
    exact ⟨by rw [same, same'], rest⟩

theorem members_cancel (legal : Legal raw) : ∀ (fs gs : List (String × Json)) {first : Bool} {s t : List Char},
    members raw first fs ++ s = members raw first gs ++ t → fs = gs ∧ s = t
  | [], [], _, _, _, h => ⟨rfl, List.append_cancel_left h⟩
  | [], g :: gs, _, _, _, h => absurd h.symm (members_cons raw _ g gs _ _)
  | f :: fs, [], _, _, _, h => absurd h (members_cons raw _ f fs _ _)
  | (k, v) :: fs, (l, w) :: gs, first, s, t, h => by
    rw [members, members, List.append_assoc, List.append_assoc, List.append_assoc,
      List.append_assoc] at h
    obtain ⟨key, h⟩ := quote_cancel raw legal (List.append_cancel_left h)
    rw [List.cons_append, List.cons_append, List.append_assoc, List.append_assoc] at h
    injection h with _ h
    obtain ⟨same, h⟩ := chars_cancel legal v w (stops_members raw fs s) (stops_members raw gs t) h
    obtain ⟨same', rest⟩ := members_cancel legal fs gs h
    exact ⟨by rw [String.toList_inj.mp key, same, same'], rest⟩

end

/-- No two values have one text. -/
theorem chars_inj (legal : Legal raw) {v w : Json} (h : chars raw v = chars raw w) : v = w := by
  refine (chars_cancel raw legal v w (s := []) (t := []) nofun nofun ?_).1
  rw [List.append_nil, List.append_nil, h]

end Json

end Lib

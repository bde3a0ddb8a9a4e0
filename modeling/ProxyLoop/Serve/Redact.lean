import ProxyLoop.Lib.Regex

/-!
# Redaction of served bytes

What `serve` sends is redacted: URLs, `sk-` tokens and the values of credential-like names.
-/

namespace ProxyLoop.Serve

open Lib (Regex)

abbrev Bytes := List UInt8

def utf8 (text : String) : Bytes := text.toList.flatMap String.utf8EncodeChar

def byte (c : Char) : UInt8 := c.toNat.toUInt8

namespace Byte

/-- `\s` over bytes -/
def isSpace (b : UInt8) : Bool := b = 32 || (9 ≤ b && b ≤ 13)

def isUpper (b : UInt8) : Bool := 65 ≤ b && b ≤ 90

def isLower (b : UInt8) : Bool := 97 ≤ b && b ≤ 122

def isDigit (b : UInt8) : Bool := 48 ≤ b && b ≤ 57

/-- `[A-Za-z0-9_]`, which is `\w` over bytes -/
def isWord (b : UInt8) : Bool := isUpper b || isLower b || isDigit b || b = byte '_'

def lower (b : UInt8) : UInt8 := if isUpper b then b + 32 else b

/-- A letter of a pattern under `re.IGNORECASE`, which over bytes folds ASCII only. -/
def sameCase (pattern b : UInt8) : Bool := lower pattern = lower b

/-- `[^\s"'\\<>]` -/
def unquoted (b : UInt8) : Bool :=
  !(isSpace b || [byte '"', byte '\'', byte '\\', byte '<', byte '>'].contains b)

end Byte

def URL : Regex UInt8 :=
  .seq (.word Byte.sameCase (utf8 "http")) (.seq (.opt (.set (Byte.sameCase (byte 's'))))
    (.seq (.word (· == ·) (utf8 "://")) (.plus (.set Byte.unquoted))))

def REDACTED : Bytes := utf8 "<redacted-url>"

/-- `\bsk-[A-Za-z0-9_-]{8,}`: an API key's own shape -/
def SK_TOKEN : Regex UInt8 :=
  let key := .set fun b => Byte.isWord b || b = byte '-'
  .seq (.boundary Byte.isWord)
    (.seq (.word (· == ·) (utf8 "sk-")) (.seq (.times key 8) (.star key)))

/-- A credential's value after its name, as in a query; group 1 is the name. -/
def ASSIGNED : Regex UInt8 :=
  let names := ["api_key", "apikey", "key", "token", "secret"]
  .seq (.boundary Byte.isWord)
    (.seq (.group 1 (.any (names.map fun name => .word Byte.sameCase (utf8 name))))
      (.seq (.set (· == byte '='))
        (.plus (.set fun b => Byte.unquoted b && b != byte '&'))))

def SECRET : Bytes := utf8 "<redacted>"

/-- Replace URLs, `sk-` tokens and `key=`-style values; the name stays. -/
def redact (data : Bytes) : Bytes :=
  let data := SK_TOKEN.sub (fun _ => SECRET) (URL.sub (fun _ => REDACTED) data)
  ASSIGNED.sub (fun m => (m.group? 1).getD [] ++ utf8 "=" ++ SECRET) data

example : redact (utf8 "\x7b\"a\": \"see HTTPS://x.y/?q=1 \", \"b\": \"Token=ab&sk-12345678\"\x7d") =
    utf8 "\x7b\"a\": \"see <redacted-url> \", \"b\": \"Token=<redacted>&<redacted>\"\x7d" := by
  decide +kernel

/-! ## What redaction keeps -/

/-- No redacted text starts with this byte. -/
def quiet (b : UInt8) : Bool := !([104, 115, 97, 107, 116].contains (Byte.lower b))

/-- No redacted text starts in `pre`, with `before` before it and `rest` after. -/
def Keeps (before pre rest : Bytes) : Prop :=
  URL.Passes before pre rest ∧ SK_TOKEN.Passes before pre rest ∧ ASSIGNED.Passes before pre rest

theorem Keeps.append {before pre pre' rest : Bytes} (h : Keeps before pre (pre' ++ rest))
    (h' : Keeps (before ++ pre) pre' rest) : Keeps before (pre ++ pre') rest :=
  ⟨Regex.passes_append h.1 h'.1, Regex.passes_append h.2.1 h'.2.1,
    Regex.passes_append h.2.2 h'.2.2⟩

/-- Redaction keeps the beginning of a text that no redacted text starts in. -/
theorem redact_prefix {pre : Bytes} (h : ∀ rest, Keeps [] pre rest) (rest : Bytes) :
    pre <+: redact (pre ++ rest) := by
  obtain ⟨t, ht⟩ := Regex.sub_passes (h rest).1 fun _ => REDACTED
  obtain ⟨t', ht'⟩ := Regex.sub_passes (h t).2.1 fun _ => SECRET
  rw [redact, ← ht, ← ht']
  exact Regex.sub_passes (h t').2.2 _

theorem words : utf8 "http" = 104 :: [116, 116, 112] ∧ utf8 "sk-" = 115 :: [107, 45] ∧
    utf8 "api_key" = 97 :: [112, 105, 95, 107, 101, 121] ∧
    utf8 "apikey" = 97 :: [112, 105, 107, 101, 121] ∧ utf8 "key" = 107 :: [101, 121] ∧
    utf8 "token" = 116 :: [111, 107, 101, 110] ∧
    utf8 "secret" = 115 :: 101 :: 99 :: [114, 101, 116] := by
  decide

/-- A place where none of the words stands. -/
theorem ends_nil {c : Lib.Cursor UInt8}
    (hsk : (Regex.word (· == ·) (utf8 "sk-")).ends c = [])
    (h : ∀ name ∈ ["http", "api_key", "apikey", "key", "token", "secret"],
      (Regex.word Byte.sameCase (utf8 name)).ends c = []) :
    URL.ends c = [] ∧ SK_TOKEN.ends c = [] ∧ ASSIGNED.ends c = [] := by
  refine ⟨Regex.seq_ends_nil (h "http" (by simp)),
    Regex.boundary_ends_nil (Regex.seq_ends_nil hsk), ?_⟩
  apply Regex.boundary_ends_nil
  apply Regex.seq_ends_nil
  apply Regex.group_ends_nil
  apply Regex.any_ends_nil
  intro r hr
  obtain ⟨name, hname, rfl⟩ := List.mem_map.mp hr
  exact h name (List.mem_cons_of_mem _ hname)

theorem ends_quiet {b : UInt8} (hb : quiet b = true) (before after : Bytes) :
    URL.ends ⟨before, b :: after, []⟩ = [] ∧ SK_TOKEN.ends ⟨before, b :: after, []⟩ = [] ∧
      ASSIGNED.ends ⟨before, b :: after, []⟩ = [] := by
  have other : ∀ x ∈ [104, 115, 97, 107, 116], Byte.sameCase x b = false ∧ (x == b) = false := by
    intro x hx
    have hlow : Byte.lower b ≠ x := by
      rintro rfl
      simp [quiet, hx] at hb
    have hself : Byte.lower x = x := by
      simp only [List.mem_cons, List.not_mem_nil, or_false] at hx
      rcases hx with rfl | rfl | rfl | rfl | rfl <;> rfl
    refine ⟨by simp [Byte.sameCase, hself, Ne.symm hlow], ?_⟩
    rw [beq_eq_false_iff_ne]
    rintro rfl
    exact hlow hself
  obtain ⟨h1, h2, h3, h4, h5, h6, h7⟩ := words
  refine ends_nil ?_ ?_
  · rw [h2]
    exact Regex.word_ends_nil (other 115 (by simp)).2 _ _ _ _
  · intro name hname
    simp only [List.mem_cons, List.not_mem_nil, or_false] at hname
    rcases hname with rfl | rfl | rfl | rfl | rfl | rfl
    · rw [h1]
      exact Regex.word_ends_nil (other 104 (by simp)).1 _ _ _ _
    · rw [h3]
      exact Regex.word_ends_nil (other 97 (by simp)).1 _ _ _ _
    · rw [h4]
      exact Regex.word_ends_nil (other 97 (by simp)).1 _ _ _ _
    · rw [h5]
      exact Regex.word_ends_nil (other 107 (by simp)).1 _ _ _ _
    · rw [h6]
      exact Regex.word_ends_nil (other 116 (by simp)).1 _ _ _ _
    · rw [h7]
      exact Regex.word_ends_nil (other 115 (by simp)).1 _ _ _ _

theorem keeps_quiet {pre : Bytes} (h : pre.all quiet = true) (before rest : Bytes) :
    Keeps before pre rest := by
  have hq : ∀ b ∈ pre, quiet b = true := List.all_eq_true.mp h
  exact ⟨Regex.passes_of_mem (fun b hb x y => (ends_quiet (hq b hb) x y).1) before rest,
    Regex.passes_of_mem (fun b hb x y => (ends_quiet (hq b hb) x y).2.1) before rest,
    Regex.passes_of_mem (fun b hb x y => (ends_quiet (hq b hb) x y).2.2) before rest⟩

theorem keeps_seq (before rest : Bytes) : Keeps before [115] (101 :: 113 :: rest) := by
  have at_s : ∀ before, URL.ends ⟨before, 115 :: 101 :: 113 :: rest, []⟩ = [] ∧
      SK_TOKEN.ends ⟨before, 115 :: 101 :: 113 :: rest, []⟩ = [] ∧
      ASSIGNED.ends ⟨before, 115 :: 101 :: 113 :: rest, []⟩ = [] := by
    intro before
    obtain ⟨h1, h2, h3, h4, h5, h6, h7⟩ := words
    refine ends_nil ?_ ?_
    · rw [h2, Regex.word_ends_cons rfl]
      exact Regex.word_ends_nil rfl _ _ _ _
    · intro name hname
      simp only [List.mem_cons, List.not_mem_nil, or_false] at hname
      rcases hname with rfl | rfl | rfl | rfl | rfl | rfl
      · rw [h1]
        exact Regex.word_ends_nil rfl _ _ _ _
      · rw [h3]
        exact Regex.word_ends_nil rfl _ _ _ _
      · rw [h4]
        exact Regex.word_ends_nil rfl _ _ _ _
      · rw [h5]
        exact Regex.word_ends_nil rfl _ _ _ _
      · rw [h6]
        exact Regex.word_ends_nil rfl _ _ _ _
      · rw [h7, Regex.word_ends_cons rfl, Regex.word_ends_cons rfl]
        exact Regex.word_ends_nil rfl _ _ _ _
  have single : ∀ {r : Regex UInt8},
      (∀ before, r.ends ⟨before, 115 :: 101 :: 113 :: rest, []⟩ = []) →
        r.Passes before [115] (101 :: 113 :: rest) := by
    intro r h done x left hl
    obtain ⟨rfl, rfl, rfl⟩ : done = [] ∧ x = 115 ∧ left = [] := by
      cases done with
      | nil => simpa using hl.symm
      | cons y done => simp at hl
    exact h _
  exact ⟨single fun b => (at_s b).1, single fun b => (at_s b).2.1, single fun b => (at_s b).2.2⟩

end ProxyLoop.Serve

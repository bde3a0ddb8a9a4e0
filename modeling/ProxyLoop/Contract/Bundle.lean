import ProxyLoop.Contract.Text
import ProxyLoop.Lib.JsonTexts

/-!
# The lines of a bundle

`events.jsonl` and `prompts.jsonl` are one JSON object a line, written with only the control
characters escaped, and read back by `str.splitlines`, which also ends a line at characters that
JSON leaves as they are.
-/

namespace ProxyLoop.Bundle

open Lib (Json)

/-! ## Reading -/

/-- What `str.splitlines` ends a line at. -/
def isBreak (c : Char) : Bool :=
  [10, 11, 12, 13, 28, 29, 30, 0x85, 0x2028, 0x2029].contains c.toNat

/-- Text mode: `\r\n` and `\r` are read as `\n`. -/
def universal : List Char → List Char
  | '\r' :: '\n' :: text => '\n' :: universal text
  | '\r' :: text => '\n' :: universal text
  | c :: text => c :: universal text
  | [] => []

/-- `str.splitlines` of a text without `\r`; `line` is the line so far. -/
def splitFrom (line : List Char) : List Char → List (List Char)
  | [] => if line = [] then [] else [line]
  | c :: text => if isBreak c then line :: splitFrom [] text else splitFrom (line ++ [c]) text

def splitlines (text : List Char) : List (List Char) := splitFrom [] text

def jsonl (file : List Char) : List (List Char) :=
  (splitlines (universal file)).filter fun line => Text.strip line ≠ []

/-! ## Writing -/

/-- `EventLog.append`, and the prompts' writer: a line for each object. -/
def written (objects : List (List (String × Json))) : List Char :=
  objects.flatMap fun fields => Json.chars Json.plain (.obj fields) ++ ['\n']

/-! ## One line -/

/-- The line ends that JSON leaves as they are. -/
def unescaped (c : Char) : Bool := [0x85, 0x2028, 0x2029].contains c.toNat

def line (fields : List (String × Json)) : List Char := Json.chars Json.plain (.obj fields)

/-- No text of the object has a line end that JSON leaves as it is. -/
def Clean (fields : List (String × Json)) : Prop :=
  ∀ text ∈ Json.texts (.obj fields), ∀ c ∈ text.toList, unescaped c = false

theorem isBreak_plain {c : Char} (raw : Json.plain c = true) : isBreak c = unescaped c := by
  simp only [Json.plain, decide_eq_true_eq] at raw
  have far : ∀ n < 32, c.toNat ≠ n := fun n small same => by omega
  simp [isBreak, unescaped, far]

theorem unescaped_wide {c : Char} (h : unescaped c = true) :
    Json.ascii c = false ∧ Json.plain c = true := by
  simp only [unescaped, List.contains_eq_mem, List.mem_cons, List.not_mem_nil, or_false,
    decide_eq_true_eq] at h
  rcases h with h | h | h <;> simp [Json.ascii, Json.plain, h]

theorem ascii_isBreak {c : Char} (h : Json.ascii c = true) : isBreak c = false := by
  simp only [Json.ascii, Bool.and_eq_true, decide_eq_true_eq] at h
  have near : ∀ n, n < 32 ∨ 126 < n → c.toNat ≠ n := fun n far same => by omega
  simp [isBreak, near]

/-- A line is broken exactly when a text of it has an unescaped line end. -/
theorem clean_iff {fields : List (String × Json)} :
    Clean fields ↔ ∀ c ∈ line fields, isBreak c = false := by
  constructor
  · intro clean c hc
    rcases Json.of_chars _ hc with small | ⟨raw, text, ht, h⟩
    · exact ascii_isBreak small
    · rw [isBreak_plain raw]
      exact clean text ht c h
  · intro whole text ht c hc
    cases bare : unescaped c with
    | false => rfl
    | true =>
      obtain ⟨wide, raw⟩ := unescaped_wide bare
      have broken := whole c (Json.wide_chars wide raw _ ⟨text, ht, hc⟩)
      rw [isBreak_plain raw, bare] at broken
      cases broken

theorem carriage_not_mem (fields : List (String × Json)) : '\r' ∉ line fields := by
  intro h
  rcases Json.of_chars _ h with small | ⟨raw, -⟩
  · exact absurd small (by decide)
  · exact absurd raw (by decide)

theorem line_head (fields : List (String × Json)) : ∃ rest, line fields = '\x7b' :: rest :=
  ⟨_, Json.chars_obj Json.plain fields⟩

theorem strip_brace (rest : List Char) : Text.strip ('\x7b' :: rest) ≠ [] := by
  have kept : Text.lstrip ('\x7b' :: rest) = '\x7b' :: rest := rfl
  rw [Text.strip, kept, Text.rstrip, Ne, List.rdropWhile_eq_nil_iff]
  intro blank
  exact absurd (blank '\x7b' List.mem_cons_self) (by decide)

/-! ## A file -/

theorem universal_id {text : List Char} (h : '\r' ∉ text) : universal text = text := by
  induction text with
  | nil => rfl
  | cons c text ih =>
    rw [List.mem_cons, not_or] at h
    unfold universal
    split
    · rename_i same
      cases same
      exact absurd rfl h.1
    · rename_i same
      cases same
      exact absurd rfl h.1
    · rename_i same
      cases same
      rw [ih h.2]
    · rename_i same
      cases same

theorem splitFrom_append (acc : List Char) {part : List Char}
    (whole : ∀ c ∈ part, isBreak c = false) {c : Char} (ends : isBreak c = true)
    (rest : List Char) :
    splitFrom acc (part ++ c :: rest) = (acc ++ part) :: splitFrom [] rest := by
  induction part generalizing acc with
  | nil => simp [splitFrom, ends]
  | cons x part ih =>
    have first := whole x List.mem_cons_self
    have more := ih (acc ++ [x]) fun y hy => whole y (List.mem_cons_of_mem _ hy)
    rw [List.cons_append, splitFrom, if_neg (by simp [first]), more]
    simp

/-- A text with a line end, at its first. -/
theorem first_break {text : List Char} (h : ¬ ∀ c ∈ text, isBreak c = false) :
    ∃ part c rest, text = part ++ c :: rest ∧ (∀ x ∈ part, isBreak x = false) ∧
      isBreak c = true := by
  induction text with
  | nil => simp at h
  | cons x text ih =>
    cases first : isBreak x with
    | true => exact ⟨[], x, text, rfl, by simp, first⟩
    | false =>
      have : ¬ ∀ c ∈ text, isBreak c = false := by
        intro whole
        refine h fun c hc => ?_
        rcases List.mem_cons.mp hc with rfl | hc
        · exact first
        · exact whole c hc
      obtain ⟨part, c, rest, rfl, whole, ends⟩ := ih this
      refine ⟨x :: part, c, rest, rfl, fun y hy => ?_, ends⟩
      rcases List.mem_cons.mp hy with rfl | hy
      · exact first
      · exact whole y hy

theorem written_cons (fields : List (String × Json)) (objects : List (List (String × Json))) :
    written (fields :: objects) = line fields ++ '\n' :: written objects := by
  simp [written, line]

theorem carriage_not_written (objects : List (List (String × Json))) :
    '\r' ∉ written objects := by
  intro h
  obtain ⟨fields, -, h⟩ := List.mem_flatMap.mp h
  rcases List.mem_append.mp h with h | h
  · exact carriage_not_mem fields h
  · exact absurd (List.mem_singleton.mp h) (by decide)

theorem jsonl_written (objects : List (List (String × Json))) :
    jsonl (written objects) =
      (splitlines (written objects)).filter fun line => Text.strip line ≠ [] := by
  rw [jsonl, universal_id (carriage_not_written objects)]

theorem keep_brace {part : List Char} (rest : List Char) (more : List (List Char))
    (h : part = '\x7b' :: rest) :
    ((part :: more).filter fun line => Text.strip line ≠ []) =
      part :: more.filter fun line => Text.strip line ≠ [] := by
  rw [List.filter_cons_of_pos]
  simpa [h] using strip_brace rest

/-- What was written is read back line by line exactly when no string of it holds a next-line, a
line separator or a paragraph separator character. -/
theorem read_back (objects : List (List (String × Json))) :
    jsonl (written objects) = objects.map line ↔ ∀ fields ∈ objects, Clean fields := by
  rw [jsonl_written]
  induction objects with
  | nil => simp [written, splitlines, splitFrom]
  | cons fields objects ih =>
    obtain ⟨rest, brace⟩ := line_head fields
    rw [List.forall_mem_cons, List.map_cons, written_cons, ← ih]
    by_cases clean : Clean fields
    · have whole := clean_iff.mp clean
      rw [splitlines, splitFrom_append [] whole (by decide), List.nil_append,
        keep_brace rest _ brace, List.cons.injEq]
      simp [clean, splitlines]
    · refine iff_of_false (fun same => ?_) fun h => clean h.1
      obtain ⟨part, c, tail, cut, whole, ends⟩ := first_break (clean_iff.not.mp clean)
      have head : ∃ more, part = '\x7b' :: more := by
        cases part with
        | nil =>
          rw [cut, List.nil_append, List.cons.injEq] at brace
          rw [brace.1] at ends
          exact absurd ends (by decide)
        | cons x part =>
          rw [cut, List.cons_append, List.cons.injEq] at brace
          exact ⟨part, by rw [brace.1]⟩
      obtain ⟨more, head⟩ := head
      rw [cut, List.append_assoc, List.cons_append, splitlines, splitFrom_append [] whole ends,
        List.nil_append, keep_brace more _ head, List.cons.injEq] at same
      have := congrArg List.length same.1
      simp at this

/-- A row with a fraction, a quote and a line end. -/
def sampledRow : List (String × Json) :=
  [("temperature", .float ⟨"0.7", by decide, by decide⟩), ("text", .str "he said \"no\"\n")]

/-- A row whose text holds a line separator. -/
def separatedRow : List (String × Json) := [("text", .str "one\u2028two")]

theorem read_back_sample :
    jsonl (written [sampledRow, sampledRow]) = [line sampledRow, line sampledRow] ∧
      jsonl (written [sampledRow, separatedRow]) ≠ [line sampledRow, line separatedRow] := by
  have clean : Clean sampledRow := by
    simp [Clean, sampledRow, Json.texts, Json.textsIn, unescaped]
  have unclean : ¬ Clean separatedRow := by
    simp [Clean, separatedRow, Json.texts, Json.textsIn, unescaped]
  refine ⟨(read_back [sampledRow, sampledRow]).mpr (by simp [clean]), fun same => unclean ?_⟩
  exact (read_back [sampledRow, separatedRow]).mp same separatedRow (by simp)

end ProxyLoop.Bundle

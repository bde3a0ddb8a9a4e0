/-!
# Backtracking regular expressions

A pattern over any alphabet, matched the way a backtracking engine does: `Regex.ends` lists every
way a pattern matches from a place in a text, in the order the engine tries them, so the first is
the one it takes.  A repetition is greedy and takes only iterations that consume.  Assertions see
the text on both sides.
-/

namespace Lib

variable {α : Type}

/-- A place in a text: what is before it, nearest first, and what is after it; with the groups
matched on the way, last first. -/
structure Cursor (α : Type) where
  before : List α
  after : List α
  groups : List (Nat × List α) := []

inductive Regex (α : Type)
  /-- one character of the set -/
  | set (p : α → Bool)
  /-- an assertion about what is before (nearest first) and after -/
  | look (p : List α → List α → Bool)
  | eps
  | seq (r t : Regex α)
  | alt (r t : Regex α)
  | star (r : Regex α)
  | group (i : Nat) (r : Regex α)

/-- Greedy repetition of a step, at most `n` times, of iterations that consume. -/
def Cursor.repeats (f : Cursor α → List (Cursor α)) : Nat → Cursor α → List (Cursor α)
  | 0, c => [c]
  | n + 1, c => ((f c).filter (·.after.length < c.after.length)).flatMap (Cursor.repeats f n) ++ [c]

def Cursor.read (c c' : Cursor α) : List α := c.after.take (c.after.length - c'.after.length)

namespace Regex

/-- Where a pattern's matches from a place end, in the order they are tried. -/
def ends : Regex α → Cursor α → List (Cursor α)
  | set p, c =>
    match c.after with
    | x :: rest => if p x then [{ c with before := x :: c.before, after := rest }] else []
    | [] => []
  | look p, c => if p c.before c.after then [c] else []
  | eps, c => [c]
  | seq r t, c => (r.ends c).flatMap t.ends
  | alt r t, c => r.ends c ++ t.ends c
  | star r, c => Cursor.repeats r.ends c.after.length c
  | group i r, c => (r.ends c).map fun c' => { c' with groups := (i, c.read c') :: c'.groups }

/-! ### Each way to build a pattern -/

section build

variable (r t : Regex α) (c : Cursor α)

theorem ends_seq : (seq r t).ends c = (r.ends c).flatMap t.ends := rfl

theorem ends_alt : (alt r t).ends c = r.ends c ++ t.ends c := rfl

theorem ends_group (i : Nat) : (group i r).ends c =
    (r.ends c).map fun c' => { c' with groups := (i, c.read c') :: c'.groups } := rfl

theorem ends_look (p : List α → List α → Bool) :
    (look p).ends c = if p c.before c.after then [c] else [] := rfl

theorem set_ends_cons (p : α → Bool) (x : α) (before after : List α) (groups : List (Nat × List α)) :
    (set p).ends ⟨before, x :: after, groups⟩ =
      if p x then [⟨x :: before, after, groups⟩] else [] := rfl

end build

/-! ## Derived patterns -/

/-- A text, character by character. -/
def word (eq : α → α → Bool) (text : List α) : Regex α :=
  text.foldr (fun x r => seq (set (eq x)) r) eps

def opt (r : Regex α) : Regex α := alt r eps

def plus (r : Regex α) : Regex α := seq r (star r)

def times (r : Regex α) : Nat → Regex α
  | 0 => eps
  | n + 1 => seq r (times r n)

/-- `{m,n}`, greedy. -/
def between (r : Regex α) (m n : Nat) : Regex α :=
  seq (times r m) (upTo (n - m))
where
  upTo : Nat → Regex α
    | 0 => eps
    | k + 1 => opt (seq r (upTo k))

def any (rs : List (Regex α)) : Regex α := rs.foldr alt (look fun _ _ => false)

def all (rs : List (Regex α)) : Regex α := rs.foldr seq eps

/-- `(?=r)` -/
def ahead (r : Regex α) : Regex α := look fun before after => !(r.ends ⟨before, after, []⟩).isEmpty

/-- `(?!r)` -/
def notAhead (r : Regex α) : Regex α := look fun before after => (r.ends ⟨before, after, []⟩).isEmpty

/-- `(?<=p)` for one character. -/
def behind (p : α → Bool) : Regex α := look fun before _ => before.head?.any p

/-- `(?<!p)` for one character. -/
def notBehind (p : α → Bool) : Regex α := look fun before _ => !before.head?.any p

/-- `\\b` -/
def boundary (isWord : α → Bool) : Regex α :=
  look fun before after => before.head?.any isWord != after.head?.any isWord

def start : Regex α := look fun before _ => before.isEmpty

def finish : Regex α := look fun _ after => after.isEmpty

/-! ## Searching -/

/-- A match: where it starts and stops, what it read, and its groups. -/
structure Match (α : Type) where
  start : Nat
  stop : Nat
  text : List α
  groups : List (Nat × List α)

def Match.group? (m : Match α) (i : Nat) : Option (List α) := (m.groups.find? (·.1 = i)).map Prod.snd

/-- The match the engine takes from a place; one that must advance is not empty. -/
def here (r : Regex α) (advance : Bool) (c : Cursor α) : Option (Match α × Cursor α) :=
  ((r.ends c).find? fun c' => !advance || c'.after.length < c.after.length).map fun c' =>
    (⟨c.before.length, c'.before.length, c.read c', c'.groups⟩, { c' with groups := [] })

/-- The matches from a place on, none overlapping the one before it; after an empty match the next
one must advance. -/
def scan (r : Regex α) : Nat → Bool → Cursor α → List (Match α)
  | 0, _, _ => []
  | n + 1, advance, c =>
    match r.here advance c with
    | some (m, c') => m :: r.scan n (m.start = m.stop) c'
    | none =>
      match c.after with
      | x :: rest => r.scan n false ⟨x :: c.before, rest, []⟩
      | [] => []

def finditer (r : Regex α) (text : List α) : List (Match α) :=
  r.scan (2 * text.length + 2) false ⟨[], text, []⟩

/-- `re.search(text) is not None` -/
def search (r : Regex α) (text : List α) : Bool := !(r.finditer text).isEmpty

/-- `re.match` -/
def prefix? (r : Regex α) (text : List α) : Option (Match α) :=
  (r.here false ⟨[], text, []⟩).map Prod.fst

/-- `re.fullmatch(text) is not None` -/
def fullmatch (r : Regex α) (text : List α) : Bool :=
  (r.ends ⟨[], text, []⟩).any (·.after.isEmpty)

/-- What stands between the matches, which start at or after `at_`. -/
def pieces (text : List α) : Nat → List (Match α) → List (List α)
  | at_, [] => [text.drop at_]
  | at_, m :: ms => (text.take m.start).drop at_ :: pieces text m.stop ms

/-- `re.split`, of a pattern without groups. -/
def split (r : Regex α) (text : List α) : List (List α) := pieces text 0 (r.finditer text)

/-- `re.sub`, with what a match becomes. -/
def sub (r : Regex α) (by_ : Match α → List α) (text : List α) : List α :=
  go 0 (r.finditer text)
where
  go : Nat → List (Match α) → List α
    | at_, [] => text.drop at_
    | at_, m :: ms => (text.take m.start).drop at_ ++ by_ m ++ go m.stop ms

/-- `re.findall` of a pattern without groups. -/
def findall (r : Regex α) (text : List α) : List (List α) := (r.finditer text).map Match.text

/-! ## Where nothing matches -/

theorem seq_ends_nil {r t : Regex α} {c : Cursor α} (h : r.ends c = []) : (seq r t).ends c = [] := by
  rw [ends_seq, h, List.flatMap_nil]

theorem boundary_ends_nil {isWord : α → Bool} {t : Regex α} {c : Cursor α} (h : t.ends c = []) :
    (seq (boundary isWord) t).ends c = [] := by
  rw [ends_seq, boundary, ends_look]
  split
  · rw [List.flatMap_cons, h, List.flatMap_nil, List.append_nil]
  · rw [List.flatMap_nil]

theorem group_ends_nil {i : Nat} {r : Regex α} {c : Cursor α} (h : r.ends c = []) :
    (group i r).ends c = [] := by
  rw [ends_group, h, List.map_nil]

theorem any_ends_nil {rs : List (Regex α)} {c : Cursor α} (h : ∀ r ∈ rs, r.ends c = []) :
    (any rs).ends c = [] := by
  induction rs with
  | nil => rfl
  | cons r rs ih =>
    show (alt r (any rs)).ends c = []
    rw [ends_alt, h r List.mem_cons_self, ih fun t ht => h t (List.mem_cons_of_mem _ ht),
      List.append_nil]

theorem word_ends_nil {eq : α → α → Bool} {x b : α} (h : eq x b = false) (text : List α)
    (before after : List α) (groups : List (Nat × List α)) :
    (word eq (x :: text)).ends ⟨before, b :: after, groups⟩ = [] := by
  apply seq_ends_nil
  rw [set_ends_cons, h]
  rfl

/-- A letter that is there is read. -/
theorem word_ends_cons {eq : α → α → Bool} {x b : α} (h : eq x b = true) (text : List α)
    (before after : List α) (groups : List (Nat × List α)) :
    (word eq (x :: text)).ends ⟨before, b :: after, groups⟩ =
      (word eq text).ends ⟨b :: before, after, groups⟩ := by
  show ((set (eq x)).ends _).flatMap _ = _
  simp only [set_ends_cons, h, if_true, List.flatMap_cons, List.flatMap_nil, List.append_nil]
  rfl

/-! ## What a substitution keeps -/

theorem scan_start {r : Regex α} (n : Nat) {advance : Bool} {c : Cursor α} {m : Match α}
    (hm : (r.scan n advance c).head? = some m) : c.before.length ≤ m.start := by
  induction n generalizing advance c with
  | zero => cases hm
  | succ n ih =>
    rw [scan] at hm
    split at hm
    · rename_i m' c' hh
      cases hm
      obtain ⟨e, -, he⟩ := Option.map_eq_some_iff.mp hh
      cases he
      exact Nat.le_refl _
    · split at hm
      · have := ih hm
        simp only [List.length_cons] at this
        omega
      · cases hm

/-- No match starts in `pre`, with `before` before it and `rest` after. -/
def Passes (r : Regex α) (before pre rest : List α) : Prop :=
  ∀ done x left, pre = done ++ x :: left →
    r.ends ⟨(before ++ done).reverse, x :: (left ++ rest), []⟩ = []

theorem passes_append {r : Regex α} {before pre pre' rest : List α}
    (h : r.Passes before pre (pre' ++ rest)) (h' : r.Passes (before ++ pre) pre' rest) :
    r.Passes before (pre ++ pre') rest := by
  intro done x left hl
  rcases List.append_eq_append_iff.mp hl with ⟨mid, rfl, hm⟩ | ⟨mid, rfl, hm⟩
  · have := h' mid x left hm
    simpa using this
  · cases mid with
    | nil =>
      have := h' [] x left hm.symm
      simpa using this
    | cons y mid =>
      obtain ⟨rfl, rfl⟩ : x = y ∧ left = mid ++ pre' := by simpa using hm
      have := h done x mid rfl
      simpa using this

/-- Characters that start no match. -/
theorem passes_of_mem {r : Regex α} {pre : List α}
    (h : ∀ x ∈ pre, ∀ before after, r.ends ⟨before, x :: after, []⟩ = []) (before rest : List α) :
    r.Passes before pre rest := by
  rintro done x left rfl
  exact h x (by simp) _ _

/-- A search from a text that no match starts in finds what starts after it. -/
theorem scan_passes {r : Regex α} {rest : List α} (n : Nat) {before pre : List α}
    (h : r.Passes before pre rest) {m : Match α}
    (hm : (r.scan n false ⟨before.reverse, pre ++ rest, []⟩).head? = some m) :
    before.length + pre.length ≤ m.start := by
  induction pre generalizing before n with
  | nil => simpa using scan_start n hm
  | cons x pre ih =>
    cases n with
    | zero => cases hm
    | succ n =>
      have hx : r.here false ⟨before.reverse, x :: (pre ++ rest), []⟩ = none := by
        have := h [] x pre rfl
        rw [List.append_nil] at this
        simp [here, this]
      rw [List.cons_append, scan, hx] at hm
      have hp : r.Passes (before ++ [x]) pre rest := fun done y left hl => by
        have := h (x :: done) y left (by simp [hl])
        simpa using this
      have := ih n hp (by simpa using hm)
      simp only [List.length_append, List.length_cons, List.length_nil] at this ⊢
      omega

/-- A substitution keeps the beginning of a text that no match starts in. -/
theorem sub_passes {r : Regex α} {pre rest : List α} (h : r.Passes [] pre rest)
    (by_ : Match α → List α) : pre <+: r.sub by_ (pre ++ rest) := by
  rw [sub]
  cases hf : r.finditer (pre ++ rest) with
  | nil => simp [sub.go]
  | cons m ms =>
    have hm := scan_passes (2 * (pre ++ rest).length + 2) h (m := m) (by
      rw [finditer] at hf
      rw [List.reverse_nil, hf, List.head?_cons])
    simp only [List.length_nil, Nat.zero_add] at hm
    have hlen : (pre ++ rest).take m.start = pre ++ rest.take (m.start - pre.length) := by
      rw [List.take_append, List.take_of_length_le hm]
    simp [sub.go, hlen]

end Regex

end Lib

import Mathlib.Data.Finset.Lattice.Lemmas
import ProxyLoop.Contract.Text

/-!
# What the rep's Ear takes for a price

The whole numbers that a text says in English words, read in one pass, and the check that a price
the Ear heard was said.  A text that says numbers with another word between them is read as those
numbers.
-/

namespace ProxyLoop.Ear

/-! ## Number words -/

def UNITS : List String :=
  ["zero", "one", "two", "three", "four", "five", "six", "seven", "eight", "nine", "ten", "eleven",
    "twelve", "thirteen", "fourteen", "fifteen", "sixteen", "seventeen", "eighteen", "nineteen"]

def TENS : List String :=
  ["twenty", "thirty", "forty", "fifty", "sixty", "seventy", "eighty", "ninety"]

/-- `re.findall(r"[a-z]+", text)` -/
def letterWords (text : List Char) : List String :=
  ((text.splitOnP fun c => !Text.isLower c).filter (· ≠ [])).map String.ofList

/-- The last word, as far as it decides what the next one does. -/
inductive Last
  | none | unit | tens | big | hundred | thousand
  deriving DecidableEq, Repr

/-- A unit or tens word's number, and what it is as a last word. -/
def value? (tok : String) : Option (Nat × Last) :=
  match UNITS.idxOf? tok with
  | some n => some (n, if n < 10 then .unit else .big)
  | none => (TENS.idxOf? tok).map fun i => (10 * (i + 2), .tens)

structure Reading where
  out : Finset Nat := ∅
  total : Nat := 0
  cur : Nat := 0
  last : Last := .none
  deriving DecidableEq

/-- The number so far, if any, is one. -/
def Reading.flush (s : Reading) : Reading :=
  { out := if s.last ≠ .none then insert (s.total + s.cur) s.out else s.out }

def follows (last kind : Last) : Bool :=
  last = .none || last = .hundred || last = .thousand || last = .tens && kind = .unit

def Reading.read (s : Reading) (tok : String) : Reading :=
  if tok = "and" && (s.last = .hundred || s.last = .thousand) then s
  else
    match value? tok with
    | some (n, kind) =>
      let s := if s.last ≠ .none && !follows s.last kind then s.flush else s
      { s with cur := s.cur + n, last := kind }
    | none =>
      if tok = "hundred" && (s.last = .unit || s.last = .big) then
        { s with cur := s.cur * 100, last := .hundred }
      else if tok = "thousand" && s.last ≠ .none then
        { s with total := (s.total + s.cur) * 1000, cur := 0, last := .thousand }
      else s.flush

def wordNumbers (u : Unicode) (heard : List Char) : Finset Nat :=
  ((letterWords (u.casefold heard) ++ [""]).foldl Reading.read {}).out

/-! ## The price check -/

inductive Act
  | askDiscount | citeCompetitor | cancelIntent | tenure | askReadback | accept | decline
  | provideFact | refuseFact | askSupervisor | holdRequest | smalltalk | injection | other
  deriving DecidableEq, Repr

structure Fact where
  key : String
  value : String
  deriving DecidableEq, Repr

/-- An act the Ear heard; the price is the decimal that its float is written as. -/
structure EarAct where
  act : Act
  offerRef : Option String := none
  priceUsd : Option Rat := none
  facts : List Fact := []
  deriving DecidableEq, Repr

inductive Invalid
  /-- "... lacks [...]" -/
  | lacks (act : Act) (fields : List String)
  /-- "offer_ref ... was never offered" -/
  | neverOffered (offerRef : String)
  /-- "unknown key ..." -/
  | unknownKey (key : String)
  /-- "... was not said", of a fact's value -/
  | factNotSaid (fact : Fact)
  /-- "price_usd ... was not said" -/
  | priceNotSaid (priceUsd : Rat)
  deriving DecidableEq, Repr

/-- The fields of `_NEEDS` that the act lacks. -/
def EarAct.missing (act : EarAct) : List String :=
  match act.act with
  | .citeCompetitor => if act.priceUsd = none then ["price_usd"] else []
  | .provideFact => if act.facts = [] then ["facts"] else []
  | _ => []

/-- The facts' checks; whether a value was said is left open. -/
def checkFacts (said : String → List Char → Bool) (heard : List Char) (keys : List String) :
    List Fact → Except Invalid Unit
  | [] => .ok ()
  | fact :: facts =>
    if fact.key ∉ keys then .error (.unknownKey fact.key)
    else if !said fact.value heard then .error (.factNotSaid fact)
    else checkFacts said heard keys facts

/-- `_check_one` before the price -/
def checkRest (said : String → List Char → Bool) (act : EarAct) (heard : List Char)
    (offers keys : List String) : Except Invalid Unit :=
  if act.missing ≠ [] then .error (.lacks act.act act.missing)
  else
    match act.offerRef.filter (· ∉ offers) with
    | some ref => .error (.neverOffered ref)
    | none => checkFacts said heard keys act.facts

/-- The price is in digits or in words in what was heard. -/
def priceSaid (u : Unicode) (heard : List Char) (price : Rat) : Bool :=
  (Text.numbers heard).contains price || Decidable.decide (∃ n ∈ wordNumbers u heard, price = n)

def checkOne (u : Unicode) (said : String → List Char → Bool) (act : EarAct) (heard : List Char)
    (offers keys : List String) : Except Invalid Unit := do
  checkRest said act heard offers keys
  match act.priceUsd with
  | some price => if priceSaid u heard price then .ok () else .error (.priceNotSaid price)
  | none => .ok ()

/-! ## English number words -/

/-- A number below a hundred: a hyphen is no part of a word. -/
def small (n : Nat) : List String :=
  if n < 20 then [UNITS.getD n ""]
  else TENS.getD (n / 10 - 2) "" :: if n % 10 = 0 then [] else [UNITS.getD (n % 10) ""]

/-- The words between a part and the next. -/
inductive Link : List String → Prop
  | plain : Link []
  | and : Link ["and"]

/-- A number from 1 to 999 in words. -/
inductive Below : Nat → List String → Prop
  | small {n : Nat} : 0 < n → n < 100 → Below n (small n)
  | round {h : Nat} : 0 < h → h < 10 → Below (100 * h) (small h ++ ["hundred"])
  | hundreds {h r : Nat} {link : List String} : 0 < h → h < 10 → Link link → 0 < r → r < 100 →
      Below (100 * h + r) (small h ++ ["hundred"] ++ link ++ Ear.small r)

/-- A number from 0 to 999,999 in words. -/
inductive Written : Nat → List String → Prop
  | zero : Written 0 ["zero"]
  | below {n : Nat} {form : List String} : Below n form → Written n form
  | round {k : Nat} {form : List String} : Below k form → Written (1000 * k) (form ++ ["thousand"])
  | thousands {k r : Nat} {form link rest : List String} : Below k form → Link link →
      Below r rest → Written (1000 * k + r) (form ++ ["thousand"] ++ link ++ rest)

def Plain (tok : String) : Prop :=
  tok ∉ UNITS ∧ tok ∉ TENS ∧ tok ≠ "hundred" ∧ tok ≠ "thousand"

/-- The words of a text that says the numbers in order, from the first one on: between two of them
there is a word that is no number word, nor `and`. -/
inductive Told : List String → List Nat → Prop
  | last {n : Nat} {form gap : List String} : Written n form → (∀ tok ∈ gap, Plain tok) →
      Told (form ++ gap) [n]
  | next {n : Nat} {form gap rest : List String} {ns : List Nat} : Written n form →
      (∀ tok ∈ gap, Plain tok) → (∃ tok ∈ gap, tok ≠ "and") → Told rest ns →
      Told (form ++ gap ++ rest) (n :: ns)

/-- The words of a text that says the numbers in order, and no other. -/
inductive Spoken : List String → List Nat → Prop
  | nothing {gap : List String} : (∀ tok ∈ gap, Plain tok) → Spoken gap []
  | told {gap rest : List String} {ns : List Nat} : (∀ tok ∈ gap, Plain tok) → Told rest ns →
      Spoken (gap ++ rest) ns

/-! ## Reading a number -/

theorem value_unit : ∀ n < 20, value? (UNITS.getD n "") =
    some (n, if n < 10 then .unit else .big) := by decide

theorem value_tens : ∀ i < 8, value? (TENS.getD i "") = some (10 * (i + 2), .tens) := by decide

/-- A word that goes on with the number adds to it. -/
theorem read_value {s : Reading} {tok : String} {n : Nat} {kind : Last}
    (value : value? tok = some (n, kind)) (follow : follows s.last kind = true) :
    s.read tok = { s with cur := s.cur + n, last := kind } := by
  have other : tok ≠ "and" := by
    rintro rfl
    cases value
  simp [Reading.read, other, value, follow]

theorem read_hundred {s : Reading} (h : s.last = .unit ∨ s.last = .big) :
    s.read "hundred" = { s with cur := s.cur * 100, last := .hundred } := by
  have value : value? "hundred" = none := by decide
  simp [Reading.read, value, h]

theorem read_thousand {s : Reading} (h : s.last ≠ .none) : s.read "thousand" =
    { s with total := (s.total + s.cur) * 1000, cur := 0, last := .thousand } := by
  have value : value? "thousand" = none := by decide
  simp [Reading.read, value, h]

theorem read_link {s : Reading} {link : List String} (h : Link link)
    (last : s.last = .hundred ∨ s.last = .thousand) : link.foldl Reading.read s = s := by
  cases h with
  | plain => rfl
  | and => simp [Reading.read, last]

/-- A number below a hundred adds to the number, of which it is a new part. -/
theorem read_small {s : Reading} {n : Nat} (lt : n < 100)
    (h : s.last = .none ∨ s.last = .hundred ∨ s.last = .thousand) :
    ∃ last, (last = .unit ∨ last = .big ∨ last = .tens) ∧ (n < 10 → last = .unit) ∧
      (small n).foldl Reading.read s = { s with cur := s.cur + n, last } := by
  have any : ∀ kind, follows s.last kind = true := by
    intro kind
    rcases h with h | h | h <;> simp [follows, h]
  unfold small
  by_cases low : n < 20
  · rw [if_pos low, List.foldl_cons, List.foldl_nil, read_value (value_unit n low) (any _)]
    by_cases digit : n < 10
    · exact ⟨.unit, Or.inl rfl, fun _ => rfl, by rw [if_pos digit]⟩
    · exact ⟨.big, Or.inr (Or.inl rfl), fun bad => absurd bad digit, by rw [if_neg digit]⟩
  · rw [if_neg low, List.foldl_cons, read_value (value_tens (n / 10 - 2) (by omega)) (any _)]
    by_cases round : n % 10 = 0
    · refine ⟨.tens, Or.inr (Or.inr rfl), fun bad => by omega, ?_⟩
      rw [if_pos round, List.foldl_nil, show 10 * (n / 10 - 2 + 2) = n by omega]
    · refine ⟨.unit, Or.inl rfl, fun bad => by omega, ?_⟩
      have value := value_unit (n % 10) (by omega)
      rw [if_pos (show n % 10 < 10 by omega)] at value
      rw [if_neg round, List.foldl_cons, List.foldl_nil, read_value value rfl]
      dsimp only
      rw [show s.cur + 10 * (n / 10 - 2 + 2) + n % 10 = s.cur + n by omega]

theorem read_below {s : Reading} {n : Nat} {form : List String} (h : Below n form)
    (fresh : s.last = .none ∨ s.last = .thousand) (cur : s.cur = 0) :
    ∃ last, last ≠ .none ∧ form.foldl Reading.read s = { s with cur := n, last } := by
  have fresh' : s.last = .none ∨ s.last = .hundred ∨ s.last = .thousand := by
    rcases fresh with h | h
    · exact Or.inl h
    · exact Or.inr (Or.inr h)
  have hundred : ∀ h < 10, (small h ++ ["hundred"]).foldl Reading.read s =
      { s with cur := 100 * h, last := .hundred } := by
    intro h lt
    obtain ⟨last, -, unit, eq⟩ := read_small (n := h) (by omega) fresh'
    rw [List.foldl_append, eq, unit lt, List.foldl_cons, List.foldl_nil, read_hundred (Or.inl rfl),
      cur]
    dsimp only
    rw [Nat.zero_add, Nat.mul_comm]
  cases h with
  | small pos lt =>
    obtain ⟨last, kind, -, eq⟩ := read_small lt fresh'
    refine ⟨last, ?_, by rw [eq, cur, Nat.zero_add]⟩
    rcases kind with rfl | rfl | rfl <;> decide
  | round pos lt => exact ⟨.hundred, by decide, hundred _ lt⟩
  | @hundreds h r link pos lt linked pos' lt' =>
    rw [List.foldl_append, List.foldl_append, hundred h lt, read_link linked (Or.inl rfl)]
    obtain ⟨last, kind, -, eq⟩ := read_small
      (s := { s with cur := 100 * h, last := .hundred }) lt' (Or.inr (Or.inl rfl))
    refine ⟨last, ?_, eq⟩
    rcases kind with rfl | rfl | rfl <;> decide

/-- A number in words is read as it, and nothing is flushed. -/
theorem read_written (out : Finset Nat) {n : Nat} {form : List String} (h : Written n form) :
    ∃ total cur last, last ≠ .none ∧ total + cur = n ∧
      form.foldl Reading.read { out } = ⟨out, total, cur, last⟩ := by
  cases h with
  | zero => exact ⟨0, 0, .unit, by decide, rfl, rfl⟩
  | below h =>
    obtain ⟨last, some_, eq⟩ := read_below h (s := { out }) (Or.inl rfl) rfl
    exact ⟨0, n, last, some_, Nat.zero_add n, eq⟩
  | @round k form h =>
    obtain ⟨last, some_, eq⟩ := read_below h (s := { out }) (Or.inl rfl) rfl
    refine ⟨1000 * k, 0, .thousand, by decide, rfl, ?_⟩
    rw [List.foldl_append, eq, List.foldl_cons, List.foldl_nil, read_thousand some_]
    dsimp only
    rw [Nat.zero_add, Nat.mul_comm]
  | @thousands k r form link rest h linked h' =>
    obtain ⟨last, some_, eq⟩ := read_below h (s := { out }) (Or.inl rfl) rfl
    have thousand : (form ++ ["thousand"]).foldl Reading.read { out } =
        ⟨out, 1000 * k, 0, .thousand⟩ := by
      rw [List.foldl_append, eq, List.foldl_cons, List.foldl_nil, read_thousand some_]
      dsimp only
      rw [Nat.zero_add, Nat.mul_comm]
    obtain ⟨last', some', eq'⟩ := read_below h' (s := ⟨out, 1000 * k, 0, .thousand⟩)
      (Or.inr rfl) rfl
    refine ⟨1000 * k, r, last', some', rfl, ?_⟩
    rw [List.foldl_append, List.foldl_append, thousand, read_link linked (Or.inr rfl), eq']

/-! ## Reading a text -/

/-- A word that is no number word ends the number, but for an `and` after hundred or thousand. -/
theorem read_plain {s : Reading} {tok : String} (h : Plain tok) :
    s.read tok = s.flush ∨ tok = "and" ∧ s.read tok = s := by
  obtain ⟨unit, tens, hundred, thousand⟩ := h
  have value : value? tok = none := by
    rw [value?, List.idxOf?_eq_none_iff.mpr unit, List.idxOf?_eq_none_iff.mpr tens]
    rfl
  unfold Reading.read
  by_cases skip : (tok = "and" && (s.last = .hundred || s.last = .thousand)) = true
  · rw [if_pos skip]
    rw [Bool.and_eq_true, decide_eq_true_eq] at skip
    exact Or.inr ⟨skip.1, rfl⟩
  · rw [if_neg skip, value]
    simp [hundred, thousand]

theorem flush_flushed (out : Finset Nat) : ({ out } : Reading).flush = { out } := rfl

theorem read_gap_clean {out : Finset Nat} {gap : List String} (h : ∀ tok ∈ gap, Plain tok) :
    gap.foldl Reading.read { out } = { out } := by
  induction gap with
  | nil => rfl
  | cons tok gap ih =>
    obtain ⟨plain, rest⟩ := List.forall_mem_cons.mp h
    rw [List.foldl_cons]
    rcases read_plain (s := { out }) plain with eq | ⟨-, eq⟩
    · rw [eq, flush_flushed]
      exact ih rest
    · rw [eq]
      exact ih rest

/-- The words after a number leave it, or end it; another word than `and` ends it. -/
theorem read_gap {s : Reading} {gap : List String} (h : ∀ tok ∈ gap, Plain tok) :
    gap.foldl Reading.read s = s.flush ∨
      (∀ tok ∈ gap, tok = "and") ∧ gap.foldl Reading.read s = s := by
  induction gap with
  | nil => exact Or.inr ⟨nofun, rfl⟩
  | cons tok gap ih =>
    obtain ⟨plain, rest⟩ := List.forall_mem_cons.mp h
    rw [List.foldl_cons]
    rcases read_plain (s := s) plain with eq | ⟨same, eq⟩
    · rw [eq]
      exact Or.inl (read_gap_clean rest)
    · rw [eq]
      rcases ih rest with ended | ⟨all, kept⟩
      · exact Or.inl ended
      · exact Or.inr ⟨List.forall_mem_cons.mpr ⟨same, all⟩, kept⟩

theorem plain_nil : Plain "" := by
  refine ⟨?_, ?_, ?_, ?_⟩ <;> decide

theorem read_end (s : Reading) : s.read "" = s.flush := by
  rcases read_plain (s := s) plain_nil with eq | ⟨bad, -⟩
  · exact eq
  · exact absurd bad (by decide)

theorem flush_out {s : Reading} (h : s.last ≠ .none) :
    s.flush = { out := insert (s.total + s.cur) s.out } := by
  rw [Reading.flush, if_pos h]

theorem read_told {ws : List String} {ns : List Nat} (h : Told ws ns) (out : Finset Nat) :
    (ws ++ [""]).foldl Reading.read { out } = { out := out ∪ ns.toFinset } := by
  induction h generalizing out with
  | @last n form gap written plain =>
    obtain ⟨total, cur, last, some_, sum, eq⟩ := read_written out written
    rw [List.append_assoc, List.foldl_append, eq, List.foldl_append, List.foldl_cons,
      List.foldl_nil, read_end]
    have flushed : (⟨out, total, cur, last⟩ : Reading).flush = { out := out ∪ [n].toFinset } := by
      rw [flush_out some_, sum, Finset.union_comm]
      rfl
    rcases read_gap (s := ⟨out, total, cur, last⟩) plain with ended | ⟨-, kept⟩
    · rw [ended, flushed, flush_flushed]
    · rw [kept, flushed]
  | @next n form gap rest ns written plain other _ ih =>
    obtain ⟨total, cur, last, some_, sum, eq⟩ := read_written out written
    have ended : gap.foldl Reading.read ⟨out, total, cur, last⟩ = { out := insert n out } := by
      rcases read_gap (s := ⟨out, total, cur, last⟩) plain with ended | ⟨all, -⟩
      · rw [ended, flush_out some_, sum]
      · obtain ⟨tok, mem, ne⟩ := other
        exact absurd (all tok mem) ne
    rw [List.append_assoc, List.append_assoc, List.foldl_append, eq, List.foldl_append, ended,
      ih, List.toFinset_cons, Finset.insert_union, Finset.union_insert]

theorem read_spoken {ws : List String} {ns : List Nat} (h : Spoken ws ns) :
    (ws ++ [""]).foldl Reading.read {} = { out := ns.toFinset } := by
  cases h with
  | nothing plain =>
    rw [List.foldl_append, read_gap_clean plain]
    rfl
  | told plain told =>
    rw [List.append_assoc, List.foldl_append, read_gap_clean plain, read_told told,
      Finset.empty_union]

/-! ## Texts -/

/-- What is documented of `str.casefold`: it folds each character, and ASCII to lower case. -/
structure Folds (u : Unicode) : Prop where
  append : ∀ a b, u.casefold (a ++ b) = u.casefold a ++ u.casefold b
  ascii : ∀ c : Char, c.toNat < 128 → u.casefold [c] = [Text.lowerChar c]

def Letterless (u : Unicode) (text : List Char) : Prop :=
  ∀ c ∈ u.casefold text, Text.isLower c = false

def isLetter (c : Char) : Bool := Text.isLower c || Text.isUpper c

/-- A text of words, each in any letter case, and of what separates them: spaces, hyphens and all
that is no letter. -/
inductive Layout (u : Unicode) : List Char → List String → Prop
  | done {sep : List Char} : Letterless u sep → Layout u sep []
  | word {sep w rest : List Char} {ws : List String} : Letterless u sep → w ≠ [] →
      (∀ c ∈ w, isLetter c = true) → (∀ c ∈ (u.casefold rest).head?, Text.isLower c = false) →
      Layout u rest ws →
      Layout u (sep ++ w ++ rest) (String.ofList (w.map Text.lowerChar) :: ws)

theorem lower_of_letter {c : Char} (h : isLetter c = true) :
    c.toNat < 128 ∧ Text.isLower (Text.lowerChar c) = true := by
  unfold isLetter Text.isLower Text.isUpper at h
  simp only [Bool.or_eq_true, Bool.and_eq_true, decide_eq_true_eq] at h
  refine ⟨by omega, ?_⟩
  unfold Text.lowerChar Text.isUpper Text.isLower
  split
  · rename_i upper
    simp only [Bool.and_eq_true, decide_eq_true_eq] at upper ⊢
    have valid : (c.toNat + 32).isValidChar := Or.inl (by omega)
    rw [Char.ofNat, dif_pos valid]
    show 97 ≤ (c.toNat + 32) ∧ (c.toNat + 32) ≤ 122
    omega
  · rename_i lower
    simp only [Bool.and_eq_true, decide_eq_true_eq] at lower ⊢
    omega

theorem casefold_letters {u : Unicode} (folds : Folds u) {w : List Char}
    (h : ∀ c ∈ w, isLetter c = true) : u.casefold w = w.map Text.lowerChar := by
  induction w with
  | nil =>
    have twice := folds.append [] []
    rw [List.append_nil] at twice
    simpa using twice
  | cons c w ih =>
    obtain ⟨head, tail⟩ := List.forall_mem_cons.mp h
    rw [← List.singleton_append, folds.append, folds.ascii c (lower_of_letter head).1, ih tail]
    rfl

theorem letterWords_cons {c : Char} (h : Text.isLower c = false) (text : List Char) :
    letterWords (c :: text) = letterWords text := by
  unfold letterWords
  have outside : ∀ d ∈ ([] : List Char), (!Text.isLower d) = false := nofun
  have first := List.splitOnP_append_cons_of_forall_mem outside c (by rw [h]; rfl) text
  rw [List.nil_append] at first
  rw [first, List.filter_cons_of_neg (by simp)]

theorem letterWords_separator {sep : List Char} (h : ∀ c ∈ sep, Text.isLower c = false)
    (text : List Char) : letterWords (sep ++ text) = letterWords text := by
  induction sep with
  | nil => rfl
  | cons c sep ih =>
    obtain ⟨head, tail⟩ := List.forall_mem_cons.mp h
    rw [List.cons_append, letterWords_cons head, ih tail]

theorem letterWords_word {w : List Char} (some_ : w ≠ []) (h : ∀ c ∈ w, Text.isLower c = true)
    {text : List Char} (stop : ∀ c ∈ text.head?, Text.isLower c = false) :
    letterWords (w ++ text) = String.ofList w :: letterWords text := by
  have inside : ∀ c ∈ w, (!Text.isLower c) = false := fun c mem => by rw [h c mem]; rfl
  cases text with
  | nil =>
    rw [List.append_nil]
    unfold letterWords
    rw [List.splitOnP_eq_singleton inside]
    simp [some_]
  | cons c text =>
    have out := stop c rfl
    rw [letterWords_cons out]
    unfold letterWords
    rw [List.splitOnP_append_cons_of_forall_mem inside c (by rw [out]; rfl),
      List.filter_cons_of_pos (by simp [some_]), List.map_cons]

theorem letterWords_layout {u : Unicode} (folds : Folds u) {text : List Char} {ws : List String}
    (h : Layout u text ws) : letterWords (u.casefold text) = ws := by
  induction h with
  | @done sep letterless =>
    have none_ := letterWords_separator letterless []
    rw [List.append_nil] at none_
    exact none_
  | @word sep w rest ws letterless some_ letters stop _ ih =>
    have lower : ∀ c ∈ w.map Text.lowerChar, Text.isLower c = true := by
      intro c mem
      obtain ⟨c', mem', rfl⟩ := List.mem_map.mp mem
      exact (lower_of_letter (letters c' mem')).2
    rw [folds.append, folds.append, casefold_letters folds letters, List.append_assoc,
      letterWords_separator letterless, letterWords_word (by simpa using some_) lower stop, ih]

/-! ## The law -/

theorem checkFacts_ne {said : String → List Char → Bool} {heard : List Char} {keys : List String}
    {facts : List Fact} {price : Rat} :
    checkFacts said heard keys facts ≠ .error (.priceNotSaid price) := by
  induction facts with
  | nil => nofun
  | cons fact facts ih =>
    unfold checkFacts
    split
    · nofun
    · split
      · nofun
      · exact ih

theorem checkRest_ne {said : String → List Char → Bool} {act : EarAct} {heard : List Char}
    {offers keys : List String} {price : Rat} :
    checkRest said act heard offers keys ≠ .error (.priceNotSaid price) := by
  unfold checkRest
  split
  · nofun
  · split
    · nofun
    · exact checkFacts_ne

/-- A price is refused as not said just if the checks before it pass and it is not in what was
heard. -/
theorem price_refused {u : Unicode} {said : String → List Char → Bool} {act : EarAct}
    {heard : List Char} {offers keys : List String} {price : Rat} (h : act.priceUsd = some price) :
    checkOne u said act heard offers keys = .error (.priceNotSaid price) ↔
      checkRest said act heard offers keys = .ok () ∧ priceSaid u heard price = false := by
  have rest : checkRest said act heard offers keys ≠ .error (.priceNotSaid price) := checkRest_ne
  unfold checkOne
  rw [h]
  cases hr : checkRest said act heard offers keys with
  | error e =>
    rw [hr] at rest
    exact ⟨fun bad => absurd bad rest, nofun⟩
  | ok =>
    simp only [bind, Except.bind]
    cases priceSaid u heard price with
    | false => simp
    | true => simp

/-- A text that says numbers in words, with another word between any two of them, is read as those
numbers, and of the prices that are not in digits the check lets through just these; its words are
those it is written in, in any letter case. -/
theorem spoken_numbers (u : Unicode) :
    (∀ text ns, Spoken (letterWords (u.casefold text)) ns →
      (∀ n, n ∈ wordNumbers u text ↔ n ∈ ns) ∧
      ∀ said act offers keys price, act.priceUsd = some price →
        (checkOne u said act text offers keys = .error (.priceNotSaid price) ↔
          checkRest said act text offers keys = .ok () ∧ price ∉ Text.numbers text ∧
            ∀ n ∈ ns, price ≠ (n : Rat))) ∧
    (Folds u → ∀ text ws, Layout u text ws → letterWords (u.casefold text) = ws) := by
  refine ⟨fun text ns spoken => ?_, fun folds text ws layout => letterWords_layout folds layout⟩
  have read : ∀ n, n ∈ wordNumbers u text ↔ n ∈ ns := by
    intro n
    rw [wordNumbers, read_spoken spoken, List.mem_toFinset]
  refine ⟨read, fun said act offers keys price stated => ?_⟩
  rw [price_refused stated, priceSaid]
  simp [read]

/-- `str.casefold` of ASCII. -/
def asciiFold : Unicode where
  alnum _ := false
  lower := List.map Text.lowerChar
  casefold := List.map Text.lowerChar
  nfkc text := text

theorem folds_asciiFold : Folds asciiFold where
  append _ _ := List.map_append
  ascii _ _ := rfl

/-- "Twenty-One, or two HUNDRED and five" -/
def twoPrices : List Char := "Twenty-One, or two HUNDRED and five".toList

/-- The conditions on one more word, computed. -/
theorem Layout.next {u : Unicode} (sep w : List Char) {rest : List Char} {ws : List String}
    (layout : Layout u rest ws) (letterless : (u.casefold sep).all (!Text.isLower ·) = true)
    (some_ : w ≠ []) (letters : w.all isLetter = true)
    (stop : (u.casefold rest).head?.all (!Text.isLower ·) = true) :
    Layout u (sep ++ w ++ rest) (String.ofList (w.map Text.lowerChar) :: ws) := by
  refine .word (fun c mem => ?_) some_ (List.all_eq_true.mp letters) (fun c mem => ?_) layout
  · have other := List.all_eq_true.mp letterless c mem
    simpa using other
  · rw [Option.mem_def.mp mem] at stop
    simpa using stop

theorem twoPrices_layout :
    Layout asciiFold twoPrices ["twenty", "one", "or", "two", "hundred", "and", "five"] := by
  have done : Layout asciiFold [] [] := .done nofun
  have five := done.next " ".toList "five".toList rfl nofun rfl rfl
  have and := five.next " ".toList "and".toList rfl nofun rfl rfl
  have hundred := and.next " ".toList "HUNDRED".toList rfl nofun rfl rfl
  have two := hundred.next " ".toList "two".toList rfl nofun rfl rfl
  have or := two.next ", ".toList "or".toList rfl nofun rfl rfl
  have one := or.next "-".toList "One".toList rfl nofun rfl rfl
  exact one.next [] "Twenty".toList rfl nofun rfl rfl

theorem spoken_numbers_two : ∀ n, n ∈ wordNumbers asciiFold twoPrices ↔ n ∈ [21, 205] := by
  refine ((spoken_numbers asciiFold).1 twoPrices [21, 205] ?_).1
  rw [(spoken_numbers asciiFold).2 folds_asciiFold twoPrices _ twoPrices_layout]
  have other : ∀ tok ∈ ["or"], Plain tok := by
    simp [Plain, UNITS, TENS]
  have first : Written 21 ["twenty", "one"] := .below (.small (by decide) (by decide))
  have second : Written 205 ["two", "hundred", "and", "five"] :=
    .below (.hundreds (h := 2) (r := 5) (by decide) (by decide) .and (by decide) (by decide))
  have nothing : ∀ tok ∈ ([] : List String), Plain tok := nofun
  exact .told nothing (.next first other ⟨_, List.mem_singleton_self _, by decide⟩
    (.last second nothing))

end ProxyLoop.Ear

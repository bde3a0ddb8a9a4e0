import ProxyLoop.Contract.Text

/-!
# Negation scope

Whether a sentence denies that there are fees, changes or an expiry: one rule over closed word
classes.  A bad tail voids the whole sentence; a role is denied only if every role word is negated.
-/

namespace ProxyLoop.Negation

open Lib (Regex)
open Text (word char digit space spaces)

inductive Role
  | fees | changes | expires
  deriving DecidableEq, Repr

/-! ## Word classes -/

def roleWords : Role → List String
  | .fees => ["fee", "fees", "charge", "charges", "cost", "costs"]
  | .changes => ["change", "changes"]
  | .expires => ["expiry", "expiration", "deadline", "expire", "expires"]

def anyRoleWord : List String := roleWords .fees ++ roleWords .changes ++ roleWords .expires

def openers : List String := ["no", "without", "none", "nothing"]

def exists_ : List String :=
  ["be", "is", "are", "was", "have", "has", "come", "comes", "apply", "applies", "carry", "carries"]

def self : List String := ["expire", "expires", "change", "changes"]

def articles : List String := ["a", "an", "any"]

def joiners : List String := [",", ";", "or", "and", "nor"]

def expiryHeads : List String := ["date", "period"]

def same : List String := ["stays", "remains"]

def kinds : List String :=
  ["fee", "fees", "charge", "charges", "cost", "costs", "price", "rate", "bill", "payment",
    "contract", "term"]

def subjects : List String :=
  ["the", "a", "an", "this", "that", "these", "those", "your", "my", "our", "their", "his", "her",
    "its", "i", "you", "we", "they", "it", "he", "she", "there"]

def prepositions : List String := ["to", "on", "for", "with", "in", "of", "at"]

def targets : List String :=
  ["plan", "plans", "account", "service", "services", "offer", "package"]

def hedges : List String :=
  ["not", "never", "maybe", "might", "perhaps", "probably", "think", "guess", "believe"]

def times : List String :=
  ["day", "days", "week", "weeks", "month", "months", "year", "years", "hour", "hours", "today",
    "now", "yet", "soon", "tomorrow"]

def conditions : List String :=
  ["if", "while", "as", "provided", "assuming", "when", "once", "unless"]

def restrictions : List String :=
  ["only", "just", "exception", "save", "minus", "except", "excluding", "besides", "apart",
    "aside", "than"]

def bounds : List String :=
  ["after", "until", "till", "before", "through", "during", "within", "beyond"]

def qualifiers : List String := times ++ conditions ++ restrictions ++ bounds

def numberWords : List String :=
  ["zero", "one", "two", "three", "four", "five", "six", "seven", "eight", "nine", "ten", "eleven",
    "twelve", "thirteen", "fourteen", "fifteen", "sixteen", "seventeen", "eighteen", "nineteen",
    "twenty", "thirty", "forty", "fifty", "sixty", "seventy", "eighty", "ninety", "hundred",
    "thousand"]

def continuers : List String :=
  ["except", "apart", "aside", "besides", "beyond", "other", "only", "just", "save", "minus",
    "excluding", "unless", "well"]

def maxModifiers : Nat := 3

def bridgeMax : Nat := 4

/-! ## Tokens -/

structure Tok where
  text : String
  start : Nat
  stop : Nat
  deriving DecidableEq, Repr

def letter : Regex Char := .set Text.isLower

def token : Regex Char :=
  .any [.all [.opt (char '$'), digit, .star (.set fun c => Text.isDecimal c || c = ',' || c = '.' || c = ':'),
      digit],
    .seq (.opt (char '$')) digit,
    .seq (.plus letter) (.star (.seq (.set fun c => c = '\'' || c = '-') (.plus letter))),
    .set fun c => c = ',' || c = ';' || c = ':' || c = '?' || c = '!']

/-- `_AMOUNT.fullmatch`: a number, a money word. -/
def isAmount (w : String) : Bool :=
  (Regex.any [.all [.opt (char '$'), digit, .star (.set (· ≠ '\n'))],
    .seq (word "dollar") (.opt (char 's')), .seq (word "cent") (.opt (char 's'))]).fullmatch w.toList

def monthNames : Regex Char :=
  .seq (.any [word "january", word "february", word "march", word "april", word "may", word "june",
      word "july", word "august", word "september", word "october", word "november",
      word "december", word "jan", word "feb", word "mar", word "apr", word "jun", word "jul",
      word "aug", .seq (word "sep") (.opt (char 't')), word "oct", word "nov", word "dec"])
    (.opt (char '.'))

def ordinal : Regex Char := .any [word "st", word "nd", word "rd", word "th"]

section unicode

variable (u : Unicode)

def boundary : Regex Char := .boundary (Text.isWord u)

/-- `_DATE`: a date is one plain word. -/
def date : Regex Char :=
  .any [.all [boundary u, monthNames, .plus space, .between digit 1 2, .opt ordinal, boundary u,
      .opt (.all [.opt (char ','), .plus space, .times digit 4, boundary u])],
    .all [boundary u, .between digit 1 2, ordinal, boundary u],
    .all [boundary u, .times digit 4, char '-', .times digit 2, char '-', .times digit 2, boundary u]]

/-- `text.replace("\u2019", "'")` -/
def plainQuotes (text : List Char) : List Char := text.map fun c => if c = '’' then '\'' else c

/-- `_tokens`: lower-cased tokens, with `n't` its own `not`. -/
def tokens (sentence : List Char) : List Tok :=
  let text := Regex.sub (date u) (fun m => List.replicate m.text.length 'd') (u.lower sentence)
  (token.finditer (plainQuotes text)).flatMap fun m =>
    let w := String.ofList m.text
    let stem := if w = "won't" then "will" else if w = "can't" || w = "cannot" then "can"
      else String.ofList (m.text.take (m.text.length - 3))
    if w = "cannot" || "n't".toList.isSuffixOf m.text then
      [⟨stem, m.start, m.stop⟩, ⟨"not", m.start, m.stop⟩]
    else [⟨w, m.start, m.stop⟩]

/-- The sentence opens with one of `CONTINUERS`. -/
def continues (sentence : List Char) : Bool :=
  ((tokens u sentence).take 1).any fun t => continuers.contains t.text

end unicode

/-! ## Statements -/

/-- A word that may sit in a tail: no qualifier, hedge, amount or mark. -/
def plain (w : String) : Bool :=
  !(qualifiers.contains w || hedges.contains w || joiners.contains w || openers.contains w ||
    [";", ":", "!", "?"].contains w) && !isAmount w

def modifier (w : String) : Bool := plain w && !subjects.contains w && !prepositions.contains w

section toks

variable (toks : List Tok)

def textAt (k : Nat) : String := ((toks[k]?).map Tok.text).getD ""

/-- The texts of `toks[i:i + n]`. -/
def texts (i n : Nat) : List String := ((toks.drop i).take n).map Tok.text

/-- `_head`: the item's role word, if it heads the item. -/
def head (item : List Nat) (role : Role) : Option Nat :=
  match item.reverse with
  | last :: before =>
    if (roleWords role).contains (textAt toks last) then some last
    else match before with
      | k :: _ =>
        if role = .expires && (roleWords role).contains (textAt toks k) &&
            expiryHeads.contains (textAt toks last) then some k
        else none
      | [] => none
  | [] => none

/-- `_phrases`: past the clean prepositional phrases at `k`; none for a bad one. -/
def phrases : Nat → Nat → Option Nat
  | 0, k => some k
  | fuel + 1, k =>
    if prepositions.contains (textAt toks k) then
      let rest := texts toks (k + 1) (1 + maxModifiers)
      match rest.findIdx? targets.contains with
      | none => none
      | some stop =>
        if (rest.take stop).all fun w => modifier w || subjects.contains w then
          phrases fuel (k + stop + 2)
        else none
    else some k

/-- `_same`: the last token of "everything (else) stays/remains the same". -/
def sameAt (i : Nat) : Option Nat :=
  let w := texts toks i 5
  let j := if w[1]? = some "else" then 2 else 1
  if w[0]? = some "everything" && (w.drop (j + 1)).take 2 = ["the", "same"] &&
      same.contains ((w[j]?).getD "") then some (i + j + 2)
  else none

def opens (i : Nat) : Bool :=
  openers.contains (textAt toks i) ||
  textAt toks i = "not" &&
    (exists_.contains (textAt toks (i + 1)) || self.contains (textAt toks (i + 1))) ||
  (sameAt toks i).isSome

/-- The modifiers from `k` on, at most one more than `MAX_MODIFIERS`. -/
def item (k : Nat) : List Nat :=
  (List.range' k (maxModifiers + 1)).takeWhile fun j => j < toks.length && modifier (textAt toks j)

def skipWhile (p : String → Bool) (k : Nat) : Nat :=
  k + ((toks.drop k).takeWhile fun t => p t.text).length

/-- The items of a statement's list: the heads they negate, and where the list ends. -/
def items (role : Role) : Nat → Bool → Nat → List (Nat × Nat) → List (Nat × Nat) × Option Nat
  | 0, _, _, heads => (heads, none)
  | fuel + 1, first, k, heads =>
    let mine := item toks k
    let k := k + mine.length
    let negated := head toks mine role
    let named := [Role.fees, .changes, .expires].any fun r => (head toks mine r).isSome
    let ofKind := role = .changes && negated.isSome &&
      (mine.dropLast.any fun m => kinds.contains (textAt toks m))
    if mine.isEmpty || ofKind || !(first || named) then (heads, none)
    else
      let heads := heads ++ (negated.map fun h => (h, h)).toList
      let k := if texts toks k 2 = ["at", "all"] then k + 2 else k
      let j := skipWhile toks (fun w => joiners.contains w && w ≠ "and") k
      if j = k || toks.length ≤ j || !modifier (textAt toks j) then (heads, some k)
      else items role fuel false j heads

/-- `_statement`: the role words statement `i` negates (first: last token) and where its list ends. -/
def statement (i : Nat) (role : Role) : List (Nat × Nat) × Option Nat :=
  match sameAt toks i with
  | some last => (if role = .changes then [(i, last)] else [], some (last + 1))
  | none =>
    let w := textAt toks i
    if w = "not" && self.contains (textAt toks (i + 1)) then
      (if role = .expires && (roleWords role).contains (textAt toks (i + 1)) then [(i + 1, i + 1)]
        else [], some (i + 2))
    else
      let k := if openers.contains w then i + 1 else i + 2
      let k := if w = "not" && articles.contains (textAt toks k) then k + 1 else k
      items toks role (toks.length + 1) true k []

/-- Every part of a hyphenated word is a number word. -/
def inNumberWords (w : String) : Bool :=
  (Regex.split (char '-') w.toList).all fun p => numberWords.contains (String.ofList p)

/-- A clause on another term: it names a role word, and has no qualifier, amount or, for expiry,
date. -/
def otherTerm (j : Nat) (role : Role) : Bool :=
  let rest := (toks.drop j).map Tok.text
  rest.any anyRoleWord.contains && !rest.any qualifiers.contains &&
    !(rest.any fun w => isAmount w || inNumberWords w) &&
    !(role = .expires && rest.any fun w => w.toList.all (· = 'd') && w ≠ "")

/-- The next statement of the bridge from `j`, within `n` plain words. -/
def bridge : Nat → Nat → Option Nat
  | 0, _ => none
  | n + 1, j =>
    if toks.length ≤ j then none
    else if opens toks j then some j
    else if plain (textAt toks j) then bridge n (j + 1)
    else none

/-- `_next`: after a list ending at `k`, the next statement or the end; none if it is not clean. -/
def next (k? : Option Nat) (role : Role) : Option Nat :=
  match k? with
  | none => none
  | some k =>
    if (toks.drop k).all fun t => t.text = "!" then some toks.length
    else
      let j := skipWhile toks joiners.contains k
      if j = k || toks.length ≤ j then none
      else match bridge toks (bridgeMax + 1) j with
        | some n => some n
        | none => if otherTerm toks j role then some toks.length else none

/-- The statements from `i` on: the heads they negate, and whether a bad tail voids them. -/
def statements (role : Role) : Nat → Nat → List (Nat × Nat) → List (Nat × Nat) × Bool
  | 0, _, good => (good, false)
  | fuel + 1, i, good =>
    if toks.length ≤ i then (good, false)
    else
      let (heads, k?) := statement toks i role
      match next toks (k?.bind (phrases toks toks.length)) role with
      | none => (good ++ heads, true)
      | some i => statements role fuel i (good ++ heads)

end toks

/-- `_timed`: the sentence opens with a time phrase. -/
def timed (before : List String) : Bool :=
  let lead := before.takeWhile (· ≠ ",")
  lead.any (fun w => times.contains w || isAmount w) &&
    match lead with
    | w :: _ => prepositions.contains w || w = "this" || w = "next"
    | [] => false

/-! ## Hits -/

inductive HitState
  | negated | void | plain
  deriving DecidableEq, Repr

/-- A role word: its span in the sentence and how the sentence states it. -/
structure Hit where
  start : Nat
  stop : Nat
  state : HitState
  deriving DecidableEq, Repr

/-- The words before the first statement; a `just` before an amount is no restriction. -/
def leads : List String → List String
  | [] => []
  | w :: rest => (if w = "just" && isAmount (rest.headD "") then [] else [w]) ++ leads rest

/-- The sentence's lead, or its being a question, voids its statements. -/
def voided (sentence : List Char) (before : List String) : Bool :=
  (Text.rstrip sentence).getLast? = some '?' ||
  ((leads before).any fun w => hedges.contains w || conditions.contains w ||
    restrictions.contains w || bounds.contains w) ||
  timed before

/-- `scan`: every role word of the sentence, with how it is stated. -/
def scan (u : Unicode) (sentence : List Char) (role : Role) : List Hit :=
  let toks := tokens u sentence
  let words := toks.map Tok.text
  let i := ((List.range toks.length).find? (opens toks)).getD toks.length
  let (heads, bad) := statements toks role (toks.length + 1) i []
  let void := voided sentence (words.take i) || role = .changes &&
    (List.range toks.length).any fun k => textAt toks k = "everything" &&
      (words.drop k).contains "same" && (sameAt toks k).isNone
  (List.range toks.length).filterMap fun k =>
    match heads.reverse.find? (·.1 = k) with
    | some (_, last) =>
      some ⟨(toks[k]?.map Tok.start).getD 0, (toks[last]?.map Tok.stop).getD 0,
        if void || bad then .void else .negated⟩
    | none =>
      if (roleWords role).contains (textAt toks k) then
        some ⟨(toks[k]?.map Tok.start).getD 0, (toks[k]?.map Tok.stop).getD 0, .plain⟩
      else none

/-- `denied`: the sentence states that no `role` exists. -/
def denied (u : Unicode) (sentence : List Char) (role : Role) : Bool :=
  let hits := scan u sentence role
  !hits.isEmpty && hits.all (·.state = .negated)

end ProxyLoop.Negation

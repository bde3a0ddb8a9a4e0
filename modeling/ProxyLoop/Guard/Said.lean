import Mathlib.Data.Finset.Image
import Mathlib.Data.Finset.SDiff
import ProxyLoop.Contract.State
import ProxyLoop.Guard.Negation

/-!
# What a rep line states

Lexical and conservative: a rep line splits into clauses, and a clause states a value for a field
only through that field's role cue.  The fields that deny something are read a sentence at a time.
The interpreter's limit on the digits of one number is left out.
-/

namespace ProxyLoop.Said

open Lib (Regex Dict)
open Text (word anyCase char digit space spaces digits)
open Negation (boundary plainQuotes)

/-! ## The lexicon -/

inductive Cue
  | recurring | oneTime | fee | credit | change | expiry
  deriving DecidableEq, Repr

/-- The cues of `LEXICON`. -/
def cues : Cue → List String
  | .recurring =>
    ["per month", "a month", "/mo", "/month", "monthly", "each month", "every month",
      "month to month"]
  | .oneTime => ["one-time", "one time", "activation", "upfront", "setup", "installation"]
  | .fee => ["fee", "fees", "charge"]
  | .credit => ["credit", "credits", "rebate"]
  | .change =>
    ["switch", "switching", "change your", "changing your", "upgrade", "upgrading", "downgrade",
      "move you", "moving you", "adding", "remove", "removing", "replace", "replacing"]
  | .expiry =>
    ["expire", "expires", "valid until", "good until", "valid for", "good for", "available until"]

def negationCues : List String :=
  ["no", "not", "without", "waived", "waive", "waiving", "isn't", "doesn't", "won't", "cannot",
    "can't", "don't", "never"]

/-- Words that are not a fee's code. -/
def genericFee : List String :=
  ["a", "an", "the", "one-time", "one", "time", "upfront", "additional", "extra", "any", "no",
    "this", "that", "total", "flat", "small", "monthly", "is", "of"]

def roleOf : String → Option SlotRole
  | "monthly_price" | "term_months" => some .recurring
  | "fee" | "fees_none" => some .oneTime
  | "credit" => some .credit
  | "applied_change" | "changes_none" => some .change
  | "feature" => some .feature
  | "expires" => some .expiry
  | _ => none

/-- A spoken expiry that names no calendar day. -/
def undated : String := "date?"

def isLetter (c : Char) : Bool := Text.isLower c

/-- `_WORD` -/
def wordRegex : Regex Char := .plus (.set fun c => isLetter c || c = '\'' || c = '-')

def wordsOf (text : List Char) : List String := (wordRegex.findall text).map String.ofList

section unicode

variable (u : Unicode)

/-- `has_cue`, of a kind whose cues are plain texts. -/
def hasCue (text : List Char) (kind : Cue) : Bool :=
  (Regex.all [.notBehind isLetter, .any ((cues kind).map word),
    .notAhead (.set isLetter)]).search (plainQuotes (u.lower text))

/-! ## Clauses -/

/-- `_SPLIT` -/
def splitRegex : Regex Char :=
  .any [.set fun c => c = ';' || c = '!' || c = '?',
    .seq (char '.') (.notAhead digit),
    .seq (char ',') (.notAhead (.times digit 3)),
    .all [boundary u,
      .any [.seq (anyCase "and") (.notAhead (.all [.plus space, .between digit 1 2, spaces,
        anyCase "cent", .opt (anyCase "s")])), anyCase "but", anyCase "plus", anyCase "with"],
      boundary u]]

/-- A part of a text: where it starts and stops, and what it reads. -/
structure Part where
  start : Nat
  stop : Nat
  text : List Char

def partsFrom (text : List Char) : Nat → List (Regex.Match Char) → List Part
  | start, [] => [⟨start, text.length, text.drop start⟩]
  | start, m :: ms => ⟨start, m.start, (text.take m.start).drop start⟩ :: partsFrom text m.stop ms

def clauses (text : List Char) : List Part := partsFrom text 0 ((splitRegex u).finditer text)

/-! ## Amounts -/

/-- `_stops`: another field's role noun, with no "or" or "nor" after it. -/
def stops : List String → Bool
  | [] => false
  | w :: rest =>
    Negation.anyRoleWord.contains w && !(rest.contains "or" || rest.contains "nor") || stops rest

/-- Some negation cue reaches across what stands after it. -/
def reaches (months : Bool) : List String → Bool
  | [] => false
  | w :: rest => negationCues.contains w && !(months && stops rest) || reaches months rest

/-- `_negated`: a negation cue within 4 tokens of the value. -/
def negated (clause : List Char) (start stop : Nat) (months : Bool) : Bool :=
  let before := wordsOf (clause.take start)
  reaches months (before.drop (before.length - 4)) ||
    ((wordsOf (clause.drop stop)).take 4).any negationCues.contains

/-- `_MONEY`: dollars and cents (1, 2), `$` (3), two decimals (4), dollars (5). -/
def money : Regex Char :=
  .any [.all [.group 1 digits, spaces, anyCase "dollar", .opt (anyCase "s"), .plus space,
      .opt (.seq (anyCase "and") (.plus space)), .group 2 (.between digit 1 2), spaces,
      anyCase "cent", .opt (anyCase "s"), boundary u],
    .all [char '$', .opt space, .group 3 Text.number],
    .all [.group 4 (.all [digits, char '.', digit, digit]), boundary u],
    .all [.group 5 Text.number, spaces, anyCase "dollar", .opt (anyCase "s"), boundary u]]

def monthsRegex : Regex Char :=
  .all [.group 1 digits, spaces, .opt (char '-'), spaces, anyCase "month", .opt (anyCase "s"),
    boundary u]

/-- A multiple of `scale`, rounded half to even. -/
def roundTo (scale n : Nat) : Nat :=
  let q := n / scale
  let r := n % scale
  if scale < 2 * r || 2 * r = scale && q % 2 = 1 then (q + 1) * scale else q * scale

/-- `int(Decimal(text) * 100)`: the product has 28 significant digits. -/
def minorOf (text : List Char) : Nat :=
  let fraction := (text.dropWhile (· ≠ '.')).drop 1
  let n := Text.natOf (text.takeWhile (· ≠ '.') ++ fraction) * 100
  roundTo (10 ^ ((toString n).length - 28)) n / 10 ^ fraction.length

/-- The amount a match of `_MONEY` is, in minor units. -/
def amountOf (m : Regex.Match Char) : Nat :=
  match m.group? 1 with
  | some dollars => Text.natOf dollars * 100 + Text.natOf ((m.group? 2).getD [])
  | none => minorOf ((((m.group? 3).or (m.group? 4)).or (m.group? 5)).getD [])

/-- `_amounts(clause, False)`: the amounts in a clause, in minor units; a negated one is "none". -/
def amounts (clause : List Char) : Finset String :=
  (((money u).finditer clause).map fun m =>
    if negated clause m.start m.stop false then "none" else toString (amountOf m)).toFinset

/-- `_amounts(clause, True)`: the months in a clause. -/
def monthCounts (clause : List Char) : Finset String :=
  (((monthsRegex u).finditer clause).map fun m =>
    if negated clause m.start m.stop true then "none"
    else String.ofList ((m.group? 1).getD [])).toFinset

def roles (clause : List Char) : List SlotRole :=
  let recurring := hasCue u clause .recurring
  let oneTime := hasCue u clause .oneTime || hasCue u clause .fee && !recurring
  (if recurring then [.recurring] else []) ++ (if oneTime then [.oneTime] else []) ++
    if hasCue u clause .credit then [.credit] else []

/-! ## Dates -/

def monthNames : List String :=
  ["jan", "feb", "mar", "apr", "may", "jun", "jul", "aug", "sep", "oct", "nov", "dec"]

def monthName (i : Nat) : Regex Char :=
  .all [.group i (.any (monthNames.map word)), .star (.set isLetter), .opt (char '.')]

/-- `_DATE`: an ISO day (1), a month and a day (2, 3), a day and a month (4, 5). -/
def date : Regex Char :=
  .any [.group 1 (.all [.times digit 4, char '-', .times digit 2, char '-', .times digit 2]),
    .all [monthName 2, .plus space, .group 3 (.between digit 1 2), .opt Negation.ordinal, boundary u],
    .all [boundary u, .group 4 (.between digit 1 2), .opt Negation.ordinal, .plus space,
      .opt (.seq (word "of") (.plus space)), monthName 5]]

/-- `f"{n:02d}"` -/
def padded (n : Nat) : String := if n < 10 then "0" ++ toString n else toString n

/-- The calendar day of a match, `MM-DD`. -/
def dayOf (m : Regex.Match Char) : String :=
  match m.group? 1 with
  | some iso => String.ofList (iso.drop 5)
  | none =>
    let month := String.ofList (((m.group? 2).or (m.group? 5)).getD [])
    padded (monthNames.idxOf month + 1) ++ "-" ++
      padded (Text.natOf (((m.group? 3).or (m.group? 4)).getD []))

/-- `_date`: the one calendar day a clause names. -/
def dateOf (clause : List Char) : String :=
  match (((date u).finditer clause).map dayOf).dedup with
  | [day] => day
  | _ => undated

/-! ## Names -/

/-- `str.split()` -/
def splitSpace (text : List Char) : List (List Char) :=
  (Regex.plus (.set fun c => !Text.isSpace c)).findall text

def qualified : Regex Char :=
  .all [.group 1 (.between (.seq wordRegex (.plus space)) 0 2),
    .any [.seq (word "fee") (.opt (char 's')), .seq (word "charge") (.opt (char 's')),
      .seq (word "credit") (.opt (char 's')), .seq (word "rebate") (.opt (char 's'))],
    boundary u]

/-- `_qualifiers`: words naming a fee or credit, generic ones out. -/
def qualifiers (clause : List Char) : List String :=
  (((qualified u).finditer clause).flatMap fun m =>
    (splitSpace ((m.group? 1).getD [])).map String.ofList).filter fun w => !genericFee.contains w

/-- `_words`: the words of a field's code, of more than two characters. -/
def codeWords (field : String) : List (List Char) :=
  ((Regex.set fun c => c = '_' || c = '.' || c = ':' || c = '-').split
    (u.lower (fieldCode field).toList)).filter fun w => 2 < w.length

def names (clause : List Char) (field : String) : Bool :=
  (codeWords u field).all fun w =>
    (Regex.seq (boundary u) (.word (· == ·) w)).search clause

def flags (noneSaid contradicted : Bool) : Finset String :=
  ((if noneSaid then ["true"] else []) ++ if contradicted then ["false"] else []).toFinset

/-! ## What a clause states -/

/-- `_expires`: a sentence's expiry. -/
def expires (sentence : List Char) : Finset String :=
  let hits := Negation.scan u sentence .expires
  let qualified := (wordsOf (u.lower sentence)).any fun w =>
    Negation.times.contains w || Negation.bounds.contains w || Negation.conditions.contains w ||
      Negation.restrictions.contains w
  ((if Negation.denied u sentence .expires then ["none"] else []) ++
    (clauses u sentence).flatMap fun part =>
      let mine := hits.filter fun h => part.start ≤ h.start && h.start < part.stop
      let rest := wordsOf (sentence.drop part.stop)
      let timed := mine.any (·.state = .void) && (qualified || !rest.isEmpty)
      if (date u).search part.text && (!mine.isEmpty || hasCue u part.text .expiry) then
        [dateOf u part.text]
      else if mine.any (·.state = .plain) || timed || hasCue u part.text .expiry && mine.isEmpty then
        [undated]
      else []).toFinset

/-- `re.sub(r"(?<=\\d),(?=\\d{3}\\b)", "", text)` -/
def joinThousands (text : List Char) : List Char :=
  Regex.sub (.all [.behind Text.isDecimal, char ',', .ahead (.seq (.times digit 3) (boundary u))])
    (fun _ => []) text

/-- `said`: the values one rep clause states for a field; none, if it is silent.  `others`: the
offer's other slots of this kind. -/
def said (clause : List Char) (field : String) (others : Dict String String) : Finset String :=
  let c := joinThousands u (u.lower clause)
  let kind := fieldKind field
  let negated := (wordsOf c).any negationCues.contains
  let money := kind = "fee" || kind = "credit"
  let generic := money && !names u c field && (qualifiers u c).isEmpty
  if fieldCode field ≠ "" && !generic && !names u c field then ∅
  else
    let parts := (clauses u c).map Part.text
    if field = "fees_none" then
      flags (Negation.denied u c .fees) (parts.any fun p =>
        (roles u p).contains .oneTime && Decidable.decide (amounts u p \ {"none"} ≠ ∅))
    else if field = "changes_none" then
      flags (Negation.denied u c .changes) (parts.any fun p =>
        hasCue u p .change && !(wordsOf p).any negationCues.contains)
    else if field = "expires" then expires u c
    else if kind = "applied_change" || kind = "feature" then
      if codeWords u field = [] then ∅ else {if negated then "false" else "true"}
    else if field = "term_months" then monthCounts u c
    else if !((roleOf kind).any (roles u c).contains) then ∅
    else
      let stated := if amounts u c = ∅ && negated then {"none"} else amounts u c
      if generic && stated ⊆ (others.entries.map Prod.snd).toFinset then ∅ else stated

end unicode

end ProxyLoop.Said

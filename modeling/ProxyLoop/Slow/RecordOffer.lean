import ProxyLoop.Contract.Time
import ProxyLoop.Guard.Declass
import ProxyLoop.Guard.Said
import ProxyLoop.Guard.Readback
import ProxyLoop.Slow.OfferSlots

/-!
# `record_offer`, from the slots Slow sends

A call passes a shape check, the conflicts, the binding of each value to the rep line it cites, the
naming of fees and credits and the form of each value, and then is a new revision or not.  Each gate
refuses the whole call.
-/

namespace ProxyLoop

open Lib (Regex Dict)

/-! ## What Slow sends -/

/-- A JSON value: text, or another, kept as its `repr`. -/
inductive RawValue
  | text (s : String)
  | other (repr : String)
  deriving DecidableEq

/-- A slot as Slow sends it: an object, or another value, kept as its `repr`. -/
inductive RawSlot
  | object (entries : Dict String RawValue)
  | other (repr : String)

/-- The library functions `record_offer` uses. -/
structure Lexical where
  unicode : Unicode
  /-- `repr` of a text -/
  repr : String → String
  /-- `int(d.total_seconds() * 1000)` of so many microseconds: floating point -/
  millis : Int → Int

namespace Slots

/-! ## The texts -/

def keys : List String := ["field", "value", "utt_ref"]

def formOf : SlotUnit → String
  | .usdMinor => "whole cents"
  | .months => "whole months"
  | .bool => "true|false"
  | .iso => "ISO time with zone, ≤ 24 chars, prefer …Z (2026-10-01T00:00:00Z) or none"

def unitName : SlotUnit → String
  | .usdMinor => "usd_minor"
  | .months => "months"
  | .bool => "bool"
  | .iso => "iso"

def roleName : SlotRole → String
  | .recurring => "recurring"
  | .oneTime => "one_time"
  | .credit => "credit"
  | .change => "change"
  | .feature => "feature"
  | .expiry => "expiry"

/-- The field kinds, in `ROLE_OF`'s order. -/
def fieldKinds : List String :=
  ["monthly_price", "term_months", "fee", "fees_none", "credit", "applied_change", "changes_none",
    "feature", "expires"]

/-- `GENERIC`: the words that name no fee or credit. -/
def generic (kind : String) : List String :=
  let fee := Said.cues .fee ++ ["charges"] ++ Said.genericFee
  if kind = "fee" then fee else Said.cues .credit ++ fee

def exampleOf (kind : String) : String :=
  if kind = "fee" then "a porting fee is fee:porting" else "a paperless credit is credit:paperless"

def naming : String :=
  "A fee:<code> or credit:<code> is named by the rep's own words in its cited line, in lower " ++
  "snake_case: each code word is said there as a whole word and none is a generic word (such as " ++
  "fee, charge, credit): " ++ exampleOf "fee" ++ ", never fee:porting_fee; " ++ exampleOf "credit" ++
  ", never credit:paperless_credit"

def table : String :=
  String.intercalate "; " (fieldKinds.map fun kind =>
    (if readbackField kind then kind else kind ++ ":<code>") ++ " → " ++ roleName (roleOf kind) ++
      ", " ++ unitName (unitOf kind) ++ ", " ++ formOf (unitOf kind)) ++ ". " ++ naming

def cite : String :=
  "Each slot's utt_ref must cite the utt of the rep line that says it; money is usd_minor in cents " ++
  "(75.00 → 7500), a term is months"

def refused (problems : List String) : String :=
  "record_offer refused, nothing recorded: " ++ String.intercalate "; " problems ++
  ". Each slot is \x7b" ++ String.intercalate ", " keys ++
  "\x7d; by field (field → role, unit, value): " ++ table

def unnamed (field ref : String) : String :=
  let kind := fieldKind field
  "if the rep named this " ++ kind ++ " by no specific word, record_offer the other slots, then " ++
  "guide_fast(ask_readback, [\"offer:" ++ ref ++ "\"]) once more; a " ++ kind ++
  " must be named by the rep to be recorded"

section lexical

variable (w : Lexical)

def showValue : Option RawValue → String
  | some (.text s) => w.repr s
  | some (.other r) => r
  | none => "None"

/-! ## The shape of a slot -/

def form (field value : Option RawValue) : Option String :=
  match field with
  | some (.text field) =>
    if !readbackField field then some ("unknown field " ++ w.repr field)
    else if maxSlotField < field.length then
      some (field ++ " is over " ++ toString maxSlotField ++ " chars")
    else match value with
      | some (.text v) =>
        if maxSlotValue < v.length then some (notText field)
        else
          let unit := unitOf (fieldKind field)
          if (unit = .usdMinor || unit = .months) && !(v ≠ "" && v.toList.all isDigit) then
            some (field ++ " is " ++ formOf unit ++ ", not " ++ w.repr v)
          else none
      | _ => some (notText field)
  | field => some ("unknown field " ++ showValue w field)
where
  notText (field : String) : String :=
    field ++ " value is text of ≤ " ++ toString maxSlotValue ++ " chars, not " ++ showValue w value

/-- `shape`: why a slot is not {field, value, utt_ref}; none, if it is. -/
def shape : RawSlot → Option String
  | .other repr => some ("a slot is an object, not " ++ repr)
  | .object m =>
    let extra := sortedStrings (m.keys.filter fun k => !keys.contains k)
    let why := if extra.contains "role" || extra.contains "unit" then
      "role and unit follow from field; " else ""
    let problems :=
      (if extra = [] then [] else ["a slot takes no " ++ String.intercalate ", " extra ++ ": " ++ why ++
        "send only " ++ String.intercalate ", " keys]) ++
      (form w (m.get? "field") (m.get? "value")).toList ++
      match m.get? "utt_ref" with
      | some (.text _) => []
      | ref => ["utt_ref is the utt id of the rep line that says it, not " ++ showValue w ref]
    if problems = [] then none else some (String.intercalate "; " problems)

/-- The slot of an object: its role and unit follow from the field. -/
def slot? : RawSlot → Option ReadbackSlot
  | .other _ => none
  | .object m =>
    match m.get? "field", m.get? "value", m.get? "utt_ref" with
    | some (.text field), some (.text value), some (.text utt) =>
      ReadbackSlot.make? field value (unitOf (fieldKind field)) (roleOf (fieldKind field)) (some utt)
    | _, _, _ => none

/-! ## The words of the cited line -/

/-- `_value`: a slot's numbers, in the unit as spoken. -/
def valueOf (s : ReadbackSlot) : List Rat :=
  match s.unit with
  | .usdMinor => [mkRat (Text.natOf s.value.toList) 100]
  | .months => [(Text.natOf s.value.toList : Rat)]
  | _ => Text.numbers s.value.toList

def saidLine (bb : Blackboard) (utt : String) : Option String :=
  ((bb.channels.cp.lines.filter fun l => l.speaker = .partner && l.uttId = utt).getLast?).map
    Line.text

/-- The slots whose values their cited lines do not say. -/
def unbound (bb : Blackboard) (slots : List ReadbackSlot) : List String :=
  slots.filterMap fun s =>
    let utt := s.sourceUtt.getD ""
    let bound := (saidLine bb utt).any fun line =>
      (valueOf s).all (Declass.spoken w.unicode line.toList s.unit).contains
    if bound then none else some (s.field ++ "=" ++ s.value ++ " is not in rep line " ++ utt)

def codeChar (c : Char) : Bool := Text.isLower c || isDigit c

/-- `_CODE.fullmatch` -/
def snakeCase (code : List Char) : Bool :=
  (Regex.seq (.plus (.set codeChar)) (.star (.seq (Text.char '_') (.plus (.set codeChar))))).fullmatch code

def tokenRegex : Regex Char :=
  .seq (.plus (.set codeChar))
    (.star (.seq (.set fun c => c = '.' || c = ',') (.plus (.set isDigit))))

/-- `text.strip("_")` -/
def stripUnderscores (text : List Char) : List Char :=
  (text.dropWhile (· = '_')).rdropWhile (· = '_')

/-- `_named`: why a fee or credit code is not the rep's name for it. -/
def named (s : ReadbackSlot) (line : String) : List String :=
  let kind := fieldKind s.field
  let code := (fieldCode s.field).toList
  if kind ≠ "fee" && kind ≠ "credit" then []
  else if !snakeCase code then
    let snake := stripUnderscores (Regex.sub (.plus (.set fun c => !codeChar c)) (fun _ => ['_'])
      (code.map Text.lowerChar))
    [s.field ++ ": a code is lower snake_case (" ++ kind ++ ":" ++ String.ofList snake ++ ")"]
  else
    let words := tokenRegex.findall (w.unicode.lower line.toList)
    ((Text.char '_').split code).filterMap fun part =>
      let word := String.ofList part
      if (generic kind).contains word then
        some (s.field ++ ": '" ++ word ++ "' is a generic word; name a " ++ kind ++
          " by the words the rep used for it without '" ++ word ++ "' (e.g. " ++ exampleOf kind ++ ")")
      else if !words.contains part then
        some (s.field ++ ": '" ++ word ++ "' is not in the cited line " ++ s.sourceUtt.getD "" ++
          " as a whole word; use the rep's words")
      else none

/-! ## The values -/

def zoned (v : String) : Bool :=
  match Time.fromIsoformat v.toList with
  | some stamp => stamp.offset.isSome
  | none => false

/-- `value`: why a slot's value is not in its unit's form. -/
def value (s : ReadbackSlot) : Option String :=
  if s.unit = .bool && s.value ≠ "true" && s.value ≠ "false" then
    some (s.field ++ " is true or false, not " ++ w.repr s.value)
  else if s.unit = .iso && s.value ≠ "none" && !zoned s.value then
    some (s.field ++ " is an ISO time with zone or none, not " ++ w.repr s.value)
  else none

/-! ## The call -/

/-- `_invalid`: the slots' form, not the rep's words. -/
def invalid (text : String) : Result := ProxyLoop.refused .invalidArgs text

/-- `_expires_ms`: the stated expiry on the session clock, which reads `tMs` at the instant `wall`. -/
def expiresMs (slots : List ReadbackSlot) (tMs : Nat) (wall : Int) : Option Int := do
  let s ← slots.find? (·.field = "expires")
  let text := s.value.toList.flatMap fun c => if c = 'Z' then "+00:00".toList else [c]
  let at_ ← (Time.fromIsoformat text).bind Time.Stamp.utc?
  return max 0 (tMs + w.millis (at_ - wall))

/-- `record_offer`.  A revision the contract does not accept is a `ValidationError`, which is a
`ValueError`. -/
def recordOffer (bb : Blackboard) (ref : String) (raw : List RawSlot) (tMs : Nat) (wall : Int) :
    Except PyError Result :=
  match raw.filterMap (shape w), raw.filterMap slot? with
  | p :: problems, _ => .ok (invalid (refused (p :: problems)))
  | [], slots =>
    let bad := conflicts slots
    if bad ≠ [] then
      .ok (invalid ("record_offer refused, nothing recorded: " ++ String.intercalate "; " bad))
    else
      let apart := unbound w bb slots
      if apart ≠ [] then
        .ok (no (String.intercalate "; " apart ++ ". " ++ cite) [.declassDenied apart])
      else
        let names := slots.map fun s => (s.field, named w s ((saidLine bb (s.sourceUtt.getD "")).getD ""))
        let bad := names.flatMap Prod.snd
        if bad ≠ [] then
          let tails := (names.filter (·.2 ≠ [])).map fun p => p.1 ++ ": " ++ unnamed p.1 ref
          .ok (invalid (refused bad ++ ". " ++ String.intercalate ". " tails))
        else
          let bad := slots.filterMap (value w)
          if bad ≠ [] then .ok (invalid (refused bad))
          else
            let result := ProxyLoop.recordOffer bb ref slots (expiresMs w slots tMs wall)
            if result.effects ≠ [] && !(offerRefOk ref && slots.length ≤ maxSlots) then .error .value
            else .ok result

end lexical

end Slots

end ProxyLoop

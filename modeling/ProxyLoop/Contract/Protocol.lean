import ProxyLoop.Contract.State
import ProxyLoop.Contract.Text

/-!
# The Fast grammar

What a Fast lane's text is parsed into, as it streams, and the canonical text of a turn.  The parser
is tolerant on input and canonical on output; what it cannot take is an issue, counted and never
hidden.  Rendering a prompt is left out, and so is all of a profile but its lane and its grammar.
-/

namespace ProxyLoop.Protocol

open Lib (Regex)
open Text (char word anyCase space spaces strip startsWith)

/-! ## Profiles -/

structure Profile where
  name : String
  lane : Lane
  /-- after a pause, later lines that are no directives are issues -/
  pauseEndsSpeech : Bool := false

def PROFILES : List Profile :=
  [{ name := "pl_user_v1", lane := .user }, { name := "pl_cp_v1", lane := .cp },
    { name := "pl_cp_v2", lane := .cp },
    { name := "pl_cp_v3", lane := .cp, pauseEndsSpeech := true },
    { name := "pl_user_v2", lane := .user },
    { name := "pl_cp_v4", lane := .cp, pauseEndsSpeech := true },
    { name := "pl_cp_v5", lane := .cp, pauseEndsSpeech := true }]

/-! ## Items -/

inductive RelayType
  | note | fact | correction | request | revoke
  deriving DecidableEq, Repr

def RelayType.text : RelayType → String
  | .note => "note"
  | .fact => "fact"
  | .correction => "correction"
  | .request => "request"
  | .revoke => "revoke"

inductive IssueReason
  | wrongLane | unknownDirective | badHoldReason | duplicatePause | malformedFact | malformedRelay
  | emptyTurn | duplicateEndCall | strayDirective | inlineDirective | scaffoldEcho
  | speechAfterPause
  deriving DecidableEq, Repr

inductive TurnItem
  /-- one sentence -/
  | speech (text : List Char)
  | relay (type : RelayType) (text : List Char) (facts : List (List Char × List Char))
  | hold (reason : HoldReason)
  | wait
  | endCall
  | issue (reason : IssueReason) (text : List Char)
  deriving DecidableEq, Repr

def TurnItem.isIssue : TurnItem → Bool
  | .issue _ _ => true
  | _ => false

def HOLD_REASONS : List HoldReason := [.offer, .decision, .factRequest, .pressure, .unclear]

def holdText : HoldReason → String
  | .offer => "offer"
  | .decision => "decision"
  | .factRequest => "fact_request"
  | .pressure => "pressure"
  | .unclear => "unclear"

/-! ## Patterns

No line holds a newline, so `$` is the end of the text.
-/

def SLOW : Regex Char := .seq (anyCase "@slow:") spaces

/-- `^(?:FIRST|THEN)\\s*:\\s*` -/
def LEAD : Regex Char :=
  .all [.start, .alt (anyCase "first") (anyCase "then"), spaces, char ':', spaces]

def TRAIL_END : Regex Char := .all [anyCase "@end_call", spaces, .finish]

def isStop (c : Char) : Bool := c = '.' || c = '!' || c = '?'

/-- `(?<=[.!?])\\s+` -/
def BREAK : Regex Char := .seq (.behind isStop) (.plus space)

/-- What of `str` is left open: `head.isalpha() and head.islower()`. -/
structure Words where
  lowerWord : List Char → Bool

section

variable (u : Unicode)

/-- `\\b(?:THEN|FIRST)\\s*:\\s*$` -/
def TRAIL_SCAFFOLD : Regex Char :=
  .all [.boundary (Text.isWord u), .alt (anyCase "then") (anyCase "first"), spaces, char ':',
    spaces, .finish]

def INLINE : Regex Char :=
  .alt (.all [char '@', .alt (word "hold") (word "wait"), .boundary (Text.isWord u)])
    (anyCase "@end_call")

/-! ## Sentences -/

/-- The scaffold strips; also whether a trailing `@end_call` went. -/
def clean (spoken : List Char) : List Char × Bool :=
  let text := strip (LEAD.sub (fun _ => []) (strip spoken))
  let cut := strip (TRAIL_END.sub (fun _ => []) text)
  (strip ((TRAIL_SCAFFOLD u).sub (fun _ => []) cut), cut ≠ text)

/-- A canonical sentence: it re-parses to itself. -/
def speakable (text : List Char) : Bool :=
  !text.isEmpty &&
    !(text.head? = some '@' || text.contains '\n' || text ≠ strip text || SLOW.search text ||
      (LEAD.prefix? text).isSome || TRAIL_END.search text || (TRAIL_SCAFFOLD u).search text)

def sentence (text : List Char) : List TurnItem :=
  if !speakable u text then
    [.issue (if text.head? = some '@' then .strayDirective else .scaffoldEcho) text]
  else if (INLINE u).search text then [.speech text, .issue .inlineDirective text]
  else [.speech text]

end

/-! ## Relays -/

/-- `text.partition(sep)`: whether the separator is there, and what is before and after it. -/
def partition (sep : Char) (text : List Char) : Bool × List Char × List Char :=
  (text.contains sep, text.takeWhile (· ≠ sep), (text.dropWhile (· ≠ sep)).drop 1)

def pairs (text : List Char) : Option (List (List Char × List Char)) :=
  (text.splitOn ';').mapM fun piece =>
    let (sep, key, value) := partition '=' piece
    let (key, value) := (strip key, strip value)
    if !sep || !factKey (String.ofList key) || value.isEmpty then none else some (key, value)

def HEADS : List (List Char) :=
  ["fact".toList, "correction".toList, "request".toList, "revoke".toList]

/-! ## The parser -/

structure StreamParser where
  lane : Lane
  pauseEndsSpeech : Bool
  buf : List Char := []
  /-- sentences of the current line already returned -/
  emitted : Nat := 0
  /-- one `@hold` or `@wait` per turn -/
  paused : Bool := false
  ended : Bool := false
  any : Bool := false
  closed : Bool := false

/-- `StreamParser(lane, profile)`: no parser of a profile of the other lane. -/
def newParser (lane : Lane) (profile : Option String) : Option StreamParser :=
  match profile with
  | none => some { lane, pauseEndsSpeech := false }
  | some name =>
    match PROFILES.find? (·.name = name) with
    | none => none
    | some spec =>
      if spec.lane ≠ lane then none else some { lane, pauseEndsSpeech := spec.pauseEndsSpeech }

namespace StreamParser

def pause (p : StreamParser) (item : TurnItem) (text : List Char) : List TurnItem × StreamParser :=
  if p.paused then ([.issue .duplicatePause text], p) else ([item], { p with paused := true })

/-- `text.split()` -/
def words (text : List Char) : List (List Char) :=
  (text.splitOnP Text.isSpace).filter (!·.isEmpty)

/-- Of letters that are not ASCII, none is a letter of `@end_call` in lower case. -/
def directive (p : StreamParser) (text : List Char) : List TurnItem × StreamParser :=
  if startsWith "@end_call".toList (text.map Text.lowerChar) then
    if p.ended then ([.issue .duplicateEndCall text], p) else ([.endCall], { p with ended := true })
  else
    let words := words text
    if words.head? = some "@hold".toList then
      if p.lane ≠ .cp then ([.issue .wrongLane text], p)
      else
        let reason := if words.length = 2 then words.getLast?.getD [] else []
        match HOLD_REASONS.find? fun known => reason = (holdText known).toList with
        | some known => p.pause (.hold known) text
        | none => ([.issue .badHoldReason text], p)
    else if text = "@wait".toList then p.pause .wait text
    else ([.issue .unknownDirective text], p)

end StreamParser

section

variable (u : Unicode) (w : Words)

def relay (lane : Lane) (segment : List Char) : List TurnItem :=
  if segment.isEmpty then [.issue .malformedRelay []]
  else
    let (_, head, rest) := partition ' ' segment
    let rest := strip rest
    let note : List TurnItem := [.relay .note segment []]
    let typed (t : RelayType) : Bool := head = t.text.toList
    if (typed .correction || typed .request || typed .revoke) && lane ≠ .user then
      [.issue .wrongLane segment]
    else if typed .fact || typed .correction then
      match pairs rest with
      | none => note ++ [.issue .malformedFact segment]
      | some facts =>
        if typed .correction && facts.length ≠ 1 then note ++ [.issue .malformedFact segment]
        else [.relay (if typed .fact then .fact else .correction) [] facts]
    else if (typed .request || typed .revoke) && !rest.isEmpty then
      [.relay (if typed .request then .request else .revoke) rest []]
    else
      let wrongCase := HEADS.contains (u.lower head)
      let unknownTyped := w.lowerWord head && (pairs rest).isSome
      if wrongCase || unknownTyped then note ++ [.issue .malformedRelay segment] else note

namespace StreamParser

/-- A line of the model's text; the last sentence of one that is not final may still grow. -/
def line (p : StreamParser) (raw : List Char) (final : Bool) : List TurnItem × StreamParser :=
  let text := strip raw
  if text.head? = some '@' && (SLOW.prefix? text).isNone then
    if final then p.directive text else ([], p)
  else if p.paused && p.pauseEndsSpeech && text.head? ≠ some '@' then
    -- the whole line, once it is complete
    if final && !text.isEmpty then ([.issue .speechAfterPause text], p) else ([], p)
  else
    let parts := SLOW.split text
    let (spoken, cut) := clean u (parts.head?.getD [])
    let sentences := if spoken.head? = some '@' then [] else BREAK.split spoken
    if !final then
      let ready := (sentences.dropLast.drop p.emitted).filter (!·.isEmpty)
      (ready.flatMap (sentence u), { p with emitted := p.emitted + ready.length })
    else
      let items := ((sentences.drop p.emitted).filter (!·.isEmpty)).flatMap (sentence u)
      let stray : List TurnItem :=
        -- neither speech nor a directive
        if spoken.head? = some '@' then [.issue .strayDirective spoken]
        else if cut then [.issue .inlineDirective "@end_call".toList]
        else []
      let relays := parts.tail.flatMap fun segment => relay u w p.lane (strip segment)
      (items ++ stray ++ relays, { p with emitted := 0 })

def seen (p : StreamParser) (items : List TurnItem) : StreamParser :=
  { p with any := p.any || items.any (!·.isIssue) }

/-- Complete lines, one after another. -/
def finals (p : StreamParser) : List (List Char) → List TurnItem × StreamParser
  | [] => ([], p)
  | raw :: raws =>
    let (items, p) := p.line u w raw true
    let (more, p) := p.finals raws
    (items ++ more, p)

/-- `feed`: a closed parser takes nothing. -/
def feed (p : StreamParser) (chunk : List Char) : Option (List TurnItem × StreamParser) :=
  if p.closed then none
  else
    let raws := (p.buf ++ chunk).splitOn '\n'
    let buf := raws.getLast?.getD []
    let (items, p) := { p with buf }.finals u w raws.dropLast
    let (more, p) := p.line u w buf false
    some (items ++ more, p.seen (items ++ more))

def close (p : StreamParser) : List TurnItem × StreamParser :=
  let (items, p) := p.line u w p.buf true
  let p := { p.seen items with buf := [], closed := true }
  (if p.any then items else items ++ [.issue .emptyTurn []], p)

end StreamParser

def parseTurn (text : List Char) (lane : Lane) (profile : Option String) :
    Option (List TurnItem) := do
  let (items, p) ← (← newParser lane profile).feed u w text
  some (items ++ (p.close u w).1)

def StreamParser.feedAll (p : StreamParser) :
    List (List Char) → Option (List TurnItem × StreamParser)
  | [] => some ([], p)
  | chunk :: chunks => do
    let (items, p) ← p.feed u w chunk
    let (more, p) ← p.feedAll chunks
    some (items ++ more, p)

def parseStream (chunks : List (List Char)) (lane : Lane) (profile : Option String) :
    Option (List TurnItem) := do
  let (items, p) ← (← newParser lane profile).feedAll u w chunks
  some (items ++ (p.close u w).1)

/-! ## Canonical text -/

def relayText (type : RelayType) (text : List Char) (facts : List (List Char × List Char)) :
    List Char :=
  match type with
  | .note => text
  | .fact | .correction =>
    type.text.toList ++ ' ' :: "; ".toList.intercalate (facts.map fun (k, v) => k ++ '=' :: v)
  | .request | .revoke => type.text.toList ++ ' ' :: text

/-- One line per directive; consecutive sentences share a line after a closing `.!?`. -/
def formatLines : List (List Char) → Bool → List TurnItem → Option (List (List Char))
  | lines, _, [] => some lines
  | lines, joinable, item :: items =>
    match item with
    | .speech text =>
      if !speakable u text then none
      else
        let last := lines.getLast?.getD []
        if joinable && last.getLast?.any isStop then
          formatLines (lines.dropLast ++ [last ++ ' ' :: text]) true items
        else formatLines (lines ++ [text]) true items
    | .relay type text facts =>
      formatLines (lines ++ ["@slow: ".toList ++ relayText type text facts]) false items
    | .hold reason =>
      formatLines (lines ++ ["@hold ".toList ++ (holdText reason).toList]) false items
    | .wait => formatLines (lines ++ ["@wait".toList]) false items
    | .endCall => formatLines (lines ++ ["@end_call".toList]) false items
    -- an issue has no canonical text
    | .issue _ _ => none

def formatTurn (items : List TurnItem) : Option (List Char) :=
  (formatLines u [] false items).map ['\n'].intercalate

end

end ProxyLoop.Protocol

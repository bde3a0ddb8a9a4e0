import ProxyLoop.Contract.Protocol

/-!
# The provenance chain

`chain_failures` over the events of a bundle: why a turn does not follow from its request and call,
why a delivered line has no chain to a sentence or to a released line, and why a release does not
carry its line's capability.  A payload that no model types may hold any value under a key, so the
values are a parameter, with what Python does with them.
-/

namespace ProxyLoop.Chain

open Lib (Dict)
open Protocol (TurnItem Words PROFILES parseTurn)

/-! ## Payloads -/

/-- The values of a payload.  A text is equal to itself alone, and a value that is equal to what the
items of a turn are dumped as is read as these items. -/
structure Values (V : Type) where
  text : String → V
  /-- `isinstance(v, str)` -/
  text? : V → Option String
  /-- `==` -/
  eq : V → V → Bool
  str : V → String
  repr : V → String
  truthy : V → Bool
  hashable : V → Bool
  /-- `model_dump(mode="json")` of each item -/
  dump : List TurnItem → V
  /-- `_ITEMS.validate_python` -/
  validate : V → Option (List TurnItem)
  text?_eq_some : ∀ x s, text? x = some s ↔ x = text s
  str_text : ∀ s, str (text s) = s
  eq_text : ∀ x s, eq x (text s) = true ↔ x = text s
  text_eq : ∀ x s, eq (text s) x = true ↔ x = text s
  validate_dump : ∀ x items, eq x (dump items) = true → validate x = some items

inductive LLMRole
  | fastUser | fastCp | slow | ear | mouth | simuser | teacher
  deriving DecidableEq, Repr

def LLMRole.text : LLMRole → String
  | .fastUser => "fast_user"
  | .fastCp => "fast_cp"
  | .slow => "slow"
  | .ear => "ear"
  | .mouth => "mouth"
  | .simuser => "simuser"
  | .teacher => "teacher"

inductive AdapterKind
  | realHttp | recordedReplay | testFake | baseline
  deriving DecidableEq, Repr

/-- One record per HTTP attempt. -/
structure LLMCallRecord (V : Type) where
  callId : String
  role : LLMRole
  /-- `model_ref.model_dump(mode="json")` -/
  modelRef : V
  adapterKind : AdapterKind
  promptSha : String
  responseSha : Option String
  error : Option String := none

structure FastRequest (V : Type) where
  lane : V
  genId : V
  promptSha : V
  profile : V
  modelRef : V

structure FastTurn (V : Type) where
  lane : V
  genId : V
  callId : V
  items : V

structure FastSentence (V : Type) where
  lane : V
  genId : V
  uttId : V
  text : V

structure Delivered (V : Type) where
  lane : V
  uttId : V
  textGenerated : V
  textHeard : V
  interrupted : V

structure Verbatim (V : Type) where
  lane : V
  kind : V
  text : V
  capId : Option V

structure Released (V : Type) where
  capId : Option V

inductive Payload (V : Type)
  | llmCall (call : LLMCallRecord V)
  | fastRequest (request : FastRequest V)
  | fastTurn (turn : FastTurn V)
  | fastSentence (sentence : FastSentence V)
  | uttDelivered (delivered : Delivered V)
  | speakVerbatim (verbatim : Verbatim V)
  | speakReleased (released : Released V)
  | other

namespace Payload

variable {V : Type}

def call? : Payload V → Option (LLMCallRecord V)
  | llmCall call => some call
  | _ => none

def request? : Payload V → Option (FastRequest V)
  | fastRequest request => some request
  | _ => none

def turn? : Payload V → Option (FastTurn V)
  | fastTurn turn => some turn
  | _ => none

def sentence? : Payload V → Option (FastSentence V)
  | fastSentence sentence => some sentence
  | _ => none

def delivered? : Payload V → Option (Delivered V)
  | uttDelivered delivered => some delivered
  | _ => none

def verbatim? : Payload V → Option (Verbatim V)
  | speakVerbatim verbatim => some verbatim
  | _ => none

def released? : Payload V → Option (Released V)
  | speakReleased released => some released
  | _ => none

end Payload

structure Event (V : Type) where
  eventId : String
  causeIds : List String
  payload : Payload V

structure PromptRecord where
  content : String

/-! ## The checks -/

section

variable {V : Type} (v : Values V) (events : List (Event V))

/-- `{e.event_id: e for e in events}` -/
def byId (id : String) : Option (Event V) := (events.filter (·.eventId = id)).getLast?

/-- `_cited`: the cited events of a type, with their payloads. -/
def cited {β : Type} (e : Event V) (type : Payload V → Option β) : List (Event V × β) :=
  e.causeIds.filterMap fun c =>
    (byId events c).bind fun cause => (type cause.payload).map (cause, ·)

/-- `_call`: the one successful cited attempt of the call that the turn names. -/
def call (e : Event V) (turn : FastTurn V) : Option (LLMCallRecord V) :=
  let calls := (cited events e Payload.call?).map Prod.snd
  match calls.filter fun c => v.eq (v.text c.callId) turn.callId && c.error.getD "" = "" with
  | [c] => some c
  | _ => none

def laneText : Lane → String
  | .user => "user"
  | .cp => "cp"

/-- `lane in ("user", "cp")` -/
def lane? (lane : V) : Option Lane :=
  if v.eq lane (v.text "user") then some .user
  else if v.eq lane (v.text "cp") then some .cp
  else none

variable (u : Unicode) (w : Words) (prompts : Dict String PromptRecord)

/-- `_turn`: why the turn does not follow from its request and call, if so. -/
def turnReason (e : Event V) (turn : FastTurn V) : Option String :=
  match call v events e turn, cited events e Payload.request? with
  | some call, [(_, request)] =>
    match lane? v turn.lane with
    | none => some s!"lane {v.repr turn.lane}"
    | some lane =>
      if call.role.text ≠ "fast_" ++ laneText lane then
        some s!"call {call.callId} is a {call.role.text} call, not fast_{laneText lane}"
      else if !(v.eq request.lane turn.lane && v.eq request.genId turn.genId) then
        some "its lane or gen_id is not its fast.request's"
      else if !(v.eq request.modelRef call.modelRef &&
          v.eq request.promptSha (v.text call.promptSha)) then
        some "its fast.request names another model or prompt than its call"
      else
        match prompts.get? (call.responseSha.getD "") with
        | none => some s!"the response of call {call.callId} is not in prompts.jsonl"
        | some response =>
          let profile := v.str request.profile
          if !PROFILES.any fun known => known.name = profile && known.lane = lane then
            some (s!"its fast.request names profile {v.repr (v.text profile)}, " ++
              s!"no {laneText lane} profile")
          -- a profile of the lane has a parser
          else if (parseTurn u w response.content.toList lane (some profile)).any fun parsed =>
              v.eq turn.items (v.dump parsed) then
            none
          else some "its items are not the parse of the recorded response"
  | _, _ => some "it must cite its one fast.request and one successful attempt of its call"

/-- Per turn: its Speech items not yet delivered. -/
abbrev Left := Dict String (String → Int)

def speech (items : List TurnItem) : List String :=
  items.filterMap fun
    | .speech text => some (String.ofList text)
    | _ => none

/-- `Counter(speech)` -/
def counter (texts : List String) : String → Int := fun text => texts.count text

/-- A chain: the generated text and its source, or why there is none. -/
abbrev Result (V : Type) := Except String (V × String)

def sentence (real : Bool) (p : Delivered V) (cause : Event V) (s : FastSentence V) (left : Left) :
    Result V × Left :=
  match cited events cause Payload.turn? with
  | [] => (.error "its fast.sentence cites no fast.turn", left)
  | (turn, t) :: _ =>
    if !(v.eq s.uttId p.uttId && v.eq s.lane p.lane && v.eq s.lane t.lane &&
        v.eq s.genId t.genId) then
      (.error "utt_id, lane or gen_id differ along the chain", left)
    else
      match v.validate t.items with
      | none => (.error "its turn's items are malformed", left)
      | some items =>
        if real && !(call v events turn t).any (·.adapterKind = .realHttp) then
          (.error "its turn's own call is not real_http", left)
        else
          let count := (left.get? turn.eventId).getD (counter (speech items))
          let text := v.str s.text
          let left := left.set turn.eventId (Function.update count text (count text - 1))
          -- each Speech item is delivered at most once
          if count text - 1 < 0 then
            (.error "its text is no undelivered Speech item of the turn", left)
          else (.ok (s.text, cause.eventId), left)

/-- `_generated`: the text the chain generated, its source, or why it has none. -/
def generated (real : Bool) (e : Event V) (p : Delivered V) (left : Left) : Result V × Left :=
  match cited events e Payload.sentence? with
  | (cause, s) :: _ => sentence v events real p cause s left
  | [] =>
    let lines := (cited events e Payload.released?).flatMap fun released =>
      cited events released.1 Payload.verbatim?
    match lines with
    | (line, verbatim) :: _ =>
      if !v.eq verbatim.lane p.lane then (.error "its speak.verbatim is for the other lane", left)
      else (.ok (verbatim.text, line.eventId), left)
    | [] => (.error "no chain to a fast.sentence or a released speak.verbatim", left)

/-- The books of the check: the sources used, the calls that back a turn, what is left of each. -/
structure Books (V : Type) where
  used : List String := []
  turned : List V := []
  left : Left := .empty

/-- `_delivered` -/
def deliveredReason (real : Bool) (e : Event V) (p : Delivered V) (books : Books V) :
    Option String × Books V :=
  let (chain, left) := generated v events real e p books.left
  match chain with
  | .error reason => (some reason, { books with left })
  | .ok (text, source) =>
    if books.used.contains source then (some s!"{source} is already delivered", { books with left })
    else
      let books := { books with left, used := source :: books.used }
      let cut := v.truthy p.interrupted && (v.text? p.textHeard).isSome
      if !v.eq p.textGenerated text then
        (some "text_generated differs from the chain's text", books)
      else if !v.eq p.textHeard p.textGenerated &&
          !(cut && (v.str p.textHeard).toList.isPrefixOf (v.str p.textGenerated).toList) then
        (some "text_heard is neither the generated text nor, interrupted, a prefix", books)
      else (none, books)

/-- `_release`: why an accept release does not carry its line's capability. -/
def releaseReason (e : Event V) (p : Released V) : Option String :=
  let lines := (cited events e Payload.verbatim?).map Prod.snd
  let accepts := lines.filter fun line => v.eq line.kind (v.text "accept")
  if p.capId.isSome && accepts.isEmpty then
    some "a cap_id release must cite a speak.verbatim{accept}"
  else
    accepts.findSome? fun line =>
      match line.capId with
      | none => some "its speak.verbatim{accept} carries no cap_id"
      | some held =>
        if p.capId.any (v.eq · held) then none
        else some s!"an accept release must carry its line's cap_id {v.str held}"

/-- One event: the books after it and why it fails; a call id that has no hash raises. -/
def check (real : Bool) (books : Books V) (e : Event V) : Option (Books V × Option String) :=
  match e.payload with
  | .fastTurn turn =>
    if !v.hashable turn.callId then none
    else
      let reason := match turnReason v events u w prompts e turn with
        | some reason => some reason
        | none =>
          if books.turned.any (v.eq turn.callId) then
            some s!"call {v.str turn.callId} already backs a turn"
          else none
      some ({ books with turned := turn.callId :: books.turned },
        reason.map (s!"fast.turn {e.eventId}: " ++ ·))
  | .uttDelivered p =>
    let (reason, books) := deliveredReason v events real e p books
    some (books, reason.map (s!"utt.delivered {e.eventId}: " ++ ·))
  | .speakReleased p =>
    some (books, (releaseReason v events e p).map (s!"speak.released {e.eventId}: " ++ ·))
  | _ => some (books, none)

def failures (real : Bool) : Books V → List (Event V) → Option (List String)
  | _, [] => some []
  | books, e :: rest => do
    let (books, reason) ← check v events u w prompts real books e
    return reason.toList ++ (← failures real books rest)

/-- `chain_failures`; `real` asks that a Fast line's own call is `real_http`. -/
def chainFailures (real : Bool) : Option (List String) :=
  failures v events u w prompts real {} events

end

end ProxyLoop.Chain

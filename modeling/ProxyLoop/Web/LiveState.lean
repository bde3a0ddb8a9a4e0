import ProxyLoop.Serve.Redact

/-!
# What the live views hold of a stream

The frames of `/ws/live` and `/ws/rep` as the page reads them, and how a batch of them or a close
changes the stream a view shows.
-/

namespace ProxyLoop.Web

open ProxyLoop.Serve (Bytes)

/-- A value as `JSON.parse` reads it; the numbers a frame carries are integers. -/
inductive Json
  | null
  | bool (b : Bool)
  | num (n : Int)
  | str (s : String)
  | arr (items : List Json)
  | obj (fields : List (String × Json))

/-- What the page takes from JavaScript: `JSON.parse` (none when it throws), `Number`, of which
NaN is none, and `String`, each of a value or of undefined. -/
structure Js where
  parse : Bytes → Option Json
  number : Option Json → Option Int
  string : Option Json → String

abbrev Fields := List (String × Json)

/-! ## Frames -/

/-- A frame of a stream: its seq and, of an event, its run. -/
class Framed (T : Type) where
  seq : T → Int
  runId : T → Option Json

/-- An event as the page holds it: the object whole. -/
structure Ev where
  fields : Fields

/-- A number, or 0 where there is none. -/
def Fields.num (v : Fields) (name : String) : Int :=
  match v.lookup name with
  | some (.num n) => n
  | _ => 0

def Fields.str (v : Fields) (name : String) : String :=
  match v.lookup name with
  | some (.str s) => s
  | _ => ""

instance : Framed Ev := ⟨fun e => Fields.num e.fields "seq", fun e => e.fields.lookup "run_id"⟩

structure RepFrame where
  seq : Int
  tMs : Option Int
  type : String
  payload : Option Json
  actor : Option String
  stream : Option String

instance : Framed RepFrame := ⟨RepFrame.seq, fun _ => none⟩

/-- A numeric seq, a string type and an object payload. -/
def isFrame (v : Fields) : Bool :=
  match v.lookup "seq", v.lookup "type", v.lookup "payload" with
  | some (.num _), some (.str _), some (.obj _) => true
  | _, _, _ => false

variable (js : Js)

/-- A frame with a numeric seq, a string type and an object payload; otherwise an error. -/
def parseFrame (text : Bytes) : Except String Fields :=
  match js.parse text with
  | none => .error "not JSON"
  | some (.obj v) => if isFrame v then .ok v else .error "no seq, type or payload"
  | some _ => .error "no seq, type or payload"

/-- A `/ws/live` frame: one `events.jsonl` line. -/
def parseEvent (text : Bytes) : Except String Ev := (parseFrame js text).map Ev.mk

/-- Keeps only the fields of a rep's frame. -/
def parseRepFrame (text : Bytes) : Except String RepFrame :=
  (parseFrame js text).map fun v =>
    { seq := Fields.num v "seq"
      tMs := js.number (v.lookup "t_ms")
      type := Fields.str v "type"
      payload := v.lookup "payload"
      actor := (v.lookup "actor").map (js.string ∘ some)
      stream := (v.lookup "stream").map (js.string ∘ some) }

/-! ## The stream -/

inductive Phase
  | connecting
  | open
  | ended
  | closed
  | error
  deriving DecidableEq

structure Stream (T : Type) where
  events : List T := []
  next : Int := 0
  phase : Phase := .connecting
  message : String := ""

variable {T : Type} [Framed T]

def isRun (id : Option Json) (runId : String) : Bool :=
  match id with
  | some (.str s) => s = runId
  | _ => false

/-- The frames taken, from the events held and the next seq; and the error that stops the stream. -/
def accept (runId : Option String) (events : List T) (next : Int) :
    List (Except String T) → List T × Int × Option String
  | [] => (events, next, none)
  | .error why :: _ =>
    (events, next, some ("bad frame after seq " ++ toString (next - 1) ++ ": " ++ why))
  | .ok frame :: rest =>
    match runId.filter fun id => !isRun (Framed.runId frame) id with
    | some id =>
      (events, next, some ("frame of run " ++ js.string (Framed.runId frame) ++ ", not " ++ id))
    | none =>
      if Framed.seq frame < next then accept runId events next rest
      else if Framed.seq frame > next then
        (events, next, some ("seq gap: expected " ++ toString next ++ ", got " ++
          toString (Framed.seq frame)))
      else accept runId (events ++ [frame]) (Framed.seq frame + 1) rest

/-- Accept a batch of parsed frames (or parse errors), in arrival order.  A seq below `next` is a
reconnect overlap and is dropped; one above it is a gap, and a frame of another run is foreign:
either stops the stream. -/
def acceptFrames (s : Stream T) (frames : List (Except String T)) (runId : Option String) :
    Stream T :=
  if s.phase = .error then s
  else
    match accept js runId s.events s.next frames with
    | (events, next, some message) => { events, next, phase := .error, message }
    | (events, next, none) => if next = s.next then s else { s with events, next }

/-- The stream when its socket closes; `entry` is where the viewer's role gets its cookies. -/
def closed (s : Stream T) (code : Nat) (reason entry : String) : Stream T :=
  if s.phase = .error then s
  else
    let why := toString code ++ (if reason = "" then "" else " " ++ reason)
    if code = 1000 then { s with phase := .ended, message := "stream ended (" ++ why ++ ")" }
    -- before the socket ever opened: refused, or unreachable; the browser cannot tell which
    else if code = 1006 ∧ s.phase = .connecting then
      { s with
        phase := .error
        message := "refused or unreachable: check the API is running, then open " ++ entry ++
          " from this origin" }
    else if code = 4403 then
      { s with
        phase := .error
        message := "not authorised (" ++ why ++ "): open " ++ entry ++ " from this origin" }
    else if code = 4404 then
      { s with phase := .error, message := "unknown run (" ++ why ++ ")" }
    else if code = 1011 then
      { s with phase := .error, message := "server: seq gap or bad line (" ++ why ++ ")" }
    else { s with phase := .closed, message := "disconnected (" ++ why ++ ")" }

end ProxyLoop.Web

import ProxyLoop.Lib.Dict
import ProxyLoop.Lib.Lines
import ProxyLoop.Serve.Redact

/-!
# Following `events.jsonl`

The reader behind both streams: the file read in bounded chunks, split into lines, each line
validated and made into what is sent.  `validate` is `Event.model_validate_json`.  What is sent is
kept as its UTF-8 bytes.
-/

namespace ProxyLoop.Serve

open Lib (Dict)

/-- A value of a payload that a rep's frame may carry. -/
inductive Scalar
  | str (s : String)
  | bool (b : Bool)
  deriving DecidableEq

/-- A value of an event's payload; the other types are not told apart. -/
inductive Value
  | scalar (v : Scalar)
  | other
  deriving DecidableEq

structure Event where
  runId : String
  seq : Nat
  tMs : Nat
  type : String
  payload : Dict String Value
  deriving DecidableEq

def heldOut (event : Event) : Bool :=
  event.type = "session.started" && event.payload.get? "split" = some (.scalar (.str "test"))

/-! ## The rep's frames -/

inductive Kind
  | str
  | bool

def Kind.has : Kind → Scalar → Bool
  | .str, .str _ => true
  | .bool, .bool _ => true
  | _, _ => false

def REP_FIELDS : List (String × List (String × Kind)) :=
  [("utt.final", [("lane", .str), ("speaker", .str), ("utt_id", .str), ("text", .str)]),
    ("utt.delivered", [("lane", .str), ("utt_id", .str), ("text_heard", .str),
      ("interrupted", .bool)])] ++
    ["opened", "closed", "hold", "strike", "barge_in"].map fun kind =>
      ("chan." ++ kind, [("lane", .str)])

/-- What a rep's frame says of an event: its time, its type and the fields kept. -/
structure Kept where
  tMs : Nat
  type : String
  payload : List (String × Scalar)
  deriving DecidableEq

def field? (payload : Dict String Value) : String × Kind → Option (String × Scalar)
  | (name, kind) =>
    match payload.get? name with
    | some (.scalar v) => if kind.has v then some (name, v) else none
    | _ => none

/-- An event of the allow-list, as the rep may see it. -/
def allowed (event : Event) : Option Kept :=
  match REP_FIELDS.lookup event.type with
  | none => none
  | some fields =>
    if event.payload.get? "lane" ≠ some (.scalar (.str "cp")) then none
    else if event.type = "utt.final" &&
        event.payload.get? "speaker" ≠ some (.scalar (.str "partner")) then none
    else (fields.mapM (field? event.payload)).map fun kept => ⟨event.tMs, event.type, kept⟩

/-- `json.dumps` of a rep's frame, which escapes what is not printable ASCII. -/
def dumps (seq : Nat) (kept : Kept) : Bytes :=
  utf8 "\x7b\"seq\": " ++ utf8 (toString seq) ++ utf8 ", \"t_ms\": " ++ utf8 (toString kept.tMs) ++
    utf8 ", \"type\": " ++ string kept.type ++ utf8 ", \"payload\": \x7b" ++
    (utf8 ", ").intercalate (kept.payload.map item) ++ utf8 "\x7d\x7d"
where
  hex4 (n : Nat) : Bytes :=
    utf8 "\\u" ++ [n / 4096, n / 256, n / 16, n].map fun d => byte (Nat.digitChar (d % 16))
  char (c : Char) : Bytes :=
    match c with
    | '"' => utf8 "\\\""
    | '\\' => utf8 "\\\\"
    | '\n' => utf8 "\\n"
    | '\r' => utf8 "\\r"
    | '\t' => utf8 "\\t"
    | '\x08' => utf8 "\\b"
    | '\x0c' => utf8 "\\f"
    | c =>
      if 32 ≤ c.toNat ∧ c.toNat ≤ 126 then [byte c]
      else if c.toNat < 65536 then hex4 c.toNat
      else
        let v := c.toNat - 65536
        hex4 (55296 + v / 1024 % 1024) ++ hex4 (56320 + v % 1024)
  string (s : String) : Bytes := utf8 "\"" ++ s.toList.flatMap char ++ utf8 "\""
  scalar : Scalar → Bytes
    | .str s => string s
    | .bool true => utf8 "true"
    | .bool false => utf8 "false"
  item : String × Scalar → Bytes
    | (name, v) => string name ++ utf8 ": " ++ scalar v

/-- One stream's frames: allowed events numbered from 0, the first `skip` of them not sent. -/
structure RepFrames where
  skip : Nat
  seq : Nat := 0

def RepFrames.call (f : RepFrames) (event : Event) : RepFrames × Option Bytes :=
  match allowed event with
  | none => (f, none)
  | some kept =>
    let seq := f.seq
    let f := { f with seq := f.seq + 1 }
    if seq < f.skip then (f, none) else (f, some (redact (dumps seq kept)))

/-- What one event becomes: `raw`, the stored line, redacted; or the rep's frame. -/
inductive Frame
  | raw
  | rep (frames : RepFrames)

def Frame.call : Frame → Event → Bytes → Frame × Option Bytes
  | .raw, _, line => (.raw, some (redact line))
  | .rep f, event, _ => (.rep (f.call event).1, (f.call event).2)

/-! ## The reader -/

abbrev Close := Nat × String

def NEWLINE : UInt8 := 10

def CHUNK : Nat := 256 * 1024

/-- A file that a reader has opened: its bytes, and whether its path still names it. -/
structure File where
  bytes : Bytes
  named : Bool := true

def File.append (file : File) (bytes : Bytes) : File := { file with bytes := file.bytes ++ bytes }

structure Reader where
  runId : String
  fromSeq : Nat
  frame : Frame := .raw
  seq : Nat := 0
  /-- a trailing partial line -/
  pending : Bytes := []
  /-- how far the file is read -/
  told : Nat := 0

def blank (line : Bytes) : Bool := line.all Byte.isSpace

namespace Reader

def moved (r : Reader) (file : File) : Bool := file.bytes.length < r.told || !file.named

/-- One event of the run: the reader after it, and what is sent. -/
def take (r : Reader) (event : Event) (line : Bytes) : Reader × List Bytes :=
  let r := { r with seq := r.seq + 1 }
  if r.fromSeq ≤ event.seq then
    let (frame, text) := r.frame.call event line
    ({ r with frame }, text.toList.filter (!·.isEmpty))
  else (r, [])

variable (validate : Bytes → Option Event)

/-- The lines of a chunk: the reader after them, the frames to send, and a close. -/
def lines (r : Reader) : List Bytes → Reader × List Bytes × Option Close
  | [] => (r, [], none)
  | line :: rest =>
    if blank line then r.lines rest
    else
      match validate line with
      | none => (r, [], some (1011, "invalid line after seq " ++ toString ((r.seq : Int) - 1)))
      | some event =>
        if event.runId ≠ r.runId ∨ event.seq ≠ r.seq then
          (r, [], some (1011, "seq " ++ toString event.seq ++ " of " ++ event.runId ++ ", " ++
            toString r.seq ++ " expected"))
        -- seq 0: nothing of a test-split run is sent
        else if heldOut event then (r, [], some (4404, "unknown run"))
        else
          let (r, sent) := r.take event line
          if event.type = "session.ended" then (r, sent, some (1000, "session ended"))
          else
            let (r, frames, close) := r.lines rest
            (r, sent ++ frames, close)

/-- One chunk: the reader after it, the frames to send, and a close. -/
def step (r : Reader) (file : File) : Reader × List Bytes × Option Close :=
  let chunk := (file.bytes.drop r.told).take CHUNK
  let text := r.pending ++ chunk
  let r := { r with told := r.told + chunk.length, pending := Lib.rest NEWLINE text }
  let (r, frames, close) := r.lines validate (Lib.lines NEWLINE text)
  match close with
  | some close => (r, frames, some close)
  | none =>
    -- else it would wait forever
    if chunk.isEmpty ∧ r.moved file then
      (r, frames, some (1011, "events.jsonl was truncated or replaced"))
    else (r, frames, none)

end Reader

end ProxyLoop.Serve

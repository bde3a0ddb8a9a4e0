import ProxyLoop.Lib.Trace
import ProxyLoop.Serve.Served
import ProxyLoop.Web.LiveState

/-!
# Following a run over a socket

A view of the web page, its socket and the server's reader of the run's file, step by step: the file
grows, the server finds or refuses the run and reads chunks, frames arrive and are accepted in
batches, sockets are lost and taken up again.
-/

namespace ProxyLoop.Web

open ProxyLoop.Serve
open Lib (Reach)

/-! ## The view -/

/-- What the two roles' views differ in: the stream, what reads a frame, whether a frame must be
of the run watched, and the page that gives the role its cookies. -/
structure Side (T : Type) where
  source : Source
  parse : Js → Bytes → Except String T
  ofRun : Bool
  page : String

def Side.live : Side Ev := ⟨.live, parseEvent, true, "live"⟩

def Side.rep : Side RepFrame := ⟨.rep, parseRepFrame, false, "rep"⟩

/-- A socket, and the server's end of it: the reader once the run is found, the frames sent that
have not arrived, and the close that follows them. -/
structure Socket where
  fromSeq : Nat
  opened : Bool := false
  reader : Option Reader := none
  wire : List Bytes := []
  close : Option Close := none

/-- A view of a run, the run's file, and the frames that wait for the next batch. -/
structure View (T : Type) where
  file : File := { bytes := [] }
  stream : Stream T := {}
  socket : Option Socket := some { fromSeq := 0 }
  batch : List (Except String T) := []

inductive Act
  /-- the run's writer appends -/
  | write (bytes : Bytes)
  /-- the server finds the run and starts to follow its file -/
  | found
  /-- the server refuses the run or the client -/
  | refuse (close : Close)
  /-- the server reads a chunk and sends its frames -/
  | read
  /-- the socket opens -/
  | opened
  /-- the next frame arrives -/
  | receive
  /-- the batch's timer fires -/
  | flush
  /-- the server's close arrives, after every frame -/
  | bye
  /-- the socket closes for any other reason -/
  | lost (code : Nat) (reason : String)
  /-- the user's click -/
  | reconnect

section

variable {T : Type} [Framed T]
variable (validate : Bytes → Option Serve.Event) (js : Js) (side : Side T) (id : String)

namespace View

def flush (v : View T) : View T :=
  let next := acceptFrames js v.stream v.batch (if side.ofRun then some id else none)
  let v := { v with stream := next, batch := [] }
  if next.phase = .error then { v with socket := none } else v

def onclose (v : View T) (close : Close) : View T :=
  let v := if v.batch.isEmpty then v else v.flush js side id
  { v with
    stream := closed v.stream close.1 close.2 ("/" ++ side.page ++ "/" ++ id)
    socket := none }

def step (v : View T) : Act → Option (View T)
  | .write bytes => some { v with file := v.file.append bytes }
  | .found => do
    let c ← v.socket
    guard (c.reader.isNone ∧ c.close.isNone)
    some { v with socket := some { c with reader := some (side.source.reader id c.fromSeq) } }
  | .refuse close => do
    let c ← v.socket
    guard (c.reader.isNone ∧ c.close.isNone)
    some { v with socket := some { c with close := some close } }
  | .read => do
    let c ← v.socket
    let r ← c.reader
    guard (c.close.isNone)
    let (r, frames, close) := r.step validate v.file
    some { v with socket := some { c with reader := some r, wire := c.wire ++ frames, close } }
  | .opened => do
    let c ← v.socket
    guard (!c.opened)
    some { v with
      stream := { v.stream with phase := .open, message := "" }
      socket := some { c with opened := true } }
  | .receive => do
    let c ← v.socket
    guard c.opened
    match c.wire with
    | [] => none
    | text :: wire =>
      some { v with socket := some { c with wire }, batch := v.batch ++ [side.parse js text] }
  | .flush => do
    guard (!v.batch.isEmpty)
    some (v.flush js side id)
  | .bye => do
    let c ← v.socket
    guard (c.opened ∧ c.wire.isEmpty)
    let close ← c.close
    some (v.onclose js side id close)
  | .lost code reason => do
    guard v.socket.isSome
    some (v.onclose js side id (code, reason))
  | .reconnect => do
    guard (v.stream.phase = .closed)
    some { v with
      stream := { v.stream with phase := .connecting, message := "" }
      socket := some { fromSeq := v.stream.next.toNat }
      batch := [] }

end View

/-! ## Valid growth -/

/-- What both ends rely on of each other's JSON: a line that the server takes and the page's
`JSON.parse` reads is read after redaction too, with its seq and a run id that redaction leaves;
and so is every rep's frame. -/
structure Reads : Prop where
  live : ∀ {line : Bytes} {event : Serve.Event}, validate line = some event →
    (js.parse line).isSome = true →
    ∃ v, js.parse (redact line) = some (.obj v) ∧ isFrame v = true ∧
      Fields.num v "seq" = event.seq ∧
      (redact (utf8 event.runId) = utf8 event.runId →
        v.lookup "run_id" = some (.str event.runId))
  rep : ∀ seq kept, ∃ v, js.parse (redact (dumps seq kept)) = some (.obj v) ∧ isFrame v = true ∧
    Fields.num v "seq" = seq

-- a run id of the shape of an API key is rewritten in every line of its run
example : redact (utf8 "sk-abcdefgh") = SECRET := by decide +kernel

/-- A file of the run's events in dense seq order, each line of which is JSON. -/
def Sound (file : File) : Prop :=
  file.valid validate id = true ∧ ∀ x ∈ file.log validate, (js.parse x.2).isSome = true

/-- The log stays valid. -/
def Growing (v : View T) : Act → Prop
  | .write bytes => Sound validate js id (v.file.append bytes)
  | _ => True

/-- Moreover the run is served, and no socket is lost before it opens or with a code that is the
server's to send. -/
def Steady (v : View T) : Act → Prop
  | .write bytes =>
    Sound validate js id (v.file.append bytes) ∧
      ∀ x ∈ (v.file.append bytes).log validate, heldOut x.1 = false
  | .refuse _ => False
  | .lost code _ => code ∉ [1011, 4403, 4404] ∧ (code = 1006 → v.stream.phase ≠ .connecting)
  | _ => True

instance (file : File) : Decidable (Sound validate js id file) :=
  inferInstanceAs (Decidable (_ ∧ ∀ x ∈ file.log validate, (js.parse x.2).isSome = true))

instance (v : View T) : (a : Act) → Decidable (Steady validate js id v a)
  | .write bytes =>
    inferInstanceAs (Decidable (Sound validate js id (v.file.append bytes) ∧
      ∀ x ∈ (v.file.append bytes).log validate, heldOut x.1 = false))
  | .lost code _ =>
    inferInstanceAs (Decidable (code ∉ [1011, 4403, 4404] ∧
      (code = 1006 → v.stream.phase ≠ .connecting)))
  | .refuse _ => .isFalse not_false
  | .found | .read | .opened | .receive | .flush | .bye | .reconnect => .isTrue trivial

omit [Framed T] in
theorem Steady.growing {v : View T} {a : Act} (h : Steady validate js id v a) :
    Growing validate js id v a := by
  cases a <;> first | exact h.1 | trivial

/-- What the page reads of a log. -/
def Side.shows (log : Log) : List (Except String T) :=
  (side.source.texts log).map (side.parse js)

end

end ProxyLoop.Web

import ProxyLoop.Guard.Needs
import ProxyLoop.Guard.Statuses
import ProxyLoop.Lib.Places

/-!
# What became of each voiced message

Heard by the rep, still playing, or dead: read from the log, by the turns that voiced a message, the
sentences of their generations and the deliveries.  The rules the kernel writes by are told event by
event, of the log before each.
-/

namespace ProxyLoop.Fates

open Lib (Dict At Quiet)
open Needs (ItemKind spoke)

/-! ## Events -/

/-- What a fate is read from, and a call's opening. -/
inductive Cue
  | request (lane : Lane) (gen : String)
  | turn (lane : Lane) (gen : String) (items : List ItemKind)
  | cancelled (gen : String)
  | sentence (gen utt text : String)
  /-- cites the turn -/
  | voiced (msgId : String) (turn : Nat)
  | final (lane : Lane) (utt : String)
  | delivered (lane : Lane) (utt textHeard : String) (interrupted : Bool)
  | s2f (lane : Lane) (msgId : String) (guide : Bool)
  | opened (lane : Lane)
  | other
  deriving DecidableEq, Repr

/-- An event of the log; its seq stands for its id. -/
structure Event where
  seq : Nat
  cue : Cue
  deriving DecidableEq, Repr

/-- The utterance that the event adds to the cp transcript: what was heard, if anything. -/
def Event.line? (e : Event) : Option String :=
  match e.cue with
  | .final .cp utt => some utt
  | .delivered .cp utt textHeard _ => if textHeard = "" then none else some utt
  | _ => none

/-- The cp transcript, as its lines' utterance ids. -/
def cpLines (events : List Event) : List String := events.filterMap Event.line?

/-! ## Fates -/

inductive State
  | heard | playing | dead
  deriving DecidableEq, Repr

def State.rank : State → Nat
  | .dead => 0
  | .playing => 1
  | .heard => 2

structure Fate where
  state : State
  /-- heard: the first cp line after its delivery -/
  line : Option Nat := none
  /-- dead unvoiced: a later cp GUIDE replaced it -/
  superseded : Bool := false
  deriving DecidableEq, Repr

/-- `turns`: a turn's generation and items, by its id. -/
def turnOf (events : List Event) (id : Nat) : Option (String × List ItemKind) :=
  events.findSome? fun e =>
    match e.cue with
    | .turn _ gen items => if e.seq = id then some (gen, items) else none
    | _ => none

def cut (events : List Event) (gen : String) : Bool := events.any (·.cue = .cancelled gen)

/-- A generation's utterance ids. -/
def sentences (events : List Event) (gen : String) : List String :=
  events.filterMap fun e =>
    match e.cue with
    | .sentence g utt _ => if g = gen then some utt else none
    | _ => none

/-- An utterance's cp delivery: its seq, and whether it was cut; of several, the last. -/
def delivered (events : List Event) (utt : String) : Option (Nat × Bool) :=
  events.reverse.findSome? fun e =>
    match e.cue with
    | .delivered .cp u _ interrupted => if u = utt then some (e.seq, interrupted) else none
    | _ => none

def said (events : List Event) (utt : String) : Option Nat :=
  events.reverse.findSome? fun e =>
    match e.cue with
    | .final .cp u => if u = utt then some e.seq else none
    | .delivered .cp u _ _ => if u = utt then some e.seq else none
    | _ => none

/-- The fate of a message, as one `s2f.voiced` that cites the turn tells it. -/
def fate (events : List Event) (seqs : List Nat) (turn : Nat) : Fate :=
  match turnOf events turn with
  | some (gen, items) =>
    if spoke items && !cut events gen then
      let played := (sentences events gen).map (delivered events)
      let done := played.reduceOption
      if done.any Prod.snd then ⟨.dead, none, false⟩  -- cut
      else if played ≠ [] && done.length = played.length then
        ⟨.heard, some (seqs.countP (· ≤ (done.map Prod.fst).foldr max 0)), false⟩
      else ⟨.playing, none, false⟩
    else ⟨.dead, none, false⟩
  | none => ⟨.dead, none, false⟩

/-- The better fate, of several voicings; of two as good, the first. -/
def better (old : Option Fate) (new : Fate) : Fate :=
  match old with
  | some old => if old.state.rank < new.state.rank then new else old
  | none => new

def voicedFates (events : List Event) (seqs : List Nat) : Dict String Fate :=
  events.foldl
    (fun out e =>
      match e.cue with
      | .voiced msgId turn => out.set msgId (better (out.get? msgId) (fate events seqs turn))
      | _ => out)
    .empty

def Event.guide? (e : Event) : Option (Nat × String) :=
  match e.cue with
  | .s2f .cp msgId true => some (e.seq, msgId)
  | _ => none

def ended (events : List Event) (gen : String) : Bool :=
  cut events gen || events.any fun e =>
    match e.cue with
    | .turn _ g _ => g = gen
    | _ => false

/-- A cp generation requested between the two places may still voice what was the newest then. -/
def rendered (events : List Event) (old new : Nat) : Bool :=
  events.any fun e =>
    match e.cue with
    | .request .cp gen => old < e.seq && e.seq < new && !ended events gen
    | _ => false

/-- `fates`, of the transcript's utterance ids: `none` is a line that no event said. -/
def fates (events : List Event) (lines : List String) : Option (Dict String Fate) := do
  let seqs ← lines.mapM (said events)
  let guides := events.filterMap Event.guide?
  return (guides.zip guides.tail).foldl
    (fun out (old, new) =>
      if (out.get? old.2).isNone && !rendered events old.1 new.1 then
        out.set old.2 ⟨.dead, none, true⟩
      else out)
    (voicedFates events seqs)

def fateOf (events : List Event) (msgId : String) : Option Fate :=
  (fates events (cpLines events)).bind (·.get? msgId)

def heardAt (events : List Event) (msgId : String) : Option Nat :=
  (fateOf events msgId).bind Fate.line

def calls (events : List Event) : Nat := events.countP (·.cue = .opened .cp)

/-- A tracked read-back ask: its message, its call and the asked terms. -/
structure Tracked where
  msgId : String
  call : Nat
  ask : Said.Ask

/-- The window of a read-back ask: of the current call, from where the rep heard it. -/
def window (events : List Event) (x : Tracked) : Option Said.Ask :=
  if x.call = calls events then (heardAt events x.msgId).map fun n => { x.ask with opening := n }
  else none

def windows (events : List Event) (readbackAsks : Dict String (List Tracked)) :
    Dict String (List Said.Ask) :=
  readbackAsks.mapValues fun asks => asks.filterMap (window events)

@[simp] theorem get?_windows (events : List Event) (readbackAsks : Dict String (List Tracked))
    (ref : String) : (windows events readbackAsks).get? ref =
      (readbackAsks.get? ref).map fun asks => asks.filterMap (window events) :=
  Dict.get?_mapValues _ _ _

/-! ## The kernel's rules -/

def Requests (lane : Lane) (gen : String) (e : Event) : Prop := e.cue = .request lane gen

def TurnOf (lane : Lane) (gen : String) (e : Event) : Prop := ∃ items, e.cue = .turn lane gen items

def Cancels (gen : String) (e : Event) : Prop := e.cue = .cancelled gen

def Says (gen utt : String) (e : Event) : Prop := ∃ text, e.cue = .sentence gen utt text

def Delivers (utt : String) (e : Event) : Prop :=
  ∃ lane textHeard interrupted, e.cue = .delivered lane utt textHeard interrupted

def HearsWhole (utt : String) (e : Event) : Prop :=
  ∃ lane textHeard, e.cue = .delivered lane utt textHeard false

/-- The event uses the utterance id. -/
def Names (utt : String) (e : Event) : Prop :=
  (∃ gen, Says gen utt e) ∨ Delivers utt e ∨ ∃ lane, e.cue = .final lane utt

def Guides (msgId : String) (e : Event) : Prop := e.cue = .s2f .cp msgId true

/-- The lane's newest request, which is the one it works on, is the generation's. -/
def Current (log : List Event) (lane : Lane) (gen : String) : Prop :=
  ∃ r, At log r (Requests lane gen) ∧ Quiet log r log.length fun e => ∃ g, Requests lane g e

/-- No utterance of the generation was delivered. -/
def Unplayed (log : List Event) (gen : String) : Prop :=
  ∀ s utt d, At log s (Says gen utt) → ¬ At log d (Delivers utt)

/-- The next event is one that the kernel may write. -/
def Allowed (log : List Event) (e : Event) : Prop :=
  match e.cue with
  | .request _ gen => ∀ lane n, ¬ At log n (Requests lane gen)
  | .turn lane gen _ => Current log lane gen ∧ (∀ n lane, ¬ At log n (TurnOf lane gen)) ∧
      ∀ n, ¬ At log n (Cancels gen)
  | .cancelled gen => (∃ lane, Current log lane gen) ∧ Unplayed log gen
  | .sentence gen utt text => (∃ lane n, Current log lane gen ∧ At log n (TurnOf lane gen)) ∧
      Unplayed log gen ∧ text ≠ "" ∧ ∀ n, ¬ At log n (Names utt)
  | .voiced msgId turn =>
      -- a GUIDE only as the newest at the turn's request
      ∃ lane gen r, At log turn (TurnOf lane gen) ∧ Current log lane gen ∧
        At log r (Requests lane gen) ∧ ∀ n, At log n (Guides msgId) →
          lane = .cp ∧ n < r ∧ Quiet log n r fun e => ∃ m, Guides m e
  | .final _ utt => ∀ n, ¬ At log n (Names utt)
  | .delivered lane utt textHeard interrupted =>
      -- another line, or the next sentence of the lane's generation, unless one was cut
      (∀ n, ¬ At log n (Names utt)) ∨
      ∃ gen s text, At log s (·.cue = .sentence gen utt text) ∧ Current log lane gen ∧
        (∀ n, ¬ At log n (Cancels gen)) ∧ (∀ n, ¬ At log n (Delivers utt)) ∧
        (∀ s' utt', s' < s → At log s' (Says gen utt') → ∃ d, At log d (HearsWhole utt')) ∧
        (interrupted = false → textHeard = text)
  | .s2f _ msgId _ => ∀ n lane guide, ¬ At log n (·.cue = .s2f lane msgId guide)
  | .opened _ | .other => True

/-- The rule of one event: its seq is its place. -/
def Rule (log : List Event) (e : Event) : Prop := e.seq = log.length ∧ Allowed log e

/-- What is written before a lane waits again: each event by its rule, and no message voiced but by
a turn written with it. -/
structure Block (log es : List Event) : Prop where
  ruled : ∀ n e, es[n]? = some e → Rule (log ++ es.take n) e
  own : ∀ e ∈ es, ∀ msgId turn, e.cue = .voiced msgId turn → log.length ≤ turn

/-- The log goes on: by blocks. -/
inductive Extends (log : List Event) : List Event → Prop
  | refl : Extends log log
  | write {log' es : List Event} : Extends log log' → Block log' es → Extends log (log' ++ es)

/-- The logs the kernel can write. -/
def Written (log : List Event) : Prop := Extends [] log

end ProxyLoop.Fates

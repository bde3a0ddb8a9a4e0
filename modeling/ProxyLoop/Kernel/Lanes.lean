import ProxyLoop.Lib.Trace

/-!
# A Fast lane

One lane's generations: triggers coalesced, one generation at a time, a stale one cancelled and
run again.  A step is what happens between two waits of the lane's task, or an event that comes in
while it waits.  The log is the bus as the lane sees it: an event's seq is its place.
-/

namespace ProxyLoop.Lanes

/-! ## Triggers and events -/

inductive LaneName
  | user
  | cp
  deriving DecidableEq

inductive Kind
  | userMsg
  | repSpoke
  | slowMsg
  | guidance
  | approvalCard
  deriving DecidableEq

/-- What a generation answers; `msgId` is the Slow message that `slow_msg` voices. -/
structure Trigger where
  kind : Kind
  msgId : Option Nat := none
  deriving DecidableEq

/-- Served before Slow's messages and timers. -/
def URGENT : List Kind := [.userMsg, .repSpoke]

/-- A pending trigger. -/
structure Ask where
  trigger : Trigger
  cause : Nat
  /-- the APPROVAL_NOTICEs it voices -/
  acks : List Nat := []
  /-- GUIDEs a cancelled turn voiced -/
  guides : List Nat := []
  /-- it is re-run after a stale generation -/
  again : Bool := false
  deriving DecidableEq

/-- A reply to the rep, which a newer line of the rep's makes stale. -/
def Ask.reply (a : Ask) : Bool := a.trigger.kind = .repSpoke && !a.again

/-- What a generation's text is parsed into; of a relay, whether it keeps the contract's bounds. -/
inductive Item
  | speech
  | relay (bounded : Bool)
  | hold (reason : String)
  | issue
  deriving DecidableEq

/-- It spoke or gave a directive. -/
def acts (items : List Item) : Bool := items.any (· ≠ .issue)

inductive Reason
  | epoch
  | verbatim
  | partner
  deriving DecidableEq

/-- An utterance: a line of a generation, or another one. -/
inductive Utt
  | fast (gen n : Nat)
  | other (n : Nat)
  deriving DecidableEq

/-- What the lane sees of an event; an `s2f.msg` has its seq as its id, and `request` keeps the ask
it is for. -/
inductive Entry
  | userMsg
  | rep
  | guide
  | slow
  | notice
  | requested
  | decided
  | epoch
  | released
  | delivered (cites : Nat)
  | bargeIn (utt : Utt)
  | other
  | request (gen : Nat) (ask : Ask)
  | cancelled (gen : Nat) (reason : Reason)
  | turn (gen : Nat) (items : List Item)
  | voiced (msg gen : Nat)
  | sentence (gen n : Nat)
  | relay
  | hold (reason : Option String)
  deriving DecidableEq

/-- An event that others write, and the lanes that get it: Slow's texts and cards are the user's,
guides, the rep's lines and verbatim lines are the cp lane's. -/
def Entry.comes : Entry → LaneName → Bool
  | .userMsg, lane | .slow, lane | .notice, lane => lane = .user
  | .rep, lane | .guide, lane | .released, lane | .delivered _, lane | .bargeIn _, lane => lane = .cp
  | .requested, _ | .decided, _ | .epoch, _ | .other, _ => true
  | _, _ => false

/-! ## The lane -/

inductive Stage
  | streaming
  /-- waiting for the floor -/
  | floor (held : Option String) (lines : List Utt)
  | speaking (lines : List Utt)

/-- A generation under way: the ask, the epoch and the log it started on, and the GUIDE its view
rendered. -/
structure Running where
  ask : Ask
  gen : Nat
  epoch : Nat
  basis : Nat
  guides : List Nat
  stage : Stage := .streaming

inductive Why
  /-- the call is over -/
  | closed
  /-- no card was pending -/
  | moot
  /-- a turn the rep heard whole voiced the GUIDE -/
  | said (guide : Nat)
  /-- its re-run was stale again -/
  | stale
  deriving DecidableEq

structure Drop where
  ask : Ask
  why : Why
  seq : Nat

/-- `card`, `epoch`, `unvoiced` and `hold` are the board's pending card, epoch, pending Slow messages
of the lane and cp hold. -/
structure Lane where
  lane : LaneName
  log : List Entry := [.other]
  pending : List Ask := []
  running : Option Running := none
  n : Nat := 0
  retried : List Nat := []
  said : List Nat := []
  cut : Option Utt := none
  released : Option Nat := none
  heard : Option Nat := none
  guide : Option Nat := none
  partner : Option Nat := none
  card : Bool := false
  epoch : Nat := 0
  unvoiced : List Nat := []
  hold : Option String := none
  closed : Bool := false
  dropped : List Drop := []

namespace Lane

def emit (s : Lane) (e : Entry) : Lane := { s with log := s.log ++ [e] }

def emits (s : Lane) (es : List Entry) : Lane := { s with log := s.log ++ es }

def drop (s : Lane) (ask : Ask) (why : Why) : Lane :=
  { s with dropped := s.dropped ++ [⟨ask, why, s.log.length⟩] }

/-! ## Pending triggers -/

/-- Of one kind, and so run once; each Slow message is. -/
def same (ask a : Ask) : Bool :=
  a.trigger.kind = ask.trigger.kind && ask.trigger.kind ≠ .slowMsg

/-- An ask with the acks and guides of the pending ones of its kind. -/
def absorb (pending : List Ask) (ask : Ask) : Ask :=
  { ask with
    acks := (pending.filter (same ask)).flatMap Ask.acks ++ ask.acks
    guides := (pending.filter (same ask)).flatMap Ask.guides ++ ask.guides }

/-- One of each kind, the newest absorbing the older one's acks and guides. -/
def add (s : Lane) (ask : Ask) (first : Bool) : Lane :=
  let rest := s.pending.filter fun a => !same ask a
  { s with
    pending := if first then absorb s.pending ask :: rest else rest ++ [absorb s.pending ask] }

def trigger (s : Lane) (trigger : Trigger) (cause : Nat) (acks : List Nat) : Lane :=
  s.add { trigger, cause, acks } false

/-- A stale generation's trigger, first on the new basis (an APPROVAL_NOTICE once), with the GUIDEs
to voice again. -/
def again (s : Lane) (ask : Ask) : Lane :=
  if ask.again ∧ ask.trigger.kind = .approvalCard then s.drop ask .stale
  else s.add { ask with again := true } true

/-! ## Events -/

/-- An event that comes in: what the board and the lane note of it, and what it triggers. -/
def on (s : Lane) (e : Entry) : Lane :=
  let seq := s.log.length
  let s := s.emit e
  match e with
  | .userMsg => s.trigger { kind := .userMsg } seq []
  | .rep =>
    let s := { s with partner := some seq }
    if s.closed then s else s.trigger { kind := .repSpoke } seq []
  | .guide =>
    let s := { s with guide := some seq, unvoiced := s.unvoiced ++ [seq] }
    if s.closed then s else s.trigger { kind := .guidance } seq []
  | .slow =>
    { s with unvoiced := s.unvoiced ++ [seq] }.trigger { kind := .slowMsg, msgId := some seq } seq []
  -- acknowledged by the turn that voices it
  | .notice =>
    { s with unvoiced := s.unvoiced ++ [seq] }.trigger { kind := .approvalCard } seq [seq]
  | .requested => { s with card := true }
  | .decided => { s with card := false }
  | .epoch => { s with epoch := s.epoch + 1 }
  | .released => { s with released := some seq }
  | .delivered cites => if s.released = some cites then { s with heard := some seq } else s
  | .bargeIn utt => { s with cut := some utt }
  | _ => s

/-! ## Generations -/

/-- The trigger that is served next. -/
def chosen (pending : List Ask) : Option Ask :=
  match pending.find? fun a => URGENT.contains a.trigger.kind with
  | some a => some a
  | none => pending.head?

/-- The GUIDE that the view of an ask renders, if it is still to be voiced. -/
def rendered (s : Lane) (ask : Ask) : List Nat :=
  match s.guide with
  | some g => if g ∈ s.unvoiced ∨ g ∈ ask.guides then [g] else []
  | none => []

/-- Why an ask does not run. -/
def skips (s : Lane) (ask : Ask) : Option Why :=
  if s.lane = .cp ∧ s.closed then some .closed
  else if ask.trigger.kind = .approvalCard ∧ !s.card then some .moot
  else
    match s.guide with
    | some g => if ask.trigger.kind = .guidance ∧ g ∈ s.said then some (.said g) else none
    | none => none

def start (s : Lane) (ask : Ask) : Lane :=
  let running : Running :=
    { ask, gen := s.n + 1, epoch := s.epoch, basis := s.log.length - 1, guides := s.rendered ask }
  { s.emit (.request (s.n + 1) ask) with n := s.n + 1, running := some running }

/-- The pending triggers, served until one of them waits for its model. -/
def serve (s : Lane) : Nat → Lane
  | 0 => s
  | fuel + 1 =>
    match chosen s.pending with
    | none => s
    | some ask =>
      let s := { s with pending := s.pending.erase ask }
      match s.skips ask with
      | some why => (s.drop ask why).serve fuel
      | none => s.start ask

/-- The lane's task goes on to what is pending. -/
def next (s : Lane) : Lane := { s with running := none }.serve s.pending.length

def holds (s : Lane) (held : Option String) : Lane :=
  if s.lane = .cp ∧ held ≠ s.hold then { s.emit (.hold held) with hold := held } else s

/-- An item's relay to Slow: an unchanged hold has been relayed. -/
def relays (s : Lane) : Item → Bool
  | .relay bounded => bounded
  | .hold reason => !(s.lane = .cp && s.hold = some reason)
  | _ => false

def lines (gen : Nat) (items : List Item) : List Utt :=
  (List.range (items.count .speech)).map (.fast gen)

def held (items : List Item) : Option String :=
  items.findSome? fun
    | .hold reason => some reason
    | _ => none

/-- The GUIDEs that a turn voices: an empty one voices none. -/
def voices (r : Running) (items : List Item) : List Nat := if acts items then r.guides else []

/-- An empty turn's GUIDE, re-triggered once per message. -/
def retrigger (s : Lane) (r : Running) (items : List Item) (turn : Nat) : Lane :=
  let new := (r.guides.filter (· ∉ r.ask.guides)).filter (· ∉ s.retried)
  if !acts items && !new.isEmpty then
    { s with retried := s.retried ++ new }.trigger { kind := .guidance } turn []
  else s

def voice (s : Lane) (gen : Nat) (msgs : List Nat) : Lane :=
  { s with unvoiced := s.unvoiced.filter (· ∉ msgs) }.emits (msgs.map (.voiced · gen))

/-- What a turn writes: what it voices, its relays and its sentences. -/
def writes (s : Lane) (r : Running) (items : List Item) : Lane :=
  let s := (s.emit (.turn r.gen items)).retrigger r items s.log.length
  let s := s.voice r.gen
    (voices r items ++ r.ask.trigger.msgId.toList ++ r.ask.acks).eraseDups
  let s := s.emits ((items.filter s.relays).map fun _ => .relay)
  s.emits ((List.range (lines r.gen items).length).map (.sentence r.gen))

def turn (s : Lane) (r : Running) (items : List Item) : Lane :=
  let s := s.writes r items
  let lines := lines r.gen items
  if lines.isEmpty then (s.holds (held items)).next
  else
    { s with
      running := some { r with
        guides := voices r items
        stage := .floor (held items) lines } }

/-- A stream that ended: stale if the epoch moved. -/
def streamed (s : Lane) (r : Running) (items : List Item) : Lane :=
  if s.epoch ≠ r.epoch then ((s.emit (.cancelled r.gen .epoch)).again r.ask).next
  else s.turn r items

/-- What was heard since the request that the turn does not know. -/
def newer (s : Lane) (r : Running) : Option Nat :=
  (s.heard.toList ++ if r.ask.reply then s.partner.toList else []).find? (r.basis < ·)

/-- The floor is the turn's: it speaks, with its hold, or is stale. -/
def takes (s : Lane) (r : Running) (held : Option String) (lines : List Utt) : Lane :=
  match s.newer r with
  | some seq =>
    let why := if s.heard = some seq then .verbatim else .partner
    ((s.emit (.cancelled r.gen why)).again { r.ask with guides := r.guides }).next
  | none => { s.holds held with running := some { r with stage := .speaking lines } }

/-- The turn was delivered: its GUIDE is said if it was heard whole. -/
def spoken (s : Lane) (r : Running) (lines : List Utt) : Lane :=
  let cut := s.cut.any (lines.contains ·)
  (if cut then s else { s with said := s.said ++ r.guides }).next

end Lane

/-! ## Steps -/

inductive Act
  | event (e : Entry)
  /-- the lane's task wakes to its triggers -/
  | wake
  /-- the model's stream ends -/
  | streamed (items : List Item)
  /-- the floor is free for the turn -/
  | floor
  /-- the turn's lines are delivered -/
  | spoken
  | hangUp
  deriving DecidableEq

def step (s : Lane) : Act → Option Lane
  | .event e => if e.comes s.lane then some (s.on e) else none
  | .wake => if s.running.isNone then some s.next else none
  | .streamed items =>
    match s.running with
    | some r =>
      match r.stage with
      | .streaming => some (s.streamed r items)
      | _ => none
    | none => none
  | .floor =>
    match s.running with
    | some r =>
      match r.stage with
      | .floor held lines => some (s.takes r held lines)
      | _ => none
    | none => none
  | .spoken =>
    match s.running with
    | some r =>
      match r.stage with
      | .speaking lines => some (s.spoken r lines)
      | _ => none
    | none => none
  | .hangUp => some { s with closed := true }

end ProxyLoop.Lanes

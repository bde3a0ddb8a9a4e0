import ProxyLoop.Kernel.Session

/-!
# The Speaker of the call

The floor of the cp lane as the tasks of the event loop share it: a lock, a count of the verbatim
lines that wait for it, a count of the partner turns whose lines have not landed, each with its
event, and a barge flag.  A step is what one task does between two awaits; the kernel's own steps go
on between them.  A task that awaits an event goes on once the event was set, a free lock is taken
by any task that awaits it, and a sleep ends at any time, so every schedule of the tasks is a run.
-/

namespace ProxyLoop

/-- `partner_bound`: every raised partner fence is bound. -/
def Authority.partnerBound (a : Authority) : Bool :=
  a.raised.values.all fun r => r.lane ≠ .cp || r.bound.isSome

namespace Speaker

/-! ## The tasks -/

/-- Where the task of a verbatim line stands, by what it awaits; `woken`: the event it awaits was
set meanwhile. -/
inductive Stand
  | spawned
  /-- `_partner_idle.wait()` -/
  | idle (woken : Bool)
  /-- `Channel.quiet()` -/
  | quiet (woken : Bool)
  /-- `asyncio.sleep(0)` -/
  | yields
  /-- `_lock.acquire()` -/
  | locks
  /-- a fence moves, or the line's time is up -/
  | fenced
  | speaks
  | over
  | cancelled
  deriving DecidableEq

/-- A verbatim line's task: `held` counts it over the fence wait. -/
structure Verbatim where
  stand : Stand := .spawned
  held : Bool := false
  deriving DecidableEq

inductive Turn
  /-- `_no_queued.wait()` -/
  | waits (woken : Bool)
  | locks
  | speaks
  | over
  deriving DecidableEq

/-- A partner turn: it awaits the lock, then its lines land. -/
inductive Partner
  | waits | lands | over
  deriving DecidableEq

inductive Holder
  | line (seq : Nat)
  | turn (i : Nat)
  deriving DecidableEq

def Stand.wakeIdle : Stand → Stand
  | .idle _ => .idle true
  | s => s

def Stand.wakeQuiet : Stand → Stand
  | .quiet _ => .quiet true
  | s => s

def Turn.wake : Turn → Turn
  | .waits _ => .waits true
  | t => t

end Speaker

open Speaker in
/-- The Speaker of the cp lane with its channel, and the tasks that share them. -/
structure Speaker where
  lock : Option Holder := none
  barge : Bool := false
  speaking : Bool := false
  /-- the partner was mid-turn when this speech began -/
  stale : Bool := false
  /-- partner turns begun whose lines have not landed -/
  partner : Int := 0
  partnerIdle : Bool := true
  /-- verbatim lines waiting for the floor -/
  queued : Int := 0
  noQueued : Bool := true
  /-- `Channel._composing` -/
  composing : Nat := 0
  /-- the partner turns in `Channel.incoming` -/
  incoming : Nat := 0
  /-- the tasks of the verbatim lines, by the seq of the line -/
  lines : Nat → Verbatim := fun _ => {}
  turns : List Turn := []
  partners : List Partner := []

namespace Speaker

/-! ## The object's methods -/

def queue (s : Speaker) (n : Int) : Speaker :=
  if s.queued + n = 0 then
    { s with queued := s.queued + n, noQueued := true, turns := s.turns.map Turn.wake }
  else { s with queued := s.queued + n, noQueued := false }

/-- `_partner_pending`: a turn begun, composed or queued. -/
def pending (s : Speaker) : Bool := 0 < s.partner || s.composing ≠ 0 || s.incoming ≠ 0

def put (s : Speaker) (seq : Nat) (l : Verbatim) : Speaker :=
  { s with lines := fun n => if n = seq then l else s.lines n }

/-- The task of a line goes on to its next await. -/
def stand (s : Speaker) (seq : Nat) (to_ : Stand) : Speaker :=
  s.put seq { s.lines seq with stand := to_ }

/-- `_floor_after_partner`: the line queues and awaits the partner's lines. -/
def enters (s : Speaker) (seq : Nat) : Speaker := (s.queue 1).stand seq (.idle s.partnerIdle)

/-- The line leaves the queue, and the count that held over its fence wait. -/
def leaves (s : Speaker) (seq : Nat) : Speaker :=
  if (s.lines seq).held then (s.queue (-1)).queue (-1) else s.queue (-1)

/-- `_deliver` begins, on the floor. -/
def delivers (s : Speaker) (h : Holder) : Speaker :=
  { s with lock := some h, barge := false, speaking := true, stale := s.composing ≠ 0 }

/-- `_deliver` has ended, and the floor is given back. -/
def ends (s : Speaker) : Speaker := { s with lock := none, speaking := false }

/-- What its cancellation undoes: the waiting line's own counts. -/
def cancels (s : Speaker) (seq : Nat) : Speaker :=
  let l := s.lines seq
  let s := match l.stand with
    | .idle _ | .quiet _ | .yields | .locks => s.leaves seq
    | _ => if l.held then s.queue (-1) else s
  s.put seq ⟨.cancelled, false⟩

/-- `partner_turn` begins: it cuts the line, unless it answers an older one. -/
def begins (s : Speaker) : Speaker :=
  { s with
    incoming := s.incoming - 1
    partner := s.partner + 1
    partnerIdle := false
    barge := if s.speaking && s.stale then s.barge else true
    partners := s.partners ++ [.waits] }

/-- `partner_turn` ends. -/
def landed (s : Speaker) (i : Nat) : Speaker :=
  let s := { s with partner := s.partner - 1, partners := s.partners.set i .over }
  if s.partner = 0 then
    { s with
      partnerIdle := true
      lines := fun n => { s.lines n with stand := (s.lines n).stand.wakeIdle } }
  else s

/-- `Channel.composing(-1)`. -/
def composed (s : Speaker) : Speaker :=
  let s := { s with composing := s.composing - 1 }
  if s.composing = 0 then
    { s with lines := fun n => { s.lines n with stand := (s.lines n).stand.wakeQuiet } }
  else s

/-- `speak`: no new turn while a verbatim line waits for the floor. -/
def turnStep (s : Speaker) (i : Nat) (fresh : Bool) : Option Speaker :=
  match s.turns[i]? with
  | some (.waits true) => some { s with turns := s.turns.set i .locks }
  | some .locks =>
    if s.lock ≠ none then none
    else if s.queued ≠ 0 then some { s with turns := s.turns.set i (.waits s.noQueued) }
    else if fresh then some ({ s with turns := s.turns.set i .speaks }.delivers (.turn i))
    else some { s with turns := s.turns.set i .over }
  | _ => none

end Speaker

/-! ## The floor in a run -/

def Payload.isGuardLine : Payload → Bool
  | .speakVerbatim _ kind .. => kind ≠ .other
  | _ => false

/-- The event at `seq` is a verbatim line of Guard's. -/
def guardLine (log : List Event) (seq : Nat) : Bool :=
  log.any fun e => e.seq = seq && e.payload.isGuardLine

/-- The kernel with the Speaker of its call. -/
structure Stage where
  k : Kernel
  sp : Speaker := {}

namespace Stage

open Speaker

def start (session : Session) (runId : String) : Stage := { k := Kernel.start session runId }

inductive Act
  | kernel (a : Kernel.Act)
  /-- the task of a waiting line goes on -/
  | line (tMs : Nat) (i : Nat)
  /-- the line on the floor was heard -/
  | heard (tMs : Nat) (said : String)
  | cancel (i : Nat)
  /-- the session ends while a line is spoken -/
  | cancelSpoken
  | speak
  /-- the task of a turn of Fast's goes on; `fresh`: nothing was said since its request -/
  | turn (i : Nat) (fresh : Bool)
  | turnEnds (i : Nat)
  | cancelTurn (i : Nat)
  /-- the partner hears a line, has composed, queues its reply, which may have no line to land -/
  | composes | composed | replies | drops
  | begins
  /-- the task of a partner turn goes on -/
  | partner (i : Nat)
  | cancelPartner (i : Nat)

/-- What the rest of the kernel may do: the floor is the Speaker's, the partner's lines land in its
turns, and the disclosure's release is its own line's. -/
def allows (st : Stage) : Kernel.Act → Bool
  | .floor .. | .heard .. => false
  | .world _ _ causes p =>
    match p with
    | .uttFinal .cp .partner .. => st.sp.partners.any (· = .lands)
    | .uttDelivered .cp .. => st.sp.lock.any fun h => match h with
      | .turn _ => true
      | .line _ => false
    | .speakReleased .cp _ => causes.all fun c => !guardLine st.k.log c
    | _ => true
  | _ => true

/-- `_floor_revalidated` from the lock on. -/
def takes (host : Host) (st : Stage) (tMs : Nat) (i : Nat) (q : Waiting) : Option Stage :=
  if st.sp.lock ≠ none then none
  else if st.sp.pending then
    some { st with sp := st.sp.stand q.seq (.idle st.sp.partnerIdle) }
  else
    let sp := st.sp.leaves q.seq
    (st.k.takeFloor host tMs i).map fun k =>
      match st.k.revalidated host q with
      | .release => { k, sp := (sp.put q.seq ⟨.speaks, false⟩).delivers (.line q.seq) }
      | .revoke _ => { k, sp := sp.put q.seq ⟨.over, false⟩ }
      | .wait _ =>
        -- no turn of Fast's is needed to clear it
        if st.k.desk.auth.partnerBound then { k, sp := (sp.queue 1).put q.seq ⟨.fenced, true⟩ }
        else { k, sp := sp.put q.seq ⟨.fenced, false⟩ }

def lineStep (host : Host) (st : Stage) (tMs : Nat) (i : Nat) (q : Waiting) : Option Stage :=
  match (st.sp.lines q.seq).stand with
  | .spawned | .fenced => some { st with sp := st.sp.enters q.seq }
  | .idle true => some { st with sp := st.sp.stand q.seq (.quiet (st.sp.composing = 0)) }
  | .quiet true =>
    some { st with sp := st.sp.stand q.seq (if st.sp.incoming ≠ 0 then .yields else .locks) }
  | .yields => some { st with sp := st.sp.stand q.seq (.idle st.sp.partnerIdle) }
  | .locks => st.takes host tMs i q
  | _ => none

/-- `_deliver` of the line on the floor ends; only a barge-in cuts it. -/
def heard (st : Stage) (tMs : Nat) (said : String) : Option Stage :=
  match st.sp.lock, st.k.floor with
  | some (.line n), some (q, _) =>
    if said = q.text || st.sp.barge then
      (st.k.hearLine tMs said).map fun k => { k, sp := (st.sp.ends).put n ⟨.over, false⟩ }
    else none
  | _, _ => none

/-- What one task does up to its next await. -/
def task (host : Host) (st : Stage) : Act → Option Stage
  | .kernel _ => none
  | .line tMs i => st.k.lines[i]?.bind fun q => st.lineStep host tMs i q
  | .heard tMs said => st.heard tMs said
  | .cancel i => st.k.lines[i]?.map fun q => { st with sp := st.sp.cancels q.seq }
  | .cancelSpoken =>
    match st.sp.lock with
    | some (.line n) => some { st with sp := { st.sp.put n ⟨.cancelled, false⟩ with lock := none } }
    | _ => none
  | .speak => some { st with sp := { st.sp with turns := st.sp.turns ++ [.waits st.sp.noQueued] } }
  | .turn i fresh => (st.sp.turnStep i fresh).map fun sp => { st with sp }
  | .turnEnds i =>
    if st.sp.turns[i]? = some .speaks then
      some { st with sp := { st.sp.ends with turns := st.sp.turns.set i .over } }
    else none
  | .cancelTurn i =>
    match st.sp.turns[i]? with
    | some .speaks =>
      some { st with sp := { st.sp with lock := none, turns := st.sp.turns.set i .over } }
    | some _ => some { st with sp := { st.sp with turns := st.sp.turns.set i .over } }
    | none => none
  | .composes => some { st with sp := { st.sp with composing := st.sp.composing + 1 } }
  | .composed => if st.sp.composing = 0 then none else some { st with sp := st.sp.composed }
  | .replies => some { st with sp := { st.sp with incoming := st.sp.incoming + 1 } }
  | .drops =>
    if st.sp.incoming = 0 then none
    else some { st with sp := { st.sp with incoming := st.sp.incoming - 1 } }
  | .begins => if st.sp.incoming = 0 then none else some { st with sp := st.sp.begins }
  | .partner i =>
    match st.sp.partners[i]? with
    | some .waits =>
      if st.sp.lock ≠ none then none
      else some { st with sp := { st.sp with partners := st.sp.partners.set i .lands } }
    | some .lands => some { st with sp := st.sp.landed i }
    | _ => none
  | .cancelPartner i =>
    if st.sp.partners[i]? = some .waits then some { st with sp := st.sp.landed i } else none

/-- The tasks go on between the kernel's blocks. -/
def step (host : Host) (st : Stage) : Act → Option Stage
  | .kernel a => if st.allows a then (st.k.step host a).map fun k => { st with k } else none
  | act => if st.k.idle then st.task host act else none

end Stage

end ProxyLoop

import ProxyLoop.Core.Bus

/-!
# Authority timing: the fences

A user fence is raised at every `user.msg`; a partner fence at every rep line that is not yet
covered while an accept is in flight, either as the line lands or as the accept is minted.  A fence
is bound by the Fast turn whose request saw its line and cleared by a completed Slow step whose
basis is at or after that turn (under `transcript`, a rep line is bound by itself: Slow reads it).

`Authority.onEvent` is the subscriber: the new bookkeeping, and what it then emits.
-/

namespace ProxyLoop

open Lib (Dict)

inductive SlowView
  | transcript | relayOnly
  deriving DecidableEq, Repr

/-- What of the session the Authority reads: how Slow sees the call, and whether there is one. -/
structure Session where
  slowView : SlowView
  slow : Bool := true
  deriving DecidableEq

/-- A raised fence: its lane, its utterance, that line's seq, and the seq a completed step's basis
must reach, once bound. -/
structure Raised where
  lane : Lane
  utt : String
  seq : Nat
  bound : Option Nat
  deriving DecidableEq

/-- A rep line not yet covered, with the seq a completed step's basis must reach, once known. -/
structure RepLine where
  utt : String
  seq : Nat
  bound : Option Nat
  deriving DecidableEq

structure Authority where
  n : Nat := 0
  root : Nat := 0
  /-- `_raised`, by fence id -/
  raised : Dict String Raised := .empty
  /-- `_basis`: a Fast generation's request basis -/
  basis : Dict String Nat := .empty
  /-- `_lines` -/
  lines : List RepLine := []
  userFences : Nat := 0
  /-- `_asked`: the event that asked for a card's or a mandate's decision -/
  asked : Dict String Nat := .empty
  /-- `_replan`: the status.changed to NEEDS_REPLAN -/
  replan : Option Nat := none
  /-- the cards whose expiry timer runs, with the event that asked -/
  timers : List (Nat × ApprovalCard) := []

/-- What a handler does to the bus: an emit, or a status move if it is legal then. -/
inductive Reaction
  | emit (actor : Actor) (causes : List Nat) (p : Payload)
  | move (trigger : Trigger) (cause : Nat)

namespace Authority

def fenceId (n : Nat) : String := "fence-" ++ toString n

def raise (a : Authority) (causes : List Nat) (seq : Nat) (lane : Lane) (utt : String)
    (bound : Option Nat) : Authority × List Reaction :=
  let id := fenceId (a.n + 1)
  ({ a with
      n := a.n + 1
      userFences := a.userFences + if lane = .user then 1 else 0
      raised := a.raised.set id ⟨lane, utt, seq, bound⟩ },
    [.emit .kernel causes (.authorityFence .raised id utt)])

/-- `_live`: a partner fence can bind, with a Slow and a live call. -/
def live (s : Session) (closed : Bool) : Bool := s.slow && !closed

/-- A rep line as it lands: Slow reads it itself under `transcript`. -/
def newLine (s : Session) (seq : Nat) (utt : String) : RepLine :=
  ⟨utt, seq, if s.slowView = .transcript then some seq else none⟩

def repLine (s : Session) (closed inFlight : Bool) (a : Authority) (seq : Nat) (utt : String) :
    Authority × List Reaction :=
  if !live s closed then (a, [])
  else
    let line := newLine s seq utt
    let a := { a with lines := a.lines ++ [line] }
    if inFlight then a.raise [seq] seq .cp utt line.bound else (a, [])

def fencedLines (a : Authority) : List Nat :=
  (a.raised.values.filter (·.lane = .cp)).map Raised.seq

def raiseAll (mint : Nat) : List RepLine → Authority → Authority × List Reaction
  | [], a => (a, [])
  | l :: ls, a =>
    let (a, first) := a.raise [l.seq, mint] l.seq .cp l.utt l.bound
    let (a, rest) := raiseAll mint ls a
    (a, first ++ rest)

/-- `_minted`: a fence for each rep line not yet covered and not yet fenced. -/
def minted (s : Session) (closed : Bool) (a : Authority) (mint : Nat) :
    Authority × List Reaction :=
  if !live s closed then (a, [])
  else raiseAll mint (a.lines.filter fun l => l.seq ∉ a.fencedLines) a

/-- `_bind`: the target of a line at `seq` that this turn's request, of basis `basis`, saw. -/
def bindAt (basis : Option Nat) (turn seq : Nat) (bound : Option Nat) : Option Nat :=
  match bound, basis with
  | none, some b => if seq ≤ b then some turn else none
  | bound, _ => bound

/-- A fence of the turn's lane is bound if its line was seen. -/
def bindFence (basis : Option Nat) (turn : Nat) (lane : Lane) (r : Raised) : Raised :=
  if r.lane = lane then { r with bound := bindAt basis turn r.seq r.bound } else r

/-- A rep line is bound if a cp turn saw it. -/
def bindLine (basis : Option Nat) (turn : Nat) (lane : Lane) (l : RepLine) : RepLine :=
  if lane = .cp then { l with bound := bindAt basis turn l.seq l.bound } else l

def bind (a : Authority) (turn : Nat) (lane : Lane) (genId : String) : Authority :=
  let basis := a.basis.get? genId
  { a with
    basis := a.basis.erase genId
    lines := a.lines.map (bindLine basis turn lane)
    raised := a.raised.mapValues (bindFence basis turn lane) }

/-- `_clear` of each of the fences that satisfy `dead`, in order. -/
def clearAll (cause : Nat) (dead : Raised → Bool) (a : Authority) : Authority × List Reaction :=
  ({ a with raised := a.raised.filterValues fun r => !dead r },
    (a.raised.entries.filter (dead ·.2)).map fun p =>
      .emit .kernel [cause] (.authorityFence .cleared p.1 p.2.utt))

/-- `_closed`: an unbound cp fence clears, FastC answering nothing more. -/
def closedCall (a : Authority) (cause : Nat) : Authority × List Reaction :=
  a.clearAll cause fun r => r.lane = .cp && r.bound.isNone

/-- `_completed`: the step covers what its basis reached, and a replan it saw ends. -/
def completed (a : Authority) (step basis : Nat) : Authority × List Reaction :=
  let a := { a with lines := a.lines.filter fun l => !l.bound.any (· ≤ basis) }
  let (a, cleared) := a.clearAll step fun r => r.bound.any (· ≤ basis)
  if a.replan.any (· ≤ basis) then
    ({ a with replan := none }, cleared ++ [.move .replan step])
  else (a, cleared)

/-- `on_event`.  The approver's and the SimUser's spawned tasks are the environment's. -/
def onEvent (s : Session) (closed : Bool) (bb : Blackboard) (a : Authority) (e : Event) :
    Authority × List Reaction :=
  match e.payload with
  | .userMsg _ => if s.slow then a.raise [e.seq] e.seq .user e.eventId none else (a, [])
  | .uttFinal .cp .partner utt _ => repLine s closed (acceptInFlight bb) a e.seq utt
  | .actionAuthorized ⟨.acceptOffer, _⟩ => minted s closed a e.seq
  | .fastRequest _ genId basisSeq => ({ a with basis := a.basis.set genId basisSeq }, [])
  | .fastCancelled genId _ => ({ a with basis := a.basis.erase genId }, [])
  | .fastTurn lane genId => (a.bind e.seq lane genId, [])
  | .chanClosed _ => a.closedCall e.seq
  | .authorityEpoch _ =>
    if bb.priv.pendingApproval.any (·.authorityEpoch < bb.epoch) then
      (a, [.move .approvalStale e.seq])
    else (a, [])
  | .slowStepCompleted basisSeq => a.completed e.seq basisSeq
  | .f2sMsg msg =>
    if msg.type = .revoke then
      (a, [.emit .kernel [e.seq] (.authorityEpoch (.next bb.epoch .f2sRevoke))])
    else (a, [])
  | .approvalRequested card =>
    ({ a with asked := a.asked.set card.approvalId e.seq, timers := a.timers ++ [(e.seq, card)] },
      [])
  | .mandateProposed p => ({ a with asked := a.asked.set p.mandate.mandateId e.seq }, [])
  | .statusChanged ⟨_, .needsReplan⟩ => ({ a with replan := some e.seq }, [])
  | _ => (a, [])

/-- `partner_only`: fences are raised, and every one is a partner fence. -/
def partnerOnly (a : Authority) : Bool :=
  a.raised.values ≠ [] && a.raised.values.all (·.lane = .cp)

end Authority

end ProxyLoop

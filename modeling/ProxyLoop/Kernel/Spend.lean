import ProxyLoop.Evidence.Chain
import ProxyLoop.Lib.Tally
import ProxyLoop.Lib.Trace

/-!
# Spend, and the end it makes

The ledger prices each LLM call and stops a runaway session: the session is ending before anything
else runs, and a session that is ending, or has lost an endpoint, starts no new work.  What a rate
charges for a usage is open.
-/

namespace ProxyLoop.Spend

open Lib (Dict)
open Chain (LLMRole)

/-! ## Calls -/

inductive Endpoint
  | relay | teamrouter | vllm | openrouter | anthropic
  deriving DecidableEq, Repr

structure ModelRef where
  /-- none for a baseline -/
  endpoint : Option Endpoint
  modelId : String
  deriving DecidableEq, Repr

structure Usage where
  promptTokens : Nat
  completionTokens : Nat
  cacheReadTokens : Option Nat := none
  cacheWriteTokens : Option Nat := none
  deriving DecidableEq, Repr

/-- What is read of an `LLMCallRecord`. -/
structure Record where
  callId : String
  role : LLMRole
  ref : ModelRef
  usage : Option Usage
  attempt : Nat
  deriving DecidableEq, Repr

inductive Basis
  | tokens | gpuTime | unpriced
  deriving DecidableEq, Repr

/-- The `spend.charged` payload. -/
structure Charge where
  callId : String
  role : LLMRole
  attempt : Nat
  endpoint : Option Endpoint
  modelId : String
  basis : Basis
  microUsd : Option Nat
  deriving DecidableEq, Repr

/-! ## The ledger -/

/-- The rates of each endpoint that has any, by model, and `Rate.micro_usd`. -/
structure Rates (ρ : Type) where
  relay : Dict String ρ
  openrouter : Dict String ρ
  anthropic : Dict String ρ
  microUsd : ρ → Usage → Nat

variable {ρ : Type}

def Rates.rate (rates : Rates ρ) (ref : ModelRef) : Option ρ :=
  match ref.endpoint with
  | some .relay => rates.relay.get? ref.modelId
  | some .openrouter => rates.openrouter.get? ref.modelId
  | some .anthropic => rates.anthropic.get? ref.modelId
  | _ => none

def price (rates : Rates ρ) (record : Record) : Charge :=
  let charge (basis : Basis) (micro : Option Nat) : Charge :=
    ⟨record.callId, record.role, record.attempt, record.ref.endpoint, record.ref.modelId, basis,
      micro⟩
  if record.ref.endpoint = some .vllm then charge .gpuTime none
  else
    match rates.rate record.ref, record.usage with
    | some rate, some usage => charge .tokens (some (rates.microUsd rate usage))
    | _, _ => charge .unpriced none

def RUNAWAY_FACTOR : Nat := 3

def UNPRICED_FACTOR : Nat := 1

structure SpendLedger where
  limitMicroUsd : Nat
  limitTokens : Nat
  limitUnpricedCalls : Nat
  byRole : Dict LLMRole Nat := .empty
  unpricedByRole : Dict LLMRole Nat := .empty
  unpricedCalls : Nat := 0
  gpuTimeCalls : Nat := 0
  tokens : Nat := 0

/-- `SpendLedger(tokens, calls, cap, refs=refs)` -/
def SpendLedger.new (rates : Rates ρ) (tokens calls cap : Nat) (refs : List ModelRef) :
    Except String SpendLedger :=
  if min (min tokens calls) cap = 0 then
    .error "the episode projections and the cap must be positive"
  else
    let priced := refs.all fun r => r.endpoint = some .vllm || (rates.rate r).isSome
    let factor := if priced then RUNAWAY_FACTOR else UNPRICED_FACTOR
    .ok
      { limitMicroUsd := cap
        limitTokens := factor * tokens
        limitUnpricedCalls := factor * calls }

/-- `RunawaySpend` -/
inductive Runaway
  | spend (total limit : Nat)
  | tokens (total limit : Nat)
  | calls (total limit : Nat)
  deriving DecidableEq, Repr

def Runaway.text : Runaway → String
  | .spend total limit =>
    "runaway spend: " ++ toString total ++ " > " ++ toString limit ++ " micro-USD"
  | .tokens total limit => "runaway tokens: " ++ toString total ++ " > " ++ toString limit
  | .calls total limit =>
    "runaway calls: " ++ toString total ++ " > " ++ toString limit ++ " unpriced"

def tokensOf (charge : Charge) (record : Record) : Nat :=
  match record.usage with
  | some usage =>
    if charge.basis = .gpuTime then 0 else usage.promptTokens + usage.completionTokens
  | none => 0

def SpendLedger.add (l : SpendLedger) (charge : Charge) (record : Record) : SpendLedger :=
  let l := match charge.basis with
    | .unpriced =>
      { l with
        unpricedCalls := l.unpricedCalls + 1
        unpricedByRole := l.unpricedByRole.bump charge.role 1 }
    | .gpuTime => { l with gpuTimeCalls := l.gpuTimeCalls + 1 }
    | .tokens => l
  let l := { l with tokens := l.tokens + tokensOf charge record }
  match charge.microUsd with
  | some (micro + 1) => { l with byRole := l.byRole.bump charge.role (micro + 1) }
  | _ => l

/-- The first limit that is passed. -/
def SpendLedger.runaway? (l : SpendLedger) : Option Runaway :=
  if l.limitMicroUsd < l.byRole.total then some (.spend l.byRole.total l.limitMicroUsd)
  else if l.limitTokens < l.tokens then some (.tokens l.tokens l.limitTokens)
  else if l.limitUnpricedCalls < l.unpricedCalls then
    some (.calls l.unpricedCalls l.limitUnpricedCalls)
  else none

/-- `charge`: the ledger after it, the charge, and what is raised with it. -/
def SpendLedger.charge (rates : Rates ρ) (l : SpendLedger) (record : Record) :
    SpendLedger × Charge × Option Runaway :=
  let charge := price rates record
  let l := l.add charge record
  (l, charge, l.runaway?)

structure Totals where
  pricedMicroUsd : Nat
  pricedByRole : Dict LLMRole Nat
  unpricedCalls : Nat
  unpricedByRole : Dict LLMRole Nat
  gpuTimeCalls : Nat
  tokens : Nat

def SpendLedger.totals (l : SpendLedger) : Totals :=
  ⟨l.byRole.total, l.byRole, l.unpricedCalls, l.unpricedByRole, l.gpuTimeCalls, l.tokens⟩

/-! ## The session -/

inductive Event
  /-- `llm.call` -/
  | call (record : Record)
  /-- `spend.charged`, with the seq of its cause -/
  | charged (charge : Charge) (cause : Nat)
  /-- `slow.step.started` -/
  | slowStepStarted
  /-- `fast.request` -/
  | fastRequest
  /-- `session.ended` -/
  | ended (reason : String) (spend : Totals)
  | other

def Event.newWork : Event → Bool
  | .slowStepStarted | .fastRequest => true
  | _ => false

def Event.afterDeath : Event → Bool
  | .call _ | .charged .. | .ended .. => true
  | _ => false

structure Session where
  ledger : SpendLedger
  log : List Event := []
  /-- the calls that are expected -/
  expected : List String := []
  /-- the first reason of an end -/
  ending : Option String := none
  /-- an endpoint died -/
  dead : Bool := false
  ended : Bool := false

inductive Refusal
  /-- `SessionEnd` -/
  | sessionEnd (reason : String)
  | dead
  | ended
  | unknownCall (callId : String)
  deriving DecidableEq, Repr

def Session.emit (s : Session) (e : Event) : Except Refusal Session :=
  match s.ending, e.newWork with
  | some reason, true => .error (.sessionEnd reason)
  | _, _ =>
    if s.dead && !e.afterDeath then .error .dead
    else if s.ended then .error .ended
    else .ok { s with log := s.log ++ [e] }

def Session.end_ (s : Session) (reason : String) : Session :=
  { s with ending := some (s.ending.getD reason) }

def Session.charge (rates : Rates ρ) (s : Session) (record : Record) (cause : Nat) :
    Except Refusal Session :=
  let (ledger, charge, runaway) := s.ledger.charge rates record
  let s := { s with ledger }
  let s := if runaway.isSome then s.end_ "budget" else s
  s.emit (.charged charge cause)

def Session.record (rates : Rates ρ) (s : Session) (record : Record) : Except Refusal Session :=
  if record.callId ∉ s.expected then .error (.unknownCall record.callId)
  else do
    let cause := s.log.length
    let s ← s.emit (.call record)
    s.charge rates record cause

def Session.close (s : Session) (reason : String) : Except Refusal Session := do
  let s ← s.emit (.ended reason s.ledger.totals)
  .ok { s with ended := true }

inductive Act
  /-- a task emits -/
  | emit (e : Event)
  | expect (callId : String)
  /-- an adapter hands over a record -/
  | record (r : Record)
  /-- a task ends the session, or fails -/
  | end_ (reason : String)
  /-- an endpoint dies -/
  | die
  | close (reason : String)

/-- One act of a session's tasks; one that is refused raises in its task.  The session alone writes
what it records, charges and closes with. -/
def step (rates : Rates ρ) (s : Session) : Act → Option Session
  | .emit e => if !e.afterDeath then some ((s.emit e).toOption.getD s) else none
  | .expect callId => some { s with expected := callId :: s.expected }
  | .record r => some ((s.record rates r).toOption.getD s)
  | .end_ reason => some (s.end_ reason)
  | .die => some { s with dead := true }
  | .close reason => some ((s.close reason).toOption.getD s)

/-! ## What is spent -/

def records (log : List Event) : List Record :=
  log.filterMap fun
    | .call r => some r
    | _ => none

def micro (rates : Rates ρ) (r : Record) : Nat := (price rates r).microUsd.getD 0

def isUnpriced (rates : Rates ρ) (r : Record) : Bool := (price rates r).basis = .unpriced

def isGpuTime (rates : Rates ρ) (r : Record) : Bool := (price rates r).basis = .gpuTime

/-- The totals are those of the calls. -/
structure Tallied (rates : Rates ρ) (t : Totals) (calls : List Record) : Prop where
  priced : t.pricedMicroUsd = (calls.map (micro rates)).sum
  pricedBy : ∀ role, t.pricedByRole.count? role =
    ((calls.filter (·.role = role)).map (micro rates)).sum
  unpriced : t.unpricedCalls = calls.countP (isUnpriced rates)
  unpricedBy : ∀ role, t.unpricedByRole.count? role =
    (calls.filter (·.role = role)).countP (isUnpriced rates)
  gpuTime : t.gpuTimeCalls = calls.countP (isGpuTime rates)
  tokens : t.tokens = (calls.map fun r => tokensOf (price rates r) r).sum

/-- A limit of the ledger is passed by the calls. -/
def Over (rates : Rates ρ) (l : SpendLedger) (calls : List Record) : Prop :=
  l.limitMicroUsd < (calls.map (micro rates)).sum ∨
  l.limitTokens < (calls.map fun r => tokensOf (price rates r) r).sum ∨
  l.limitUnpricedCalls < calls.countP (isUnpriced rates)

structure SameLimits (l l' : SpendLedger) : Prop where
  micro : l'.limitMicroUsd = l.limitMicroUsd
  tokens : l'.limitTokens = l.limitTokens
  calls : l'.limitUnpricedCalls = l.limitUnpricedCalls

section

variable {rates : Rates ρ} {l l' l₀ : SpendLedger} {calls : List Record} {r : Record}

theorem price_role : (price rates r).role = r.role := by
  unfold price
  dsimp only
  split
  · rfl
  · split <;> rfl

theorem sum_role (role : LLMRole) (f : Record → Nat) :
    (((calls ++ [r]).filter (·.role = role)).map f).sum =
      ((calls.filter (·.role = role)).map f).sum + if role = r.role then f r else 0 := by
  rw [List.filter_append, List.map_append, List.sum_append]
  by_cases own : r.role = role
  · simp [own]
  · simp [own, Ne.symm own]

theorem countP_role (role : LLMRole) (q : Record → Bool) :
    ((calls ++ [r]).filter (·.role = role)).countP q = (calls.filter (·.role = role)).countP q +
      if role = r.role then (if q r then 1 else 0) else 0 := by
  rw [List.filter_append, List.countP_append]
  by_cases own : r.role = role
  · simp [own]
  · simp [own, Ne.symm own]

/-- What a charge adds to the ledger. -/
theorem add_spec (l : SpendLedger) (charge : Charge) (r : Record) :
    SameLimits l (l.add charge r) ∧
    (l.add charge r).byRole.total = l.byRole.total + charge.microUsd.getD 0 ∧
    (∀ role, (l.add charge r).byRole.count? role = l.byRole.count? role +
      if role = charge.role then charge.microUsd.getD 0 else 0) ∧
    (l.add charge r).unpricedCalls =
      l.unpricedCalls + (if charge.basis = .unpriced then 1 else 0) ∧
    (∀ role, (l.add charge r).unpricedByRole.count? role = l.unpricedByRole.count? role +
      if role = charge.role then (if charge.basis = .unpriced then 1 else 0) else 0) ∧
    (l.add charge r).gpuTimeCalls =
      l.gpuTimeCalls + (if charge.basis = .gpuTime then 1 else 0) ∧
    (l.add charge r).tokens = l.tokens + tokensOf charge r := by
  rcases charge with ⟨callId, role, attempt, endpoint, modelId, basis, microUsd⟩
  unfold SpendLedger.add
  cases basis <;> rcases microUsd with - | - | micro <;>
    refine ⟨⟨rfl, rfl, rfl⟩, ?_, ?_, ?_, ?_, ?_, ?_⟩ <;>
    simp [Dict.total_bump, Dict.count?_bump]

theorem Tallied.add (h : Tallied rates l.totals calls) (r : Record) :
    Tallied rates (l.add (price rates r) r).totals (calls ++ [r]) := by
  obtain ⟨-, total, byRole, unpriced, unpricedBy, gpuTime, tokens⟩ :=
    add_spec l (price rates r) r
  rw [price_role] at byRole unpricedBy
  refine ⟨?_, fun role => ?_, ?_, fun role => ?_, ?_, ?_⟩
  · rw [SpendLedger.totals, total, List.map_append, List.sum_append, ← h.priced]
    simp [micro, SpendLedger.totals]
  · rw [sum_role, ← h.pricedBy, SpendLedger.totals, byRole]
    rfl
  · rw [SpendLedger.totals, unpriced, List.countP_append, ← h.unpriced]
    simp [isUnpriced, SpendLedger.totals]
  · rw [countP_role, ← h.unpricedBy, SpendLedger.totals, unpricedBy]
    simp [isUnpriced, SpendLedger.totals]
  · rw [SpendLedger.totals, gpuTime, List.countP_append, ← h.gpuTime]
    simp [isGpuTime, SpendLedger.totals]
  · rw [SpendLedger.totals, tokens, List.map_append, List.sum_append, ← h.tokens]
    simp [SpendLedger.totals]

/-- The ledger raises exactly when a limit is passed. -/
theorem runaway_iff (same : SameLimits l₀ l) (h : Tallied rates l.totals calls) :
    l.runaway?.isSome = true ↔ Over rates l₀ calls := by
  rw [Over, ← h.priced, ← h.tokens, ← h.unpriced, ← same.micro, ← same.tokens, ← same.calls]
  unfold SpendLedger.runaway? SpendLedger.totals
  split
  · rename_i first
    simp [first]
  · rename_i first
    split
    · rename_i second
      simp [second]
    · rename_i second
      split
      · rename_i third
        simp [third]
      · rename_i third
        simp [first, second, third]

end

end ProxyLoop.Spend

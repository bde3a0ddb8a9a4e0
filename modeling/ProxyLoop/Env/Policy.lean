import Mathlib.Data.List.Sort
import ProxyLoop.Contract.Text
import ProxyLoop.Guard.Terms
import ProxyLoop.Lib.Dict

/-!
# The rep's policy

GREET, IDENTIFY, DISCOVER, OFFER, FINAL, CONFIRM, CONFIRMED, TRANSFER and ENDED: the simulated rep's
reaction to each act it heard, and to the clock.  Durations are in milliseconds.
-/

namespace ProxyLoop.Env

open Lib (Dict)

/-! ## What the rep knows -/

inductive RepState
  | greet | identify | discover | offer | final | confirm | confirmed | transfer | ended
  deriving DecidableEq, Repr

def RepState.terminal : RepState → Bool
  | .confirmed | .transfer | .ended => true
  | _ => false

inductive IntentKind
  | greet | askIdentity | howCanHelp | offer | finalOffer | noBetter | readback | confirmAccept
  | confirmed | ackDecline | offerUnavailable | offerExpired | okHold | checkIn | transfer | hangUp
  | clarify | ack
  deriving DecidableEq, Repr

/-- What the rep says next. -/
structure PublicIntent where
  kind : IntentKind
  offerRef : Option String := none
  say : List (String × String) := []
  /-- profile keys the rep asks for -/
  ask : List String := []
  /-- a `hang_up` for identity strikes -/
  identity : Bool := false
  deriving DecidableEq

/-- A ladder rung: `terms` are said when offering, `hidden` only on a read-back. -/
structure OfferSpec where
  offerRef : String
  terms : Dict String String
  hidden : Dict String String
  /-- `int(1000 * ttl_s)` -/
  ttlMs : Option Nat
  deriving DecidableEq

def OfferSpec.allTerms (spec : OfferSpec) : Dict String String :=
  spec.hidden.entries.foldl (fun d p => d.set p.1 p.2) spec.terms

inductive LedgerMode
  | honest | misquote | absent
  deriving DecidableEq, Repr

structure Patience where
  silenceMs : Nat
  holdMs : Nat
  strikes : Nat
  deriving DecidableEq

structure CounterpartySpec where
  identity : List String
  ladder : List OfferSpec
  patience : Patience
  ledger : LedgerMode
  unique : (ladder.map OfferSpec.offerRef).Nodup
  deriving DecidableEq

/-! ## What the rep heard -/

inductive Act
  | askDiscount | citeCompetitor | cancelIntent | tenure
  | askReadback | accept | decline | provideFact | refuseFact | askSupervisor | holdRequest
  | smalltalk | injection | other
  deriving DecidableEq, Repr

/-- `LEVERS` -/
def Act.isLever : Act → Bool
  | .askDiscount | .citeCompetitor | .cancelIntent | .tenure => true
  | _ => false

structure EarAct where
  act : Act
  offerRef : Option String := none
  /-- `Decimal(str(price_usd))` -/
  price : Option Rat := none
  facts : List (String × String) := []
  deriving DecidableEq

/-! ## The ledger -/

/-- What a confirmation binds. -/
structure BoundTerms where
  offerRef : String
  revision : Nat
  termMonths : Nat
  /-- every other term -/
  terms : List (String × String)
  deriving DecidableEq

def misquoteExtraTermMonths : Nat := 12

def LedgerMode.write (mode : LedgerMode) (entries : Dict String BoundTerms) (conf : String)
    (heard : BoundTerms) : Dict String BoundTerms :=
  match mode with
  | .absent => entries
  | .misquote => entries.set conf { heard with termMonths := heard.termMonths + misquoteExtraTermMonths }
  | .honest => entries.set conf heard

/-! ## The policy's state -/

inductive OfferStatus
  | open | expired | accepted
  deriving DecidableEq, Repr

structure Offer where
  spec : OfferSpec
  expiresMs : Option Nat
  status : OfferStatus := .open
  deriving DecidableEq

structure Commit where
  offerRef : String
  confirmationId : String
  /-- none: the ledger is absent -/
  bound : Option BoundTerms
  deriving DecidableEq

structure Decision where
  from_ : RepState
  to_ : RepState
  intent : PublicIntent
  rung : Option Nat
  commit : Option Commit := none
  strike : Bool := false
  deriving DecidableEq

structure Policy where
  spec : CounterpartySpec
  identity : Dict String String
  state : RepState := .greet
  /-- the last rung offered -/
  rung : Option Nat := none
  identityStrikes : Nat := 0
  timerStrikes : Nat := 0
  silences : Nat := 0
  holdStrikes : Nat := 0
  offers : Dict String Offer := .empty
  ledger : Dict String BoundTerms := .empty
  verified : List String := []
  levers : List Act := []
  pending : Option String := none
  holdSince : Option Nat := none
  /-- since the last progress, if held -/
  holdClock : Option Nat := none
  /-- none: someone has the floor -/
  freeSince : Option Nat := some 0

/-- The library functions the policy uses. -/
structure World where
  unicode : Unicode
  sha256 : String → String

/-- `norm`: letters and digits only, casefolded. -/
def World.norm (world : World) (value : String) : List Char :=
  (world.unicode.casefold value.toList).filter (Text.isAlnum world.unicode)

def OfferSpec.price? (spec : OfferSpec) : Option Rat :=
  (spec.terms.get? "monthly_price").map fun p => Text.decimalOf p.toList

/-- `_named`: the heard text says the offer's ref or its monthly price. -/
def World.named (world : World) (spec : OfferSpec) (heard : String) : Bool :=
  (match spec.price? with
    | some price => (Text.numbers heard.toList).contains price
    | none => false) ||
  Text.contains (world.unicode.casefold heard.toList) (world.unicode.casefold spec.offerRef.toList)

/-- `int(text)` of a text of digits. -/
def intOf (text : String) : Except PyError Nat :=
  if text.toList.all Text.isDecimal && text ≠ "" then .ok (Text.natOf text.toList) else .error .value

def hexValue (c : Char) : Nat :=
  if 97 ≤ c.toNat then c.toNat - 87 else c.toNat - 48

def World.confirmation (world : World) (ref uttId : String) : String :=
  let digest := (world.sha256 (ref ++ ":" ++ uttId)).toList.take 8
  let n := digest.foldl (fun n c => 16 * n + hexValue c) 0 % 1000000
  let digits := toString n
  String.ofList (List.replicate (6 - digits.length) '0') ++ digits

namespace Policy

def strikes (p : Policy) : Nat := p.identityStrikes + p.timerStrikes

def done (p : Policy) : Bool := p.state.terminal

def missing (p : Policy) : List String := p.spec.identity.filter fun k => k ∉ p.verified

def nextRung (p : Policy) : Nat := (p.rung.map (· + 1)).getD 0

def latest (p : Policy) : Option String :=
  p.rung.bind fun r => p.spec.ladder[r]?.map OfferSpec.offerRef

def offerState (p : Policy) : RepState :=
  match p.rung with
  | none => .discover
  | some r => if r = p.spec.ladder.length - 1 then .final else .offer

def termsIntent (kind : IntentKind) (spec : OfferSpec) : PublicIntent :=
  { kind, offerRef := some spec.offerRef, say := spec.allTerms.entries }

def due (o : Offer) (tMs : Nat) : Bool :=
  o.status = .open && o.expiresMs.any (· ≤ tMs)

def expire (p : Policy) (tMs : Nat) : Policy × List Decision :=
  ({ p with offers := p.offers.mapValues fun o => if due o tMs then { o with status := .expired } else o },
    (p.offers.entries.filter fun e => due e.2 tMs).map fun e =>
      { from_ := p.state, to_ := p.state, rung := p.rung
        intent := { kind := .offerExpired, offerRef := some e.1 } })

def lever (p : Policy) (act : Act) (tMs : Nat) : Policy × PublicIntent :=
  match p.spec.ladder[p.nextRung]? with
  | none => (p, { kind := .noBetter })
  | some spec =>
    if act ∈ p.levers then (p, { kind := .noBetter })
    else
      let p := { p with
        levers := act :: p.levers
        rung := some p.nextRung
        offers := p.offers.set spec.offerRef ⟨spec, spec.ttlMs.map (tMs + ·), .open⟩ }
      let p := { p with state := p.offerState, pending := none }
      (p, { kind := if p.state = .final then .finalOffer else .offer
            offerRef := some spec.offerRef
            say := spec.terms.entries })

/-- `_unreferenced`: the offer an accept with no reference is for, and whether it is named. -/
def unreferenced (world : World) (p : Policy) (heard : String) (listed : List String) :
    Option Offer × Bool :=
  let cands := p.offers.entries.filter fun e =>
    e.1 ∈ listed && e.2.status = .open && world.named e.2.spec heard
  let pending := p.offers.get? (p.pending.getD "")
  match p.state, pending with
  | .confirm, some o =>
    match cands.filter (·.1 ≠ p.pending.getD "") with
    | [] => (some o, true)
    | [other] => (some other.2, false)
    | _ => (some o, false)
  | _, _ =>
    match cands with
    | [only] => (some only.2, true)
    | _ => (p.offers.get? (p.latest.getD ""), false)

/-- The offer an accept is for, and whether it is taken by name. -/
def meant (world : World) (p : Policy) (act : EarAct) (heard : String) (listed : List String) :
    Option Offer × Bool :=
  match act.offerRef with
  | none => p.unreferenced world heard listed
  | some ref =>
    let offer := p.offers.get? ref
    let named := offer.any fun o => world.named o.spec heard
    if named then (offer, true)
    else match p.state, p.pending with
      | .confirm, some pending => (p.offers.get? pending, true)
      | _, _ => (offer.or (p.offers.get? (p.latest.getD "")), false)

def commits (world : World) (p : Policy) (o : Offer) (uttId : String) :
    Policy × Except PyError (PublicIntent × Option Commit) :=
  let spec := o.spec
  let p := { p with
    offers := p.offers.set spec.offerRef { o with status := .accepted }
    state := .confirmed
    pending := none }
  let confirmation := world.confirmation spec.offerRef uttId
  match spec.allTerms.get? "term_months" with
  | none => (p, .error .key)
  | some text =>
    match intOf text with
    | .error err => (p, .error err)
    | .ok months =>
      let rest := (spec.allTerms.erase "term_months").entries
      let heard : BoundTerms := ⟨spec.offerRef, 1, months, rest.insertionSort fun a b => a.1 ≤ b.1⟩
      let p := { p with ledger := p.spec.ledger.write p.ledger confirmation heard }
      (p, .ok ({ kind := .confirmed, offerRef := some spec.offerRef, say := [("confirmation", confirmation)] },
        some ⟨spec.offerRef, confirmation, p.ledger.get? confirmation⟩))

def accepts (world : World) (p : Policy) (act : EarAct) (uttId heard : String)
    (listed : List String) : Policy × Except PyError (PublicIntent × Option Commit) :=
  let (offer, named) := p.meant world act heard listed
  match offer with
  | none => (p, .ok ({ kind := .clarify }, none))
  | some o =>
    if o.status ≠ .open then
      (p, .ok ({ kind := .offerUnavailable, offerRef := some o.spec.offerRef }, none))
    else if !named || act.price.any (fun said => o.spec.price? ≠ some said) then
      ({ p with state := .confirm, pending := some o.spec.offerRef },
        .ok (termsIntent .confirmAccept o.spec, none))
    else p.commits world o uttId

def rightFacts (world : World) (p : Policy) (facts : List (String × String)) :
    List (String × String) :=
  facts.filter fun f =>
    world.norm f.2 ≠ [] && world.norm f.2 = world.norm ((p.identity.get? f.1).getD "")

/-- The keys of the right facts are verified; a new one lets the next hold start afresh. -/
def verifies (world : World) (p : Policy) (facts : List (String × String)) : Policy :=
  let right := (p.rightFacts world facts).map Prod.fst
  { p with
    verified := right ++ p.verified
    holdClock := if right.all (· ∈ p.verified) then p.holdClock else none }

/-- Ask for the keys that are missing, or how to help. -/
def asks (p : Policy) : Policy × PublicIntent :=
  if p.missing = [] then ({ p with state := .discover }, { kind := .howCanHelp })
  else (p, { kind := .askIdentity, ask := p.missing })

/-- What an act does while identifying: anything but a fact is an identity strike. -/
def identifies (world : World) (p : Policy) (act : EarAct) : Policy × PublicIntent :=
  if act.act = .provideFact then (p.verifies world act.facts).asks
  else
    let p := { p with identityStrikes := p.identityStrikes + 1 }
    if p.spec.patience.strikes ≤ p.identityStrikes then
      ({ p with state := .ended }, { kind := .hangUp, identity := true })
    else p.asks

def react (world : World) (p : Policy) (act : EarAct) (uttId heard : String) (tMs : Nat)
    (listed : List String) : Policy × Except PyError (PublicIntent × Option Commit) :=
  let tells (r : Policy × PublicIntent) : Policy × Except PyError (PublicIntent × Option Commit) :=
    (r.1, .ok (r.2, none))
  if act.act = .askSupervisor then tells ({ p with state := .transfer }, { kind := .transfer })
  else if act.act = .holdRequest then
    let clock := p.holdClock.getD tMs
    tells ({ p with holdClock := some clock, holdSince := some clock }, { kind := .okHold })
  else if p.state = .greet && act.act ≠ .provideFact then
    tells ({ p with state := .identify }, { kind := .greet, ask := p.missing })
  else if p.state = .greet || p.state = .identify then
    tells ({ p with state := .identify }.identifies world act)
  else if act.act.isLever then tells (p.lever act.act tMs)
  else match act.act with
    | .accept => p.accepts world act uttId heard listed
    | .askReadback =>
      match p.offers.get? (((act.offerRef.filter (· ≠ "")).or p.latest).getD "") with
      | some o =>
        if o.status = .open then tells (p, termsIntent .readback o.spec)
        else tells (p, { kind := .offerUnavailable, offerRef := act.offerRef })
      | none => tells (p, { kind := .offerUnavailable, offerRef := act.offerRef })
    | .decline =>
      tells (if p.state = .confirm then { p with state := p.offerState, pending := none } else p,
        { kind := .ackDecline })
    | .smalltalk | .other =>
      tells (p, { kind := if p.offers.entries.isEmpty then .clarify else .ack })
    | _ => tells (p, { kind := .clarify })

/-- `step`: the reaction to one heard utterance, after any expiries. -/
def step (world : World) (p : Policy) (act : EarAct) (uttId heard : String) (tMs : Nat)
    (listed : List String) : Policy × Except PyError (List Decision) :=
  if p.done then (p, .ok [])
  else
    let (p, out) := p.expire tMs
    let p := { p with freeSince := none, holdSince := none, silences := 0 }
    let before := p.state
    let strikes := p.strikes
    match p.react world act uttId heard tMs listed with
    | (p, .error err) => (p, .error err)
    | (p, .ok (intent, commit)) =>
      let p' := if before ≠ .identify && act.act ≠ .holdRequest then { p with holdClock := none } else p
      (p', .ok (out ++ [{ from_ := before, to_ := p'.state, intent, rung := p'.rung, commit,
                          strike := strikes < p'.strikes }]))

/-- Silence, or a hold, past its limit. -/
def overdue (p : Policy) (tMs : Nat) : Bool :=
  let limit := if p.holdSince.isNone then p.spec.patience.silenceMs else p.spec.patience.holdMs
  match p.holdSince.or p.freeSince with
  | none => false
  | some since => since + limit ≤ tMs

/-- A timer strike: the rep speaks up, and takes the floor. -/
def speaksUp (p : Policy) (tMs : Nat) : Policy × Decision :=
  let held := p.holdSince.isSome
  let p' := { p with
    timerStrikes := p.timerStrikes + 1
    silences := if held then p.silences else p.silences + 1
    holdStrikes := if held then p.holdStrikes + 1 else p.holdStrikes
    freeSince := none
    holdSince := if held then some tMs else none
    holdClock := if held && p.holdClock.isSome then some tMs else p.holdClock }
  let p' := { p' with
    state := if p.spec.patience.strikes ≤ p'.silences + p'.holdStrikes then .ended else p.state }
  (p', { from_ := p.state, to_ := p'.state, rung := p'.rung, strike := true
         intent := { kind := if p'.done then .hangUp else .checkIn } })

/-- `tick`: offer expiry, silence and hold strikes, the hang-up. -/
def tick (p : Policy) (tMs : Nat) : Policy × List Decision :=
  if p.done then (p, [])
  else
    let (p, out) := p.expire tMs
    if p.overdue tMs then ((p.speaksUp tMs).1, out ++ [(p.speaksUp tMs).2]) else (p, out)

/-- `floor`: silence counts only while the floor is free. -/
def floor (p : Policy) (free : Bool) (tMs : Nat) : Policy :=
  { p with freeSince := if free then some tMs else none }

end Policy

end ProxyLoop.Env

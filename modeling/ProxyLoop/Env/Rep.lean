import ProxyLoop.Env.Reactions
import ProxyLoop.Lib.Trace

/-!
# The simulated rep commits safely

Runs of the policy: each entry of the log is one call, at a time that does not go back, with the
policy it found and the decisions it returned.  `RepLaw` is what holds of every entry and those
before it.
-/

namespace ProxyLoop.Env

open Lib (Dict Reach Each each_nil each_snoc anyStep)

/-! ## Runs -/

inductive Op
  | heard (act : EarAct) (uttId heard : String) (listed : List String)
  | tick
  | floor (free : Bool)

/-- A call, what it found and what it returned: nothing, when it raised. -/
structure Told where
  tMs : Nat
  op : Op
  was : Policy
  decisions : List Decision

structure Sim where
  policy : Policy
  now : Nat := 0
  log : List Told := []

namespace Sim

def start (rep : CounterpartySpec) (identity : Dict String String) (t0Ms : Nat) : Sim :=
  { policy := { spec := rep, identity, freeSince := some t0Ms } }

def call (world : World) (p : Policy) (tMs : Nat) : Op → Policy × List Decision
  | .heard act uttId heard listed =>
    match p.step world act uttId heard tMs listed with
    | (p, .ok ds) => (p, ds)
    | (p, .error _) => (p, [])
  | .tick => p.tick tMs
  | .floor free => (p.floor free tMs, [])

def step (world : World) (s : Sim) (a : Nat × Op) : Option Sim :=
  if s.now ≤ a.1 then
    let (p, ds) := call world s.policy a.1 a.2
    some ⟨p, a.1, s.log ++ [⟨a.1, a.2, s.policy, ds⟩]⟩
  else none

end Sim

/-! ## What an entry says -/

def PublicIntent.isOffer (intent : PublicIntent) : Bool :=
  intent.kind = .offer || intent.kind = .finalOffer

namespace Told

def offers (e : Told) : Prop := ∃ d ∈ e.decisions, d.intent.isOffer = true

def makes (e : Told) (spec : OfferSpec) : Prop :=
  ∃ d ∈ e.decisions, d.intent.isOffer = true ∧ d.intent.offerRef = some spec.offerRef ∧
    d.intent.say = spec.terms.entries

/-- It asks to confirm this offer, with every term listed. -/
def confirms (e : Told) (spec : OfferSpec) : Prop :=
  ∃ d ∈ e.decisions, d.intent = Policy.termsIntent .confirmAccept spec

def expires (e : Told) (ref : String) : Prop :=
  ∃ d ∈ e.decisions, d.intent.kind = .offerExpired ∧ d.intent.offerRef = some ref

def commits (e : Told) (c : Commit) : Prop := ∃ d ∈ e.decisions, d.commit = some c

def declines (e : Told) : Prop :=
  ∃ act uttId heard listed, e.op = .heard act uttId heard listed ∧ act.act = .decline

end Told

def Given (world : World) (identity : Dict String String) (log : List Told) (key : String) : Prop :=
  ∃ e ∈ log, ∃ act uttId heard listed, e.op = .heard act uttId heard listed ∧
    Policy.Gives world identity act key

/-- A confirmation of every term was asked for, and since then no offer was made and no decline
heard. -/
def ConfirmedSince (log : List Told) (spec : OfferSpec) : Prop :=
  ∃ before c since, log = before ++ c :: since ∧ c.confirms spec ∧
    ∀ x ∈ since, ¬ x.offers ∧ ¬ x.declines

/-- The binding is the offer's terms, all of them. -/
structure Binds (spec : OfferSpec) (b : BoundTerms) : Prop where
  offerRef : b.offerRef = spec.offerRef
  terms : ∃ text, intOf text = .ok b.termMonths ∧
    (("term_months", text) :: b.terms).Perm spec.allTerms.entries

structure Committed (world : World) (rep : CounterpartySpec) (before : List Told) (e : Told)
    (c : Commit) (act : EarAct) (heard : String) (spec : OfferSpec) : Prop where
  offer : spec ∈ rep.ladder ∧ spec.offerRef = c.offerRef
  made : ∃ m ∈ before, m.makes spec ∧ ∀ ttl, spec.ttlMs = some ttl → e.tMs < m.tMs + ttl
  isOpen : ∀ x ∈ before ++ [e], ¬ x.expires c.offerRef
  meant : world.named spec heard = true ∨
    e.was.state = .confirm ∧ e.was.pending = some c.offerRef ∧ ConfirmedSince before spec
  price : ∀ said, act.price = some said → spec.price? = some said
  binding : rep.ledger = .honest → ∃ b, c.bound = some b ∧ Binds spec b

structure RepLaw (world : World) (rep : CounterpartySpec) (identity : Dict String String)
    (before : List Told) (e : Told) : Prop where
  silentAfter : (∃ x ∈ before, ∃ c, x.commits c) → e.decisions = []
  once : (e.decisions.filterMap Decision.commit).length ≤ 1
  identified : e.offers → ∀ k ∈ rep.identity, Given world identity before k
  committed : ∀ c, e.commits c → ∃ act uttId heard listed spec,
    e.op = .heard act uttId heard listed ∧ Committed world rep before e c act heard spec

/-! ## The invariant -/

/-- An offer of the policy: which rung it is, when it was made, and that it is not expired while it
is open. -/
structure OfferOk (rep : CounterpartySpec) (log : List Told) (ref : String) (o : Offer) : Prop where
  named : o.spec.offerRef = ref
  rung : o.spec ∈ rep.ladder
  made : ∃ m ∈ log, m.makes o.spec ∧ o.expiresMs = o.spec.ttlMs.map (m.tMs + ·)
  unexpired : o.status = .open → ∀ x ∈ log, ¬ x.expires ref

structure Open (world : World) (rep : CounterpartySpec) (identity : Dict String String) (p : Policy)
    (log : List Told) : Prop where
  spec : p.spec = rep
  same : p.identity = identity
  known : ∀ k ∈ p.verified, Given world identity log k
  past : p.Past → p.done = false → ∀ k ∈ rep.identity, k ∈ p.verified
  refs : p.offers.keys = (rep.ladder.take p.nextRung).map OfferSpec.offerRef
  offers : ∀ ref o, p.offers.get? ref = some o → OfferOk rep log ref o
  pending : p.state = .confirm →
    ∃ ref o, p.pending = some ref ∧ p.offers.get? ref = some o ∧ ConfirmedSince log o.spec
  expired : ∀ x ∈ log, ∀ ref, x.expires ref → ref ∈ p.offers.keys

section runs

variable {world : World} {rep : CounterpartySpec} {identity : Dict String String}
  {p q : Policy} {log : List Told} {e : Told}

theorem mem_keys {d : Dict String Offer} {ref : String} {o : Offer} (h : d.get? ref = some o) :
    ref ∈ d.keys := List.mem_map.mpr ⟨(ref, o), Dict.get?_eq_some.mp h, rfl⟩

theorem Given.mono {k : String} (h : Given world identity log k) : Given world identity (log ++ [e]) k := by
  obtain ⟨x, hx, rest⟩ := h
  exact ⟨x, List.mem_append_left _ hx, rest⟩

theorem ConfirmedSince.mono {spec : OfferSpec} (h : ConfirmedSince log spec) (calm : ¬ e.offers)
    (undeclined : ¬ e.declines) : ConfirmedSince (log ++ [e]) spec := by
  obtain ⟨before, c, since, rfl, confirms, still⟩ := h
  refine ⟨before, c, since ++ [e], by simp, confirms, fun x hx => ?_⟩
  rcases List.mem_append.mp hx with hx | hx
  · exact still x hx
  · rw [List.mem_singleton.mp hx]
    exact ⟨calm, undeclined⟩

theorem OfferOk.mono {ref : String} {o o' : Offer} (h : OfferOk rep log ref o)
    (spec : o'.spec = o.spec) (due : o'.expiresMs = o.expiresMs)
    (unexpired : o'.status = .open → o.status = .open ∧ ¬ e.expires ref) :
    OfferOk rep (log ++ [e]) ref o' where
  named := spec ▸ h.named
  rung := spec ▸ h.rung
  made := by
    obtain ⟨m, hm, makes, at_⟩ := h.made
    rw [spec, due]
    exact ⟨m, List.mem_append_left _ hm, makes, at_⟩
  unexpired isOpen x hx := by
    obtain ⟨was, not_⟩ := unexpired isOpen
    rcases List.mem_append.mp hx with hx | hx
    · exact h.unexpired was x hx
    · rw [List.mem_singleton.mp hx]
      exact not_

/-- What the policy keeps of itself when its offers at most expire. -/
structure Aged (p q : Policy) (tMs : Nat) : Prop where
  spec : q.spec = p.spec
  identity : q.identity = p.identity
  state : q.state = p.state
  verified : q.verified = p.verified
  rung : q.rung = p.rung
  pending : q.pending = p.pending
  ledger : q.ledger = p.ledger
  offers : q.offers = p.offers.mapValues fun o =>
    if Policy.due o tMs then { o with status := .expired } else o

theorem aged_expire (p : Policy) (tMs : Nat) (free hold : Option Nat) (silences : Nat) :
    Aged p { (p.expire tMs).1 with freeSince := free, holdSince := hold, silences } tMs :=
  ⟨rfl, rfl, rfl, rfl, rfl, rfl, rfl, rfl⟩

theorem Aged.get? {tMs : Nat} (aged : Aged p q tMs) {ref : String} {o : Offer}
    (h : q.offers.get? ref = some o) : ∃ o', p.offers.get? ref = some o' ∧ o.spec = o'.spec ∧
      o.expiresMs = o'.expiresMs ∧
      (o.status = .open → o'.status = .open ∧ Policy.due o' tMs = false) := by
  rw [aged.offers, Dict.get?_mapValues] at h
  obtain ⟨o', ho', rfl⟩ := Option.map_eq_some_iff.mp h
  refine ⟨o', ho', ?_⟩
  split
  · exact ⟨rfl, rfl, fun bad => by cases bad⟩
  · rename_i not_
    exact ⟨rfl, rfl, fun isOpen => ⟨isOpen, by simpa using not_⟩⟩

theorem Aged.keys {tMs : Nat} (aged : Aged p q tMs) : q.offers.keys = p.offers.keys := by
  rw [aged.offers, Dict.keys, Dict.keys, Dict.mapValues, List.map_map]
  rfl

/-- What the expiries say: each is of an offer that was due, and none is anything else. -/
theorem expire_said {tMs : Nat} {d : Decision} (h : d ∈ (p.expire tMs).2) :
    d.commit = none ∧ d.intent.isOffer = false ∧ d.intent.kind = .offerExpired ∧
      ∃ ref o, d.intent.offerRef = some ref ∧ p.offers.get? ref = some o ∧
        Policy.due o tMs = true := by
  obtain ⟨x, hx, rfl⟩ := List.mem_map.mp h
  obtain ⟨mem, due⟩ := List.mem_filter.mp hx
  exact ⟨rfl, rfl, rfl, x.1, x.2, rfl, Dict.get?_eq_some.mpr mem, due⟩

/-- A call that makes no offer leaves the books as the expiries left them. -/
theorem Open.kept {p' : Policy} {tMs : Nat} (inv : Open world rep identity p log)
    (aged : Aged p q tMs) (ends : ∀ ref, e.expires ref →
      ∃ o, p.offers.get? ref = some o ∧ Policy.due o tMs = true)
    (spec : p'.spec = q.spec) (same : p'.identity = q.identity) (offers : p'.offers = q.offers)
    (rung : p'.rung = q.rung) (known : ∀ k ∈ p'.verified, Given world identity (log ++ [e]) k)
    (past : p'.Past → p'.done = false → ∀ k ∈ rep.identity, k ∈ p'.verified)
    (pending : p'.state = .confirm → ∃ ref o, p'.pending = some ref ∧
      q.offers.get? ref = some o ∧ ConfirmedSince (log ++ [e]) o.spec) :
    Open world rep identity p' (log ++ [e]) where
  spec := spec.trans (aged.spec.trans inv.spec)
  same := same.trans (aged.identity.trans inv.same)
  known := known
  past := past
  refs := by
    rw [offers, aged.keys, inv.refs, Policy.nextRung, Policy.nextRung, rung, aged.rung]
  offers ref o ho := by
    obtain ⟨o', ho', same, due, isOpen⟩ := aged.get? (offers ▸ ho)
    refine (inv.offers ref o' ho').mono same due fun h => ⟨(isOpen h).1, fun bad => ?_⟩
    obtain ⟨o'', ho'', gone⟩ := ends ref bad
    rw [ho'] at ho''
    cases ho''
    rw [(isOpen h).2] at gone
    cases gone
  pending h := by
    obtain ⟨ref, o, own, found, since⟩ := pending h
    exact ⟨ref, o, own, offers ▸ found, since⟩
  expired x hx ref bad := by
    rw [offers, aged.keys]
    rcases List.mem_append.mp hx with hx | hx
    · exact inv.expired x hx ref bad
    · obtain ⟨o, found, -⟩ := ends ref (List.mem_singleton.mp hx ▸ bad)
      exact mem_keys found

/-- The pending offer of a policy that neither makes an offer nor hears a decline. -/
theorem Open.still {tMs : Nat} (inv : Open world rep identity p log) (aged : Aged p q tMs)
    (calm : ¬ e.offers) (undeclined : q.state = .confirm → ¬ e.declines) (h : q.state = .confirm) :
    ∃ ref o, q.pending = some ref ∧ q.offers.get? ref = some o ∧
      ConfirmedSince (log ++ [e]) o.spec := by
  obtain ⟨ref, o, own, found, since⟩ := inv.pending (aged.state ▸ h)
  refine ⟨ref, if Policy.due o tMs then { o with status := .expired } else o,
    aged.pending.trans own, ?_, ?_⟩
  · rw [aged.offers, Dict.get?_mapValues, found]
    rfl
  · have same : (if Policy.due o tMs then { o with status := .expired } else o).spec = o.spec := by
      split <;> rfl
    rw [same]
    exact since.mono calm (undeclined h)

/-- What a call of `step` told: the expiries, then the reaction. -/
structure Heard (p : Policy) (act : EarAct) (tMs : Nat) (e : Told) (intent : PublicIntent)
    (commit : Option Commit) : Prop where
  at_ : e.tMs = tMs
  was : e.was = p
  op : ∃ uttId heard listed, e.op = .heard act uttId heard listed
  said : ∃ d, e.decisions = (p.expire tMs).2 ++ [d] ∧ d.intent = intent ∧ d.commit = commit

section heard

variable {act : EarAct} {tMs : Nat} {intent : PublicIntent} {commit : Option Commit}

theorem Heard.decision (h : Heard p act tMs e intent commit) {d : Decision} (hd : d ∈ e.decisions) :
    d ∈ (p.expire tMs).2 ∨ d.intent = intent ∧ d.commit = commit := by
  obtain ⟨d', eq, rest⟩ := h.said
  rw [eq] at hd
  rcases List.mem_append.mp hd with hd | hd
  · exact Or.inl hd
  · rw [List.mem_singleton.mp hd]
    exact Or.inr rest

theorem Heard.last (h : Heard p act tMs e intent commit) :
    ∃ d ∈ e.decisions, d.intent = intent ∧ d.commit = commit := by
  obtain ⟨d, eq, rest⟩ := h.said
  exact ⟨d, by rw [eq]; simp, rest⟩

theorem Heard.quiet (h : Heard p act tMs e intent commit) (calm : intent.isOffer = false) :
    ¬ e.offers := by
  rintro ⟨d, hd, offer⟩
  rcases h.decision hd with old | ⟨own, -⟩
  · rw [(expire_said old).2.1] at offer
    cases offer
  · rw [own, calm] at offer
    cases offer

theorem Heard.ends (h : Heard p act tMs e intent commit) (kind : intent.kind ≠ .offerExpired)
    (ref : String) (bad : e.expires ref) :
    ∃ o, p.offers.get? ref = some o ∧ Policy.due o tMs = true := by
  obtain ⟨d, hd, gone, own⟩ := bad
  rcases h.decision hd with old | ⟨same, -⟩
  · obtain ⟨-, -, -, ref', o, named, found, due⟩ := expire_said old
    rw [own] at named
    cases named
    exact ⟨o, found, due⟩
  · exact absurd (same ▸ gone) kind

theorem Heard.declines (h : Heard p act tMs e intent commit) (undeclined : act.act ≠ .decline) :
    ¬ e.declines := by
  rintro ⟨act', uttId, heard, listed, own, bad⟩
  obtain ⟨_, _, _, op⟩ := h.op
  rw [op] at own
  cases own
  exact undeclined bad

theorem Heard.gives (h : Heard p act tMs e intent commit) {k : String}
    (gives : Policy.Gives world identity act k) : Given world identity (log ++ [e]) k := by
  obtain ⟨uttId, heard, listed, op⟩ := h.op
  exact ⟨e, by simp, act, uttId, heard, listed, op, gives⟩

theorem calm_spec (calm : intent.calm = true) :
    intent.isOffer = false ∧ intent.kind ≠ .offerExpired := by
  unfold PublicIntent.calm at calm
  unfold PublicIntent.isOffer
  cases hk : intent.kind <;> simp_all

theorem lever_eq {spec : OfferSpec} (tMs : Nat) (next : q.spec.ladder[q.nextRung]? = some spec)
    (fresh : act.act ∉ q.levers) : ∃ state kind, (state = .final ∨ state = .offer ∨ state = .discover) ∧
      (kind = .finalOffer ∨ kind = .offer) ∧
      q.lever act.act tMs = ({ q with
        levers := act.act :: q.levers
        rung := some q.nextRung
        offers := q.offers.set spec.offerRef ⟨spec, spec.ttlMs.map (tMs + ·), .open⟩
        state, pending := none },
      { kind, offerRef := some spec.offerRef, say := spec.terms.entries }) := by
  unfold Policy.lever
  rw [next]
  dsimp only
  rw [if_neg fresh]
  refine ⟨_, _, ?_, ?_, rfl⟩
  · unfold Policy.offerState
    dsimp only
    split
    · exact Or.inl rfl
    · exact Or.inr (Or.inl rfl)
  · split
    · exact Or.inl rfl
    · exact Or.inr rfl

/-- The references of the rungs are distinct. -/
theorem CounterpartySpec.new_ref {spec : OfferSpec} {n : Nat} (next : rep.ladder[n]? = some spec) :
    spec.offerRef ∉ (rep.ladder.take n).map OfferSpec.offerRef := by
  intro bad
  obtain ⟨i, hi, own⟩ := List.getElem_of_mem bad
  have short : n < rep.ladder.length := (List.getElem?_eq_some_iff.mp next).1
  have le : i < n := by
    simp only [List.length_map, List.length_take] at hi
    omega
  have at_i : (rep.ladder.map OfferSpec.offerRef)[i]? = some spec.offerRef := by
    simp only [List.getElem_map, List.getElem_take] at own
    rw [List.getElem?_map, List.getElem?_eq_getElem (by omega), ← own]
    rfl
  have at_n : (rep.ladder.map OfferSpec.offerRef)[n]? = some spec.offerRef := by
    rw [List.getElem?_map, next]
    rfl
  have same : i = n :=
    (List.getElem?_inj (by rw [List.length_map]; omega) rep.unique).mp (at_i.trans at_n.symm)
  omega

/-- The policy after an offer is made. -/
theorem Open.offered {spec : OfferSpec} (inv : Open world rep identity p log)
    (aged : Aged p q tMs) (undone : q.done = false) (past : q.Past)
    (next : q.spec.ladder[q.nextRung]? = some spec) (fresh : act.act ∉ q.levers)
    (h : Heard p act tMs e (q.lever act.act tMs).2 none) :
    Open world rep identity (q.lever act.act tMs).1 (log ++ [e]) := by
  have ladder : rep.ladder[q.nextRung]? = some spec := by
    rw [← inv.spec, ← aged.spec]
    exact next
  have rung : q.nextRung = p.nextRung := by rw [Policy.nextRung, Policy.nextRung, aged.rung]
  have new : spec.offerRef ∉ q.offers.keys := by
    rw [aged.keys, inv.refs, ← rung]
    exact CounterpartySpec.new_ref ladder
  obtain ⟨state, kind, notConfirm, offerKind, eq⟩ := lever_eq tMs next fresh
  rw [eq] at h ⊢
  have kept : ∀ k, Given world identity log k → Given world identity (log ++ [e]) k := fun _ => .mono
  have all : ∀ k ∈ rep.identity, k ∈ q.verified := by
    rw [aged.verified]
    refine inv.past ?_ ?_
    · rw [Policy.Past, ← aged.state]
      exact past
    · rw [Policy.done, ← aged.state]
      exact undone
  have ends := h.ends (by rcases offerKind with rfl | rfl <;> simp)
  -- nothing of a name was there to expire but under that name
  have expired : ∀ x ∈ log ++ [e], ∀ ref, x.expires ref → ref ∈ q.offers.keys := by
    intro x hx ref bad
    rw [aged.keys]
    rcases List.mem_append.mp hx with hx | hx
    · exact inv.expired x hx ref bad
    · obtain ⟨o, found, -⟩ := ends ref (List.mem_singleton.mp hx ▸ bad)
      exact mem_keys found
  refine ⟨aged.spec.trans inv.spec, aged.identity.trans inv.same,
    fun k hk => kept k (inv.known k (aged.verified ▸ hk)), fun _ _ => all, ?_, fun ref o ho => ?_, ?_,
    fun x hx ref bad => Dict.mem_keys_set.mpr (Or.inr (expired x hx ref bad))⟩
  · show (q.offers.set spec.offerRef _).keys = _
    rw [Dict.keys_set_new new, aged.keys, inv.refs, ← rung]
    show _ = (rep.ladder.take (q.nextRung + 1)).map OfferSpec.offerRef
    rw [List.take_add_one, ladder]
    simp
  · by_cases own : ref = spec.offerRef
    · subst own
      have ho : some (⟨spec, spec.ttlMs.map (tMs + ·), .open⟩ : Offer) = some o := by
        rw [← ho]
        exact (Dict.get?_set_self ..).symm
      cases ho
      refine ⟨rfl, List.mem_of_getElem? ladder, ⟨e, by simp, ?_, ?_⟩, fun _ x hx bad => ?_⟩
      · obtain ⟨d, hd, intent, -⟩ := h.last
        refine ⟨d, hd, ?_, by rw [intent], by rw [intent]⟩
        rw [intent]
        rcases offerKind with rfl | rfl <;> rfl
      · rw [h.at_]
      · exact new (expired x hx _ bad)
    · have ho : q.offers.get? ref = some o := by
        rw [← ho]
        exact (Dict.get?_set_ne _ own _).symm
      obtain ⟨o', ho', same, due, isOpen⟩ := aged.get? ho
      refine (inv.offers ref o' ho').mono same due fun h' => ⟨(isOpen h').1, fun bad => ?_⟩
      obtain ⟨o'', ho'', gone⟩ := ends ref bad
      rw [ho'] at ho''
      cases ho''
      rw [(isOpen h').2] at gone
      cases gone
  · intro bad
    rcases notConfirm with rfl | rfl | rfl <;> cases bad

theorem named_of_cand {heard : String} {listed : List String} {x : String × Offer}
    (h : x ∈ q.offers.entries.filter fun e =>
      e.1 ∈ listed && e.2.status = .open && world.named e.2.spec heard) :
    q.offers.get? x.1 = some x.2 ∧ world.named x.2.spec heard = true := by
  obtain ⟨mem, own⟩ := List.mem_filter.mp h
  simp only [Bool.and_eq_true] at own
  exact ⟨Dict.get?_eq_some.mpr mem, own.2⟩

/-- Where an accept with no reference finds its offer. -/
theorem found_of_unreferenced {heard : String} {listed : List String} {o : Offer} {named : Bool}
    (h : q.unreferenced world heard listed = (some o, named)) :
    (∃ ref, q.offers.get? ref = some o) ∧ (named = true → world.named o.spec heard = true ∨
      q.state = .confirm ∧ q.offers.get? (q.pending.getD "") = some o) := by
  unfold Policy.unreferenced at h
  dsimp only at h
  split at h
  · rename_i pending confirm found
    split at h
    · cases h
      exact ⟨⟨_, found⟩, fun _ => Or.inr ⟨confirm, found⟩⟩
    · rename_i other only
      cases h
      have mem : other ∈ [other] := List.mem_singleton_self _
      rw [← only] at mem
      exact ⟨⟨_, (named_of_cand (List.mem_filter.mp mem).1).1⟩, fun bad => by cases bad⟩
    · cases h
      exact ⟨⟨_, found⟩, fun bad => by cases bad⟩
  · split at h
    · rename_i only eq
      cases h
      have mem : only ∈ [only] := List.mem_singleton_self _
      rw [← eq] at mem
      exact ⟨⟨_, (named_of_cand mem).1⟩, fun _ => Or.inl (named_of_cand mem).2⟩
    · simp only [Prod.mk.injEq] at h
      obtain ⟨found, rfl⟩ := h
      exact ⟨⟨_, found⟩, fun bad => by cases bad⟩

/-- Where an accept finds its offer: it is named, or it is the one whose read-back is confirmed. -/
theorem found_of_meant {heard : String} {listed : List String} {o : Offer} {named : Bool}
    (h : q.meant world act heard listed = (some o, named)) :
    (∃ ref, q.offers.get? ref = some o) ∧ (named = true → world.named o.spec heard = true ∨
      q.state = .confirm ∧ q.offers.get? (q.pending.getD "") = some o) := by
  unfold Policy.meant at h
  split at h
  · exact found_of_unreferenced h
  · rename_i ref _
    dsimp only at h
    split at h
    · rename_i own
      simp only [Prod.mk.injEq] at h
      obtain ⟨found, rfl⟩ := h
      rw [found, Option.any_some] at own
      exact ⟨⟨_, found⟩, fun _ => Or.inl own⟩
    · split at h
      · rename_i pending confirm some_
        simp only [Prod.mk.injEq] at h
        obtain ⟨found, rfl⟩ := h
        exact ⟨⟨_, found⟩, fun _ => Or.inr ⟨confirm, by rw [some_]; exact found⟩⟩
      · simp only [Prod.mk.injEq] at h
        obtain ⟨found, rfl⟩ := h
        refine ⟨?_, fun bad => by cases bad⟩
        rcases Option.or_eq_some_iff.mp found with found | ⟨-, found⟩
        · exact ⟨_, found⟩
        · exact ⟨_, found⟩

theorem perm_erase {d : Dict String String} {k v : String} (h : d.get? k = some v) :
    ((k, v) :: (d.erase k).entries).Perm d.entries := by
  have nodup : d.entries.Nodup := d.nodup.of_map
  refine (List.perm_ext_iff_of_nodup ?_ nodup).mpr fun x => ?_
  · refine List.nodup_cons.mpr ⟨fun bad => ?_, nodup.filter _⟩
    have := (List.mem_filter.mp bad).2
    simp at this
  · rw [List.mem_cons, Dict.erase, List.mem_filter]
    constructor
    · rintro (rfl | ⟨mem, -⟩)
      · exact Dict.get?_eq_some.mp h
      · exact mem
    · intro mem
      by_cases own : x.1 = k
      · have : d.get? x.1 = some x.2 := Dict.get?_eq_some.mpr mem
        rw [own, h] at this
        cases this
        exact Or.inl (by rw [← own])
      · exact Or.inr ⟨mem, by simpa using own⟩

/-- What a commit does. -/
theorem commits_spec (world : World) (q : Policy) (o : Offer) (uttId : String) :
    (∃ ledger, (q.commits world o uttId).1 = { q with
      offers := q.offers.set o.spec.offerRef { o with status := .accepted }
      state := .confirmed, pending := none, ledger }) ∧
    ∀ intent commit, (q.commits world o uttId).2 = .ok (intent, commit) →
      intent.kind = .confirmed ∧ ∃ c, commit = some c ∧ c.offerRef = o.spec.offerRef ∧
        (q.spec.ledger = .honest → ∃ b, c.bound = some b ∧ Binds o.spec b) := by
  unfold Policy.commits
  dsimp only
  split
  · exact ⟨⟨_, rfl⟩, fun _ _ bad => by cases bad⟩
  · rename_i text ht
    split
    · exact ⟨⟨_, rfl⟩, fun _ _ bad => by cases bad⟩
    · rename_i months hm
      refine ⟨⟨_, rfl⟩, fun intent commit h => ?_⟩
      cases h
      refine ⟨rfl, _, rfl, rfl, fun honest => ?_⟩
      dsimp only
      rw [honest]
      refine ⟨_, Dict.get?_set_self .., rfl, text, hm, ?_⟩
      exact ((List.perm_insertionSort _ _).cons _).trans (perm_erase ht)

theorem Open.commits {o : Offer} {uttId : String} (inv : Open world rep identity p log)
    (aged : Aged p q tMs) (ends : ∀ ref, e.expires ref →
      ∃ o, p.offers.get? ref = some o ∧ Policy.due o tMs = true)
    (found : ∃ ref, q.offers.get? ref = some o) :
    Open world rep identity (q.commits world o uttId).1 (log ++ [e]) := by
  obtain ⟨ref, found⟩ := found
  obtain ⟨was, hwas, same, due, -⟩ := aged.get? found
  have own : o.spec.offerRef = ref := by rw [same]; exact (inv.offers ref was hwas).named
  obtain ⟨⟨ledger, eq⟩, -⟩ := commits_spec world q o uttId
  have keys : (q.offers.set o.spec.offerRef { o with status := .accepted }).keys = p.offers.keys := by
    rw [← aged.keys]
    show (Lib.setEntries _ _ _).map Prod.fst = _
    rw [Lib.keys_setEntries, if_pos (by rw [own]; exact mem_keys found)]
    rfl
  rw [eq]
  refine ⟨aged.spec.trans inv.spec, aged.identity.trans inv.same,
    fun k hk => (inv.known k (aged.verified ▸ hk)).mono, fun _ bad => (by cases bad), ?_,
    fun ref' o' ho => ?_, fun bad => (by cases bad), fun x hx ref' bad => ?_⟩
  · show Dict.keys (q.offers.set _ _) = _
    rw [keys, inv.refs, Policy.nextRung, Policy.nextRung, aged.rung]
  · have ho : (q.offers.set o.spec.offerRef { o with status := .accepted }).get? ref' = some o' := ho
    by_cases here : ref' = o.spec.offerRef
    · rw [here, Dict.get?_set_self] at ho
      cases ho
      rw [here, own]
      exact (inv.offers ref was hwas).mono same due fun bad => by cases bad
    · rw [Dict.get?_set_ne _ here] at ho
      obtain ⟨o'', ho'', same, due, isOpen⟩ := aged.get? ho
      refine (inv.offers ref' o'' ho'').mono same due fun h' => ⟨(isOpen h').1, fun bad => ?_⟩
      obtain ⟨_, hx, gone⟩ := ends ref' bad
      rw [ho''] at hx
      cases hx
      rw [(isOpen h').2] at gone
      cases gone
  · show ref' ∈ Dict.keys (q.offers.set _ _)
    rw [keys]
    rcases List.mem_append.mp hx with hx | hx
    · exact inv.expired x hx ref' bad
    · obtain ⟨o, found, -⟩ := ends ref' (List.mem_singleton.mp hx ▸ bad)
      exact mem_keys found

end heard

/-! ## The steps -/

/-- The clocks and counters are not in the books. -/
theorem Open.congr (inv : Open world rep identity p log) (spec : q.spec = p.spec)
    (same : q.identity = p.identity) (state : q.state = p.state) (verified : q.verified = p.verified)
    (offers : q.offers = p.offers) (rung : q.rung = p.rung) (pending : q.pending = p.pending) :
    Open world rep identity q log where
  spec := spec.trans inv.spec
  same := same.trans inv.same
  known := verified ▸ inv.known
  past := by
    rw [Policy.Past, Policy.done, state, verified]
    exact inv.past
  refs := by
    rw [offers, inv.refs, Policy.nextRung, Policy.nextRung, rung]
  offers := offers ▸ inv.offers
  pending := by
    rw [state, pending, offers]
    exact inv.pending
  expired := offers ▸ inv.expired

/-- A call that says nothing. -/
theorem Open.silent (inv : Open world rep identity p log) (silent : e.decisions = [])
    (undeclined : p.state = .confirm → ¬ e.declines) : Open world rep identity p (log ++ [e]) where
  spec := inv.spec
  same := inv.same
  known k hk := (inv.known k hk).mono
  past := inv.past
  refs := inv.refs
  offers ref o ho := (inv.offers ref o ho).mono rfl rfl fun isOpen =>
    ⟨isOpen, by rintro ⟨d, hd, -⟩; rw [silent] at hd; cases hd⟩
  pending h := by
    obtain ⟨ref, o, own, found, since⟩ := inv.pending h
    refine ⟨ref, o, own, found, since.mono ?_ (undeclined h)⟩
    rintro ⟨d, hd, -⟩
    rw [silent] at hd
    cases hd
  expired x hx ref bad := by
    rcases List.mem_append.mp hx with hx | hx
    · exact inv.expired x hx ref bad
    · rw [List.mem_singleton.mp hx] at bad
      obtain ⟨d, hd, -⟩ := bad
      rw [silent] at hd
      cases hd

/-- The law of a call that makes no offer and commits nothing. -/
theorem RepLaw.of_calm (calm : ¬ e.offers) (uncommitted : ∀ d ∈ e.decisions, d.commit = none)
    (gone : (∃ x ∈ log, ∃ c, x.commits c) → e.decisions = []) : RepLaw world rep identity log e where
  silentAfter := gone
  once := by
    have : e.decisions.filterMap Decision.commit = [] :=
      List.filterMap_eq_nil_iff.mpr uncommitted
    rw [this]
    exact Nat.zero_le 1
  identified bad := absurd bad calm
  committed c hc := by
    obtain ⟨d, hd, own⟩ := hc
    rw [uncommitted d hd] at own
    cases own

structure SimInv (world : World) (rep : CounterpartySpec) (identity : Dict String String) (s : Sim) :
    Prop where
  books : Open world rep identity s.policy s.log
  spent : (∃ x ∈ s.log, ∃ c, x.commits c) → s.policy.state = .confirmed
  law : Each (RepLaw world rep identity) s.log

theorem spent_snoc (h : ∃ x ∈ log ++ [e], ∃ c, x.commits c) :
    (∃ x ∈ log, ∃ c, x.commits c) ∨ ∃ d ∈ e.decisions, ∃ c, d.commit = some c := by
  obtain ⟨x, hx, c, d, hd, own⟩ := h
  rcases List.mem_append.mp hx with hx | hx
  · exact Or.inl ⟨x, hx, c, d, hd, own⟩
  · rw [List.mem_singleton.mp hx] at hd
    exact Or.inr ⟨d, hd, c, own⟩

/-- A call that says nothing, and changes at most the clocks. -/
theorem SimInv.silent {s : Sim} {now : Nat} (inv : SimInv world rep identity s)
    (silent : e.decisions = []) (undeclined : s.policy.state = .confirm → ¬ e.declines)
    (books : ∀ log, Open world rep identity s.policy log → Open world rep identity q log)
    (state : q.state = s.policy.state) : SimInv world rep identity ⟨q, now, s.log ++ [e]⟩ where
  books := books _ (inv.books.silent silent undeclined)
  spent h := by
    rw [state]
    rcases spent_snoc h with h | ⟨d, hd, -⟩
    · exact inv.spent h
    · rw [silent] at hd
      cases hd
  law := by
    refine each_snoc.mpr ⟨inv.law, .of_calm ?_ ?_ fun _ => silent⟩
    · rintro ⟨d, hd, -⟩
      rw [silent] at hd
      cases hd
    · intro d hd
      rw [silent] at hd
      cases hd

theorem speaksUp_state (p : Policy) (tMs : Nat) :
    (p.speaksUp tMs).1.state = p.state ∨ (p.speaksUp tMs).1.state = .ended :=
  (ite_eq_or_eq _ _ _).symm

theorem SimInv.tick {s : Sim} {tMs : Nat} (inv : SimInv world rep identity s) :
    SimInv world rep identity ⟨(s.policy.tick tMs).1, tMs,
      s.log ++ [⟨tMs, .tick, s.policy, (s.policy.tick tMs).2⟩]⟩ := by
  unfold Policy.tick
  split
  · exact inv.silent rfl (fun _ h => by obtain ⟨_, _, _, _, bad, -⟩ := h; cases bad) (fun _ h => h) rfl
  rename_i undone
  have unspent : ¬ ∃ x ∈ s.log, ∃ c, x.commits c := fun h => undone (by
    rw [Policy.done, inv.spent h]
    rfl)
  -- the expiries, and perhaps a strike
  have ticked (p' : Policy) (ds : List Decision) (hs : ds = [] ∨ ∃ d, ds = [d] ∧
      d.commit = none ∧ d.intent.calm = true) (spec : p'.spec = s.policy.spec)
      (same : p'.identity = s.policy.identity)
      (offers : p'.offers = (s.policy.expire tMs).1.offers) (rung : p'.rung = s.policy.rung)
      (verified : p'.verified = s.policy.verified) (pending : p'.pending = s.policy.pending)
      (state : p'.state = s.policy.state ∨ p'.state = .ended) :
      SimInv world rep identity ⟨p', tMs,
        s.log ++ [⟨tMs, .tick, s.policy, (s.policy.expire tMs).2 ++ ds⟩]⟩ := by
    have aged : Aged s.policy (s.policy.expire tMs).1 tMs := ⟨rfl, rfl, rfl, rfl, rfl, rfl, rfl, rfl⟩
    have each : ∀ d ∈ (s.policy.expire tMs).2 ++ ds, d.commit = none ∧ d.intent.isOffer = false ∧
        (d ∈ (s.policy.expire tMs).2 ∨ d.intent.kind ≠ .offerExpired) := by
      intro d hd
      rcases List.mem_append.mp hd with hd | hd
      · exact ⟨(expire_said hd).1, (expire_said hd).2.1, Or.inl hd⟩
      · rcases hs with rfl | ⟨d', rfl, none_, calm⟩
        · cases hd
        · rw [List.mem_singleton.mp hd]
          exact ⟨none_, (calm_spec calm).1, Or.inr (calm_spec calm).2⟩
    have calm : ¬ Told.offers ⟨tMs, .tick, s.policy, (s.policy.expire tMs).2 ++ ds⟩ := by
      rintro ⟨d, hd, offer⟩
      rw [(each d hd).2.1] at offer
      cases offer
    have undeclined : ¬ Told.declines ⟨tMs, .tick, s.policy, (s.policy.expire tMs).2 ++ ds⟩ := by
      rintro ⟨_, _, _, _, bad, -⟩
      cases bad
    refine ⟨?_, fun h => ?_, each_snoc.mpr ⟨inv.law,
      .of_calm calm (fun d hd => (each d hd).1) fun h => absurd h unspent⟩⟩
    · refine inv.books.kept aged ?_ spec same offers rung ?_ (fun past live => ?_) fun confirm => ?_
      · rintro ref ⟨d, hd, gone, own⟩
        rcases (each d hd).2.2 with old | bad
        · obtain ⟨-, -, -, ref', o, named, found, due⟩ := expire_said old
          rw [own] at named
          cases named
          exact ⟨o, found, due⟩
        · exact absurd gone bad
      · rw [verified]
        exact fun k hk => (inv.books.known k hk).mono
      · rw [verified]
        rcases state with state | state
        · rw [Policy.Past, state] at past
          rw [Policy.done, state] at live
          exact inv.books.past past live
        · rw [Policy.done, state] at live
          cases live
      · rcases state with state | state
        · rw [pending]
          exact inv.books.still aged calm (fun _ => undeclined) (state ▸ confirm)
        · rw [state] at confirm
          cases confirm
    · rcases spent_snoc h with h | ⟨d, hd, c, own⟩
      · exact absurd h unspent
      · rw [(each d hd).1] at own
        cases own
  dsimp only
  split
  · refine ticked _ [_] (Or.inr ⟨_, rfl, ?_, ?_⟩) ?_ ?_ ?_ ?_ ?_ ?_ ?_ <;> try rfl
    · unfold Policy.speaksUp PublicIntent.calm
      dsimp only
      generalize Policy.done _ = gone
      cases gone <;> rfl
    · exact speaksUp_state _ _
  · simpa using ticked (s.policy.expire tMs).1 [] (Or.inl rfl) rfl rfl rfl rfl rfl rfl (Or.inl rfl)

/-! ## What was heard -/

section heard

variable {act : EarAct} {uttId heard : String} {tMs : Nat} {listed : List String}
  {intent : PublicIntent} {commit : Option Commit} {s : Sim} {o : Offer}

/-- What a call of `step` does: the offers age, then the rep reacts and the expiries come first. -/
theorem call_heard (world : World) (act : EarAct) (uttId heard : String) (tMs : Nat)
    (listed : List String) (undone : p.done = false) : ∃ q p' result, Aged p q tMs ∧
    Policy.Reacted world q act uttId heard tMs listed p' result ∧
    ((∃ err, result = .error err ∧
        Sim.call world p tMs (.heard act uttId heard listed) = (p', [])) ∨
      ∃ intent commit clock d, result = .ok (intent, commit) ∧ d.intent = intent ∧
        d.commit = commit ∧ Sim.call world p tMs (.heard act uttId heard listed) =
          ({ p' with holdClock := clock }, (p.expire tMs).2 ++ [d])) := by
  generalize react : ({ (p.expire tMs).1 with freeSince := none, holdSince := none, silences := 0 } :
    Policy).react world act uttId heard tMs listed = r
  obtain ⟨p', result⟩ := r
  refine ⟨_, p', result, aged_expire p tMs none none 0, Policy.reacted_of_react react, ?_⟩
  rcases result with err | ⟨intent, commit⟩
  · refine Or.inl ⟨err, rfl, ?_⟩
    unfold Sim.call Policy.step
    simp only [undone, Bool.false_eq_true, if_false, react]
  · let d : Decision := ⟨p.state, p'.state, intent, p'.rung, commit, p.strikes < p'.strikes⟩
    refine Or.inr ⟨intent, commit, if (p.expire tMs).1.state ≠ .identify && act.act ≠ .holdRequest
      then none else p'.holdClock, d, rfl, rfl, rfl, ?_⟩
    unfold Sim.call Policy.step
    simp only [undone, Bool.false_eq_true, if_false, react]
    split <;> rfl

theorem Heard.uncommitted (h : Heard p act tMs e intent none) : ∀ d ∈ e.decisions, d.commit = none := by
  intro d hd
  rcases h.decision hd with old | ⟨-, own⟩
  · exact (expire_said old).1
  · exact own

theorem Heard.once (h : Heard p act tMs e intent commit) :
    (e.decisions.filterMap Decision.commit).length ≤ 1 := by
  obtain ⟨d, eq, -⟩ := h.said
  have old : (p.expire tMs).2.filterMap Decision.commit = [] :=
    List.filterMap_eq_nil_iff.mpr fun d hd => (expire_said hd).1
  rw [eq, List.filterMap_append, old]
  exact (List.length_filterMap_le ..).trans (by simp)

theorem SimInv.unspent (inv : SimInv world rep identity s) (undone : s.policy.done = false) :
    ¬ ∃ x ∈ s.log, ∃ c, x.commits c := by
  intro h
  rw [Policy.done, inv.spent h] at undone
  cases undone

/-- A reaction that neither makes an offer nor commits. -/
theorem SimInv.calm {p' : Policy} (inv : SimInv world rep identity s) (undone : s.policy.done = false)
    (aged : Aged s.policy q tMs) (h : Heard s.policy act tMs e intent none)
    (quiet : intent.isOffer = false) (kind : intent.kind ≠ .offerExpired) (spec : p'.spec = q.spec)
    (same : p'.identity = q.identity) (offers : p'.offers = q.offers) (rung : p'.rung = q.rung)
    (known : ∀ k ∈ p'.verified, k ∈ q.verified ∨ Policy.Gives world q.identity act k)
    (past : p'.Past → p'.done = false → ∀ k ∈ rep.identity, k ∈ p'.verified)
    (pending : p'.state = .confirm → ∃ ref o, p'.pending = some ref ∧
      q.offers.get? ref = some o ∧ ConfirmedSince (s.log ++ [e]) o.spec) :
    SimInv world rep identity ⟨p', tMs, s.log ++ [e]⟩ where
  books := by
    refine inv.books.kept aged (h.ends kind) spec same offers rung (fun k hk => ?_) past pending
    rcases known k hk with old | gives
    · exact (inv.books.known k (aged.verified ▸ old)).mono
    · rw [aged.identity, inv.books.same] at gives
      exact h.gives gives
  spent committed := by
    rcases spent_snoc committed with bad | ⟨d, hd, c, own⟩
    · exact absurd bad (inv.unspent undone)
    · rw [h.uncommitted d hd] at own
      cases own
  law := each_snoc.mpr ⟨inv.law,
    .of_calm (h.quiet quiet) h.uncommitted fun bad => absurd bad (inv.unspent undone)⟩

/-- Past identification, every key is verified. -/
theorem Open.all (inv : Open world rep identity p log) (aged : Aged p q tMs)
    (undone : p.done = false) (past : q.Past) : ∀ k ∈ rep.identity, k ∈ q.verified := by
  rw [aged.verified]
  refine inv.past ?_ undone
  rw [Policy.Past, ← aged.state]
  exact past

theorem SimInv.offered {spec : OfferSpec} (inv : SimInv world rep identity s)
    (undone : s.policy.done = false) (aged : Aged s.policy q tMs) (past : q.Past)
    (next : q.spec.ladder[q.nextRung]? = some spec) (fresh : act.act ∉ q.levers)
    (h : Heard s.policy act tMs e (q.lever act.act tMs).2 none) :
    SimInv world rep identity ⟨(q.lever act.act tMs).1, tMs, s.log ++ [e]⟩ where
  books := inv.books.offered aged (by rw [Policy.done, aged.state]; exact undone) past next fresh h
  spent committed := by
    rcases spent_snoc committed with bad | ⟨d, hd, c, own⟩
    · exact absurd bad (inv.unspent undone)
    · rw [h.uncommitted d hd] at own
      cases own
  law := by
    refine each_snoc.mpr ⟨inv.law, fun bad => absurd bad (inv.unspent undone), h.once,
      fun _ k hk => ?_, fun c hc => ?_⟩
    · exact inv.books.known k (aged.verified ▸ inv.books.all aged undone past k hk)
    · obtain ⟨d, hd, own⟩ := hc
      rw [h.uncommitted d hd] at own
      cases own

theorem SimInv.commits_ok {c : Commit} (inv : SimInv world rep identity s)
    (aged : Aged s.policy q tMs) (h : Heard s.policy act tMs e intent (some c))
    (meant : q.meant world act heard listed = (some o, true)) (isOpen : o.status = .open)
    (price : ∀ said, act.price = some said → o.spec.price? = some said)
    (kind : intent.kind ≠ .offerExpired) (ref : c.offerRef = o.spec.offerRef)
    (binds : q.spec.ledger = .honest → ∃ b, c.bound = some b ∧ Binds o.spec b) :
    Committed world rep s.log e c act heard o.spec := by
  obtain ⟨⟨key, found⟩, reason⟩ := found_of_meant meant
  obtain ⟨was, hwas, same, at_, still⟩ := aged.get? found
  obtain ⟨wasOpen, early⟩ := still isOpen
  have ok := inv.books.offers key was hwas
  have named : c.offerRef = key := by rw [ref, same]; exact ok.named
  refine ⟨⟨same ▸ ok.rung, ref.symm⟩, ?_, fun x hx bad => ?_, ?_, price, ?_⟩
  · obtain ⟨m, hm, makes, until_⟩ := ok.made
    refine ⟨m, hm, same ▸ makes, fun ttl httl => ?_⟩
    rw [same] at httl
    rw [Policy.due, wasOpen, until_, httl] at early
    simp only [decide_true, Option.map_some, Option.any_some, Bool.true_and, decide_eq_false_iff_not,
      not_le] at early
    rw [h.at_]
    exact early
  · rw [named] at bad
    rcases List.mem_append.mp hx with hx | hx
    · exact ok.unexpired wasOpen x hx bad
    · obtain ⟨o', found', gone⟩ := h.ends kind key (List.mem_singleton.mp hx ▸ bad)
      rw [hwas] at found'
      cases found'
      rw [early] at gone
      cases gone
  · rcases reason rfl with heard | ⟨confirm, found'⟩
    · exact Or.inl heard
    · obtain ⟨ref', o', own, found₁, since⟩ := inv.books.pending (aged.state ▸ confirm)
      rw [aged.pending, own] at found'
      obtain ⟨o'', found₂, same', -⟩ := aged.get? found'
      rw [Option.getD_some, found₁] at found₂
      cases found₂
      refine Or.inr ⟨by rw [h.was, ← aged.state]; exact confirm, ?_, same' ▸ since⟩
      rw [h.was, own, ref, same', (inv.books.offers ref' o' found₁).named]
  · rw [← inv.books.spec, ← aged.spec]
    exact binds

theorem SimInv.committed {c : Option Commit} (inv : SimInv world rep identity s)
    (undone : s.policy.done = false) (aged : Aged s.policy q tMs)
    (h : Heard s.policy act tMs e intent c) (op : e.op = .heard act uttId heard listed)
    (meant : q.meant world act heard listed = (some o, true)) (isOpen : o.status = .open)
    (price : ∀ said, act.price = some said → o.spec.price? = some said)
    (eq : (q.commits world o uttId).2 = .ok (intent, c)) :
    SimInv world rep identity ⟨(q.commits world o uttId).1, tMs, s.log ++ [e]⟩ := by
  obtain ⟨⟨ledger, policy⟩, result⟩ := commits_spec world q o uttId
  obtain ⟨kind, c, rfl, ref, binds⟩ := result _ _ eq
  have quiet : ¬ e.offers := h.quiet (by rw [PublicIntent.isOffer, kind]; rfl)
  have kind : intent.kind ≠ .offerExpired := by rw [kind]; simp
  refine ⟨inv.books.commits aged (h.ends kind) (found_of_meant meant).1, fun _ => ?_,
    each_snoc.mpr ⟨inv.law, fun bad => absurd bad (inv.unspent undone), h.once,
      fun bad => absurd bad quiet, fun c' hc => ?_⟩⟩
  · rw [policy]
  · obtain ⟨d, hd, own⟩ := hc
    rcases h.decision hd with old | ⟨-, own'⟩
    · rw [(expire_said old).1] at own
      cases own
    · rw [own] at own'
      cases own'
      exact ⟨act, uttId, heard, listed, o.spec, op,
        inv.commits_ok aged h meant isOpen price kind ref binds⟩

theorem offerState_ne (p : Policy) : p.offerState ≠ .confirm := by
  unfold Policy.offerState
  split
  · simp
  · split <;> simp

/-- The reaction of the rep, by what it is. -/
theorem SimInv.answered {p' : Policy} (inv : SimInv world rep identity s)
    (undone : s.policy.done = false) (aged : Aged s.policy q tMs)
    (h : Heard s.policy act tMs e intent commit) (op : e.op = .heard act uttId heard listed)
    (reacted : Policy.Reacted world q act uttId heard tMs listed p' (.ok (intent, commit))) :
    SimInv world rep identity ⟨p', tMs, s.log ++ [e]⟩ := by
  have all : q.Past → ∀ k ∈ rep.identity, k ∈ q.verified := inv.books.all aged undone
  generalize result : Except.ok (intent, commit) = r at reacted
  cases reacted with
  | stays since clock intent' calm undeclined =>
    cases result
    obtain ⟨quiet, kind⟩ := calm_spec calm
    have still := inv.books.still aged (h.quiet quiet) fun confirm => h.declines (undeclined confirm)
    exact inv.calm undone aged h quiet kind rfl rfl rfl rfl (fun _ => Or.inl) (fun past _ => all past)
      still
  | transfers =>
    cases result
    exact inv.calm undone aged h rfl (by simp) rfl rfl rfl rfl (fun _ => Or.inl)
      (fun _ bad => by cases bad) fun bad => by cases bad
  | greeted was =>
    cases result
    exact inv.calm undone aged h rfl (by simp) rfl rfl rfl rfl (fun _ => Or.inl)
      (fun past => absurd rfl past.2) fun bad => by cases bad
  | identified _ intent' calm was spec same offers rung verified state =>
    cases result
    obtain ⟨quiet, kind⟩ := calm_spec calm
    refine inv.calm undone aged h quiet kind spec same offers rung verified (fun past live => ?_)
      fun bad => ?_
    · rcases state with ended | identify | ⟨-, none_⟩
      · rw [Policy.done, ended] at live
        cases live
      · exact absurd identify past.2
      · rw [← inv.books.spec, ← aged.spec, ← spec]
        intro k hk
        have known := List.filter_eq_nil_iff.mp none_ k hk
        simpa using known
    · rcases state with state | state | ⟨state, -⟩ <;> rw [state] at bad <;> cases bad
  | offered spec past next undeclined =>
    cases result
    by_cases fresh : act.act ∈ q.levers
    · have held : q.lever act.act tMs = (q, { kind := .noBetter }) := by
        unfold Policy.lever
        rw [next]
        exact if_pos fresh
      rw [held] at h ⊢
      exact inv.calm undone aged h rfl (by simp) rfl rfl rfl rfl (fun _ => Or.inl)
        (fun past _ => all past) (inv.books.still aged (h.quiet rfl) fun _ => h.declines undeclined)
    · exact inv.offered undone aged past next fresh h
  | declined past =>
    cases result
    refine inv.calm undone aged h rfl (by simp) rfl rfl rfl rfl (fun _ => Or.inl)
      (fun _ _ => all past) fun bad => absurd bad (offerState_ne q)
  | confirms o named past meant isOpen =>
    cases result
    obtain ⟨ref, found⟩ := (found_of_meant meant).1
    obtain ⟨was, hwas, same, -⟩ := aged.get? found
    have own : o.spec.offerRef = ref := by rw [same]; exact (inv.books.offers ref was hwas).named
    refine inv.calm undone aged h rfl (by simp [Policy.termsIntent]) rfl rfl rfl rfl (fun _ => Or.inl)
      (fun _ _ => all past) fun _ => ⟨_, o, rfl, own ▸ found, s.log, e, [], by simp, ?_, by simp⟩
    obtain ⟨d, hd, intent', -⟩ := h.last
    exact ⟨d, hd, intent'⟩
  | commits o past meant isOpen price =>
    exact inv.committed undone aged h op meant isOpen price result.symm

/-- A commit that raised: it is not told, and nothing happens after it. -/
theorem SimInv.raised (inv : SimInv world rep identity s) (undone : s.policy.done = false)
    (aged : Aged s.policy q tMs) (silent : e.decisions = []) (found : ∃ ref, q.offers.get? ref = some o) :
    SimInv world rep identity ⟨(q.commits world o uttId).1, tMs, s.log ++ [e]⟩ := by
  obtain ⟨⟨ledger, policy⟩, -⟩ := commits_spec world q o uttId
  have untold {d : Decision} (hd : d ∈ e.decisions) : False := by
    rw [silent] at hd
    cases hd
  refine ⟨inv.books.commits aged (fun _ ⟨d, hd, _⟩ => (untold hd).elim) found, fun _ => ?_,
    each_snoc.mpr ⟨inv.law, .of_calm (fun ⟨d, hd, _⟩ => untold hd) (fun d hd => (untold hd).elim)
      fun bad => absurd bad (inv.unspent undone)⟩⟩
  rw [policy]

/-- A call of `step`. -/
theorem SimInv.hears (inv : SimInv world rep identity s) :
    SimInv world rep identity ⟨(Sim.call world s.policy tMs (.heard act uttId heard listed)).1, tMs,
      s.log ++ [⟨tMs, .heard act uttId heard listed, s.policy,
        (Sim.call world s.policy tMs (.heard act uttId heard listed)).2⟩]⟩ := by
  cases undone : s.policy.done with
  | true =>
    have none_ : Sim.call world s.policy tMs (.heard act uttId heard listed) = (s.policy, []) := by
      unfold Sim.call Policy.step
      simp only [undone, if_true]
    rw [none_]
    refine inv.silent rfl (fun confirm => ?_) (fun _ h => h) rfl
    rw [Policy.done, confirm] at undone
    cases undone
  | false =>
    obtain ⟨q, p', result, aged, reacted, raised | ⟨intent, commit, clock, d, rfl, own, bound, eq⟩⟩ :=
      call_heard world act uttId heard tMs listed undone
    · obtain ⟨err, rfl, eq⟩ := raised
      rw [eq]
      generalize result : Except.error err = r at reacted
      cases reacted with
      | commits o past meant isOpen price =>
        exact inv.raised undone aged rfl (found_of_meant meant).1
      | _ => cases result
    · rw [eq]
      have h : Heard s.policy act tMs ⟨tMs, .heard act uttId heard listed, s.policy,
          (s.policy.expire tMs).2 ++ [d]⟩ intent commit :=
        ⟨rfl, rfl, ⟨uttId, heard, listed, rfl⟩, d, rfl, own, bound⟩
      have inv := inv.answered undone aged h rfl reacted
      exact ⟨inv.books.congr rfl rfl rfl rfl rfl rfl rfl, inv.spent, inv.law⟩

end heard

theorem SimInv.floor {s : Sim} {tMs : Nat} {free : Bool} (inv : SimInv world rep identity s) :
    SimInv world rep identity ⟨s.policy.floor free tMs, tMs,
      s.log ++ [⟨tMs, .floor free, s.policy, []⟩]⟩ := by
  refine inv.silent rfl (fun _ h => ?_) (fun _ books => books.congr rfl rfl rfl rfl rfl rfl rfl) rfl
  obtain ⟨_, _, _, _, bad, -⟩ := h
  cases bad

theorem SimInv.step {s s' : Sim} {a : Nat × Op} (inv : SimInv world rep identity s)
    (h : s.step world a = some s') : SimInv world rep identity s' := by
  obtain ⟨tMs, op⟩ := a
  unfold Sim.step at h
  split at h
  · cases h
    cases op with
    | heard act uttId heard listed => exact inv.hears
    | tick => exact inv.tick
    | floor free => exact inv.floor
  · cases h

theorem simInv_start (t0Ms : Nat) : SimInv world rep identity (Sim.start rep identity t0Ms) where
  books := {
    spec := rfl
    same := rfl
    known := by simp [Sim.start]
    past := fun h => absurd rfl h.1
    refs := rfl
    offers := fun _ _ h => by cases h
    pending := fun h => by cases h
    expired := fun _ h => by cases h }
  spent h := by
    obtain ⟨_, h, -⟩ := h
    cases h
  law := each_nil _

/-- The simulated rep commits safely, in every run. -/
theorem rep_law {s : Sim} {t0Ms : Nat}
    (h : Reach (Sim.step world) anyStep (Sim.start rep identity t0Ms) s) :
    Each (RepLaw world rep identity) s.log := by
  have inv : SimInv world rep identity s :=
    h.invariant (simInv_start t0Ms) fun _ inv _ step => inv.step step
  exact inv.law

end runs

/-! ## A committing run -/

namespace OneCall

def world : World where
  unicode := ⟨fun _ => false, List.map Text.lowerChar, List.map Text.lowerChar, id⟩
  sha256 := fun text =>
    if text = "basic:u5" then "c37c17094a7a8ee96c02ee04cf4afd15fce2eba6c9909bbf3b1f1454d7f58f55" else text

def basic : OfferSpec where
  offerRef := "basic"
  terms := ⟨[("monthly_price", "45.00")], by decide⟩
  hidden := ⟨[("term_months", "12")], by decide⟩
  ttlMs := some 60000

def rep : CounterpartySpec where
  identity := ["name"]
  ladder := [basic]
  patience := ⟨15000, 60000, 3⟩
  ledger := .honest
  unique := by decide

def identity : Dict String String := ⟨[("name", "Ada Park")], by decide⟩

/-- Greeting, identification, one lever, an unnamed accept, and a plain yes. -/
def calls : List (Nat × Op) :=
  [(1000, .heard { act := .smalltalk } "u1" "hello" []),
    (5000, .heard { act := .provideFact, facts := [("name", "ada park")] } "u2" "this is ada park" []),
    (9000, .heard { act := .askDiscount } "u3" "anything cheaper?" []),
    (10000, .tick),
    (12000, .heard { act := .accept } "u4" "that works" ["basic"]),
    (16000, .heard { act := .accept } "u5" "yes" ["basic"])]

end OneCall

theorem one_call_said : ((Lib.run (Sim.step OneCall.world) (Sim.start OneCall.rep OneCall.identity 0)
      OneCall.calls).map fun s => s.log.map fun e => e.decisions.map fun d => (d.intent.kind, d.commit)) =
    some [[(.greet, none)], [(.howCanHelp, none)], [(.finalOffer, none)], [], [(.confirmAccept, none)],
      [(.confirmed,
        some ⟨"basic", "689481", some ⟨"basic", 1, 12, [("monthly_price", "45.00")]⟩⟩)]] := by
  decide +kernel

theorem rep_law_one_call : ∃ s, Reach (Sim.step OneCall.world) anyStep
      (Sim.start OneCall.rep OneCall.identity 0) s ∧
    Each (RepLaw OneCall.world OneCall.rep OneCall.identity) s.log ∧ s.log.length = 6 := by
  have said := one_call_said
  obtain ⟨s, run, log⟩ := Option.map_eq_some_iff.mp said
  have reach := Reach.start.run run
  exact ⟨s, reach, rep_law reach, by simpa using congrArg List.length log⟩

end ProxyLoop.Env

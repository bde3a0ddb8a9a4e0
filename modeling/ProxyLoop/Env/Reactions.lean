import ProxyLoop.Env.Policy

/-!
# What a reaction of the rep is

One inversion for each function of the policy; the laws of a run are case analyses over them.
-/

namespace ProxyLoop.Env

open Lib (Dict)

namespace Policy

/-- The caller is past identification. -/
def Past (p : Policy) : Prop := p.state ≠ .greet ∧ p.state ≠ .identify

def Gives (world : World) (identity : Dict String String) (act : EarAct) (key : String) : Prop :=
  act.act = .provideFact ∧ ∃ v, (key, v) ∈ act.facts ∧ world.norm v ≠ [] ∧
    world.norm v = world.norm ((identity.get? key).getD "")

end Policy

/-- An intent that makes no offer, asks to confirm none and ends none. -/
def PublicIntent.calm (intent : PublicIntent) : Bool :=
  match intent.kind with
  | .offer | .finalOffer | .confirmAccept | .offerExpired => false
  | _ => true

namespace Policy

/-- What an act makes of the policy, after the expiries. -/
inductive Reacted (world : World) (p : Policy) (act : EarAct) (uttId heard : String) (tMs : Nat)
    (listed : List String) : Policy → Except PyError (PublicIntent × Option Commit) → Prop
  | stays (since clock : Option Nat) (intent : PublicIntent) (calm : intent.calm = true)
      (undeclined : p.state = .confirm → act.act ≠ .decline) :
      Reacted world p act uttId heard tMs listed { p with holdSince := since, holdClock := clock }
        (.ok (intent, none))
  | transfers :
      Reacted world p act uttId heard tMs listed { p with state := .transfer }
        (.ok ({ kind := .transfer }, none))
  | greeted (was : p.state = .greet) :
      Reacted world p act uttId heard tMs listed { p with state := .identify }
        (.ok ({ kind := .greet, ask := p.missing }, none))
  | identified (p' : Policy) (intent : PublicIntent) (calm : intent.calm = true)
      (was : p.state = .greet ∨ p.state = .identify) (spec : p'.spec = p.spec)
      (identity : p'.identity = p.identity) (offers : p'.offers = p.offers)
      (rung : p'.rung = p.rung)
      (verified : ∀ k ∈ p'.verified, k ∈ p.verified ∨ Gives world p.identity act k)
      (state : p'.state = .ended ∨ p'.state = .identify ∨ p'.state = .discover ∧ p'.missing = []) :
      Reacted world p act uttId heard tMs listed p' (.ok (intent, none))
  | offered (spec : OfferSpec) (past : p.Past) (next : p.spec.ladder[p.nextRung]? = some spec)
      (undeclined : act.act ≠ .decline) :
      Reacted world p act uttId heard tMs listed (p.lever act.act tMs).1
        (.ok ((p.lever act.act tMs).2, none))
  | declined (past : p.Past) :
      Reacted world p act uttId heard tMs listed { p with state := p.offerState, pending := none }
        (.ok ({ kind := .ackDecline }, none))
  | confirms (o : Offer) (named : Bool) (past : p.Past)
      (meant : p.meant world act heard listed = (some o, named)) (isOpen : o.status = .open) :
      Reacted world p act uttId heard tMs listed
        { p with state := .confirm, pending := some o.spec.offerRef }
        (.ok (termsIntent .confirmAccept o.spec, none))
  | commits (o : Offer) (past : p.Past) (meant : p.meant world act heard listed = (some o, true))
      (isOpen : o.status = .open) (price : ∀ said, act.price = some said → o.spec.price? = some said) :
      Reacted world p act uttId heard tMs listed (p.commits world o uttId).1
        (p.commits world o uttId).2

variable {world : World} {p p' : Policy} {act : EarAct} {uttId heard : String} {tMs : Nat}
  {listed : List String}

theorem verified_of_verifies {facts : List (String × String)} (fact : act.act = .provideFact)
    (own : facts = act.facts) (k : String) (hk : k ∈ (p.verifies world facts).verified) :
    k ∈ p.verified ∨ Gives world p.identity act k := by
  rcases List.mem_append.mp hk with hk | hk
  · obtain ⟨f, hf, rfl⟩ := List.mem_map.mp hk
    obtain ⟨mem, right⟩ := List.mem_filter.mp hf
    simp only [ne_eq, decide_not, Bool.and_eq_true, Bool.not_eq_eq_eq_not, Bool.not_true,
      decide_eq_false_iff_not, decide_eq_true_eq] at right
    exact Or.inr ⟨fact, f.2, own ▸ mem, right⟩
  · exact Or.inl hk

/-- After the facts of an act, the rep asks for what is missing, or how to help. -/
theorem identified_of_asks (q : Policy) (was : p.state = .greet ∨ p.state = .identify)
    (spec : q.spec = p.spec) (identity : q.identity = p.identity) (offers : q.offers = p.offers)
    (rung : q.rung = p.rung) (state : q.state = .identify)
    (verified : ∀ k ∈ q.verified, k ∈ p.verified ∨ Gives world p.identity act k) :
    Reacted world p act uttId heard tMs listed q.asks.1 (.ok (q.asks.2, none)) := by
  unfold asks
  by_cases none_ : q.missing = []
  · rw [if_pos none_]
    exact .identified _ _ rfl was spec identity offers rung verified (Or.inr (Or.inr ⟨rfl, none_⟩))
  · rw [if_neg none_]
    exact .identified _ _ rfl was spec identity offers rung verified (Or.inr (Or.inl state))

theorem identified_of_identifies (was : p.state = .greet ∨ p.state = .identify) :
    Reacted world p act uttId heard tMs listed ({ p with state := .identify }.identifies world act).1
      (.ok (({ p with state := .identify }.identifies world act).2, none)) := by
  unfold identifies
  by_cases fact : act.act = .provideFact
  · rw [if_pos fact]
    exact identified_of_asks _ was rfl rfl rfl rfl rfl fun k hk => verified_of_verifies fact rfl k hk
  · rw [if_neg fact]
    dsimp only
    split
    · exact .identified _ _ rfl was rfl rfl rfl rfl (fun k hk => Or.inl hk) (Or.inl rfl)
    · exact identified_of_asks _ was rfl rfl rfl rfl rfl fun k hk => Or.inl hk

theorem reacted_of_lever (past : p.Past) (undeclined : act.act ≠ .decline) :
    Reacted world p act uttId heard tMs listed (p.lever act.act tMs).1
      (.ok ((p.lever act.act tMs).2, none)) := by
  cases next : p.spec.ladder[p.nextRung]? with
  | some spec => exact .offered spec past next undeclined
  | none =>
    unfold lever
    rw [next]
    exact .stays _ _ _ rfl fun _ => undeclined

theorem reacted_of_accepts (past : p.Past) (undeclined : act.act ≠ .decline) :
    Reacted world p act uttId heard tMs listed (p.accepts world act uttId heard listed).1
      (p.accepts world act uttId heard listed).2 := by
  unfold accepts
  generalize meant : p.meant world act heard listed = m
  obtain ⟨offer, named⟩ := m
  dsimp only
  split
  · exact .stays _ _ _ rfl fun _ => undeclined
  · rename_i o
    split
    · exact .stays _ _ _ rfl fun _ => undeclined
    · rename_i isOpen
      have isOpen : o.status = .open := by simpa using isOpen
      split
      · exact .confirms o named past meant isOpen
      · rename_i taken
        simp only [Bool.or_eq_true, Bool.not_eq_eq_eq_not, Bool.not_true, not_or,
          Bool.not_eq_false, Option.any_eq_true, not_exists, not_and] at taken
        obtain ⟨rfl, price⟩ := taken
        refine .commits o past meant isOpen fun said hs => ?_
        simpa using price said hs

theorem reacted_of_react {result : Except PyError (PublicIntent × Option Commit)}
    (h : p.react world act uttId heard tMs listed = (p', result)) :
    Reacted world p act uttId heard tMs listed p' result := by
  unfold react at h
  dsimp only at h
  split at h
  · cases h
    exact .transfers
  split at h
  · rename_i hold
    cases h
    exact .stays _ _ _ rfl fun _ => by rw [hold]; simp
  split at h
  · rename_i was
    simp only [ne_eq, decide_not, Bool.and_eq_true, decide_eq_true_eq] at was
    cases h
    exact .greeted was.1
  split at h
  · rename_i was
    simp only [Bool.or_eq_true, decide_eq_true_eq] at was
    cases h
    exact identified_of_identifies was
  rename_i past
  simp only [Bool.or_eq_true, decide_eq_true_eq, not_or] at past
  split at h
  · rename_i lever
    cases h
    exact reacted_of_lever past fun bad => by rw [bad] at lever; cases lever
  split at h
  · rename_i accept
    have result : Reacted world p act uttId heard tMs listed _ _ :=
      reacted_of_accepts past (by rw [accept]; simp)
    rw [h] at result
    exact result
  · rename_i ask
    have undeclined : act.act ≠ .decline := by rw [ask]; simp
    split at h
    · split at h
      · cases h
        exact .stays _ _ _ rfl fun _ => undeclined
      · cases h
        exact .stays _ _ _ rfl fun _ => undeclined
    · cases h
      exact .stays _ _ _ rfl fun _ => undeclined
  · split at h
    · cases h
      exact .declined past
    · rename_i other
      cases h
      exact .stays _ _ _ rfl fun bad => absurd bad other
  · rename_i talk
    cases h
    refine .stays _ _ _ ?_ fun _ => by rw [talk]; simp
    split <;> rfl
  · rename_i talk
    cases h
    refine .stays _ _ _ ?_ fun _ => by rw [talk]; simp
    split <;> rfl
  · rename_i undeclined _ _
    cases h
    exact .stays _ _ _ rfl fun _ => undeclined

end Policy

end ProxyLoop.Env

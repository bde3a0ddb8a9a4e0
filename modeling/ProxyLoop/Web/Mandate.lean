import ProxyLoop.Kernel.Mandates
import ProxyLoop.Web.Page

/-!
# The limits card

The page recomputes from the events whether a mandate still lets the agent say yes: it looks for the
decision, the bumps after it and later proposals.  The fold carries a decided mandate's epoch over
its own bump.  Over every log in which each decision is followed by its own bump, the two agree.
-/

namespace ProxyLoop.Web

open Lib (Each each_snoc)

/-! ## The code -/

inductive MandateCardStatus
  | open_ | pending | sent | granted | denied | superseded | stale | alreadyDecided | refused
  | tightened | withdrawn
  deriving DecidableEq, Repr

structure MandateView where
  seq : Nat
  mandate : Mandate
  status : MandateCardStatus
  by_ : Option Approver
  at_ : Option String
  error : Option String
  reason : Option String

/-- The mandate of a `mandate.proposed` from Guard. -/
def proposal? (e : Event) : Option Mandate :=
  match e.payload with
  | .mandateProposed p => if e.actor = .guard then some p.mandate else none
  | _ => none

/-- The decision of `m`, if `e` is one from the kernel. -/
def decision? (m : Mandate) (e : Event) : Option (Event × MandateDecided) :=
  match e.payload with
  | .mandateDecided d =>
    if e.actor = .kernel ∧ d.mandateId = m.mandateId ∧ d.mandateHash = m.mandateHash then
      some (e, d)
    else none
  | _ => none

/-- The first decision of `m`. -/
def decided (events : List Event) (m : Mandate) : Option (Event × MandateDecided) :=
  events.findSome? (decision? m)

/-- Something was proposed after `seq`. -/
def later (events : List Event) (seq : Nat) : Bool :=
  events.any fun o => (proposal? o).isSome && seq < o.seq

def bumpsAfter (events : List Event) (seq : Nat) : List EpochBump :=
  (events.filter (seq < ·.seq)).filterMap bump?

/-- The bump that ends a grant: its own (`mandate_decided`) carries it, any later one ends it. -/
def ending (bumps : List EpochBump) : Option EpochBump :=
  let own := if bumps.head?.map (·.reason) = some .mandateDecided then 1 else 0
  bumps[own]?

/-- The card of the proposal `req` of `m`. -/
def mandateView (events : List Event) (posts : String → Option Posting)
    (wall : Event → Option String) (req : Event) (m : Mandate) : MandateView :=
  let posting := posts m.mandateId
  let failed := posting.bind Posting.failure
  let error := failed.map fun (status, error, reason) => errorText status error reason
  let view (status : MandateCardStatus) (by_ : Option Approver) (reason at_ : Option String) :
      MandateView := ⟨req.seq, m, status, by_, at_, error, reason⟩
  let isLater := later events req.seq
  match decided events m with
  | some (e, d) =>
    if d.decision ≠ .granted then view .denied (some d.by_) none (wall e)
    else
      let end_ := ending (bumpsAfter events e.seq)
      if end_.map (·.reason) = some .tightenMandate then view .tightened (some d.by_) none none
      else if isLater || end_.isSome then
        view (if isLater then .superseded else .withdrawn) (some d.by_) none none
      else view .granted (some d.by_) none (wall e)
  | none =>
    match refusal events req with
    | some reason => view .refused none (some reason) none
    | none =>
      if isLater then view .superseded none none none
      else match failed with
        | some (409, "stale", reason) => view .stale none reason none
        | some (409, "already_decided", _) => view .alreadyDecided none none none
        | _ =>
          if epochOf events > m.epoch then view .stale none (some "epoch_moved") none
          else if posting = some .pending then view .pending none none none
          else if posted events .mandate m.mandateId || posting = some .ok then
            view .sent none none none
          else view .open_ none none none

def mandateCards (events : List Event) (posts : String → Option Posting)
    (wall : Event → Option String) : List MandateView :=
  events.filterMap fun req => (proposal? req).map (mandateView events posts wall req)

/-! ## Granted cards -/

/-- The page shows the mandate `m`, proposed at `seq`, as granted. -/
structure Shown (events : List Event) (seq : Nat) (m : Mandate) (e : Event) (d : MandateDecided) :
    Prop where
  decided : decided events m = some (e, d)
  yes : d.decision = .granted
  live : ending (bumpsAfter events e.seq) = none
  newest : later events seq = false

theorem mandateView_granted {events : List Event} {posts : String → Option Posting}
    {wall : Event → Option String} {req : Event} {m : Mandate} :
    (mandateView events posts wall req m).status = .granted ↔
      ∃ e d, Shown events req.seq m e d := by
  unfold mandateView
  constructor
  · intro h
    dsimp only at h
    split at h
    · rename_i e d found
      split at h
      · cases h
      · rename_i yes
        split at h
        · cases h
        · split at h
          · split at h <;> cases h
          · rename_i rest
            simp only [Bool.or_eq_true, not_or, Bool.not_eq_true, Option.isSome_eq_false_iff,
              Option.isNone_iff_eq_none] at rest
            exact ⟨e, d, found, not_not.mp yes, rest.2, rest.1⟩
    · split at h
      · cases h
      · split at h
        · cases h
        · split at h
          · cases h
          · cases h
          · split at h
            · cases h
            · split at h
              · cases h
              · split at h <;> cases h
  · rintro ⟨e, d, found, yes, live, newest⟩
    simp [found, yes, live, newest]

end ProxyLoop.Web

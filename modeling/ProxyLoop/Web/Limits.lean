import ProxyLoop.Kernel.Limits
import ProxyLoop.Kernel.Written
import ProxyLoop.Web.Mandate

/-!
# The limits card agrees with the board

`Agrees` is what one more event of a log of mandates keeps: the card of each proposal shows granted
exactly where the board has its mandate in force.
-/

namespace ProxyLoop.Web

open Lib (Each each_snoc)

section written

variable {log before after : List Event} {x : Event} {bb bb' : Blackboard}

/-! ## The page's functions, one event more -/

theorem formed_actor (formed : x.wellFormed = true) {actors : List Actor}
    (own : x.payload.emitters = some actors) : x.actor ∈ actors := by
  simp only [Event.wellFormed, own, Bool.and_eq_true] at formed
  simpa using formed.1.2

theorem proposal?_eq (formed : x.wellFormed = true) {p : MandateProposal}
    (hp : x.payload = .mandateProposed p) : proposal? x = some p.mandate := by
  have : x.actor ∈ [.guard] := formed_actor formed (by rw [hp]; rfl)
  simp only [List.mem_singleton] at this
  simp [proposal?, hp, this]

theorem proposal?_none (other : ∀ p, x.payload ≠ .mandateProposed p) : proposal? x = none := by
  unfold proposal?
  split
  · exact absurd ‹_› (other _)
  · rfl

theorem decision?_none {m : Mandate} (other : ∀ d, x.payload = .mandateDecided d →
    d.mandateId ≠ m.mandateId) : decision? m x = none := by
  unfold decision?
  split
  · rename_i d hp
    rw [if_neg fun own => other d hp own.2.1]
  · rfl

theorem bump?_eq (formed : x.wellFormed = true) {b : EpochBump}
    (hp : x.payload = .authorityEpoch b) : bump? x = some b := by
  have : x.actor ∈ [.kernel, .guard] := formed_actor formed (by rw [hp]; rfl)
  simp [bump?, hp, authority, this]

theorem bump?_none (other : ∀ b, x.payload ≠ .authorityEpoch b) : bump? x = none := by
  unfold bump?
  split
  · exact absurd ‹_› (other _)
  · rfl

theorem decided_snoc {m : Mandate} :
    decided (log ++ [x]) m = (decided log m).or (decision? m x) := by
  unfold decided
  rw [List.findSome?_append]
  cases h : decision? m x <;> simp [h]

theorem later_snoc {n : Nat} :
    later (log ++ [x]) n = (later log n || ((proposal? x).isSome && Decidable.decide (n < x.seq))) := by
  simp [later]

theorem bumpsAfter_snoc {n : Nat} (after : n < x.seq) :
    bumpsAfter (log ++ [x]) n = bumpsAfter log n ++ (bump? x).toList := by
  simp only [bumpsAfter, List.filter_append, List.filterMap_append]
  cases h : bump? x <;> simp [after, h]

theorem decided_mem {m : Mandate} {e : Event} {d : MandateDecided}
    (h : decided log m = some (e, d)) : e ∈ log ∧ e.payload = .mandateDecided d ∧
      d.mandateId = m.mandateId ∧ d.mandateHash = m.mandateHash := by
  obtain ⟨y, hy, found⟩ := List.exists_of_findSome?_eq_some h
  unfold decision? at found
  split at found
  · rename_i d' hp
    split at found
    · rename_i own
      cases found
      exact ⟨hy, hp, own.2⟩
    · cases found
  · cases found

theorem decided_congr {m m' : Mandate} (same : SameLimits m m') : decided log m' = decided log m := by
  have : decision? m' = decision? m := by
    funext e
    unfold decision?
    rw [same.id, same.hash]
  rw [decided, this, decided]

theorem ending_snoc {bumps : List EpochBump} {b : EpochBump} (h : ending (bumps ++ [b]) = none) :
    bumps = [] ∧ b.reason = .mandateDecided := by
  unfold ending at h
  cases bumps with
  | nil =>
    refine ⟨rfl, ?_⟩
    by_contra other
    simp [other] at h
  | cons c bumps =>
    dsimp only at h
    split at h <;> simp at h

theorem ending_own {b : EpochBump} (own : b.reason = .mandateDecided) : ending [b] = none := by
  simp [ending, own]

/-! ## The board, one event more -/

/-- What the board says of a mandate: it is on record, granted, in the current epoch. -/
def InForce (bb : Blackboard) (m : Mandate) : Prop :=
  ∃ g, bb.priv.mandate = some g ∧ SameLimits m g ∧ g.status = .granted ∧ g.epoch = bb.epoch

/-- The card of each proposal agrees with the board; and what carries that over one event. -/
structure Agrees (log : List Event) (bb : Blackboard) : Prop where
  shown : ∀ req ∈ log, ∀ p, req.payload = .mandateProposed p →
    ((∃ e d, Shown log req.seq p.mandate e d) ↔ InForce bb p.mandate)
  /-- the mandate on record is the last one proposed -/
  last : ∀ g, bb.priv.mandate = some g → ∃ req ∈ log, ∃ p, req.payload = .mandateProposed p ∧
    SameLimits p.mandate g ∧ later log req.seq = false
  epoch : ∀ g, bb.priv.mandate = some g → g.epoch ≤ bb.epoch
  /-- a decision that awaits its bump is the one of the mandate on record -/
  own : awaiting log = true → ∃ g e d, bb.priv.mandate = some g ∧ g.status ≠ .proposed ∧
    g.epoch = bb.epoch ∧ decided log g = some (e, d) ∧ bumpsAfter log e.seq = []

theorem mandate_of_plain (h : apply bb x = .ok bb')
    (plain : x.payload.awaits = none) : bb'.priv.mandate = bb.priv.mandate ∧ bb'.epoch = bb.epoch := by
  obtain ⟨b, hc, rfl⟩ := change_of_apply h
  cases hc with
  | quiet hp same => exact ⟨same.mandate, same.epoch⟩
  | epoch bump hp => rw [hp] at plain; cases plain
  | proposed p hp => rw [hp] at plain; cases plain
  | mandate d m hp => rw [hp] at plain; cases plain
  | _ => exact ⟨rfl, rfl⟩

theorem Agrees.plain (agrees : Agrees log bb) (h : apply bb x = .ok bb')
    (plain : x.payload.awaits = none) (lt : ∀ e ∈ log, e.seq < x.seq) :
    Agrees (log ++ [x]) bb' := by
  obtain ⟨mandate, epoch⟩ := mandate_of_plain h plain
  have unproposed : proposal? x = none := proposal?_none fun p hp => by rw [hp] at plain; cases plain
  have undecided (m : Mandate) : decision? m x = none :=
    decision?_none fun d hp => by rw [hp] at plain; cases plain
  have unbumped : bump? x = none := bump?_none fun b hp => by rw [hp] at plain; cases plain
  have same_decided (m : Mandate) : decided (log ++ [x]) m = decided log m := by
    rw [decided_snoc, undecided, Option.or_none]
  have same_later (n : Nat) : later (log ++ [x]) n = later log n := by
    simp [later_snoc, unproposed]
  have same_bumps {n : Nat} (lt : n < x.seq) : bumpsAfter (log ++ [x]) n = bumpsAfter log n := by
    rw [bumpsAfter_snoc lt, unbumped]
    exact List.append_nil _
  have same_shown (n : Nat) (m : Mandate) (e : Event) (d : MandateDecided) :
      Shown (log ++ [x]) n m e d ↔ Shown log n m e d := by
    constructor
    · rintro ⟨found, yes, live, newest⟩
      rw [same_decided] at found
      rw [same_bumps (lt e (decided_mem found).1)] at live
      exact ⟨found, yes, live, same_later n ▸ newest⟩
    · rintro ⟨found, yes, live, newest⟩
      refine ⟨(same_decided m).trans found, yes, ?_, (same_later n).trans newest⟩
      rw [same_bumps (lt e (decided_mem found).1)]
      exact live
  refine ⟨fun req hreq p hp => ?_, fun g hg => ?_, fun g hg => ?_, fun wait => ?_⟩
  · have mem : req ∈ log := by
      rcases List.mem_append.mp hreq with mem | mem
      · exact mem
      · rw [List.mem_singleton.mp mem] at hp
        rw [hp] at plain
        cases plain
    simp only [same_shown, InForce, mandate, epoch]
    exact agrees.shown req mem p hp
  · obtain ⟨req, mem, p, hp, same, newest⟩ := agrees.last g (mandate ▸ hg)
    exact ⟨req, List.mem_append_left _ mem, p, hp, same, (same_later _).trans newest⟩
  · rw [epoch]
    exact agrees.epoch g (mandate ▸ hg)
  · rw [awaiting_snoc, plain] at wait
    obtain ⟨g, e, d, found, status, now, decided_, none_⟩ := agrees.own wait
    refine ⟨g, e, d, mandate.trans found, status, now.trans epoch.symm,
      (same_decided g).trans decided_, ?_⟩
    rw [same_bumps (lt e (decided_mem decided_).1)]
    exact none_

theorem later_last (lt : ∀ e ∈ log, e.seq < x.seq) : later (log ++ [x]) x.seq = false := by
  simp only [later, List.any_eq_false, List.mem_append, List.mem_singleton]
  rintro o (ho | rfl)
  · have := lt o ho
    simp only [Bool.and_eq_true, decide_eq_true_eq, not_and]
    omega
  · simp

theorem bumpsAfter_last (lt : ∀ e ∈ log, e.seq < x.seq) : bumpsAfter (log ++ [x]) x.seq = [] := by
  have none_ : (log ++ [x]).filter (x.seq < ·.seq) = [] := by
    simp only [List.filter_eq_nil_iff, List.mem_append, List.mem_singleton]
    rintro o (ho | rfl)
    · have := lt o ho
      simp only [decide_eq_true_eq]
      omega
    · simp
  rw [bumpsAfter, none_]
  rfl

/-- A proposal supersedes every earlier one, and is granted nothing yet. -/
theorem Agrees.proposed (h : apply bb x = .ok bb') {p : MandateProposal}
    (hp : x.payload = .mandateProposed p) (formed : x.wellFormed = true)
    (lt : ∀ e ∈ log, e.seq < x.seq) (new : Web.decided log p.mandate = none) :
    Agrees (log ++ [x]) bb' := by
  have now : bb'.priv.mandate = some p.mandate ∧ bb'.epoch = bb.epoch ∧
      p.mandate.epoch = bb.epoch := by
    obtain ⟨b, hc, rfl⟩ := change_of_apply h
    cases hc with
    | proposed p' hp' epoch =>
      rw [hp] at hp'
      cases hp'
      exact ⟨rfl, rfl, epoch⟩
    | quiet hq => rw [hp] at hq; cases hq
    | _ => simp_all
  obtain ⟨mandate, epoch, own⟩ := now
  have undecided : ∀ m, InForce bb' m → False := by
    rintro m ⟨g, hg, -, status, -⟩
    rw [mandate] at hg
    cases hg
    rw [p.proposed.1] at status
    cases status
  refine ⟨fun req hreq q hq => ⟨?_, fun force => (undecided _ force).elim⟩, fun g hg => ?_,
    fun g hg => ?_, fun wait => ?_⟩
  · rintro ⟨e, d, found, -, -, newest⟩
    rcases List.mem_append.mp hreq with mem | mem
    · -- the new proposal is later
      rw [later_snoc, proposal?_eq formed hp] at newest
      simp [lt req mem] at newest
    · rw [List.mem_singleton.mp mem, hp] at hq
      cases hq
      rw [decided_snoc, new, decision?_none fun d' hd => by rw [hp] at hd; cases hd] at found
      cases found
  · rw [mandate] at hg
    cases hg
    exact ⟨x, by simp, p, hp, .refl _, later_last lt⟩
  · rw [mandate] at hg
    cases hg
    omega
  · rw [awaiting_snoc, hp] at wait
    cases wait

/-- A decision is of the mandate on record, which nobody decided. -/
theorem Agrees.decided (agrees : Agrees log bb) (h : apply bb x = .ok bb') {d : MandateDecided}
    (hp : x.payload = .mandateDecided d) (formed : x.wellFormed = true)
    (lt : ∀ e ∈ log, e.seq < x.seq)
    (new : ∀ m : Mandate, m.mandateId = d.mandateId → Web.decided log m = none)
    (unique : ∀ req ∈ log, ∀ req' ∈ log, ∀ p p', req.payload = .mandateProposed p →
      req'.payload = .mandateProposed p' → p.mandate.mandateId = p'.mandate.mandateId →
      req = req') : Agrees (log ++ [x]) bb' := by
  obtain ⟨m, found, id, hash, undecided, epoch, now⟩ := mandate_of_decided h hp
  have still : bb'.epoch = bb.epoch := by
    rcases epoch_of_apply h with ⟨⟨b, hb⟩, -⟩ | ⟨-, same⟩
    · rw [hp] at hb
      cases hb
    · exact same
  have actor : x.actor = .kernel := by
    have : x.actor ∈ [.kernel] := formed_actor formed (by rw [hp]; rfl)
    simpa using this
  have unproposed : proposal? x = none := proposal?_none fun p hq => by rw [hp] at hq; cases hq
  have unbumped : bump? x = none := bump?_none fun b hb => by rw [hp] at hb; cases hb
  have same_later (n : Nat) : later (log ++ [x]) n = later log n := by
    simp [later_snoc, unproposed]
  have same_bumps {n : Nat} (lt : n < x.seq) : bumpsAfter (log ++ [x]) n = bumpsAfter log n := by
    rw [bumpsAfter_snoc lt, unbumped]
    exact List.append_nil _
  have limits : SameLimits m (m.decide d.decision d.by_) := ⟨rfl, rfl, rfl, rfl⟩
  have first {g : Mandate} (same : SameLimits g m) : Web.decided (log ++ [x]) g = some (x, d) := by
    have own : decision? g x = some (x, d) := by
      simp [decision?, hp, actor, ← id, ← hash, same.id, same.hash]
    rw [decided_snoc, new g (same.id.symm.trans id), own]
    rfl
  obtain ⟨req₀, mem₀, p₀, hp₀, same₀, newest₀⟩ := agrees.last m found
  refine ⟨fun req hreq p hq => ?_, fun g hg => ?_, fun g hg => ?_, fun wait => ?_⟩
  · have mem : req ∈ log := by
      rcases List.mem_append.mp hreq with mem | mem
      · exact mem
      · rw [List.mem_singleton.mp mem, hp] at hq
        cases hq
    by_cases own : p.mandate.mandateId = m.mandateId
    · have : req = req₀ := unique req mem req₀ mem₀ p p₀ hq hp₀ (own.trans same₀.id)
      subst this
      rw [hq] at hp₀
      cases hp₀
      constructor
      · rintro ⟨e, d', found', yes, -, -⟩
        rw [first same₀] at found'
        cases found'
        refine ⟨_, now, same₀.trans limits, ?_, epoch.trans still.symm⟩
        show d.decision.toStatus = .granted
        rw [yes]
        rfl
      · rintro ⟨g, hg, -, status, -⟩
        rw [now] at hg
        cases hg
        refine ⟨x, d, first same₀, ?_, ?_, (same_later _).trans newest₀⟩
        · cases hd : d.decision with
          | granted => rfl
          | denied =>
            have status : d.decision.toStatus = .granted := status
            rw [hd] at status
            cases status
        · rw [bumpsAfter_last lt]
          rfl
    · -- another mandate's card: neither before nor after
      constructor
      · rintro ⟨e, d', found', yes, live, newest⟩
        rw [decided_snoc, decision?_none fun d'' hd => ?_, Option.or_none] at found'
        · rw [same_bumps (lt e (decided_mem found').1)] at live
          obtain ⟨g, hg, same, -⟩ := (agrees.shown req mem p hq).mp
            ⟨e, d', found', yes, live, same_later _ ▸ newest⟩
          rw [found] at hg
          cases hg
          exact absurd same.id.symm own
        · rw [hp] at hd
          cases hd
          exact fun eq => own (eq.symm.trans id.symm)
      · rintro ⟨g, hg, same, -⟩
        rw [now] at hg
        cases hg
        exact absurd same.id.symm own
  · rw [now] at hg
    cases hg
    exact ⟨req₀, List.mem_append_left _ mem₀, p₀, hp₀, same₀.trans limits,
      (same_later _).trans newest₀⟩
  · rw [now] at hg
    cases hg
    show m.epoch ≤ bb'.epoch
    omega
  · refine ⟨_, x, d, now, toStatus_ne_proposed _, epoch.trans still.symm, ?_, bumpsAfter_last lt⟩
    rw [decided_congr limits]
    exact first (.refl m)

/-- A decision's own bump carries it over; any other bump ends every grant. -/
theorem Agrees.bumped (agrees : Agrees log bb) (h : apply bb x = .ok bb') {b : EpochBump}
    (hp : x.payload = .authorityEpoch b) (formed : x.wellFormed = true)
    (lt : ∀ e ∈ log, e.seq < x.seq)
    (order : awaiting log = Decidable.decide (b.reason = .mandateDecided)) :
    Agrees (log ++ [x]) bb' := by
  have now : bb'.priv.mandate = bumpedMandate bb b ∧ bb'.epoch = b.new ∧ bb.epoch < b.new := by
    obtain ⟨c, hc, rfl⟩ := change_of_apply h
    cases hc with
    | epoch b' hp' forward =>
      rw [hp] at hp'
      cases hp'
      exact ⟨rfl, rfl, forward⟩
    | quiet hq => rw [hp] at hq; cases hq
    | _ => simp_all
  obtain ⟨mandate, epoch, forward⟩ := now
  have unproposed : proposal? x = none := proposal?_none fun p hq => by rw [hp] at hq; cases hq
  have same_later (n : Nat) : later (log ++ [x]) n = later log n := by
    simp [later_snoc, unproposed]
  have same_decided (m : Mandate) : Web.decided (log ++ [x]) m = Web.decided log m := by
    rw [decided_snoc, decision?_none (fun d hd => by rw [hp] at hd; cases hd), Option.or_none]
  have more_bumps {n : Nat} (lt : n < x.seq) :
      bumpsAfter (log ++ [x]) n = bumpsAfter log n ++ [b] := by
    rw [bumpsAfter_snoc lt, bump?_eq formed hp]
    rfl
  -- the mandate on record keeps its limits and its status
  have kept : ∀ g', bb'.priv.mandate = some g' → ∃ g, bb.priv.mandate = some g ∧
      SameLimits g g' ∧ g'.status = g.status ∧
      (g' = g ∨ b.reason = .mandateDecided ∧ g' = g.withEpoch b.new) := by
    intro g' hg'
    rw [mandate, bumpedMandate] at hg'
    obtain ⟨g, hg, rfl⟩ := Option.map_eq_some_iff.mp hg'
    refine ⟨g, hg, ?_⟩
    split
    · rename_i own
      exact ⟨⟨rfl, rfl, rfl, rfl⟩, rfl, Or.inr ⟨own.1, rfl⟩⟩
    · exact ⟨.refl g, rfl, Or.inl rfl⟩
  refine ⟨fun req hreq p hq => ?_, fun g' hg' => ?_, fun g' hg' => ?_, fun wait => ?_⟩
  · have mem : req ∈ log := by
      rcases List.mem_append.mp hreq with mem | mem
      · exact mem
      · rw [List.mem_singleton.mp mem, hp] at hq
        cases hq
    constructor
    · rintro ⟨e, d, found, yes, live, newest⟩
      rw [same_decided] at found
      rw [more_bumps (lt e (decided_mem found).1)] at live
      obtain ⟨none_, own⟩ := ending_snoc live
      obtain ⟨g, hg, same, status, current⟩ := (agrees.shown req mem p hq).mp
        ⟨e, d, found, yes, by rw [none_]; rfl, same_later _ ▸ newest⟩
      refine ⟨g.withEpoch b.new, ?_, same.trans ⟨rfl, rfl, rfl, rfl⟩, status, epoch.symm⟩
      rw [mandate, bumpedMandate, hg, Option.map_some, if_pos ⟨own, by rw [status]; simp, current⟩]
    · rintro ⟨g', hg', same, status, current⟩
      obtain ⟨g, hg, limits, status', kept⟩ := kept g' hg'
      have le := agrees.epoch g hg
      rcases kept with rfl | ⟨own, rfl⟩
      · omega
      · obtain ⟨g₁, e, d, found, decided_, fresh, first, none_⟩ :=
          agrees.own (by rw [order]; simp [own])
        rw [hg] at found
        cases found
        obtain ⟨e', d', shown⟩ := (agrees.shown req mem p hq).mpr
          ⟨g, hg, same.trans ⟨rfl, rfl, rfl, rfl⟩, status, fresh⟩
        have one := shown.decided
        rw [← decided_congr (same.trans (⟨rfl, rfl, rfl, rfl⟩ : SameLimits (g.withEpoch b.new) g)),
          first] at one
        cases one
        refine ⟨e, d, (same_decided _).trans shown.decided, shown.yes, ?_,
          (same_later _).trans shown.newest⟩
        rw [more_bumps (lt e (decided_mem first).1), none_]
        exact ending_own own
  · obtain ⟨g, hg, limits, -, -⟩ := kept g' hg'
    obtain ⟨req, mem, p, hq, same, newest⟩ := agrees.last g hg
    exact ⟨req, List.mem_append_left _ mem, p, hq, same.trans limits,
      (same_later _).trans newest⟩
  · obtain ⟨g, hg, -, -, kept⟩ := kept g' hg'
    have le := agrees.epoch g hg
    rcases kept with rfl | ⟨-, rfl⟩
    · omega
    · exact epoch ▸ Nat.le_refl _
  · rw [awaiting_snoc, hp] at wait
    cases wait

theorem decided_none {m : Mandate}
    (other : ∀ e ∈ log, ∀ d, e.payload = .mandateDecided d → d.mandateId ≠ m.mandateId) :
    Web.decided log m = none :=
  List.findSome?_eq_none_iff.mpr fun e he => decision?_none (other e he)

/-- Over a log of the writers of mandates, the cards agree with the board. -/
theorem agrees_of_written (h : Written log bb) : Agrees log bb := by
  induction log using List.reverseRecOn generalizing bb with
  | nil =>
    cases h.folds
    exact ⟨fun req he => (by cases he), fun g hg => (by cases hg), fun g hg => (by cases hg),
      fun wait => (by cases wait)⟩
  | append_singleton log x ih =>
    obtain ⟨b, before, ha⟩ := h.init
    have agrees := ih before
    have recorded := recorded_of_fold before.folds before.fresh
    have formed := h.formed x (by simp)
    have ordered : orderly log x = true := (each_snoc.mp h.ordered).2
    have lt : ∀ e ∈ log, e.seq < x.seq := fun e he => h.last_seq ▸ before.seq_lt he
    cases hp : x.payload with
    | mandateProposed p =>
      refine Agrees.proposed ha hp formed lt (decided_none fun e he d hd own => ?_)
      have distinct := h.fresh
      rw [proposedIds_snoc] at distinct
      have := recorded.decided e he d hd
      exact List.disjoint_of_nodup_append distinct this (by simp [hp, Payload.proposedId, own])
    | mandateDecided d =>
      obtain ⟨m, found, id, -, undecided, -⟩ := mandate_of_decided ha hp
      refine agrees.decided ha hp formed lt (fun g own => decided_none fun e he d' hd => ?_)
        fun req mem req' mem' p p' => before.unique mem mem'
      rw [own, ← id]
      exact recorded.undecided found undecided e he d' hd
    | authorityEpoch bump =>
      simp only [orderly, hp, decide_eq_true_eq] at ordered
      exact agrees.bumped ha hp formed lt ordered
    | _ => exact agrees.plain ha (by rw [hp]; rfl) lt

/-! ## After a revocation -/

/-- A mandate of an earlier epoch stays so, until another is proposed. -/
theorem stale_stays (h : fold after bb = .ok bb')
    (stale : ∀ g, bb.priv.mandate = some g → g.epoch < bb.epoch)
    (none_ : ∀ e ∈ after, proposal? e = none) (formed : ∀ e ∈ after, e.wellFormed = true) :
    ∀ g, bb'.priv.mandate = some g → g.epoch < bb'.epoch := by
  refine fold_invariant_mem (I := fun b => ∀ g, b.priv.mandate = some g → g.epoch < b.epoch) h stale
    fun {b e b'} mem stale ha => ?_
  obtain ⟨c, hc, rfl⟩ := change_of_apply ha
  cases hc with
  | quiet hp same =>
    intro g hg
    show g.epoch < c.epoch
    rw [same.epoch]
    exact stale g (same.mandate ▸ hg)
  | epoch bump hp forward =>
    intro g' hg'
    obtain ⟨g, hg, rfl⟩ := Option.map_eq_some_iff.mp hg'
    have old := stale g hg
    rw [if_neg fun own => by omega]
    exact old.trans forward
  | proposed p hp =>
    have := none_ e mem
    rw [proposal?_eq (formed e mem) hp] at this
    cases this
  | mandate d m hp found id hash undecided epoch =>
    have := stale m found
    omega
  | _ => exact stale

end written

/-! ## The card -/

theorem mem_mandateCards {events : List Event} {posts : String → Option Posting}
    {wall : Event → Option String} {v : MandateView} (h : v ∈ mandateCards events posts wall) :
    ∃ req ∈ events, ∃ p, req.payload = .mandateProposed p ∧
      v = mandateView events posts wall req p.mandate := by
  obtain ⟨req, mem, hv⟩ := List.mem_filterMap.mp h
  obtain ⟨m, hm, rfl⟩ := Option.map_eq_some_iff.mp hv
  unfold proposal? at hm
  split at hm
  · rename_i p hp
    split at hm
    · cases hm
      exact ⟨req, mem, p, hp, rfl⟩
    · cases hm
  · cases hm

@[simp] theorem mandateView_card {events : List Event} {posts : String → Option Posting}
    {wall : Event → Option String} {req : Event} {m : Mandate} :
    (mandateView events posts wall req m).mandate = m ∧
      (mandateView events posts wall req m).seq = req.seq := by
  unfold mandateView
  dsimp only
  repeat' split
  all_goals exact ⟨rfl, rfl⟩

theorem card_of_proposal {events : List Event} (posts : String → Option Posting)
    (wall : Event → Option String) {req : Event} (mem : req ∈ events)
    (formed : req.wellFormed = true) {p : MandateProposal} (hp : req.payload = .mandateProposed p) :
    ∃ v ∈ mandateCards events posts wall, v.mandate = p.mandate :=
  ⟨_, List.mem_filterMap.mpr ⟨req, mem, by rw [proposal?_eq formed hp]; rfl⟩, mandateView_card.1⟩

theorem ids_mandateCards {events : List Event} {posts : String → Option Posting}
    {wall : Event → Option String} (formed : ∀ e ∈ events, e.wellFormed = true) :
    (mandateCards events posts wall).map (·.mandate.mandateId) = proposedIds events := by
  simp only [mandateCards, List.map_filterMap, proposedIds]
  refine List.filterMap_congr fun e he => ?_
  cases hp : e.payload with
  | mandateProposed p => simp [proposal?_eq (formed e he) hp, Payload.proposedId]
  | _ =>
    rw [proposal?_none fun p hq => by rw [hp] at hq; cases hq]
    rfl

/-- The bump of someone else, or a proposal: what ends the grants before it. -/
def endsGrants (e : Event) : Bool :=
  match e.payload with
  | .authorityEpoch bump => bump.reason ≠ .mandateDecided
  | .mandateProposed _ => true
  | _ => false

section cards

variable {pre : List Event} {b b' : Blackboard} {posts : String → Option Posting}
  {wall : Event → Option String} {v : MandateView} {e : Event}

theorem card_granted_iff (written : Written pre b) (hv : v ∈ mandateCards pre posts wall) :
    v.status = .granted ↔ InForce b v.mandate := by
  obtain ⟨req, mem, p, hp, rfl⟩ := mem_mandateCards hv
  rw [mandateView_granted, (agrees_of_written written).shown req mem p hp, mandateView_card.1]

/-- The granted cards are of the mandate on record, which has one card. -/
theorem granted_le_one (written : Written pre b) :
    ((mandateCards pre posts wall).filter (·.status = .granted)).length ≤ 1 := by
  have distinct : ((mandateCards pre posts wall).map (·.mandate.mandateId)).Nodup := by
    rw [ids_mandateCards written.formed]
    exact written.fresh
  have one : ∀ v ∈ (mandateCards pre posts wall).filter (·.status = .granted),
      ∀ w ∈ (mandateCards pre posts wall).filter (·.status = .granted),
      v.mandate.mandateId = w.mandate.mandateId := by
    intro v hv w hw
    simp only [List.mem_filter, decide_eq_true_eq] at hv hw
    obtain ⟨g, hg, same, -⟩ := (card_granted_iff written hv.1).mp hv.2
    obtain ⟨g', hg', same', -⟩ := (card_granted_iff written hw.1).mp hw.2
    rw [hg] at hg'
    cases hg'
    exact same.id.symm.trans same'.id
  have sub : (((mandateCards pre posts wall).filter (·.status = .granted)).map
      (·.mandate.mandateId)).Nodup := distinct.sublist (List.filter_sublist.map _)
  generalize (mandateCards pre posts wall).filter (·.status = .granted) = granted at one sub
  match granted, one, sub with
  | [], _, _ => simp
  | [_], _, _ => simp
  | v :: w :: _, one, sub =>
    have := one v (by simp) w (by simp)
    simp [this] at sub

theorem stale_of_bump (written : Written pre b) {bump : EpochBump}
    (kind : e.payload = .authorityEpoch bump) (other : bump.reason ≠ .mandateDecided)
    (applied : apply b e = .ok b') : ∀ g, b'.priv.mandate = some g → g.epoch < b'.epoch := by
  obtain ⟨c, hc, rfl⟩ := change_of_apply applied
  cases hc with
  | epoch bump' hp' forward =>
    rw [kind] at hp'
    cases hp'
    intro g' hg'
    obtain ⟨g, hg, rfl⟩ := Option.map_eq_some_iff.mp hg'
    rw [if_neg fun own => other own.1]
    exact Nat.lt_of_le_of_lt ((agrees_of_written written).epoch g hg) forward
  | quiet hq => rw [kind] at hq; cases hq
  | _ => simp_all

/-- A card is granted only if no proposal came after its own. -/
theorem newest_of_granted {req : Event} {m : Mandate}
    (granted : (mandateView pre posts wall req m).status = .granted) :
    ∀ o ∈ pre, req.seq < o.seq → proposal? o = none := by
  obtain ⟨_, _, shown⟩ := mandateView_granted.mp granted
  intro o ho after
  have newest := shown.newest
  simp only [later, List.any_eq_false, Bool.and_eq_true, decide_eq_true_eq, not_and] at newest
  by_contra some_
  exact newest o ho (Option.isSome_iff_ne_none.mpr some_) after

theorem ungranted_of_ended (written : Written pre b) (he : e ∈ pre) (ends : endsGrants e = true)
    (hv : v ∈ mandateCards pre posts wall) (earlier : v.seq < e.seq) : v.status ≠ .granted := by
  intro granted
  obtain ⟨g, hg, -, -, current⟩ := (card_granted_iff written hv).mp granted
  obtain ⟨req, mem, p, hp, rfl⟩ := mem_mandateCards hv
  rw [mandateView_card.2] at earlier
  have alone := newest_of_granted granted
  cases kind : e.payload with
  | mandateProposed q =>
    have := alone e he earlier
    rw [proposal?_eq (written.formed e he) kind] at this
    cases this
  | authorityEpoch bump =>
    simp only [endsGrants, kind, ne_eq, decide_not, Bool.not_eq_true', decide_eq_false_iff_not]
      at ends
    obtain ⟨before, after, rfl⟩ := List.append_of_mem he
    obtain ⟨b₀, b₁, hb₀, ha, hb⟩ := fold_at written.folds
    obtain ⟨_, written₀⟩ := written.prefix_ before (List.prefix_append ..)
    cases hb₀.symm.trans written₀.folds
    have := stale_stays hb (stale_of_bump written₀ kind ends ha)
      (fun o ho => alone o (by simp [ho]) (earlier.trans (written.lt_after o ho)))
      (fun o ho => written.formed o (by simp [ho])) g hg
    omega
  | _ => simp [endsGrants, kind] at ends

end cards

/-- **The limits card.**  After every prefix of a log of the writers of mandates, whatever this page
posted, a card shows granted if and only if the board has its mandate granted in the current epoch,
and a mandate that the board has so has its card: at most one card, and none that was there before a
revocation, a tightening or a newer proposal. -/
theorem limits_card_agrees {log : List Event} {bb : Blackboard} (h : Written log bb)
    {pre : List Event} (hpre : pre <+: log) (posts : String → Option Posting)
    (wall : Event → Option String) :
    ∃ b, fold pre = .ok b ∧
      (∀ v ∈ mandateCards pre posts wall, v.status = .granted ↔ InForce b v.mandate) ∧
      (∀ g, b.priv.mandate = some g → g.status = .granted → g.epoch = b.epoch →
        ∃ v ∈ mandateCards pre posts wall, v.status = .granted ∧ SameLimits v.mandate g) ∧
      ((mandateCards pre posts wall).filter (·.status = .granted)).length ≤ 1 ∧
      ∀ e ∈ pre, endsGrants e = true → ∀ v ∈ mandateCards pre posts wall, v.seq < e.seq →
        v.status ≠ .granted := by
  obtain ⟨b, written⟩ := h.prefix_ pre hpre
  refine ⟨b, written.folds, fun v hv => card_granted_iff written hv, fun g hg status current => ?_,
    granted_le_one written, fun e he ends v hv => ungranted_of_ended written he ends hv⟩
  obtain ⟨req, mem, p, hp, same, -⟩ := (agrees_of_written written).last g hg
  obtain ⟨v, hv, own⟩ := card_of_proposal posts wall mem (written.formed req mem) hp
  exact ⟨v, hv, (card_granted_iff written hv).mpr ⟨g, hg, own ▸ same, status, current⟩, own ▸ same⟩

/-! ## A run -/

def noPosts : String → Option Posting := fun _ => none

def noWall : Event → Option String := fun _ => none

/-- The user's mandate of the sample call, granted. -/
def limitedRun : Kernel :=
  Kernel.after (hostOf limitDigests) sampleSession (callUnder featureLimits featureHash)

theorem limitedRun_reach :
    Lib.Reach (Kernel.step (hostOf limitDigests)) Lib.anyStep (Kernel.start sampleSession "run")
      limitedRun := Kernel.reach_after _ _

theorem limitedRun_cards :
    (mandateCards limitedRun.log noPosts noWall).map (·.status) = [.granted] := by
  decide +kernel

/-- The board has its mandate in force, and so it has its granted card. -/
theorem limits_card_agrees_sample :
    ∃ b v g, fold limitedRun.log = .ok b ∧ v ∈ mandateCards limitedRun.log noPosts noWall ∧
      v.status = .granted ∧ b.priv.mandate = some g ∧ SameLimits v.mandate g ∧
      g.status = .granted ∧ g.epoch = b.epoch ∧
      ∃ w ∈ mandateCards limitedRun.log noPosts noWall, w.status = .granted ∧
        SameLimits w.mandate g := by
  obtain ⟨b, folds, agree, shown, -⟩ := limits_card_agrees (written_reach limitedRun_reach)
    (List.prefix_refl limitedRun.log) noPosts noWall
  have granted : MandateCardStatus.granted ∈
      (mandateCards limitedRun.log noPosts noWall).map (·.status) := by
    rw [limitedRun_cards]
    simp
  obtain ⟨v, hv, status⟩ := List.mem_map.mp granted
  obtain ⟨g, hg, same, yes, current⟩ := (agree v hv).mp status
  exact ⟨b, v, g, folds, hv, status, hg, same, yes, current, shown g hg yes current⟩

end ProxyLoop.Web

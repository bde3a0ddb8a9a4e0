import ProxyLoop.Kernel.Cards

/-!
# The ids of approval cards

A card is numbered by the decided cards of its offer revision and epoch, so its id is that of no
decided card; it is the id of an earlier card exactly when that one was never decided.
-/

namespace ProxyLoop

open Lib (Dict)

/-! ## Numbered ids -/

theorem splitLast {x : Char} {a b d d' : List Char} (hd : x ∉ d) (hd' : x ∉ d')
    (h : a ++ x :: d = b ++ x :: d') : a = b ∧ d = d' := by
  induction a generalizing b with
  | nil =>
    cases b with
    | nil => simpa using h
    | cons y b =>
      simp only [List.nil_append, List.cons_append, List.cons.injEq] at h
      exact absurd (h.2 ▸ (by simp : x ∈ b ++ x :: d')) hd
  | cons y a ih =>
    cases b with
    | nil =>
      simp only [List.nil_append, List.cons_append, List.cons.injEq] at h
      exact absurd (h.2 ▸ (by simp : x ∈ a ++ x :: d)) hd'
    | cons z b =>
      simp only [List.cons_append, List.cons.injEq] at h
      obtain ⟨same, rest⟩ := ih h.2
      exact ⟨by rw [h.1, same], rest⟩

theorem dash_not_mem (n : Nat) : '-' ∉ (toString n).toList := by
  intro h
  have digit : ('-').isDigit = true :=
    Nat.isDigit_of_mem_toDigits (by decide) (Nat.le_refl 10) (by simpa using h)
  cases digit

/-- A stem that ends in a dash and its number are read off the id. -/
theorem numbered_inj {p q : String} {m n : Nat}
    (h : (p ++ "-") ++ toString m = (q ++ "-") ++ toString n) : p = q ∧ m = n := by
  have lists : p.toList ++ '-' :: (toString m).toList = q.toList ++ '-' :: (toString n).toList := by
    have := congrArg String.toList h
    simpa [String.toList_append] using this
  obtain ⟨same, digits⟩ := splitLast (dash_not_mem m) (dash_not_mem n) lists
  exact ⟨String.toList_inj.mp same, Nat.repr_inj.mp (String.toList_inj.mp digits)⟩

def decidedUnder (bb : Blackboard) (stem : String) : Nat :=
  bb.priv.approvals.keys.countP fun id => stem.toList.isPrefixOf id.toList

/-- What precedes the last dash of a card's id. -/
def cardStem (ref : String) (revision epoch : Nat) : String :=
  "apr-" ++ ref ++ "-r" ++ toString revision ++ "-e" ++ toString epoch

structure CardIds (bb : Blackboard) : Prop where
  /-- a decided card's number is below the count of its stem -/
  decided : ∀ {id}, id ∈ bb.priv.approvals.keys → ∃ stem n, id = (stem ++ "-") ++ toString n ∧
    n < decidedUnder bb (stem ++ "-")
  pending : ∀ {card}, bb.priv.pendingApproval = some card → ∃ stem,
    card.approvalId = (stem ++ "-") ++ toString (decidedUnder bb (stem ++ "-"))

section ids

variable {host : Host} {bb bb' : Blackboard} {e : Event} {stem : String}

/-- The next number of a stem is new. -/
theorem CardIds.fresh (ids : CardIds bb) :
    (stem ++ "-") ++ toString (decidedUnder bb (stem ++ "-")) ∉ bb.priv.approvals.keys := by
  intro mem
  obtain ⟨stem', n, same, lt⟩ := ids.decided mem
  obtain ⟨rfl, rfl⟩ := numbered_inj same
  omega

theorem approvalId_eq (bb : Blackboard) (o : OfferPublic) :
    approvalId bb o = (cardStem o.offerRef o.revision bb.epoch ++ "-") ++
      toString (decidedUnder bb (cardStem o.offerRef o.revision bb.epoch ++ "-")) := rfl

theorem CardIds.decides (ids : CardIds bb) {id : String} {a : Approval}
    (approvals : bb'.priv.approvals = bb.priv.approvals.set id a)
    (cleared : bb'.priv.pendingApproval = none)
    (next : id = (stem ++ "-") ++ toString (decidedUnder bb (stem ++ "-"))) : CardIds bb' := by
  have keys : bb'.priv.approvals.keys = bb.priv.approvals.keys ++ [id] := by
    rw [approvals]
    exact Dict.keys_set_new (next ▸ ids.fresh)
  have counted : ∀ p, decidedUnder bb' p = decidedUnder bb p +
      if p.toList.isPrefixOf id.toList then 1 else 0 := fun p => by
    rw [decidedUnder, keys, List.countP_append, List.countP_singleton]
    rfl
  constructor
  · intro x mem
    rw [keys] at mem
    rcases List.mem_append.mp mem with mem | mem
    · obtain ⟨stem', n, same, lt⟩ := ids.decided mem
      refine ⟨stem', n, same, ?_⟩
      rw [counted]
      omega
    · rw [List.mem_singleton.mp mem]
      refine ⟨stem, _, next, ?_⟩
      rw [counted, if_pos]
      · omega
      · rw [next]
        exact List.isPrefixOf_iff_prefix.mpr ⟨_, (String.toList_append ..).symm⟩
  · intro card pending
    rw [cleared] at pending
    cases pending

theorem CardIds.same (ids : CardIds bb) (approvals : bb'.priv.approvals = bb.priv.approvals)
    (pending : bb'.priv.pendingApproval = bb.priv.pendingApproval) : CardIds bb' := by
  constructor
  · intro id mem
    rw [approvals] at mem
    obtain ⟨stem, n, same, lt⟩ := ids.decided mem
    exact ⟨stem, n, same, by rw [decidedUnder, approvals]; exact lt⟩
  · intro card h
    obtain ⟨stem, same⟩ := ids.pending (pending ▸ h)
    exact ⟨stem, by rw [decidedUnder, approvals]; exact same⟩

theorem CardIds.step {log : List Event} (ids : CardIds bb) (h : apply bb e = .ok bb')
    (origin : Provenance host bb log e) : CardIds bb' := by
  obtain ⟨b, hc, rfl⟩ := change_of_apply h
  cases hc with
  | quiet hp same => exact ids.same same.approvals same.pendingApproval
  | requested card hp =>
    refine ⟨fun mem => ids.decided mem, fun pending => ?_⟩
    cases pending
    cases origin with
    | requested ref card' hp' was same ok =>
      rw [hp] at hp'
      cases hp'
      obtain ⟨o, t, -, rfl, -⟩ := requestApproval_eq_ok ok
      refine ⟨cardStem o.offerRef o.revision was.epoch, ?_⟩
      show approvalId was o = _
      rw [approvalId_eq, decidedUnder, decidedUnder]
      show _ ++ toString (was.priv.approvals.keys.countP _) =
        _ ++ toString (bb.priv.approvals.keys.countP _)
      rw [same.approvals]
    | quiet hq => rw [hp] at hq; cases hq
    | delivered hd => simp [isDelivery, hp] at hd
    | _ => simp_all
  | decided d card hp pending id =>
    obtain ⟨stem, next⟩ := ids.pending pending
    exact ids.decides rfl rfl (id ▸ next)
  | _ => exact ids.same rfl rfl

theorem cardIds_of_traced {log : List Event} (traced : Traced host log) (h : fold log = .ok bb) :
    CardIds bb :=
  traced.invariant h ⟨(fun mem => by simp [Dict.keys, Dict.empty] at mem), (fun h => by cases h)⟩
    fun _ _ _ _ _ _ _ ids applied origin => ids.step applied origin

end ids

end ProxyLoop

import Mathlib.Data.List.Forall2
import ProxyLoop.Lib.Matches

/-!
# What a pattern reads

`Reads` is what a pattern may read between two contexts, with an equation for each way to build a
pattern.
-/

namespace Lib

variable {α : Type}

/-- Groups matched before. -/
def Cursor.add (g : List (Nat × List α)) (c : Cursor α) : Cursor α :=
  { c with groups := c.groups ++ g }

theorem Cursor.repeats_add {f : Cursor α → List (Cursor α)} {g : List (Nat × List α)}
    (hf : ∀ c, f (c.add g) = (f c).map (Cursor.add g)) (n : Nat) (c : Cursor α) :
    Cursor.repeats f n (c.add g) = (Cursor.repeats f n c).map (Cursor.add g) := by
  induction n generalizing c with
  | zero => rfl
  | succ n ih =>
    have hfilter : (f (c.add g)).filter (·.after.length < (c.add g).after.length) =
        ((f c).filter (·.after.length < c.after.length)).map (Cursor.add g) := by
      rw [hf, List.filter_map]
      rfl
    rw [repeats, hfilter, List.flatMap_map, repeats, List.map_append, List.map_flatMap]
    simp only [ih, List.map_cons, List.map_nil]

namespace Regex

/-- The groups matched before are kept, and change nothing else. -/
theorem ends_add (r : Regex α) (g : List (Nat × List α)) (c : Cursor α) :
    r.ends (c.add g) = (r.ends c).map (Cursor.add g) := by
  induction r generalizing c with
  | set p =>
    rcases c with ⟨b, - | ⟨x, a⟩, gs⟩
    · rfl
    · simp only [ends, Cursor.add]
      split <;> rfl
  | look p =>
    show (if p c.before c.after then [c.add g] else []) = _
    rw [ends]
    split <;> rfl
  | eps => rfl
  | seq r t hr ht => simp only [ends, hr, List.flatMap_map, ht, List.map_flatMap]
  | alt r t hr ht => simp only [ends, hr, ht, List.map_append]
  | star r hr => exact Cursor.repeats_add hr _ c
  | group i r hr =>
    simp only [ends, hr, List.map_map]
    rfl

theorem ends_groups (r : Regex α) (b a : List α) (g : List (Nat × List α)) :
    r.ends ⟨b, a, g⟩ = (r.ends ⟨b, a, []⟩).map (Cursor.add g) :=
  ends_add r g ⟨b, a, []⟩

/-! ## Readings -/

/-- A pattern may read `m` where `b` is before it, nearest first, and `a` after it. -/
def Reads (r : Regex α) (b m a : List α) : Prop := ∃ c ∈ r.ends ⟨b, m ++ a, []⟩, c.after = a

section

variable {r t : Regex α} {b m a : List α}

theorem Reads.cursor (h : r.Reads b m a) :
    ∃ g, ⟨m.reverse ++ b, a, g⟩ ∈ r.ends ⟨b, m ++ a, []⟩ := by
  obtain ⟨c, hc, rfl⟩ := h
  obtain ⟨m', ha, hb⟩ := between_of_ends r hc
  have hm : m = m' := List.append_cancel_right ha
  refine ⟨c.groups, ?_⟩
  rw [hm, ← show c.before = m'.reverse ++ b from hb, ← hm]
  exact hc

theorem reads_of_ends {c : Cursor α} {a' : List α} (h : c ∈ r.ends ⟨b, a', []⟩) :
    ∃ m, a' = m ++ c.after ∧ c.before = m.reverse ++ b ∧ r.Reads b m c.after := by
  obtain ⟨m, ha, hb⟩ := between_of_ends r h
  refine ⟨m, ha, hb, c, ?_, rfl⟩
  rw [← show a' = m ++ c.after from ha]
  exact h

theorem ends_eq_nil_iff {a' : List α} :
    r.ends ⟨b, a', []⟩ = [] ↔ ∀ m a, a' = m ++ a → ¬ r.Reads b m a := by
  constructor
  · rintro h m a rfl ⟨c, hc, -⟩
    rw [h] at hc
    cases hc
  · intro h
    by_contra hne
    obtain ⟨c, hc⟩ := List.exists_mem_of_ne_nil _ hne
    obtain ⟨m, ha, -, hr⟩ := reads_of_ends hc
    exact h m c.after ha hr

theorem reads_set {p : α → Bool} : (set p).Reads b m a ↔ ∃ x, m = [x] ∧ p x = true := by
  constructor
  · rintro ⟨c, hc, ha⟩
    rcases hma : m ++ a with - | ⟨x, rest⟩
    · rw [hma] at hc
      cases hc
    · rw [hma] at hc
      simp only [ends] at hc
      split at hc
      · rename_i hp
        obtain rfl := List.mem_singleton.mp hc
        obtain rfl : rest = a := ha
        exact ⟨x, List.append_cancel_right (hma.trans (List.singleton_append).symm), hp⟩
      · cases hc
  · rintro ⟨x, rfl, hp⟩
    exact ⟨⟨x :: b, a, []⟩, by simp [ends, hp], rfl⟩

theorem reads_look {p : List α → List α → Bool} :
    (look p).Reads b m a ↔ m = [] ∧ p b a = true := by
  constructor
  · rintro ⟨c, hc, ha⟩
    simp only [ends] at hc
    split at hc
    · rename_i hp
      obtain rfl := List.mem_singleton.mp hc
      obtain rfl : m = [] := List.append_left_eq_self.mp ha
      exact ⟨rfl, hp⟩
    · cases hc
  · rintro ⟨rfl, hp⟩
    exact ⟨⟨b, a, []⟩, by simp [ends, hp], rfl⟩

theorem reads_eps : (eps : Regex α).Reads b m a ↔ m = [] := by
  constructor
  · rintro ⟨c, hc, ha⟩
    obtain rfl := List.mem_singleton.mp hc
    exact List.append_left_eq_self.mp ha
  · rintro rfl
    exact ⟨_, List.mem_singleton.mpr rfl, rfl⟩

theorem reads_seq :
    (seq r t).Reads b m a ↔
      ∃ m₁ m₂, m = m₁ ++ m₂ ∧ r.Reads b m₁ (m₂ ++ a) ∧ t.Reads (m₁.reverse ++ b) m₂ a := by
  constructor
  · rintro ⟨c, hc, rfl⟩
    obtain ⟨c₁, h₁, hc⟩ := List.mem_flatMap.mp hc
    obtain ⟨m₁, hm₁, hb₁, hr⟩ := reads_of_ends h₁
    rcases c₁ with ⟨b₁, a₁, g₁⟩
    rw [ends_groups] at hc
    obtain ⟨c', hc', rfl⟩ := List.mem_map.mp hc
    obtain ⟨m₂, hm₂, -, ht⟩ := reads_of_ends hc'
    cases hb₁
    cases hm₂
    refine ⟨m₁, m₂, List.append_cancel_right (hm₁.trans (List.append_assoc ..).symm), hr, ht⟩
  · rintro ⟨m₁, m₂, rfl, hr, ht⟩
    obtain ⟨g, h₁⟩ := hr.cursor
    obtain ⟨g', h₂⟩ := ht.cursor
    refine ⟨Cursor.add g ⟨m₂.reverse ++ (m₁.reverse ++ b), a, g'⟩,
      List.mem_flatMap.mpr ⟨_, List.append_assoc m₁ m₂ a ▸ h₁, ?_⟩, rfl⟩
    rw [ends_groups]
    exact List.mem_map.mpr ⟨_, h₂, rfl⟩

theorem reads_alt : (alt r t).Reads b m a ↔ r.Reads b m a ∨ t.Reads b m a := by
  simp only [Reads, ends, List.mem_append, or_and_right, exists_or]

theorem mem_repeats_set {p : α → Bool} {n : Nat} {c : Cursor α} {a' : List α}
    {g : List (Nat × List α)} (hn : a'.length ≤ n) :
    c ∈ Cursor.repeats (set p).ends n ⟨b, a', g⟩ ↔
      ∃ m, (∀ x ∈ m, p x = true) ∧ a' = m ++ c.after ∧ c.before = m.reverse ++ b ∧
        c.groups = g := by
  induction n generalizing b a' with
  | zero =>
    obtain rfl := List.eq_nil_of_length_eq_zero (Nat.le_zero.mp hn)
    rcases c with ⟨b', a', g'⟩
    simp only [Cursor.repeats, List.mem_singleton, Cursor.mk.injEq]
    constructor
    · rintro ⟨rfl, rfl, rfl⟩
      exact ⟨[], fun _ bad => absurd bad List.not_mem_nil, rfl, rfl, rfl⟩
    · rintro ⟨m, -, hm, hb, rfl⟩
      obtain ⟨rfl, rfl⟩ := List.append_eq_nil_iff.mp hm.symm
      exact ⟨hb, rfl, rfl⟩
  | succ n ih =>
    rw [Cursor.repeats, List.mem_append, List.mem_singleton]
    rcases a' with - | ⟨x, a'⟩
    · simp only [ends, List.filter_nil, List.flatMap_nil, List.not_mem_nil, false_or]
      constructor
      · rintro rfl
        exact ⟨[], fun _ bad => absurd bad List.not_mem_nil, rfl, rfl, rfl⟩
      · rintro ⟨m, -, hm, hb, hg⟩
        obtain ⟨rfl, ha⟩ := List.append_eq_nil_iff.mp hm.symm
        rcases c with ⟨b', a', g'⟩
        cases hb
        cases ha
        cases hg
        rfl
    · have hlen : a'.length ≤ n := Nat.le_of_succ_le_succ hn
      rw [set_ends_cons]
      by_cases hp : p x = true
      · rw [if_pos hp, List.filter_cons_of_pos (by simp), List.filter_nil, List.flatMap_cons,
          List.flatMap_nil, List.append_nil, ih hlen]
        constructor
        · rintro (⟨m, hm, ha, hb, hg⟩ | rfl)
          · refine ⟨x :: m, ?_, by rw [ha, List.cons_append], by simp [hb], hg⟩
            exact fun y hy => (List.mem_cons.mp hy).elim (fun he => he ▸ hp) (hm y)
          · exact ⟨[], fun _ bad => absurd bad List.not_mem_nil, rfl, rfl, rfl⟩
        · rintro ⟨- | ⟨y, m⟩, hm, ha, hb, hg⟩
          · refine .inr ?_
            rcases c with ⟨b', a', g'⟩
            cases hb
            cases ha
            cases hg
            rfl
          · injection ha with hx ha
            subst hx
            exact .inl ⟨m, fun z hz => hm z (List.mem_cons_of_mem _ hz), ha, by simpa using hb, hg⟩
      · rw [if_neg hp, List.filter_nil, List.flatMap_nil]
        simp only [List.not_mem_nil, false_or]
        constructor
        · rintro rfl
          exact ⟨[], fun _ bad => absurd bad List.not_mem_nil, rfl, rfl, rfl⟩
        · rintro ⟨- | ⟨y, m⟩, hm, ha, hb, hg⟩
          · rcases c with ⟨b', a', g'⟩
            cases hb
            cases ha
            cases hg
            rfl
          · injection ha with hx ha
            subst hx
            exact absurd (hm x List.mem_cons_self) hp

theorem reads_star_set {p : α → Bool} :
    (star (set p)).Reads b m a ↔ ∀ x ∈ m, p x = true := by
  constructor
  · rintro ⟨c, hc, rfl⟩
    obtain ⟨m', hm, ha, -, -⟩ := (mem_repeats_set (Nat.le_refl _)).mp hc
    exact List.append_cancel_right ha ▸ hm
  · intro h
    refine ⟨⟨m.reverse ++ b, a, []⟩, ?_, rfl⟩
    exact (mem_repeats_set (Nat.le_refl _)).mpr ⟨m, h, rfl, rfl, rfl⟩

theorem reads_word {eq : α → α → Bool} {text : List α} :
    (word eq text).Reads b m a ↔ List.Forall₂ (fun x y => eq x y = true) text m := by
  induction text generalizing b m with
  | nil =>
    show (eps : Regex α).Reads b m a ↔ _
    rw [reads_eps, List.forall₂_nil_left_iff]
  | cons x text ih =>
    show (seq (set (eq x)) (word eq text)).Reads b m a ↔ _
    rw [reads_seq]
    constructor
    · rintro ⟨m₁, m₂, rfl, h₁, h₂⟩
      obtain ⟨y, rfl, hy⟩ := reads_set.mp h₁
      exact .cons hy (ih.mp h₂)
    · rintro (_ | ⟨hy, h₂⟩)
      rename_i y m₂
      exact ⟨[y], m₂, rfl, reads_set.mpr ⟨y, rfl, hy⟩, ih.mpr h₂⟩

theorem reads_plus_set {p : α → Bool} :
    (plus (set p)).Reads b m a ↔ m ≠ [] ∧ ∀ x ∈ m, p x = true := by
  rw [plus, reads_seq]
  constructor
  · rintro ⟨m₁, m₂, rfl, h₁, h₂⟩
    obtain ⟨x, rfl, hx⟩ := reads_set.mp h₁
    refine ⟨List.cons_ne_nil _ _, fun y hy => ?_⟩
    exact (List.mem_cons.mp hy).elim (fun he => he ▸ hx) (reads_star_set.mp h₂ y)
  · rintro ⟨hne, hm⟩
    rcases m with - | ⟨x, m⟩
    · exact absurd rfl hne
    · exact ⟨[x], m, rfl, reads_set.mpr ⟨x, rfl, hm x List.mem_cons_self⟩,
        reads_star_set.mpr fun y hy => hm y (List.mem_cons_of_mem _ hy)⟩

end

/-! ## The match that is taken -/

/-- A greedy repetition takes all it can. -/
theorem repeats_set_head? {p : α → Bool} (n : Nat) {b a : List α} {g : List (Nat × List α)}
    (hn : a.length ≤ n) :
    (Cursor.repeats (set p).ends n ⟨b, a, g⟩).head? =
      some ⟨(a.takeWhile p).reverse ++ b, a.dropWhile p, g⟩ := by
  induction n generalizing b a with
  | zero =>
    obtain rfl := List.eq_nil_of_length_eq_zero (Nat.le_zero.mp hn)
    rfl
  | succ n ih =>
    rw [Cursor.repeats]
    rcases a with - | ⟨x, a⟩
    · rfl
    · rw [set_ends_cons]
      by_cases hp : p x = true
      · have hlen : a.length ≤ n := Nat.le_of_succ_le_succ hn
        rw [if_pos hp, List.filter_cons_of_pos (by simp), List.filter_nil, List.flatMap_cons,
          List.flatMap_nil, List.append_nil, List.head?_append, ih hlen]
        simp [hp]
      · simp [hp]

theorem plus_set_head? {p : α → Bool} {b a : List α} {x : α} {g : List (Nat × List α)}
    (hx : p x = true) :
    ((plus (set p)).ends ⟨b, x :: a, g⟩).head? =
      some ⟨((x :: a).takeWhile p).reverse ++ b, (x :: a).dropWhile p, g⟩ := by
  have hset : (set p).ends ⟨b, x :: a, g⟩ = [⟨x :: b, a, g⟩] := by simp [ends, hx]
  rw [plus, ends, hset, List.flatMap_cons, List.flatMap_nil, List.append_nil, ends,
    repeats_set_head? _ (Nat.le_refl _)]
  simp [hx]

end Regex

end Lib

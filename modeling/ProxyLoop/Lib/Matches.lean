import Mathlib.Data.List.Basic
import ProxyLoop.Lib.Regex

/-!
# Where matches stand

A match only moves forward, and the matches of a search follow one another.
-/

namespace Lib

variable {α : Type}

namespace Regex

/-! ## Places -/

def Between (c c' : Cursor α) : Prop :=
  ∃ m, c.after = m ++ c'.after ∧ c'.before = m.reverse ++ c.before

theorem Between.refl (c : Cursor α) : Between c c := ⟨[], rfl, rfl⟩

theorem Between.trans {c c' c'' : Cursor α} (h : Between c c') (h' : Between c' c'') :
    Between c c'' := by
  obtain ⟨m, ha, hb⟩ := h
  obtain ⟨m', ha', hb'⟩ := h'
  exact ⟨m ++ m', by rw [ha, ha', List.append_assoc],
    by rw [hb', hb, List.reverse_append, List.append_assoc]⟩

theorem Between.le {c c' : Cursor α} (h : Between c c') : c.before.length ≤ c'.before.length := by
  obtain ⟨m, -, hb⟩ := h
  rw [hb, List.length_append]
  omega

theorem between_repeats {f : Cursor α → List (Cursor α)} (hf : ∀ c, ∀ c' ∈ f c, Between c c')
    (n : Nat) {c c' : Cursor α} (h : c' ∈ Cursor.repeats f n c) : Between c c' := by
  induction n generalizing c with
  | zero => exact List.mem_singleton.mp h ▸ .refl c
  | succ n ih =>
    rcases List.mem_append.mp h with h | h
    · obtain ⟨c₁, h₁, h⟩ := List.mem_flatMap.mp h
      exact (hf c c₁ (List.mem_of_mem_filter h₁)).trans (ih h)
    · exact List.mem_singleton.mp h ▸ .refl c

theorem mem_set_ends {p : α → Bool} {c c' : Cursor α} (h : c' ∈ (set p).ends c) :
    ∃ x, p x = true ∧ c.after = x :: c'.after ∧ c'.before = x :: c.before := by
  rcases c with ⟨b, - | ⟨x, a⟩, g⟩
  · cases h
  · rw [set_ends_cons] at h
    obtain ⟨hp, h⟩ := List.mem_ite_nil_right.mp h
    rw [List.mem_singleton.mp h]
    exact ⟨x, hp, rfl, rfl⟩

theorem mem_look_ends {p : List α → List α → Bool} {c c' : Cursor α} (h : c' ∈ (look p).ends c) :
    p c.before c.after = true ∧ c' = c := by
  rw [ends_look] at h
  obtain ⟨hp, h⟩ := List.mem_ite_nil_right.mp h
  exact ⟨hp, List.mem_singleton.mp h⟩

theorem between_of_ends (r : Regex α) {c c' : Cursor α} (h : c' ∈ r.ends c) : Between c c' := by
  induction r generalizing c c' with
  | set p =>
    obtain ⟨x, -, ha, hb⟩ := mem_set_ends h
    exact ⟨[x], ha, hb⟩
  | look p => exact (mem_look_ends h).2 ▸ .refl c
  | eps => exact List.mem_singleton.mp h ▸ .refl c
  | seq r t hr ht =>
    obtain ⟨c₁, h₁, h⟩ := List.mem_flatMap.mp h
    exact (hr h₁).trans (ht h)
  | alt r t hr ht =>
    rcases List.mem_append.mp h with h | h
    · exact hr h
    · exact ht h
  | star r hr => exact between_repeats (fun _ _ => hr) _ h
  | group i r hr =>
    obtain ⟨c₁, h₁, rfl⟩ := List.mem_map.mp h
    obtain ⟨m, ha, hb⟩ := hr h₁
    exact ⟨m, ha, hb⟩

/-- Every match reads something. -/
def Consumes (r : Regex α) : Prop :=
  ∀ c, ∀ c' ∈ r.ends c, c.before.length < c'.before.length

section consumes

variable {r t : Regex α}

theorem consumes_set (p : α → Bool) : (set p).Consumes := by
  intro c c' h
  obtain ⟨x, -, -, hb⟩ := mem_set_ends h
  rw [hb]
  exact Nat.lt_succ_self _

theorem Consumes.left (h : r.Consumes) (t : Regex α) : (seq r t).Consumes := by
  intro c c' hc
  obtain ⟨c₁, h₁, h₂⟩ := List.mem_flatMap.mp hc
  exact Nat.lt_of_lt_of_le (h c c₁ h₁) (between_of_ends t h₂).le

theorem Consumes.right (h : t.Consumes) (r : Regex α) : (seq r t).Consumes := by
  intro c c' hc
  obtain ⟨c₁, h₁, h₂⟩ := List.mem_flatMap.mp hc
  exact Nat.lt_of_le_of_lt (between_of_ends r h₁).le (h c₁ c' h₂)

theorem Consumes.plus (h : r.Consumes) : (plus r).Consumes := h.left _

theorem consumes_any {rs : List (Regex α)} (h : ∀ r ∈ rs, r.Consumes) : (any rs).Consumes := by
  induction rs with
  | nil =>
    intro c c' hc
    exact absurd (mem_look_ends hc).1 (by decide)
  | cons r rs ih =>
    intro c c' hc
    rcases List.mem_append.mp hc with hc | hc
    · exact h r List.mem_cons_self c c' hc
    · exact ih (fun t ht => h t (List.mem_cons_of_mem _ ht)) c c' hc

end consumes

/-- The matches of a search follow one another. -/
theorem scan_ordered (r : Regex α) (n : Nat) : ∀ (advance : Bool) (c : Cursor α),
    (r.scan n advance c).Pairwise (fun m m' => m.stop ≤ m'.start) ∧
      ∀ m ∈ r.scan n advance c, c.before.length ≤ m.start ∧ m.start ≤ m.stop ∧
        (r.Consumes → m.start < m.stop) := by
  induction n with
  | zero => exact fun _ _ => ⟨.nil, fun m hm => by cases hm⟩
  | succ n ih =>
    intro advance c
    cases hh : r.here advance c with
    | some found =>
      obtain ⟨m, c'⟩ := found
      obtain ⟨e, he, eq⟩ := Option.map_eq_some_iff.mp hh
      have step : r.scan (n + 1) advance c = m :: r.scan n (m.start = m.stop) c' := by
        simp only [scan, hh]
      have mem : e ∈ r.ends c := List.mem_of_find?_eq_some he
      have le := (between_of_ends r mem).le
      cases eq
      obtain ⟨sorted, later⟩ := ih (c.before.length = e.before.length) { e with groups := [] }
      rw [step]
      refine ⟨List.pairwise_cons.mpr ⟨fun m' hm' => (later m' hm').1, sorted⟩, fun m' hm' => ?_⟩
      rcases List.mem_cons.mp hm' with rfl | hm'
      · exact ⟨Nat.le_refl _, le, fun hr => hr c e mem⟩
      · obtain ⟨start, rest⟩ := later m' hm'
        exact ⟨Nat.le_trans le start, rest⟩
    | none =>
      cases ha : c.after with
      | nil =>
        have step : r.scan (n + 1) advance c = [] := by
          simp only [scan, hh, ha]
        rw [step]
        exact ⟨.nil, fun m hm => by cases hm⟩
      | cons x rest =>
        have step : r.scan (n + 1) advance c = r.scan n false ⟨x :: c.before, rest, []⟩ := by
          simp only [scan, hh, ha]
        obtain ⟨sorted, later⟩ := ih false ⟨x :: c.before, rest, []⟩
        rw [step]
        refine ⟨sorted, fun m hm => ?_⟩
        obtain ⟨start, rest⟩ := later m hm
        exact ⟨Nat.le_of_succ_le start, rest⟩

end Regex

end Lib

import ProxyLoop.Lib.Reads

/-!
# What the groups of a pattern read

`Takes` is `Reads` with the groups a pattern leaves behind, with an equation for each way to build
a pattern; `full?` is a match of a whole text with its groups.
-/

namespace Lib.Regex

variable {α : Type}

/-- A pattern may read `m` where `b` is before it, nearest first, and `a` after it, and leave the
groups `g`. -/
def Takes (r : Regex α) (b m a : List α) (g : List (Nat × List α)) : Prop :=
  ⟨m.reverse ++ b, a, g⟩ ∈ r.ends ⟨b, m ++ a, []⟩

def Groupless : Regex α → Prop
  | set _ => True
  | look _ => True
  | eps => True
  | seq r t => r.Groupless ∧ t.Groupless
  | alt r t => r.Groupless ∧ t.Groupless
  | star r => r.Groupless
  | group _ _ => False

section

variable {r t : Regex α} {b m a : List α} {g : List (Nat × List α)}

theorem takes_of_ends {c : Cursor α} {a' : List α} (h : c ∈ r.ends ⟨b, a', []⟩) :
    ∃ m, a' = m ++ c.after ∧ c.before = m.reverse ++ b ∧ r.Takes b m c.after c.groups := by
  obtain ⟨m, ha, hb⟩ := between_of_ends r h
  refine ⟨m, ha, hb, ?_⟩
  rw [Takes, ← show a' = m ++ c.after from ha, ← show c.before = m.reverse ++ b from hb]
  exact h

theorem Takes.reads (h : r.Takes b m a g) : r.Reads b m a := ⟨_, h, rfl⟩

theorem takes_seq :
    (seq r t).Takes b m a g ↔ ∃ m₁ m₂ g₁ g₂, m = m₁ ++ m₂ ∧ g = g₂ ++ g₁ ∧
      r.Takes b m₁ (m₂ ++ a) g₁ ∧ t.Takes (m₁.reverse ++ b) m₂ a g₂ := by
  constructor
  · intro h
    obtain ⟨c, hc, h⟩ := List.mem_flatMap.mp h
    obtain ⟨m₁, hm₁, hb₁, hr⟩ := takes_of_ends hc
    rcases c with ⟨b₁, a₁, g₁⟩
    rw [ends_groups] at h
    obtain ⟨⟨b₂, a₂, g₂⟩, hc', same⟩ := List.mem_map.mp h
    obtain ⟨m₂, hm₂, -, ht⟩ := takes_of_ends hc'
    obtain ⟨-, rfl, rfl⟩ := Cursor.mk.inj same
    cases hb₁
    cases hm₂
    exact ⟨m₁, m₂, g₁, g₂, List.append_cancel_right (hm₁.trans (List.append_assoc ..).symm),
      rfl, hr, ht⟩
  · rintro ⟨m₁, m₂, g₁, g₂, rfl, rfl, hr, ht⟩
    rw [Takes, List.append_assoc]
    refine List.mem_flatMap.mpr ⟨_, hr, ?_⟩
    rw [ends_groups]
    refine List.mem_map.mpr ⟨_, ht, ?_⟩
    rw [Cursor.add, List.reverse_append, List.append_assoc]

theorem takes_group {i : Nat} :
    (group i r).Takes b m a g ↔ ∃ g', g = (i, m) :: g' ∧ r.Takes b m a g' := by
  have read : ∀ g', Cursor.read ⟨b, m ++ a, []⟩ ⟨m.reverse ++ b, a, g'⟩ = m := fun g' => by
    simp [Cursor.read]
  constructor
  · intro h
    obtain ⟨⟨b', a', g'⟩, hc, same⟩ := List.mem_map.mp h
    obtain ⟨rfl, rfl, rfl⟩ := Cursor.mk.inj same
    exact ⟨g', by rw [read], hc⟩
  · rintro ⟨g', rfl, h⟩
    exact List.mem_map.mpr ⟨_, h, by rw [read]⟩

theorem Groupless.repeats {f : Cursor α → List (Cursor α)}
    (hf : ∀ c, ∀ c' ∈ f c, c'.groups = c.groups) (n : Nat) (c : Cursor α) :
    ∀ c' ∈ Cursor.repeats f n c, c'.groups = c.groups := by
  induction n generalizing c with
  | zero =>
    intro c' h
    rw [List.mem_singleton.mp h]
  | succ n ih =>
    intro c' h
    rcases List.mem_append.mp h with h | h
    · obtain ⟨c₁, h₁, h⟩ := List.mem_flatMap.mp h
      exact (ih c₁ c' h).trans (hf c c₁ (List.mem_of_mem_filter h₁))
    · rw [List.mem_singleton.mp h]

theorem Groupless.ends (h : r.Groupless) (c : Cursor α) :
    ∀ c' ∈ r.ends c, c'.groups = c.groups := by
  induction r generalizing c with
  | set p =>
    intro c' h
    rcases c with ⟨b, - | ⟨x, a⟩, gs⟩
    · cases h
    · rw [set_ends_cons] at h
      split at h
      · rw [List.mem_singleton.mp h]
      · cases h
  | look p =>
    intro c' h
    rw [ends_look] at h
    split at h
    · rw [List.mem_singleton.mp h]
    · cases h
  | eps =>
    intro c' h
    rw [List.mem_singleton.mp h]
  | seq r t hr ht =>
    intro c' hc
    obtain ⟨c₁, h₁, hc⟩ := List.mem_flatMap.mp hc
    exact (ht h.2 c₁ c' hc).trans (hr h.1 c c₁ h₁)
  | alt r t hr ht =>
    intro c' hc
    exact (List.mem_append.mp hc).elim (hr h.1 c c') (ht h.2 c c')
  | star r hr => exact Groupless.repeats (hr h) _ c
  | group i r hr => exact h.elim

theorem takes_groupless (h : r.Groupless) : r.Takes b m a g ↔ g = [] ∧ r.Reads b m a := by
  constructor
  · intro took
    exact ⟨h.ends _ _ took, took.reads⟩
  · rintro ⟨rfl, read⟩
    obtain ⟨g, took⟩ := read.cursor
    obtain rfl : g = [] := h.ends _ _ took
    exact took

end

/-! ## A whole text -/

/-- `re.fullmatch`, with the groups, last first. -/
def full? (r : Regex α) (text : List α) : Option (List (Nat × List α)) :=
  ((r.ends ⟨[], text, []⟩).find? (·.after.isEmpty)).map Cursor.groups

section

variable {r : Regex α} {text : List α} {g : List (Nat × List α)}

theorem takes_of_full? (h : r.full? text = some g) : r.Takes [] text [] g := by
  obtain ⟨c, hc, rfl⟩ := Option.map_eq_some_iff.mp h
  obtain ⟨m, ha, -, took⟩ := takes_of_ends (List.mem_of_find?_eq_some hc)
  have whole : c.after = [] := by simpa using List.find?_some hc
  rw [whole, List.append_nil] at ha
  rw [whole] at took
  rwa [ha]

/-- Where a text is read in one way only, that is the match. -/
theorem full?_eq_some (took : r.Takes [] text [] g)
    (only : ∀ g', r.Takes [] text [] g' → g' = g) : r.full? text = some g := by
  cases found : r.full? text with
  | some g' => rw [only g' (takes_of_full? found)]
  | none =>
    rw [full?, Option.map_eq_none_iff, List.find?_eq_none] at found
    rw [Takes, List.append_nil] at took
    exact absurd rfl (found _ took)

end

end Lib.Regex

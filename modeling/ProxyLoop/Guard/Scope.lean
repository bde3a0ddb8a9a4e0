import ProxyLoop.Guard.Negation
import ProxyLoop.Lib.Matches

/-!
# What a denial takes

A sentence that denies a role has nothing open in it: each role word is in a list that an opener
heads, nothing before the first opener hedges, and nothing after it qualifies.
-/

namespace ProxyLoop.Negation

open Lib (Regex)

/-! ## Word classes -/

/-- What a list may hold: modifiers, joiners other than "and", and the "at" of "at all". -/
def ListWord (w : String) : Prop :=
  modifier w = true ∨ joiners.contains w = true ∧ w ≠ "and" ∨ w = "at"

theorem plain_unqualified {w : String} (h : plain w = true) : qualifiers.contains w = false := by
  simp only [plain, Bool.and_eq_true, Bool.not_eq_true', Bool.or_eq_false_iff] at h
  exact h.1.1.1.1.1

theorem plain_of_modifier {w : String} (h : modifier w = true) : plain w = true := by
  simp only [modifier, Bool.and_eq_true] at h
  exact h.1.1

/-- A word of a class that has no qualifier. -/
theorem class_unqualified {words : List String} {w : String}
    (clean : ∀ v ∈ words, qualifiers.contains v = false) (h : words.contains w = true) :
    qualifiers.contains w = false :=
  clean w (List.contains_iff_mem.mp h)

theorem class_modifier {words : List String} {w : String}
    (clean : ∀ v ∈ words, modifier v = true) (h : words.contains w = true) : modifier w = true :=
  clean w (List.contains_iff_mem.mp h)

theorem ListWord.unqualified {w : String} (h : ListWord w) : qualifiers.contains w = false := by
  rcases h with h | ⟨h, -⟩ | rfl
  · exact plain_unqualified (plain_of_modifier h)
  · exact class_unqualified (by decide) h
  · decide

/-! ## Walks over tokens -/

section walk

variable {toks : List Tok} {role : Role}

/-- No qualifier from `a` up to `b`. -/
def Clean (toks : List Tok) (a b : Nat) : Prop :=
  ∀ m, a ≤ m → m < b → qualifiers.contains (textAt toks m) = false

theorem Clean.trans {a b c : Nat} (h : Clean toks a b) (h' : Clean toks b c) : Clean toks a c :=
  fun m am mc => if mb : m < b then h m am mb else h' m (Nat.le_of_not_lt mb) mc

theorem Clean.one {a : Nat} (h : qualifiers.contains (textAt toks a) = false) :
    Clean toks a (a + 1) := fun m am ma => by
  obtain rfl : m = a := by omega
  exact h

/-- Only words of a list from `a` up to `b`. -/
def Listy (toks : List Tok) (a b : Nat) : Prop := ∀ m, a ≤ m → m < b → ListWord (textAt toks m)

theorem Listy.trans {a b c : Nat} (h : Listy toks a b) (h' : Listy toks b c) : Listy toks a c :=
  fun m am mc => if mb : m < b then h m am mb else h' m (Nat.le_of_not_lt mb) mc

theorem Listy.clean {a b : Nat} (h : Listy toks a b) : Clean toks a b :=
  fun m am mb => (h m am mb).unqualified

theorem textAt_lt {k : Nat} (h : textAt toks k ≠ "") : k < toks.length := by
  by_contra past
  exact h (by rw [textAt, List.getElem?_eq_none (Nat.le_of_not_lt past)]; rfl)

theorem takeWhile_getElem? {α : Type} {p : α → Bool} {l : List α} {m : Nat}
    (h : m < (l.takeWhile p).length) : ∃ x, l[m]? = some x ∧ p x = true := by
  induction l generalizing m with
  | nil => cases h
  | cons x l ih =>
    by_cases hp : p x = true
    · rw [List.takeWhile_cons_of_pos hp] at h
      cases m with
      | zero => exact ⟨x, rfl, hp⟩
      | succ m => exact ih (Nat.lt_of_succ_lt_succ h)
    · rw [List.takeWhile_cons_of_neg hp] at h
      cases h

theorem skipWhile_spec (toks : List Tok) (p : String → Bool) (k : Nat) : k ≤ skipWhile toks p k ∧
    ∀ m, k ≤ m → m < skipWhile toks p k → p (textAt toks m) = true ∧ m < toks.length := by
  refine ⟨Nat.le_add_right _ _, fun m km mk => ?_⟩
  unfold skipWhile at mk
  obtain ⟨t, ht, hp⟩ := takeWhile_getElem? (m := m - k) (l := toks.drop k)
    (p := fun t => p t.text) (by omega)
  rw [List.getElem?_drop, Nat.add_sub_cancel' km] at ht
  exact ⟨by rw [textAt, ht]; exact hp, (List.getElem?_eq_some_iff.mp ht).1⟩

theorem takeWhile_range' (p : Nat → Bool) (n : Nat) : ∀ k, ∃ m ≤ n,
    (List.range' k n).takeWhile p = List.range' k m ∧ ∀ j, k ≤ j → j < k + m → p j = true := by
  induction n with
  | zero => exact fun k => ⟨0, Nat.le_refl 0, rfl, fun j _ _ => by omega⟩
  | succ n ih =>
    intro k
    rw [List.range'_succ]
    by_cases hp : p k = true
    · obtain ⟨m, mn, eq, all⟩ := ih (k + 1)
      refine ⟨m + 1, Nat.succ_le_succ mn, by rw [List.takeWhile_cons_of_pos hp, eq]; rfl, ?_⟩
      intro j kj jm
      by_cases first : j = k
      · exact first ▸ hp
      · exact all j (by omega) (by omega)
    · exact ⟨0, Nat.zero_le _, by rw [List.takeWhile_cons_of_neg hp]; rfl, fun j _ _ => by omega⟩

theorem item_spec (toks : List Tok) (k : Nat) : ∃ m ≤ maxModifiers + 1,
    item toks k = List.range' k m ∧
    ∀ j, k ≤ j → j < k + m → j < toks.length ∧ modifier (textAt toks j) = true := by
  obtain ⟨m, mn, eq, all⟩ := takeWhile_range'
    (fun j => j < toks.length && modifier (textAt toks j)) (maxModifiers + 1) k
  refine ⟨m, mn, eq, fun j kj jm => ?_⟩
  simpa using all j kj jm

theorem head_mem {mine : List Nat} {h : Nat} (hh : head toks mine role = some h) :
    h ∈ mine ∧ (roleWords role).contains (textAt toks h) = true := by
  rw [← List.mem_reverse]
  unfold head at hh
  cases eq : mine.reverse with
  | nil =>
    rw [eq] at hh
    cases hh
  | cons last before =>
    simp only [eq] at hh
    by_cases word : (roleWords role).contains (textAt toks last) = true
    · rw [if_pos word] at hh
      cases hh
      exact ⟨List.mem_cons_self .., word⟩
    · rw [if_neg word] at hh
      cases before with
      | nil => cases hh
      | cons k before =>
        obtain ⟨cond, same⟩ := Option.ite_none_right_eq_some.mp hh
        cases same
        simp only [Bool.and_eq_true] at cond
        exact ⟨by simp, cond.1.2⟩

/-- A role word that a list from `k` on names. -/
def Names (toks : List Tok) (role : Role) (k : Nat) (p : Nat × Nat) : Prop :=
  p.1 = p.2 ∧ k ≤ p.1 ∧ Listy toks k (p.1 + 1) ∧
    (roleWords role).contains (textAt toks p.1) = true

def badItem (toks : List Tok) (role : Role) (first : Bool) (mine : List Nat) : Bool :=
  mine.isEmpty || role = .changes && (head toks mine role).isSome &&
    (mine.dropLast.any fun m => kinds.contains (textAt toks m)) ||
  !(first || [Role.fees, .changes, .expires].any fun r => (head toks mine r).isSome)

/-- Past an "at all" at `k`. -/
def pastAll (toks : List Tok) (k : Nat) : Nat := if texts toks k 2 = ["at", "all"] then k + 2 else k

/-- The item that a list goes on with after `k`. -/
def nextItem (toks : List Tok) (k : Nat) : Nat :=
  skipWhile toks (fun w => joiners.contains w && w ≠ "and") k

def negates (toks : List Tok) (role : Role) (mine : List Nat) : List (Nat × Nat) :=
  ((head toks mine role).map fun h => (h, h)).toList

theorem items_succ (fuel : Nat) (first : Bool) (k : Nat) (heads : List (Nat × Nat)) :
    items toks role (fuel + 1) first k heads =
      let mine := item toks k
      let k := pastAll toks (k + mine.length)
      let heads' := heads ++ negates toks role mine
      let j := nextItem toks k
      if badItem toks role first mine then (heads, none)
      else if j = k || toks.length ≤ j || !modifier (textAt toks j) then (heads', some k)
      else items toks role fuel false j heads' := by
  rw [items]
  rfl

theorem texts_getElem? {i n m : Nat} {w : String} (h : (texts toks i n)[m]? = some w) :
    textAt toks (i + m) = w ∧ i + m < toks.length ∧ m < n := by
  rw [texts, List.getElem?_map, List.getElem?_take, List.getElem?_drop] at h
  by_cases within : m < n
  · rw [if_pos within] at h
    have below : i + m < toks.length := by
      by_contra past
      rw [List.getElem?_eq_none (Nat.le_of_not_lt past)] at h
      cases h
    exact ⟨by rw [textAt, h]; rfl, below, within⟩
  · rw [if_neg within] at h
    cases h

theorem pastAll_spec (toks : List Tok) (k : Nat) : k ≤ pastAll toks k ∧ Listy toks k (pastAll toks k) := by
  unfold pastAll
  by_cases h : texts toks k 2 = ["at", "all"]
  · have first := (texts_getElem? (show (texts toks k 2)[0]? = some "at" by rw [h]; rfl)).1
    have second := (texts_getElem? (show (texts toks k 2)[1]? = some "all" by rw [h]; rfl)).1
    rw [if_pos h]
    refine ⟨by omega, fun m km mk => ?_⟩
    obtain rfl | rfl : m = k ∨ m = k + 1 := by omega
    · exact Or.inr (Or.inr first)
    · exact Or.inl (by rw [second]; decide +kernel)
  · rw [if_neg h]
    exact ⟨Nat.le_refl k, fun m km mk => by omega⟩

theorem nextItem_spec (toks : List Tok) (k : Nat) : k ≤ nextItem toks k ∧ Listy toks k (nextItem toks k) := by
  obtain ⟨le, all⟩ := skipWhile_spec toks (fun w => joiners.contains w && w ≠ "and") k
  refine ⟨le, fun m km mk => ?_⟩
  have word := (all m km mk).1
  rw [Bool.and_eq_true, decide_eq_true_eq] at word
  exact Or.inr (Or.inl word)

/-- An item of a list: a bad one, the last one, or one before the next. -/
theorem items_step (toks : List Tok) (role : Role) (first : Bool) (k : Nat) (heads : List (Nat × Nat)) :
    (∀ fuel, items toks role (fuel + 1) first k heads = (heads, none)) ∨
    ∃ k₁ more, k < k₁ ∧ Listy toks k k₁ ∧ (∀ p ∈ more, Names toks role k p) ∧
      ((∀ fuel, items toks role (fuel + 1) first k heads = (heads ++ more, some k₁)) ∨
        ∃ j, k₁ < j ∧ j < toks.length ∧ Listy toks k₁ j ∧ ∀ fuel,
          items toks role (fuel + 1) first k heads = items toks role fuel false j (heads ++ more)) := by
  obtain ⟨m, -, mine, all⟩ := item_spec toks k
  have mods : Listy toks k (k + m) := fun j kj jm => Or.inl (all j kj jm).2
  by_cases bad : badItem toks role first (item toks k) = true
  · exact Or.inl fun fuel => by rw [items_succ]; simp only [bad, if_true]
  · have some_ : 0 < m := by
      by_contra none_
      obtain rfl : m = 0 := by omega
      rw [mine] at bad
      exact bad rfl
    obtain ⟨le, pastListy⟩ := pastAll_spec toks (k + m)
    obtain ⟨le', nextListy⟩ := nextItem_spec toks (pastAll toks (k + m))
    have length : (item toks k).length = m := by rw [mine, List.length_range']
    refine Or.inr ⟨pastAll toks (k + m), negates toks role (item toks k), by omega,
      mods.trans pastListy, ?_, ?_⟩
    · intro p hp
      obtain ⟨h, hh, rfl⟩ : ∃ h, head toks (item toks k) role = some h ∧ (h, h) = p := by
        simpa [negates] using hp
      obtain ⟨within, word⟩ := head_mem hh
      rw [mine, List.mem_range'_1] at within
      exact ⟨rfl, within.1, fun j kj jh => mods j kj (by omega), word⟩
    · by_cases stop : (nextItem toks (pastAll toks (k + m)) = pastAll toks (k + m) ||
          toks.length ≤ nextItem toks (pastAll toks (k + m)) ||
          !modifier (textAt toks (nextItem toks (pastAll toks (k + m))))) = true
      · refine Or.inl fun fuel => ?_
        rw [items_succ]
        simp only [length]
        rw [if_neg bad, if_pos stop]
      · refine Or.inr ⟨nextItem toks (pastAll toks (k + m)), ?_, ?_, nextListy, fun fuel => ?_⟩
        · simp at stop
          omega
        · simp at stop
          omega
        · rw [items_succ]
          simp only [length]
          rw [if_neg bad, if_neg stop]

/-- A list reads on from `k` over its words, and names role words in them. -/
theorem items_spec (fuel : Nat) : ∀ (first : Bool) (k : Nat) (heads hs : List (Nat × Nat))
    (k? : Option Nat), items toks role fuel first k heads = (hs, k?) →
      (∀ k', k? = some k' → k < k' ∧ Listy toks k k') ∧
      ∀ p ∈ hs, p ∈ heads ∨ Names toks role k p := by
  induction fuel with
  | zero =>
    intro first k heads hs k? eq
    cases eq
    exact ⟨nofun, fun p hp => Or.inl hp⟩
  | succ fuel ih =>
    intro first k heads hs k? eq
    rcases items_step toks role first k heads with
      bad | ⟨k₁, more, lt, listy, names, last | ⟨j, lt', -, listy', next⟩⟩
    · cases (bad fuel).symm.trans eq
      exact ⟨nofun, fun p hp => Or.inl hp⟩
    · cases (last fuel).symm.trans eq
      refine ⟨fun k' h => ?_, fun p hp => (List.mem_append.mp hp).imp_right (names p)⟩
      cases h
      exact ⟨lt, listy⟩
    · obtain ⟨ends, named⟩ := ih false j (heads ++ more) hs k? ((next fuel).symm.trans eq)
      refine ⟨fun k' h => ⟨by have := (ends k' h).1; omega,
        listy.trans (listy'.trans (ends k' h).2)⟩, fun p hp => ?_⟩
      rcases named p hp with hp | ⟨one, le, listy'', word⟩
      · exact (List.mem_append.mp hp).imp_right (names p)
      · exact Or.inr ⟨one, by omega, listy.trans (listy'.trans listy''), word⟩

theorem items_fuel (fuel : Nat) : ∀ (more : Nat) (first : Bool) (k : Nat) (heads : List (Nat × Nat)),
    toks.length ≤ k + fuel →
    items toks role (fuel + 1 + more) first k heads = items toks role (fuel + 1) first k heads := by
  induction fuel with
  | zero =>
    intro more first k heads enough
    have past : item toks k = [] := by
      obtain ⟨m, -, mine, all⟩ := item_spec toks k
      cases m with
      | zero => exact mine
      | succ m =>
        have := (all k (Nat.le_refl k) (by omega)).1
        omega
    rw [show 0 + 1 + more = more + 1 by omega, items_succ, items_succ, past]
    rfl
  | succ fuel ih =>
    intro more first k heads enough
    rw [show fuel + 1 + 1 + more = (fuel + 1 + more) + 1 by omega]
    rcases items_step toks role first k heads with
      bad | ⟨k₁, more', lt, -, -, last | ⟨j, lt', -, -, next⟩⟩
    · rw [bad, bad]
    · rw [last, last]
    · rw [next, next]
      exact ih more false j _ (by omega)

/-! ### Statements -/

/-- The words at `i` that open a list at `j`. -/
inductive Opener (toks : List Tok) (i : Nat) : Nat → Prop
  | word : openers.contains (textAt toks i) = true → Opener toks i (i + 1)
  | verb : textAt toks i = "not" → exists_.contains (textAt toks (i + 1)) = true →
      Opener toks i (i + 2)
  | article : textAt toks i = "not" → exists_.contains (textAt toks (i + 1)) = true →
      articles.contains (textAt toks (i + 2)) = true → Opener toks i (i + 3)
  | event : textAt toks i = "not" → self.contains (textAt toks (i + 1)) = true →
      Opener toks i (i + 1)

/-- The role word `k` is in a negated list that an opener at `i` heads. -/
def Listed (toks : List Tok) (role : Role) (i k : Nat) : Prop :=
  ∃ j, Opener toks i j ∧ i < j ∧ j ≤ k ∧ Listy toks j (k + 1) ∧
    (roleWords role).contains (textAt toks k) = true

/-- What statement `i` negates: role words of its list, or all changes. -/
def Denies (toks : List Tok) (role : Role) (i : Nat) (p : Nat × Nat) : Prop :=
  p.1 = p.2 ∧ Listed toks role i p.1 ∨
    role = .changes ∧ p.1 = i ∧ sameAt toks i = some p.2

theorem Opener.clean {i j : Nat} (h : Opener toks i j) : i < j ∧ Clean toks i j := by
  have verb : textAt toks i = "not" → exists_.contains (textAt toks (i + 1)) = true →
      Clean toks i (i + 2) := fun first second =>
    (Clean.one (by rw [first]; decide)).trans (Clean.one (class_unqualified (by decide) second))
  cases h with
  | word h => exact ⟨by omega, Clean.one (class_unqualified (by decide) h)⟩
  | verb first second => exact ⟨by omega, verb first second⟩
  | article first second third =>
    exact ⟨by omega, (verb first second).trans (Clean.one (class_unqualified (by decide) third))⟩
  | event first second => exact ⟨by omega, Clean.one (by rw [first]; decide)⟩

/-- "everything stays the same" -/
theorem sameAt_spec {i last : Nat} (h : sameAt toks i = some last) :
    textAt toks i = "everything" ∧ i < last ∧ last < toks.length ∧ Clean toks i (last + 1) := by
  obtain ⟨cond, eq⟩ := Option.ite_none_right_eq_some.mp h
  simp only [Bool.and_eq_true, decide_eq_true_eq] at cond
  obtain ⟨⟨first, the_same⟩, stays⟩ := cond
  have everything : textAt toks i = "everything" := (texts_getElem? first).1
  generalize hj : (if (texts toks i 5)[1]? = some "else" then 2 else 1) = j at *
  have the : textAt toks (i + (j + 1)) = "the" ∧ i + (j + 1) < toks.length ∧ j + 1 < 5 := by
    have get : (((texts toks i 5).drop (j + 1)).take 2)[0]? = some "the" := by rw [the_same]; rfl
    exact texts_getElem? (by simpa using get)
  have last_ : textAt toks (i + (j + 2)) = "same" ∧ i + (j + 2) < toks.length ∧ j + 2 < 5 := by
    have get : (((texts toks i 5).drop (j + 1)).take 2)[1]? = some "same" := by rw [the_same]; rfl
    exact texts_getElem? (by simpa using get)
  have verb : qualifiers.contains (textAt toks (i + j)) = false := by
    cases hw : (texts toks i 5)[j]? with
    | none =>
      rw [hw] at stays
      cases stays
    | some v =>
      rw [hw] at stays
      rw [(texts_getElem? hw).1]
      exact class_unqualified (by decide) stays
  have else_ : j = 1 ∨ j = 2 ∧ textAt toks (i + 1) = "else" := by
    by_cases he : (texts toks i 5)[1]? = some "else"
    · rw [if_pos he] at hj
      exact Or.inr ⟨hj.symm, (texts_getElem? he).1⟩
    · rw [if_neg he] at hj
      exact Or.inl hj.symm
  cases eq
  refine ⟨everything, by omega, by omega, fun m im mj => ?_⟩
  obtain rfl | rfl | rfl | rfl | ⟨rfl, rfl⟩ :
      m = i ∨ m = i + j ∨ m = i + (j + 1) ∨ m = i + (j + 2) ∨ m = i + 1 ∧ j = 2 := by omega
  · rw [everything]; decide
  · exact verb
  · rw [the.1]; decide
  · rw [last_.1]; decide
  · rw [(else_.resolve_left (by decide)).2]; decide

theorem opens_iff {i : Nat} : opens toks i = true ↔ openers.contains (textAt toks i) = true ∨
    textAt toks i = "not" ∧ (exists_.contains (textAt toks (i + 1)) = true ∨
      self.contains (textAt toks (i + 1)) = true) ∨ (sameAt toks i).isSome = true := by
  simp only [opens, Bool.or_eq_true, Bool.and_eq_true, decide_eq_true_eq, or_assoc]

theorem opens_lt {i : Nat} (h : opens toks i = true) : i < toks.length := by
  rcases opens_iff.mp h with word | ⟨not_, -⟩ | same
  · refine textAt_lt fun bad => ?_
    rw [bad] at word
    cases word
  · refine textAt_lt fun bad => ?_
    rw [bad] at not_
    exact absurd not_ (by decide)
  · obtain ⟨last, same⟩ := Option.isSome_iff_exists.mp same
    obtain ⟨-, lt, below, -⟩ := sameAt_spec same
    omega

/-- A statement ends after its opener, over words that do not qualify. -/
theorem statement_spec {i : Nat} (open_ : opens toks i = true) {hs : List (Nat × Nat)}
    {k? : Option Nat} (eq : statement toks i role = (hs, k?)) :
    (∀ k, k? = some k → i < k ∧ Clean toks i k) ∧ ∀ p ∈ hs, Denies toks role i p := by
  unfold statement at eq
  cases same : sameAt toks i with
  | some last =>
    rw [same] at eq
    obtain ⟨-, lt, -, clean⟩ := sameAt_spec same
    cases eq
    refine ⟨fun k h => ?_, fun p hp => ?_⟩
    · cases h
      exact ⟨by omega, clean⟩
    · by_cases changes : role = .changes
      · rw [if_pos changes, List.mem_singleton] at hp
        rw [hp]
        exact Or.inr ⟨changes, rfl, same⟩
      · rw [if_neg changes] at hp
        cases hp
  | none =>
    rw [same] at eq
    dsimp only at eq
    by_cases event : textAt toks i = "not" ∧ self.contains (textAt toks (i + 1)) = true
    · have opener : Opener toks i (i + 1) := .event event.1 event.2
      rw [if_pos (by simpa using event)] at eq
      cases eq
      refine ⟨fun k h => ?_, fun p hp => ?_⟩
      · cases h
        exact ⟨by omega, opener.clean.2.trans (Clean.one (class_unqualified (by decide) event.2))⟩
      · obtain ⟨mine, hp⟩ := List.mem_ite_nil_right.mp hp
        rw [List.mem_singleton] at hp
        simp only [Bool.and_eq_true, decide_eq_true_eq] at mine
        rw [hp]
        refine Or.inl ⟨rfl, i + 1, opener, by omega, Nat.le_refl _, ?_, mine.2⟩
        intro m im mi
        obtain rfl : m = i + 1 := by omega
        exact Or.inl (class_modifier (by decide) event.2)
    · rw [if_neg (by simpa using event)] at eq
      have negates : ∀ j, Opener toks i j →
          items toks role (toks.length + 1) true j [] = (hs, k?) →
          (∀ k, k? = some k → i < k ∧ Clean toks i k) ∧ ∀ p ∈ hs, Denies toks role i p := by
        intro j opener eq
        obtain ⟨lt, clean⟩ := opener.clean
        obtain ⟨ends, named⟩ := items_spec _ _ _ _ _ _ eq
        refine ⟨fun k h => ?_, fun p hp => ?_⟩
        · obtain ⟨lt', listy⟩ := ends k h
          exact ⟨by omega, clean.trans listy.clean⟩
        · obtain ⟨one, le, listy, word⟩ := (named p hp).resolve_left (List.not_mem_nil)
          exact Or.inl ⟨one, j, opener, lt, le, listy, word⟩
      rcases opens_iff.mp open_ with word | ⟨not_, verb⟩ | some_
      · have other : textAt toks i ≠ "not" := by
          intro bad
          rw [bad] at word
          cases word
        simp only [word, if_true, other, decide_false, Bool.false_and, Bool.false_eq_true,
          if_false] at eq
        exact negates (i + 1) (.word word) eq
      · have verb := verb.resolve_right fun bad => event ⟨not_, bad⟩
        have plain_ : openers.contains "not" = false := by decide
        simp only [plain_, Bool.false_eq_true, if_false, not_, decide_true, Bool.true_and] at eq
        by_cases article : articles.contains (textAt toks (i + 2)) = true
        · rw [if_pos article] at eq
          exact negates (i + 3) (.article not_ verb article) eq
        · rw [if_neg article] at eq
          exact negates (i + 2) (.verb not_ verb) eq
      · rw [same] at some_
        cases some_

/-! ### The way from one statement to the next -/

theorem bridge_spec (n : Nat) : ∀ j i, bridge toks n j = some i →
    j ≤ i ∧ i < toks.length ∧ opens toks i = true ∧ Clean toks j i := by
  induction n with
  | zero => exact fun j i h => by cases h
  | succ n ih =>
    intro j i h
    rw [bridge] at h
    by_cases past : toks.length ≤ j
    · rw [if_pos past] at h
      cases h
    · rw [if_neg past] at h
      by_cases open_ : opens toks j = true
      · rw [if_pos open_] at h
        cases h
        exact ⟨Nat.le_refl _, Nat.lt_of_not_le past, open_, fun m jm mj => by omega⟩
      · rw [if_neg open_] at h
        obtain ⟨word, h⟩ := Option.ite_none_right_eq_some.mp h
        obtain ⟨le, lt, open_', clean⟩ := ih (j + 1) i h
        exact ⟨by omega, lt, open_', (Clean.one (plain_unqualified word)).trans clean⟩

/-- A tail of words of which none qualifies. -/
theorem clean_of_drop {j : Nat} (h : ∀ t ∈ toks.drop j, qualifiers.contains t.text = false) (i : Nat) :
    Clean toks j i := by
  intro m jm _
  cases hm : toks[m]? with
  | none =>
    rw [textAt, hm]
    decide
  | some t =>
    have mem : t ∈ toks.drop j := by
      refine List.mem_of_getElem? (i := m - j) ?_
      rw [List.getElem?_drop, Nat.add_sub_cancel' jm, hm]
    rw [textAt, hm]
    exact h t mem

theorem next_spec {k i : Nat} (h : next toks (some k) role = some i) :
    Clean toks k i ∧ (i = toks.length ∨ k ≤ i ∧ i < toks.length ∧ opens toks i = true) := by
  unfold next at h
  dsimp only at h
  by_cases done : ((toks.drop k).all fun t => t.text = "!") = true
  · rw [if_pos done] at h
    cases h
    refine ⟨clean_of_drop (fun t ht => ?_) _, Or.inl rfl⟩
    have mark := List.all_eq_true.mp done t ht
    rw [decide_eq_true_eq] at mark
    rw [mark]
    decide
  · rw [if_neg done] at h
    obtain ⟨le, joined⟩ := skipWhile_spec toks joiners.contains k
    generalize skipWhile toks joiners.contains k = j at h le joined
    have joinedClean : Clean toks k j := fun m km mj =>
      class_unqualified (by decide) (joined m km mj).1
    by_cases stuck : (Decidable.decide (j = k) || Decidable.decide (toks.length ≤ j)) = true
    · rw [if_pos stuck] at h
      cases h
    · rw [if_neg stuck] at h
      cases hb : bridge toks (bridgeMax + 1) j with
      | some n =>
        rw [hb] at h
        cases h
        obtain ⟨le', lt, open_, clean⟩ := bridge_spec _ _ _ hb
        exact ⟨joinedClean.trans clean, Or.inr ⟨by omega, lt, open_⟩⟩
      | none =>
        rw [hb] at h
        obtain ⟨other, h⟩ := Option.ite_none_right_eq_some.mp h
        cases h
        refine ⟨joinedClean.trans (clean_of_drop (fun t ht => ?_) _), Or.inl rfl⟩
        simp only [otherTerm, Bool.and_eq_true, Bool.not_eq_true', List.any_eq_false] at other
        have word := other.1.1.2 t.text (List.mem_map_of_mem ht)
        simpa using word

/-- A prepositional phrase after a list: none, a bad one, or a clean one and what follows it. -/
theorem phrases_step (toks : List Tok) (k : Nat) : (∀ fuel, phrases toks (fuel + 1) k = some k) ∨
    (∀ fuel, phrases toks (fuel + 1) k = none) ∨
    ∃ k', k < k' ∧ k' ≤ toks.length ∧ Clean toks k k' ∧
      ∀ fuel, phrases toks (fuel + 1) k = phrases toks fuel k' := by
  by_cases preposition : prepositions.contains (textAt toks k) = true
  · refine Or.inr ?_
    cases target : (texts toks (k + 1) (1 + maxModifiers)).findIdx? targets.contains with
    | none => exact Or.inl fun fuel => by simp only [phrases, preposition, if_true, target]
    | some stop =>
      by_cases good : (((texts toks (k + 1) (1 + maxModifiers)).take stop).all fun w =>
          modifier w || subjects.contains w) = true
      · obtain ⟨within, isTarget, -⟩ := List.findIdx?_eq_some_iff_getElem.mp target
        have at_ := texts_getElem? (List.getElem?_eq_getElem within)
        refine Or.inr ⟨k + stop + 2, by omega, by omega, fun m km mk => ?_, fun fuel => by
          simp only [phrases, preposition, if_true, target, good]⟩
        by_cases first : m = k
        · rw [first]
          exact class_unqualified (by decide) preposition
        by_cases last_ : m = k + 1 + stop
        · rw [last_, at_.1]
          exact class_unqualified (by decide) isTarget
        have before : m - (k + 1) < stop := by omega
        have here_ : (texts toks (k + 1) (1 + maxModifiers))[m - (k + 1)]? =
            some (texts toks (k + 1) (1 + maxModifiers))[m - (k + 1)] :=
          List.getElem?_eq_getElem (by omega)
        have word := List.all_eq_true.mp good (texts toks (k + 1) (1 + maxModifiers))[m - (k + 1)]
          (List.mem_take_iff_getElem.mpr ⟨m - (k + 1), by omega, rfl⟩)
        have eq := (texts_getElem? here_).1
        rw [show k + 1 + (m - (k + 1)) = m by omega] at eq
        rw [eq]
        rw [Bool.or_eq_true] at word
        rcases word with word | word
        · exact plain_unqualified (plain_of_modifier word)
        · exact class_unqualified (by decide) word
      · exact Or.inl fun fuel => by
          simp only [phrases, preposition, if_true, target]
          rw [if_neg good]
  · exact Or.inl fun fuel => by simp only [phrases, preposition, if_false, Bool.false_eq_true]

theorem phrases_spec (fuel : Nat) : ∀ k k', phrases toks fuel k = some k' →
    k ≤ k' ∧ Clean toks k k' := by
  induction fuel with
  | zero =>
    intro k k' h
    cases h
    exact ⟨Nat.le_refl k, fun m km mk => by omega⟩
  | succ fuel ih =>
    intro k k' h
    rcases phrases_step toks k with none_ | bad | ⟨j, lt, -, clean, next⟩
    · cases (none_ fuel).symm.trans h
      exact ⟨Nat.le_refl k, fun m km mk => by omega⟩
    · cases (bad fuel).symm.trans h
    · obtain ⟨le, clean'⟩ := ih j k' ((next fuel).symm.trans h)
      exact ⟨by omega, clean.trans clean'⟩

theorem phrases_fuel (fuel : Nat) : ∀ more k, toks.length ≤ k + fuel →
    phrases toks (fuel + more) k = phrases toks fuel k := by
  induction fuel with
  | zero =>
    intro more k past
    cases more with
    | zero => rfl
    | succ more =>
      have none_ : prepositions.contains (textAt toks k) = false := by
        rw [textAt, List.getElem?_eq_none (by omega)]
        decide
      rw [Nat.zero_add]
      simp only [phrases, none_, if_false, Bool.false_eq_true]
  | succ fuel ih =>
    intro more k enough
    rw [show fuel + 1 + more = fuel + more + 1 by omega]
    rcases phrases_step toks k with none_ | bad | ⟨j, lt, -, -, next⟩
    · rw [none_, none_]
    · rw [bad, bad]
    · rw [next, next]
      exact ih more j (by omega)

/-! ### All the statements of a sentence -/

theorem statement_next {i i' : Nat} (open_ : opens toks i = true) (lt : i < toks.length)
    (h : next toks ((statement toks i role).2.bind (phrases toks toks.length)) role = some i') :
    i < i' ∧ Clean toks i i' ∧ (i' = toks.length ∨ opens toks i' = true) := by
  obtain ⟨ends, -⟩ := statement_spec open_ (Prod.eta (statement toks i role)).symm
  cases hk : (statement toks i role).2.bind (phrases toks toks.length) with
  | none =>
    rw [hk] at h
    cases h
  | some k' =>
    rw [hk] at h
    obtain ⟨k, hk, phrase⟩ := Option.bind_eq_some_iff.mp hk
    obtain ⟨lt', clean⟩ := ends k hk
    obtain ⟨le, clean'⟩ := phrases_spec _ _ _ phrase
    obtain ⟨clean'', done | ⟨le', -, open_'⟩⟩ := next_spec h
    · exact ⟨by omega, clean.trans (clean'.trans clean''), Or.inl done⟩
    · exact ⟨by omega, clean.trans (clean'.trans clean''), Or.inr open_'⟩

theorem statements_succ (fuel i : Nat) (good : List (Nat × Nat)) (lt : i < toks.length) :
    statements toks role (fuel + 1) i good =
      match next toks ((statement toks i role).2.bind (phrases toks toks.length)) role with
      | none => (good ++ (statement toks i role).1, true)
      | some i' => statements toks role fuel i' (good ++ (statement toks i role).1) := by
  refine Eq.trans (if_neg (Nat.not_le_of_lt lt)) ?_
  rcases statement toks i role with ⟨heads, k?⟩
  rfl

/-- What the statements from `i` on negate; and if none voids the sentence, nothing from `i` on
qualifies. -/
theorem statements_spec (fuel : Nat) : ∀ (i : Nat) (good hs : List (Nat × Nat)) (bad : Bool),
    toks.length ≤ i + fuel → (i < toks.length → opens toks i = true) →
    statements toks role (fuel + 1) i good = (hs, bad) →
    (bad = false → Clean toks i toks.length) ∧
      ∀ p ∈ hs, p ∈ good ∨ ∃ j, i ≤ j ∧ opens toks j = true ∧ Denies toks role j p := by
  induction fuel with
  | zero =>
    intro i good hs bad enough _ h
    rw [statements, if_pos (by omega)] at h
    cases h
    exact ⟨fun _ m im mn => by omega, fun p hp => Or.inl hp⟩
  | succ fuel ih =>
    intro i good hs bad enough open_ h
    by_cases lt : i < toks.length
    · obtain ⟨-, denies⟩ := statement_spec (open_ lt) (Prod.eta (statement toks i role)).symm
      have named_here : ∀ p ∈ good ++ (statement toks i role).1, p ∈ good ∨
          ∃ j, i ≤ j ∧ opens toks j = true ∧ Denies toks role j p := fun p hp =>
        (List.mem_append.mp hp).imp_right fun hp => ⟨i, Nat.le_refl i, open_ lt, denies p hp⟩
      rw [statements_succ _ _ _ lt] at h
      cases hn : next toks ((statement toks i role).2.bind (phrases toks toks.length)) role with
      | none =>
        rw [hn] at h
        cases h
        exact ⟨nofun, named_here⟩
      | some i' =>
        rw [hn] at h
        obtain ⟨lt', clean, open_'⟩ := statement_next (open_ lt) lt hn
        obtain ⟨clean', named⟩ := ih i' _ hs bad (by omega)
          (fun below => open_'.resolve_left (Nat.ne_of_lt below)) h
        refine ⟨fun quiet => clean.trans (clean' quiet), fun p hp => ?_⟩
        rcases named p hp with hp | ⟨j, le, rest⟩
        · exact named_here p hp
        · exact Or.inr ⟨j, by omega, rest⟩
    · rw [statements, if_pos (Nat.le_of_not_lt lt)] at h
      cases h
      exact ⟨fun _ m im mn => by omega, fun p hp => Or.inl hp⟩

theorem statements_fuel (fuel : Nat) : ∀ (more i : Nat) (good : List (Nat × Nat)),
    toks.length ≤ i + fuel → (i < toks.length → opens toks i = true) →
    statements toks role (fuel + 1 + more) i good = statements toks role (fuel + 1) i good := by
  induction fuel with
  | zero =>
    intro more i good enough _
    rw [show 0 + 1 + more = more + 1 by omega, statements, statements, if_pos (by omega),
      if_pos (by omega)]
  | succ fuel ih =>
    intro more i good enough open_
    rw [show fuel + 1 + 1 + more = fuel + 1 + more + 1 by omega]
    by_cases lt : i < toks.length
    · rw [statements_succ _ _ _ lt, statements_succ _ _ _ lt]
      cases hn : next toks ((statement toks i role).2.bind (phrases toks toks.length)) role with
      | none => rfl
      | some i' =>
        obtain ⟨lt', -, open_'⟩ := statement_next (open_ lt) lt hn
        exact ih more i' _ (by omega) fun below => open_'.resolve_left (Nat.ne_of_lt below)
    · rw [statements, statements, if_pos (by omega), if_pos (by omega)]

/-! ## Tokens -/

theorem Denies.word {i : Nat} {p : Nat × Nat} (h : Denies toks role i p) :
    textAt toks p.1 ≠ "not" := by
  rcases h with ⟨-, j, -, -, -, -, word⟩ | ⟨-, first, same⟩
  · intro bad
    rw [bad] at word
    cases role <;> cases word
  · rw [first, (sameAt_spec same).1]
    decide

end walk

theorem consumes_token : token.Consumes := by
  refine Regex.consumes_any fun r hr => ?_
  simp only [List.mem_cons, List.not_mem_nil, or_false] at hr
  rcases hr with rfl | rfl | rfl | rfl
  · exact ((Regex.consumes_set _).left _).right _
  · exact (Regex.consumes_set _).right _
  · exact (Regex.consumes_set _).plus.left _
  · exact Regex.consumes_set _

/-- The tokens of a match: two for an "n't". -/
def toksOf (m : Regex.Match Char) : List Tok :=
  let w := String.ofList m.text
  let stem := if w = "won't" then "will" else if w = "can't" || w = "cannot" then "can"
    else String.ofList (m.text.take (m.text.length - 3))
  if w = "cannot" || "n't".toList.isSuffixOf m.text then
    [⟨stem, m.start, m.stop⟩, ⟨"not", m.start, m.stop⟩]
  else [⟨w, m.start, m.stop⟩]

theorem toksOf_start (m : Regex.Match Char) : (∀ t ∈ toksOf m, t.start = m.start) ∧
    (toksOf m).Pairwise fun _ b => b.text = "not" := by
  unfold toksOf
  dsimp only
  split
  · exact ⟨by simp, by simp⟩
  · exact ⟨by simp, List.pairwise_singleton _ _⟩

/-- Tokens start after one another; only the "not" of an "n't" starts with the token before it. -/
theorem tokens_ordered (u : Unicode) (sentence : List Char) : (tokens u sentence).Pairwise fun a b =>
    a.start < b.start ∨ a.start = b.start ∧ b.text = "not" := by
  let text := plainQuotes (Regex.sub (date u) (fun m => List.replicate m.text.length 'd')
    (u.lower sentence))
  have form : tokens u sentence = (token.finditer text).flatMap toksOf := rfl
  obtain ⟨sorted, each⟩ := Regex.scan_ordered token (2 * text.length + 2) false ⟨[], text, []⟩
  rw [form]
  refine List.pairwise_flatMap.mpr ⟨fun m _ => ?_, ?_⟩
  · obtain ⟨starts, twin⟩ := toksOf_start m
    refine twin.imp_of_mem fun ha hb not_ => Or.inr ⟨?_, not_⟩
    rw [starts _ ha, starts _ hb]
  · refine List.Pairwise.imp_of_mem (fun {m m'} hm _ apart => ?_) sorted
    intro a ha b hb
    have reads := (each m hm).2.2 consumes_token
    rw [(toksOf_start m).1 a ha, (toksOf_start m').1 b hb]
    exact Or.inl (by omega)

/-! ## Hits -/

def firstOpener (toks : List Tok) : Nat :=
  ((List.range toks.length).find? (opens toks)).getD toks.length

theorem firstOpener_spec (toks : List Tok) :
    (firstOpener toks < toks.length → opens toks (firstOpener toks) = true) ∧
      ∀ k < firstOpener toks, opens toks k = false := by
  unfold firstOpener
  cases hf : (List.range toks.length).find? (opens toks) with
  | none =>
    have none_ := List.find?_eq_none.mp hf
    refine ⟨fun h => absurd h (Nat.lt_irrefl _), fun k hk => ?_⟩
    simpa using none_ k (List.mem_range.mpr hk)
  | some i =>
    obtain ⟨open_, -, before⟩ := List.find?_range_eq_some.mp hf
    exact ⟨fun _ => open_, fun k hk => by simpa using before k hk⟩

/-- The statements of a sentence: the heads they negate, and whether a bad tail voids them. -/
def stated (toks : List Tok) (role : Role) : List (Nat × Nat) × Bool :=
  statements toks role (toks.length + 1) (firstOpener toks) []

/-- Whether a sentence's statements count for nothing. -/
def isVoid (sentence : List Char) (toks : List Tok) (role : Role) : Bool :=
  voided sentence ((toks.map Tok.text).take (firstOpener toks)) || role = .changes &&
    ((List.range toks.length).any fun k => textAt toks k = "everything" &&
      ((toks.map Tok.text).drop k).contains "same" && (sameAt toks k).isNone) ||
    (stated toks role).2

def hitAt (toks : List Tok) (role : Role) (heads : List (Nat × Nat)) (void : Bool) (k : Nat) :
    Option Hit :=
  match heads.reverse.find? (·.1 = k) with
  | some (_, last) =>
    some ⟨(toks[k]?.map Tok.start).getD 0, (toks[last]?.map Tok.stop).getD 0,
      if void then .void else .negated⟩
  | none =>
    if (roleWords role).contains (textAt toks k) then
      some ⟨(toks[k]?.map Tok.start).getD 0, (toks[k]?.map Tok.stop).getD 0, .plain⟩
    else none

theorem scan_eq (u : Unicode) (sentence : List Char) (role : Role) : scan u sentence role =
    (List.range (tokens u sentence).length).filterMap
      (hitAt (tokens u sentence) role (stated (tokens u sentence) role).1
        (isVoid sentence (tokens u sentence) role)) := by
  have form : statements (tokens u sentence) role ((tokens u sentence).length + 1)
      (((List.range (tokens u sentence).length).find? (opens (tokens u sentence))).getD
        (tokens u sentence).length) [] = stated (tokens u sentence) role := rfl
  unfold scan isVoid
  dsimp only
  rw [form]
  rcases stated (tokens u sentence) role with ⟨heads, bad⟩
  rfl

section hits

variable {toks : List Tok} {role : Role}

/-- What the statements of a sentence negate, and that nothing after the first opener qualifies. -/
theorem stated_spec (toks : List Tok) (role : Role) :
    ((stated toks role).2 = false → Clean toks (firstOpener toks) toks.length) ∧
      ∀ p ∈ (stated toks role).1, ∃ j, firstOpener toks ≤ j ∧ opens toks j = true ∧
        Denies toks role j p := by
  obtain ⟨clean, named⟩ := statements_spec toks.length (firstOpener toks) [] _ _
    (Nat.le_add_left _ _) (firstOpener_spec toks).1 (Prod.eta (stated toks role)).symm
  exact ⟨clean, fun p hp => (named p hp).resolve_left List.not_mem_nil⟩

/-- A hit is a role word, or a statement that all changes are none. -/
theorem hitAt_spec {void : Bool} {k : Nat} {h : Hit}
    (hh : hitAt toks role (stated toks role).1 void k = some h) :
    h.start = (toks[k]?.map Tok.start).getD 0 ∧ textAt toks k ≠ "not" ∧
      (h.state = .negated → void = false ∧ ∃ last j, firstOpener toks ≤ j ∧ opens toks j = true ∧
        (k, last) ∈ (stated toks role).1 ∧ Denies toks role j (k, last)) := by
  unfold hitAt at hh
  cases hf : (stated toks role).1.reverse.find? (·.1 = k) with
  | some p =>
    obtain ⟨first, last⟩ := p
    obtain rfl : first = k := by simpa using List.find?_some hf
    have mem : (first, last) ∈ (stated toks role).1 :=
      List.mem_reverse.mp (List.mem_of_find?_eq_some hf)
    obtain ⟨j, le, open_, denies⟩ := (stated_spec toks role).2 _ mem
    rw [hf] at hh
    cases hh
    refine ⟨rfl, denies.word, fun negated => ?_⟩
    cases void with
    | true => cases negated
    | false => exact ⟨rfl, last, j, le, open_, mem, denies⟩
  | none =>
    rw [hf] at hh
    obtain ⟨word, hh⟩ := Option.ite_none_right_eq_some.mp hh
    cases hh
    refine ⟨rfl, fun bad => ?_, nofun⟩
    rw [bad] at word
    cases role <;> cases word

/-- The hits of a sentence start after one another. -/
theorem scan_ordered (u : Unicode) (sentence : List Char) (role : Role) :
    (scan u sentence role).Pairwise fun a b => a.start < b.start := by
  have ordered := tokens_ordered u sentence
  rw [scan_eq]
  generalize tokens u sentence = toks at ordered ⊢
  refine List.pairwise_filterMap.mpr (List.Pairwise.imp_of_mem (fun {k k'} hk hk' lt => ?_)
    List.pairwise_lt_range)
  intro h hh h' hh'
  rw [List.mem_range] at hk hk'
  obtain ⟨start, -, -⟩ := hitAt_spec hh
  obtain ⟨start', other, -⟩ := hitAt_spec hh'
  rw [List.getElem?_eq_getElem hk] at start
  rw [textAt, List.getElem?_eq_getElem hk'] at other
  rw [List.getElem?_eq_getElem hk'] at start'
  have apart := List.pairwise_iff_getElem.mp ordered k k' hk hk' lt
  rw [start, start']
  exact apart.resolve_right fun twin => other twin.2

/-- What a denial of a role takes of a sentence whose first opener is `i`. -/
structure Denied (u : Unicode) (sentence : List Char) (role : Role) (i : Nat) : Prop where
  opener : opens (tokens u sentence) i = true ∧ ∀ k < i, opens (tokens u sentence) k = false
  /-- each role word is in a negated list -/
  listed : ∀ k, (roleWords role).contains (textAt (tokens u sentence) k) = true →
    ∃ j, i ≤ j ∧ opens (tokens u sentence) j = true ∧ Listed (tokens u sentence) role j k
  /-- so is each hit, unless it states that all changes are none -/
  hits : ∀ h ∈ scan u sentence role, ∃ k t, (tokens u sentence)[k]? = some t ∧ h.start = t.start ∧
    ((∃ j, i ≤ j ∧ opens (tokens u sentence) j = true ∧ Listed (tokens u sentence) role j k) ∨
      role = .changes ∧ i ≤ k ∧ (sameAt (tokens u sentence) k).isSome = true)
  question : (Text.rstrip sentence).getLast? ≠ some '?'
  before : ∀ k < i,
    (hedges ++ conditions ++ restrictions ++ bounds).contains (textAt (tokens u sentence) k) = true →
    textAt (tokens u sentence) k = "just" ∧ k + 1 < i ∧
      isAmount (textAt (tokens u sentence) (k + 1)) = true
  after : ∀ k, i ≤ k → qualifiers.contains (textAt (tokens u sentence) k) = false

/-- A word of the lead stays in it, unless it is a "just" before an amount. -/
theorem leads_spec (words : List String) : ∀ k w, words[k]? = some w →
    w ∈ leads words ∨ w = "just" ∧ ∃ x, words[k + 1]? = some x ∧ isAmount x = true := by
  induction words with
  | nil => exact fun k w h => by cases h
  | cons v words ih =>
    intro k w h
    cases k with
    | zero =>
      obtain rfl : v = w := Option.some.inj h
      by_cases just : (Decidable.decide (v = "just") && isAmount (words.headD "")) = true
      · simp only [Bool.and_eq_true, decide_eq_true_eq] at just
        cases words with
        | nil => exact absurd just.2 (by decide +kernel)
        | cons x words => exact Or.inr ⟨just.1, x, rfl, just.2⟩
      · refine Or.inl ?_
        rw [leads, if_neg just]
        exact List.mem_cons_self
    | succ k =>
      rcases ih k w h with stays | ⟨just, x, hx, amount⟩
      · refine Or.inl ?_
        rw [leads]
        exact List.mem_append_right _ stays
      · exact Or.inr ⟨just, x, hx, amount⟩

theorem not_void {sentence : List Char} (h : isVoid sentence toks role = false) :
    (stated toks role).2 = false ∧ (Text.rstrip sentence).getLast? ≠ some '?' ∧
      ∀ k < firstOpener toks,
        (hedges ++ conditions ++ restrictions ++ bounds).contains (textAt toks k) = true →
        textAt toks k = "just" ∧ k + 1 < firstOpener toks ∧
          isAmount (textAt toks (k + 1)) = true := by
  simp only [isVoid, voided, Bool.or_eq_false_iff, decide_eq_false_iff_not] at h
  obtain ⟨⟨⟨⟨question, lead⟩, -⟩, -⟩, clean⟩ := h
  refine ⟨clean, question, fun k lt word => ?_⟩
  have get : ∀ m w, ((toks.map Tok.text).take (firstOpener toks))[m]? = some w →
      m < firstOpener toks ∧ textAt toks m = w := by
    intro m w hm
    rw [List.getElem?_take, List.getElem?_map] at hm
    obtain ⟨within, hm⟩ := Option.ite_none_right_eq_some.mp hm
    exact ⟨within, by rw [textAt, hm]; rfl⟩
  have some_ : ((toks.map Tok.text).take (firstOpener toks))[k]? = some (textAt toks k) := by
    rw [List.getElem?_take, if_pos lt, List.getElem?_map]
    cases hk : toks[k]? with
    | none =>
      rw [textAt, hk] at word
      exact absurd word (by decide)
    | some t =>
      rw [textAt, hk]
      rfl
  rcases leads_spec _ k _ some_ with stays | ⟨just, x, hx, amount⟩
  · have quiet := List.any_eq_false.mp lead _ stays
    refine absurd ?_ quiet
    simp only [List.contains_append, Bool.or_eq_true, or_assoc] at word ⊢
    exact word
  · obtain ⟨within, eq⟩ := get (k + 1) x hx
    exact ⟨just, within, by rw [eq]; exact amount⟩

/-- A denial is read fail-closed. -/
theorem denied_spec {u : Unicode} {sentence : List Char} (h : denied u sentence role = true) :
    ∃ i, Denied u sentence role i := by
  simp only [denied, Bool.and_eq_true, Bool.not_eq_true', List.isEmpty_eq_false_iff] at h
  obtain ⟨some_, all⟩ := h
  have negated : ∀ k hit, hitAt (tokens u sentence) role (stated (tokens u sentence) role).1
      (isVoid sentence (tokens u sentence) role) k = some hit → k < (tokens u sentence).length →
      hit.state = .negated := by
    intro k hit hk lt
    have mem : hit ∈ scan u sentence role := by
      rw [scan_eq]
      exact List.mem_filterMap.mpr ⟨k, List.mem_range.mpr lt, hk⟩
    simpa using List.all_eq_true.mp all hit mem
  have found : ∀ hit ∈ scan u sentence role, ∃ k, k < (tokens u sentence).length ∧
      hitAt (tokens u sentence) role (stated (tokens u sentence) role).1
        (isVoid sentence (tokens u sentence) role) k = some hit := by
    intro hit mem
    rw [scan_eq] at mem
    obtain ⟨k, lt, hk⟩ := List.mem_filterMap.mp mem
    exact ⟨k, List.mem_range.mp lt, hk⟩
  obtain ⟨hit, mem⟩ := List.exists_mem_of_ne_nil _ some_
  obtain ⟨k, lt, hk⟩ := found hit mem
  obtain ⟨void, -, j, le, open_, -, -⟩ := (hitAt_spec hk).2.2 (negated k hit hk lt)
  obtain ⟨sound, question, before⟩ := not_void void
  obtain ⟨opener, first⟩ := firstOpener_spec (tokens u sentence)
  have clean := (stated_spec (tokens u sentence) role).1 sound
  refine ⟨firstOpener (tokens u sentence), ⟨opener ?_, first⟩, fun k word => ?_, fun hit mem => ?_,
    question, before, fun k le' => ?_⟩
  · have := opens_lt open_
    omega
  · have below : k < (tokens u sentence).length := textAt_lt fun bad => by
      rw [bad] at word
      cases role <;> cases word
    obtain ⟨hit, hk⟩ : ∃ hit, hitAt (tokens u sentence) role (stated (tokens u sentence) role).1
        (isVoid sentence (tokens u sentence) role) k = some hit := by
      unfold hitAt
      split
      · exact ⟨_, rfl⟩
      · rw [if_pos word]
        exact ⟨_, rfl⟩
    obtain ⟨-, last, j, le, open_, -, ⟨-, listed⟩ | ⟨-, eq, same⟩⟩ :=
      (hitAt_spec hk).2.2 (negated k hit hk below)
    · exact ⟨j, le, open_, listed⟩
    · have everything := (sameAt_spec same).1
      rw [← eq] at everything
      rw [everything] at word
      cases role <;> cases word
  · obtain ⟨k, lt, hk⟩ := found hit mem
    obtain ⟨start, -, state⟩ := hitAt_spec hk
    obtain ⟨-, last, j, le, open_, -, ⟨-, listed⟩ | ⟨changes, eq, same⟩⟩ := state (negated k hit hk lt)
    · refine ⟨k, _, List.getElem?_eq_getElem lt, ?_, Or.inl ⟨j, le, open_, listed⟩⟩
      rw [start, List.getElem?_eq_getElem lt]
      rfl
    · obtain rfl : k = j := eq
      refine ⟨k, _, List.getElem?_eq_getElem lt, ?_, Or.inr ⟨changes, le, by rw [same]; rfl⟩⟩
      rw [start, List.getElem?_eq_getElem lt]
      rfl
  · by_cases below : k < (tokens u sentence).length
    · exact clean k le' below
    · rw [textAt, List.getElem?_eq_none (Nat.le_of_not_lt below)]
      decide

theorem textAt_append {a : List Tok} {k : Nat} (h : textAt a k ≠ "") (b : List Tok) :
    textAt (a ++ b) k = textAt a k := by
  rw [textAt, List.getElem?_append_left (textAt_lt h), textAt]

theorem sameAt_append {a : List Tok} {i last : Nat} (h : sameAt a i = some last) (b : List Tok) :
    sameAt (a ++ b) i = some last := by
  obtain ⟨-, lt, below, -⟩ := sameAt_spec h
  obtain ⟨v, more⟩ : ∃ v, texts (a ++ b) i 5 = texts a i 5 ++ v := by
    rw [texts, List.drop_append_of_le_length (by omega), List.take_append, List.map_append]
    exact ⟨_, rfl⟩
  unfold sameAt at h ⊢
  rw [more]
  generalize texts a i 5 = w at h ⊢
  dsimp only at h ⊢
  obtain ⟨cond, eq⟩ := Option.ite_none_right_eq_some.mp h
  simp only [Bool.and_eq_true, decide_eq_true_eq] at cond
  obtain ⟨⟨first, the_same⟩, stays⟩ := cond
  have long : (if w[1]? = some "else" then 2 else 1) + 3 ≤ w.length := by
    have length := congrArg List.length the_same
    rw [List.length_take, List.length_drop, List.length_cons, List.length_singleton] at length
    omega
  have at_ : ∀ m, m < w.length → (w ++ v)[m]? = w[m]? := fun m hm =>
    List.getElem?_append_left hm
  rw [at_ 1 (by omega)]
  generalize (if w[1]? = some "else" then 2 else 1) = j at the_same stays eq long ⊢
  have rest : ((w ++ v).drop (j + 1)).take 2 = ["the", "same"] := by
    rw [List.drop_append_of_le_length (by omega), List.take_append_of_le_length (by
      rw [List.length_drop]
      omega)]
    exact the_same
  rw [at_ 0 (by omega), at_ j (by omega), rest, first]
  exact (if_pos (by simp only [stays, decide_true, Bool.and_self])).trans eq

theorem opens_append {a : List Tok} {i : Nat} (h : opens a i = true) (b : List Tok) :
    opens (a ++ b) i = true := by
  have kept : ∀ {words : List String} {k : Nat}, words.contains "" = false →
      words.contains (textAt a k) = true → words.contains (textAt (a ++ b) k) = true := by
    intro words k none_ word
    rw [textAt_append (fun bad => by rw [bad, none_] at word; cases word)]
    exact word
  rcases opens_iff.mp h with word | ⟨not_, verb⟩ | same
  · exact opens_iff.mpr (Or.inl (kept (by decide) word))
  · have some_ : textAt a i ≠ "" := by
      rw [not_]
      decide
    exact opens_iff.mpr (Or.inr (Or.inl ⟨(textAt_append some_ b).trans not_,
      verb.imp (kept (by decide)) (kept (by decide))⟩))
  · obtain ⟨last, same⟩ := Option.isSome_iff_exists.mp same
    exact opens_iff.mpr (Or.inr (Or.inr (by rw [sameAt_append same]; rfl)))

/-- A qualifier after a statement: the role is not denied. -/
theorem not_denied {u : Unicode} {sentence : List Char} {a b : List Tok} {t : Tok} {j : Nat}
    (form : tokens u sentence = a ++ t :: b) (open_ : opens a j = true)
    (qualifier : qualifiers.contains t.text = true) : denied u sentence role = false := by
  by_contra held
  rw [Bool.not_eq_false] at held
  obtain ⟨i, denied⟩ := denied_spec held
  have still : opens (tokens u sentence) j = true := by
    rw [form]
    exact opens_append open_ _
  have first : i ≤ j := by
    by_contra later
    have none_ := denied.opener.2 j (Nat.lt_of_not_le later)
    rw [still] at none_
    cases none_
  have clean := denied.after a.length (Nat.le_trans first (Nat.le_of_lt (opens_lt open_)))
  rw [form, textAt, List.getElem?_append_right (Nat.le_refl _), Nat.sub_self] at clean
  exact absurd (qualifier.symm.trans clean) (by decide)

end hits

/-! ## The reading of a none-statement -/

/-- A none-statement is read fail-closed, by a walk that ends on every text and whose hits are in
order. -/
theorem none_statements (u : Unicode) (sentence : List Char) (role : Role) :
    (denied u sentence role = true → ∃ i, Denied u sentence role i) ∧
    (∀ a t b j, tokens u sentence = a ++ t :: b → opens a j = true →
      qualifiers.contains t.text = true → denied u sentence role = false) ∧
    (scan u sentence role).Pairwise (fun a b => a.start < b.start) ∧
    ∀ (toks : List Tok) (more : Nat),
      statements toks role (toks.length + 1 + more) (firstOpener toks) [] =
        statements toks role (toks.length + 1) (firstOpener toks) [] ∧
      (∀ first k heads, items toks role (toks.length + 1 + more) first k heads =
        items toks role (toks.length + 1) first k heads) ∧
      ∀ k, phrases toks (toks.length + more) k = phrases toks toks.length k :=
  ⟨denied_spec, fun _ _ _ _ form open_ qualifier => not_denied form open_ qualifier,
    scan_ordered u sentence role, fun toks more =>
    ⟨statements_fuel toks.length more _ _ (Nat.le_add_left _ _) (firstOpener_spec toks).1,
      fun first k heads => items_fuel toks.length more first k heads (Nat.le_add_left _ _),
      fun k => phrases_fuel toks.length more k (Nat.le_add_left _ _)⟩⟩

def asciiText : Unicode := ⟨fun _ => false, List.map Text.lowerChar, List.map Text.lowerChar, id⟩

/-- "No fees or other charges." denies fees; "No fees this year." does not. -/
theorem none_statements_fees :
    (∃ i, Denied asciiText "No fees or other charges.".toList .fees i) ∧
      denied asciiText "No fees this year.".toList .fees = false :=
  ⟨(none_statements asciiText "No fees or other charges.".toList .fees).1 (by decide +kernel),
    (none_statements asciiText "No fees this year.".toList .fees).2.1
      [⟨"no", 0, 2⟩, ⟨"fees", 3, 7⟩, ⟨"this", 8, 12⟩] ⟨"year", 13, 17⟩ [] 0 (by decide +kernel)
      (by decide +kernel) (by decide)⟩

end ProxyLoop.Negation

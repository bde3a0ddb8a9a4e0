import ProxyLoop.Lib.Cut
import ProxyLoop.Contract.Protocol

/-!
# What of a line is spoken

The strips of `clean` and the sentences of what they leave, without the search that finds them: a
lead is a word and a colon at the start, a strip at the end takes no character that ends a sentence,
and so what stands before the last break of a line is spoken whatever comes after it.
-/

namespace ProxyLoop.Text

/-! ## Strips -/

/-- No space stands at the start. -/
def Front (s : List Char) : Prop := ∀ c, s.head? = some c → isSpace c = false

/-- No space stands at the end. -/
def Back (s : List Char) : Prop := ∀ c, s.getLast? = some c → isSpace c = false

variable {s t sp : List Char}

theorem Front.lstrip (h : Front s) : lstrip s = s := by
  cases s with
  | nil => rfl
  | cons c rest => exact List.dropWhile_cons_of_neg (by simp [h c rfl])

theorem Back.rstrip (h : Back s) : rstrip s = s := by
  rw [Text.rstrip, List.rdropWhile_eq_self_iff]
  intro some_
  simp [h _ (List.getLast?_eq_some_getLast some_)]

theorem front_lstrip (s : List Char) : Front (lstrip s) := by
  intro c h
  have first := List.head?_dropWhile_not isSpace s
  rw [show (s.dropWhile isSpace).head? = some c from h] at first
  exact first

theorem back_rstrip (s : List Char) : Back (rstrip s) := by
  intro c h
  have some_ : Text.rstrip s ≠ [] := by
    rintro none_
    rw [none_] at h
    cases h
  have last := List.rdropWhile_last_not isSpace s some_
  rw [List.getLast?_eq_some_getLast some_] at h
  cases h
  rw [Bool.not_eq_true] at last
  exact last

theorem Front.of_start (h : Front t) (pre : s <+: t) : Front s := by
  obtain ⟨rest, rfl⟩ := pre
  intro c hc
  cases s with
  | nil => cases hc
  | cons x s => exact h c hc

theorem lstrip_split (s : List Char) : ∃ sp, s = sp ++ lstrip s ∧ ∀ c ∈ sp, isSpace c = true :=
  ⟨s.takeWhile isSpace, List.takeWhile_append_dropWhile.symm, fun _ => List.mem_takeWhile_imp⟩

theorem rstrip_split (s : List Char) : ∃ sp, s = rstrip s ++ sp ∧ ∀ c ∈ sp, isSpace c = true := by
  refine ⟨s.rtakeWhile isSpace, List.rdropWhile_append_rtakeWhile.symm, ?_⟩
  intro c hc
  exact List.mem_rtakeWhile_imp hc

/-- A text that ends in no space is kept. -/
theorem rstrip_append (h : Back s) (t : List Char) : rstrip (s ++ t) = s ++ rstrip t := by
  induction t using List.reverseRecOn with
  | nil => rw [List.append_nil, h.rstrip, show rstrip [] = [] from rfl, List.append_nil]
  | append_singleton t c ih =>
    rw [← List.append_assoc]
    by_cases space : isSpace c = true
    · rw [rstrip, rstrip, List.rdropWhile_concat_pos _ _ _ space,
        List.rdropWhile_concat_pos _ _ _ space]
      exact ih
    · rw [rstrip, rstrip, List.rdropWhile_concat_neg _ _ _ space,
        List.rdropWhile_concat_neg _ _ _ space, List.append_assoc]

theorem strip_eq_of_front (h : Front s) : strip s = rstrip s := by rw [strip, h.lstrip]

theorem strip_eq_self (front : Front s) (back : Back s) : strip s = s := by
  rw [strip, front.lstrip, back.rstrip]

theorem front_strip (s : List Char) : Front (strip s) := by
  obtain ⟨sp, split, -⟩ := rstrip_split (lstrip s)
  exact (front_lstrip s).of_start ⟨sp, split.symm⟩

theorem back_strip (s : List Char) : Back (strip s) := back_rstrip _

end ProxyLoop.Text

namespace ProxyLoop.Protocol

open Lib Lib.Regex
open Text (anyCase sameCase space spaces strip lstrip rstrip Front Back isSpace)

variable {b m a m' a' wd x y z text A B tail : List Char} {u : Unicode}

/-! ## What the patterns read -/

/-- No sentence ends in the text. -/
def Free (m : List Char) : Prop := ∀ c ∈ m, isStop c = false

theorem isStop_iff {c : Char} : isStop c = true ↔ c = '.' ∨ c = '!' ∨ c = '?' := by
  simp [isStop, or_assoc]

theorem Free.append (h : Free m) (h' : Free m') : Free (m ++ m') := fun c hc =>
  (List.mem_append.mp hc).elim (h c) (h' c)

theorem free_of_space (h : ∀ c ∈ m, isSpace c = true) : Free m := by
  intro c hc
  by_contra stop
  rw [Bool.not_eq_false, isStop_iff] at stop
  have space := h c hc
  rcases stop with rfl | rfl | rfl <;> cases space

theorem sameCase_stop {x c : Char} (same : sameCase x c = true) (stop : isStop c = true) :
    x = c := by
  rcases isStop_iff.mp stop with rfl | rfl | rfl <;>
    simpa [sameCase, Text.lowerChar, Text.isUpper] using same

theorem free_of_word {text : List Char} (free : (text.all fun c => !isStop c) = true)
    (h : List.Forall₂ (fun x y => sameCase x y = true) text m) : Free m := by
  induction h with
  | nil => exact fun _ bad => absurd bad List.not_mem_nil
  | cons same _ ih =>
    rw [List.all_cons, Bool.and_eq_true] at free
    intro c hc
    rcases List.mem_cons.mp hc with rfl | hc
    · by_contra stop
      rw [Bool.not_eq_false] at stop
      rw [sameCase_stop same stop, stop] at free
      cases free.1
    · exact ih free.2 c hc

def Word (text : String) (m : List Char) : Prop :=
  List.Forall₂ (fun x y => sameCase x y = true) text.toList m

theorem reads_spaces : spaces.Reads b m a ↔ ∀ c ∈ m, isSpace c = true := reads_star_set

theorem reads_slow : SLOW.Reads b m a ↔
    ∃ wd sp, m = wd ++ sp ∧ Word "@slow:" wd ∧ ∀ c ∈ sp, isSpace c = true := by
  simp only [SLOW, reads_seq, anyCase, reads_word, reads_spaces, Word]

/-- `\s*:\s*` -/
def Colon (m : List Char) : Prop :=
  ∃ sp sp', m = sp ++ ':' :: sp' ∧ (∀ c ∈ sp, isSpace c = true) ∧ ∀ c ∈ sp', isSpace c = true

theorem reads_colon {r : Regex Char} :
    (Regex.seq spaces (.seq (Text.char ':') (.seq spaces r))).Reads b m a ↔
      ∃ co m', m = co ++ m' ∧ Colon co ∧ r.Reads (co.reverse ++ b) m' a := by
  simp only [reads_seq, Text.char, reads_set, reads_spaces, Colon]
  constructor
  · rintro ⟨sp, _, rfl, space, _, _, rfl, ⟨c, rfl, colon⟩, sp', m', rfl, space', rest⟩
    obtain rfl := eq_of_beq colon
    refine ⟨sp ++ ':' :: sp', m', by simp, ⟨sp, sp', rfl, space, space'⟩, ?_⟩
    simpa using rest
  · rintro ⟨_, m', rfl, ⟨sp, sp', rfl, space, space'⟩, rest⟩
    refine ⟨sp, ':' :: (sp' ++ m'), by simp, space, [':'], sp' ++ m', rfl, ⟨':', rfl, rfl⟩, sp', m',
      rfl, space', ?_⟩
    simpa using rest

theorem reads_look_seq {p : List Char → List Char → Bool} {r : Regex Char} :
    (Regex.seq (.look p) r).Reads b m a ↔ p b (m ++ a) = true ∧ r.Reads b m a := by
  rw [reads_seq]
  constructor
  · rintro ⟨_, m, rfl, here, rest⟩
    obtain ⟨rfl, holds⟩ := reads_look.mp here
    exact ⟨holds, rest⟩
  · rintro ⟨here, rest⟩
    exact ⟨[], m, rfl, reads_look.mpr ⟨rfl, here⟩, rest⟩

theorem reads_finish : (Regex.seq .finish .eps).Reads b m a ↔ m = [] ∧ a = [] := by
  rw [Regex.finish, reads_look_seq, reads_eps, List.isEmpty_iff]
  constructor
  · rintro ⟨none_, rfl⟩
    exact ⟨rfl, none_⟩
  · rintro ⟨rfl, rfl⟩
    exact ⟨rfl, rfl⟩

theorem reads_lead : LEAD.Reads b m a ↔
    b = [] ∧ ∃ wd co, m = wd ++ co ∧ (Word "first" wd ∨ Word "then" wd) ∧ Colon co := by
  simp only [LEAD, Regex.all, List.foldr]
  rw [start, reads_look_seq, List.isEmpty_iff, reads_seq]
  refine and_congr_right fun _ => exists_congr fun wd => ?_
  simp only [reads_colon, reads_alt, reads_eps, anyCase, reads_word]
  constructor
  · rintro ⟨_, rfl, word, co, _, rfl, colon, rfl⟩
    exact ⟨co, by rw [List.append_nil], word, colon⟩
  · rintro ⟨co, rfl, word, colon⟩
    exact ⟨co, rfl, word, co, [], (List.append_nil co).symm, colon, rfl⟩

theorem reads_trailEnd : TRAIL_END.Reads b m a ↔ a = [] ∧
    ∃ wd sp, m = wd ++ sp ∧ Word "@end_call" wd ∧ ∀ c ∈ sp, isSpace c = true := by
  simp only [TRAIL_END, Regex.all, List.foldr]
  rw [reads_seq]
  simp only [reads_seq (r := spaces), reads_finish, anyCase, reads_word, reads_spaces]
  constructor
  · rintro ⟨wd, _, rfl, word, sp, _, rfl, space, rfl, rfl⟩
    exact ⟨rfl, wd, sp, by rw [List.append_nil], word, space⟩
  · rintro ⟨rfl, wd, sp, rfl, word, space⟩
    exact ⟨wd, sp, rfl, word, sp, [], (List.append_nil sp).symm, space, rfl, rfl⟩

theorem reads_trailScaffold {u : Unicode} : (TRAIL_SCAFFOLD u).Reads b m a ↔ a = [] ∧
    (b.head?.any (Text.isWord u) != m.head?.any (Text.isWord u)) = true ∧
    ∃ wd co, m = wd ++ co ∧ (Word "then" wd ∨ Word "first" wd) ∧ Colon co := by
  simp only [TRAIL_SCAFFOLD, Regex.all, List.foldr]
  rw [boundary, reads_look_seq, reads_seq]
  simp only [reads_colon, reads_finish, reads_alt, anyCase, reads_word]
  constructor
  · rintro ⟨edge, wd, _, rfl, word, co, _, rfl, colon, rfl, rfl⟩
    rw [List.append_nil] at edge
    exact ⟨rfl, edge, wd, co, by rw [List.append_nil], word, colon⟩
  · rintro ⟨rfl, edge, wd, co, rfl, word, colon⟩
    refine ⟨?_, wd, co, rfl, word, co, [], (List.append_nil co).symm, colon, rfl, rfl⟩
    rwa [List.append_nil]

theorem Colon.free (h : Colon m) : Free m := by
  obtain ⟨sp, sp', rfl, space, space'⟩ := h
  refine (free_of_space space).append fun c hc => ?_
  rcases List.mem_cons.mp hc with rfl | hc
  · rfl
  · exact free_of_space space' c hc

theorem free_of_lead_word (h : Word "first" m ∨ Word "then" m) : Free m :=
  h.elim (free_of_word (by decide)) (free_of_word (by decide))

theorem slow_free (h : SLOW.Reads b m a) : Free m := by
  obtain ⟨wd, sp, rfl, word, space⟩ := reads_slow.mp h
  exact Free.append (free_of_word (by decide) word) (free_of_space space)

theorem lead_free (h : LEAD.Reads b m a) : Free m := by
  obtain ⟨-, wd, co, rfl, word, colon⟩ := reads_lead.mp h
  exact (free_of_lead_word word).append colon.free

theorem trailEnd_free (h : TRAIL_END.Reads b m a) : Free m := by
  obtain ⟨-, wd, sp, rfl, word, space⟩ := reads_trailEnd.mp h
  exact Free.append (free_of_word (by decide) word) (free_of_space space)

theorem trailScaffold_free {u : Unicode} (h : (TRAIL_SCAFFOLD u).Reads b m a) : Free m := by
  obtain ⟨-, -, wd, co, rfl, word, colon⟩ := reads_trailScaffold.mp h
  exact (free_of_lead_word word.symm).append colon.free

/-! ## The lead -/

def afterWord : List Char → List Char → Option (List Char)
  | [], x => some x
  | _ :: _, [] => none
  | c :: text, d :: x => if sameCase c d then afterWord text x else none

def afterColon (x : List Char) : Option (List Char) :=
  match lstrip x with
  | ':' :: y => some (lstrip y)
  | _ => none

def afterLead (x : List Char) : List Char :=
  (((afterWord "first".toList x).or (afterWord "then".toList x)).bind afterColon).getD x

theorem afterWord_eq_some : afterWord text x = some y ↔
    ∃ wd, x = wd ++ y ∧ List.Forall₂ (fun c d => sameCase c d = true) text wd := by
  induction text generalizing x with
  | nil =>
    constructor
    · intro h
      cases h
      exact ⟨[], rfl, .nil⟩
    · rintro ⟨_, rfl, - | -⟩
      rfl
  | cons c text ih =>
    cases x with
    | nil =>
      refine iff_of_false (by simp [afterWord]) ?_
      rintro ⟨_, h, - | ⟨_, _⟩⟩
      cases h
    | cons d x =>
      rw [afterWord]
      constructor
      · intro h
        split at h
        · rename_i same
          obtain ⟨wd, rfl, rest⟩ := ih.mp h
          exact ⟨d :: wd, rfl, .cons same rest⟩
        · cases h
      · rintro ⟨_, h, - | ⟨same, rest⟩⟩
        injection h with hd hx
        subst hd
        rw [if_pos same]
        exact ih.mpr ⟨_, hx, rest⟩

theorem lstrip_spaces (h : ∀ c ∈ m, isSpace c = true) (x : List Char) :
    lstrip (m ++ x) = lstrip x :=
  List.dropWhile_append_of_pos h

theorem afterColon_of (h : Colon m) (x : List Char) : afterColon (m ++ x) = some (lstrip x) := by
  obtain ⟨sp, sp', rfl, space, space'⟩ := h
  have colon : lstrip (':' :: (sp' ++ x)) = ':' :: (sp' ++ x) := rfl
  rw [afterColon, List.append_assoc, lstrip_spaces space, List.cons_append, colon]
  exact congrArg some (lstrip_spaces space' x)

theorem afterColon_spec (h : afterColon x = some y) : ∃ co, x = co ++ y ∧ Colon co := by
  unfold afterColon at h
  split at h
  · rename_i z stripped
    cases h
    obtain ⟨sp, split, space⟩ := Text.lstrip_split x
    obtain ⟨sp', split', space'⟩ := Text.lstrip_split z
    refine ⟨sp ++ ':' :: sp', ?_, sp, sp', rfl, space, space'⟩
    rw [List.append_assoc, List.cons_append, ← split', ← stripped]
    exact split
  · cases h

theorem afterWord_first_of_then (h : Word "then" wd) (x : List Char) :
    afterWord "first".toList (wd ++ x) = none := by
  have word : List.Forall₂ (fun c d => sameCase c d = true) ['t', 'h', 'e', 'n'] wd := h
  obtain - | ⟨same, -⟩ := word
  rename_i d _
  show (if sameCase 'f' d then _ else none) = none
  rw [if_neg]
  intro bad
  have same : 't' = Text.lowerChar d := by simpa [sameCase] using same
  have bad : 'f' = Text.lowerChar d := by simpa [sameCase] using bad
  rw [← same] at bad
  exact absurd bad (by decide)

theorem afterLead_of (word : Word "first" wd ∨ Word "then" wd) (colon : Colon m)
    (x : List Char) : afterLead (wd ++ (m ++ x)) = lstrip x := by
  unfold afterLead
  rcases word with word | word
  · rw [afterWord_eq_some.mpr ⟨wd, rfl, word⟩, Option.some_or, Option.bind_some,
      afterColon_of colon]
    rfl
  · rw [afterWord_first_of_then word, Option.none_or, afterWord_eq_some.mpr ⟨wd, rfl, word⟩,
      Option.bind_some, afterColon_of colon]
    rfl

theorem afterLead_cases (x : List Char) :
    (afterLead x = x ∧ ∀ m a, x = m ++ a → ¬ LEAD.Reads [] m a) ∨
    ∃ m a, x = m ++ a ∧ LEAD.Reads [] m a ∧ afterLead x = lstrip a := by
  by_cases lead : ∃ m a, x = m ++ a ∧ LEAD.Reads [] m a
  · obtain ⟨m, a, rfl, reads⟩ := lead
    obtain ⟨-, wd, co, rfl, word, colon⟩ := reads_lead.mp reads
    refine .inr ⟨_, a, rfl, reads, ?_⟩
    rw [List.append_assoc]
    exact afterLead_of word colon a
  · refine .inl ⟨?_, fun m a split reads => lead ⟨m, a, split, reads⟩⟩
    unfold afterLead
    cases found : ((afterWord "first".toList x).or (afterWord "then".toList x)).bind afterColon with
    | none => rfl
    | some y =>
      obtain ⟨z, word, colon⟩ := Option.bind_eq_some_iff.mp found
      obtain ⟨co, rfl, co_⟩ := afterColon_spec colon
      refine absurd ?_ lead
      rcases Option.or_eq_some_iff.mp word with first | ⟨-, then_⟩
      · obtain ⟨wd, rfl, is_⟩ := afterWord_eq_some.mp first
        exact ⟨wd ++ co, y, (List.append_assoc ..).symm,
          reads_lead.mpr ⟨rfl, wd, co, rfl, .inl is_, co_⟩⟩
      · obtain ⟨wd, rfl, is_⟩ := afterWord_eq_some.mp then_
        exact ⟨wd ++ co, y, (List.append_assoc ..).symm,
          reads_lead.mpr ⟨rfl, wd, co, rfl, .inr is_, co_⟩⟩

theorem lstrip_lead (x : List Char) :
    lstrip (LEAD.sub (fun _ => []) x) = lstrip (afterLead x) := by
  have lead_ne {b m a : List Char} (reads : LEAD.Reads b m a) : m ≠ [] := by
    obtain ⟨-, wd, co, rfl, -, sp, sp', rfl, -⟩ := reads_lead.mp reads
    simp
  rw [sub_nil]
  have cut := cut_split (consumes_of_reads fun b a reads => lead_ne reads rfl) x
  generalize LEAD.split x = pieces at cut
  -- after the start no lead is read
  have late {b a : List Char} {ps : List (List Char)} (cut : Cut LEAD b a ps) (some_ : b ≠ []) :
      ps = [a] := by
    cases cut with
    | last => rfl
    | next _ _ head _ =>
      obtain ⟨m, _, _, reads⟩ := reads_of_ends (List.mem_of_head? head)
      obtain ⟨none_, -⟩ := reads_lead.mp reads
      simp [some_] at none_
  cases cut with
  | last passes =>
    rw [List.flatten_singleton]
    rcases afterLead_cases x with ⟨same, -⟩ | ⟨m, a, rfl, reads, -⟩
    · rw [same]
    · refine absurd reads (passes.not_reads [] _ _ ?_ (by simp))
      have := List.length_pos_iff.mpr (lead_ne reads)
      simp only [List.length_nil, List.length_append]
      omega
  | @next _ pre m rest _ _ _ moves head cut =>
    obtain ⟨m', split, _, reads⟩ := reads_of_ends (List.mem_of_head? head)
    obtain rfl : m = m' := List.append_cancel_right split
    obtain ⟨none_, wd, co, rfl, word, colon⟩ := reads_lead.mp reads
    obtain rfl : pre = [] := by simpa using none_
    rw [late cut (by simpa using moves), List.flatten_cons, List.flatten_singleton]
    simp only [List.nil_append, List.append_assoc]
    rw [afterLead_of word colon, (Text.front_lstrip rest).lstrip]

/-! ## What stands before a break is kept -/

/-- A sentence ends at the end of the text. -/
def Ended (A : List Char) : Prop := ∃ c, A.getLast? = some c ∧ isStop c = true

theorem Ended.mem (h : Ended A) : ∃ c ∈ A, isStop c = true := by
  obtain ⟨c, last, stop⟩ := h
  exact ⟨c, List.mem_of_getLast? last, stop⟩

theorem isSpace_of_stop {c : Char} (stop : isStop c = true) : isSpace c = false := by
  rcases isStop_iff.mp stop with rfl | rfl | rfl <;> rfl

theorem Ended.back (h : Ended A) : Back A := by
  obtain ⟨c, last, stop⟩ := h
  intro d hd
  rw [last] at hd
  cases hd
  exact isSpace_of_stop stop

/-- A text that no sentence ends in lies in what it begins with. -/
theorem free_inside (free : Free m) (h : m ++ a = A ++ B) (stop : ∃ c ∈ A, isStop c = true) :
    ∃ z, A = m ++ z ∧ a = z ++ B ∧ ∃ c ∈ z, isStop c = true := by
  obtain ⟨c, mem, stop⟩ := stop
  rcases List.append_eq_append_iff.mp h with ⟨z, rfl, rest⟩ | ⟨z, rfl, -⟩
  · refine ⟨z, rfl, rest, c, ?_, stop⟩
    refine (List.mem_append.mp mem).resolve_left fun bad => ?_
    rw [free c bad] at stop
    cases stop
  · rw [free c (List.mem_append_left _ mem)] at stop
    cases stop

/-- What is taken from the end of a text, and ends no sentence, leaves the sentences. -/
theorem Ended.kept (h : Ended A) (pre : A <+: y ++ tail) (free : Free tail) : A <+: y := by
  obtain ⟨rest, split⟩ := pre
  obtain ⟨c, last, stop⟩ := h
  rcases List.append_eq_append_iff.mp split with ⟨z, rfl, -⟩ | ⟨z, rfl, rest⟩
  · exact List.prefix_append _ _
  · cases z using List.reverseRecOn with
    | nil => exact ⟨[], by simp⟩
    | append_singleton z d =>
      rw [← List.append_assoc, List.getLast?_concat] at last
      cases last
      subst rest
      rw [free c (by simp)] at stop
      cases stop

theorem lstrip_append (solid : ∃ c ∈ x, isSpace c = false) (y : List Char) :
    lstrip (x ++ y) = lstrip x ++ y := by
  rw [lstrip, List.dropWhile_append, if_neg]
  · rfl
  · rw [List.isEmpty_iff, List.dropWhile_eq_nil_iff]
    intro all
    obtain ⟨c, mem, solid⟩ := solid
    rw [all c mem] at solid
    cases solid

theorem stop_lstrip (stop : ∃ c ∈ x, isStop c = true) : ∃ c ∈ lstrip x, isStop c = true := by
  obtain ⟨c, mem, stop⟩ := stop
  obtain ⟨sp, split, space⟩ := Text.lstrip_split x
  rw [split] at mem
  refine ⟨c, (List.mem_append.mp mem).resolve_left fun bad => ?_, stop⟩
  have solid := isSpace_of_stop stop
  rw [space c bad] at solid
  cases solid

def opening (x : List Char) : List Char := lstrip (afterLead x)

theorem afterLead_append (stop : ∃ c ∈ A, isStop c = true) (B : List Char) :
    afterLead (A ++ B) = afterLead A ++ B ∧ ∃ c ∈ afterLead A, isStop c = true := by
  rcases afterLead_cases A with ⟨same, none_⟩ | ⟨m, a, rfl, reads, same⟩
  · rw [same]
    refine ⟨?_, stop⟩
    rcases afterLead_cases (A ++ B) with ⟨same, -⟩ | ⟨m, a, split, reads, -⟩
    · exact same
    · obtain ⟨z, rfl, -, -⟩ := free_inside (lead_free reads) split.symm stop
      refine absurd ?_ (none_ m z rfl)
      obtain ⟨-, lead⟩ := reads_lead.mp reads
      exact reads_lead.mpr ⟨rfl, lead⟩
  · obtain ⟨z, -, rest, c, mem, is⟩ :=
      free_inside (B := []) (lead_free reads) (List.append_nil (m ++ a)).symm stop
    rw [List.append_nil] at rest
    subst rest
    obtain ⟨-, wd, co, rfl, word, colon⟩ := reads_lead.mp reads
    rw [same]
    refine ⟨?_, stop_lstrip ⟨c, mem, is⟩⟩
    simp only [List.append_assoc]
    rw [afterLead_of word colon, lstrip_append ⟨c, mem, isSpace_of_stop is⟩]

/-- The lead stands in what a text begins with. -/
theorem opening_append (stop : ∃ c ∈ A, isStop c = true) (B : List Char) :
    opening (A ++ B) = opening A ++ B := by
  obtain ⟨same, c, mem, is⟩ := afterLead_append stop B
  rw [opening, same, lstrip_append ⟨c, mem, isSpace_of_stop is⟩]
  rfl

theorem front_opening (x : List Char) : Front (opening x) := Text.front_lstrip _

theorem opening_suffix (x : List Char) : ∃ pre, x = pre ++ opening x := by
  obtain ⟨sp, split, -⟩ := Text.lstrip_split (afterLead x)
  rcases afterLead_cases x with ⟨same, -⟩ | ⟨m, a, rfl, -, same⟩
  · rw [same] at split
    exact ⟨sp, by rw [opening, same]; exact split⟩
  · obtain ⟨sp', split', -⟩ := Text.lstrip_split a
    rw [opening, same, (Text.front_lstrip a).lstrip]
    exact ⟨m ++ sp', by rw [List.append_assoc, ← split']⟩

theorem ended_opening (h : Ended A) : Ended (opening A) := by
  obtain ⟨-, c, mem, stop⟩ := afterLead_append h.mem []
  obtain ⟨d, mem, -⟩ := stop_lstrip ⟨c, mem, stop⟩
  obtain ⟨pre, split⟩ := opening_suffix A
  obtain ⟨c, last, stop⟩ := h
  have some_ : opening A ≠ [] := List.ne_nil_of_mem mem
  rw [split, List.getLast?_append_of_ne_nil _ some_] at last
  exact ⟨c, last, stop⟩

/-! ## The strips of a line -/

/-- A pattern that stands at the end, of a text in which no sentence ends. -/
def Trailing (r : Regex Char) : Prop := ∀ b m a, r.Reads b m a → a = [] ∧ m ≠ [] ∧ Free m

theorem trailing_end : Trailing TRAIL_END := by
  intro b m a reads
  obtain ⟨rfl, wd, sp, rfl, word, -⟩ := reads_trailEnd.mp reads
  refine ⟨rfl, ?_, trailEnd_free reads⟩
  obtain - | ⟨_, _⟩ := (show List.Forall₂ _ ('@' :: "end_call".toList) wd from word)
  simp

theorem trailing_scaffold : Trailing (TRAIL_SCAFFOLD u) := by
  intro b m a reads
  obtain ⟨rfl, -, wd, co, rfl, -, sp, sp', rfl, -⟩ := reads_trailScaffold.mp reads
  exact ⟨rfl, by simp, trailScaffold_free reads⟩

theorem Trailing.sub {r : Regex Char} (h : Trailing r) (x : List Char) :
    ∃ tail, x = r.sub (fun _ => []) x ++ tail ∧ Free tail := by
  have cut := cut_split (consumes_of_reads fun b a reads => (h b [] a reads).2.1 rfl) x
  rw [sub_nil]
  generalize r.split x = pieces at cut
  cases cut with
  | last => exact ⟨[], by simp, fun _ bad => absurd bad List.not_mem_nil⟩
  | @next _ pre m rest _ _ _ moves head cut =>
    obtain ⟨m', split, -, reads⟩ := reads_of_ends (List.mem_of_head? head)
    obtain rfl : m = m' := List.append_cancel_right split
    obtain ⟨none_, -, free⟩ := h _ _ _ reads
    obtain rfl : rest = [] := none_
    refine ⟨m, ?_, free⟩
    generalize hnil : ([] : List Char) = rest at cut
    cases cut with
    | last => subst hnil; simp
    | next _ moves _ _ =>
      simp only [List.nil_eq, List.append_eq_nil_iff] at hnil
      exact absurd hnil.1.2 moves

/-- A strip of a text that begins with no space takes its end, where no sentence ends. -/
theorem Trailing.strip {r : Regex Char} (h : Trailing r) (front : Front x) :
    ∃ tail, x = strip (r.sub (fun _ => []) x) ++ tail ∧ Free tail := by
  obtain ⟨tail, split, free⟩ := h.sub x
  obtain ⟨sp, split', space⟩ := Text.rstrip_split (r.sub (fun _ => []) x)
  refine ⟨sp ++ tail, ?_, (free_of_space space).append free⟩
  rw [Text.strip_eq_of_front (front.of_start ⟨tail, split.symm⟩), ← List.append_assoc, ← split']
  exact split

def unled (x : List Char) : List Char := strip (LEAD.sub (fun _ => []) (strip x))

theorem clean_fst (u : Unicode) (x : List Char) : (clean u x).1 = strip ((TRAIL_SCAFFOLD u).sub
    (fun _ => []) (strip (TRAIL_END.sub (fun _ => []) (unled x)))) := by
  simp only [clean, unled]

theorem unled_eq (front : Front x) : unled x = rstrip (opening (rstrip x)) := by
  rw [unled, Text.strip_eq_of_front front, Text.strip, lstrip_lead]
  rfl

/-- What is spoken of a part, before the strips of its end. -/
theorem clean_split (u : Unicode) (front : Front x) :
    ∃ tail, rstrip (opening (rstrip x)) = (clean u x).1 ++ tail ∧ Free tail ∧
      Back (clean u x).1 := by
  rw [clean_fst, ← unled_eq front]
  obtain ⟨tail, split, free⟩ := trailing_end.strip (x := unled x) (Text.front_strip _)
  obtain ⟨tail', split', free'⟩ := (trailing_scaffold (u := u)).strip
    (x := strip (TRAIL_END.sub (fun _ => []) (unled x))) (Text.front_strip _)
  refine ⟨tail' ++ tail, ?_, free'.append free, Text.back_strip _⟩
  rw [← List.append_assoc, ← split']
  exact split

theorem clean_nil (u : Unicode) : (clean u []).1 = [] := by
  obtain ⟨tail, split, -⟩ := clean_split (x := []) u (fun _ h => by cases h)
  have none_ : Text.rstrip (opening (Text.rstrip [])) = [] := by decide
  rw [none_] at split
  exact (List.append_eq_nil_iff.mp split.symm).1

theorem clean_of_ended (u : Unicode) (h : Ended A) (front : Front (A ++ B)) :
    ∃ D, (clean u (A ++ B)).1 = opening A ++ D ∧ D <+: B ∧ Back (opening A ++ D) := by
  obtain ⟨tail, split, free, back⟩ := clean_split u front
  rw [Text.rstrip_append h.back, opening_append h.mem, Text.rstrip_append (ended_opening h).back]
    at split
  obtain ⟨D, same⟩ := (ended_opening h).kept ⟨_, split⟩ free
  refine ⟨D, same.symm, ?_, same ▸ back⟩
  rw [← same, List.append_assoc] at split
  obtain ⟨sp, inner, -⟩ := Text.rstrip_split (rstrip B)
  obtain ⟨sp', outer, -⟩ := Text.rstrip_split B
  rw [List.append_cancel_left split] at inner
  exact ⟨tail ++ sp ++ sp', by rw [outer, inner]; simp⟩

end ProxyLoop.Protocol

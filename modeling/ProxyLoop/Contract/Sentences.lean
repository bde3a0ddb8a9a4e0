import ProxyLoop.Contract.Spoken

/-!
# The sentences of a line

The pieces of what a line speaks, without the search that cuts them, and how they stay while the
line grows: all of them but the last are sentences of every line that begins so.
-/

namespace ProxyLoop.Protocol

open Lib Lib.Regex
open Text (anyCase sameCase space spaces strip lstrip rstrip Front Back isSpace)

variable {b m a x y z s ws rest A B D B' : List Char} {ps qs : List (List Char)} {u : Unicode}

/-! ## Sentences -/

/-- No sentence ends before a space in the text. -/
def Solid (s : List Char) : Prop :=
  ∀ pre c d post, s = pre ++ c :: d :: post → isStop c = true → isSpace d = false

inductive Sentences : List Char → List (List Char) → Prop
  | one {s : List Char} (solid : Solid s) : Sentences s [s]
  | more {s ws rest : List Char} {ps : List (List Char)} (solid : Solid s) (ended : Ended s)
      (some_ : ws ≠ []) (space : ∀ c ∈ ws, isSpace c = true) (front : Front rest)
      (others : Sentences rest ps) : Sentences (s ++ ws ++ rest) (s :: ps)

theorem reads_break : BREAK.Reads b m a ↔
    b.head?.any isStop = true ∧ m ≠ [] ∧ ∀ c ∈ m, isSpace c = true := by
  rw [BREAK, behind, reads_look_seq, space, reads_plus_set]

theorem consumes_break : BREAK.Consumes :=
  consumes_of_reads fun _ _ reads => (reads_break.mp reads).2.1 rfl

theorem Solid.passes (solid : Solid s) (front : Front (s ++ rest)) (b : List Char) :
    BREAK.Passes b s rest := by
  refine passes_of fun done m after short split reads => ?_
  obtain ⟨stop, some_, space⟩ := reads_break.mp reads
  obtain ⟨d, m, rfl⟩ := List.exists_cons_of_ne_nil some_
  have first := space d (by simp)
  rcases List.eq_nil_or_concat done with rfl | ⟨done, c, rfl⟩
  · rw [front d (by rw [split]; rfl)] at first
    cases first
  · have stop : isStop c = true := by simpa using stop
    have inside : ∃ post, s = done ++ c :: d :: post := by
      have split : s ++ rest = (done ++ [c, d]) ++ (m ++ after) := by simpa using split
      rcases List.append_eq_append_iff.mp split with ⟨z, same, -⟩ | ⟨z, rfl, -⟩
      · have := congrArg List.length same
        simp only [List.length_append, List.length_cons, List.length_nil, List.length_concat]
          at this short
        have : z = [] := List.eq_nil_of_length_eq_zero (by omega)
        exact ⟨[], by simpa [this] using same.symm⟩
      · exact ⟨z, by simp⟩
    obtain ⟨post, rfl⟩ := inside
    rw [solid done c d post rfl stop] at first
    cases first

theorem Solid.of_passes (passes : BREAK.Passes b s rest) : Solid s := by
  rintro pre c d post rfl stop
  by_contra space
  rw [Bool.not_eq_false] at space
  refine passes.not_reads (pre ++ [c]) [d] (post ++ rest) (by simp)
    (by simp) (reads_break.mpr ⟨by simp [stop], by simp, ?_⟩)
  intro e he
  rw [List.mem_singleton.mp he]
  exact space

theorem break_head? (stop : b.head?.any isStop = true) (some_ : ws ≠ [])
    (space : ∀ c ∈ ws, isSpace c = true) (front : Front rest) :
    (BREAK.ends ⟨b, ws ++ rest, []⟩).head? = some ⟨ws.reverse ++ b, rest, []⟩ := by
  obtain ⟨c, ws, rfl⟩ := List.exists_cons_of_ne_nil some_
  have here : (behind isStop).ends ⟨b, c :: ws ++ rest, []⟩ = [⟨b, c :: ws ++ rest, []⟩] := by
    rw [behind, ends_look, if_pos stop]
  rw [BREAK, ends_seq, here, List.flatMap_cons, List.flatMap_nil, List.append_nil, Text.space,
    List.cons_append, plus_set_head? (space c (by simp)), ← List.cons_append]
  have none_ : rest.takeWhile isSpace = [] := by
    cases rest with
    | nil => rfl
    | cons d rest => exact List.takeWhile_cons_of_neg (by simp [front d rfl])
  rw [List.takeWhile_append_of_pos space, none_, List.append_nil,
    List.dropWhile_append_of_pos space]
  exact congrArg (fun r => some (Cursor.mk _ r [])) front.lstrip

theorem cut_of_sentences (h : Sentences z ps) (front : Front z) (b : List Char) :
    Cut BREAK b z ps := by
  induction h generalizing b with
  | one solid => exact .last (solid.passes (by rwa [List.append_nil]) b)
  | more solid ended some_ space front' _ ih =>
    rename_i s ws rest ps _
    refine .next (g := []) (solid.passes (by rwa [← List.append_assoc]) b) some_ ?_ (ih front' _)
    obtain ⟨c, last, stop⟩ := ended
    rw [break_head? ?_ some_ space front', ← List.reverse_append]
    rw [List.head?_reverse, List.getLast?_append, last]
    exact stop

theorem sentences_of_cut (h : Cut BREAK b z ps) (front : Front z) : Sentences z ps := by
  induction h with
  | last passes => exact .one (Solid.of_passes passes)
  | next passes some_ head cut ih =>
    rename_i b pre m rest g ps
    obtain ⟨m', split, -, reads⟩ := reads_of_ends (List.mem_of_head? head)
    obtain rfl : m = m' := List.append_cancel_right split
    obtain ⟨stop, -, space⟩ := reads_break.mp reads
    have ended : Ended pre := by
      rcases List.eq_nil_or_concat pre with rfl | ⟨pre, c, rfl⟩
      · obtain ⟨c, m, rfl⟩ := List.exists_cons_of_ne_nil some_
        have := front c rfl
        rw [space c (by simp)] at this
        cases this
      · exact ⟨c, by simp, by simpa using stop⟩
    have front' : Front rest := by
      obtain ⟨sp, split, space'⟩ := Text.lstrip_split rest
      have spaces : m ++ sp ≠ [] := by simp [some_]
      have greedy := break_head? stop spaces
        (fun c hc => (List.mem_append.mp hc).elim (space c) (space' c)) (Text.front_lstrip rest)
      rw [List.append_assoc, ← split, head] at greedy
      rw [show rest = lstrip rest by injection greedy with same; injection same]
      exact Text.front_lstrip rest
    exact .more (Solid.of_passes passes) ended some_ space front' (ih front')

theorem split_of_sentences (h : Sentences z ps) (front : Front z) : BREAK.split z = ps :=
  split_eq consumes_break (cut_of_sentences h front [])

theorem sentences_split (front : Front z) : Sentences z (BREAK.split z) :=
  sentences_of_cut (cut_split consumes_break z) front

theorem Ended.append (h : Ended A) (x : List Char) : Ended (x ++ A) := by
  obtain ⟨c, last, stop⟩ := h
  exact ⟨c, by rw [List.getLast?_append, last]; rfl, stop⟩

theorem Ended.tail (h : Ended (x ++ ws ++ A)) (some_ : ws ≠ [])
    (space : ∀ c ∈ ws, isSpace c = true) : A ≠ [] ∧ Ended A := by
  obtain ⟨c, last, stop⟩ := h
  rcases List.eq_nil_or_concat A with rfl | ⟨A, d, rfl⟩
  · rw [List.append_nil, List.getLast?_append_of_ne_nil _ some_] at last
    have := space c (List.mem_of_getLast? last)
    rw [isSpace_of_stop stop] at this
    cases this
  · rw [List.concat_eq_append] at last ⊢
    rw [← List.append_assoc, List.getLast?_concat] at last
    exact ⟨by simp, c, by rw [List.getLast?_concat]; exact last, stop⟩

theorem front_append (front : Front A) (some_ : A ≠ []) (B : List Char) : Front (A ++ B) := by
  obtain ⟨c, A, rfl⟩ := List.exists_cons_of_ne_nil some_
  exact fun d hd => front d hd

theorem Sentences.join (h : Sentences A ps) (ended : Ended A) (some_ : ws ≠ [])
    (space : ∀ c ∈ ws, isSpace c = true) (front : Front rest) (others : Sentences rest qs) :
    Sentences (A ++ ws ++ rest) (ps ++ qs) := by
  induction h with
  | one solid => exact .more solid ended some_ space front others
  | more solid ended' some' space' front' _ ih =>
    obtain ⟨more, last⟩ := ended.tail some' space'
    rw [List.append_assoc, List.append_assoc, ← List.append_assoc _ ws rest, List.cons_append]
    exact .more solid ended' some' space'
      (List.append_assoc .. ▸ front_append front' more (ws ++ rest)) (ih last)

theorem Sentences.unjoin (h : Sentences z (ps ++ [x])) (some_ : ps ≠ []) :
    ∃ A ws, z = A ++ ws ++ x ∧ Sentences A ps ∧ Ended A ∧ ws ≠ [] ∧
      (∀ c ∈ ws, isSpace c = true) ∧ Front x := by
  induction ps generalizing z with
  | nil => exact absurd rfl some_
  | cons p ps ih =>
    rw [List.cons_append] at h
    generalize hps : ps ++ [x] = qs at h
    cases h with
    | one => simp at hps
    | more solid ended more space front others =>
      rename_i ws rest
      subst hps
      cases ps with
      | nil =>
        generalize hlast : [] ++ [x] = qs at others
        cases others with
        | one =>
          obtain rfl : x = rest := by simpa using hlast
          exact ⟨p, ws, rfl, .one solid, ended, more, space, front⟩
        | more _ _ _ _ _ none_ =>
          obtain ⟨-, rfl⟩ := List.cons.inj hlast
          cases none_
      | cons q ps =>
        obtain ⟨A, ws', rfl, inner, ended', more', space', front'⟩ := ih others (by simp)
        refine ⟨p ++ ws ++ A, ws', by simp, .more solid ended more space ?_ inner, ?_, more',
          space',
          front'⟩
        · exact front.of_start ⟨ws' ++ x, by simp⟩
        · exact ended'.append (p ++ ws)

/-! ## A line that grows -/

theorem consumes_slow : SLOW.Consumes := by
  refine consumes_of_reads fun b a reads => ?_
  obtain ⟨wd, sp, split, word, -⟩ := reads_slow.mp reads
  obtain - | ⟨_, _⟩ := (show List.Forall₂ _ ('@' :: "slow:".toList) wd from word)
  simp at split

/-- Whether a relay starts before a sentence ends does not depend on what comes after it. -/
theorem Ended.passes_slow (h : Ended A) (passes : SLOW.Passes [] A B) (B' : List Char) :
    SLOW.Passes [] A B' := by
  refine passes_of fun done m after short split reads => ?_
  obtain ⟨A, rfl⟩ : done <+: A := List.prefix_of_prefix_length_le
    ⟨m ++ after, by rw [split, List.append_assoc]⟩ (List.prefix_append A B') (Nat.le_of_lt short)
  have stop : ∃ c ∈ A, isStop c = true := by
    obtain ⟨c, last, stop⟩ := h
    rw [List.getLast?_append_of_ne_nil _ (by rintro rfl; simp at short)] at last
    exact ⟨c, List.mem_of_getLast? last, stop⟩
  rw [List.append_assoc, List.append_assoc] at split
  obtain ⟨z, rfl, -⟩ :=
    free_inside (slow_free reads) (List.append_cancel_left split).symm stop
  refine passes.not_reads _ m (z ++ B) short (by simp) ?_
  exact reads_slow.mpr (reads_slow.mp reads)

/-- The part of a line before a relay. -/
def unrelayed (text : List Char) : List Char := (SLOW.split text).head?.getD []

def lineSentences (u : Unicode) (raw : List Char) : List (List Char) :=
  let spoken := (clean u (unrelayed (strip raw))).1
  if (strip raw).head? = some '@' then [] else
  if spoken.head? = some '@' then [] else BREAK.split spoken

theorem strip_grow (some_ : strip x ≠ []) (y : List Char) :
    ∃ z, strip (x ++ y) = strip x ++ z := by
  have solid : ∃ c ∈ x, isSpace c = false := by
    by_contra none_
    have all : ∀ c ∈ x, isSpace c = true := fun c hc => by
      by_contra bad
      exact none_ ⟨c, hc, by simpa using bad⟩
    refine some_ ?_
    rw [strip, show lstrip x = [] from List.dropWhile_eq_nil_iff.mpr all]
    rfl
  obtain ⟨sp, split, -⟩ := Text.rstrip_split (lstrip x)
  refine ⟨rstrip (sp ++ y), ?_⟩
  rw [strip, lstrip_append solid, split, List.append_assoc, Text.rstrip_append (Text.back_rstrip _)]
  rfl

theorem sentences_ne (h : Sentences z ps) : ps ≠ [] := by
  cases h <;> simp

/-- A line has the sentences `E`, then a break, then more: `A` stands before the break. -/
structure Broken (text A : List Char) (E : List (List Char)) (rest : List Char) : Prop where
  split : text = A ++ rest
  ended : Ended A
  passes : SLOW.Passes [] A rest
  sentences : Sentences (opening A) E
  line : text.head? ≠ some '@'
  speaks : (opening A).head? ≠ some '@'
  more : ∃ ws y after, rest = ws ++ y :: after ∧ ws ≠ [] ∧ (∀ c ∈ ws, isSpace c = true) ∧
    isSpace y = false

theorem head?_append (some_ : A ≠ []) (B : List Char) : (A ++ B).head? = A.head? := by
  obtain ⟨c, A, rfl⟩ := List.exists_cons_of_ne_nil some_
  rfl

theorem Ended.ne_nil (h : Ended A) : A ≠ [] := by
  rintro rfl
  obtain ⟨c, last, -⟩ := h
  cases last

theorem broken_line {raw : List Char} {E : List (List Char)}
    (hs : lineSentences u raw = E ++ [x]) (some_ : E ≠ []) :
    ∃ A rest, Broken (strip raw) A E rest := by
  unfold lineSentences at hs
  dsimp only at hs
  split at hs
  · simp at hs
  rename_i line
  split at hs
  · simp at hs
  rename_i speaks
  obtain ⟨rest, relays, passes⟩ := exists_head_split consumes_slow (strip raw)
  have front : Front (unrelayed (strip raw)) :=
    (Text.front_strip raw).of_start ⟨rest, relays.symm⟩
  obtain ⟨tail, spoken, -, back⟩ := clean_split u front
  have front' : Front (clean u (unrelayed (strip raw))).1 := by
    rw [clean_fst]
    exact Text.front_strip _
  obtain ⟨M, ws, split, inner, ended, more, space, solid⟩ :=
    (hs ▸ sentences_split front').unjoin some_
  obtain ⟨y, x, rfl⟩ : ∃ y x', x = y :: x' := by
    refine List.exists_cons_of_ne_nil ?_
    rintro rfl
    rw [List.append_nil] at split
    rw [split] at back
    obtain ⟨c, last⟩ := Option.ne_none_iff_exists'.mp (List.getLast?_eq_none_iff.not.mpr more)
    have := back c (by rw [List.getLast?_append_of_ne_nil _ more, last])
    rw [space c (List.mem_of_getLast? last)] at this
    cases this
  -- where the sentences begin in the line
  obtain ⟨sp, trimmed, -⟩ := Text.rstrip_split (unrelayed (strip raw))
  obtain ⟨sp', opened, -⟩ := Text.rstrip_split (opening (rstrip (unrelayed (strip raw))))
  obtain ⟨pre, before⟩ := opening_suffix (rstrip (unrelayed (strip raw)))
  rw [spoken, split] at opened
  have whole : rstrip (unrelayed (strip raw)) =
      (pre ++ M) ++ (ws ++ y :: x ++ tail ++ sp') := by
    rw [before, opened]
    simp
  have ended' : Ended (pre ++ M) := ended.append pre
  have same : opening (pre ++ M) = M := by
    rw [whole, opening_append ended'.mem] at opened
    exact List.append_cancel_right (opened.trans (by simp))
  refine ⟨pre ++ M, ws ++ y :: (x ++ tail ++ sp' ++ sp ++ rest), ?_, ended', ?_, ?_, line, ?_,
    ws, y, _, rfl, more, space, ?_⟩
  · rw [relays, show (SLOW.split (strip raw)).head?.getD [] = unrelayed (strip raw) from rfl]
    conv => lhs; rw [trimmed, whole]
    simp
  · have passes : SLOW.Passes [] (unrelayed (strip raw)) rest := passes
    rw [trimmed, whole, List.append_assoc] at passes
    simpa using passes.left
  · rwa [same]
  · rw [split, List.append_assoc, head?_append ended.ne_nil] at speaks
    rwa [same]
  · exact solid y rfl

theorem Broken.grow {text : List Char} {E : List (List Char)} (h : Broken text A E rest)
    (more : List Char) : Broken (text ++ more) A E (rest ++ more) where
  split := by rw [h.split, List.append_assoc]
  ended := h.ended
  passes := h.ended.passes_slow h.passes _
  sentences := h.sentences
  line := by
    have some_ : text ≠ [] := by
      rw [h.split]
      simp [h.ended.ne_nil]
    rw [head?_append some_]
    exact h.line
  speaks := h.speaks
  more := by
    obtain ⟨ws, y, after, rfl, some_, space, solid⟩ := h.more
    exact ⟨ws, y, after ++ more, by simp, some_, space, solid⟩

theorem Broken.sentences_begin {raw : List Char} {E : List (List Char)}
    (h : Broken (strip raw) A E rest) : E <+: lineSentences u raw := by
  have text := h.split
  obtain ⟨C, part⟩ := h.passes.head_split consumes_slow
  have part : unrelayed (strip raw) = A ++ C := by
    rw [text]
    exact part.symm
  obtain ⟨rest', relays, -⟩ := exists_head_split consumes_slow (strip raw)
  have relays : strip raw = unrelayed (strip raw) ++ rest' := relays
  have front : Front (A ++ C) :=
    part ▸ (Text.front_strip raw).of_start ⟨rest', relays.symm⟩
  obtain ⟨D, spoken, within, back⟩ := clean_of_ended u h.ended front
  have ended := ended_opening h.ended
  unfold lineSentences
  dsimp only
  rw [part, spoken, if_neg h.line, head?_append ended.ne_nil, if_neg h.speaks]
  have open_ : Front (opening A) := front_opening A
  -- the break, or nothing of it
  obtain ⟨ws, y, after, more, some_, space, solid⟩ := h.more
  have within : D <+: ws ++ y :: after := by
    rw [part, List.append_assoc] at relays
    rw [← more, List.append_cancel_left (h.split.symm.trans relays)]
    exact within.trans (List.prefix_append ..)
  rcases List.prefix_or_prefix_of_prefix within (List.prefix_append ws (y :: after)) with
    short | ⟨D, rfl⟩
  · obtain rfl : D = [] := by
      by_contra none_
      obtain ⟨c, last⟩ := Option.ne_none_iff_exists'.mp (List.getLast?_eq_none_iff.not.mpr none_)
      have := back c (by rw [List.getLast?_append_of_ne_nil _ none_, last])
      rw [space c (short.subset (List.mem_of_getLast? last))] at this
      cases this
    rw [List.append_nil, split_of_sentences h.sentences open_]
  · have front' : Front D := by
      refine Front.of_start (t := y :: after) (fun c hc => ?_)
        ((List.prefix_append_right_inj ws).mp within)
      cases hc
      exact solid
    rw [← List.append_assoc, split_of_sentences
      (h.sentences.join ended some_ space front' (sentences_split front'))
      (by rw [List.append_assoc]; exact front_append open_ ended.ne_nil _)]
    exact List.prefix_append ..

/-- The sentences of a line but the last stay its first sentences as the line grows. -/
theorem sentences_grow (u : Unicode) {raw raw' : List Char} (pre : raw <+: raw') :
    (lineSentences u raw).dropLast <+: lineSentences u raw' := by
  obtain ⟨more, rfl⟩ := pre
  by_cases none_ : (lineSentences u raw).dropLast = []
  · rw [none_]
    exact List.nil_prefix
  have some_ : lineSentences u raw ≠ [] := by
    intro bad
    rw [bad] at none_
    exact none_ rfl
  obtain ⟨A, rest, broken⟩ :=
    broken_line (List.dropLast_append_getLast some_).symm none_
  have some_ : strip raw ≠ [] := by
    rw [broken.split]
    simp [broken.ended.ne_nil]
  obtain ⟨z, grown⟩ := strip_grow some_ more
  exact (grown ▸ broken.grow z : Broken (strip (raw ++ more)) _ _ _).sentences_begin

end ProxyLoop.Protocol

import ProxyLoop.Lib.Lines
import ProxyLoop.Contract.Sentences

/-!
# Streaming is parsing

A parser that is fed a text in chunks has given, after each of them, the items of the lines that
have ended and the sentences of the line that has not, which are sentences of it however it goes on.
-/

namespace ProxyLoop.Protocol

open Lib Lib.Regex
open Text (anyCase sameCase space spaces strip lstrip rstrip Front Back isSpace)

variable {u : Unicode} {w : Words} {p q : StreamParser} {raw raw' : List Char}
  {E : List (List Char)}

namespace StreamParser

/-! ## A line as it is fed -/

/-- What is said of the line so far: its first sentences, whatever comes. -/
structure Told (u : Unicode) (p : StreamParser) (raw : List Char) (E : List (List Char)) :
    Prop where
  emitted : p.emitted = E.length
  some_ : ∀ s ∈ E, s ≠ []
  kept : ∀ raw', raw <+: raw' → E <+: lineSentences u raw'
  silent : (p.paused && p.pauseEndsSpeech) = true → E = []

theorem Told.start (p : StreamParser) : Told u { p with emitted := 0 } [] [] :=
  ⟨rfl, fun _ bad => absurd bad List.not_mem_nil, fun _ _ => List.nil_prefix, fun _ => rfl⟩

theorem ne_nil_of_sentences {z : List Char} {ps : List (List Char)} (h : Sentences z ps) :
    ∀ s ∈ ps.dropLast, s ≠ [] := by
  induction h with
  | one => simp
  | more _ ended _ _ _ others ih =>
    rw [List.dropLast_cons_of_ne_nil (sentences_ne others)]
    intro s hs
    rcases List.mem_cons.mp hs with rfl | hs
    · exact ended.ne_nil
    · exact ih s hs

theorem ne_nil_of_line : ∀ s ∈ (lineSentences u raw).dropLast, s ≠ [] := by
  unfold lineSentences
  dsimp only
  split
  · simp
  split
  · simp
  · refine ne_nil_of_sentences (z := (clean u (unrelayed (strip raw))).1) (sentences_split ?_)
    rw [clean_fst]
    exact Text.front_strip _

def isDirective (raw : List Char) : Bool :=
  (strip raw).head? = some '@' && (SLOW.prefix? (strip raw)).isNone

/-- The line comes after a pause that ends the speech. -/
def late (p : StreamParser) (raw : List Char) : Bool :=
  p.paused && p.pauseEndsSpeech && (strip raw).head? ≠ some '@'

/-- What follows the sentences of a line. -/
def trailer (u : Unicode) (w : Words) (lane : Lane) (raw : List Char) : List TurnItem :=
  let (spoken, cut) := clean u (unrelayed (strip raw))
  (if spoken.head? = some '@' then [.issue .strayDirective spoken]
    else if cut then [.issue .inlineDirective "@end_call".toList] else []) ++
  (SLOW.split (strip raw)).tail.flatMap fun segment => relay u w lane (strip segment)

/-- The sentences that the parser takes from a spoken line. -/
def spokenSentences (u : Unicode) (raw : List Char) : List (List Char) :=
  let spoken := (clean u (unrelayed (strip raw))).1
  if spoken.head? = some '@' then [] else BREAK.split spoken

theorem line_eq (p : StreamParser) (raw : List Char) (final : Bool) : p.line u w raw final =
    if isDirective raw then if final then p.directive (strip raw) else ([], p)
    else if p.late raw then
      if final && !(strip raw).isEmpty then ([.issue .speechAfterPause (strip raw)], p) else ([], p)
    else if !final then
      let ready := ((spokenSentences u raw).dropLast.drop p.emitted).filter (!·.isEmpty)
      (ready.flatMap (sentence u), { p with emitted := p.emitted + ready.length })
    else
      ((((spokenSentences u raw).drop p.emitted).filter (!·.isEmpty)).flatMap (sentence u) ++
        trailer u w p.lane raw, { p with emitted := 0 }) := by
  unfold StreamParser.line isDirective late spokenSentences trailer
  simp only [Bool.and_eq_true, decide_eq_true_eq, List.append_assoc]
  rfl

theorem unrelayed_of_relay {text : List Char} (h : (SLOW.prefix? text).isSome = true) :
    unrelayed text = [] := by
  have reads : ∃ m a, text = m ++ a ∧ SLOW.Reads [] m a := by
    by_contra none_
    have ends := ends_eq_nil_iff.mpr fun m a split reads => none_ ⟨m, a, split, reads⟩
    simp [prefix?, here, ends] at h
  obtain ⟨m, a, rfl, reads⟩ := reads
  obtain ⟨c, m, rfl⟩ : ∃ c m', m = c :: m' := by
    refine List.exists_cons_of_ne_nil ?_
    rintro rfl
    exact consumes_slow.not_reads _ _ reads
  obtain ⟨rest, split, passes⟩ := exists_head_split consumes_slow (c :: m ++ a)
  have split : c :: m ++ a = unrelayed (c :: m ++ a) ++ rest := split
  by_contra some_
  refine passes.not_reads [] _ _ (List.length_pos_iff.mpr some_) ?_ reads
  exact split.symm

theorem sentences_of_relay (directive : isDirective raw = false)
    (h : (strip raw).head? = some '@') :
    spokenSentences u raw = [[]] ∧ lineSentences u raw = [] := by
  have relay : (SLOW.prefix? (strip raw)).isSome = true := by
    simpa [isDirective, h, Option.isNone_iff_eq_none, Option.isSome_iff_ne_none] using directive
  constructor
  · rw [spokenSentences, unrelayed_of_relay relay, clean_nil]
    exact split_of_sentences (.one fun pre c d post bad => by simp at bad)
      (fun c hc => by cases hc)
  · rw [lineSentences]
    exact if_pos h

theorem sentences_of_line (h : (strip raw).head? ≠ some '@') :
    spokenSentences u raw = lineSentences u raw := by
  rw [spokenSentences, lineSentences]
  exact (if_neg h).symm

theorem said_of_line (directive : isDirective raw = false) (n : Nat) :
    ((spokenSentences u raw).dropLast.drop n).filter (!·.isEmpty) =
        (lineSentences u raw).dropLast.drop n ∧
      ((spokenSentences u raw).drop n).filter (!·.isEmpty) =
        ((lineSentences u raw).drop n).filter (!·.isEmpty) := by
  by_cases h : (strip raw).head? = some '@'
  · obtain ⟨spoken, line⟩ := sentences_of_relay (u := u) directive h
    rw [spoken, line]
    cases n <;> simp
  · rw [sentences_of_line h]
    refine ⟨List.filter_eq_self.mpr fun s hs => ?_, rfl⟩
    simpa using ne_nil_of_line s (List.mem_of_mem_drop hs)

theorem prefix_drop {α : Type} {E L : List α} (pre : E <+: L) :
    E ++ L.drop E.length = L := by
  obtain ⟨rest, rfl⟩ := pre
  rw [List.drop_left]

theorem dropLast_drop {α : Type} {E L : List α} (pre : E <+: L) :
    E ++ L.dropLast.drop E.length = L.dropLast ∨ E ++ L.dropLast.drop E.length = E := by
  by_cases long : E.length ≤ L.dropLast.length
  · exact .inl (prefix_drop (List.prefix_of_prefix_length_le pre (List.dropLast_prefix L) long))
  · refine .inr ?_
    rw [List.drop_of_length_le (by omega), List.append_nil]

/-- What a line that may still grow adds. -/
theorem Told.unfinished (told : Told u p raw E) (pre : raw <+: raw') :
    ∃ E', E.flatMap (sentence u) ++ (p.line u w raw' false).1 = E'.flatMap (sentence u) ∧
      (p.line u w raw' false).2 = { p with emitted := E'.length } ∧
      Told u { p with emitted := E'.length } raw' E' := by
  have same : ({ p with emitted := E.length } : StreamParser) = p := by rw [← told.emitted]
  have stays : Told u p raw' E :=
    ⟨told.emitted, told.some_, fun _ more => told.kept _ (pre.trans more), told.silent⟩
  rw [line_eq]
  split
  · exact ⟨E, by simp, by simp [same], by rwa [same]⟩
  rename_i directive
  rw [Bool.not_eq_true] at directive
  split
  · exact ⟨E, by simp, by simp [same], by rwa [same]⟩
  rename_i spoken
  rw [if_pos (show (!false) = true from rfl)]
  dsimp only
  rw [(said_of_line directive _).1, told.emitted]
  refine ⟨E ++ (lineSentences u raw').dropLast.drop E.length, by rw [List.flatMap_append],
    by simp, by simp, fun s hs => ?_, fun raw'' more => ?_, fun quiet => ?_⟩
  · rcases List.mem_append.mp hs with hs | hs
    · exact told.some_ s hs
    · exact ne_nil_of_line s (List.mem_of_mem_drop hs)
  · rcases dropLast_drop (told.kept _ pre) with all | none_
    · rw [all]
      exact sentences_grow u more
    · rw [none_]
      exact told.kept _ (pre.trans more)
  · have relay : (strip raw').head? = some '@' := by
      by_contra other
      refine spoken ?_
      rw [late]
      simp only [quiet, Bool.true_and, decide_eq_true_eq]
      exact other
    rw [told.silent quiet, (sentences_of_relay directive relay).2]
    rfl

theorem emitted_of_directive (p : StreamParser) (text : List Char) :
    (p.directive text).2.emitted = p.emitted := by
  unfold directive pause
  dsimp only
  split
  · split <;> rfl
  split
  · split
    · rfl
    split
    · split <;> rfl
    · rfl
  split
  · split <;> rfl
  · rfl

theorem Told.nothing (told : Told u p raw E) (pre : raw <+: raw')
    (silent : isDirective raw' = true ∨ p.late raw' = true) :
    E = [] ∧ ({ p with emitted := 0 } : StreamParser) = p := by
  have none_ : E = [] := by
    rcases silent with directive | late_
    · rw [isDirective, Bool.and_eq_true, decide_eq_true_eq] at directive
      have := told.kept raw' pre
      rw [lineSentences, if_pos directive.1] at this
      exact List.prefix_nil.mp this
    · rw [late, Bool.and_eq_true] at late_
      exact told.silent late_.1
  subst none_
  exact ⟨rfl, by rw [← List.length_nil (α := List Char), ← told.emitted]⟩

/-- What a line adds that has ended. -/
theorem Told.final (told : Told u p raw E) (pre : raw <+: raw') :
    E.flatMap (sentence u) ++ (p.line u w raw' true).1 =
        ({ p with emitted := 0 }.line u w raw' true).1 ∧
      (p.line u w raw' true).2 = ({ p with emitted := 0 }.line u w raw' true).2 ∧
      (p.line u w raw' true).2.emitted = 0 := by
  by_cases silent : isDirective raw' = true ∨ p.late raw' = true
  · obtain ⟨none_, same⟩ := told.nothing pre silent
    rw [same, none_]
    refine ⟨rfl, rfl, ?_⟩
    have zero : p.emitted = 0 := by rw [told.emitted, none_]; rfl
    rw [line_eq]
    split
    · exact (emitted_of_directive p _).trans zero
    · rw [if_pos (silent.resolve_left ‹_›)]
      split <;> exact zero
  · obtain ⟨directive, spoken⟩ := not_or.mp silent
    have spoken' : ¬ ({ p with emitted := 0 } : StreamParser).late raw' = true := spoken
    rw [line_eq, line_eq, if_neg directive, if_neg directive, if_neg spoken, if_neg spoken',
      if_neg (by simp), if_neg (by simp)]
    refine ⟨?_, rfl, rfl⟩
    rw [Bool.not_eq_true] at directive
    obtain ⟨rest, line⟩ := told.kept raw' pre
    rw [(said_of_line directive _).2, (said_of_line directive _).2, ← List.append_assoc,
      ← List.flatMap_append, told.emitted, ← line, List.drop_left, List.drop_zero,
      List.filter_append]
    have whole : E.filter (!·.isEmpty) = E :=
      List.filter_eq_self.mpr fun s hs => by simpa using told.some_ s hs
    rw [whole]

/-! ## A text as it is fed -/

theorem finals_append (p : StreamParser) (raws raws' : List (List Char)) :
    p.finals u w (raws ++ raws') =
      ((p.finals u w raws).1 ++ ((p.finals u w raws).2.finals u w raws').1,
      ((p.finals u w raws).2.finals u w raws').2) := by
  induction raws generalizing p with
  | nil => rfl
  | cons raw raws ih => simp [finals, ih, List.append_assoc]

/-- What the lines do not read. -/
def carry (p : StreamParser) (buf : List Char) (any closed : Bool) : StreamParser :=
  { p with buf, any, closed }

theorem directive_with (p : StreamParser) (text buf : List Char) (any closed : Bool) :
    (p.carry buf any closed).directive text =
      ((p.directive text).1, (p.directive text).2.carry buf any closed) := by
  unfold directive pause carry
  dsimp only
  split
  · split <;> rfl
  split
  · split
    · rfl
    split
    · split <;> rfl
    · rfl
  split
  · split <;> rfl
  · rfl

theorem line_with (p : StreamParser) (raw buf : List Char) (final any closed : Bool) :
    (p.carry buf any closed).line u w raw final =
      ((p.line u w raw final).1, (p.line u w raw final).2.carry buf any closed) := by
  rw [line_eq, line_eq, directive_with]
  show (if isDirective raw then _ else if p.late raw then _ else _) = _
  split
  · split <;> rfl
  split
  · split <;> rfl
  · split <;> rfl

theorem finals_with (p : StreamParser) (raws : List (List Char)) (buf : List Char)
    (any closed : Bool) :
    (p.carry buf any closed).finals u w raws =
      ((p.finals u w raws).1, (p.finals u w raws).2.carry buf any closed) := by
  induction raws generalizing p with
  | nil => rfl
  | cons raw raws ih => simp only [finals, line_with, ih]

theorem finals_emitted (h : p.emitted = 0) (raws : List (List Char)) :
    (p.finals u w raws).2.emitted = 0 := by
  induction raws generalizing p with
  | nil => exact h
  | cons raw raws ih =>
    have same : ({ p with emitted := 0 } : StreamParser) = p := by rw [← h]
    have told : Told u p [] [] := same ▸ Told.start p
    exact ih (told.final (w := w) (List.nil_prefix (l := raw))).2.2

/-- The parser after a text: its lines are said, and of the line that is not ended what stays. -/
def Fed (u : Unicode) (w : Words) (p₀ : StreamParser) (text : List Char) (items : List TurnItem)
    (p : StreamParser) : Prop :=
  ∃ E q, p₀.finals u w (lines '\n' text) = q ∧
    items = q.1 ++ E.flatMap (sentence u) ∧
    p = ({ q.2 with emitted := E.length } : StreamParser).carry (rest '\n' text)
      (items.any (!·.isIssue)) false ∧
    Told u { q.2 with emitted := E.length } (rest '\n' text) E

/-- The lines that end, of which the first has begun. -/
theorem Told.finals (told : Told u p raw E) (pre : raw <+: raw') (raws : List (List Char)) :
    E.flatMap (sentence u) ++ (p.finals u w (raw' :: raws)).1 =
        ({ p with emitted := 0 }.finals u w (raw' :: raws)).1 ∧
      (p.finals u w (raw' :: raws)).2 = ({ p with emitted := 0 }.finals u w (raw' :: raws)).2 := by
  obtain ⟨items, state, -⟩ := told.final (w := w) pre
  simp only [StreamParser.finals, ← items, state, List.append_assoc, and_self]

/-- What comes is read from the line that is not ended. -/
theorem Told.grows (told : Told u { p with emitted := E.length } raw E) (fresh : p.emitted = 0)
    (one : '\n' ∉ raw) (chunk : List Char) :
    let q := ({ p with emitted := E.length } : StreamParser).finals u w (lines '\n' (raw ++ chunk))
    let q' := p.finals u w (lines '\n' (raw ++ chunk))
    let last := q.2.line u w (rest '\n' (raw ++ chunk)) false
    ∃ E', E.flatMap (sentence u) ++ (q.1 ++ last.1) = q'.1 ++ E'.flatMap (sentence u) ∧
      last.2 = { q'.2 with emitted := E'.length } ∧
      Told u { q'.2 with emitted := E'.length } (rest '\n' (raw ++ chunk)) E' := by
  intro q q' last
  have same : ({ p with emitted := 0 } : StreamParser) = p := by rw [← fresh]
  have parts := splitOn_eq '\n' (raw ++ chunk)
  rw [splitOn_append_of_not_mem one] at parts
  obtain ⟨first, others, hc⟩ := List.exists_cons_of_ne_nil (List.splitOn_ne_nil '\n' chunk)
  rw [hc, List.modifyHead_cons] at parts
  rcases hl : lines '\n' (raw ++ chunk) with - | ⟨r, rs⟩
  · rw [hl, List.nil_append] at parts
    have grown : raw <+: rest '\n' (raw ++ chunk) := by
      rw [← (List.cons.inj parts).1]
      exact List.prefix_append ..
    obtain ⟨E', items, state, told'⟩ := told.unfinished (w := w) grown
    refine ⟨E', ?_, ?_, ?_⟩
    all_goals simp only [q, q', last, hl, StreamParser.finals, List.nil_append]
    · exact items
    · exact state
    · exact told'
  · rw [hl, List.cons_append] at parts
    have begun : raw <+: r := by
      rw [← (List.cons.inj parts).1]
      exact List.prefix_append ..
    obtain ⟨items, state⟩ := told.finals (w := w) begun rs
    rw [show ({ ({ p with emitted := E.length } : StreamParser) with emitted := 0 }) = p from same]
      at items state
    have zero : q'.2.emitted = 0 := finals_emitted fresh _
    have told' : Told u q'.2 [] [] := by
      have start := Told.start (u := u) q'.2
      rwa [show ({ q'.2 with emitted := 0 } : StreamParser) = q'.2 by rw [← zero]] at start
    obtain ⟨E', items', state', told''⟩ :=
      told'.unfinished (w := w) (List.nil_prefix (l := rest '\n' (raw ++ chunk)))
    have states : q.2 = q'.2 := by
      simp only [q, q', hl]
      exact state
    refine ⟨E', ?_, ?_, told''⟩
    · simp only [last, states]
      rw [← List.append_assoc]
      rw [show E.flatMap (sentence u) ++ q.1 = q'.1 by simp only [q, q', hl]; exact items]
      exact congrArg (q'.1 ++ ·) items'
    · simp only [last, states]
      exact state'

theorem feed_with (p : StreamParser) (buf chunk : List Char) (any : Bool) :
    let q := p.finals u w (lines '\n' (buf ++ chunk))
    let last := q.2.line u w (rest '\n' (buf ++ chunk)) false
    (p.carry buf any false).feed u w chunk = some (q.1 ++ last.1,
      last.2.carry (rest '\n' (buf ++ chunk)) (any || (q.1 ++ last.1).any (!·.isIssue)) false) := by
  intro q last
  have finals := finals_with (u := u) (w := w) p (lines '\n' (buf ++ chunk))
    (rest '\n' (buf ++ chunk)) any false
  have line := line_with (u := u) (w := w) q.2 (rest '\n' (buf ++ chunk))
    (rest '\n' (buf ++ chunk)) false any false
  have unfolded : (p.carry buf any false).feed u w chunk =
      let q := (p.carry (rest '\n' (buf ++ chunk)) any false).finals u w (lines '\n' (buf ++ chunk))
      let last := q.2.line u w (rest '\n' (buf ++ chunk)) false
      some (q.1 ++ last.1, last.2.seen (q.1 ++ last.1)) := rfl
  rw [unfolded]
  dsimp only
  rw [finals]
  dsimp only
  rw [line]
  rfl

theorem Fed.feed {p₀ : StreamParser} {text : List Char} {items : List TurnItem}
    (fresh : p₀.emitted = 0) (fed : Fed u w p₀ text items p) (chunk : List Char) :
    ∃ more p', p.feed u w chunk = some (more, p') ∧
      Fed u w p₀ (text ++ chunk) (items ++ more) p' := by
  obtain ⟨E, q, hq, rfl, rfl, told⟩ := fed
  obtain ⟨E', more, state, told'⟩ := told.grows (w := w) (hq ▸ finals_emitted fresh _)
    (not_mem_rest text) chunk
  have whole := finals_append (u := u) (w := w) p₀ (lines '\n' text)
    (lines '\n' (rest '\n' text ++ chunk))
  rw [← lines_append, hq] at whole
  refine ⟨_, _, feed_with _ _ _ _, E', _, whole, ?_, ?_, ?_⟩
  · rw [List.append_assoc, more, List.append_assoc]
  · rw [state, rest_append '\n' text chunk]
    exact congrArg (StreamParser.carry _ _ · false) List.any_append.symm
  · rw [rest_append '\n' text chunk]
    exact told'

theorem Fed.start {p₀ : StreamParser} (fresh : p₀.emitted = 0)
    (new : p₀ = p₀.carry [] false false) :
    Fed u w p₀ [] [] p₀ := by
  have same : ({ p₀ with emitted := 0 } : StreamParser) = p₀ := by rw [← fresh]
  refine ⟨[], ([], p₀), rfl, rfl, ?_, ?_⟩
  · show p₀ = ({ p₀ with emitted := 0 } : StreamParser).carry [] false false
    rw [same]
    exact new
  · exact Told.start p₀

theorem Fed.feedAll {p₀ : StreamParser} {text : List Char} {items : List TurnItem}
    (fresh : p₀.emitted = 0) (fed : Fed u w p₀ text items p) (chunks : List (List Char)) :
    ∃ more p', p.feedAll u w chunks = some (more, p') ∧
      Fed u w p₀ (text ++ chunks.flatten) (items ++ more) p' := by
  induction chunks generalizing p text items with
  | nil => exact ⟨[], p, rfl, by simpa using fed⟩
  | cons chunk chunks ih =>
    obtain ⟨more, p', first, fed'⟩ := fed.feed fresh chunk
    obtain ⟨more', p'', others, fed''⟩ := ih fed'
    refine ⟨more ++ more', p'', ?_, by simpa using fed''⟩
    simp [StreamParser.feedAll, first, others]

/-- The items of a text whose lines have all ended. -/
def batch (u : Unicode) (w : Words) (p₀ : StreamParser) (text : List Char) : List TurnItem :=
  let items := (p₀.finals u w (text.splitOn '\n')).1
  if items.any (!·.isIssue) then items else items ++ [.issue .emptyTurn []]

theorem Fed.close {p₀ : StreamParser} {text : List Char} {items : List TurnItem}
    (fresh : p₀.emitted = 0) (fed : Fed u w p₀ text items p) :
    items ++ (p.close u w).1 = batch u w p₀ text := by
  obtain ⟨E, q, hq, rfl, rfl, told⟩ := fed
  have zero : ({ q.2 with emitted := 0 } : StreamParser) = q.2 := by
    rw [← (hq ▸ finals_emitted fresh _ : q.2.emitted = 0)]
  obtain ⟨last, -, -⟩ := told.final (w := w) (List.prefix_refl _)
  rw [show ({ ({ q.2 with emitted := E.length } : StreamParser) with emitted := 0 }) = q.2
    from zero] at last
  have whole := finals_append (u := u) (w := w) p₀ (lines '\n' text) [rest '\n' text]
  rw [← splitOn_eq, hq] at whole
  have items : (p₀.finals u w (text.splitOn '\n')).1 = q.1 ++ E.flatMap (sentence u) ++
      (({ q.2 with emitted := E.length } : StreamParser).line u w (rest '\n' text) true).1 := by
    rw [whole, List.append_assoc, last]
    simp [StreamParser.finals]
  rw [batch, items]
  generalize ({ q.2 with emitted := E.length } : StreamParser) = base
  generalize q.1 ++ E.flatMap (sentence u) = before
  have closed : ((base.carry (rest '\n' text) (before.any (!·.isIssue)) false).close u w).1 =
      let line := (base.carry (rest '\n' text) (before.any (!·.isIssue)) false).line u w
        (rest '\n' text) true
      if line.2.any || line.1.any (!·.isIssue) then line.1 else line.1 ++ [.issue .emptyTurn []] :=
    rfl
  rw [closed, line_with]
  dsimp only
  rw [show ((base.line u w (rest '\n' text) true).2.carry (rest '\n' text)
    (before.any (!·.isIssue)) false).any = before.any (!·.isIssue) from rfl, ← List.any_append]
  split <;> simp

end StreamParser

theorem newParser_fresh {lane : Lane} {profile : Option String} {p : StreamParser}
    (h : newParser lane profile = some p) : p.emitted = 0 ∧ p = p.carry [] false false := by
  unfold newParser at h
  split at h
  · cases h
    exact ⟨rfl, rfl⟩
  · split at h
    · cases h
    split at h
    · cases h
    · cases h
      exact ⟨rfl, rfl⟩

/-- A text in chunks is parsed as its lines are. -/
theorem parseStream_eq (u : Unicode) (w : Words) (chunks : List (List Char)) (lane : Lane)
    (profile : Option String) : parseStream u w chunks lane profile =
      (newParser lane profile).map fun p => p.batch u w chunks.flatten := by
  rw [parseStream]
  cases new : newParser lane profile with
  | none => rfl
  | some p =>
    obtain ⟨fresh, blank⟩ := newParser_fresh new
    obtain ⟨items, p', fed, all⟩ := (StreamParser.Fed.start (u := u) (w := w) fresh blank).feedAll
      fresh chunks
    have closed := all.close fresh
    rw [List.nil_append, List.nil_append] at closed
    simp [fed, closed]

theorem parseTurn_eq (u : Unicode) (w : Words) (text : List Char) (lane : Lane)
    (profile : Option String) : parseTurn u w text lane profile =
      (newParser lane profile).map fun p => p.batch u w text := by
  have one := parseStream_eq u w [text] lane profile
  rw [List.flatten_singleton] at one
  rw [← one, parseTurn, parseStream]
  cases newParser lane profile with
  | none => rfl
  | some p =>
    simp only [StreamParser.feedAll]
    cases fed : p.feed u w text <;> simp [fed]

/-- Streaming a text, cut into any chunks, is parsing it whole; and there is a turn whenever there
is a parser of the lane. -/
theorem streaming_equals_batch (u : Unicode) (w : Words) (chunks : List (List Char)) (lane : Lane)
    (profile : Option String) :
    parseStream u w chunks lane profile = parseTurn u w chunks.flatten lane profile ∧
      (parseTurn u w chunks.flatten lane profile).isSome = (newParser lane profile).isSome := by
  rw [parseStream_eq, parseTurn_eq]
  exact ⟨rfl, Option.isSome_map⟩

def plainText : Unicode :=
  ⟨fun _ => false, List.map Text.lowerChar, List.map Text.lowerChar, id⟩

def plainWords : Words where
  lowerWord word := !word.isEmpty && word.all (fun c => Text.isLower c)

def sampleTurn : List Char :=
  "First: So. @hold on?\n@slow: fact price=30 ; speed= x\n@hold offer\nToo late.\n@end_call".toList

def sampleItems : List TurnItem :=
  [.speech "So.".toList, .issue .strayDirective "@hold on?".toList,
    .relay .fact [] [("price".toList, "30".toList), ("speed".toList, "x".toList)],
    .hold .offer, .issue .speechAfterPause "Too late.".toList, .endCall]

theorem sampleTurn_parsed :
    parseTurn plainText plainWords sampleTurn .cp (some "pl_cp_v3") = some sampleItems := by
  decide +kernel

/-- The turn, cut in its words, its directives and its line ends. -/
def cutTurn : List (List Char) :=
  ["Fir".toList, "st: So. @hold o".toList, [], "n?\n@sl".toList, "ow: fact price=3".toList,
    "0 ; speed= x\n@hold offer".toList, "\nToo late.\n@end_call".toList]

theorem streaming_equals_batch_sample :
    parseStream plainText plainWords cutTurn .cp (some "pl_cp_v3") = some sampleItems := by
  have whole : cutTurn.flatten = sampleTurn := by decide +kernel
  have streamed := (streaming_equals_batch plainText plainWords cutTurn .cp (some "pl_cp_v3")).1
  rw [whole, sampleTurn_parsed] at streamed
  exact streamed

end ProxyLoop.Protocol

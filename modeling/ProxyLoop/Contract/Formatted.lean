import ProxyLoop.Contract.Relayed

/-!
# Canonical text

The items that the parser gives are written as lines which are read as the same items: the line of
sentences may go on, and every other line stands for one item.
-/

namespace ProxyLoop.Protocol

open Lib Lib.Regex
open StreamParser (isDirective)
open Text (anyCase sameCase space spaces strip lstrip rstrip Front Back isSpace)

variable {u : Unicode} {w : Words} {p p' p₀ : StreamParser} {raw text L s : List Char}
  {raws ss : List (List Char)} {items P Q : List TurnItem} {item : TurnItem}

/-! ## Canonical items -/

def StreamParser.after (p : StreamParser) : TurnItem → StreamParser
  | .hold _ | .wait => { p with paused := true }
  | .endCall => { p with ended := true }
  | _ => p

def StreamParser.afterAll (p : StreamParser) (items : List TurnItem) : StreamParser :=
  items.foldl StreamParser.after p

/-- An item that the parser may give next, and gives again for its canonical text. -/
def ItemOk (u : Unicode) (w : Words) (p : StreamParser) : TurnItem → Prop
  | .speech s => Speakable u s ∧ Solid s ∧ (p.paused && p.pauseEndsSpeech) = false
  | .relay t text facts => RelayOk u w p.lane t text facts
  | .hold _ => p.lane = .cp ∧ p.paused = false
  | .wait => p.paused = false
  | .endCall => p.ended = false
  | .issue .. => False

def Canonical (u : Unicode) (w : Words) : StreamParser → List TurnItem → Prop
  | _, [] => True
  | p, item :: items => ItemOk u w p item ∧ Canonical u w (p.after item) items

theorem canonical_append : Canonical u w p (P ++ Q) ↔
    Canonical u w p P ∧ Canonical u w (p.afterAll P) Q := by
  induction P generalizing p with
  | nil => simp [Canonical, StreamParser.afterAll]
  | cons item P ih => simp [Canonical, ih, StreamParser.afterAll, and_assoc]

/-- Items that say something and change nothing. -/
theorem canonical_of_all (items : List TurnItem)
    (h : ∀ item ∈ items, ItemOk u w p item ∧ p.after item = p) :
    Canonical u w p items ∧ p.afterAll items = p := by
  induction items with
  | nil => exact ⟨trivial, rfl⟩
  | cons item items ih =>
    obtain ⟨ok, same⟩ := h item (by simp)
    obtain ⟨others, stays⟩ := ih fun other mem => h other (List.mem_cons_of_mem _ mem)
    refine ⟨⟨ok, by rwa [same]⟩, ?_⟩
    rw [StreamParser.afterAll, List.foldl_cons, same]
    exact stays

theorem said_append (P Q : List TurnItem) : said (P ++ Q) = said P ++ said Q :=
  List.filter_append ..

theorem said_flatMap {α : Type} (f : α → List TurnItem) (xs : List α) :
    said (xs.flatMap f) = xs.flatMap fun x => said (f x) := List.filter_flatMap ..

theorem said_sentence (u : Unicode) (s : List Char) :
    said (sentence u s) = if speakable u s then [.speech s] else [] := by
  unfold sentence
  by_cases h : speakable u s = true
  · rw [if_neg (by simp [h]), if_pos h]
    split <;> rfl
  · rw [if_pos (by simpa using h), if_neg h]
    rfl

theorem directive_canonical (p : StreamParser) (text : List Char) :
    Canonical u w p (said (p.directive text).1) ∧
      (p.directive text).2 = p.afterAll (said (p.directive text).1) := by
  have pause (item : TurnItem) (ok : p.paused = false → ItemOk u w p item)
      (plain : item.isIssue = false) (after : p.after item = { p with paused := true }) :
      Canonical u w p (said (p.pause item text).1) ∧
        (p.pause item text).2 = p.afterAll (said (p.pause item text).1) := by
    unfold StreamParser.pause
    split
    · exact ⟨trivial, rfl⟩
    · rename_i free
      rw [Bool.not_eq_true] at free
      have said_ : said [item] = [item] := by simp [said, plain]
      rw [said_]
      exact ⟨⟨ok free, trivial⟩, after.symm⟩
  unfold StreamParser.directive
  dsimp only
  split
  · split
    · exact ⟨trivial, rfl⟩
    · rename_i free
      rw [Bool.not_eq_true] at free
      exact ⟨⟨free, trivial⟩, rfl⟩
  split
  · split
    · exact ⟨trivial, rfl⟩
    rename_i lane
    rw [ne_eq, Decidable.not_not] at lane
    split
    · exact pause _ (fun free => ⟨lane, free⟩) rfl rfl
    · exact ⟨trivial, rfl⟩
  split
  · exact pause _ id rfl rfl
  · exact ⟨trivial, rfl⟩

theorem solid_of_sentences {z : List Char} {ps : List (List Char)} (h : Sentences z ps) :
    ∀ s ∈ ps, Solid s := by
  induction h with
  | one solid =>
    intro s hs
    rw [List.mem_singleton.mp hs]
    exact solid
  | more solid _ _ _ _ _ ih =>
    intro s hs
    rcases List.mem_cons.mp hs with rfl | hs
    · exact solid
    · exact ih s hs

theorem front_clean (u : Unicode) (x : List Char) : Front (clean u x).1 := by
  rw [clean_fst]
  exact Text.front_strip _

theorem noRelay_of_cut {b : List Char} {ps : List (List Char)} (h : Cut SLOW b text ps) :
    ∀ s ∈ ps, NoRelay s ∧ ∃ a c, text = a ++ s ++ c := by
  induction h with
  | last passes =>
    intro s hs
    rw [List.mem_singleton.mp hs]
    exact ⟨noRelay_of_passes passes, [], [], by simp⟩
  | @next _ pre m rest _ _ passes _ _ _ ih =>
    intro s hs
    rcases List.mem_cons.mp hs with rfl | hs
    · exact ⟨noRelay_of_passes passes, [], m ++ rest, by simp⟩
    · obtain ⟨plain, a, c, rfl⟩ := ih s hs
      exact ⟨plain, pre ++ m ++ a, c, by simp⟩

theorem strip_infix (x : List Char) : ∃ a b, x = a ++ strip x ++ b := by
  obtain ⟨a, front, -⟩ := Text.lstrip_split x
  obtain ⟨b, back, -⟩ := Text.rstrip_split (lstrip x)
  refine ⟨a, b, ?_⟩
  rw [List.append_assoc, strip, ← back]
  exact front

/-- What the sentences of a line say. -/
theorem spoken_canonical (directive : isDirective raw = false) (late : ¬p.late raw = true)
    (n : Nat) :
    ∀ item ∈ said ((((StreamParser.spokenSentences u raw).drop n).filter (!·.isEmpty)).flatMap
      (sentence u)), ItemOk u w p item ∧ p.after item = p := by
  intro item mem
  rw [said_flatMap] at mem
  obtain ⟨s, hs, mem⟩ := List.mem_flatMap.mp mem
  rw [said_sentence] at mem
  obtain ⟨speaks, mem⟩ := List.mem_ite_nil_right.mp mem
  obtain rfl := List.mem_singleton.mp mem
  obtain ⟨hs, some_⟩ := List.mem_filter.mp hs
  have hs := List.mem_of_mem_drop hs
  refine ⟨⟨speakable_iff.mp speaks, ?_, ?_⟩, rfl⟩
  · unfold StreamParser.spokenSentences at hs
    dsimp only at hs
    split at hs
    · cases hs
    · exact solid_of_sentences (sentences_split (front_clean u _)) s hs
  · by_cases relay : (strip raw).head? = some '@'
    · rw [(StreamParser.sentences_of_relay directive relay).1, List.mem_singleton] at hs
      simp [hs] at some_
    · simpa [StreamParser.late, relay] using late

theorem said_trailer (lane : Lane) (raw : List Char) : said (StreamParser.trailer u w lane raw) =
    (SLOW.split (strip raw)).tail.flatMap fun segment =>
      said (relay u w lane (strip segment)) := by
  unfold StreamParser.trailer
  generalize clean u (unrelayed (strip raw)) = spoken
  rw [← said_flatMap, said_append]
  refine congrArg (· ++ _) (?_ : said _ = [])
  split
  · rfl
  · split <;> rfl

theorem relays_canonical (one : '\n' ∉ raw) :
    ∀ item ∈ said (StreamParser.trailer u w p.lane raw),
      ItemOk u w p item ∧ p.after item = p := by
  intro item mem
  rw [said_trailer] at mem
  obtain ⟨segment, hs, mem⟩ := List.mem_flatMap.mp mem
  obtain ⟨plain, a, c, split⟩ :=
    noRelay_of_cut (cut_split consumes_slow (strip raw)) segment (List.mem_of_mem_tail hs)
  obtain ⟨b, d, within⟩ := strip_infix segment
  obtain ⟨e, f, whole⟩ := strip_infix raw
  have line : '\n' ∉ strip segment := by
    intro bad
    refine one ?_
    rw [whole, split, within]
    simp only [List.mem_append]
    tauto
  obtain ⟨t, text, facts, rfl, ok⟩ := relays_ok (Text.front_strip segment)
    (Text.back_strip segment) line (plain.part within) item mem
  exact ⟨ok, rfl⟩

theorem line_canonical (fresh : p.emitted = 0) (one : '\n' ∉ raw) :
    Canonical u w p (said (p.line u w raw true).1) ∧
      (p.line u w raw true).2 = p.afterAll (said (p.line u w raw true).1) := by
  rw [StreamParser.line_eq]
  split
  · exact directive_canonical p _
  rename_i directive
  rw [Bool.not_eq_true] at directive
  split
  · split <;> exact ⟨trivial, rfl⟩
  rename_i late
  rw [if_neg (by simp)]
  have same : ({ p with emitted := 0 } : StreamParser) = p := by rw [← fresh]
  simp only [same]
  obtain ⟨ok, stays⟩ := canonical_of_all (u := u) (w := w) (p := p)
    (said (((((StreamParser.spokenSentences u raw).drop p.emitted).filter
      (!·.isEmpty)).flatMap (sentence u)) ++ StreamParser.trailer u w p.lane raw)) (by
    intro item mem
    rw [said_append] at mem
    rcases List.mem_append.mp mem with mem | mem
    · exact spoken_canonical directive late _ item mem
    · exact relays_canonical one item mem)
  exact ⟨ok, stays.symm⟩

theorem finals_canonical (fresh : p.emitted = 0) (one : ∀ raw ∈ raws, '\n' ∉ raw) :
    Canonical u w p (said (p.finals u w raws).1) ∧
      (p.finals u w raws).2 = p.afterAll (said (p.finals u w raws).1) := by
  induction raws generalizing p with
  | nil => exact ⟨trivial, rfl⟩
  | cons raw raws ih =>
    obtain ⟨first, after⟩ := line_canonical (u := u) (w := w) fresh (one raw (by simp))
    have fresh' : (p.line u w raw true).2.emitted = 0 :=
      StreamParser.finals_emitted (u := u) (w := w) fresh [raw]
    obtain ⟨others, last⟩ := ih fresh' fun other mem => one other (List.mem_cons_of_mem _ mem)
    simp only [StreamParser.finals, said_append]
    refine ⟨canonical_append.mpr ⟨first, after ▸ others⟩, ?_⟩
    rw [last, after, StreamParser.afterAll, StreamParser.afterAll, StreamParser.afterAll,
      List.foldl_append]

/-! ## Lines as they are written -/

theorem speakable_not_directive (h : Speakable u L) : strip L = L ∧ isDirective L = false := by
  have same := Text.strip_eq_self h.front h.back
  exact ⟨same, by rw [isDirective, same]; simp [h.speech]⟩

theorem speech_line_again (h : Speakable u L) (sentences : Sentences L ss)
    (all : ∀ s ∈ ss, Speakable u s) (quiet : (p.paused && p.pauseEndsSpeech) = false)
    (fresh : p.emitted = 0) :
    p.line u w L true = (ss.flatMap (sentence u), p) := by
  obtain ⟨same, directive⟩ := speakable_not_directive h
  have spoken : StreamParser.spokenSentences u L = ss := by
    rw [StreamParser.spokenSentences, same, unrelayed, h.split, List.head?_cons, Option.getD_some,
      h.clean]
    simp only [if_neg h.speech]
    exact split_of_sentences sentences h.front
  have trailer : StreamParser.trailer u w p.lane L = [] := by
    rw [StreamParser.trailer, same, unrelayed, h.split, List.head?_cons, Option.getD_some, h.clean]
    simp [h.speech]
  have whole : ss.filter (!·.isEmpty) = ss :=
    List.filter_eq_self.mpr fun s hs => by simpa using (all s hs).some_
  rw [StreamParser.line_eq, directive, if_neg (by simp),
    if_neg (by simp [StreamParser.late, quiet]), if_neg (by simp)]
  rw [trailer, List.append_nil, spoken, fresh, List.drop_zero, whole, ← fresh]

theorem said_sentences (all : ∀ s ∈ ss, Speakable u s) :
    said (ss.flatMap (sentence u)) = ss.map .speech := by
  rw [said_flatMap, List.map_eq_flatMap]
  refine List.flatMap_congr fun s hs => ?_
  rw [said_sentence, if_pos (speakable_iff.mpr (all s hs))]

theorem NoRelay.not_reads (h : NoRelay s) {pre m post b a : List Char}
    (split : s = pre ++ m ++ post) :
    ¬ SLOW.Reads b m a := by
  intro reads
  obtain ⟨wd, sp, rfl, word, -⟩ := reads_slow.mp reads
  exact h pre wd (sp ++ post) (by simp [split]) word

theorem slow_start (a : List Char) : SLOW.Reads [] "@slow:".toList a :=
  reads_slow.mpr ⟨_, [], (List.append_nil _).symm, by repeat constructor,
    fun _ bad => absurd bad List.not_mem_nil⟩

theorem split_relay {seg : List Char} (plain : NoRelay seg) : ∃ rest,
    SLOW.split ("@slow:".toList ++ ' ' :: seg) = [[], rest] ∧ strip rest = strip seg := by
  have start := slow_start (' ' :: seg)
  have cut := cut_split consumes_slow ("@slow:".toList ++ ' ' :: seg)
  generalize SLOW.split ("@slow:".toList ++ ' ' :: seg) = pieces at cut
  generalize hraw : "@slow:".toList ++ ' ' :: seg = raw at cut
  cases cut with
  | last passes =>
    refine absurd start (passes.not_reads [] _ _ ?_ (by rw [List.append_nil]; exact hraw.symm))
    rw [← hraw]
    exact Nat.succ_pos _
  | @next _ pre m rest _ ps passes moves head cut =>
    obtain ⟨m', split, -, reads⟩ := reads_of_ends (List.mem_of_head? head)
    obtain rfl : m = m' := List.append_cancel_right split
    obtain rfl : pre = [] := by
      by_contra some_
      refine absurd start (passes.not_reads [] _ _ (List.length_pos_iff.mpr some_) ?_)
      rw [← List.append_assoc]
      exact hraw.symm
    obtain ⟨wd, sp, rfl, word, space⟩ := reads_slow.mp reads
    have long : "@slow:".toList.length = wd.length := List.Forall₂.length_eq word
    rw [List.nil_append, List.append_assoc] at hraw
    obtain ⟨-, tail⟩ := List.append_inj hraw long
    have quiet : NoRelay (' ' :: seg) := noRelay_nil.sep plain (by decide)
    have none_ : ps = [rest] := by
      have rest_ : NoRelay rest :=
        quiet.part (show ' ' :: seg = sp ++ rest ++ [] by rw [tail, List.append_nil])
      cases cut with
      | last => rfl
      | @next _ pre m rest _ _ _ _ found _ =>
        obtain ⟨m', inner, -, reads⟩ := reads_of_ends (List.mem_of_head? found)
        obtain rfl : m = m' := List.append_cancel_right inner
        exact absurd reads (rest_.not_reads rfl)
    refine ⟨rest, by rw [none_], ?_⟩
    have left := lstrip_spaces space rest
    rw [← tail] at left
    rw [strip, strip, ← left]
    rfl

theorem relay_line {t : RelayType} {facts : List (List Char × List Char)}
    (ok : RelayOk u w p.lane t text facts) (fresh : p.emitted = 0) :
    p.line u w ("@slow: ".toList ++ relayText t text facts) true =
        (relay u w p.lane (relayText t text facts), p) ∧
      '\n' ∉ "@slow: ".toList ++ relayText t text facts := by
  have plain := ok.plain
  have back := ok.back
  have one := ok.one
  have some_ := ok.some_
  have trimmed := Text.strip_eq_self ok.front ok.back
  generalize relayText t text facts = seg at *
  have raw : "@slow: ".toList ++ seg = "@slow:".toList ++ ' ' :: seg := rfl
  rw [raw]
  have same : strip ("@slow:".toList ++ ' ' :: seg) = "@slow:".toList ++ ' ' :: seg := by
    refine Text.strip_eq_self (fun c hc => by cases hc; rfl) fun c hc => ?_
    rw [List.getLast?_append_of_ne_nil _ (by simp), List.getLast?_cons_of_ne_nil some_] at hc
    exact back c hc
  have directive : isDirective ("@slow:".toList ++ ' ' :: seg) = false := by
    rw [isDirective, same, Bool.and_eq_false_iff]
    refine .inr (Bool.not_eq_true _ ▸ fun none_ => ?_)
    exact prefix?_eq_none.mp (Option.isNone_iff_eq_none.mp none_) _ _ rfl (slow_start _)
  have mark : (strip ("@slow:".toList ++ ' ' :: seg)).head? = some '@' := by
    rw [same]
    rfl
  have quiet : p.late ("@slow:".toList ++ ' ' :: seg) = false := by
    rw [StreamParser.late, mark]
    simp
  obtain ⟨rest, split, stripped⟩ := split_relay plain
  refine ⟨?_, by simp [one]⟩
  rw [StreamParser.line_eq, directive, if_neg (by simp), quiet, if_neg (by simp), if_neg (by simp),
    (StreamParser.sentences_of_relay directive mark).1, fresh]
  have same' : ({ p with emitted := 0 } : StreamParser) = p := by rw [← fresh]
  have trailer : StreamParser.trailer u w p.lane ("@slow:".toList ++ ' ' :: seg) =
      relay u w p.lane seg := by
    rw [StreamParser.trailer, same, unrelayed, split, List.head?_cons, Option.getD_some]
    have cut : (clean u []).2 = false := by
      show Decidable.decide (strip (TRAIL_END.sub (fun _ => []) (strip (LEAD.sub (fun _ => [])
        (strip [])))) ≠ strip (LEAD.sub (fun _ => []) (strip []))) = false
      decide
    dsimp only
    rw [clean_nil, cut]
    simp only [List.tail_cons, List.flatMap_cons, List.flatMap_nil, List.append_nil, stripped,
      trimmed]
    rfl
  rw [trailer, same']
  rfl

theorem directive_line {raw : List Char} (same : strip raw = raw)
    (directive : isDirective raw = true) :
    p.line u w raw true = p.directive raw := by
  rw [StreamParser.line_eq, directive, if_pos rfl, if_pos rfl, same]

theorem hold_line (reason : HoldReason) (lane : p.lane = .cp) (free : p.paused = false) :
    p.line u w ("@hold ".toList ++ (holdText reason).toList) true =
      ([.hold reason], { p with paused := true }) := by
  have hold : ∀ reason, let raw := "@hold ".toList ++ (holdText reason).toList
      strip raw = raw ∧ isDirective raw = true ∧
      Text.startsWith "@end_call".toList (raw.map Text.lowerChar) = false ∧
      StreamParser.words raw = ["@hold".toList, (holdText reason).toList] ∧
      (HOLD_REASONS.find? fun known => (holdText reason).toList = (holdText known).toList) =
        some reason := by
    intro reason
    cases reason <;> decide
  obtain ⟨same, directive, other, words, found⟩ := hold reason
  rw [directive_line same directive, StreamParser.directive,
    if_neg (by rw [other]; exact Bool.false_ne_true), words]
  dsimp only
  rw [if_pos (by rfl), if_neg (not_not.mpr lane), if_pos (by rfl)]
  simp only [List.getLast?_cons_cons, List.getLast?_singleton, Option.getD_some, found]
  rw [StreamParser.pause, free]
  rfl

theorem wait_line (free : p.paused = false) :
    p.line u w "@wait".toList true = ([.wait], { p with paused := true }) := by
  have wait : Text.startsWith "@end_call".toList ("@wait".toList.map Text.lowerChar) = false ∧
      (StreamParser.words "@wait".toList).head? ≠ some "@hold".toList := by decide
  rw [directive_line (by decide) (by decide), StreamParser.directive,
    if_neg (by rw [wait.1]; exact Bool.false_ne_true)]
  dsimp only
  rw [if_neg wait.2, if_pos rfl, StreamParser.pause, free]
  rfl

theorem end_line (free : p.ended = false) :
    p.line u w "@end_call".toList true = ([.endCall], { p with ended := true }) := by
  have ends :
      Text.startsWith "@end_call".toList ("@end_call".toList.map Text.lowerChar) = true := by
    decide
  rw [directive_line (by decide) (by decide), StreamParser.directive, if_pos ends, free]
  rfl

/-! ## The text of the items -/

theorem finals_concat (lines : List (List Char)) (raw : List Char) :
    p.finals u w (lines ++ [raw]) =
      ((p.finals u w lines).1 ++ ((p.finals u w lines).2.line u w raw true).1,
        ((p.finals u w lines).2.line u w raw true).2) := by
  rw [StreamParser.finals_append]
  simp [StreamParser.finals]

@[simp] theorem finals_nil (p : StreamParser) : p.finals u w [] = ([], p) := rfl

/-- What the canonical text of one item is read as. -/
def again (u : Unicode) (w : Words) (lane : Lane) : TurnItem → List TurnItem
  | .speech text => sentence u text
  | .relay type text facts => relay u w lane (relayText type text facts)
  | item => [item]

/-- An item that a parser gives is read as itself, and what else its text gives is issues. -/
theorem ItemOk.said (ok : ItemOk u w p item) : said (again u w p.lane item) = [item] := by
  cases item with
  | speech s => rw [again, said_sentence, if_pos (speakable_iff.mpr ok.1)]
  | relay t text facts => exact RelayOk.again ok
  | hold | wait | endCall => rfl
  | issue => exact absurd ok id

/-- The last of the lines is of sentences, and may go on. -/
def Joinable (u : Unicode) (w : Words) (p₀ : StreamParser) (lines : List (List Char))
    (Q : List TurnItem) (p : StreamParser) : Prop :=
  ∃ init L ss, lines = init ++ [L] ∧ Speakable u L ∧ Sentences L ss ∧ (∀ s ∈ ss, Speakable u s) ∧
    (p₀.finals u w init).2 = p ∧ Q = said (p₀.finals u w init).1 ++ ss.map .speech ∧
    Q.flatMap (again u w p.lane) = (p₀.finals u w init).1 ++ ss.flatMap (sentence u)

/-- The lines that are written so far are read as the items. -/
structure Written (u : Unicode) (w : Words) (p₀ : StreamParser) (lines : List (List Char))
    (joinable : Bool) (Q : List TurnItem) (p : StreamParser) : Prop where
  items : said (p₀.finals u w lines).1 = Q
  state : (p₀.finals u w lines).2 = p
  fresh : p.emitted = 0
  one : ∀ l ∈ lines, '\n' ∉ l
  last : (p₀.finals u w lines).1 = Q.flatMap (again u w p.lane) ∧
    (joinable = true → Joinable u w p₀ lines Q p)

theorem after_lane (p : StreamParser) (item : TurnItem) : (p.after item).lane = p.lane := by
  cases item <;> rfl

theorem Written.line {lines : List (List Char)} {joinable : Bool}
    (h : Written u w p₀ lines joinable Q p) (ok : ItemOk u w p item)
    (read : p.line u w raw true = (again u w p.lane item, p.after item)) (one : '\n' ∉ raw)
    (fresh : (p.after item).emitted = 0) :
    Written u w p₀ (lines ++ [raw]) false (Q ++ [item]) (p.after item) where
  items := by rw [finals_concat, said_append, h.items, h.state, read, ok.said]
  state := by rw [finals_concat, h.state, read]
  fresh := fresh
  one l hl := by
    rcases List.mem_append.mp hl with hl | hl
    · exact h.one l hl
    · rw [List.mem_singleton.mp hl]
      exact one
  last := by
    refine ⟨?_, fun bad => by cases bad⟩
    rw [finals_concat, h.state, read, h.last.1, after_lane, List.flatMap_append,
      List.flatMap_singleton]

theorem Written.sentences (p₀ : StreamParser) {init : List (List Char)} (fresh : p.emitted = 0)
    (one : ∀ l ∈ init, '\n' ∉ l) (state : (p₀.finals u w init).2 = p) (h : Speakable u L)
    (sentences : Sentences L ss) (all : ∀ s ∈ ss, Speakable u s)
    (quiet : (p.paused && p.pauseEndsSpeech) = false)
    (items : Q = said (p₀.finals u w init).1 ++ ss.map .speech)
    (again : Q.flatMap (again u w p.lane) = (p₀.finals u w init).1 ++ ss.flatMap (sentence u)) :
    Written u w p₀ (init ++ [L]) true Q p := by
  have read := speech_line_again (w := w) h sentences all quiet fresh
  refine ⟨?_, ?_, fresh, fun l hl => ?_, ?_,
    fun _ => ⟨init, L, ss, rfl, h, sentences, all, state, items, again⟩⟩
  · rw [finals_concat, said_append, state, read, said_sentences all, items]
  · rw [finals_concat, state, read]
  · rcases List.mem_append.mp hl with hl | hl
    · exact one l hl
    · rw [List.mem_singleton.mp hl]
      exact h.one
  · rw [finals_concat, state, read, again]

theorem after_emitted (p : StreamParser) (item : TurnItem) :
    (p.after item).emitted = p.emitted := by
  cases item <;> rfl

/-- The canonical text of items is read as the items. -/
theorem formatLines_written {lines : List (List Char)} {joinable : Bool}
    (h : Written u w p₀ lines joinable Q p) (canonical : Canonical u w p P) :
    ∃ lines' joinable', formatLines u lines joinable P = some lines' ∧
      Written u w p₀ lines' joinable' (Q ++ P) (p.afterAll P) := by
  induction P generalizing lines joinable Q p with
  | nil => exact ⟨lines, joinable, rfl, by simpa [StreamParser.afterAll] using h⟩
  | cons item P ih =>
    obtain ⟨ok, others⟩ := canonical
    have next {lines' : List (List Char)} {joinable' : Bool}
        (written : Written u w p₀ lines' joinable' (Q ++ [item]) (p.after item)) :
        ∃ lines'' joinable'', formatLines u lines' joinable' P = some lines'' ∧
          Written u w p₀ lines'' joinable'' (Q ++ item :: P) (p.afterAll (item :: P)) := by
      obtain ⟨lines'', joinable'', written', all⟩ := ih written others
      exact ⟨lines'', joinable'', written', by simpa [StreamParser.afterAll] using all⟩
    have fresh : (p.after item).emitted = 0 := (after_emitted p item).trans h.fresh
    cases item with
    | speech s =>
      obtain ⟨speaks, solid, quiet⟩ := ok
      rw [formatLines, if_neg (by simp [speakable_iff.mpr speaks])]
      dsimp only
      split
      · rename_i joins
        rw [Bool.and_eq_true] at joins
        obtain ⟨init, L, ss, rfl, line, sentences, all, state, items, read⟩ := h.last.2 joins.1
        have last : (init ++ [L]).getLast?.getD [] = L := by simp
        rw [last, List.dropLast_concat]
        rw [last] at joins
        have ended : Ended L := by
          rw [Option.any_eq_true] at joins
          exact joins.2
        have longer := Sentences.join sentences ended (List.cons_ne_nil ' ' [])
          (by simp [isSpace]) speaks.front (.one solid)
        rw [List.append_assoc] at longer
        refine next (.sentences p₀ h.fresh (fun l hl => h.one l (List.mem_append_left _ hl)) state
          (line.join ended speaks) longer (fun t ht => ?_) quiet ?_ ?_)
        · rcases List.mem_append.mp ht with ht | ht
          · exact all t ht
          · rw [List.mem_singleton.mp ht]
            exact speaks
        · rw [items, List.map_append, List.append_assoc]
          rfl
        · show (Q ++ [TurnItem.speech s]).flatMap (again u w p.lane) = _
          rw [List.flatMap_append, read, List.flatMap_append, List.append_assoc]
          rfl
      · refine next (.sentences p₀ h.fresh h.one h.state speaks (.one solid) (fun t ht => ?_) quiet
          ?_ ?_)
        · rw [List.mem_singleton.mp ht]
          exact speaks
        · rw [h.items]
          rfl
        · show (Q ++ [TurnItem.speech s]).flatMap (again u w p.lane) = _
          rw [List.flatMap_append, h.last.1]
          rfl
    | relay t text facts =>
      obtain ⟨read, one⟩ := relay_line (p := p) ok h.fresh
      exact next (h.line ok read one fresh)
    | hold reason =>
      refine next (h.line ok (hold_line reason ok.1 ok.2) ?_ fresh)
      cases reason <;> decide
    | wait => exact next (h.line ok (wait_line ok) (by decide) fresh)
    | endCall => exact next (h.line ok (end_line ok) (by decide) fresh)
    | issue => exact absurd ok id

/-! ## The text is a fixpoint -/

theorem said_batch (p : StreamParser) (text : List Char) :
    said (p.batch u w text) = said (p.finals u w (text.splitOn '\n')).1 := by
  unfold StreamParser.batch
  dsimp only
  split
  · rfl
  · rw [said_append]
    exact List.append_nil _

theorem finals_empty (fresh : p.emitted = 0) : said (p.finals u w [[]]).1 = [] := by
  have directive : isDirective [] = false := by decide
  have split : SLOW.split (strip []) = [[]] := by decide
  have spoken : StreamParser.spokenSentences u [] = [[]] := by
    unfold StreamParser.spokenSentences unrelayed
    rw [split, List.head?_cons, Option.getD_some, clean_nil]
    decide
  have trailer : said (StreamParser.trailer u w p.lane []) = [] := by
    rw [said_trailer, split]
    rfl
  simp only [StreamParser.finals, List.append_nil]
  rw [StreamParser.line_eq, directive, if_neg (by simp)]
  split
  · rfl
  · rw [if_neg (by simp), said_append, trailer, spoken, fresh]
    rfl

/-- The lines of a text that is written are the lines that were written. -/
theorem finals_intercalate (fresh : p.emitted = 0) {lines : List (List Char)}
    (one : ∀ l ∈ lines, '\n' ∉ l) :
    said (p.finals u w ((['\n'].intercalate lines).splitOn '\n')).1 =
      said (p.finals u w lines).1 := by
  cases lines with
  | nil => exact finals_empty fresh
  | cons l lines => rw [List.splitOn_intercalate _ one (by simp)]

/-- Format after parse is a fixpoint: what a text gives, without the issues, has a canonical text,
and that text gives it again. -/
theorem format_after_parse (u : Unicode) (w : Words) (text : List Char) (lane : Lane)
    (profile : Option String) :
    ∀ items ∈ parseTurn u w text lane profile, ∃ text' ∈ formatTurn u (said items),
      ∃ items' ∈ parseTurn u w text' lane profile, said items' = said items := by
  intro items parsed
  rw [parseTurn_eq] at parsed
  obtain ⟨p, new, rfl⟩ := Option.map_eq_some_iff.mp parsed
  obtain ⟨fresh, -⟩ := newParser_fresh new
  obtain ⟨canonical, -⟩ := finals_canonical (u := u) (w := w) fresh
    fun raw mem => not_mem_splitOn (α := Char) text raw mem
  have start : Written u w p [] false [] p := ⟨rfl, rfl, fresh, by simp, by simp⟩
  obtain ⟨lines, joinable, formatted, written⟩ := formatLines_written start canonical
  rw [List.nil_append, ← said_batch] at written
  rw [← said_batch] at formatted
  refine ⟨['\n'].intercalate lines, by rw [formatTurn, formatted]; rfl, p.batch u w _,
    by rw [parseTurn_eq, new]; rfl, ?_⟩
  rw [said_batch, finals_intercalate fresh written.one, written.items]

theorem format_after_parse_sample :
    ∃ text' ∈ formatTurn plainText (said sampleItems),
      ∃ items' ∈ parseTurn plainText plainWords text' .cp (some "pl_cp_v3"),
        said items' = said sampleItems :=
  format_after_parse plainText plainWords sampleTurn .cp (some "pl_cp_v3") sampleItems
    sampleTurn_parsed

end ProxyLoop.Protocol

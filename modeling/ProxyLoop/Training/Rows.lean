import ProxyLoop.Contract.Formatted
import ProxyLoop.Contract.Render

/-!
# Training rows

A row's prompt is the rendered view, and its completion the canonical text of a teacher's turn; a
turn with an issue is no target.  The canonical text tells no issue that the turn did not tell, so
that a target is read again as the turn it was made from.  Token ids are left out.
-/

namespace ProxyLoop.Protocol

open Lib Lib.Regex
open Text (strip)
open StreamParser (isDirective)

variable {u : Unicode} {w : Words} {p p₀ : StreamParser} {lane : Lane} {P Q : List TurnItem}
  {item : TurnItem}

/-! ## The code -/

def IM_END : List Char := "<|im_end|>".toList

def EMPTY_THINK : List Char := "<think>\n\n</think>\n\n".toList

inductive RowError
  /-- no such profile, or one of the other lane -/
  | profile
  | issues
  | fingerprint
  | render (e : Render.RenderError)
  | template
  | format
  deriving DecidableEq, Repr

/-- What a row takes from the profiles and the tokeniser. -/
structure Renderer where
  /-- `PROFILES`, as the renderer reads it -/
  profiles : String → Option Render.Profile
  /-- `fingerprint`; none, for a profile without recorded ids -/
  fingerprint : String → Option String
  /-- `tok.apply_chat_template`, of the system and the user text -/
  applyChatTemplate : String → String → List Char

def renderPrompt (r : Renderer) (view : Views.FastView) (profile : String) :
    Except RowError (List Char) :=
  match r.profiles profile with
  | none => .error .profile
  | some spec =>
    match Render.renderMessages view spec with
    | .error e => .error (.render e)
    | .ok (system, user) =>
      let text := r.applyChatTemplate system user
      if EMPTY_THINK <:+ text then .ok text else .error .template

structure Row where
  profile : String
  fingerprint : String
  prompt : List Char
  completion : List Char

def buildRow (u : Unicode) (w : Words) (r : Renderer) (view : Views.FastView) (profile : String)
    (teacherRaw : List Char) : Except RowError Row :=
  match parseTurn u w teacherRaw view.lane (some profile) with
  | none => .error .profile
  | some items =>
    if items.any (·.isIssue) then .error .issues
    else match r.fingerprint profile with
      | none => .error .fingerprint
      | some fingerprint =>
        match renderPrompt r view profile with
        | .error e => .error e
        | .ok prompt =>
          match formatTurn u items with
          | none => .error .format
          | some text => .ok { profile, fingerprint, prompt, completion := text ++ IM_END }

/-! ## The issues of an item -/

/-- An item that is not read again as itself alone is told with what it is read as. -/
def Told (u : Unicode) (w : Words) (lane : Lane) (items : List TurnItem) : Prop :=
  ∀ item ∈ items, (∃ s, item = .speech s) ∨ (∃ text, item = .relay .note text []) →
    again u w lane item ⊆ items

theorem Told.append (h : Told u w lane P) (h' : Told u w lane Q) : Told u w lane (P ++ Q) := by
  intro item mem bare
  rcases List.mem_append.mp mem with mem | mem
  · exact List.Subset.trans (h item mem bare) (List.subset_append_left ..)
  · exact List.Subset.trans (h' item mem bare) (List.subset_append_right ..)

theorem Told.flatMap {α : Type} {f : α → List TurnItem} (h : ∀ x, Told u w lane (f x))
    (xs : List α) : Told u w lane (xs.flatMap f) := by
  induction xs with
  | nil => exact fun item mem => absurd mem List.not_mem_nil
  | cons x xs ih =>
    rw [List.flatMap_cons]
    exact (h x).append ih

/-- Items that are neither spoken nor noted. -/
theorem told_of_none
    (h : ∀ item ∈ P, (∀ s, item ≠ .speech s) ∧ ∀ text, item ≠ .relay .note text []) :
    Told u w lane P := by
  rintro item mem (⟨s, rfl⟩ | ⟨text, rfl⟩)
  · exact absurd rfl ((h _ mem).1 s)
  · exact absurd rfl ((h _ mem).2 text)

theorem told_sentence (s : List Char) : Told u w lane (sentence u s) := by
  rintro item mem bare
  have from_ : item.isIssue = true ∨ item = .speech s := by
    unfold sentence at mem
    split at mem
    · exact .inl (List.mem_singleton.mp mem ▸ rfl)
    · split at mem
      · rcases List.mem_cons.mp mem with rfl | mem
        · exact .inr rfl
        · exact .inl (List.mem_singleton.mp mem ▸ rfl)
      · exact .inr (List.mem_singleton.mp mem)
  rcases bare with ⟨s', rfl⟩ | ⟨text, rfl⟩
  · obtain rfl : s' = s := by simpa [TurnItem.isIssue] using from_
    exact List.Subset.refl _
  · simp [TurnItem.isIssue] at from_

theorem told_relay (segment : List Char) : Told u w lane (relay u w lane segment) := by
  have read := read_relay u w lane segment
  generalize written : relay u w lane segment = items at read
  cases read with
  | issue reason text =>
    exact told_of_none fun item mem => by simp [List.mem_singleton.mp mem]
  | facts t more facts typed split found =>
    refine told_of_none fun item mem => ?_
    rw [List.mem_singleton.mp mem]
    rcases typed with rfl | ⟨rfl, -, -⟩ <;> simp
  | text t more typed split some_ =>
    refine told_of_none fun item mem => ?_
    rw [List.mem_singleton.mp mem]
    rcases typed with ⟨rfl | rfl, -⟩ <;> simp
  | note issues only =>
    have issue : ∀ item ∈ issues, item.isIssue = true := by simpa [said] using only
    intro item mem bare
    rcases List.mem_cons.mp mem with rfl | mem
    · show relay u w lane segment ⊆ _
      rw [written]
      exact List.Subset.refl _
    · have issue := issue item mem
      rcases bare with ⟨s, rfl⟩ | ⟨text, rfl⟩ <;> cases issue

theorem told_directive (p : StreamParser) (text : List Char) :
    Told u w lane (p.directive text).1 := by
  have pause (item : TurnItem) (plain : (∀ s, item ≠ .speech s) ∧
      ∀ text, item ≠ .relay .note text []) : Told u w lane (p.pause item text).1 := by
    unfold StreamParser.pause
    split
    · exact told_of_none fun item mem => by simp [List.mem_singleton.mp mem]
    · exact told_of_none fun item mem => by rw [List.mem_singleton.mp mem]; exact plain
  have one (item : TurnItem) (plain : (∀ s, item ≠ .speech s) ∧
      ∀ text, item ≠ .relay .note text []) : Told u w lane [item] :=
    told_of_none fun item mem => by rw [List.mem_singleton.mp mem]; exact plain
  unfold StreamParser.directive
  dsimp only
  split
  · split <;> exact one _ (by simp)
  split
  · split
    · exact one _ (by simp)
    split
    · exact pause _ (by simp)
    · exact one _ (by simp)
  split
  · exact pause _ (by simp)
  · exact one _ (by simp)

theorem told_line (p : StreamParser) (raw : List Char) :
    Told u w p.lane (p.line u w raw true).1 := by
  rw [StreamParser.line_eq]
  split
  · exact told_directive p _
  split
  · split
    · exact told_of_none fun item mem => by simp [List.mem_singleton.mp mem]
    · exact told_of_none fun item mem => absurd mem List.not_mem_nil
  rw [if_neg (by simp)]
  refine (Told.flatMap told_sentence _).append ?_
  unfold StreamParser.trailer
  dsimp only
  refine Told.append (told_of_none fun item mem => ?_) (Told.flatMap (fun _ => told_relay _) _)
  split at mem
  · simp [List.mem_singleton.mp mem]
  · split at mem
    · simp [List.mem_singleton.mp mem]
    · cases mem

theorem line_lane (p : StreamParser) (raw : List Char) : (p.line u w raw true).2.lane = p.lane := by
  have pause (item : TurnItem) (text : List Char) : (p.pause item text).2.lane = p.lane := by
    unfold StreamParser.pause
    split <;> rfl
  rw [StreamParser.line_eq]
  split
  · simp only [if_true]
    unfold StreamParser.directive
    dsimp only
    (repeat' split) <;> first | rfl | exact pause _ _
  split
  · split <;> rfl
  · rfl

theorem finals_told (raws : List (List Char)) (p : StreamParser) :
    Told u w p.lane (p.finals u w raws).1 ∧ (p.finals u w raws).2.lane = p.lane := by
  induction raws generalizing p with
  | nil => exact ⟨told_of_none fun item mem => absurd mem List.not_mem_nil, rfl⟩
  | cons raw raws ih =>
    obtain ⟨more, lane⟩ := ih (p.line u w raw true).2
    rw [line_lane] at more lane
    exact ⟨(told_line p raw).append more, lane⟩

/-! ## The canonical text -/

/-- A relay that is not a note is read again with no issue. -/
theorem relay_exact {t : RelayType} {segment text : List Char}
    {facts : List (List Char × List Char)} (typed : t ≠ .note)
    (h : said (relay u w lane segment) = [.relay t text facts]) :
    relay u w lane segment = [.relay t text facts] := by
  have read := read_relay u w lane segment
  generalize relay u w lane segment = items at read h
  cases read with
  | issue => cases h
  | note issues only =>
    rw [said, List.filter_cons_of_pos rfl] at h
    injection h with first
    injection first with same
    exact absurd same.symm typed
  | facts => exact h
  | text => exact h

theorem note_facts {segment text : List Char} {facts : List (List Char × List Char)}
    (h : said (relay u w lane segment) = [.relay .note text facts]) : facts = [] := by
  have read := read_relay u w lane segment
  generalize relay u w lane segment = items at read h
  cases read with
  | issue => cases h
  | note issues only =>
    rw [said, List.filter_cons_of_pos rfl] at h
    injection h with first
    injection first with _ _ same
    exact same.symm
  | facts t more facts typed =>
    injection h with first
    injection first with same
    subst same
    simp at typed
  | text t more typed =>
    injection h with first
    injection first with same
    subst same
    simp at typed

theorem Told.again (told : Told u w p.lane P) (mem : item ∈ P) (ok : ItemOk u w p item) :
    again u w p.lane item ⊆ P := by
  cases item with
  | speech s => exact told _ mem (.inl ⟨s, rfl⟩)
  | relay t text facts =>
    by_cases note : t = .note
    · subst note
      obtain rfl := note_facts (RelayOk.again ok)
      exact told _ mem (.inr ⟨text, rfl⟩)
    · show relay u w p.lane (relayText t text facts) ⊆ P
      rw [relay_exact note (RelayOk.again ok)]
      simpa using mem
  | hold | wait | endCall | issue => simpa [Protocol.again] using mem

theorem batch_eq (p : StreamParser) (text : List Char) :
    (said (p.finals u w (text.splitOn '\n')).1 ≠ [] →
      p.batch u w text = (p.finals u w (text.splitOn '\n')).1) ∧
    (said (p.finals u w (text.splitOn '\n')).1 = [] →
      p.batch u w text = (p.finals u w (text.splitOn '\n')).1 ++ [.issue .emptyTurn []]) := by
  have any (items : List TurnItem) : items.any (!·.isIssue) = true ↔ said items ≠ [] := by
    simp [said]
  unfold StreamParser.batch
  dsimp only
  constructor
  · intro some_
    rw [if_pos ((any _).mpr some_)]
  · intro none_
    rw [if_neg fun told => (any _).mp told none_]

theorem itemOk_of_canonical (canonical : Canonical u w p P) :
    ∀ item ∈ P, ∃ p' : StreamParser, p'.lane = p.lane ∧ ItemOk u w p' item := by
  induction P generalizing p with
  | nil => exact fun item mem => absurd mem List.not_mem_nil
  | cons first P ih =>
    intro item mem
    rcases List.mem_cons.mp mem with rfl | mem
    · exact ⟨p, rfl, canonical.1⟩
    · obtain ⟨p', lane, ok⟩ := ih canonical.2 item mem
      exact ⟨p', lane.trans (after_lane p first), ok⟩

theorem afterAll_lane (p : StreamParser) (items : List TurnItem) :
    (p.afterAll items).lane = p.lane := by
  induction items generalizing p with
  | nil => rfl
  | cons item items ih => exact (ih (p.after item)).trans (after_lane p item)

/-- The empty line tells nothing. -/
theorem finals_blank (fresh : p.emitted = 0) : (p.finals u w [[]]).1 = [] := by
  have blank : strip [] = [] := rfl
  have split : SLOW.split [] = [[]] := by decide
  have cut : (clean u []).2 = false := by
    show Decidable.decide (strip (TRAIL_END.sub (fun _ => []) (strip (LEAD.sub (fun _ => [])
      (strip [])))) ≠ strip (LEAD.sub (fun _ => []) (strip []))) = false
    decide
  have trailer : StreamParser.trailer u w p.lane [] = [] := by
    rw [StreamParser.trailer, blank, split, unrelayed, split]
    simp [clean_nil, cut]
  have spoken : StreamParser.spokenSentences u [] = [[]] := by
    rw [StreamParser.spokenSentences, blank, unrelayed, split]
    simp only [List.head?_cons, Option.getD_some, clean_nil]
    decide
  have directive : isDirective [] = false := by decide
  simp only [StreamParser.finals, List.append_nil]
  rw [StreamParser.line_eq, directive, if_neg (by simp), blank, trailer, spoken, fresh]
  split <;> rfl

/-- The canonical text of a turn tells no issue that the turn did not tell. -/
theorem format_tells_no_issue (new : newParser lane profile = some p) (text : List Char) :
    ∃ text' ∈ formatTurn u (said (p.batch u w text)),
      p.batch u w text' ⊆ p.batch u w text ∧
        said (p.batch u w text') = said (p.batch u w text) := by
  obtain ⟨fresh, -⟩ := newParser_fresh new
  obtain ⟨canonical, -⟩ := finals_canonical (u := u) (w := w) fresh
    fun raw mem => not_mem_splitOn (α := Char) text raw mem
  obtain ⟨told, -⟩ := finals_told (u := u) (w := w) (text.splitOn '\n') p
  have start : Written u w p [] false [] p := ⟨rfl, rfl, fresh, by simp, by simp⟩
  obtain ⟨lines, joinable, formatted, written⟩ := formatLines_written start canonical
  rw [List.nil_append] at written
  obtain ⟨full, empty⟩ := batch_eq (u := u) (w := w) p text
  rw [said_batch]
  refine ⟨['\n'].intercalate lines, by rw [formatTurn, formatted]; rfl, ?_, ?_⟩
  · by_cases some_ : said (p.finals u w (text.splitOn '\n')).1 = []
    · rw [some_, formatLines] at formatted
      cases formatted
      have blank : p.batch u w (['\n'].intercalate []) = [.issue .emptyTurn []] := by
        rw [StreamParser.batch]
        show (if (p.finals u w [[]]).1.any _ then _ else (p.finals u w [[]]).1 ++ _) = _
        rw [finals_blank fresh]
        rfl
      rw [blank, empty some_]
      exact List.subset_append_right ..
    · have lines_ : lines ≠ [] := by
        rintro rfl
        exact some_ written.items.symm
      have same : (['\n'].intercalate lines).splitOn '\n' = lines :=
        List.splitOn_intercalate _ written.one lines_
      have read : p.batch u w (['\n'].intercalate lines) = (p.finals u w lines).1 := by
        obtain ⟨full, -⟩ := batch_eq (u := u) (w := w) p (['\n'].intercalate lines)
        rw [same, written.items] at full
        exact full some_
      rw [read, written.last.1, full some_]
      intro item mem
      obtain ⟨source, from_, mem⟩ := List.mem_flatMap.mp mem
      obtain ⟨p', lane, ok⟩ := itemOk_of_canonical canonical source from_
      have from_ := (List.mem_filter.mp from_).1
      have lane' : (p.afterAll (said (p.finals u w (text.splitOn '\n')).1)).lane = p'.lane :=
        (afterAll_lane p _).trans lane.symm
      rw [lane'] at mem
      rw [← lane] at told
      exact told.again from_ ok mem
  · rw [said_batch, finals_intercalate fresh written.one, written.items]

theorem said_eq_self (plain : P.any (·.isIssue) = false) : said P = P :=
  List.filter_eq_self.mpr fun item mem => by
    simpa using List.any_eq_false.mp plain item mem

/-- A turn without issues has a canonical text, which is read again as it. -/
theorem target_spec {profile : Option String} {raw : List Char} {items : List TurnItem}
    (parsed : parseTurn u w raw lane profile = some items)
    (plain : items.any (·.isIssue) = false) :
    ∃ text, formatTurn u items = some text ∧ parseTurn u w text lane profile = some items := by
  rw [parseTurn_eq] at parsed
  simp only [parseTurn_eq]
  cases new : newParser lane profile with
  | none =>
    rw [new] at parsed
    cases parsed
  | some p =>
    rw [new] at parsed
    obtain rfl : p.batch u w raw = items := Option.some.inj parsed
    obtain ⟨text, formatted, only, same⟩ := format_tells_no_issue (u := u) (w := w) new raw
    have plain' : (p.batch u w text).any (·.isIssue) = false :=
      List.any_eq_false.mpr fun item mem => List.any_eq_false.mp plain item (only mem)
    rw [said_eq_self plain] at formatted same
    rw [said_eq_self plain'] at same
    exact ⟨text, formatted, congrArg some same⟩

/-- A row is made of each turn that is read without issues, where its profile has a fingerprint and
its view a prompt, and of no other; its completion is read again as that turn, and gives the same
row. -/
theorem row_is_the_turn (u : Unicode) (w : Words) (r : Renderer) (view : Views.FastView)
    (profile : String) (teacherRaw : List Char) :
    ((∃ row, buildRow u w r view profile teacherRaw = .ok row) ↔
      (∃ items, parseTurn u w teacherRaw view.lane (some profile) = some items ∧
        items.any (·.isIssue) = false) ∧
      (r.fingerprint profile).isSome = true ∧ ∃ prompt, renderPrompt r view profile = .ok prompt) ∧
    ∀ row, buildRow u w r view profile teacherRaw = .ok row →
      row.profile = profile ∧ r.fingerprint profile = some row.fingerprint ∧
      renderPrompt r view profile = .ok row.prompt ∧ ∃ text, row.completion = text ++ IM_END ∧
        parseTurn u w text view.lane (some profile) =
          parseTurn u w teacherRaw view.lane (some profile) ∧
        buildRow u w r view profile text = .ok row := by
  cases parsed : parseTurn u w teacherRaw view.lane (some profile) with
  | none => simp [buildRow, parsed]
  | some items =>
    cases plain : items.any (·.isIssue) with
    | true =>
      have refused : buildRow u w r view profile teacherRaw = .error .issues := by
        simp [buildRow, parsed, plain]
      rw [refused]
      refine ⟨⟨nofun, ?_⟩, nofun⟩
      rintro ⟨⟨items', same, plain'⟩, -⟩
      rw [← Option.some.inj same, plain] at plain'
      cases plain'
    | false =>
      obtain ⟨text, formatted, again⟩ := target_spec parsed plain
      cases print : r.fingerprint profile with
      | none => simp [buildRow, parsed, plain, print]
      | some fingerprint =>
        cases rendered : renderPrompt r view profile with
        | error e => simp [buildRow, parsed, plain, print, rendered]
        | ok prompt =>
          have made (raw : List Char)
              (same : parseTurn u w raw view.lane (some profile) = some items) :
              buildRow u w r view profile raw =
                .ok ⟨profile, fingerprint, prompt, text ++ IM_END⟩ := by
            simp [buildRow, same, plain, print, rendered, formatted]
          rw [made teacherRaw parsed]
          refine ⟨⟨fun _ => ⟨⟨items, rfl, plain⟩, rfl, prompt, rfl⟩, fun _ => ⟨_, rfl⟩⟩,
            fun row is_ => ?_⟩
          obtain rfl := Except.ok.inj is_
          exact ⟨rfl, rfl, rfl, text, rfl, again, made text again⟩

def teacherTurn : List Char :=
  "So: it is 30. Right?\n@slow: fact price=30 ; fee= 5\n@hold offer".toList

def sampleView : Views.FastView where
  lane := .cp
  brief := "Lower the bill."
  publicSummary := ""
  offers := []
  status := .inCall
  transcript := []
  trigger := Views.repSpoke

def sampleSpec : Render.Profile where
  name := "pl_cp_v1"
  lane := .cp
  system := "You are the voice of an AI assistant."
  sections := [("BRIEF", .brief), ("TRIGGER", .trigger)]
  labels := ("REP", "AGENT")
  triggers := fun _ => some "Respond."

def sampleRenderer : Renderer where
  profiles name := if name = "pl_cp_v1" then some sampleSpec else none
  fingerprint name := if name = "pl_cp_v1" then some "a0981c11" else none
  applyChatTemplate system user :=
    ("<|im_start|>system\n" ++ system ++ "<|im_end|>\n<|im_start|>user\n" ++ user ++
      "<|im_end|>\n<|im_start|>assistant\n").toList ++ EMPTY_THINK

def rowCompletion : List Char :=
  "So: it is 30. Right?\n@slow: fact price=30; fee=5\n@hold offer<|im_end|>".toList

theorem teacherTurn_row :
    ((buildRow plainText plainWords sampleRenderer sampleView "pl_cp_v1" teacherTurn).toOption.map
      Row.completion) = some rowCompletion := by
  decide +kernel

/-- The turn makes a row; no view of a profile of the other lane has one. -/
theorem row_is_the_turn_sample :
    (∃ row, buildRow plainText plainWords sampleRenderer sampleView "pl_cp_v1" teacherTurn =
        .ok row ∧ row.completion = rowCompletion ∧
      ∃ text, row.completion = text ++ IM_END ∧
        buildRow plainText plainWords sampleRenderer sampleView "pl_cp_v1" text = .ok row) ∧
    ¬ ∃ row, buildRow plainText plainWords { sampleRenderer with profiles := fun _ => none }
      sampleView "pl_cp_v1" teacherTurn = .ok row := by
  constructor
  · have made := teacherTurn_row
    cases row : buildRow plainText plainWords sampleRenderer sampleView "pl_cp_v1" teacherTurn with
    | error e =>
      rw [row] at made
      cases made
    | ok row' =>
      rw [row] at made
      obtain ⟨-, -, -, text, completion, -, again⟩ := (row_is_the_turn _ _ _ _ _ _).2 row' row
      exact ⟨row', rfl, Option.some.inj made, text, completion, again⟩
  · rw [(row_is_the_turn _ _ _ _ _ _).1]
    rintro ⟨-, -, prompt, rendered⟩
    cases rendered

end ProxyLoop.Protocol

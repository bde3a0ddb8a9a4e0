import ProxyLoop.Contract.Formatted
import ProxyLoop.Evidence.Chain
import ProxyLoop.Lib.Trace

/-!
# What a chain without failures says

Each delivered line has a source of its own: an occurrence of a Speech item in the re-parse of the
response that its turn's call recorded, or a released line.  The books of the check (the sources
used, the calls that back a turn, what is left of each turn) carry the invariant from which this
follows; events may come in any order, cite what they like and hold any values.
-/

namespace ProxyLoop.Chain

open Lib (Dict)
open Protocol (TurnItem Words PROFILES parseTurn)

variable {V : Type} {v : Values V} {events : List (Event V)} {u : Unicode} {w : Words}
  {prompts : Dict String PromptRecord} {real : Bool} {e : Event V} {books books' : Books V}

/-! ## The specification -/

/-- A turn follows from its one request and the one successful attempt of its own call. -/
structure Follows (v : Values V) (events : List (Event V)) (u : Unicode) (w : Words)
    (prompts : Dict String PromptRecord) (e : Event V) (turn : FastTurn V) (call : LLMCallRecord V)
    (items : List TurnItem) : Prop where
  attempt : Chain.call v events e turn = some call
  named : turn.callId = v.text call.callId
  follows : ∃ lane cause request response, cited events e Payload.request? = [(cause, request)] ∧
    turn.lane = v.text (laneText lane) ∧ call.role.text = "fast_" ++ laneText lane ∧
    request.lane = turn.lane ∧ v.eq request.genId turn.genId = true ∧
    v.eq request.modelRef call.modelRef = true ∧ request.promptSha = v.text call.promptSha ∧
    prompts.get? (call.responseSha.getD "") = some response ∧
    (∃ known ∈ PROFILES, known.name = v.str request.profile ∧ known.lane = lane) ∧
    parseTurn u w response.content.toList lane (some (v.str request.profile)) = some items
  items : v.validate turn.items = some items

/-- The text that was heard: the generated text or, interrupted, its start. -/
def Heard (v : Values V) (p : Delivered V) (text : V) : Prop :=
  v.eq p.textGenerated text = true ∧
    (v.eq p.textHeard p.textGenerated = true ∨ v.truthy p.interrupted = true ∧
      ∃ heard, p.textHeard = v.text heard ∧
        heard.toList <+: (v.str p.textGenerated).toList)

/-- What backs a delivered line: the `n`-th occurrence of a text among a turn's Speech items, or a
line of Guard's. -/
inductive Source
  | speech (turnId text : String) (n : Nat)
  | line (eventId : String)
  deriving DecidableEq

inductive Backs (v : Values V) (events : List (Event V)) (u : Unicode) (w : Words)
    (prompts : Dict String PromptRecord) (real : Bool) (e : Event V) (p : Delivered V) :
    Source → Prop
  | speech {cause turn : Event V} {s : FastSentence V} {t : FastTurn V} {call : LLMCallRecord V}
      {items : List TurnItem} {n : Nat}
      (cites : (cause, s) ∈ cited events e Payload.sentence?)
      (of_ : (turn, t) ∈ cited events cause Payload.turn?)
      (along : v.eq s.uttId p.uttId = true ∧ v.eq s.lane p.lane = true ∧ s.lane = t.lane ∧
        v.eq s.genId t.genId = true)
      (follows : Follows v events u w prompts turn t call items)
      (adapter : real = true → call.adapterKind = .realHttp)
      (nth : n < (speech items).count (v.str s.text)) (heard : Heard v p s.text) :
      Backs v events u w prompts real e p (.speech turn.eventId (v.str s.text) n)
  | line {cause line : Event V} {r : Released V} {verbatim : Verbatim V}
      (cites : (cause, r) ∈ cited events e Payload.released?)
      (of_ : (line, verbatim) ∈ cited events cause Payload.verbatim?)
      (lane : v.eq verbatim.lane p.lane = true) (heard : Heard v p verbatim.text) :
      Backs v events u w prompts real e p (.line line.eventId)

/-- A release carries the capability of each accept line it cites, and no other. -/
def Carries (v : Values V) (events : List (Event V)) (e : Event V) (p : Released V) : Prop :=
  let accepts := ((cited events e Payload.verbatim?).map Prod.snd).filter fun line =>
    v.eq line.kind (v.text "accept")
  (p.capId.isSome = true → accepts ≠ []) ∧
    ∀ line ∈ accepts, ∃ cap held, p.capId = some cap ∧ line.capId = some held ∧ v.eq cap held = true

/-! ## One event -/

theorem mem_cited {β : Type} {type : Payload V → Option β} {cause : Event V} {b : β}
    (h : (cause, b) ∈ cited events e type) : cause ∈ events ∧ type cause.payload = some b ∧
      byId events cause.eventId = some cause := by
  obtain ⟨c, -, found⟩ := List.mem_filterMap.mp h
  obtain ⟨cause', own, same⟩ := Option.bind_eq_some_iff.mp found
  obtain ⟨b', typed, same⟩ := Option.map_eq_some_iff.mp same
  obtain ⟨rfl, rfl⟩ := Prod.mk.inj same
  have mem := List.mem_of_getLast? own
  obtain ⟨mem, id⟩ := List.mem_filter.mp mem
  have id : cause'.eventId = c := of_decide_eq_true id
  exact ⟨mem, typed, id ▸ own⟩

theorem call_spec {turn : FastTurn V} {call : LLMCallRecord V}
    (h : Chain.call v events e turn = some call) : turn.callId = v.text call.callId := by
  unfold Chain.call at h
  dsimp only at h
  split at h
  · rename_i c one
    cases h
    have mem : call ∈ [call] := List.mem_singleton.mpr rfl
    rw [← one] at mem
    have named := (List.mem_filter.mp mem).2
    rw [Bool.and_eq_true] at named
    exact (v.text_eq _ _).mp named.1
  · cases h

theorem lane?_spec {lane : V} {l : Lane} (h : lane? v lane = some l) :
    lane = v.text (laneText l) := by
  unfold lane? at h
  split at h
  · rename_i same
    cases h
    exact (v.eq_text _ _).mp same
  · split at h
    · rename_i same
      cases h
      exact (v.eq_text _ _).mp same
    · cases h

theorem follows_of_turnReason {turn : FastTurn V}
    (h : turnReason v events u w prompts e turn = none) :
    ∃ call items, Follows v events u w prompts e turn call items := by
  unfold turnReason at h
  split at h
  · rename_i call cause request attempt asked
    split at h
    · cases h
    rename_i lane spoken
    split at h
    · cases h
    rename_i role
    split at h
    · cases h
    rename_i same
    split at h
    · cases h
    rename_i model
    split at h
    · cases h
    rename_i response recorded
    dsimp only at h
    split at h
    · cases h
    rename_i profile
    split at h
    · rename_i parsed
      obtain ⟨items, found, parsed⟩ := (Option.any_eq_true _ _).mp parsed
      have lane := lane?_spec spoken
      simp only [Bool.not_eq_true', Bool.not_eq_false, Bool.and_eq_true] at same model profile
      rw [lane] at same
      obtain ⟨known, mem, named⟩ := List.any_eq_true.mp profile
      rw [Bool.and_eq_true] at named
      refine ⟨call, items, attempt, call_spec attempt,
        ⟨_, cause, request, response, asked, lane, not_not.mp role, ?_, same.2, model.1,
          (v.eq_text _ _).mp model.2, recorded,
          ⟨known, mem, of_decide_eq_true named.1, of_decide_eq_true named.2⟩, found⟩,
        v.validate_dump _ _ parsed⟩
      rw [lane]
      exact (v.eq_text _ _).mp same.1
    · cases h
  · cases h

theorem carries_of_releaseReason {p : Released V} (h : releaseReason v events e p = none) :
    Carries v events e p := by
  unfold releaseReason at h
  unfold Carries
  dsimp only at h ⊢
  generalize ((cited events e Payload.verbatim?).map Prod.snd).filter
    (fun line => v.eq line.kind (v.text "accept")) = accepts at h ⊢
  split at h
  · cases h
  rename_i some_
  refine ⟨fun cap none_ => some_ (by simp [cap, none_]), fun line mem => ?_⟩
  have ok := List.findSome?_eq_none_iff.mp h line mem
  split at ok
  · cases ok
  rename_i held found
  split at ok
  · rename_i carried
    obtain ⟨cap, named, same⟩ := (Option.any_eq_true _ _).mp carried
    exact ⟨cap, held, named, found, same⟩
  · cases ok

/-! ## The books -/

/-- What a delivery draws on, before its turn is known to follow from a call. -/
inductive Draws (v : Values V) (events : List (Event V)) (real : Bool) (e : Event V)
    (p : Delivered V) : Source → Prop
  | speech {cause turn : Event V} {s : FastSentence V} {t : FastTurn V} {items : List TurnItem}
      {n : Nat} (cites : (cause, s) ∈ cited events e Payload.sentence?)
      (of_ : (turn, t) ∈ cited events cause Payload.turn?)
      (along : v.eq s.uttId p.uttId = true ∧ v.eq s.lane p.lane = true ∧ v.eq s.lane t.lane = true ∧
        v.eq s.genId t.genId = true)
      (validated : v.validate t.items = some items)
      (adapter : real = true → (call v events turn t).any (·.adapterKind = .realHttp) = true)
      (nth : n < (speech items).count (v.str s.text)) (heard : Heard v p s.text) :
      Draws v events real e p (.speech turn.eventId (v.str s.text) n)
  | line {cause line : Event V} {r : Released V} {verbatim : Verbatim V}
      (cites : (cause, r) ∈ cited events e Payload.released?)
      (of_ : (line, verbatim) ∈ cited events cause Payload.verbatim?)
      (lane : v.eq verbatim.lane p.lane = true) (heard : Heard v p verbatim.text) :
      Draws v events real e p (.line line.eventId)

def total (v : Values V) (events : List (Event V)) (turnId : String) : String → Int :=
  (((byId events turnId).bind (·.payload.turn?)).bind fun t => v.validate t.items).elim
    (fun _ => 0) fun items => counter (speech items)

def leftOf (v : Values V) (events : List (Event V)) (left : Left) (turnId : String) :
    String → Int :=
  (left.get? turnId).getD (total v events turnId)

/-- The books account for the sources that deliveries were given. -/
structure Accounts (v : Values V) (events : List (Event V)) (books : Books V)
    (sources : List Source) : Prop where
  distinct : sources.Nodup
  drawn : ∀ id text (n : Nat), .speech id text n ∈ sources →
    (n : Int) < total v events id text - leftOf v events books.left id text
  lines : ∀ id, .line id ∈ sources → id ∈ books.used
  bounds : ∀ id text, 0 ≤ leftOf v events books.left id text ∧
    leftOf v events books.left id text ≤ total v events id text

theorem total_nonneg (v : Values V) (events : List (Event V)) (id text : String) :
    0 ≤ total v events id text := by
  unfold total
  cases ((byId events id).bind (·.payload.turn?)).bind fun t => v.validate t.items with
  | none => exact Int.le_refl 0
  | some items => exact Int.natCast_nonneg _

theorem accounts_start : Accounts v events {} [] where
  distinct := List.nodup_nil
  drawn _ _ _ mem := absurd mem List.not_mem_nil
  lines _ mem := absurd mem List.not_mem_nil
  bounds id text := ⟨total_nonneg v events id text, Int.le_refl _⟩

/-- Taking one text of a turn leaves the others. -/
theorem leftOf_set (left : Left) (turnId text id text' : String) (n : Int) :
    leftOf v events (left.set turnId (Function.update (leftOf v events left turnId) text n)) id
      text' = if id = turnId ∧ text' = text then n else leftOf v events left id text' := by
  rw [leftOf, Dict.get?_set]
  by_cases own : id = turnId
  · subst own
    by_cases same : text' = text
    · subst same
      simp
    · simp [same, Function.update_of_ne]
  · simp [own, leftOf]

theorem sentence_ok {p : Delivered V} {cause : Event V} {s : FastSentence V} {left left' : Left}
    {text : V} {source : String}
    (h : sentence v events real p cause s left = (.ok (text, source), left')) :
    text = s.text ∧ ∃ turn t items, (turn, t) ∈ cited events cause Payload.turn? ∧
      (v.eq s.uttId p.uttId = true ∧ v.eq s.lane p.lane = true ∧ v.eq s.lane t.lane = true ∧
        v.eq s.genId t.genId = true) ∧ v.validate t.items = some items ∧
      (real = true → (call v events turn t).any (·.adapterKind = .realHttp) = true) ∧
      total v events turn.eventId = counter (speech items) ∧
      1 ≤ leftOf v events left turn.eventId (v.str s.text) ∧
      left' = left.set turn.eventId (Function.update (leftOf v events left turn.eventId)
        (v.str s.text) (leftOf v events left turn.eventId (v.str s.text) - 1)) := by
  unfold sentence at h
  split at h
  · cases h
  rename_i turn t more first
  have of_ : (turn, t) ∈ cited events cause Payload.turn? := by simp [first]
  split at h
  · cases h
  rename_i along
  split at h
  · cases h
  rename_i items validated
  split at h
  · cases h
  rename_i adapter
  dsimp only at h
  split at h
  · cases h
  rename_i some_
  obtain ⟨same, rfl⟩ := Prod.mk.inj h
  obtain ⟨rfl, rfl⟩ := Prod.mk.inj (Except.ok.inj same)
  obtain ⟨-, typed, own⟩ := mem_cited of_
  have whole : total v events turn.eventId = counter (speech items) := by
    simp [total, own, typed, validated]
  have count : (left.get? turn.eventId).getD (counter (speech items)) =
      leftOf v events left turn.eventId := by rw [leftOf, whole]
  rw [count] at some_ ⊢
  refine ⟨rfl, turn, t, items, of_, by simpa [and_assoc] using along, validated, fun http => ?_,
    whole, by omega, rfl⟩
  simpa [http] using adapter

theorem generated_ok {p : Delivered V} {left left' : Left} {text : V} {source : String}
    (h : generated v events real e p left = (.ok (text, source), left')) :
    (∃ cause s, (cause, s) ∈ cited events e Payload.sentence? ∧
      sentence v events real p cause s left = (.ok (text, source), left')) ∨
    (left' = left ∧ ∃ cause r line verbatim, (cause, r) ∈ cited events e Payload.released? ∧
      (line, verbatim) ∈ cited events cause Payload.verbatim? ∧
      v.eq verbatim.lane p.lane = true ∧ text = verbatim.text ∧ source = line.eventId) := by
  unfold generated at h
  split at h
  · rename_i cause s more first
    exact .inl ⟨cause, s, by simp [first], h⟩
  · dsimp only at h
    split at h
    · rename_i line verbatim more first
      split at h
      · cases h
      rename_i lane
      obtain ⟨same, rfl⟩ := Prod.mk.inj h
      obtain ⟨rfl, rfl⟩ := Prod.mk.inj (Except.ok.inj same)
      have mem := List.mem_cons_self (a := (line, verbatim)) (l := more)
      rw [← first] at mem
      obtain ⟨⟨cause, r⟩, cites, of_⟩ := List.mem_flatMap.mp mem
      exact .inr ⟨rfl, cause, r, line, verbatim, cites, of_, by simpa using lane, rfl, rfl⟩
    · cases h

theorem heard_of {p : Delivered V} {text : V} (same : v.eq p.textGenerated text = true)
    (cut : ¬ (!v.eq p.textHeard p.textGenerated &&
      !((v.truthy p.interrupted && (v.text? p.textHeard).isSome) &&
        (v.str p.textHeard).toList.isPrefixOf (v.str p.textGenerated).toList)) = true) :
    Heard v p text := by
  refine ⟨same, ?_⟩
  by_cases whole : v.eq p.textHeard p.textGenerated = true
  · exact .inl whole
  · simp only [whole, Bool.not_false, Bool.true_and, Bool.not_eq_true', Bool.not_eq_false,
      Bool.and_eq_true] at cut
    obtain ⟨⟨interrupted, words⟩, pre⟩ := cut
    obtain ⟨heard, words⟩ := Option.isSome_iff_exists.mp words
    have words := (v.text?_eq_some _ _).mp words
    rw [words, v.str_text] at pre
    exact .inr ⟨interrupted, heard, words, List.isPrefixOf_iff_prefix.mp pre⟩

/-- A delivery without a reason to fail draws a source that no delivery drew before. -/
theorem accounts_delivered {p : Delivered V} {sources : List Source}
    (accounts : Accounts v events books sources)
    (h : deliveredReason v events real e p books = (none, books')) :
    ∃ source, Draws v events real e p source ∧ Accounts v events books' (source :: sources) ∧
      books'.turned = books.turned := by
  unfold deliveredReason at h
  cases chain : generated v events real e p books.left with
  | mk result left =>
  rw [chain] at h
  dsimp only at h
  cases result with
  | error reason => cases h
  | ok pair =>
  obtain ⟨text, id⟩ := pair
  dsimp only at h
  split at h
  · cases h
  rename_i unused
  split at h
  · cases h
  rename_i same
  split at h
  · cases h
  rename_i cut
  obtain ⟨-, rfl⟩ := Prod.mk.inj h
  have unused : id ∉ books.used := by simpa using unused
  have heard : Heard v p text := heard_of (by simpa using same) cut
  rcases generated_ok chain with ⟨cause, s, cites, ok⟩ |
    ⟨rfl, cause, r, line, verbatim, cites, of_, lane, rfl, rfl⟩
  · obtain ⟨rfl, turn, t, items, of_, along, validated, adapter, whole, some_, rfl⟩ :=
      sentence_ok ok
    have bounds := accounts.bounds turn.eventId (v.str s.text)
    obtain ⟨n, nth⟩ := Int.eq_ofNat_of_zero_le (Int.sub_nonneg.mpr bounds.2)
    have within : n < (speech items).count (v.str s.text) := by
      have : total v events turn.eventId (v.str s.text) =
        ((speech items).count (v.str s.text) : Int) := congrFun whole _
      omega
    refine ⟨.speech turn.eventId (v.str s.text) n,
      .speech cites of_ along validated adapter within heard, ⟨?_, ?_, ?_, ?_⟩, rfl⟩
    · refine List.nodup_cons.mpr ⟨fun mem => ?_, accounts.distinct⟩
      have := accounts.drawn _ _ _ mem
      omega
    · intro id text m mem
      rw [leftOf_set]
      rcases List.mem_cons.mp mem with same | mem
      · obtain ⟨rfl, rfl, rfl⟩ := Source.speech.inj same
        rw [if_pos ⟨rfl, rfl⟩]
        omega
      · have := accounts.drawn id text m mem
        split
        · rename_i same
          obtain ⟨rfl, rfl⟩ := same
          omega
        · exact this
    · intro id mem
      exact List.mem_cons_of_mem _ (accounts.lines id (by simpa using mem))
    · intro id text
      have := accounts.bounds id text
      rw [leftOf_set]
      split
      · rename_i same
        obtain ⟨rfl, rfl⟩ := same
        omega
      · exact this
  · refine ⟨.line line.eventId, .line cites of_ lane heard, ⟨?_, ?_, ?_, accounts.bounds⟩, rfl⟩
    · exact List.nodup_cons.mpr ⟨fun mem => unused (accounts.lines _ mem), accounts.distinct⟩
    · intro id text n mem
      exact accounts.drawn id text n (by simpa using mem)
    · intro id mem
      rcases List.mem_cons.mp mem with same | mem
      · cases same
        exact List.mem_cons_self
      · exact List.mem_cons_of_mem _ (accounts.lines id mem)

/-! ## The log -/

def deliveries (events : List (Event V)) : List (Event V × Delivered V) :=
  events.filterMap fun e => e.payload.delivered?.map (e, ·)

def turnCalls (events : List (Event V)) : List V :=
  events.filterMap fun e => e.payload.turn?.map FastTurn.callId

def pass (v : Values V) (events : List (Event V)) (u : Unicode) (w : Words)
    (prompts : Dict String PromptRecord) (real : Bool) (books : Books V) (e : Event V) :
    Option (Books V) :=
  match check v events u w prompts real books e with
  | some (books, none) => some books
  | _ => none

theorem pass_eq_some :
    pass v events u w prompts real books e = some books' ↔
      check v events u w prompts real books e = some (books', none) := by
  unfold pass
  split <;> simp_all

/-- A check without failures is a run in which every event passes. -/
theorem run_of_failures {rest : List (Event V)}
    (h : failures v events u w prompts real books rest = some []) :
    ∃ books', Lib.run (pass v events u w prompts real) books rest = some books' := by
  induction rest generalizing books with
  | nil => exact ⟨books, rfl⟩
  | cons e rest ih =>
    simp only [failures, Option.bind_eq_bind, Option.bind_eq_some_iff, Option.pure_def,
      Option.some.injEq, List.append_eq_nil_iff] at h
    obtain ⟨⟨next, reason⟩, checked, more, h, quiet, rfl⟩ := h
    obtain rfl : reason = none := by simpa using quiet
    obtain ⟨last, run⟩ := ih h
    refine ⟨last, ?_⟩
    rw [Lib.run, pass_eq_some.mpr checked]
    exact run

structure Passed (v : Values V) (events : List (Event V)) (u : Unicode) (w : Words)
    (prompts : Dict String PromptRecord) (real : Bool) (pre : List (Event V)) (books : Books V) :
    Prop where
  delivered : ∃ sources, Accounts v events books sources.reverse ∧
    List.Forall₂ (fun d source => Draws v events real d.1 d.2 source) (deliveries pre) sources
  turns : ∀ e ∈ pre, ∀ turn ∈ e.payload.turn?, ∃ call items,
    Follows v events u w prompts e turn call items
  calls : (turnCalls pre).Nodup
  turned : ∀ id ∈ turnCalls pre, id ∈ books.turned
  releases : ∀ e ∈ pre, ∀ r ∈ e.payload.released?, Carries v events e r

theorem deliveries_snoc (pre : List (Event V)) (e : Event V) :
    deliveries (pre ++ [e]) = deliveries pre ++ (e.payload.delivered?.map (e, ·)).toList := by
  unfold deliveries
  rw [List.filterMap_append]
  cases h : e.payload.delivered? <;> simp [h]

theorem turnCalls_snoc (pre : List (Event V)) (e : Event V) :
    turnCalls (pre ++ [e]) = turnCalls pre ++ (e.payload.turn?.map FastTurn.callId).toList := by
  unfold turnCalls
  rw [List.filterMap_append]
  cases h : e.payload.turn? <;> simp [h]

theorem Passed.snoc {pre : List (Event V)} (passed : Passed v events u w prompts real pre books)
    (delivered : ∃ sources, Accounts v events books' sources.reverse ∧
      List.Forall₂ (fun d source => Draws v events real d.1 d.2 source) (deliveries (pre ++ [e]))
        sources)
    (kept : books.turned ⊆ books'.turned)
    (turn : ∀ turn ∈ e.payload.turn?, (∃ call items,
      Follows v events u w prompts e turn call items) ∧ turn.callId ∉ books.turned ∧
        turn.callId ∈ books'.turned)
    (release : ∀ r ∈ e.payload.released?, Carries v events e r) :
    Passed v events u w prompts real (pre ++ [e]) books' where
  delivered := delivered
  turns e' mem := by
    rcases List.mem_append.mp mem with mem | mem
    · exact passed.turns e' mem
    · obtain rfl := List.mem_singleton.mp mem
      exact fun t ht => (turn t ht).1
  calls := by
    rw [turnCalls_snoc]
    refine List.nodup_append.mpr ⟨passed.calls, ?_, ?_⟩
    · cases e.payload.turn? <;> simp
    · rintro id mem id' mem' rfl
      obtain ⟨t, ht, rfl⟩ := Option.map_eq_some_iff.mp (Option.mem_toList.mp mem')
      exact (turn t ht).2.1 (passed.turned _ mem)
  turned id mem := by
    rw [turnCalls_snoc] at mem
    rcases List.mem_append.mp mem with mem | mem
    · exact kept (passed.turned id mem)
    · obtain ⟨t, ht, rfl⟩ := Option.map_eq_some_iff.mp (Option.mem_toList.mp mem)
      exact (turn t ht).2.2
  releases e' mem := by
    rcases List.mem_append.mp mem with mem | mem
    · exact passed.releases e' mem
    · obtain rfl := List.mem_singleton.mp mem
      exact release

/-- Each event that passes keeps what the log says so far. -/
theorem Passed.pass {pre : List (Event V)} (passed : Passed v events u w prompts real pre books)
    (h : Chain.pass v events u w prompts real books e = some books') :
    Passed v events u w prompts real (pre ++ [e]) books' := by
  have h := pass_eq_some.mp h
  obtain ⟨sources, accounts, drawn⟩ := passed.delivered
  have still (none_ : e.payload.delivered? = none) (same : books'.used = books.used ∧
      books'.left = books.left) : ∃ sources, Accounts v events books' sources.reverse ∧
        List.Forall₂ (fun d source => Draws v events real d.1 d.2 source)
          (deliveries (pre ++ [e])) sources := by
    refine ⟨sources, ⟨accounts.distinct, ?_, ?_, ?_⟩, ?_⟩
    · rw [same.2]
      exact accounts.drawn
    · rw [same.1]
      exact accounts.lines
    · rw [same.2]
      exact accounts.bounds
    · rw [deliveries_snoc, none_]
      simpa using drawn
  unfold check at h
  cases hp : e.payload <;> rw [hp] at h <;> dsimp only at h
  case fastTurn turn =>
    split at h
    · cases h
    obtain ⟨rfl, quiet⟩ := Prod.mk.inj (Option.some.inj h)
    rw [Option.map_eq_none_iff] at quiet
    split at quiet
    · cases quiet
    rename_i reason
    split at quiet
    · cases quiet
    rename_i unturned
    obtain ⟨call, items, follows⟩ := follows_of_turnReason reason
    refine passed.snoc (still (by rw [hp]; rfl) ⟨rfl, rfl⟩) (List.subset_cons_self ..) ?_ ?_
    · intro t ht
      rw [hp] at ht
      cases ht
      refine ⟨⟨call, items, follows⟩, fun mem => unturned (List.any_eq_true.mpr ⟨_, mem, ?_⟩),
        List.mem_cons_self⟩
      rw [follows.named]
      exact (v.eq_text _ _).mpr rfl
    · intro r hr
      rw [hp] at hr
      cases hr
  case uttDelivered p =>
    obtain ⟨rfl, quiet⟩ := Prod.mk.inj (Option.some.inj h)
    rw [Option.map_eq_none_iff] at quiet
    obtain ⟨source, draws, accounts', turned⟩ := accounts_delivered accounts
      (Prod.ext quiet rfl : deliveredReason v events real e p books = (none, _))
    refine passed.snoc ⟨sources ++ [source], by simpa using accounts', ?_⟩
      (turned ▸ List.Subset.refl _) ?_ ?_
    · rw [deliveries_snoc, hp]
      exact List.rel_append drawn (.cons draws .nil)
    · intro t ht
      rw [hp] at ht
      cases ht
    · intro r hr
      rw [hp] at hr
      cases hr
  case speakReleased p =>
    obtain ⟨rfl, quiet⟩ := Prod.mk.inj (Option.some.inj h)
    rw [Option.map_eq_none_iff] at quiet
    refine passed.snoc (still (by rw [hp]; rfl) ⟨rfl, rfl⟩) (List.Subset.refl _) ?_ ?_
    · intro t ht
      rw [hp] at ht
      cases ht
    · intro r hr
      rw [hp] at hr
      cases hr
      exact carries_of_releaseReason quiet
  all_goals
    cases h
    refine passed.snoc (still (by rw [hp]; rfl) ⟨rfl, rfl⟩) (List.Subset.refl _) ?_ ?_
    · intro t ht
      rw [hp] at ht
      cases ht
    · intro r hr
      rw [hp] at hr
      cases hr

/-- What is drawn on is backed, where each turn of the log follows from a call of its own. -/
theorem backs_of_draws {p : Delivered V} {source : Source}
    (turns : ∀ e ∈ events, ∀ turn ∈ e.payload.turn?, ∃ call items,
      Follows v events u w prompts e turn call items)
    (h : Draws v events real e p source) : Backs v events u w prompts real e p source := by
  cases h with
  | @speech cause turn s t items n cites of_ along validated adapter nth heard =>
    obtain ⟨mem, typed, -⟩ := mem_cited of_
    obtain ⟨call, items', follows⟩ := turns turn mem t typed
    obtain rfl : items = items' := Option.some.inj (validated.symm.trans follows.items)
    obtain ⟨lane, -, -, -, -, spoken, -⟩ := follows.follows
    refine .speech cites of_ ⟨along.1, along.2.1, ?_, along.2.2.2⟩ follows (fun http => ?_) nth
      heard
    · rw [spoken]
      exact (v.eq_text _ _).mp (spoken ▸ along.2.2.1)
    · have own := adapter http
      rw [follows.attempt] at own
      simpa using own
  | line cites of_ lane heard => exact .line cites of_ lane heard

/-- A log without chain failures: each delivered line has a source of its own, each turn follows
from a call that backs no other turn, and each release carries its line's capability. -/
theorem chain_sound (v : Values V) (events : List (Event V)) (u : Unicode) (w : Words)
    (prompts : Dict String PromptRecord) (real : Bool)
    (h : chainFailures v events u w prompts real = some []) :
    (∃ sources, sources.Nodup ∧ List.Forall₂
      (fun d source => Backs v events u w prompts real d.1 d.2 source) (deliveries events)
        sources) ∧
    (∀ e ∈ events, ∀ turn ∈ e.payload.turn?, ∃ call items,
      Follows v events u w prompts e turn call items) ∧
    (turnCalls events).Nodup ∧
    ∀ e ∈ events, ∀ r ∈ e.payload.released?, Carries v events e r := by
  obtain ⟨last, run⟩ := run_of_failures h
  have passed : Passed v events u w prompts real events last :=
    Lib.run_invariant run
      ⟨⟨[], accounts_start, .nil⟩, fun e mem => absurd mem List.not_mem_nil, List.nodup_nil,
        fun id mem => absurd mem List.not_mem_nil, fun e mem => absurd mem List.not_mem_nil⟩
      fun _ passed ok => passed.pass ok
  obtain ⟨sources, accounts, drawn⟩ := passed.delivered
  exact ⟨⟨sources, List.nodup_reverse.mp accounts.distinct,
    drawn.imp fun _ _ draws => backs_of_draws passed.turns draws⟩, passed.turns, passed.calls,
    passed.releases⟩

theorem Heard.texts {p : Delivered V} {text : V} {said : String} (h : Heard v p text)
    (string : p.textGenerated = v.text said) : text = v.text said ∧
      (p.textHeard = v.text said ∨ v.truthy p.interrupted = true ∧
        ∃ heard, p.textHeard = v.text heard ∧ heard.toList <+: said.toList) := by
  obtain ⟨same, heard⟩ := h
  rw [string] at same heard
  refine ⟨(v.text_eq _ _).mp same, heard.imp (v.eq_text _ _).mp ?_⟩
  rintro ⟨cut, words, is_, pre⟩
  rw [v.str_text] at pre
  exact ⟨cut, words, is_, pre⟩

/-! ## A log -/

/-- Values enough for a log of texts, flags and items. -/
inductive Value
  | none
  | bool (b : Bool)
  | text (s : String)
  | items (items : List TurnItem)
  deriving DecidableEq

def values : Values Value where
  text := .text
  text?
    | .text s => some s
    | _ => Option.none
  eq x y := Decidable.decide (x = y)
  str
    | .text s => s
    | .bool true => "True"
    | .bool false => "False"
    | .none => "None"
    | .items _ => "[...]"
  repr
    | .text s => "'" ++ s ++ "'"
    | _ => ""
  truthy
    | .bool b => b
    | .text s => s ≠ ""
    | .items items => !items.isEmpty
    | .none => false
  hashable
    | .items _ => false
    | _ => true
  dump := .items
  validate
    | .items items => some items
    | _ => Option.none
  text?_eq_some x s := by cases x <;> simp
  str_text s := rfl
  eq_text x s := by simp
  text_eq x s := by simp [eq_comm]
  validate_dump x items h := by
    obtain rfl := of_decide_eq_true h
    rfl

def greeting : FastTurn Value :=
  ⟨.text "cp", .text "g1", .text "c1", .items [.speech "Hello.".toList, .speech "Hello.".toList]⟩

/-- One turn says the same twice, the second time cut, and then a line of Guard's is released. -/
def greetedLog : List (Event Value) :=
  [⟨"r:0", [], .fastRequest ⟨.text "cp", .text "g1", .text "p", .text "pl_cp_v1", .text "m"⟩⟩,
    ⟨"r:1", ["r:0"], .llmCall ⟨"c1", .fastCp, .text "m", .realHttp, "p", some "a", none⟩⟩,
    ⟨"r:2", ["r:0", "r:1"], .fastTurn greeting⟩,
    ⟨"r:3", ["r:2"], .fastSentence ⟨.text "cp", .text "g1", .text "u1", .text "Hello."⟩⟩,
    ⟨"r:4", ["r:3"], .uttDelivered
      ⟨.text "cp", .text "u1", .text "Hello.", .text "Hello.", .bool false⟩⟩,
    ⟨"r:5", ["r:2"], .fastSentence ⟨.text "cp", .text "g1", .text "u2", .text "Hello."⟩⟩,
    ⟨"r:6", ["r:5"], .uttDelivered
      ⟨.text "cp", .text "u2", .text "Hello.", .text "Hel", .bool true⟩⟩,
    ⟨"r:7", [], .speakVerbatim ⟨.text "cp", .text "accept", .text "We accept.", some (.text "k")⟩⟩,
    ⟨"r:8", ["r:7"], .speakReleased ⟨some (.text "k")⟩⟩,
    ⟨"r:9", ["r:8"], .uttDelivered
      ⟨.text "cp", .text "u3", .text "We accept.", .text "We accept.", .bool false⟩⟩]

def greetedPrompts : Dict String PromptRecord := Dict.empty.set "a" ⟨"Hello. Hello."⟩

theorem greetedLog_passes : chainFailures values greetedLog Protocol.plainText Protocol.plainWords
    greetedPrompts true = some [] := by decide +kernel

theorem chain_sound_sample : ∃ sources, sources.Nodup ∧ List.Forall₂
    (fun d source => Backs values greetedLog Protocol.plainText Protocol.plainWords greetedPrompts
      true d.1 d.2 source) (deliveries greetedLog) sources :=
  (chain_sound values greetedLog Protocol.plainText Protocol.plainWords greetedPrompts true
    greetedLog_passes).1

end ProxyLoop.Chain

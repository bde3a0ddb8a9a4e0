import Mathlib.Data.List.Induction
import ProxyLoop.Contract.Views
import ProxyLoop.Core.Effects
import ProxyLoop.Core.History
import ProxyLoop.Lib.Trace
import ProxyLoop.Slow.Transcript

/-!
# Slow's steps

One step makes one request of a bounded context: the head, the last answered turns and the notes of
this step.  A turn is the model's answer with what answered it, so that every tool call leaves the
context with its result; the block of conversations stands in the newest message alone and history
keeps a stub.  The status bar and the tools' results are taken as they come.
-/

namespace ProxyLoop.SlowLoop

open Transcript (Cursor)
open Views (SlowViewMode)

/-! ## Messages -/

structure ToolCall where
  callId : String
  name : String
  arguments : String
  deriving DecidableEq

inductive Role
  | user | assistant | tool
  deriving DecidableEq, Repr

structure ChatMessage where
  role : Role
  content : String
  toolCalls : List ToolCall := []
  toolCallId : Option String := none
  deriving DecidableEq

/-- What a step reads: why it woke, the board and the status bar. -/
structure Input where
  reasons : List String
  bb : Blackboard
  bar : String

/-- The model's answer, each tool call with what acting on it gave. -/
structure Response where
  text : String
  acted : List (ToolCall × String)

/-! ## The code -/

def window : Nat := 6

def maxSteps : Nat := 120

/-- What a session fixes. -/
structure Config where
  head : String
  brief : String
  mode : SlowViewMode

abbrev Turn := ChatMessage × List ChatMessage

structure Loop where
  first : String := ""
  turns : List Turn := []
  dropped : Nat := 0
  said : Option ChatMessage := none
  results : List (String × String) := []
  cursor : Cursor := {}
  received : List String := []
  steps : Nat := 0

/-- `_answer`: the notes on the last of the results, or alone. -/
def answer (results : List (String × String)) (text : String) : List ChatMessage :=
  match results.getLast? with
  | none => [{ role := .user, content := text }]
  | some (lastId, last) =>
    (results.dropLast.map fun r => { role := .tool, content := r.2, toolCallId := some r.1 }) ++
      [{ role := .tool, content := last ++ "\n\n" ++ text, toolCallId := some lastId }]

/-- The latest summaries stand for the turns that left the context. -/
def digest (head : String) (dropped : Nat) (view : Views.SlowView) : String :=
  let none_ (text : String) : String := if text = "" then "none" else text
  head ++ "\n\n[EARLIER] " ++ toString dropped ++ " earlier turns left this " ++
    "context; your latest summaries stand for them.\n" ++
    "PRIVATE SUMMARY: " ++ none_ view.privateSummary ++ "\n" ++
    "PUBLIC SUMMARY: " ++ none_ view.publicSummary

/-- The window after one more answered turn. -/
def Loop.push (l : Loop) (turn : Turn) : Loop :=
  let turns := l.turns ++ [turn]
  if turns.length > window then { l with turns := turns.tail, dropped := l.dropped + 1 }
  else { l with turns }

def context (config : Config) (l : Loop) (text stub : String) (view : Views.SlowView) :
    List ChatMessage × Loop :=
  match l.said with
  | none =>
    ([{ role := .user, content := config.head ++ "\n\n" ++ text }],
      { l with first := config.head ++ "\n\n" ++ stub })
  | some said =>
    let l := l.push (said, answer l.results stub)
    let head := if l.dropped = 0 then l.first else digest config.head l.dropped view
    let messages := l.turns.flatMap fun turn => turn.1 :: turn.2
    let newest := answer l.results text
    -- the block only here
    let kept := messages.take (messages.length - newest.length)
    ({ role := .user, content := head } :: (kept ++ newest), l)

def typeName : F2SType → String
  | .userUpdate => "user_update"
  | .cpUpdate => "cp_update"
  | .request => "request"
  | .revoke => "revoke"
  | .note => "note"
  | .hold => "hold"

/-- `note`: a relay in the notes; quoted, it is one JSON string. -/
def note (relay : FastToSlow) (quoted : Bool) : String :=
  let where_ := if relay.lane = .user then "USER CHAT" else "REP CALL"
  let facts := "; ".intercalate (relay.facts.map fun f => f.1 ++ "=" ++ f.2)
  let said := " ".intercalate ([facts, relay.text].filter (· ≠ ""))
  let said := if quoted then String.ofList (Transcript.quote said.toList) else said
  let body := " ".intercalate ([typeName relay.type, said].filter (· ≠ ""))
  let utt := if relay.uttRef.getD "" = "" then "none" else relay.uttRef.getD ""
  "[" ++ where_ ++ "] " ++ body ++ " (utt " ++ utt ++ ")"

/-- The notes of a step, as the request has them and as history keeps them; and the cursor after. -/
def notes (config : Config) (l : Loop) (new : List FastToSlow) (view : Views.SlowView)
    (input : Input) : Option (String × String × Cursor) := do
  let wakes := "[WAKE] " ++ ", ".intercalate input.reasons
  let reads : Bool := config.mode = .transcript
  let relays := new.map (note · reads)
  if reads then
    let transcripts (lane : Lane) : List Line := (view.transcripts.lookup lane).getD []
    let (block, cursor) ← Transcript.render transcripts l.cursor Transcript.laneChars
    let shown := "[CONVERSATIONS shown at step " ++ toString (l.steps + 1) ++ ": +" ++
      toString cursor.new ++ " lines]"
    return ("\n".intercalate (wakes :: String.ofList block :: relays ++ [input.bar]),
      "\n".intercalate (wakes :: shown :: relays ++ [input.bar]), cursor)
  else
    let text := "\n".intercalate (wakes :: relays ++ [input.bar])
    return (text, text, l.cursor)

def untold (l : Loop) (view : Views.SlowView) : List FastToSlow :=
  view.relays.filter fun r => !l.received.contains r.msgId

/-- `step`: the request's messages after the system message, and the loop after the response; `none`
where it raises. -/
def step (config : Config) (l : Loop) (input : Input) (response : Response) :
    Option (List ChatMessage × Loop) := do
  if l.steps ≥ maxSteps then none
  else
    let view := Views.viewSlow input.bb config.mode config.brief
    let new := untold l view
    let (text, stub, cursor) ← notes config l new view input
    let (messages, l) := context config l text stub view
    return (messages, { l with
      cursor
      received := l.received ++ new.map FastToSlow.msgId
      steps := l.steps + 1
      said := some { role := .assistant, content := response.text,
                     toolCalls := response.acted.map Prod.fst }
      results := response.acted.map fun a => (a.1.callId, a.2) })

def next (config : Config) (l : Loop) (s : Input × Response) : Option Loop :=
  (step config l s.1 s.2).map Prod.snd

/-! ## The context as a function of the steps -/

structure Past where
  stub : String
  said : ChatMessage
  results : List (String × String)

def Response.said (r : Response) : ChatMessage where
  role := .assistant
  content := r.text
  toolCalls := r.acted.map Prod.fst

def Response.results (r : Response) : List (String × String) :=
  r.acted.map fun a => (a.1.callId, a.2)

def answered : List Past → List Turn
  | p :: q :: rest => (p.said, answer p.results q.stub) :: answered (q :: rest)
  | _ => []

/-- All turns before a step: the last one is answered by the notes of this step. -/
def allTurns (past : List Past) (text : String) : List Turn :=
  answered past ++ past.getLast?.toList.map fun p => (p.said, answer p.results text)

def turnsOf (past : List Past) (text : String) : List Turn :=
  (allTurns past text).drop (past.length - window)

def headOf (config : Config) (past : List Past) (text : String) (view : Views.SlowView) : String :=
  if past.length - window = 0 then
    config.head ++ "\n\n" ++ ((past.head?.map Past.stub).getD text)
  else digest config.head (past.length - window) view

/-- The messages of a step's request, after the steps of `past`. -/
def request (config : Config) (past : List Past) (text : String) (view : Views.SlowView) :
    List ChatMessage :=
  { role := .user, content := headOf config past text view } ::
    (turnsOf past text).flatMap fun turn => turn.1 :: turn.2

theorem answered_snoc (past : List Past) (p q : Past) :
    answered (past ++ [p, q]) = answered (past ++ [p]) ++ [(p.said, answer p.results q.stub)] := by
  induction past with
  | nil => rfl
  | cons x past ih =>
    cases past with
    | nil => rfl
    | cons y past => simpa [answered] using ih

theorem length_answered (past : List Past) : (answered past).length = past.length - 1 := by
  induction past with
  | nil => rfl
  | cons p past ih =>
    cases past with
    | nil => rfl
    | cons q past => simp [answered, ih]

theorem length_answer (results : List (String × String)) (text text' : String) :
    (answer results text).length = (answer results text').length := by
  unfold answer
  cases results.getLast? <;> simp

/-- The newest turn stands with the stub; the request tells it with the notes. -/
theorem told_again (turns : List Turn) (said : ChatMessage) {old new : List ChatMessage}
    (length : old.length = new.length) :
    (((turns ++ [(said, old)]).flatMap fun turn => turn.1 :: turn.2).take
        (((turns ++ [(said, old)]).flatMap fun turn => turn.1 :: turn.2).length - new.length) ++
      new) = (turns ++ [(said, new)]).flatMap fun turn => turn.1 :: turn.2 := by
  have split (last : List ChatMessage) :
      ((turns ++ [(said, last)]).flatMap fun turn => turn.1 :: turn.2) =
        ((turns.flatMap fun turn => turn.1 :: turn.2) ++ [said]) ++ last := by simp
  rw [split, split, List.length_append, length, Nat.add_sub_cancel, List.take_left]

structure Kept (config : Config) (l : Loop) (past : List Past) : Prop where
  said : l.said = past.getLast?.map Past.said
  results : l.results = (past.getLast?.map Past.results).getD []
  first : ∀ p ∈ past.head?, l.first = config.head ++ "\n\n" ++ p.stub
  turns : l.turns = (answered past).drop (past.length - 1 - window)
  dropped : l.dropped = past.length - 1 - window

/-- The turns after a step, and how many were dropped. -/
theorem Kept.push {config : Config} {l : Loop} {past : List Past} {last : Past}
    (kept : Kept config l (past ++ [last])) (x : Turn) :
    l.push x = { l with
      turns := (answered (past ++ [last])).drop (past.length + 1 - window) ++ [x]
      dropped := past.length + 1 - window } := by
  unfold Loop.push
  dsimp only
  have few := length_answered (past ++ [last])
  have turns := kept.turns
  have dropped := kept.dropped
  rw [List.length_append, List.length_singleton, Nat.add_sub_cancel] at few turns dropped
  have length : (l.turns ++ [x]).length = past.length - (past.length - window) + 1 := by
    rw [turns, List.length_append, List.length_drop, few, List.length_singleton]
  by_cases full : window ≤ past.length
  · rw [if_pos (by omega), turns, dropped]
    have step : past.length + 1 - window = past.length - window + 1 := by omega
    rw [step, List.tail_append_of_ne_nil, List.tail_drop]
    intro none_
    have := congrArg List.length none_
    rw [List.length_drop, few, List.length_nil] at this
    have : 0 < window := by decide
    omega
  · rw [if_neg (by omega), turns, dropped]
    have step : past.length + 1 - window = past.length - window := by omega
    rw [step]

/-- The context of a step is the request of its past, and its turns are kept. -/
theorem Kept.context {config : Config} {l : Loop} {past : List Past} (kept : Kept config l past)
    (text stub : String) (view : Views.SlowView) :
    (context config l text stub view).1 = request config past text view ∧
      ∀ said results cursor received steps, Kept config
        { (context config l text stub view).2 with
          cursor, received, steps, said := some said, results }
        (past ++ [⟨stub, said, results⟩]) := by
  rcases List.eq_nil_or_concat past with rfl | ⟨past, last, rfl⟩
  · have none_ : l.said = none := kept.said
    have turns : l.turns = [] := kept.turns
    have dropped : l.dropped = 0 := kept.dropped
    unfold SlowLoop.context
    rw [none_]
    refine ⟨rfl, fun said results cursor received steps => ⟨rfl, rfl, ?_, turns, dropped⟩⟩
    intro p hp
    cases hp
    rfl
  · rw [List.concat_eq_append] at *
    have said : l.said = some last.said := by simp [kept.said]
    have results : l.results = last.results := by simp [kept.results]
    unfold SlowLoop.context
    rw [said]
    dsimp only
    rw [kept.push, results]
    have few := length_answered (past ++ [last])
    rw [List.length_append, List.length_singleton, Nat.add_sub_cancel] at few
    have within : past.length + 1 - window ≤ (answered (past ++ [last])).length := by
      have : 0 < window := by decide
      omega
    have now : turnsOf (past ++ [last]) text =
        (answered (past ++ [last])).drop (past.length + 1 - window) ++
          [(last.said, answer last.results text)] := by
      rw [turnsOf, allTurns, List.length_append, List.length_singleton,
        ← List.drop_append_of_le_length within]
      simp
    have first : l.first =
        config.head ++ "\n\n" ++ ((past ++ [last]).head?.map Past.stub).getD "" := by
      obtain ⟨p, hp⟩ : ∃ p, (past ++ [last]).head? = some p := by cases past <;> exact ⟨_, rfl⟩
      rw [kept.first p (by rw [hp]; rfl), hp]
      rfl
    refine ⟨?_, fun said' results' cursor received steps => ⟨by simp, by simp, ?_, ?_, ?_⟩⟩
    · rw [request, now, ← told_again _ _ (length_answer last.results stub text)]
      congr 2
      rw [headOf, List.length_append, List.length_singleton, first]
      dsimp only
      congr 1
      cases past <;> rfl
    · intro p hp
      refine kept.first p ?_
      cases past <;> exact hp
    · have more : past ++ [last] ++ [⟨stub, said', results'⟩] =
          past ++ [last, ⟨stub, said', results'⟩] := by simp
      rw [more, answered_snoc, List.drop_append_of_le_length (by simpa using within)]
      simp
    · simp

/-! ## Runs -/

/-- The board as a step sees it. -/
def Config.view (config : Config) (input : Input) : Views.SlowView :=
  Views.viewSlow input.bb config.mode config.brief

/-- The relays and the notes of a step. -/
def newOf (config : Config) (l : Loop) (input : Input) : List FastToSlow :=
  untold l (config.view input)

def notesOf (config : Config) (l : Loop) (input : Input) : Option (String × String × Cursor) :=
  notes config l (newOf config l input) (config.view input) input

/-- What the steps of a run left: their answers and results, and their notes with the block
stubbed. -/
def Left (config : Config) (pre : List (Input × Response)) (past : List Past) : Prop :=
  past.length = pre.length ∧ ∀ i s p, pre[i]? = some s → past[i]? = some p →
    p.said = s.2.said ∧ p.results = s.2.results ∧ ∃ l text cursor,
      Lib.run (next config) {} (pre.take i) = some l ∧
        notesOf config l s.1 = some (text, p.stub, cursor)

/-- Every call of the answer is followed by its result, in order; an answer without a call by a
message of the user. -/
def Paired (turn : Turn) : Prop :=
  turn.1.role = .assistant ∧
    if turn.1.toolCalls = [] then ∃ text, turn.2 = [{ role := .user, content := text }]
    else turn.2.map ChatMessage.toolCallId = turn.1.toolCalls.map (fun c => some c.callId) ∧
      ∀ m ∈ turn.2, m.role = .tool

theorem paired_answer (r : Response) (text : String) : Paired (r.said, answer r.results text) := by
  refine ⟨rfl, ?_⟩
  rcases List.eq_nil_or_concat r.acted with none_ | ⟨done, last, all⟩
  · rw [if_pos (by simp [Response.said, none_])]
    exact ⟨text, by simp [Response.results, none_, answer]⟩
  · rw [List.concat_eq_append] at all
    rw [if_neg (by simp [Response.said, all])]
    have results : answer r.results text = ((done.map fun a => (a.1.callId, a.2)).map fun r =>
        { role := .tool, content := r.2, toolCallId := some r.1 }) ++
        [{ role := .tool, content := last.2 ++ "\n\n" ++ text,
           toolCallId := some last.1.callId }] := by
      simp [answer, Response.results, all]
    rw [results]
    constructor
    · simp [Response.said, all, Function.comp_def]
    · intro m hm
      simp only [List.mem_append, List.mem_map, List.mem_singleton] at hm
      obtain ⟨_, _, rfl⟩ | rfl := hm <;> rfl

/-- A step that goes through: its notes, and its request and loop after. -/
theorem step_cases {config : Config} {l l' : Loop} {input : Input} {response : Response}
    {messages : List ChatMessage} (h : step config l input response = some (messages, l')) :
    l.steps < maxSteps ∧ ∃ text stub cursor,
      notesOf config l input = some (text, stub, cursor) ∧
        messages = (context config l text stub (config.view input)).1 ∧
        l' = { (context config l text stub (config.view input)).2 with
          cursor
          received := (context config l text stub (config.view input)).2.received ++
            (newOf config l input).map FastToSlow.msgId
          steps := (context config l text stub (config.view input)).2.steps + 1
          said := some response.said, results := response.results } := by
  unfold step at h
  split at h
  · cases h
  · rename_i few
    obtain ⟨⟨text, stub, cursor⟩, told, h⟩ := Option.bind_eq_some_iff.mp h
    cases h
    exact ⟨Nat.lt_of_not_le few, text, stub, cursor, told, rfl, rfl⟩

theorem context_frame (config : Config) (l : Loop) (text stub : String) (view : Views.SlowView) :
    (context config l text stub view).2.steps = l.steps ∧
      (context config l text stub view).2.received = l.received := by
  unfold context
  cases l.said with
  | none => exact ⟨rfl, rfl⟩
  | some said =>
    dsimp only
    unfold Loop.push
    dsimp only
    split <;> exact ⟨rfl, rfl⟩

structure Runs (config : Config) (pre : List (Input × Response)) (l : Loop) : Prop where
  run : Lib.run (next config) {} pre = some l
  steps : l.steps = pre.length
  kept : ∃ past, Left config pre past ∧ Kept config l past

theorem Left.snoc {config : Config} {pre : List (Input × Response)} {past : List Past} {l : Loop}
    {s : Input × Response} {text stub : String} {cursor : Cursor} (left : Left config pre past)
    (run : Lib.run (next config) {} pre = some l)
    (told : notesOf config l s.1 = some (text, stub, cursor)) :
    Left config (pre ++ [s]) (past ++ [⟨stub, s.2.said, s.2.results⟩]) := by
  obtain ⟨same, left⟩ := left
  refine ⟨by simp [same], fun i s' p hs hp => ?_⟩
  rcases Nat.lt_trichotomy i pre.length with before | rfl | after
  · rw [List.getElem?_append_left before] at hs
    rw [List.getElem?_append_left (same ▸ before)] at hp
    rw [List.take_append_of_le_length (Nat.le_of_lt before)]
    exact left i s' p hs hp
  · rw [List.getElem?_append_right (Nat.le_refl _), Nat.sub_self] at hs
    rw [← same, List.getElem?_append_right (Nat.le_refl _), Nat.sub_self] at hp
    cases hs
    cases hp
    exact ⟨rfl, rfl, l, text, cursor, by rwa [List.take_left], told⟩
  · rw [List.getElem?_append_right (Nat.le_of_lt after),
      List.getElem?_eq_none (Nat.sub_pos_of_lt after)] at hs
    cases hs

theorem runs {config : Config} {pre : List (Input × Response)} {l : Loop}
    (h : Lib.run (next config) {} pre = some l) : Runs config pre l := by
  refine Lib.run_invariant (I := Runs config) h ⟨rfl, rfl, [], ⟨rfl, by simp⟩, ?_⟩ ?_
  · exact ⟨rfl, rfl, by simp, rfl, rfl⟩
  · rintro pre l ⟨input, response⟩ l' - ⟨run, steps, past, left, kept⟩ hs
    obtain ⟨⟨messages, _⟩, hs', rfl⟩ := Option.map_eq_some_iff.mp hs
    obtain ⟨-, text, stub, cursor, told, -, rfl⟩ := step_cases hs'
    obtain ⟨frame, -⟩ := context_frame config l text stub (config.view input)
    refine ⟨?_, by simp [frame, steps], _, left.snoc run told, ?_⟩
    swap
    · exact (kept.context text stub (config.view input)).2 ..
    rw [Lib.run_snoc, run]
    exact hs

theorem allTurns_cons (p q : Past) (past : List Past) (text : String) :
    allTurns (p :: q :: past) text =
      (p.said, answer p.results q.stub) :: allTurns (q :: past) text := by
  simp [allTurns, answered]

theorem turns_said (past : List Past) (text : String) :
    (allTurns past text).map Prod.fst = past.map Past.said := by
  induction past with
  | nil => rfl
  | cons p past ih =>
    cases past with
    | nil => rfl
    | cons q past => simpa [allTurns_cons] using ih

theorem turns_answer {past : List Past} {text : String} {turn : Turn}
    (h : turn ∈ allTurns past text) :
    ∃ p ∈ past, ∃ note, turn = (p.said, answer p.results note) := by
  induction past with
  | nil => cases h
  | cons p past ih =>
    cases past with
    | nil => exact ⟨p, List.mem_singleton.mpr rfl, text, List.mem_singleton.mp h⟩
    | cons q past =>
      rw [allTurns_cons, List.mem_cons] at h
      rcases h with rfl | h
      · exact ⟨p, List.mem_cons_self, q.stub, rfl⟩
      · obtain ⟨p', hp, answers⟩ := ih h
        exact ⟨p', List.mem_cons_of_mem _ hp, answers⟩

theorem Left.mem {config : Config} {pre : List (Input × Response)} {past : List Past}
    (left : Left config pre past) {p : Past} (h : p ∈ past) :
    ∃ s ∈ pre, p.said = s.2.said ∧ p.results = s.2.results := by
  obtain ⟨i, hi⟩ := List.getElem?_of_mem h
  obtain ⟨within, -⟩ := List.getElem?_eq_some_iff.mp hi
  have hs := List.getElem?_eq_getElem (left.1 ▸ within)
  obtain ⟨said, results, -⟩ := left.2 i _ p hs hi
  exact ⟨_, List.getElem_mem _, said, results⟩

theorem Left.said {config : Config} {pre : List (Input × Response)} {past : List Past}
    (left : Left config pre past) : past.map Past.said = pre.map fun s => s.2.said := by
  refine List.ext_getElem (by simpa using left.1) fun i hp hs => ?_
  rw [List.length_map] at hp hs
  rw [List.getElem_map, List.getElem_map]
  exact (left.2 i _ _ (List.getElem?_eq_getElem hs) (List.getElem?_eq_getElem hp)).1

/-- Every request is the function `request` of what the steps before it left: the head or the
digest, and the last answers in order, each with what answered it, every call with its result. -/
theorem request_of_run {config : Config} {pre : List (Input × Response)} {l l' : Loop}
    {input : Input} {response : Response} {messages : List ChatMessage}
    (run : Lib.run (next config) {} pre = some l)
    (h : step config l input response = some (messages, l')) :
    pre.length < maxSteps ∧ ∃ past text stub cursor, Left config pre past ∧
      notesOf config l input = some (text, stub, cursor) ∧
      messages = request config past text (config.view input) ∧
      (turnsOf past text).map Prod.fst =
        (pre.drop (pre.length - window)).map (fun s => s.2.said) ∧
      ∀ turn ∈ turnsOf past text, Paired turn := by
  obtain ⟨-, steps, past, left, kept⟩ := runs run
  obtain ⟨few, text, stub, cursor, told, rfl, -⟩ := step_cases h
  have same := (kept.context text stub (config.view input)).1
  refine ⟨steps ▸ few, past, text, stub, cursor, left, told, same, ?_, fun turn ht => ?_⟩
  · rw [turnsOf, List.map_drop, turns_said, left.said, left.1, List.map_drop]
  · obtain ⟨p, hp, note, rfl⟩ := turns_answer (List.mem_of_mem_drop ht)
    obtain ⟨s, -, said, results⟩ := left.mem hp
    rw [said, results]
    exact paired_answer s.2 note

/-! ## Relays -/

def relayOf : Payload → Option FastToSlow
  | .f2sMsg msg => some msg
  | _ => none

section

open Lib (Dict)

variable {bb b : Blackboard} {e : Event}

theorem f2sPending_of_reduce (h : reduce bb e = .ok b) :
    b.f2sPending = bb.f2sPending ++ (relayOf e.payload).toList := by
  unfold reduce at h
  cases hp : e.payload <;> rw [hp] at h
  case uttDelivered =>
    cases h
    split <;> simp [relayOf, appendLine]
  case factRecorded scope key value source ref =>
    cases scope <;>
      simp only [privateFact, publicFact, require_bind, validated_bind, pure_eq_ok] at h <;>
      grind [relayOf]
  case summaryUpdated scope text =>
    cases scope <;> simp only [summary, validated_bind, pure_eq_ok] at h <;> grind [relayOf]
  case speakVerbatim lane kind text capId offerRef =>
    cases kind <;> simp only [verbatim, liveCap_bind, fetch_bind, pure_eq_ok] at h <;>
      grind [relayOf, consume, withOffer]
  case speakReleased lane capId =>
    cases capId <;>
      simp only [released, liveCap_bind, fetch_bind, require_bind, pure_eq_ok] at h <;>
      grind [relayOf, consume, withOffer]
  case speakRevoked lane reason capId =>
    cases capId <;> simp only [revoked, liveCap_bind, pure_eq_ok] at h <;>
      grind [relayOf, consume, withOffer]
  case offerRecorded | readbackUpdated | statusChanged | approvalPost | approvalRequested |
      approvalDecided | actionAuthorized =>
    simp only [offerRecorded, readback, statusChanged, posted, approvalRequested, approvalDecided,
      authorized, fetch_bind, require_bind, validated_bind, pure_eq_ok] at h
    grind [relayOf, withOffer]
  case authorityEpoch | mandateProposed | mandateDecided =>
    simp only [epochBump, mandateProposed, mandateDecided, fetch_bind, require_bind,
      pure_eq_ok] at h
    grind [relayOf, withMandate]
  all_goals
    cases h
    simp [relayOf, appendLine, f2s, hold, strike, s2f, s2fVoiced, fence]

theorem f2sPending_of_fold {more : List Event} (h : fold more bb = .ok b) :
    bb.f2sPending <+: b.f2sPending := by
  refine fold_invariant (I := fun c => bb.f2sPending <+: c.f2sPending) h (List.prefix_refl _) ?_
  intro c e c' kept h
  obtain ⟨d, reduced, rfl⟩ := apply_eq_ok.mp h
  exact kept.trans ⟨_, (f2sPending_of_reduce reduced).symm⟩

end

/-- The relays that the steps of a run told, in order. -/
def tellings (config : Config) : Loop → List (Input × Response) → List FastToSlow
  | _, [] => []
  | l, s :: acts =>
    newOf config l s.1 ++ ((next config l s).map fun l' => tellings config l' acts).getD []

/-- Each step's board is a later one of the same log. -/
def Later (s s' : Input × Response) : Prop := ∃ more, fold more s.1.bb = .ok s'.1.bb

/-- What is left of a list without the ids of its start is the rest of it. -/
theorem filter_told {told relays : List FastToSlow} (start : told <+: relays)
    (ids : (relays.map FastToSlow.msgId).Nodup) :
    told ++ (relays.filter fun r => !(told.map FastToSlow.msgId).contains r.msgId) = relays := by
  obtain ⟨rest, rfl⟩ := start
  rw [List.map_append, List.nodup_append] at ids
  obtain ⟨-, -, apart⟩ := ids
  have none_ : told.filter (fun r => !(told.map FastToSlow.msgId).contains r.msgId) = [] := by
    rw [List.filter_eq_nil_iff]
    intro r hr
    simpa using ⟨r, hr, rfl⟩
  have all : rest.filter (fun r => !(told.map FastToSlow.msgId).contains r.msgId) = rest := by
    rw [List.filter_eq_self]
    intro r hr
    simp only [Bool.not_eq_true', List.contains_eq_mem, decide_eq_false_iff_not]
    exact fun h => apart _ h _ (List.mem_map_of_mem hr) rfl
  rw [List.filter_append, none_, all, List.nil_append]

theorem next_received {config : Config} {l l' : Loop} {s : Input × Response}
    (h : next config l s = some l') :
    l'.received = l.received ++ (newOf config l s.1).map FastToSlow.msgId := by
  obtain ⟨⟨messages, _⟩, hs, rfl⟩ := Option.map_eq_some_iff.mp h
  obtain ⟨-, text, stub, cursor, -, -, rfl⟩ := step_cases hs
  dsimp only
  rw [(context_frame config l text stub (config.view s.1)).2]

theorem tellings_from {config : Config} {acts : List (Input × Response)} {l l' : Loop}
    (told : List FastToSlow) (run : Lib.run (next config) l acts = some l')
    (later : acts.IsChain Later)
    (ids : ∀ s ∈ acts, (s.1.bb.f2sPending.map FastToSlow.msgId).Nodup)
    (received : l.received = told.map FastToSlow.msgId)
    (start : ∀ s ∈ acts.head?, told <+: s.1.bb.f2sPending) :
    told ++ tellings config l acts =
      (acts.getLast?.map fun s => s.1.bb.f2sPending).getD told := by
  induction acts generalizing l told with
  | nil => simp [tellings]
  | cons s acts ih =>
    obtain ⟨l₁, hs, run⟩ := Option.bind_eq_some_iff.mp run
    have new : told ++ newOf config l s.1 = s.1.bb.f2sPending := by
      rw [← filter_told (start s rfl) (ids s List.mem_cons_self), ← received]
      rfl
    have received' : l₁.received = s.1.bb.f2sPending.map FastToSlow.msgId := by
      rw [next_received hs, received, ← List.map_append, new]
    have later' : (∀ s' ∈ acts.head?, s.1.bb.f2sPending <+: s'.1.bb.f2sPending) ∧
        acts.IsChain Later := by
      cases later with
      | singleton => exact ⟨by simp, .nil⟩
      | cons_cons grown later =>
        obtain ⟨more, grown⟩ := grown
        exact ⟨by simpa using f2sPending_of_fold grown, later⟩
    have rest := ih _ run later'.2 (fun s' hs' => ids s' (List.mem_cons_of_mem _ hs')) received'
      later'.1
    rw [tellings, hs, Option.map_some, Option.getD_some, ← List.append_assoc, new, rest]
    cases acts with
    | nil => rfl
    | cons s' acts => simp [List.getLast?_eq_some_getLast]

/-- Every relay of the board is told by one step of a run, in the board's order. -/
theorem relays_told_once {config : Config} {acts : List (Input × Response)} {l : Loop}
    (run : Lib.run (next config) {} acts = some l) (later : acts.IsChain Later)
    (ids : ∀ s ∈ acts, (s.1.bb.f2sPending.map FastToSlow.msgId).Nodup) :
    tellings config {} acts = (acts.getLast?.map fun s => s.1.bb.f2sPending).getD [] :=
  tellings_from [] run later ids rfl fun _ _ => List.nil_prefix

/-! ## Two steps -/

def sampleConfig : Config := ⟨"TASK: lower the bill", "Lower the bill.", .relayOnly⟩

def asked : FastToSlow where
  msgId := "r1:0"
  lane := .user
  genId := "g1"
  uttRef := some "u1"
  type := .request
  text := "Cancel the add-on."
  laneRules := by decide

def askedLog : List Event := [⟨"r1", 0, 10, .fastUser, [], 0, .f2sMsg asked⟩]

def sampleCall : ToolCall := ⟨"c1", "act", "\x7b\x7d"⟩

def sampleSteps : List (Input × Response) :=
  [(⟨["session_start"], {}, "[STATUS] planning"⟩, ⟨"", [(sampleCall, "ok")]⟩),
    (⟨["relay"], boardOf askedLog, "[STATUS] planning"⟩, ⟨"Nothing to do.", []⟩)]

theorem sampleSteps_later : sampleSteps.IsChain Later :=
  .cons_cons ⟨askedLog, fold_boardOf rfl⟩ (.singleton _)

def sampleLoop : Loop := (Lib.run (next sampleConfig) {} sampleSteps).getD {}

def woken : Input := ⟨["user_reply"], boardOf askedLog, "[STATUS] planning"⟩

theorem sampleSteps_run : Lib.run (next sampleConfig) {} sampleSteps = some sampleLoop := rfl

theorem request_of_run_sample : ∃ past text,
    (turnsOf past text).map Prod.fst = sampleSteps.map (fun s => s.2.said) ∧
      ∀ turn ∈ turnsOf past text, Paired turn := by
  obtain ⟨-, past, text, -, -, -, -, -, said, paired⟩ := request_of_run sampleSteps_run
    (show step sampleConfig sampleLoop woken ⟨"Done.", []⟩ = some (_, _) from rfl)
  exact ⟨past, text, said, paired⟩

theorem relays_told_once_sample : tellings sampleConfig {} sampleSteps = [asked] :=
  relays_told_once sampleSteps_run sampleSteps_later (by decide)

end ProxyLoop.SlowLoop

import Mathlib.Data.List.Chain
import Mathlib.Data.List.Induction
import ProxyLoop.Core.Bus
import ProxyLoop.Lib.Trace

/-!
# The offline check of a log

`_log_failures` over the events of a bundle: a start that tells what the manifest tells, one run,
dense numbers, a clock that never goes back, causes that are earlier events, decisions that cite
their posts once, and a fold that accepts every event at the epoch on its envelope.  It finds
nothing in a log exactly where the bus of the manifest's run can have written it.  The texts of the
failures are left out.
-/

namespace ProxyLoop.Check

open Lib (Reach anyStep Each)

variable {runId : String} {log events : List Event} {e : Event}

/-! ## The check -/

abbrev Subject := PostSubject × String × String

inductive CauseError
  | unknown (seq : Nat) (causes : List Nat)
  | uncited (seq : Nat)
  | decided (what : Subject)

/-- What `_log_failures` reads of the manifest. -/
structure Manifest where
  runId : String
  /-- its `cfg_hash`, `split` and `contract_version` -/
  started : SessionStarted

inductive LogFailure
  | unopened
  | manifest (key : String)
  | unended
  | runs (others : List String)
  | gap (position seq : Nat)
  | clock
  | causes (error : CauseError)
  | epoch (seq epoch folded : Nat)
  | rejected (seq : Nat) (error : FoldError)

/-- `seen.get(c)`: an id is the run of the event that cites it and a number. -/
def seenAt (seen : List Event) (e : Event) (c : Nat) : Option Event :=
  (seen.filter fun x => x.runId = e.runId && x.seq = c).getLast?

def Payload.post? : Payload → Option ApprovalPost
  | .approvalPost p => some p
  | _ => none

/-- One event of `check_causes`: what is decided after it. -/
def causeStep (seen : List Event) (decided : List Subject) (e : Event) :
    Except CauseError (List Subject) :=
  let unknown := e.causes.filter fun c => (seenAt seen e c).isNone
  if unknown ≠ [] then .error (.unknown e.seq unknown)
  else if e.isDecision then
    match (e.causes.filterMap (seenAt seen e)).filter Event.isPost with
    | [post] =>
      if decides e post then
        match Payload.post? post.payload with
        | some p =>
          let what := (p.subject, p.subjectId, p.subjectHash)
          if decided.contains what then .error (.decided what) else .ok (what :: decided)
        | none => .error (.uncited e.seq)
      else .error (.uncited e.seq)
    | _ => .error (.uncited e.seq)
  else .ok decided

def causesFrom (seen : List Event) (decided : List Subject) :
    List Event → Except CauseError (List Subject)
  | [] => .ok decided
  | e :: rest =>
    match causeStep seen decided e with
    | .ok decided => causesFrom (seen ++ [e]) decided rest
    | .error error => .error error

/-- `_fold_failures`: the fold accepts every event, at the epoch of its envelope. -/
def foldFailures (bb : Blackboard) : List Event → List LogFailure
  | [] => []
  | e :: rest =>
    if e.epoch ≠ bb.epoch then [.epoch e.seq e.epoch bb.epoch]
    else match apply bb e with
      | .error error => [.rejected e.seq error]
      | .ok bb => foldFailures bb rest

def started? (e : Event) : Option SessionStarted :=
  match e.payload with
  | .sessionStarted started => some started
  | _ => none

def isEnd (e : Event) : Bool :=
  match e.payload with
  | .sessionEnded _ => true
  | _ => false

def positions (p : Event → Bool) (events : List Event) : List Nat :=
  (events.zipIdx.filter fun x => p x.1).map Prod.snd

/-- The keys that `session.started` and the manifest do not agree on. -/
def disagreed (started manifest : SessionStarted) : List LogFailure :=
  (if started.cfgHash ≠ manifest.cfgHash then [.manifest "cfg_hash"] else []) ++
  (if started.split ≠ manifest.split then [.manifest "split"] else []) ++
  (if started.contractVersion ≠ manifest.contractVersion then [.manifest "contract_version"]
    else [])

def startFailures (m : Manifest) (events : List Event) : List LogFailure :=
  match events.head?.bind started? with
  | none => [.unopened]
  | some started => disagreed started m.started

def logFailures (m : Manifest) (events : List Event) : List LogFailure :=
  let others := ((events.map (·.runId)).filter (· ≠ m.runId)).dedup.mergeSort
  let gaps := (events.zipIdx.filter fun x => x.1.seq ≠ x.2).map fun x => LogFailure.gap x.2 x.1.seq
  startFailures m events ++
  (if positions isEnd events ≠ [events.length - 1] then [.unended] else []) ++
  (if others ≠ [] then [.runs others] else []) ++ gaps.take 1 ++
  (if events.IsChain (·.tMs ≤ ·.tMs) then [] else [.clock]) ++
  (match causesFrom [] [] events with
    | .error error => [.causes error]
    | .ok _ => []) ++
  foldFailures {} events

/-! ## The rule of an event -/

/-- What the check asks of an event, told with the events before it. -/
structure Rule (runId : String) (log : List Event) (e : Event) : Prop where
  runId : e.runId = runId
  seq : e.seq = log.length
  clock : log.getLast?.all (·.tMs ≤ e.tMs) = true
  causes : e.isDecision = true → checkCauses log e = true
  folded : ∃ b b', fold log = .ok b ∧ e.epoch = b.epoch ∧ apply b e = .ok b'
  open_ : log.getLast?.any isEnd = false

/-! ## What the bus writes -/

structure Act where
  tMs : Nat
  actor : Actor
  causes : List Nat
  payload : Payload

def emitStep (b : Bus) (a : Act) : Option Bus := b.emit a.tMs a.actor a.causes a.payload

theorem ended_eq (b : Bus) : b.ended = b.events.getLast?.any isEnd := by
  unfold Bus.ended isEnd
  cases b.events.getLast? with
  | none => rfl
  | some e => rcases e with ⟨_, _, _, _, _, _, payload⟩; cases payload <;> rfl

/-- The bus writes the events that the rule lets through, and no others. -/
theorem emit_iff {b b' : Bus} (sound : b.Sound) {a : Act}
    (stamped : b.next a.tMs a.actor a.causes a.payload = e) :
    emitStep b a = some b' ↔ Rule b.runId b.events e ∧ e.wellFormed = true ∧
      ∃ bb, apply b.bb e = .ok bb ∧ b' = { b with bb, events := b.events ++ [e] } := by
  have run : e.runId = b.runId := stamped ▸ rfl
  have seq : e.seq = b.events.length := stamped ▸ rfl
  have epoch : e.epoch = b.bb.epoch := stamped ▸ rfl
  have clock : b.inOrder a.tMs = b.events.getLast?.all (·.tMs ≤ e.tMs) := stamped ▸ rfl
  unfold emitStep Bus.emit
  rw [stamped]
  dsimp only
  constructor
  · intro h
    split at h
    · cases h
    rename_i free
    split at h
    · cases h
    rename_i bb applied
    split at h
    · cases h
    rename_i ordered
    cases h
    simp only [Bool.or_eq_true, Bool.not_eq_true', not_or, Bool.not_eq_true,
      Bool.not_eq_false] at free
    simp only [Bool.or_eq_true, Bool.not_eq_true', Bool.and_eq_true, not_or, not_and,
      Bool.not_eq_false] at ordered
    exact ⟨⟨run, seq, clock ▸ ordered.1, ordered.2, ⟨b.bb, bb, sound.fold, epoch, applied⟩,
      ended_eq b ▸ free.1⟩, free.2, bb, applied, rfl⟩
  · rintro ⟨rule, formed, bb, applied, rfl⟩
    rw [if_neg (by simp [ended_eq, rule.open_, formed]), applied]
    have ordered : (!b.inOrder a.tMs || (e.isDecision && !checkCauses b.events e)) = false := by
      rw [clock, rule.clock]
      cases decision : e.isDecision with
      | false => rfl
      | true => simp [rule.causes decision]
    simp only [ordered, Bool.false_eq_true, if_false]

/-- A log is written by the bus exactly if the rule lets each of its events through. -/
theorem written_iff : (∃ b, Reach emitStep anyStep { runId } b ∧ b.events = log) ↔
    Each (Rule runId) log ∧ ∀ e ∈ log, e.wellFormed = true := by
  constructor
  · rintro ⟨b, reach, rfl⟩
    have all := reach.invariant (I := fun b => b.Sound ∧ b.runId = runId ∧
        Each (Rule runId) b.events ∧ ∀ e ∈ b.events, e.wellFormed = true)
      ⟨Bus.sound_new runId, rfl, Lib.each_nil _, by simp⟩ ?_
    · exact all.2.2
    rintro b a b' - ⟨sound, rfl, each, formed⟩ - step
    obtain ⟨rule, ok, bb, -, rfl⟩ := (emit_iff sound rfl).mp step
    refine ⟨sound.emit step, rfl, Lib.each_snoc.mpr ⟨each, rule⟩, fun x mem => ?_⟩
    rcases List.mem_append.mp mem with mem | mem
    · exact formed x mem
    · rw [List.mem_singleton.mp mem]
      exact ok
  · rintro ⟨each, formed⟩
    suffices all : ∃ b, Reach emitStep anyStep { runId } b ∧ b.events = log ∧ b.Sound ∧
        b.runId = runId by
      obtain ⟨b, reach, same, -⟩ := all
      exact ⟨b, reach, same⟩
    induction log using List.reverseRecOn with
    | nil => exact ⟨_, .start, rfl, Bus.sound_new runId, rfl⟩
    | append_singleton log e ih =>
      obtain ⟨each, rule⟩ := Lib.each_snoc.mp each
      obtain ⟨b, reach, rfl, sound, rfl⟩ := ih each fun x mem => formed x (by simp [mem])
      obtain ⟨folded, bb, here, epoch, applied⟩ := rule.folded
      obtain rfl : folded = b.bb := Except.ok.inj (here.symm.trans sound.fold)
      have same : e = b.next e.tMs e.actor e.causes e.payload := by
        have run := rule.runId
        have seq := rule.seq
        rcases e with ⟨_, _, _, _, _, _, _⟩
        subst run seq epoch
        rfl
      have step : emitStep b ⟨e.tMs, e.actor, e.causes, e.payload⟩ =
          some { b with bb, events := b.events ++ [e] } := by
        exact (emit_iff sound same.symm).mpr ⟨rule, formed e (by simp), bb, applied, rfl⟩
      exact ⟨_, .next _ reach trivial step, rfl, sound.emit step, rfl⟩

/-! ## The check, event by event -/

theorem foldFailures_snoc (bb : Blackboard) (log : List Event) (e : Event) :
    foldFailures bb (log ++ [e]) = [] ↔ foldFailures bb log = [] ∧
      ∃ b b', fold log bb = .ok b ∧ e.epoch = b.epoch ∧ apply b e = .ok b' := by
  induction log generalizing bb with
  | nil =>
    have start : fold [] bb = .ok bb := rfl
    simp only [List.nil_append, foldFailures, start, Except.ok.injEq, true_and]
    constructor
    · intro h
      split at h
      · cases h
      rename_i epoch
      split at h
      · cases h
      rename_i b' applied
      exact ⟨bb, b', rfl, not_not.mp epoch, applied⟩
    · rintro ⟨b, b', rfl, epoch, applied⟩
      rw [if_neg (not_not.mpr epoch), applied]
  | cons x log ih =>
    simp only [List.cons_append, foldFailures]
    split
    · simp
    cases applied : apply bb x with
    | error error => simp
    | ok b =>
      have first (c : Blackboard) : fold (x :: log) bb = .ok c ↔ fold log b = .ok c := by
        rw [fold_cons, applied]
        simp
      simp only [ih, first]

theorem causesFrom_snoc (seen : List Event) (decided : List Subject) (log : List Event)
    (e : Event) : causesFrom seen decided (log ++ [e]) =
      match causesFrom seen decided log with
      | .ok decided => causeStep (seen ++ log) decided e
      | .error error => .error error := by
  induction log generalizing seen decided with
  | nil =>
    simp only [List.nil_append, causesFrom, List.append_nil]
    cases causeStep seen decided e <;> rfl
  | cons x log ih =>
    simp only [List.cons_append, causesFrom]
    cases causeStep seen decided x with
    | error error => rfl
    | ok decided =>
      simp only [ih]
      rw [List.append_assoc, List.singleton_append]

/-- The log of one run, with dense numbers. -/
structure Dense (runId : String) (log : List Event) : Prop where
  runs : ∀ e ∈ log, e.runId = runId
  seqs : ∀ (i : Nat) (e : Event), log[i]? = some e → e.seq = i

theorem dense_snoc : Dense runId (log ++ [e]) ↔
    Dense runId log ∧ e.runId = runId ∧ e.seq = log.length := by
  constructor
  · rintro ⟨runs, seqs⟩
    refine ⟨⟨fun x mem => runs x (by simp [mem]), fun i x at_ => seqs i x ?_⟩, runs e (by simp),
      seqs log.length e (by simp)⟩
    rw [List.getElem?_append_left (List.getElem?_eq_some_iff.mp at_).1, at_]
  · rintro ⟨⟨runs, seqs⟩, run, seq⟩
    refine ⟨fun x mem => ?_, fun i x at_ => ?_⟩
    · rcases List.mem_append.mp mem with mem | mem
      · exact runs x mem
      · rw [List.mem_singleton.mp mem, run]
    · rw [List.getElem?_append] at at_
      split at at_
      · exact seqs i x at_
      · rw [List.getElem?_singleton] at at_
        split at at_
        · cases at_
          omega
        · cases at_

/-- The event of a number is the one that stands there. -/
theorem Dense.filter_seq (dense : Dense runId log) (c : Nat) :
    log.filter (·.seq = c) = log[c]?.toList := by
  induction log using List.reverseRecOn with
  | nil => rfl
  | append_singleton log e ih =>
    obtain ⟨dense, -, seq⟩ := dense_snoc.mp dense
    rw [List.filter_append, ih dense, List.getElem?_append]
    by_cases here : c = log.length
    · subst here
      simp [seq]
    · have other : e.seq ≠ c := by omega
      by_cases before : c < log.length
      · simp [before, other]
      · have after : [e][c - log.length]? = none := List.getElem?_eq_none (by simp; omega)
        simp [before, other, after]

theorem Dense.seenAt (dense : Dense runId log) (run : e.runId = runId) (c : Nat) :
    seenAt log e c = log[c]? := by
  have same : log.filter (fun x => x.runId = e.runId && x.seq = c) = log.filter (·.seq = c) :=
    List.filter_congr fun x mem => by simp [dense.runs x mem, run]
  rw [Check.seenAt, same, dense.filter_seq]
  cases log[c]? <;> rfl

theorem Dense.find? (dense : Dense runId log) (c : Nat) : log.find? (·.seq = c) = log[c]? := by
  rw [← List.head?_filter, dense.filter_seq]
  cases log[c]? <;> rfl

/-! ## Causes -/

def Decided (log : List Event) (decided : List Subject) : Prop :=
  ∀ what, what ∈ decided ↔ ∃ d ∈ log, d.isDecision = true ∧ decidedSubject log d = some what

theorem Dense.citedPosts (dense : Dense runId log) (run : e.runId = runId) :
    (e.causes.filterMap (Check.seenAt log e)).filter Event.isPost = citedPosts log e := by
  unfold ProxyLoop.citedPosts
  rw [List.filter_filterMap]
  refine List.filterMap_congr fun c _ => ?_
  rw [dense.seenAt run, dense.find?]

theorem citedPosts_snoc (dense : Dense runId (log ++ [e])) {d : Event}
    (earlier : ∀ c ∈ d.causes, c < log.length) :
    citedPosts (log ++ [e]) d = citedPosts log d := by
  unfold citedPosts
  refine List.filterMap_congr fun c mem => ?_
  rw [dense.find?, (dense_snoc.mp dense).1.find?, List.getElem?_append_left (earlier c mem)]

theorem decidedSubject_of_post {post : Event} {p : ApprovalPost} (own : citedPosts log e = [post])
    (payload : Payload.post? post.payload = some p) :
    decidedSubject log e = some (p.subject, p.subjectId, p.subjectHash) := by
  rcases post with ⟨_, _, _, _, _, _, payload'⟩
  unfold decidedSubject
  rw [own]
  cases payload' <;> cases payload
  rfl

theorem wellFormed_causes (formed : e.wellFormed = true) : ∀ c ∈ e.causes, c < e.seq := by
  simp only [Event.wellFormed, Bool.and_eq_true, List.all_eq_true, decide_eq_true_eq] at formed
  exact formed.1.1.2

/-- A log of one run with dense numbers and well-formed envelopes. -/
structure Formed (runId : String) (log : List Event) : Prop extends Dense runId log where
  formed : ∀ e ∈ log, e.wellFormed = true

theorem formed_snoc : Formed runId (log ++ [e]) ↔
    Formed runId log ∧ e.runId = runId ∧ e.seq = log.length ∧ e.wellFormed = true := by
  constructor
  · rintro ⟨dense, formed⟩
    obtain ⟨dense, run, seq⟩ := dense_snoc.mp dense
    exact ⟨⟨dense, fun x mem => formed x (by simp [mem])⟩, run, seq, formed e (by simp)⟩
  · rintro ⟨⟨dense, formed⟩, run, seq, ok⟩
    refine ⟨dense_snoc.mpr ⟨dense, run, seq⟩, fun x mem => ?_⟩
    rcases List.mem_append.mp mem with mem | mem
    · exact formed x mem
    · rw [List.mem_singleton.mp mem]
      exact ok

theorem Formed.subject_snoc (formed : Formed runId (log ++ [e])) {d : Event}
    (mem : d ∈ log ++ [e]) : decidedSubject (log ++ [e]) d = decidedSubject log d := by
  obtain ⟨i, at_⟩ := List.mem_iff_getElem?.mp mem
  have seq := formed.seqs i d at_
  have within := (List.getElem?_eq_some_iff.mp at_).1
  unfold decidedSubject
  rw [citedPosts_snoc formed.toDense fun c hc => ?_]
  have := wellFormed_causes (formed.formed d mem) c hc
  rw [List.length_append, List.length_singleton] at within
  omega

theorem Formed.causeStep (formed : Formed runId (log ++ [e])) (decided : List Subject) :
    causeStep log decided e =
      if e.isDecision then
        match citedPosts log e with
        | [post] =>
          if decides e post then
            match Payload.post? post.payload with
            | some p =>
              let what := (p.subject, p.subjectId, p.subjectHash)
              if decided.contains what then .error (.decided what) else .ok (what :: decided)
            | none => .error (.uncited e.seq)
          else .error (.uncited e.seq)
        | _ => .error (.uncited e.seq)
      else .ok decided := by
  obtain ⟨before, run, seq, ok⟩ := formed_snoc.mp formed
  have known : e.causes.filter (fun c => (seenAt log e c).isNone) = [] := by
    refine List.filter_eq_nil_iff.mpr fun c mem => ?_
    have earlier := wellFormed_causes ok c mem
    rw [before.toDense.seenAt run, List.getElem?_eq_getElem (by omega)]
    simp
  unfold Check.causeStep
  simp only [known, before.toDense.citedPosts run, ne_eq, not_true_eq_false, if_false]

theorem Formed.decided_snoc (formed : Formed runId (log ++ [e])) {decided decided' : List Subject}
    (told : Decided log decided)
    (more : ∀ what, what ∈ decided' ↔ what ∈ decided ∨
      e.isDecision = true ∧ decidedSubject log e = some what) : Decided (log ++ [e]) decided' := by
  intro what
  rw [more, told]
  constructor
  · rintro (⟨d, mem, decision, subject⟩ | ⟨decision, subject⟩)
    · exact ⟨d, by simp [mem], decision, by rwa [formed.subject_snoc (by simp [mem])]⟩
    · exact ⟨e, by simp, decision, by rwa [formed.subject_snoc (by simp)]⟩
  · rintro ⟨d, mem, decision, subject⟩
    rw [formed.subject_snoc mem] at subject
    rcases List.mem_append.mp mem with mem | mem
    · exact .inl ⟨d, mem, decision, subject⟩
    · obtain rfl := List.mem_singleton.mp mem
      exact .inr ⟨decision, subject⟩

/-- An event passes where it keeps the rule of decisions: it cites the one post that it decides, of
a subject that was not decided before. -/
theorem Formed.causeStep_cases (formed : Formed runId (log ++ [e])) {decided : List Subject}
    (told : Decided log decided) :
    (∃ decided', Check.causeStep log decided e = .ok decided' ∧ Decided (log ++ [e]) decided' ∧
      (e.isDecision = true → checkCauses log e = true)) ∨
    (∃ error, Check.causeStep log decided e = .error error) ∧ e.isDecision = true ∧
      checkCauses log e = false := by
  rw [formed.causeStep]
  by_cases decision : e.isDecision = true
  · rw [if_pos decision]
    unfold checkCauses
    rcases own : citedPosts log e with - | ⟨post, - | ⟨post', rest⟩⟩
    · exact .inr ⟨⟨_, rfl⟩, decision, rfl⟩
    · have isPost : Event.isPost post = true := by
        have mem : post ∈ citedPosts log e := by simp [own]
        unfold citedPosts at mem
        obtain ⟨c, -, found⟩ := List.mem_filterMap.mp mem
        exact (Option.filter_eq_some_iff.mp found).2
      obtain ⟨p, payload⟩ : ∃ p, Payload.post? post.payload = some p := by
        unfold Event.isPost at isPost
        split at isPost
        · rename_i p payload
          exact ⟨p, by rw [payload]; rfl⟩
        · cases isPost
      have subject := decidedSubject_of_post own payload
      have fresh : ((log.filter Event.isDecision).all fun d =>
          decidedSubject log d ≠ decidedSubject log e) = true ↔
            (p.subject, p.subjectId, p.subjectHash) ∉ decided := by
        rw [told, subject]
        simp only [List.all_eq_true, List.mem_filter, decide_eq_true_eq, not_exists, not_and]
        exact ⟨fun h d mem decision => h d ⟨mem, decision⟩, fun h d mem => h d mem.1 mem.2⟩
      dsimp only
      rw [payload]
      dsimp only
      by_cases decides_ : decides e post = true
      · rw [if_pos decides_, decides_, Bool.true_and]
        by_cases old : (p.subject, p.subjectId, p.subjectHash) ∈ decided
        · rw [if_pos (by simpa using old)]
          refine .inr ⟨⟨_, rfl⟩, decision, ?_⟩
          rw [Bool.eq_false_iff, ne_eq, fresh]
          exact not_not.mpr old
        · rw [if_neg (by simpa using old)]
          refine .inl ⟨_, rfl, formed.decided_snoc told fun what => ?_, fun _ => fresh.mpr old⟩
          rw [List.mem_cons, or_comm, subject, Option.some.injEq, eq_comm]
          simp [decision]
      · rw [if_neg decides_, Bool.eq_false_iff.mpr decides_]
        exact .inr ⟨⟨_, rfl⟩, decision, rfl⟩
    · exact .inr ⟨⟨_, rfl⟩, decision, rfl⟩
  · rw [if_neg decision]
    exact .inl ⟨decided, rfl, formed.decided_snoc told fun what => by simp [decision],
      fun bad => absurd bad decision⟩

theorem Formed.decided (formed : Formed runId log) {decided : List Subject}
    (h : causesFrom [] [] log = .ok decided) : Decided log decided := by
  induction log using List.reverseRecOn generalizing decided with
  | nil =>
    cases h
    intro what
    simp
  | append_singleton log e ih =>
    rw [causesFrom_snoc, List.nil_append] at h
    split at h
    · rename_i decided₀ before
      rcases formed.causeStep_cases (ih (formed_snoc.mp formed).1 before) with
        ⟨decided', step, told, -⟩ | ⟨⟨error, step⟩, -⟩
      · rw [step] at h
        cases h
        exact told
      · rw [step] at h
        cases h
    · cases h

theorem Formed.causes_snoc (formed : Formed runId (log ++ [e])) :
    (∃ decided, causesFrom [] [] (log ++ [e]) = .ok decided) ↔
      (∃ decided, causesFrom [] [] log = .ok decided) ∧
        (e.isDecision = true → checkCauses log e = true) := by
  rw [causesFrom_snoc, List.nil_append]
  cases before : causesFrom [] [] log with
  | error error => simp
  | ok decided =>
    dsimp only
    rcases formed.causeStep_cases ((formed_snoc.mp formed).1.decided before) with
      ⟨decided', step, -, own⟩ | ⟨⟨error, step⟩, decision, bad⟩
    · rw [step]
      exact ⟨fun _ => ⟨⟨decided, rfl⟩, own⟩, fun _ => ⟨decided', rfl⟩⟩
    · rw [step]
      simp [decision, bad]

/-! ## The whole log -/

/-- What the check asks of a log, its first and its last event apart. -/
structure Clean (runId : String) (log : List Event) : Prop extends Dense runId log where
  clock : log.IsChain (·.tMs ≤ ·.tMs)
  causes : ∃ decided, causesFrom [] [] log = .ok decided
  folds : foldFailures {} log = []
  open_ : ∀ e ∈ log.dropLast, isEnd e = false

theorem clean_snoc (formed : ∀ x ∈ log ++ [e], x.wellFormed = true) :
    Clean runId (log ++ [e]) ↔ Clean runId log ∧ Rule runId log e := by
  have open_iff : (∀ x ∈ log, isEnd x = false) ↔
      (∀ x ∈ log.dropLast, isEnd x = false) ∧ log.getLast?.any isEnd = false := by
    rcases List.eq_nil_or_concat log with rfl | ⟨log, x, rfl⟩
    · simp
    · simp [or_imp, forall_and]
  have clock_iff : (log ++ [e]).IsChain (·.tMs ≤ ·.tMs) ↔
      log.IsChain (·.tMs ≤ ·.tMs) ∧ log.getLast?.all (·.tMs ≤ e.tMs) = true := by
    rw [List.isChain_append]
    cases log.getLast? <;> simp
  constructor
  · rintro ⟨dense, clock, causes, folds, open_⟩
    rw [List.dropLast_concat] at open_
    obtain ⟨before, run, seq⟩ := dense_snoc.mp dense
    obtain ⟨clock, last⟩ := clock_iff.mp clock
    obtain ⟨causes, own⟩ := (Formed.causes_snoc ⟨dense, formed⟩).mp causes
    obtain ⟨folds, folded⟩ := (foldFailures_snoc _ _ _).mp folds
    obtain ⟨still, end_⟩ := open_iff.mp open_
    exact ⟨⟨before, clock, causes, folds, still⟩, ⟨run, seq, last, own, folded, end_⟩⟩
  · rintro ⟨⟨dense, clock, causes, folds, open_⟩, rule⟩
    have dense' := dense_snoc.mpr ⟨dense, rule.runId, rule.seq⟩
    refine ⟨dense', clock_iff.mpr ⟨clock, rule.clock⟩,
      (Formed.causes_snoc ⟨dense', formed⟩).mpr ⟨causes, rule.causes⟩,
      (foldFailures_snoc _ _ _).mpr ⟨folds, rule.folded⟩, ?_⟩
    rw [List.dropLast_concat]
    exact open_iff.mpr ⟨open_, rule.open_⟩

/-- A log is clean exactly if the rule lets each of its events through. -/
theorem clean_iff (formed : ∀ x ∈ log, x.wellFormed = true) :
    Clean runId log ↔ Each (Rule runId) log := by
  induction log using List.reverseRecOn with
  | nil =>
    exact ⟨fun _ => Lib.each_nil _, fun _ =>
      ⟨⟨by simp, by simp⟩, by simp, ⟨[], rfl⟩, rfl, by simp⟩⟩
  | append_singleton log e ih =>
    rw [clean_snoc formed, Lib.each_snoc, ih fun x mem => formed x (by simp [mem])]

theorem positions_eq_nil {p : Event → Bool} : positions p log = [] ↔ ∀ e ∈ log, p e = false := by
  unfold positions
  rw [List.map_eq_nil_iff, List.filter_eq_nil_iff]
  constructor
  · intro h e mem
    obtain ⟨i, at_⟩ := List.mem_iff_getElem?.mp mem
    simpa using h (e, i) (List.mem_zipIdx_iff_getElem?.mpr at_)
  · intro h x mem
    simpa using h x.1 (List.mem_of_getElem? (List.mem_zipIdx_iff_getElem?.mp mem))

theorem ends_once : positions isEnd log = [log.length - 1] ↔
    (∀ e ∈ log.dropLast, isEnd e = false) ∧ log.getLast?.any isEnd = true := by
  rcases List.eq_nil_or_concat log with rfl | ⟨log, e, rfl⟩
  · simp [positions]
  · have split : positions isEnd (log ++ [e]) =
        positions isEnd log ++ if isEnd e then [log.length] else [] := by
      unfold positions
      rw [List.zipIdx_append, List.filter_append, List.map_append]
      cases ends : isEnd e <;> simp [ends]
    rw [List.concat_eq_append, split, List.dropLast_concat, ← positions_eq_nil]
    cases ends : isEnd e with
    | true => simp [ends]
    | false =>
      simp only [ends, Bool.false_eq_true, if_false, List.append_nil, List.length_append,
        List.length_singleton, Nat.add_sub_cancel, List.getLast?_concat, Option.any_some,
        and_false, iff_false]
      intro one
      have mem : log.length ∈ positions isEnd log := by simp [one]
      obtain ⟨x, mem, at_⟩ := List.mem_map.mp mem
      have at_' := List.mem_zipIdx_iff_getElem?.mp (List.mem_filter.mp mem).1
      have := (List.getElem?_eq_some_iff.mp at_').1
      omega

theorem disagreed_eq_nil {started manifest : SessionStarted} :
    disagreed started manifest = [] ↔ started = manifest := by
  rcases started with ⟨cfgHash, split_, contractVersion⟩
  rcases manifest with ⟨cfgHash', split', contractVersion'⟩
  simp [disagreed]

theorem startFailures_eq_nil {m : Manifest} :
    startFailures m log = [] ↔ log.head?.bind started? = some m.started := by
  unfold startFailures
  cases log.head?.bind started? with
  | none => simp
  | some started => simp [disagreed_eq_nil]

/-- The check finds nothing in a log exactly if the bus of the manifest's run can have written it,
from a start that tells what the manifest tells to its end. -/
theorem check_iff_written (m : Manifest) (log : List Event)
    (formed : ∀ e ∈ log, e.wellFormed = true) :
    logFailures m log = [] ↔
      (∃ b, Reach emitStep anyStep { runId := m.runId } b ∧ b.events = log) ∧
        log.head?.bind started? = some m.started ∧ log.getLast?.any isEnd = true := by
  have runs : ((log.map (·.runId)).filter (· ≠ m.runId)).dedup.mergeSort = [] ↔
      ∀ e ∈ log, e.runId = m.runId := by
    rw [← List.length_eq_zero_iff, List.length_mergeSort, List.length_eq_zero_iff,
      List.dedup_eq_nil]
    simp
  have seqs : ((log.zipIdx.filter fun x => x.1.seq ≠ x.2).map fun x =>
      LogFailure.gap x.2 x.1.seq).take 1 = [] ↔
        ∀ (i : Nat) (e : Event), log[i]? = some e → e.seq = i := by
    rw [List.take_eq_nil_iff]
    simp only [Nat.one_ne_zero, List.map_eq_nil_iff, List.filter_eq_nil_iff, false_or]
    constructor
    · intro h i e at_
      simpa using h (e, i) (List.mem_zipIdx_iff_getElem?.mpr at_)
    · intro h x mem
      simpa using h x.2 x.1 (List.mem_zipIdx_iff_getElem?.mp mem)
  have parts : logFailures m log = [] ↔ log.head?.bind started? = some m.started ∧
      log.getLast?.any isEnd = true ∧ Clean m.runId log := by
    have ends := @ends_once log
    unfold logFailures
    dsimp only
    simp only [List.append_eq_nil_iff, seqs, ite_eq_left_iff, ite_eq_right_iff, List.cons_ne_nil,
      imp_false, not_not, ne_eq, runs, ends, startFailures_eq_nil]
    constructor
    · rintro ⟨⟨⟨⟨⟨⟨start, open_, last⟩, runs⟩, seqs⟩, clock⟩, causes⟩, folds⟩
      refine ⟨start, last, ⟨⟨runs, seqs⟩, clock, ?_, folds, open_⟩⟩
      split at causes
      · cases causes
      · rename_i decided ok
        exact ⟨decided, ok⟩
    · rintro ⟨start, last, ⟨runs, seqs⟩, clock, ⟨decided, ok⟩, folds, open_⟩
      exact ⟨⟨⟨⟨⟨⟨start, open_, last⟩, runs⟩, seqs⟩, clock⟩, by rw [ok]⟩, folds⟩
  rw [parts, clean_iff formed, written_iff]
  exact ⟨fun h => ⟨⟨h.2.2, formed⟩, h.1, h.2.1⟩, fun h => ⟨h.2.1, h.2.2, h.1.1⟩⟩

def shortManifest : Manifest := ⟨"r", ⟨"c0ffee", "dev", "1"⟩⟩

def shortActs : List Act :=
  [⟨0, .kernel, [], .sessionStarted shortManifest.started⟩,
    ⟨5, .kernel, [], .userMsg "Lower my bill."⟩, ⟨9, .kernel, [], .sessionEnded "completed"⟩]

def shortLog : List Event :=
  [⟨"r", 0, 0, .kernel, [], 0, .sessionStarted shortManifest.started⟩,
    ⟨"r", 1, 5, .kernel, [], 0, .userMsg "Lower my bill."⟩,
    ⟨"r", 2, 9, .kernel, [], 0, .sessionEnded "completed"⟩]

theorem shortLog_written : ∃ b, Reach emitStep anyStep { runId := "r" } b ∧ b.events = shortLog :=
  ⟨_, Reach.start.run (rfl : Lib.run emitStep { runId := "r" } shortActs = some _), rfl⟩

/-- The log is clean under its own manifest, and not under that of another split. -/
theorem check_iff_written_sample : logFailures shortManifest shortLog = [] ∧
    logFailures ⟨"r", ⟨"c0ffee", "test", "1"⟩⟩ shortLog ≠ [] := by
  have formed : ∀ e ∈ shortLog, e.wellFormed = true := by
    simp only [shortLog, List.forall_mem_cons]
    exact ⟨rfl, rfl, rfl, by simp⟩
  refine ⟨(check_iff_written shortManifest shortLog formed).mpr ⟨shortLog_written, rfl, rfl⟩,
    fun clean => ?_⟩
  obtain ⟨-, start, -⟩ := (check_iff_written _ shortLog formed).mp clean
  exact absurd start (by decide)

end ProxyLoop.Check

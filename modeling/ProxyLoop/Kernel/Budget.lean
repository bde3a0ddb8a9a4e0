import ProxyLoop.Kernel.Spend

/-!
# What a session keeps of its budget

Each act of a session's tasks keeps its calls charged and its totals those of the calls; and an end
and a death stay, with what they forbid.
-/

namespace ProxyLoop.Spend

open Lib (Dict)
open Chain (LLMRole)

variable {ρ : Type}

/-! ## One act -/

section

variable {rates : Rates ρ} {s s' : Session} {e : Event} {r : Record}

theorem emit_ok (h : s.emit e = .ok s') : s' = { s with log := s.log ++ [e] } ∧
    (e.newWork = true → s.ending = none) ∧ (s.dead = true → e.afterDeath = true) ∧
    s.ended = false := by
  unfold Session.emit at h
  split at h
  · cases h
  · rename_i free
    split at h
    · cases h
    · rename_i alive
      split at h
      · cases h
      · rename_i on
        cases h
        refine ⟨rfl, fun work => ?_, fun dead => ?_, by simpa using on⟩
        · cases ending : s.ending with
          | none => rfl
          | some reason => exact absurd work (free reason ending)
        · simpa [dead] using alive

/-- A call is refused before it is logged, or is logged and charged at once. -/
theorem record_cases (rates : Rates ρ) (s : Session) (r : Record) :
    (∃ refusal, s.record rates r = .error refusal) ∧ (r.callId ∉ s.expected ∨ s.ended = true) ∨
    s.ended = false ∧ ∃ ending, s.record rates r = .ok { s with
        ledger := s.ledger.add (price rates r) r
        log := s.log ++ [.call r, .charged (price rates r) s.log.length]
        ending := ending } ∧
      (∀ reason, s.ending = some reason → ending = some reason) ∧
      ((s.ledger.add (price rates r) r).runaway?.isSome = true → ending ≠ none) ∧
      ((s.ledger.add (price rates r) r).runaway?.isSome = false → ending = s.ending) := by
  unfold Session.record
  by_cases known : r.callId ∈ s.expected
  · rw [if_neg (not_not.mpr known)]
    cases on : s.ended with
    | true =>
      refine .inl ⟨⟨.ended, ?_⟩, .inr rfl⟩
      simp [Session.emit, Event.newWork, Event.afterDeath, on, bind, Except.bind]
    | false =>
      refine .inr ⟨rfl, ?_⟩
      cases ran : (s.ledger.add (price rates r) r).runaway?.isSome with
      | true =>
        refine ⟨some (s.ending.getD "budget"), ?_, fun reason h => by rw [h]; rfl, by simp, by simp⟩
        simp [Session.emit, Session.charge, Session.end_, SpendLedger.charge, Event.newWork,
          Event.afterDeath, on, bind, Except.bind, ran]
      | false =>
        refine ⟨s.ending, ?_, fun reason h => h, by simp, fun _ => rfl⟩
        simp [Session.emit, Session.charge, SpendLedger.charge, Event.newWork,
          Event.afterDeath, on, bind, Except.bind, ran]
  · rw [if_pos known]
    exact .inl ⟨⟨_, rfl⟩, .inl known⟩

/-- A session closes once. -/
theorem close_cases (s : Session) (reason : String) :
    (∃ refusal, s.close reason = .error refusal) ∨
    s.ended = false ∧ s.close reason = .ok { s with
      log := s.log ++ [.ended reason s.ledger.totals]
      ended := true } := by
  unfold Session.close
  cases on : s.ended with
  | true =>
    refine .inl ⟨.ended, ?_⟩
    simp [Session.emit, Event.newWork, Event.afterDeath, on, bind, Except.bind]
  | false =>
    refine .inr ⟨rfl, ?_⟩
    simp [Session.emit, Event.newWork, Event.afterDeath, on, bind, Except.bind]

/-- What an act can do: nothing is lost, an end and a death stay, and what they forbid is not
written. -/
structure Follows (s s' : Session) : Prop where
  log : ∃ tail, s'.log = s.log ++ tail ∧
    (s.ending ≠ none → ∀ e ∈ tail, e.newWork = false) ∧
    (s.dead = true → ∀ e ∈ tail, e.afterDeath = true) ∧ (s.ended = true → tail = [])
  ending : ∀ reason, s.ending = some reason → s'.ending = some reason
  dead : s.dead = true → s'.dead = true
  ended : s.ended = true → s'.ended = true

theorem Follows.refl (s : Session) : Follows s s where
  log := ⟨[], (List.append_nil _).symm, by simp, by simp, fun _ => rfl⟩
  ending _ h := h
  dead h := h
  ended h := h

theorem Follows.trans {a b c : Session} (h : Follows a b) (h' : Follows b c) : Follows a c where
  log := by
    obtain ⟨tail, log, work, dead, ended⟩ := h.log
    obtain ⟨tail', log', work', dead', ended'⟩ := h'.log
    refine ⟨tail ++ tail', by rw [log', log, List.append_assoc], fun ending e he => ?_,
      fun died e he => ?_, fun over_ => ?_⟩
    · rcases List.mem_append.mp he with he | he
      · exact work ending e he
      · obtain ⟨reason, own⟩ := Option.ne_none_iff_exists'.mp ending
        exact work' (by rw [h.ending reason own]; simp) e he
    · rcases List.mem_append.mp he with he | he
      · exact dead died e he
      · exact dead' (h.dead died) e he
    · rw [ended over_, ended' (h.ended over_)]
      rfl
  ending reason own := h'.ending reason (h.ending reason own)
  dead died := h'.dead (h.dead died)
  ended over_ := h'.ended (h.ended over_)

theorem step_follows {a : Act} (h : step rates s a = some s') : Follows s s' := by
  cases a with
  | emit e =>
    simp only [step] at h
    split at h
    · cases made : s.emit e with
      | error refusal =>
        rw [made] at h
        cases h
        exact .refl _
      | ok t =>
        rw [made] at h
        cases h
        obtain ⟨rfl, work, dead, on⟩ := emit_ok made
        refine ⟨⟨[e], rfl, fun ending e' he => ?_, fun died e' he => ?_, fun over_ => ?_⟩,
          fun _ h => h, fun h => h, fun h => h⟩
        · cases List.mem_singleton.mp he
          cases new : e.newWork with
          | false => rfl
          | true => exact absurd (work new) ending
        · cases List.mem_singleton.mp he
          exact dead died
        · rw [on] at over_
          cases over_
    · cases h
  | expect callId =>
    cases h
    exact ⟨(Follows.refl s).log, fun _ h => h, fun h => h, fun h => h⟩
  | record r =>
    simp only [step] at h
    rcases record_cases rates s r with ⟨⟨refusal, made⟩, -⟩ | ⟨on, ending, made, kept, -⟩
    · rw [made] at h
      cases h
      exact .refl _
    · rw [made] at h
      cases h
      refine ⟨⟨_, rfl, fun _ e he => ?_, fun _ e he => ?_, fun over_ => ?_⟩, kept, fun h => h,
        fun h => h⟩
      · rcases List.mem_cons.mp he with rfl | he
        · rfl
        · cases List.mem_singleton.mp he
          rfl
      · rcases List.mem_cons.mp he with rfl | he
        · rfl
        · cases List.mem_singleton.mp he
          rfl
      · rw [on] at over_
        cases over_
  | end_ reason =>
    cases h
    refine ⟨(Follows.refl s).log, fun first own => ?_, fun h => h, fun h => h⟩
    simp [Session.end_, own]
  | die =>
    cases h
    exact ⟨(Follows.refl s).log, fun _ h => h, fun _ => rfl, fun h => h⟩
  | close reason =>
    simp only [step] at h
    rcases close_cases s reason with ⟨refusal, made⟩ | ⟨on, made⟩
    · rw [made] at h
      cases h
      exact .refl _
    · rw [made] at h
      cases h
      refine ⟨⟨_, rfl, fun _ e he => ?_, fun _ e he => ?_, fun over_ => ?_⟩, fun _ h => h,
        fun h => h, fun _ => rfl⟩
      · cases List.mem_singleton.mp he
        rfl
      · cases List.mem_singleton.mp he
        rfl
      · rw [on] at over_
        cases over_

end

/-! ## A session -/

/-- A call is followed by its charge, and a charge follows its call. -/
def Paired (rates : Rates ρ) (log : List Event) : Prop :=
  (∀ n r, log[n]? = some (.call r) → log[n + 1]? = some (.charged (price rates r) n)) ∧
  ∀ n charge cause, log[n]? = some (.charged charge cause) →
    n = cause + 1 ∧ ∃ r, log[cause]? = some (.call r)

structure Sound (rates : Rates ρ) (l₀ : SpendLedger) (s : Session) : Prop where
  limits : SameLimits l₀ s.ledger
  tallied : Tallied rates s.ledger.totals (records s.log)
  paired : Paired rates s.log
  stops : Over rates l₀ (records s.log) → s.ending ≠ none
  closed : ∀ pre reason spend post, s.log = pre ++ .ended reason spend :: post →
    post = [] ∧ Tallied rates spend (records pre)
  open_ : s.ended = false → ∀ reason spend, .ended reason spend ∉ s.log

section

variable {rates : Rates ρ} {l₀ : SpendLedger} {s s' : Session} {e : Event}

theorem records_snoc (log : List Event) (h : ∀ r, e ≠ .call r) :
    records (log ++ [e]) = records log := by
  rw [records, List.filterMap_append]
  cases e <;> simp_all [records]

/-- An event that is neither a call nor a charge. -/
theorem Paired.snoc {log : List Event} (h : Paired rates log) (bare : ∀ r, e ≠ .call r)
    (free : ∀ charge cause, e ≠ .charged charge cause) : Paired rates (log ++ [e]) := by
  have old : ∀ {n : Nat} {x : Event}, (log ++ [e])[n]? = some x → x = e ∨ log[n]? = some x := by
    intro n x hx
    rw [List.getElem?_append] at hx
    split at hx
    · exact .inr hx
    · rw [List.getElem?_singleton] at hx
      split at hx
      · exact .inl (Option.some.inj hx).symm
      · cases hx
  have kept : ∀ {n : Nat} {x : Event}, log[n]? = some x → (log ++ [e])[n]? = some x := by
    intro n x hx
    rw [List.getElem?_append_left (List.getElem?_eq_some_iff.mp hx).1]
    exact hx
  refine ⟨fun n r hr => ?_, fun n charge cause hc => ?_⟩
  · rcases old hr with bad | hr
    · exact absurd bad.symm (bare r)
    · exact kept (h.1 n r hr)
  · rcases old hc with bad | hc
    · exact absurd bad.symm (free charge cause)
    · obtain ⟨next, r, hr⟩ := h.2 n charge cause hc
      exact ⟨next, r, kept hr⟩

/-- A call and its charge. -/
theorem Paired.pair {log : List Event} (h : Paired rates log) (r : Record) :
    Paired rates (log ++ [.call r, .charged (price rates r) log.length]) := by
  have at_ : ∀ n, (log ++ [.call r, .charged (price rates r) log.length])[n]? =
      if n < log.length then log[n]?
      else if n = log.length then some (.call r)
      else if n = log.length + 1 then some (.charged (price rates r) log.length) else none := by
    intro n
    rw [List.getElem?_append]
    split
    · rfl
    · rename_i past
      obtain ⟨d, rfl⟩ := Nat.exists_eq_add_of_le (Nat.le_of_not_lt past)
      rw [Nat.add_sub_cancel_left]
      rcases d with - | - | d <;> simp
  refine ⟨fun n r' hr => ?_, fun n charge cause hc => ?_⟩
  · rw [at_] at hr ⊢
    split at hr
    · rename_i before
      have next := h.1 n r' hr
      rw [if_pos (List.getElem?_eq_some_iff.mp next).1, next]
    · split at hr
      · rename_i here
        cases hr
        rw [here, if_neg (by omega), if_neg (by omega), if_pos rfl]
      · split at hr <;> cases hr
  · rw [at_] at hc
    split at hc
    · obtain ⟨next, r', hr⟩ := h.2 n charge cause hc
      refine ⟨next, r', ?_⟩
      rw [at_, if_pos (by omega), hr]
    · split at hc
      · cases hc
      · split at hc
        · rename_i here
          cases hc
          exact ⟨here, r, by rw [at_, if_neg (Nat.lt_irrefl _), if_pos rfl]⟩
        · cases hc

theorem closed_append (rates : Rates ρ) {log tail : List Event}
    (h : ∀ reason spend, Event.ended reason spend ∉ log)
    (bare : ∀ reason spend, Event.ended reason spend ∉ tail) :
    (∀ pre reason spend post, log ++ tail = pre ++ .ended reason spend :: post →
      post = [] ∧ Tallied rates spend (records pre)) ∧
    ∀ reason spend, Event.ended reason spend ∉ log ++ tail := by
  have none_ : ∀ reason spend, Event.ended reason spend ∉ log ++ tail := by
    intro reason spend mem
    rcases List.mem_append.mp mem with mem | mem
    · exact h reason spend mem
    · exact bare reason spend mem
  refine ⟨fun pre reason spend post split => ?_, none_⟩
  refine absurd ?_ (none_ reason spend)
  rw [split]
  simp

theorem Sound.emit (h : Sound rates l₀ s) (plain : e.afterDeath = false)
    (made : s.emit e = .ok s') : Sound rates l₀ s' := by
  obtain ⟨rfl, -, -, on⟩ := emit_ok made
  have bare : ∀ r, e ≠ .call r := by
    rintro r rfl
    cases plain
  have free : ∀ charge cause, e ≠ .charged charge cause := by
    rintro charge cause rfl
    cases plain
  have last : ∀ reason spend, Event.ended reason spend ∉ [e] := by
    intro reason spend mem
    cases List.mem_singleton.mp mem
    cases plain
  have closed := closed_append rates (h.open_ on) last
  refine ⟨h.limits, ?_, h.paired.snoc bare free, ?_, closed.1, fun _ => closed.2⟩
  · rw [records_snoc _ bare]
    exact h.tallied
  · rw [records_snoc _ bare]
    exact h.stops

theorem Sound.step {a : Act} (h : Sound rates l₀ s) (made : step rates s a = some s') :
    Sound rates l₀ s' := by
  cases a with
  | emit e =>
    simp only [Spend.step] at made
    split at made
    · rename_i plain
      cases sent : s.emit e with
      | error refusal =>
        rw [sent] at made
        cases made
        exact h
      | ok t =>
        rw [sent] at made
        cases made
        exact h.emit (by simpa using plain) sent
    · cases made
  | expect callId =>
    cases made
    exact ⟨h.limits, h.tallied, h.paired, h.stops, h.closed, h.open_⟩
  | record r =>
    simp only [Spend.step] at made
    rcases record_cases rates s r with ⟨⟨refusal, sent⟩, -⟩ | ⟨on, ending, sent, -, ran, calm⟩
    · rw [sent] at made
      cases made
      exact h
    · rw [sent, Except.toOption, Option.getD_some] at made
      cases made
      have calls : records (s.log ++ [.call r, .charged (price rates r) s.log.length]) =
          records s.log ++ [r] := by
        rw [records, List.filterMap_append]
        rfl
      have same : SameLimits l₀ (s.ledger.add (price rates r) r) := by
        obtain ⟨own, -⟩ := add_spec s.ledger (price rates r) r
        exact ⟨own.micro.trans h.limits.micro, own.tokens.trans h.limits.tokens,
          own.calls.trans h.limits.calls⟩
      have tallied := h.tallied.add r
      have last : ∀ reason spend, Event.ended reason spend ∉
          [.call r, .charged (price rates r) s.log.length] := by
        simp
      have closed := closed_append rates (h.open_ on) last
      refine ⟨same, by rw [calls]; exact tallied, h.paired.pair r, fun past => ran ?_, closed.1,
        fun _ => closed.2⟩
      rw [calls] at past
      exact (runaway_iff same tallied).mpr past
  | end_ reason =>
    cases made
    exact ⟨h.limits, h.tallied, h.paired, fun _ => by simp [Session.end_], h.closed, h.open_⟩
  | die =>
    cases made
    exact ⟨h.limits, h.tallied, h.paired, h.stops, h.closed, h.open_⟩
  | close reason =>
    simp only [Spend.step] at made
    rcases close_cases s reason with ⟨refusal, sent⟩ | ⟨on, sent⟩
    · rw [sent] at made
      cases made
      exact h
    · rw [sent, Except.toOption, Option.getD_some] at made
      cases made
      have bare : ∀ r, Event.ended reason s.ledger.totals ≠ .call r := by
        intro r same
        cases same
      refine ⟨h.limits, by rw [records_snoc _ bare]; exact h.tallied,
        h.paired.snoc bare (by intro _ _ same; cases same),
        by rw [records_snoc _ bare]; exact h.stops, fun pre reason' spend post split => ?_, by simp⟩
      rcases List.eq_nil_or_concat post with rfl | ⟨post, x, rfl⟩
      · obtain ⟨rfl, same⟩ := List.append_inj' split rfl
        cases same
        exact ⟨rfl, h.tallied⟩
      · refine absurd ?_ (h.open_ on reason' spend)
        have front := congrArg List.dropLast split
        rw [List.concat_eq_append, List.dropLast_concat, ← List.cons_append, ← List.append_assoc,
          List.dropLast_concat] at front
        rw [front]
        simp

theorem sound_new {tokens calls cap : Nat} {refs : List ModelRef}
    (made : SpendLedger.new rates tokens calls cap refs = .ok l₀) :
    Sound rates l₀ { ledger := l₀ } := by
  unfold SpendLedger.new at made
  split at made
  · cases made
  · cases made
    refine ⟨⟨rfl, rfl, rfl⟩, ⟨rfl, fun _ => rfl, rfl, fun _ => rfl, rfl, rfl⟩, ⟨by simp, by simp⟩,
      fun past => ?_, by simp, by simp⟩
    rcases past with past | past | past <;> simp [records] at past

/-- Over every interleaving of a session's tasks: each call is charged at once and nothing else is
charged, the totals are those of the calls, the session is ending as soon as a limit is passed, and
what follows a state of a session that is ending, has lost an endpoint or has ended is what its
guards let through. -/
theorem budget_kept {tokens calls cap : Nat} {refs : List ModelRef}
    (made : SpendLedger.new rates tokens calls cap refs = .ok l₀) {acts more : List Act}
    (ran : Lib.run (step rates) { ledger := l₀ } acts = some s)
    (ran' : Lib.run (step rates) s more = some s') :
    Sound rates l₀ s ∧ Follows s s' := by
  refine ⟨?_, ?_⟩
  · refine Lib.run_invariant (I := fun _ s => Sound rates l₀ s) ran (sound_new made) ?_
    exact fun {_ _ _ _} _ h made => h.step made
  · refine Lib.run_invariant (I := fun _ t => Follows s t) ran' (.refl s) ?_
    exact fun {_ _ _ _} _ h made => h.trans (step_follows made)

end

def sampleRates : Rates Nat :=
  ⟨.set .empty "m" 3, .empty, .empty, fun rate usage => rate * usage.promptTokens⟩

def sampleRef : ModelRef := ⟨some .relay, "m"⟩

def sampleLedger : SpendLedger :=
  { limitMicroUsd := 2000000, limitTokens := 2700000, limitUnpricedCalls := 1200 }

/-- The second call passes the cap. -/
def sampleActs : List Act :=
  [.expect "a", .expect "b", .emit .fastRequest,
    .record ⟨"a", .fastCp, sampleRef, some ⟨1000, 20, none, none⟩, 0⟩, .emit .slowStepStarted,
    .record ⟨"b", .slow, sampleRef, some ⟨700000, 20, none, none⟩, 0⟩]

def sampleMore : List Act :=
  [.emit .fastRequest, .emit .other, .end_ "timeout", .emit .slowStepStarted, .close "budget"]

def sampleSpent : Session :=
  (Lib.run (step sampleRates) { ledger := sampleLedger } sampleActs).getD { ledger := sampleLedger }

def sampleClosed : Session := (Lib.run (step sampleRates) sampleSpent sampleMore).getD sampleSpent

/-- After the cap is passed no new work is logged, and the first end stands. -/
theorem budget_kept_sample : sampleSpent.ending = some "budget" ∧ sampleClosed.log.length = 8 ∧
    Follows sampleSpent sampleClosed := by
  have made : SpendLedger.new sampleRates 900000 400 2000000 [sampleRef] = .ok sampleLedger := rfl
  have ran : Lib.run (step sampleRates) { ledger := sampleLedger } sampleActs = some sampleSpent :=
    rfl
  have ran' : Lib.run (step sampleRates) sampleSpent sampleMore = some sampleClosed := rfl
  exact ⟨rfl, rfl, (budget_kept made ran ran').2⟩

end ProxyLoop.Spend

import ProxyLoop.Kernel.Completion
import ProxyLoop.Kernel.Floor

/-!
# What holds on the floor

The laws of a run on the stage: one outcome for each line of Guard's, a floor of its own for each
release, no turn of Fast's past a counted line, and the count itself.
-/

namespace ProxyLoop

open Lib (Reach anyStep)
open Speaker

/-! ## Laws of a step -/

/-- The floor that a line is released on: its own lock, no partner turn begun, composed or queued,
and a revalidation on the log that the release is written to. -/
structure Stage.Released (host : Host) (st st' : Stage) (e : Event) (n : Nat) : Prop where
  free : st.sp.lock = none
  own : st'.sp.lock = some (.line n)
  landed : ∀ p ∈ st.sp.partners, p = .over
  quiet : st.sp.composing = 0
  empty : st.sp.incoming = 0
  revalidated : ∃ q ∈ st.k.lines, q.seq = n ∧ st.k.revalidated host q = .release ∧
    e.payload = .speakReleased .cp q.cap

/-- The line does not stand in the way of a new turn of Fast's: its task has not begun or was
cancelled, or it waits for a fence uncounted. -/
def Speaker.Verbatim.Aside (l : Verbatim) : Prop :=
  l.stand = .spawned ∨ l.stand = .cancelled ∨ l.stand = .fenced ∧ l.held = false

section laws

variable {host : Host} {st st' : Stage} {a : Stage.Act} {e : Event} {n : Nat}

theorem pending_eq_false {s : Speaker} (h : s.pending = false) :
    s.partner ≤ 0 ∧ s.composing = 0 ∧ s.incoming = 0 := by
  simpa [Speaker.pending, and_assoc] using h

theorem released_alone (inv : StageInv st) (base : KernelInv host st.k)
    (h : st.step host a = some st') (log : st'.k.log = st.k.log ++ [e])
    (payload : ∃ cap, e.payload = .speakReleased .cp cap) (cites : n ∈ e.causes)
    (line : guardLine st.k.log n = true) : st.Released host st' e n := by
  obtain ⟨cap, payload⟩ := payload
  have grown : st'.k.log ≠ st.k.log := fun same => by
    rw [same] at log
    simpa using congrArg List.length log
  unfold Stage.step at h
  split at h
  · rename_i a
    split at h
    · rename_i allowed
      obtain ⟨k', hk, rfl⟩ := Option.map_eq_some_iff.mp h
      have floor : ∀ t i, a ≠ .floor t i := by rintro t i rfl; cases allowed
      have heard : ∀ t said, a ≠ .heard t said := by rintro t said rfl; cases allowed
      cases beside_of_step base hk floor heard with
      | nothing same => exact absurd same grown
      | event e' log' _ _ outcome =>
        obtain rfl : e' = e := by simpa using log'.symm.trans log
        obtain ⟨t, actor, causes, own, cited⟩ := outcome (by rw [payload]; rfl)
        have := not_outcome hk allowed own cited line
        simp [isOutcome, payload, Payload.isOutcome, cites] at this
    · cases h
  split at h
  · rcases Stage.task_cases h with same | ⟨tMs, i, q, -, at_, -, h⟩ | ⟨tMs, said, -, h⟩
    · exact absurd (congrArg Kernel.log same) grown
    · obtain ⟨free, takes, -⟩ := takes_spec at_ h
      cases takes with
      | pending => exact absurd rfl grown
      | released k alone outcome ends =>
        obtain ⟨⟨e', log', -, payload', cites'⟩, -⟩ := ends
        obtain rfl : e' = e := by simpa using log'.symm.trans log
        obtain rfl : n = q.seq := by simpa [cites'] using cites
        obtain ⟨partner, quiet, empty⟩ := pending_eq_false alone
        refine ⟨free, rfl, fun p hp => ?_, quiet, empty, q, List.mem_of_getElem? at_, rfl, outcome,
          payload'⟩
        have count := inv.ok.partner
        have zero : st.sp.partners.countP (· ≠ .over) = 0 := by omega
        simpa using List.countP_eq_zero.mp zero p hp
      | revoked k reason _ ends =>
        obtain ⟨⟨e', log', -, payload', -⟩, -⟩ := ends
        obtain rfl : e' = e := by simpa using log'.symm.trans log
        rw [payload] at payload'
        cases payload'
      | waits => exact absurd rfl grown
    · unfold Stage.heard at h
      split at h
      · split at h
        · obtain ⟨k', hk, rfl⟩ := Option.map_eq_some_iff.mp h
          unfold Kernel.hearLine at hk
          split at hk
          · cases hk
          split at hk
          · obtain ⟨e', em⟩ := Kernel.emits_of_emit hk
            obtain rfl : e' = e := by simpa using em.appended.log.symm.trans log
            have := em.payload.symm.trans payload
            cases this
          · cases hk
        · cases h
      · cases h
  · cases h

/-- No turn begins to speak, and no line to wait for a fence. -/
structure Calm (s s' : Speaker) : Prop where
  turns : ∀ i : Nat, s'.turns[i]? = some .speaks → s.turns[i]? = some .speaks
  lines : ∀ n, (s'.lines n).stand = .fenced → s'.lines n = s.lines n

theorem Calm.of_eq {s s' : Speaker} (turns : s'.turns = s.turns) (lines : s'.lines = s.lines) :
    Calm s s' :=
  ⟨fun _ h => turns ▸ h, fun n _ => congrFun lines n⟩

theorem Calm.of_recount {s s' : Speaker} {d : Int} (r : Recount s s' d) : Calm s s' :=
  ⟨r.turn, fun n _ => congrFun r.lines n⟩

theorem Calm.put {s s' : Speaker} (calm : Calm s s') {l : Verbatim} (other : l.stand ≠ .fenced) :
    Calm s (s'.put n l) := by
  refine ⟨calm.turns, fun m h => ?_⟩
  by_cases own : m = n
  · rw [show (s'.put n l).lines m = l from if_pos own] at h
    exact absurd h other
  · rw [show (s'.put n l).lines m = s'.lines m from if_neg own] at h ⊢
    exact calm.lines m h

theorem Calm.set_turn {s : Speaker} {i : Nat} {t : Turn} (other : t ≠ .speaks) :
    Calm s { s with turns := s.turns.set i t } :=
  ⟨fun _ h => set_speaks other h, fun _ _ => rfl⟩

/-- An event that is set wakes the lines that await it. -/
theorem Calm.woken {s s' : Speaker} (wake : Stand → Stand)
    (fenced : ∀ x, wake x = .fenced → wake x = x) (turns : s'.turns = s.turns)
    (lines : s'.lines = fun n => { s.lines n with stand := wake (s.lines n).stand }) :
    Calm s s' := by
  refine ⟨fun i h => turns ▸ h, fun n h => ?_⟩
  rw [lines] at h ⊢
  have same := fenced _ h
  show ({ s.lines n with stand := wake (s.lines n).stand } : Verbatim) = s.lines n
  rw [same]

/-- What a step does to the turns that speak and the lines that wait for a fence. -/
inductive Stage.Law (host : Host) (st st' : Stage) : Prop
  | calm (calm : Calm st.sp st'.sp)
  | turn (uncounted : st.sp.queued = 0) (lines : st'.sp.lines = st.sp.lines)
  | waits (q : Waiting) (users : Nat) (mem : q ∈ st.k.lines)
      (outcome : st.k.revalidated host q = .wait users)
      (held : (st'.sp.lines q.seq).held = st.k.desk.auth.partnerBound)
      (others : ∀ m, m ≠ q.seq → st'.sp.lines m = st.sp.lines m)
      (turns : ∀ i : Nat, st'.sp.turns[i]? = some .speaks → st.sp.turns[i]? = some .speaks)

theorem law_of_turn {s s' : Speaker} {j : Nat} {fresh : Bool} (h : s.turnStep j fresh = some s') :
    Calm s s' ∨ s.queued = 0 ∧ s'.lines = s.lines := by
  unfold turnStep at h
  split at h
  · cases h
    exact Or.inl (.set_turn (by simp))
  · split at h
    · cases h
    split at h
    · cases h
      exact Or.inl (.set_turn (by simp))
    rename_i none_
    refine Or.inr ⟨by simpa using none_, ?_⟩
    split at h <;> cases h <;> rfl
  · cases h

theorem calm_cancels (s : Speaker) (n : Nat) : Calm s (s.cancels n) := by
  unfold Speaker.cancels
  dsimp only
  refine Calm.put ?_ (by simp)
  have leaves := Calm.of_recount (recount_leaves s n)
  split
  · exact leaves
  · exact leaves
  · exact leaves
  · exact leaves
  · split
    · exact .of_recount (recount_queue s (-1))
    · exact .of_eq rfl rfl

theorem calm_landed (s : Speaker) (j : Nat) : Calm s (s.landed j) := by
  unfold Speaker.landed
  dsimp only
  split
  · exact .woken Stand.wakeIdle (fun x => by cases x <;> simp [Stand.wakeIdle]) rfl rfl
  · exact .of_eq rfl rfl

theorem calm_composed (s : Speaker) : Calm s s.composed := by
  unfold Speaker.composed
  dsimp only
  split
  · exact .woken Stand.wakeQuiet (fun x => by cases x <;> simp [Stand.wakeQuiet]) rfl rfl
  · exact .of_eq rfl rfl

theorem law_of_takes {j : Nat} {q : Waiting} (line : st.k.lines[j]? = some q)
    (takes : Stage.Takes host st j q st') : st.Law host st' := by
  have left := recount_leaves st.sp q.seq
  cases takes with
  | pending => exact .calm (Calm.put (.of_eq rfl rfl) (by simp))
  | released =>
    have put : Calm st.sp ((st.sp.leaves q.seq).put q.seq ⟨.speaks, false⟩) :=
      Calm.put (.of_recount left) (by simp)
    exact .calm ⟨put.turns, put.lines⟩
  | revoked => exact .calm (Calm.put (.of_recount left) (by simp))
  | waits users outcome sp counted =>
    have mem := List.mem_of_getElem? line
    subst counted
    split
    · rename_i bound
      have back := left.trans (recount_queue _ 1)
      refine .waits q users mem outcome ?_ (fun m other => ?_) back.turn
      · rw [bound]
        exact congrArg Verbatim.held (if_pos rfl)
      · exact (if_neg other).trans (congrFun back.lines m)
    · rename_i unbound
      refine .waits q users mem outcome ?_ (fun m other => ?_) left.turn
      · rw [Bool.not_eq_true] at unbound
        rw [unbound]
        exact congrArg Verbatim.held (if_pos rfl)
      · exact (if_neg other).trans (congrFun left.lines m)

theorem law_of_line {tMs j : Nat} {q : Waiting} (line : st.k.lines[j]? = some q)
    (h : st.lineStep host tMs j q = some st') : st.Law host st' := by
  have enters : Calm st.sp (st.sp.enters q.seq) :=
    Calm.put (.of_recount (recount_queue st.sp 1)) (by simp)
  have stands {x : Stand} (other : x ≠ .fenced) : Calm st.sp (st.sp.stand q.seq x) :=
    Calm.put (.of_eq rfl rfl) other
  unfold Stage.lineStep at h
  split at h
  · cases h
    exact .calm enters
  · cases h
    exact .calm enters
  · cases h
    exact .calm (stands (by simp))
  · cases h
    exact .calm (stands (by split <;> simp))
  · cases h
    exact .calm (stands (by simp))
  · exact law_of_takes line (takes_spec line h).2.1
  · cases h

theorem law_of_task (h : st.task host a = some st') : st.Law host st' := by
  cases a with
  | kernel a => cases h
  | line tMs j =>
    obtain ⟨q, line, h⟩ := Option.bind_eq_some_iff.mp h
    exact law_of_line line h
  | heard tMs said =>
    simp only [Stage.task, Stage.heard] at h
    split at h
    · split at h
      · rename_i m q' s' _ _ _
        obtain ⟨k', -, rfl⟩ := Option.map_eq_some_iff.mp h
        have ends : Calm st.sp st.sp.ends := .of_eq rfl rfl
        have put : Calm st.sp (st.sp.ends.put m ⟨.over, false⟩) := ends.put Stand.noConfusion
        exact .calm put
      · cases h
    · cases h
  | cancel j =>
    obtain ⟨q, -, rfl⟩ := Option.map_eq_some_iff.mp h
    exact .calm (calm_cancels _ _)
  | cancelSpoken =>
    simp only [Stage.task] at h
    split at h
    · rename_i m held
      cases h
      have put : Calm st.sp (st.sp.put m ⟨.cancelled, false⟩) :=
        Calm.put (.of_eq rfl rfl) (by simp)
      exact .calm ⟨put.turns, put.lines⟩
    · cases h
  | speak =>
    cases h
    refine .calm ⟨fun j speaks => ?_, fun _ _ => rfl⟩
    replace speaks : (st.sp.turns ++ [Turn.waits st.sp.noQueued])[j]? = some .speaks := speaks
    rw [List.getElem?_append] at speaks
    split at speaks
    · exact speaks
    · rw [List.getElem?_singleton] at speaks
      split at speaks <;> cases speaks
  | turn j fresh =>
    obtain ⟨sp, hsp, rfl⟩ := Option.map_eq_some_iff.mp h
    rcases law_of_turn hsp with calm | ⟨uncounted, lines⟩
    · exact .calm calm
    · exact .turn uncounted lines
  | turnEnds j =>
    simp only [Stage.task] at h
    split at h
    · cases h
      have set_ := Calm.set_turn (s := st.sp) (i := j) (t := .over) (by simp)
      exact .calm ⟨set_.turns, set_.lines⟩
    · cases h
  | cancelTurn j =>
    have set_ := Calm.set_turn (s := st.sp) (i := j) (t := .over) (by simp)
    simp only [Stage.task] at h
    split at h
    · cases h
      exact .calm ⟨set_.turns, set_.lines⟩
    · cases h
      exact .calm set_
    · cases h
  | composes | replies =>
    cases h
    exact .calm (.of_eq rfl rfl)
  | composed =>
    simp only [Stage.task] at h
    split at h
    · cases h
    · cases h
      exact .calm (calm_composed _)
  | drops | begins =>
    simp only [Stage.task] at h
    split at h
    · cases h
    · cases h
      exact .calm (.of_eq rfl rfl)
  | partner j =>
    simp only [Stage.task] at h
    split at h
    · split at h
      · cases h
      · cases h
        exact .calm (.of_eq rfl rfl)
    · cases h
      exact .calm (calm_landed _ _)
    · cases h
  | cancelPartner j =>
    simp only [Stage.task] at h
    split at h
    · cases h
      exact .calm (calm_landed _ _)
    · cases h

theorem law_of_step (h : st.step host a = some st') : st.Law host st' := by
  unfold Stage.step at h
  split at h
  · split at h
    · obtain ⟨k', -, rfl⟩ := Option.map_eq_some_iff.mp h
      exact .calm (.of_eq rfl rfl)
    · cases h
  split at h
  · exact law_of_task h
  · cases h

/-! ## The counter -/

theorem total_eq {seqs : List Nat} {f : Nat → Verbatim} : total seqs f =
    (seqs.countP fun n => (f n).stand.queues) + seqs.countP fun n => (f n).held := by
  induction seqs with
  | nil => rfl
  | cons m rest ih =>
    simp only [total, List.map_cons, List.sum_cons] at ih ⊢
    rw [ih, List.countP_cons, List.countP_cons, Verbatim.weight]
    cases (f m).stand.queues <;> cases (f m).held <;> simp <;> omega

theorem StageInv.aside (inv : StageInv st) (uncounted : st.sp.queued = 0) {q : Waiting}
    (mem : q ∈ st.k.lines) : (st.sp.lines q.seq).Aside := by
  have at_ : q.seq ∈ st.k.seqs := List.mem_map_of_mem mem
  have none_ : total st.k.seqs st.sp.lines = 0 := by
    have := inv.ok.queued
    omega
  have weight := weight_eq_zero none_ at_
  obtain ⟨silent, on⟩ := inv.ok.waits _ at_
  cases hl : st.sp.lines q.seq with
  | mk stand held =>
    rw [hl] at weight silent on
    unfold Verbatim.Aside
    cases stand <;> cases held <;> simp_all [Verbatim.weight, Stand.queues]

end laws

/-! ## The laws of a run -/

/-- The floor of the call, in every run: each line of Guard's has at most one outcome, and one once
its task has returned; a line is released alone on the floor, on a board that has every partner turn
begun before; no turn of Fast's begins to speak while a line is counted, and a line is counted from
when it queues, and over a fence wait that each fence was bound at; the counter counts them. -/
theorem floor_discipline (host : Host) (session : Session) (runId : String) (st : Stage)
    (h : Reach (Stage.step host) anyStep (Stage.start session runId) st) :
    (∀ n, guardLine st.k.log n = true → outcomes st.k.log n ≤ 1 ∧
      ((st.sp.lines n).stand = .over → outcomes st.k.log n = 1)) ∧
    (∀ a st' e n, st.step host a = some st' → st'.k.log = st.k.log ++ [e] →
      (∃ cap, e.payload = .speakReleased .cp cap) → n ∈ e.causes →
      guardLine st.k.log n = true → st.Released host st' e n) ∧
    (∀ a st' (i : Nat), st.step host a = some st' → st.sp.turns[i]? ≠ some Turn.speaks →
      st'.sp.turns[i]? = some Turn.speaks → ∀ q ∈ st.k.lines, (st.sp.lines q.seq).Aside) ∧
    (∀ a st' n, st.step host a = some st' → (st'.sp.lines n).stand = .fenced →
      st'.sp.lines n = st.sp.lines n ∨ ∃ q ∈ st.k.lines, q.seq = n ∧
        (∃ users, st.k.revalidated host q = .wait users) ∧
        (st'.sp.lines n).held = st.k.desk.auth.partnerBound) ∧
    st.sp.queued = (st.k.seqs.countP fun n => (st.sp.lines n).stand.queues) +
      (st.k.seqs.countP fun n => (st.sp.lines n).held) ∧
    (st.sp.noQueued = true ↔ st.sp.queued = 0) := by
  have inv := StageInv.reach h
  have base := KernelInv.reach (Stage.kernel_reach h)
  refine ⟨fun n line => ?_, fun a st' e n step log payload cites line => ?_,
    fun a st' i step before speaks q mem => ?_, fun a st' n step fenced => ?_, ?_, inv.ok.noQueued⟩
  · have acc := inv.acc n line
    refine ⟨by rw [acc]; split <;> simp, fun ended => ?_⟩
    rw [acc, if_neg fun mem => (inv.ok.waits n mem).2 ended]
  · exact released_alone inv base step log payload cites line
  · cases law_of_step step with
    | calm calm => exact absurd (calm.turns i speaks) before
    | turn uncounted => exact inv.aside uncounted mem
    | waits _ _ _ _ _ _ turns => exact absurd (turns i speaks) before
  · cases law_of_step step with
    | calm calm => exact Or.inl (calm.lines n fenced)
    | turn _ lines => exact Or.inl (congrFun lines n)
    | waits q users mem outcome held others =>
      by_cases own : n = q.seq
      · subst own
        exact Or.inr ⟨q, mem, rfl, ⟨users, outcome⟩, held⟩
      · exact Or.inl (others n own)
  · rw [inv.ok.queued, total_eq]
    push_cast
    rfl

/-! ## Runs -/

def Stage.after (session : Session) (acts : List Stage.Act) : Stage :=
  (Lib.run (Stage.step (hostOf sampleDigests)) (Stage.start session "run") acts).getD
    (Stage.start session "run")

theorem Stage.reach_after (session : Session) (acts : List Stage.Act) :
    Reach (Stage.step (hostOf sampleDigests)) anyStep (Stage.start session "run")
      (Stage.after session acts) :=
  Reach.start.run_getD acts

def queuedActs : List Stage.Act := (sampleCall ++ sampleAccept).map .kernel

def heardStage : Stage :=
  Stage.after sampleSession (queuedActs ++ List.replicate 4 (.line 0 0) ++
    [.kernel .deliver, .heard 0 saidLine])

/-- The partner's reply begins its turn, lands its line, and ends; the fence is raised. -/
def partnerTurn : List Stage.Act :=
  [.replies, .begins, .partner 0] ++
  ([.world 0 .kernel [] (.uttFinal .cp .partner "u1" "Sixty a month."), .deliver, .react 0,
    .deliver] : List Kernel.Act).map .kernel ++
  [.partner 0]

/-- The accept waits for a fence that is bound, then queues again. -/
def requeuedStage : Stage :=
  Stage.after sampleSession (queuedActs ++ partnerTurn ++ List.replicate 5 (.line 0 0))

/-- The accept waits for an unbound fence, and a turn of Fast's binds it meanwhile. -/
def boundStage : Stage :=
  Stage.after ⟨.relayOnly, true⟩ (queuedActs ++ partnerTurn ++ List.replicate 4 (.line 0 0) ++
    ([.world 0 .fastCp [0] (.fastRequest .cp "g1" 17), .deliver,
      .world 0 .fastCp [0] (.fastTurn .cp "g1"), .deliver] : List Kernel.Act).map .kernel ++
    [.speak, .turn 0 true])

theorem floor_runs : (guardLine heardStage.k.log 14 && (heardStage.sp.lines 14).stand = .over &&
    requeuedStage.sp.queued ≠ (requeuedStage.k.seqs.countP fun n =>
      (requeuedStage.sp.lines n).stand.queues || (requeuedStage.sp.lines n).held : Nat) &&
    boundStage.k.desk.auth.partnerBound && boundStage.sp.turns = [.locks] &&
    (boundStage.k.lines.any fun q => (boundStage.sp.lines q.seq).stand = .fenced) &&
    (boundStage.step (hostOf sampleDigests) (.turn 0 true)).any
      fun st => st.sp.turns = [.speaks]) = true := by
  decide +kernel

theorem floor_discipline_sample :
    (heardStage.sp.lines 14).stand = .over ∧ outcomes heardStage.k.log 14 = 1 := by
  have facts := floor_runs
  simp only [Bool.and_eq_true, decide_eq_true_eq] at facts
  obtain ⟨⟨⟨⟨⟨⟨line, ended⟩, -⟩, -⟩, -⟩, -⟩, -⟩ := facts
  obtain ⟨one, -⟩ := floor_discipline (hostOf sampleDigests) sampleSession "run" heardStage
    (Stage.reach_after _ _)
  exact ⟨ended, (one 14 line).2 ended⟩

/-- A line that queues again from a held wait is counted twice; and a turn of Fast's begins to speak
while a line waits for fences that are all bound, where one was not as the wait began. -/
theorem counted_twice :
    (∃ st, Reach (Stage.step (hostOf sampleDigests)) anyStep (Stage.start sampleSession "run") st ∧
      st.sp.queued ≠ (st.k.seqs.countP fun n =>
        (st.sp.lines n).stand.queues || (st.sp.lines n).held : Nat)) ∧
    ∃ st st' q, Reach (Stage.step (hostOf sampleDigests)) anyStep
        (Stage.start ⟨.relayOnly, true⟩ "run") st ∧
      st.step (hostOf sampleDigests) (.turn 0 true) = some st' ∧
      st.sp.turns = [.locks] ∧ st'.sp.turns = [.speaks] ∧
      q ∈ st.k.lines ∧ (st.sp.lines q.seq).stand = .fenced ∧
      st.k.desk.auth.partnerBound = true := by
  have facts := floor_runs
  simp only [Bool.and_eq_true, decide_eq_true_eq, List.any_eq_true, Option.any_eq_true] at facts
  obtain ⟨⟨⟨⟨⟨⟨-, -⟩, twice⟩, bound⟩, locks⟩, q, mem, fenced⟩, st', step, speaks⟩ := facts
  exact ⟨⟨requeuedStage, Stage.reach_after _ _, twice⟩, boundStage, st', q, Stage.reach_after _ _,
    step, locks, speaks, mem, fenced, bound⟩

end ProxyLoop

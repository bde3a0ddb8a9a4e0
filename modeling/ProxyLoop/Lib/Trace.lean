import Mathlib.Data.List.Basic

/-!
# Runs of a guarded transition system

A system is a partial step function `step : σ → α → Option σ`; `ok` says which steps are allowed
(all of them, when it is `fun _ _ => True`).  `Reach` is reachability by allowed steps; the
invariant rule is the one induction over runs that a development needs.  A state that keeps the
history of what it wrote is reasoned about with `Each`: a property of every entry of the history
together with what stood before it.
-/

namespace Lib

variable {σ α ε : Type}

/-! ## Reachability -/

/-- `Reach step ok init s`: allowed steps lead from `init` to `s`. -/
inductive Reach (step : σ → α → Option σ) (ok : σ → α → Prop) (init : σ) : σ → Prop
  | start : Reach step ok init init
  | next {s s' : σ} (a : α) : Reach step ok init s → ok s a → step s a = some s' →
      Reach step ok init s'

/-- Every step is allowed. -/
def anyStep : σ → α → Prop := fun _ _ => True

namespace Reach

variable {step : σ → α → Option σ} {ok : σ → α → Prop} {init s t : σ}

/-- What holds initially and is kept by every allowed step from a reachable state holds in every
reachable state. -/
theorem invariant {I : σ → Prop} (h : Reach step ok init s) (start : I init)
    (kept : ∀ {s a s'}, Reach step ok init s → I s → ok s a → step s a = some s' → I s') : I s := by
  induction h with
  | start => exact start
  | next a hr hok hs ih => exact kept hr ih hok hs

/-- A run under a stronger guard is a run under a weaker one. -/
theorem weaken {ok' : σ → α → Prop} (h : Reach step ok init s) (w : ∀ s a, ok s a → ok' s a) :
    Reach step ok' init s := by
  induction h with
  | start => exact .start
  | next a _ hok hs ih => exact .next a ih (w _ _ hok) hs

theorem any (h : Reach step ok init s) : Reach step anyStep init s :=
  h.weaken fun _ _ _ => trivial

theorem trans (h : Reach step ok init s) (h' : Reach step ok s t) : Reach step ok init t := by
  induction h' with
  | start => exact h
  | next a _ hok hs ih => exact .next a ih hok hs

end Reach

/-- The state after `acts` from `s`, if every step is defined. -/
def run (step : σ → α → Option σ) : σ → List α → Option σ
  | s, [] => some s
  | s, a :: acts => (step s a).bind fun s' => run step s' acts

theorem Reach.run {step : σ → α → Option σ} {init s t : σ} {acts : List α}
    (h : Reach step anyStep init s) (hr : Lib.run step s acts = some t) :
    Reach step anyStep init t := by
  induction acts generalizing s with
  | nil => cases hr; exact h
  | cons a acts ih =>
    obtain ⟨s', hs, hr⟩ := Option.bind_eq_some_iff.mp hr
    exact ih (.next a h trivial hs) hr

theorem Reach.run_getD {step : σ → α → Option σ} {init s : σ} (h : Reach step anyStep init s)
    (acts : List α) : Reach step anyStep init ((Lib.run step s acts).getD s) := by
  cases hr : Lib.run step s acts with
  | none => exact h
  | some t => exact h.run hr

theorem run_snoc (step : σ → α → Option σ) (s : σ) (acts : List α) (a : α) :
    run step s (acts ++ [a]) = (run step s acts).bind fun s' => step s' a := by
  induction acts generalizing s with
  | nil =>
    show (step s a).bind some = step s a
    cases step s a <;> rfl
  | cons b acts ih =>
    show (step s b).bind _ = ((step s b).bind _).bind _
    rw [Option.bind_assoc]
    congr 1
    exact funext ih

theorem run_invariant_from {step : σ → α → Option σ} {I : List α → σ → Prop} {t : σ}
    (pre acts : List α) {s : σ} (h : run step s acts = some t) (now : I pre s)
    (kept : ∀ {pre' s a s'}, pre' ++ [a] <+: pre ++ acts → I pre' s → step s a = some s' →
      I (pre' ++ [a]) s') : I (pre ++ acts) t := by
  induction acts generalizing pre s with
  | nil =>
    cases h
    rwa [List.append_nil]
  | cons a acts ih =>
    obtain ⟨s', hs, h⟩ := Option.bind_eq_some_iff.mp h
    have split : pre ++ a :: acts = pre ++ [a] ++ acts := by simp
    have next := kept ⟨acts, split.symm⟩ now hs
    rw [split] at kept ⊢
    exact ih (pre ++ [a]) h next kept

/-- What holds of the start and is kept by each act of a run, told with the acts before it, holds of
the whole run. -/
theorem run_invariant {step : σ → α → Option σ} {I : List α → σ → Prop} {s t : σ} {acts : List α}
    (h : run step s acts = some t) (start : I [] s)
    (kept : ∀ {pre s a s'}, pre ++ [a] <+: acts → I pre s → step s a = some s' →
      I (pre ++ [a]) s') : I acts t :=
  run_invariant_from [] acts h start kept

/-- The steps that a check lets through. -/
def guarded (check : σ → α → Bool) (step : σ → α → Option σ) (s : σ) (a : α) : Option σ :=
  if check s a then step s a else none

/-- A run whose steps are all checked is a run under what the check says. -/
theorem Reach.guarded {step : σ → α → Option σ} {ok : σ → α → Prop} {init s t : σ}
    {check : σ → α → Bool} {acts : List α} (w : ∀ s a, check s a = true → ok s a)
    (h : Reach step ok init s) (hr : Lib.run (Lib.guarded check step) s acts = some t) :
    Reach step ok init t := by
  induction acts generalizing s with
  | nil => cases hr; exact h
  | cons a acts ih =>
    obtain ⟨s', hs, hr⟩ := Option.bind_eq_some_iff.mp hr
    rw [Lib.guarded] at hs
    split at hs
    · rename_i hc
      exact ih (.next a h (w s a hc) hs) hr
    · cases hs

/-! ## Histories -/

/-- Every entry of `log` satisfies `P` of the entries before it and itself. -/
def Each (P : List ε → ε → Prop) (log : List ε) : Prop :=
  ∀ before e after, log = before ++ e :: after → P before e

theorem each_nil (P : List ε → ε → Prop) : Each P [] := by
  intro before e after h
  simp at h

theorem each_snoc {P : List ε → ε → Prop} {log : List ε} {e : ε} :
    Each P (log ++ [e]) ↔ Each P log ∧ P log e := by
  constructor
  · intro h
    refine ⟨fun before e' after hl => h before e' (after ++ [e]) (by simp [hl]), ?_⟩
    exact h log e [] rfl
  · rintro ⟨h, he⟩ before e' after hl
    rcases List.eq_nil_or_concat after with rfl | ⟨rest, x, rfl⟩
    · have := List.append_inj_right' hl rfl
      have hb := List.append_inj_left' hl rfl
      simp only [List.cons.injEq, and_true] at this
      exact this ▸ hb ▸ he
    · refine h before e' rest ?_
      have : log ++ [e] = (before ++ e' :: rest) ++ [x] := by simpa using hl
      exact List.append_inj_left' this rfl

/-- What holds along a history holds along its start. -/
theorem Each.left {P : List ε → ε → Prop} {log more : List ε} (h : Each P (log ++ more)) :
    Each P log :=
  fun before e after split => h before e (after ++ more) (by rw [split]; simp)

theorem Each.imp {P Q : List ε → ε → Prop} {log : List ε} (h : Each P log)
    (w : ∀ before e, P before e → Q before e) : Each Q log :=
  fun before e after hl => w _ _ (h before e after hl)

end Lib

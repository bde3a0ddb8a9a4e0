import Mathlib.Data.List.Sort
import ProxyLoop.Core.Bus
import ProxyLoop.Lib.Trace

/-!
# Delivery

`Bus.emit` with its subscribers.  An event that was appended is delivered in log order; an `emit`
that a subscriber makes appends its event, which waits for the current one.  The body of a
subscriber is any sequence of such calls, each of whose results it sees (it may catch an error),
then a return or an exception.  `marks` is not a field of the code: it records what happened, for
the laws to speak of.
-/

namespace ProxyLoop

open Lib (Reach anyStep Each each_snoc)

/-! ## The code -/

/-- The exceptions that the bus tells apart. -/
inductive Exn
  | llmUnavailable (reason : String)
  | valueError
  | other (text : String)
  deriving DecidableEq, Repr

def Exn.isUnavailable : Exn → Bool
  | .llmUnavailable _ => true
  | _ => false

/-- The arguments of `emit`, the clock it reads, and the error of the clock, of the payload's own
schema or of the file, if one of them raises. -/
structure Call where
  tMs : Nat
  actor : Actor
  causes : List Nat
  payload : Payload
  fault : Option Exn := none

/-- Stamp, fold and append: the new bus and the stored event, or the error. -/
def Bus.append (b : Bus) (call : Call) : Except Exn (Bus × Event) :=
  match call.fault with
  | some err => .error err
  | none =>
    match b.emit call.tMs call.actor call.causes call.payload with
    | none => .error .valueError
    | some b' => .ok (b', b.next call.tMs call.actor call.causes call.payload)

/-- What a subscriber does with an event.  `σ` is what the subscribers keep between calls. -/
inductive Body (σ : Type)
  | returns (kept : σ)
  | raises (err : Exn) (kept : σ)
  | emits (call : Call) (next : Bus → Except Exn Event → Body σ)

structure Subscriber (σ : Type) where
  isolated : Bool
  body : Bus → Event → σ → Body σ

/-- What happened, in order: `emit` was called on a bus and left another, a subscriber was called
with an event, it raised. -/
inductive Mark
  | emitted (before after : Bus) (raised : Bool)
  | called (i : Nat) (e : Event)
  | failed (i : Nat) (err : Exn)

/-- The bus between two statements of its methods. -/
structure Feed (σ : Type) where
  bus : Bus
  subscriberErrors : Nat := 0
  undelivered : List Event := []
  delivering : Bool := false
  rejected : Option Exn := none
  kept : σ
  marks : List Mark := []

/-- How a call ends: `running` where the steps given to it are used up. -/
inductive Exit (α : Type)
  | returned (a : α)
  | raised (err : Exn)
  | running

def Mark.call? : Mark → Option (Nat × Event)
  | .called i e => some (i, e)
  | _ => none

/-- `m` ends the delivery: a nested `emit` was rejected, or a subscriber's error is not logged
only. -/
def Mark.fatal {σ : Type} (subs : List (Subscriber σ)) : Mark → Bool
  | .emitted _ _ raised => raised
  | .called .. => false
  | .failed i err => err.isUnavailable || subs[i]?.any (!·.isolated)

/-- `a` comes before `b`: an earlier event, or the same one at an earlier subscriber. -/
def Earlier (a b : Nat × Event) : Prop := a.2.seq < b.2.seq ∨ a.2.seq = b.2.seq ∧ a.1 < b.1

/-- Nothing before `e` ended the session. -/
def WithinSession (before : List Event) (_ : Event) : Prop :=
  ∀ x ∈ before, ∀ reason, x.payload ≠ .sessionEnded reason

theorem withinSession_of_open {b : Bus} (closed : Each WithinSession b.events)
    (open_ : b.ended = false) {e : Event} : WithinSession b.events e := by
  intro x hx reason hp
  rcases List.eq_nil_or_concat b.events with none_ | ⟨init, last, split⟩
  · rw [none_] at hx
    cases hx
  · rw [List.concat_eq_append] at split
    rw [split] at hx
    rcases List.mem_append.mp hx with hx | hx
    · exact closed init last [] split x hx reason hp
    · cases List.mem_singleton.mp hx
      obtain ⟨_, _, _, _, _, _, payload⟩ := x
      cases hp
      simp [Bus.ended, split] at open_

def Exit.isRaised {α : Type} : Exit α → Bool
  | .raised _ => true
  | _ => false

def Exit.isReturned {α : Type} : Exit α → Bool
  | .returned _ => true
  | _ => false

namespace Feed

variable {σ : Type}

def mark (s : Feed σ) (m : Mark) : Feed σ := { s with marks := s.marks ++ [m] }

/-- The `try` of `emit`, and the event put in the queue. -/
def attempt (s : Feed σ) (call : Call) : Feed σ × Exit Event :=
  match s.bus.append call with
  | .error err =>
    ({ s with rejected := if s.delivering then some err else s.rejected }.mark
      (.emitted s.bus s.bus true), .raised err)
  | .ok (bus, stored) =>
    ({ s with bus, undelivered := s.undelivered ++ [stored] }.mark
      (.emitted s.bus bus false), .returned stored)

/-- `emit`, over `_deliver`. -/
def emitWith (deliver : Feed σ → Feed σ × Exit Unit) (s : Feed σ) (call : Call) :
    Feed σ × Exit Event :=
  match s.attempt call with
  | (s, .returned stored) =>
    if s.delivering then (s, .returned stored)
    else match deliver s with
      | (s, .returned _) => (s, .returned stored)
      | (s, .raised err) => (s, .raised err)
      | (s, .running) => (s, .running)
  | r => r

/-- `subscriber(event)`. -/
def runBody (emit : Feed σ → Call → Feed σ × Exit Event) :
    Body σ → Feed σ → Feed σ × Exit Unit
  | .returns kept, s => ({ s with kept }, .returned ())
  | .raises err kept, s => ({ s with kept }, .raised err)
  | .emits call next, s =>
    match emit s call with
    | (s, .returned e) => runBody emit (next s.bus (.ok e)) s
    | (s, .raised err) => runBody emit (next s.bus (.error err)) s
    | (s, .running) => (s, .running)

/-- The end of `_call`: a nested `emit` that failed is raised, even where it was caught. -/
def settle (s : Feed σ) : Feed σ × Exit Unit :=
  match s.rejected with
  | some err => ({ s with rejected := none }, .raised err)
  | none => (s, .returned ())

/-- `_call`, of the `i`-th subscriber. -/
def callWith (emit : Feed σ → Call → Feed σ × Exit Event) (i : Nat) (sub : Subscriber σ)
    (e : Event) (s : Feed σ) : Feed σ × Exit Unit :=
  match runBody emit (sub.body s.bus e s.kept) (s.mark (.called i e)) with
  | (s, .returned _) => s.settle
  | (s, .raised err) =>
    let s := s.mark (.failed i err)
    let fatal := err.isUnavailable || s.rejected.isSome
    if !sub.isolated || fatal then ({ s with rejected := none }, .raised err)
    else { s with subscriberErrors := s.subscriberErrors + 1 }.settle
  | (s, .running) => (s, .running)

/-- The subscribers from the `i`-th on get `e`. -/
def tell (emit : Feed σ → Call → Feed σ × Exit Event) (e : Event) :
    Nat → List (Subscriber σ) → Feed σ → Feed σ × Exit Unit
  | _, [], s => (s, .returned ())
  | i, sub :: subs, s =>
    match callWith emit i sub e s with
    | (s, .returned _) => tell emit e (i + 1) subs s
    | r => r

/-- `_deliver`, over its loop. -/
def deliverWith (loop : Feed σ → Feed σ × Exit Unit) (s : Feed σ) : Feed σ × Exit Unit :=
  match loop { s with delivering := true } with
  | (s, .returned _) => ({ s with delivering := false }, .returned ())
  | (s, .raised err) => ({ s with undelivered := [], delivering := false }, .raised err)
  | (s, .running) => (s, .running)

/-- The loop of `_deliver`, at most `n` times round. -/
def drain (subs : List (Subscriber σ)) : Nat → Feed σ → Feed σ × Exit Unit
  | 0, s => (s, .running)
  | n + 1, s =>
    match s.undelivered with
    | [] => (s, .returned ())
    | e :: rest =>
      match tell (emitWith (deliverWith (drain subs n))) e 0 subs { s with undelivered := rest } with
      | (s, .returned _) => drain subs n s
      | r => r

def emit (subs : List (Subscriber σ)) (n : Nat) : Feed σ → Call → Feed σ × Exit Event :=
  emitWith (deliverWith (drain subs n))

def step (subs : List (Subscriber σ)) (s : Feed σ) (a : Call × Nat) : Option (Feed σ) :=
  match emit subs a.2 s a.1 with
  | (_, .running) => none
  | (s, _) => some s

/-! ## Calls of `emit` while the bus delivers -/

@[simp] theorem mark_marks (s : Feed σ) (m : Mark) : (s.mark m).marks = s.marks ++ [m] := rfl
@[simp] theorem mark_bus (s : Feed σ) (m : Mark) : (s.mark m).bus = s.bus := rfl
@[simp] theorem mark_undelivered (s : Feed σ) (m : Mark) :
    (s.mark m).undelivered = s.undelivered := rfl
@[simp] theorem mark_delivering (s : Feed σ) (m : Mark) : (s.mark m).delivering = s.delivering := rfl
@[simp] theorem mark_rejected (s : Feed σ) (m : Mark) : (s.mark m).rejected = s.rejected := rfl

theorem attempt_delivering (s : Feed σ) (call : Call) :
    (s.attempt call).1.delivering = s.delivering := by
  unfold attempt
  split <;> rfl

theorem attempt_not_running (s : Feed σ) (call : Call) : (s.attempt call).2 ≠ .running := by
  unfold attempt
  split <;> exact fun h => by cases h

/-- A nested `emit` only appends: its event waits for the current one. -/
theorem emitWith_of_delivering (deliver : Feed σ → Feed σ × Exit Unit) {s : Feed σ}
    (now : s.delivering = true) (call : Call) : emitWith deliver s call = s.attempt call := by
  have still := attempt_delivering s call
  unfold emitWith
  split
  · rename_i s' stored h
    rw [h] at still
    rw [if_pos (still.trans now), h]
  · rfl

theorem runBody_delivering (deliver : Feed σ → Feed σ × Exit Unit) (body : Body σ) {s : Feed σ}
    (now : s.delivering = true) : runBody (emitWith deliver) body s = runBody attempt body s := by
  induction body generalizing s with
  | returns kept => rfl
  | raises err kept => rfl
  | emits call next ih =>
    have still := (attempt_delivering s call).trans now
    simp only [runBody, emitWith_of_delivering deliver now call]
    split
    · rename_i s' e h
      rw [h] at still
      exact ih s'.bus (.ok e) still
    · rename_i s' err h
      rw [h] at still
      exact ih s'.bus (.error err) still
    · rfl

/-! ## What is kept -/

def calls (s : Feed σ) : List (Nat × Event) := s.marks.filterMap Mark.call?

theorem calls_mark (s : Feed σ) (m : Mark) : (s.mark m).calls = s.calls ++ m.call?.toList := by
  simp only [calls, mark_marks, List.filterMap_append]
  cases h : m.call? <;> simp [h]

theorem calls_silent {s : Feed σ} {m : Mark} (silent : m.call? = none) :
    (s.mark m).calls = s.calls := by
  rw [calls_mark, silent]
  simp

/-- The bus is sound, its log stays within its session, each `emit` appended one event or left the
bus as it was, and the subscribers were called with events of the log, in its order. -/
structure Tidy (s : Feed σ) : Prop where
  sound : s.bus.Sound
  closed : Each WithinSession s.bus.events
  emits : ∀ b b' raised, Mark.emitted b b' raised ∈ s.marks →
    b'.Sound ∧ if raised then b' = b else ∃ e, Bus.Emitted b e b'
  told : ∀ c ∈ s.calls, c.2 ∈ s.bus.events
  order : s.calls.Pairwise Earlier

theorem Tidy.mark {s : Feed σ} (tidy : s.Tidy) {m : Mark} (silent : m.call? = none)
    (inside : ∀ b b' raised, m = .emitted b b' raised →
      b'.Sound ∧ if raised then b' = b else ∃ e, Bus.Emitted b e b') : (s.mark m).Tidy := by
  have same : (s.mark m).calls = s.calls := calls_silent silent
  refine ⟨tidy.sound, tidy.closed, fun b b' raised h => ?_, ?_, ?_⟩
  · rcases List.mem_append.mp h with h | h
    · exact tidy.emits b b' raised h
    · exact inside b b' raised (List.mem_singleton.mp h).symm
  · rw [same]; exact tidy.told
  · rw [same]; exact tidy.order

/-- What an `attempt` does: it raises and leaves the bus, or it appends its event. -/
theorem attempt_spec (s : Feed σ) (call : Call) :
    (∃ err, s.attempt call = ({ s with rejected := if s.delivering then some err else s.rejected
        }.mark (.emitted s.bus s.bus true), .raised err)) ∨
      ∃ bus stored, Bus.Emitted s.bus stored bus ∧ s.bus.ended = false ∧
        stored.seq = s.bus.events.length ∧
        s.attempt call = ({ s with bus, undelivered := s.undelivered ++ [stored] }.mark
          (.emitted s.bus bus false), .returned stored) := by
  unfold attempt
  split
  · exact Or.inl ⟨_, rfl⟩
  · rename_i bus stored h
    unfold Bus.append at h
    split at h
    · cases h
    · split at h
      · cases h
      · rename_i b' he
        cases h
        refine Or.inr ⟨_, _, Bus.emitted_of_emit he, ?_, rfl, rfl⟩
        by_contra more
        simp [Bus.emit, more] at he

theorem Tidy.attempt {s : Feed σ} (tidy : s.Tidy) (call : Call) : (s.attempt call).1.Tidy := by
  rcases attempt_spec s call with ⟨err, h⟩ | ⟨bus, stored, did, open_, seq, h⟩
  · rw [h]
    have base : Tidy { s with rejected := if s.delivering then some err else s.rejected } :=
      ⟨tidy.sound, tidy.closed, tidy.emits, tidy.told, tidy.order⟩
    refine base.mark rfl ?_
    rintro b b' raised ⟨⟩
    exact ⟨tidy.sound, rfl⟩
  · rw [h]
    have sound := tidy.sound.emitted did seq
    have closed : Each WithinSession bus.events := by
      rw [did.events]
      exact each_snoc.mpr ⟨tidy.closed, withinSession_of_open tidy.closed open_⟩
    have told : ∀ c ∈ s.calls, c.2 ∈ bus.events := fun c hc => by
      rw [did.events]
      exact List.mem_append_left _ (tidy.told c hc)
    have base : Tidy { s with bus, undelivered := s.undelivered ++ [stored] } :=
      ⟨sound, closed, tidy.emits, told, tidy.order⟩
    refine base.mark rfl ?_
    rintro b b' raised ⟨⟩
    exact ⟨sound, stored, did⟩

/-- The marks `ms` lead from `s` to `s'`: no subscriber is called after a fatal one, and there is
one if and only if `raised`. -/
structure Leg (subs : List (Subscriber σ)) (s s' : Feed σ) (raised : Bool) (ms : List Mark) :
    Prop where
  marks : s'.marks = s.marks ++ ms
  stops : ms.Pairwise fun m x => m.fatal subs = true → x.call? = none
  fatal : ms.any (·.fatal subs) = raised

variable {subs : List (Subscriber σ)}

theorem Leg.refl (s : Feed σ) : Leg subs s s false [] := ⟨by simp, .nil, rfl⟩

theorem Leg.trans {s t u : Feed σ} {raised : Bool} {ms ns : List Mark}
    (h : Leg subs s t false ms) (h' : Leg subs t u raised ns) :
    Leg subs s u raised (ms ++ ns) := by
  refine ⟨by rw [h'.marks, h.marks, List.append_assoc], ?_, by simp [h.fatal, h'.fatal]⟩
  refine List.pairwise_append.mpr ⟨h.stops, h'.stops, fun m hm x _ bad => ?_⟩
  have none_ := h.fatal
  rw [List.any_eq_false] at none_
  exact absurd bad (none_ m hm)

/-- The subscribers before the `i`-th may have got `e`, and what comes after `e` waits. -/
structure Telling (e : Event) (i : Nat) (s : Feed σ) : Prop where
  tidy : s.Tidy
  now : s.delivering = true
  inLog : e ∈ s.bus.events
  waiting : s.undelivered = s.bus.events.drop (e.seq + 1)
  before : ∀ c ∈ s.calls, Earlier c (i, e)

/-- A nested `emit`, or none: nobody is called, and a rejection is remembered. -/
structure Nested (subs : List (Subscriber σ)) (e : Event) (i : Nat) (s s' : Feed σ)
    (ms : List Mark) : Prop where
  telling : Telling e i s'
  marks : s'.marks = s.marks ++ ms
  silent : ∀ m ∈ ms, m.call? = none
  rejected : s'.rejected.isSome = (s.rejected.isSome || ms.any (·.fatal subs))

theorem Telling.attempt (subs : List (Subscriber σ)) {e : Event} {i : Nat} {s : Feed σ}
    (h : Telling e i s) (call : Call) :
    ∃ ms, Nested subs e i s (s.attempt call).1 ms := by
  have tidy := h.tidy.attempt call
  have now := (attempt_delivering s call).trans h.now
  have here := h.tidy.sound.seq_lt h.inLog
  rcases attempt_spec s call with ⟨err, eq⟩ | ⟨bus, stored, did, open_, seq, eq⟩
  · rw [eq] at tidy now ⊢
    refine ⟨_, ⟨tidy, now, h.inLog, h.waiting, ?_⟩, rfl, by simp [Mark.call?], ?_⟩
    · rw [calls_silent rfl]
      exact h.before
    · simp [Mark.fatal, h.now]
  · rw [eq] at tidy now ⊢
    refine ⟨_, ⟨tidy, now, ?_, ?_, ?_⟩, rfl, by simp [Mark.call?], by simp [Mark.fatal]⟩
    · show e ∈ bus.events
      rw [did.events]
      exact List.mem_append_left _ h.inLog
    · show s.undelivered ++ [stored] = bus.events.drop (e.seq + 1)
      rw [did.events, h.waiting, List.drop_append_of_le_length (by omega)]
    · rw [calls_silent rfl]
      exact h.before

theorem Nested.trans {e : Event} {i : Nat} {s t u : Feed σ} {ms ns : List Mark}
    (h : Nested subs e i s t ms) (h' : Nested subs e i t u ns) :
    Nested subs e i s u (ms ++ ns) := by
  refine ⟨h'.telling, by rw [h'.marks, h.marks, List.append_assoc], fun m hm => ?_, ?_⟩
  · exact (List.mem_append.mp hm).elim (h.silent m) (h'.silent m)
  · rw [h'.rejected, h.rejected, List.any_append, Bool.or_assoc]

/-- What is not delivered and not remembered in the marks may change. -/
theorem Telling.congr {e : Event} {i : Nat} {s t : Feed σ} (h : Telling e i s) (bus : t.bus = s.bus)
    (undelivered : t.undelivered = s.undelivered) (delivering : t.delivering = s.delivering)
    (marks : t.marks = s.marks) : Telling e i t := by
  have calls : t.calls = s.calls := by rw [Feed.calls, marks, Feed.calls]
  refine ⟨⟨?_, ?_, ?_, ?_, ?_⟩, ?_, ?_, ?_, ?_⟩
  · rw [bus]; exact h.tidy.sound
  · rw [bus]; exact h.tidy.closed
  · rw [marks]; exact h.tidy.emits
  · rw [calls, bus]; exact h.tidy.told
  · rw [calls]; exact h.tidy.order
  · rw [delivering]; exact h.now
  · rw [bus]; exact h.inLog
  · rw [undelivered, bus]; exact h.waiting
  · rw [calls]; exact h.before

theorem Telling.keep {e : Event} {i : Nat} {s : Feed σ} (h : Telling e i s) (kept : σ) :
    Nested subs e i s { s with kept } [] :=
  ⟨h.congr rfl rfl rfl rfl, by simp, by simp, by simp⟩

theorem Telling.failed {e : Event} {i : Nat} {s : Feed σ} (h : Telling e i s) (j : Nat) (err : Exn) :
    Telling e i (s.mark (.failed j err)) := by
  have same : (s.mark (.failed j err)).calls = s.calls := calls_silent rfl
  refine ⟨h.tidy.mark rfl (fun b b' raised no => by cases no), h.now, h.inLog, h.waiting, ?_⟩
  rw [same]
  exact h.before

theorem Telling.called {e : Event} {i : Nat} {s : Feed σ} (h : Telling e i s) :
    Telling e (i + 1) (s.mark (.called i e)) := by
  have now : (s.mark (.called i e)).calls = s.calls ++ [(i, e)] := calls_mark s _
  have order : (s.mark (.called i e)).calls.Pairwise Earlier := by
    rw [now]
    exact List.pairwise_append.mpr ⟨h.tidy.order, List.pairwise_singleton _ _,
      fun c hc x hx => List.mem_singleton.mp hx ▸ h.before c hc⟩
  refine ⟨⟨h.tidy.sound, h.tidy.closed, fun b b' raised hm => ?_, fun c hc => ?_, order⟩, h.now,
    h.inLog, h.waiting, fun c hc => ?_⟩
  · rcases List.mem_append.mp hm with hm | hm
    · exact h.tidy.emits b b' raised hm
    · cases List.mem_singleton.mp hm
  · rw [now] at hc
    rcases List.mem_append.mp hc with hc | hc
    · exact h.tidy.told c hc
    · rw [List.mem_singleton.mp hc]
      exact h.inLog
  · rw [now] at hc
    show c.2.seq < e.seq ∨ c.2.seq = e.seq ∧ c.1 < i + 1
    rcases List.mem_append.mp hc with hc | hc
    · have : c.2.seq < e.seq ∨ c.2.seq = e.seq ∧ c.1 < i := h.before c hc
      omega
    · rw [List.mem_singleton.mp hc]
      exact Or.inr ⟨rfl, Nat.lt_succ_self i⟩

theorem Telling.runBody (subs : List (Subscriber σ)) {e : Event} {i : Nat} (body : Body σ)
    {s : Feed σ} (h : Telling e i s) :
    (∃ ms, Nested subs e i s (runBody Feed.attempt body s).1 ms) ∧
      (runBody Feed.attempt body s).2 ≠ .running := by
  induction body generalizing s with
  | returns kept => exact ⟨⟨_, h.keep kept⟩, fun h => by cases h⟩
  | raises err kept => exact ⟨⟨_, h.keep kept⟩, fun h => by cases h⟩
  | emits call next ih =>
    obtain ⟨ms, first⟩ := h.attempt subs call
    have ended := attempt_not_running s call
    simp only [Feed.runBody]
    -- the body goes on with what its call gave
    split
    · rename_i s' e' eq
      rw [eq] at first
      obtain ⟨⟨ns, later⟩, ends⟩ := ih s'.bus (.ok e') first.telling
      exact ⟨⟨_, first.trans later⟩, ends⟩
    · rename_i s' err eq
      rw [eq] at first
      obtain ⟨⟨ns, later⟩, ends⟩ := ih s'.bus (.error err) first.telling
      exact ⟨⟨_, first.trans later⟩, ends⟩
    · rename_i eq
      rw [eq] at ended
      exact absurd rfl ended

/-- `_call`: it raises if and only if something fatal happened in it. -/
theorem Telling.call {e : Event} {i : Nat} {sub : Subscriber σ} {s : Feed σ} (h : Telling e i s)
    (clear : s.rejected = none) (own : subs[i]? = some sub) {s' : Feed σ} {out : Exit Unit}
    (did : callWith Feed.attempt i sub e s = (s', out)) :
    ∃ ms, Leg subs s s' out.isRaised ms ∧ Telling e (i + 1) s' ∧ s'.rejected = none ∧
      out ≠ .running := by
  have told := h.called
  obtain ⟨⟨ms, ran⟩, ends⟩ := told.runBody subs (sub.body s.bus e s.kept)
  unfold callWith at did
  generalize Feed.runBody Feed.attempt (sub.body s.bus e s.kept) (s.mark (.called i e)) = r
    at did ran ends
  obtain ⟨t, out'⟩ := r
  have marks : t.marks = s.marks ++ .called i e :: ms := by simpa using ran.marks
  have rejected : t.rejected.isSome = ms.any (·.fatal subs) := by
    simpa [clear] using ran.rejected
  have telling : Telling e (i + 1) t := ran.telling
  have leg (extra : List Mark) (silent : ∀ m ∈ extra, m.call? = none) (raised : Bool)
      (fatal : (ms ++ extra).any (·.fatal subs) = raised) (u : Feed σ)
      (hu : u.marks = t.marks ++ extra) : Leg subs s u raised (.called i e :: (ms ++ extra)) := by
    refine ⟨by rw [hu, marks]; simp, ?_, by simpa [Mark.fatal] using fatal⟩
    refine List.pairwise_cons.mpr ⟨fun x _ bad => Bool.noConfusion bad, ?_⟩
    refine List.pairwise_of_forall_mem_list fun m _ x hx _ => ?_
    exact (List.mem_append.mp hx).elim (ran.silent x) (silent x)
  cases out' with
  | running => exact absurd rfl ends
  | returned u =>
    simp only [settle] at did
    split at did
    · rename_i err was
      cases did
      exact ⟨_, leg [] (by simp) true (by simpa [was] using rejected.symm) _ (by simp),
        telling.congr rfl rfl rfl rfl, rfl, fun h => by cases h⟩
    · rename_i was
      cases did
      exact ⟨_, leg [] (by simp) false (by simpa [was] using rejected.symm) _ (by simp),
        telling, was, fun h => by cases h⟩
  | raised err =>
    have after := telling.failed i err
    have silent : ∀ m ∈ [Mark.failed i err], m.call? = none := by simp [Mark.call?]
    have fatal : (ms ++ [Mark.failed i err]).any (·.fatal subs) =
        (t.rejected.isSome || (err.isUnavailable || !sub.isolated)) := by
      simp [rejected, Mark.fatal, own]
    dsimp only at did
    split at did
    · rename_i bad
      cases did
      refine ⟨_, leg [_] silent true ?_ _ rfl, after.congr rfl rfl rfl rfl, rfl, fun h => by cases h⟩
      rw [fatal]
      simp only [mark_rejected, Bool.or_eq_true] at bad ⊢
      grind
    · rename_i fine
      simp only [mark_rejected, Bool.or_eq_true, not_or, Bool.not_eq_true, Bool.not_eq_true',
        Option.isSome_eq_false_iff, Option.isNone_iff_eq_none] at fine
      have was : t.rejected = none := fine.2.2
      simp only [settle, mark_rejected, was] at did
      cases did
      refine ⟨_, leg [_] silent false ?_ _ rfl, after.congr rfl rfl rfl rfl, rfl, fun h => by cases h⟩
      rw [fatal, was]
      simp [fine]

/-- The rest of the subscribers get `e`, up to the first fatal error. -/
theorem Telling.tell {e : Event} {i : Nat} {rest : List (Subscriber σ)} {s : Feed σ}
    (h : Telling e i s) (clear : s.rejected = none) (own : subs.drop i = rest) {s' : Feed σ}
    {out : Exit Unit} (did : tell Feed.attempt e i rest s = (s', out)) :
    ∃ ms j, Leg subs s s' out.isRaised ms ∧ Telling e j s' ∧ s'.rejected = none ∧
      out ≠ .running := by
  induction rest generalizing i s with
  | nil =>
    cases did
    exact ⟨[], i, .refl _, h, clear, fun h => by cases h⟩
  | cons sub rest ih =>
    have here : subs[i]? = some sub := by
      have := congrArg List.head? own
      simpa using this
    have later : subs.drop (i + 1) = rest := by
      rw [← List.tail_drop, own]
      rfl
    simp only [Feed.tell] at did
    split at did
    · rename_i t _ called
      obtain ⟨ms, leg, telling, clear, _⟩ := h.call clear here called
      obtain ⟨ns, j, leg', rest⟩ := ih telling clear later did
      exact ⟨_, j, leg.trans leg', rest⟩
    · rename_i r
      obtain ⟨ms, leg, telling, rest⟩ := h.call clear here did
      exact ⟨ms, _, leg, telling, rest⟩

theorem callWith_delivering (deliver : Feed σ → Feed σ × Exit Unit) (i : Nat) (sub : Subscriber σ)
    (e : Event) {s : Feed σ} (now : s.delivering = true) :
    callWith (emitWith deliver) i sub e s = callWith Feed.attempt i sub e s := by
  unfold callWith
  rw [runBody_delivering deliver _ (s := s.mark (.called i e)) now]

theorem tell_delivering (deliver : Feed σ → Feed σ × Exit Unit) {e : Event} {i : Nat}
    {rest : List (Subscriber σ)} {s : Feed σ} (h : Telling e i s) (clear : s.rejected = none)
    (own : subs.drop i = rest) :
    Feed.tell (emitWith deliver) e i rest s = Feed.tell Feed.attempt e i rest s := by
  induction rest generalizing i s with
  | nil => rfl
  | cons sub rest ih =>
    have here : subs[i]? = some sub := by
      have := congrArg List.head? own
      simpa using this
    have later : subs.drop (i + 1) = rest := by
      rw [← List.tail_drop, own]
      rfl
    simp only [Feed.tell, callWith_delivering deliver i sub e h.now]
    split
    · rename_i t _ called
      obtain ⟨ms, leg, telling, clear, _⟩ := h.call clear here called
      exact ih telling clear later
    · rfl

/-! ## The loop -/

/-- The queue is what the log holds from `k` on, and nobody was called with any of it. -/
structure Draining (k : Nat) (s : Feed σ) : Prop where
  tidy : s.Tidy
  now : s.delivering = true
  clear : s.rejected = none
  within : k ≤ s.bus.events.length
  waiting : s.undelivered = s.bus.events.drop k
  before : ∀ c ∈ s.calls, c.2.seq < k

theorem Draining.next {k : Nat} {s : Feed σ} (h : Draining k s) {e : Event} {rest : List Event}
    (first : s.undelivered = e :: rest) : Telling e 0 { s with undelivered := rest } := by
  have cut := h.waiting.symm.trans first
  have here : s.bus.events[k]? = some e := by
    have := congrArg List.head? cut
    simpa using this
  have seq : e.seq = k := h.tidy.sound.dense k e here
  have later : rest = s.bus.events.drop (e.seq + 1) := by
    rw [seq, ← List.tail_drop, cut]
    rfl
  exact ⟨⟨h.tidy.sound, h.tidy.closed, h.tidy.emits, h.tidy.told, h.tidy.order⟩, h.now,
    List.mem_of_getElem? here, later, fun c hc => Or.inl (seq ▸ h.before c hc)⟩

theorem Telling.drained {e : Event} {i : Nat} {s : Feed σ} (h : Telling e i s)
    (clear : s.rejected = none) : Draining (e.seq + 1) s := by
  refine ⟨h.tidy, h.now, clear, h.tidy.sound.seq_lt h.inLog, h.waiting, fun c hc => ?_⟩
  have : c.2.seq < e.seq ∨ c.2.seq = e.seq ∧ c.1 < i := h.before c hc
  omega

/-- `_deliver` tells the queue, event by event, up to the first fatal error. -/
theorem Draining.drain {k : Nat} {s : Feed σ} (h : Draining k s) {n : Nat} {s' : Feed σ}
    {out : Exit Unit} (did : drain subs n s = (s', out)) :
    ∃ ms j, Leg subs s s' out.isRaised ms ∧ Draining j s' ∧
      (out = .returned () → s'.undelivered = []) := by
  induction n generalizing k s with
  | zero =>
    cases did
    exact ⟨[], k, .refl _, h, fun no => by cases no⟩
  | succ n ih =>
    simp only [Feed.drain] at did
    split at did
    · rename_i empty
      cases did
      exact ⟨[], k, .refl _, h, fun _ => empty⟩
    · rename_i e rest first
      have telling := h.next first
      rw [tell_delivering _ telling h.clear (show subs.drop 0 = subs from rfl)] at did
      split at did
      · rename_i t _ told
        obtain ⟨ms, j, leg, telling', clear, _⟩ := telling.tell h.clear (show subs.drop 0 = subs from rfl) told
        obtain ⟨ns, l, leg', rest⟩ := ih (telling'.drained clear) did
        exact ⟨_, l, Leg.trans ⟨leg.marks, leg.stops, leg.fatal⟩ leg', rest⟩
      · rename_i other
        obtain ⟨ms, j, leg, telling', clear, _⟩ := telling.tell h.clear (show subs.drop 0 = subs from rfl) did
        refine ⟨ms, _, ⟨leg.marks, leg.stops, leg.fatal⟩, telling'.drained clear, fun ret => ?_⟩
        subst ret
        exact absurd did (other s' ())

structure Rest (s : Feed σ) : Prop where
  tidy : s.Tidy
  still : s.delivering = false
  clear : s.rejected = none
  empty : s.undelivered = []

theorem Rest.appended (subs : List (Subscriber σ)) {s t : Feed σ} (h : s.Rest) {call : Call} {stored : Event}
    (did : s.attempt call = (t, .returned stored)) :
    t.delivering = false ∧ Draining s.bus.events.length { t with delivering := true } ∧
      ∃ ms, Leg subs s { t with delivering := true } false ms := by
  have tidy := h.tidy.attempt call
  have still := (attempt_delivering s call).trans h.still
  rw [did] at tidy still
  refine ⟨still, ?_⟩
  rcases attempt_spec s call with ⟨err, eq⟩ | ⟨bus, e, was, open_, seq, eq⟩
  · rw [eq] at did
    cases did
  · rw [eq] at did
    cases did
    have grown : bus.events = s.bus.events ++ [stored] := was.events
    refine ⟨⟨⟨tidy.sound, tidy.closed, tidy.emits, tidy.told, tidy.order⟩, rfl, h.clear, ?_, ?_,
      fun c hc => ?_⟩, _, rfl, List.pairwise_singleton _ (Mark.emitted s.bus bus false), rfl⟩
    · show s.bus.events.length ≤ bus.events.length
      simp [grown]
    · show s.undelivered ++ [stored] = bus.events.drop s.bus.events.length
      simp [h.empty, grown]
    · have : c ∈ s.calls := by
        rw [← calls_silent (m := .emitted s.bus bus false) rfl]
        exact hc
      exact h.tidy.sound.seq_lt (h.tidy.told c this)

theorem Rest.emit {s : Feed σ} (h : s.Rest) (call : Call) {n : Nat} {s' : Feed σ}
    {out : Exit Event} (did : emit subs n s call = (s', out)) :
    (∃ ms, Leg subs s s' out.isRaised ms) ∧ s'.Tidy ∧ (out ≠ .running → s'.Rest) := by
  unfold Feed.emit emitWith at did
  split at did
  · rename_i t stored appended
    obtain ⟨still, draining, ms, first⟩ := h.appended subs appended
    rw [if_neg (by simp [still])] at did
    unfold deliverWith at did
    generalize hd : Feed.drain subs n { t with delivering := true } = r at did
    obtain ⟨u, out'⟩ := r
    obtain ⟨ns, j, leg, ended, empty⟩ := draining.drain hd
    have tidy := ended.tidy
    have leg' := first.trans leg
    cases out' with
    | returned =>
      cases did
      refine ⟨⟨_, leg'.marks, leg'.stops, leg'.fatal⟩, ?_, fun _ => ⟨?_, rfl, ended.clear, empty rfl⟩⟩
      all_goals exact ⟨tidy.sound, tidy.closed, tidy.emits, tidy.told, tidy.order⟩
    | raised err =>
      cases did
      refine ⟨⟨_, leg'.marks, leg'.stops, leg'.fatal⟩, ?_, fun _ => ⟨?_, rfl, ended.clear, rfl⟩⟩
      all_goals exact ⟨tidy.sound, tidy.closed, tidy.emits, tidy.told, tidy.order⟩
    | running =>
      cases did
      exact ⟨⟨_, leg'.marks, leg'.stops, leg'.fatal⟩, tidy, fun no => absurd rfl no⟩
  · rename_i other
    have tidy := h.tidy.attempt call
    have still := (attempt_delivering s call).trans h.still
    rcases attempt_spec s call with ⟨err, eq⟩ | ⟨bus, e, was, open_, seq, eq⟩
    · rw [eq] at tidy still did
      cases did
      refine ⟨⟨_, rfl, List.pairwise_singleton _ _, rfl⟩, tidy,
        fun _ => ⟨tidy, still, ?_, h.empty⟩⟩
      simp [h.still, h.clear]
    · exact absurd eq (other _ _)

def opened (runId : String) (kept : σ) : Feed σ := { bus := { runId }, kept }

theorem rest_opened (runId : String) (kept : σ) : (opened runId kept).Rest where
  tidy := ⟨Bus.sound_new runId, Lib.each_nil _, by simp [opened], by simp [opened, calls],
    by simp [opened, calls]⟩
  still := rfl
  clear := rfl
  empty := rfl

theorem rest_reach {runId : String} {kept : σ} {s : Feed σ}
    (h : Reach (step subs) anyStep (opened runId kept) s) : s.Rest := by
  refine h.invariant (rest_opened runId kept) fun {s a s'} _ rest _ hs => ?_
  unfold step at hs
  split at hs
  · cases hs
  · rename_i u out ended did
    cases hs
    exact (rest.emit a.1 did).2.2 fun no => by
      subst no
      exact ended rfl

theorem Draining.more {k : Nat} {s : Feed σ} (h : Draining k s) {n : Nat}
    (ended : (Feed.drain subs n s).2 ≠ .running) :
    Feed.drain subs (n + 1) s = Feed.drain subs n s := by
  induction n generalizing k s with
  | zero => exact absurd rfl ended
  | succ n ih =>
    unfold Feed.drain at ended ⊢
    split
    · rfl
    · rename_i e rest first
      have telling := h.next first
      simp only [first] at ended
      rw [tell_delivering _ telling h.clear (show subs.drop 0 = subs from rfl)] at ended ⊢
      rw [tell_delivering _ telling h.clear (show subs.drop 0 = subs from rfl)]
      split
      · rename_i t _ told
        rw [told] at ended
        obtain ⟨ms, j, leg, telling', clear, _⟩ :=
          telling.tell h.clear (show subs.drop 0 = subs from rfl) told
        exact ih (telling'.drained clear) ended
      · rfl

theorem Rest.more {s : Feed σ} (h : s.Rest) {call : Call} {n : Nat}
    (ended : (Feed.emit subs n s call).2 ≠ .running) {m : Nat} (le : n ≤ m) :
    Feed.emit subs m s call = Feed.emit subs n s call := by
  induction m, le using Nat.le_induction with
  | base => rfl
  | succ m le ih =>
    rw [← ih] at ended ⊢
    unfold Feed.emit emitWith at ended ⊢
    split
    · rename_i t stored appended
      obtain ⟨still, draining, -⟩ := h.appended subs appended
      rw [appended] at ended
      dsimp only at ended
      rw [if_neg (by simp [still])] at ended ⊢
      rw [if_neg (by simp [still])]
      unfold deliverWith at ended ⊢
      rw [draining.more fun running => ?_]
      generalize Feed.drain subs m { t with delivering := true } = r at running ended
      obtain ⟨u, out⟩ := r
      cases running
      exact ended rfl
    · rfl

/-! ## The laws -/

/-- The events that the `i`-th subscriber got. -/
def received (s : Feed σ) (i : Nat) : List Event := (s.calls.filter (·.1 = i)).map (·.2)

theorem Tidy.received {s : Feed σ} (tidy : s.Tidy) (i : Nat) :
    (s.received i).Sublist s.bus.events := by
  have told : ∀ e ∈ s.received i, e ∈ s.bus.events := by
    intro e he
    obtain ⟨c, hc, rfl⟩ := List.mem_map.mp he
    exact tidy.told c (List.mem_filter.mp hc).1
  have rising : (s.received i).Pairwise fun a b => a.seq < b.seq := by
    refine List.pairwise_map.mpr (List.Pairwise.imp_of_mem ?_ (tidy.order.filter _))
    intro a b ha hb earlier
    have ia : a.1 = i := by simpa using (List.mem_filter.mp ha).2
    have ib : b.1 = i := by simpa using (List.mem_filter.mp hb).2
    have : a.2.seq < b.2.seq ∨ a.2.seq = b.2.seq ∧ a.1 < b.1 := earlier
    omega
  have dense : s.bus.events.Pairwise fun a b => a.seq < b.seq := by
    refine List.pairwise_iff_getElem.mpr fun j k hj hk lt => ?_
    rw [tidy.sound.dense j _ (List.getElem?_eq_getElem hj),
      tidy.sound.dense k _ (List.getElem?_eq_getElem hk)]
    exact lt
  have nodup : (s.received i).Nodup := rising.imp fun lt same => by
    rw [same] at lt
    exact Nat.lt_irrefl _ lt
  obtain ⟨l, perm, sub⟩ := List.subperm_of_subset nodup told
  have : l = s.received i := perm.eq_of_pairwise
    (fun a b _ _ ab ba => absurd ab (Nat.lt_asymm ba)) (dense.sublist sub) rising
  exact this ▸ sub

/-- **The single writer.**  After each `emit`, nested ones too, the board is the fold of a dense log,
and one that raised before the append changed nothing; each subscriber gets events of the log, each
at most once and in its order, a nested event after the current one; nothing follows
`session.ended`.  After a fatal error nobody is called, the queue is empty, and the outermost `emit`
of that error raises: it, and no later one. -/
theorem single_writer (subs : List (Subscriber σ)) (runId : String) (kept : σ) {s : Feed σ}
    (h : Reach (step subs) anyStep (opened runId kept) s) (call : Call) (n : Nat) {s' : Feed σ}
    {out : Exit Event} (did : Feed.emit subs n s call = (s', out)) :
    s'.bus.Sound ∧
    (∀ b b' raised, Mark.emitted b b' raised ∈ s'.marks → b'.Sound ∧
      if raised then b' = b else ∃ e, b'.events = b.events ++ [e] ∧ apply b.bb e = .ok b'.bb) ∧
    ((∀ i, (s'.received i).Sublist s'.bus.events) ∧ s'.calls.Pairwise Earlier) ∧
    (∀ before e after, s'.bus.events = before ++ e :: after →
      ∀ x ∈ before, ∀ reason, x.payload ≠ .sessionEnded reason) ∧
    (∃ ms, s'.marks = s.marks ++ ms ∧
      (ms.Pairwise fun m x => m.fatal subs = true → ∀ i e, x ≠ .called i e) ∧
      ((∃ m ∈ ms, m.fatal subs = true) ↔ ∃ err, out = .raised err)) ∧
    (out ≠ .running → s'.undelivered = [] ∧ s'.delivering = false ∧ s'.rejected = none ∧
      ∀ m, n ≤ m → Feed.emit subs m s call = (s', out)) := by
  have rest := rest_reach h
  obtain ⟨⟨ms, leg⟩, tidy, ended⟩ := rest.emit call did
  refine ⟨tidy.sound, fun b b' raised hm => ?_, ⟨tidy.received, tidy.order⟩,
    tidy.closed, ⟨ms, leg.marks, ?_, ?_⟩, fun no => ?_⟩
  · obtain ⟨sound, did⟩ := tidy.emits b b' raised hm
    refine ⟨sound, ?_⟩
    cases raised with
    | true => exact did
    | false =>
      obtain ⟨e, emitted⟩ := did
      exact ⟨e, emitted.events, emitted.applied⟩
  · refine leg.stops.imp fun {m x} stops bad i e hx => ?_
    have := stops bad
    rw [hx] at this
    cases this
  · have := leg.fatal
    cases out with
    | raised err => simpa [Exit.isRaised] using this
    | returned e => simpa [Exit.isRaised] using this
    | running => simpa [Exit.isRaised] using this
  · have := ended no
    exact ⟨this.empty, this.still, this.clear, fun m le =>
      (rest.more (by rw [did]; exact no) le).trans did⟩

/-! ## A run -/

def said (text : String) : Call := { tMs := 0, actor := .kernel, causes := [], payload := .userMsg text }

/-- It answers "a" with two messages, the second of which the file refuses, and catches the error. -/
def careless : Subscriber Unit where
  isolated := true
  body _ e _ :=
    match e.payload with
    | .userMsg "a" =>
      .emits (said "b") fun _ _ =>
        .emits { said "c" with fault := some (.other "disk") } fun _ _ => .returns ()
    | _ => .returns ()

def listener : Subscriber Unit := ⟨false, fun _ _ _ => .returns ()⟩

def afterSaid (texts : List String) : Feed Unit :=
  texts.foldl (fun s text => (emit [careless, listener] 3 s (said text)).1) (opened "run" ())

theorem afterSaid_facts : ((emit [careless, listener] 3 (opened "run" ()) (said "a")).2.isRaised &&
    ((afterSaid ["a"]).bus.events.length = 2 && (afterSaid ["a"]).calls.length = 1) &&
    (emit [careless, listener] 3 (afterSaid ["a"]) (said "d")).2.isReturned &&
    ((afterSaid ["a", "d"]).received 1).map (·.seq) = [2]) = true := by
  decide +kernel

/-- The rejected nested message makes its own `emit` raise; the next one is delivered. -/
theorem single_writer_sample :
    ∃ s' e, Feed.emit [careless, listener] 3 (afterSaid ["a"]) (said "d") = (s', .returned e) ∧
      s'.bus.Sound ∧ s'.undelivered = [] := by
  have reach : Reach (step [careless, listener]) anyStep (opened "run" ()) (afterSaid ["a"]) :=
    .next (said "a", 3) .start trivial (by rfl)
  have facts := afterSaid_facts
  simp only [Bool.and_eq_true] at facts
  have returned := facts.1.2
  generalize did : Feed.emit [careless, listener] 3 (afterSaid ["a"]) (said "d") = r at returned
  obtain ⟨s', out⟩ := r
  obtain ⟨sound, -, -, -, -, ended⟩ :=
    single_writer [careless, listener] "run" () reach (said "d") 3 did
  cases out with
  | returned e => exact ⟨s', e, rfl, sound, (ended fun no => by cases no).1⟩
  | raised err => cases returned
  | running => cases returned

end Feed

end ProxyLoop

import Mathlib
import ProxyLoop.Kernel.Desk

/-!
# The Authority's bookkeeping

What it means for a line to be covered, and what the Authority's books say of it.  A rep line is in
the books until a completed Slow step's basis reaches its target: the line itself where Slow reads
the call, the FastC turn that saw it otherwise.  A user message keeps a raised fence until the same
holds of FastU.  `Books` is kept by each handler.
-/

namespace ProxyLoop

open Lib (Dict)

def Event.isRepLine (e : Event) : Prop :=
  ∃ utt text, e.payload = .uttFinal .cp .partner utt text

def Event.isUserMsg (e : Event) : Prop := ∃ text, e.payload = .userMsg text

def Event.mintsAccept (e : Event) : Prop := ∃ cap, e.payload = .actionAuthorized ⟨.acceptOffer, cap⟩

/-! ## Coverage -/

/-- A completed Slow step's basis reached `x`. -/
def StepReached (log : List Event) (x : Nat) : Prop :=
  ∃ s ∈ log, ∃ basis, s.payload = .slowStepCompleted basis ∧ x ≤ basis

/-- The event at `turn` is a Fast turn of `lane`, after the line at `seq`, whose request saw it. -/
def TurnSaw (log : List Event) (lane : Lane) (seq turn : Nat) : Prop :=
  ∃ t ∈ log, t.seq = turn ∧ seq < turn ∧ ∃ genId, t.payload = .fastTurn lane genId ∧
    ∃ r ∈ log, ∃ l basis, r.payload = .fastRequest l genId basis ∧ r.seq < turn ∧ seq ≤ basis

/-- The seq a completed step's basis must reach to cover the line at `seq`. -/
def Target (s : Session) (log : List Event) (lane : Lane) (seq x : Nat) : Prop :=
  if lane = .cp ∧ s.slowView = .transcript then x = seq else TurnSaw log lane seq x

def Covered (s : Session) (log : List Event) (lane : Lane) (seq : Nat) : Prop :=
  ∃ x, Target s log lane seq x ∧ StepReached log x

theorem StepReached.mono {log log' : List Event} {x : Nat} (h : StepReached log x)
    (sub : log ⊆ log') : StepReached log' x := by
  obtain ⟨s, hs, basis, hp, hx⟩ := h
  exact ⟨s, sub hs, basis, hp, hx⟩

theorem Target.mono {s : Session} {log log' : List Event} {lane : Lane} {seq x : Nat}
    (h : Target s log lane seq x) (sub : log ⊆ log') : Target s log' lane seq x := by
  unfold Target at h ⊢
  split
  · rename_i hc
    rwa [if_pos hc] at h
  · rename_i hc
    rw [if_neg hc] at h
    obtain ⟨t, ht, hseq, hlt, genId, hp, r, hr, rest⟩ := h
    exact ⟨t, sub ht, hseq, hlt, genId, hp, r, sub hr, rest⟩

theorem Covered.mono {s : Session} {log log' : List Event} {lane : Lane} {seq : Nat}
    (h : Covered s log lane seq) (sub : log ⊆ log') : Covered s log' lane seq := by
  obtain ⟨x, ht, hr⟩ := h
  exact ⟨x, ht.mono sub, hr.mono sub⟩

/-! ## The books -/

/-- The Authority's entries after the handlers of `done`, in a run whose log is `log`. -/
structure Entries (s : Session) (a : Authority) (done log : List Event) : Prop where
  /-- a fence's id was numbered -/
  numbered : ∀ {id r}, a.raised.get? id = some r → ∃ k ≤ a.n, id = Authority.fenceId k
  requests : ∀ {genId b}, a.basis.get? genId = some b →
    ∃ r ∈ done, ∃ l, r.payload = .fastRequest l genId b
  raisedSeq : ∀ {id r}, a.raised.get? id = some r → ∃ e ∈ done, e.seq = r.seq
  lineSeq : ∀ l ∈ a.lines, ∃ e ∈ done, e.seq = l.seq
  /-- a bound seq is a target -/
  raisedTarget : ∀ {id r x}, a.raised.get? id = some r → r.bound = some x →
    Target s log r.lane r.seq x
  lineTarget : ∀ l ∈ a.lines, ∀ x, l.bound = some x → Target s log .cp l.seq x
  /-- a line that Slow reads is bound as it lands -/
  raisedRead : ∀ {id r}, a.raised.get? id = some r → r.lane = .cp → s.slowView = .transcript →
    r.bound ≠ none
  lineRead : ∀ l ∈ a.lines, s.slowView = .transcript → l.bound ≠ none
  /-- a line and its fence are bound together -/
  lineAgree : ∀ l ∈ a.lines, ∀ l' ∈ a.lines, l.seq = l'.seq → l.bound = l'.bound
  agree : ∀ l ∈ a.lines, ∀ {id r}, a.raised.get? id = some r → r.lane = .cp → r.seq = l.seq →
    r.bound = l.bound

/-- The books: every line that matters has an entry until it is covered. -/
structure Books (s : Session) (closed : Bool) (a : Authority) (done log : List Event) : Prop
    extends Entries s a done log where
  /-- a user message is fenced until it is covered -/
  users : s.slow = true → ∀ m ∈ done, m.isUserMsg →
    (∃ id r, a.raised.get? id = some r ∧ r.lane = .user ∧ r.seq = m.seq) ∨
      Covered s log .user m.seq
  /-- a rep line is in the books until it is covered -/
  reps : s.slow = true → closed = false → ∀ e ∈ done, e.isRepLine →
    (∃ l ∈ a.lines, l.seq = e.seq) ∨ Covered s log .cp e.seq

theorem books_start (s : Session) (closed : Bool) : Books s closed {} [] [] where
  numbered h := by cases h
  requests h := by cases h
  raisedSeq h := by cases h
  lineSeq l h := by cases h
  raisedTarget h := by cases h
  lineTarget l h := by cases h
  raisedRead h := by cases h
  lineRead l h := by cases h
  lineAgree l h := by cases h
  agree l h := by cases h
  users _ m h := by cases h
  reps _ _ e h := by cases h

theorem Event.isUserMsg.not_repLine {e : Event} (h : e.isUserMsg) : ¬ e.isRepLine := by
  rintro ⟨utt, text, hp⟩
  obtain ⟨text', hp'⟩ := h
  rw [hp] at hp'
  cases hp'

namespace Entries

variable {s : Session} {a : Authority} {done log : List Event} {e : Event}

theorem mono (h : Entries s a done log) {log' : List Event} (sub : log ⊆ log') :
    Entries s a done log' :=
  { h with
    raisedTarget := fun hr hb => (h.raisedTarget hr hb).mono sub
    lineTarget := fun l hl x hx => (h.lineTarget l hl x hx).mono sub }

theorem more (h : Entries s a done log) (e : Event) : Entries s a (done ++ [e]) log :=
  { h with
    requests := fun hb => by
      obtain ⟨r, hr, rest⟩ := h.requests hb
      exact ⟨r, List.mem_append_left _ hr, rest⟩
    raisedSeq := fun hr => by
      obtain ⟨x, hx, hs⟩ := h.raisedSeq hr
      exact ⟨x, List.mem_append_left _ hx, hs⟩
    lineSeq := fun l hl => by
      obtain ⟨x, hx, hs⟩ := h.lineSeq l hl
      exact ⟨x, List.mem_append_left _ hx, hs⟩ }

/-! ### Raising -/

theorem fenceId_inj {m n : Nat} (h : Authority.fenceId m = Authority.fenceId n) : m = n :=
  Nat.repr_inj.mp ((String.append_right_inj _).mp h)

/-- The next fence id is new. -/
theorem fresh (h : Entries s a done log) :
    a.raised.get? (Authority.fenceId (a.n + 1)) = none := by
  cases hg : a.raised.get? (Authority.fenceId (a.n + 1)) with
  | none => rfl
  | some r =>
    obtain ⟨k, hk, hid⟩ := h.numbered hg
    have := fenceId_inj hid
    omega

/-- What is raised after `_raise`: the new fence, and those before. -/
theorem get?_raise (h : Entries s a done log) (causes : List Nat) {seq : Nat} {lane : Lane}
    {utt : String} {bound : Option Nat} {id : String} {r : Raised} :
    (a.raise causes seq lane utt bound).1.raised.get? id = some r ↔
      (id = Authority.fenceId (a.n + 1) ∧ r = ⟨lane, utt, seq, bound⟩) ∨
        a.raised.get? id = some r := by
  show (a.raised.set _ _).get? id = some r ↔ _
  rw [Dict.get?_set]
  split
  · rename_i hid
    subst hid
    rw [h.fresh]
    simp [eq_comm]
  · rename_i hne
    simp [hne]

theorem raised_of_raise (h : Entries s a done log) (causes : List Nat) {seq : Nat}
    {lane : Lane} {utt : String} {bound : Option Nat} {id : String} {r : Raised}
    (hr : a.raised.get? id = some r) :
    (a.raise causes seq lane utt bound).1.raised.get? id = some r :=
  (h.get?_raise causes).mpr (Or.inr hr)

/-- Raising a fence at a known line, bound as its line is. -/
theorem raise (h : Entries s a done log) (causes : List Nat) {seq : Nat} (lane : Lane)
    (utt : String) (bound : Option Nat) (known : ∃ e ∈ done, e.seq = seq)
    (target : ∀ x, bound = some x → Target s log lane seq x)
    (read : lane = .cp → s.slowView = .transcript → bound ≠ none)
    (same : lane = .cp → ∀ l ∈ a.lines, l.seq = seq → bound = l.bound) :
    Entries s (a.raise causes seq lane utt bound).1 done log where
  numbered hr := by
    rcases (h.get?_raise causes).mp hr with ⟨rfl, _⟩ | hr
    · exact ⟨a.n + 1, Nat.le_refl _, rfl⟩
    · obtain ⟨k, hk, hid⟩ := h.numbered hr
      exact ⟨k, Nat.le_succ_of_le hk, hid⟩
  requests := h.requests
  raisedSeq hr := by
    rcases (h.get?_raise causes).mp hr with ⟨_, rfl⟩ | hr
    · exact known
    · exact h.raisedSeq hr
  lineSeq := h.lineSeq
  raisedTarget hr hb := by
    rcases (h.get?_raise causes).mp hr with ⟨_, rfl⟩ | hr
    · exact target _ hb
    · exact h.raisedTarget hr hb
  lineTarget := h.lineTarget
  raisedRead hr hlane hview := by
    rcases (h.get?_raise causes).mp hr with ⟨_, rfl⟩ | hr
    · exact read hlane hview
    · exact h.raisedRead hr hlane hview
  lineRead := h.lineRead
  lineAgree := h.lineAgree
  agree l hl id r hr hlane hseq := by
    rcases (h.get?_raise causes).mp hr with ⟨_, rfl⟩ | hr
    · exact same hlane l hl hseq.symm
    · exact h.agree l hl hr hlane hseq

/-- Raising a fence for each of some lines of the books keeps every fence and fences each of those
lines. -/
theorem raiseAll (h : Entries s a done log) (mint : Nat) (ls : List RepLine)
    (sub : ∀ l ∈ ls, l ∈ a.lines) :
    Entries s (Authority.raiseAll mint ls a).1 done log ∧
      (Authority.raiseAll mint ls a).1.lines = a.lines ∧
      (∀ {id r}, a.raised.get? id = some r →
        (Authority.raiseAll mint ls a).1.raised.get? id = some r) ∧
      ∀ l ∈ ls, ∃ id r, (Authority.raiseAll mint ls a).1.raised.get? id = some r ∧
        r.lane = .cp ∧ r.seq = l.seq := by
  induction ls generalizing a with
  | nil => exact ⟨h, rfl, id, by simp⟩
  | cons l ls ih =>
    have hl := sub l (List.mem_cons_self ..)
    have first := h.raise [l.seq, mint] .cp l.utt l.bound (h.lineSeq l hl) (h.lineTarget l hl)
      (fun _ => h.lineRead l hl) fun _ l' hl' hs => h.lineAgree l hl l' hl' hs.symm
    obtain ⟨entries, lines, kept, all⟩ :=
      ih first fun x hx => sub x (List.mem_cons_of_mem _ hx)
    refine ⟨entries, lines, fun hr => kept (h.raised_of_raise _ hr), ?_⟩
    intro x hx
    rcases List.mem_cons.mp hx with rfl | hx
    · exact ⟨_, _, kept ((h.get?_raise _).mpr (Or.inl ⟨rfl, rfl⟩)), rfl, rfl⟩
    · exact all x hx

/-! ### A new rep line -/

theorem newLine_target {seq : Nat} {utt : String} {x : Nat}
    (hx : (Authority.newLine s seq utt).bound = some x) : Target s log .cp seq x := by
  simp only [Authority.newLine] at hx
  unfold Target
  split at hx
  · rename_i ht
    rw [if_pos ⟨rfl, ht⟩]
    exact (Option.some.inj hx).symm
  · cases hx

theorem newLine_read {seq : Nat} {utt : String} (hv : s.slowView = .transcript) :
    (Authority.newLine s seq utt).bound ≠ none := by
  simp [Authority.newLine, hv]

theorem addLine (h : Entries s a done log) (utt : String) (new : ∀ x ∈ done, x.seq ≠ e.seq) :
    Entries s { a with lines := a.lines ++ [Authority.newLine s e.seq utt] } (done ++ [e]) log := by
  have old : ∀ l ∈ a.lines, l.seq ≠ e.seq := fun l hl hs => by
    obtain ⟨x, hx, hxs⟩ := h.lineSeq l hl
    exact new x hx (hxs.trans hs)
  have here : ∀ l ∈ a.lines ++ [Authority.newLine s e.seq utt], l ∈ a.lines ∨ l = Authority.newLine s e.seq utt :=
    fun l hl => by simpa using hl
  have m := h.more e
  refine { m with lineSeq := ?_, lineTarget := ?_, lineRead := ?_, lineAgree := ?_, agree := ?_ }
  · intro l hl
    rcases here l hl with hl | rfl
    · exact m.lineSeq l hl
    · exact ⟨e, by simp, rfl⟩
  · intro l hl x hx
    rcases here l hl with hl | rfl
    · exact h.lineTarget l hl x hx
    · exact newLine_target hx
  · intro l hl hv
    rcases here l hl with hl | rfl
    · exact h.lineRead l hl hv
    · exact newLine_read hv
  · intro l hl l' hl' hs
    rcases here l hl with hl | rfl <;> rcases here l' hl' with hl' | rfl
    · exact h.lineAgree l hl l' hl' hs
    · exact absurd hs (old l hl)
    · exact absurd hs.symm (old l' hl')
    · rfl
  · intro l hl id r hr hlane hs
    rcases here l hl with hl | rfl
    · exact h.agree l hl hr hlane hs
    · obtain ⟨x, hx, hxs⟩ := h.raisedSeq hr
      exact absurd (hxs.trans hs) (new x hx)

/-! ### Fewer entries, a request, a turn -/

/-- Dropping entries keeps them. -/
theorem sub (h : Entries s a done log) {a' : Authority} (n : a'.n = a.n)
    (raised : ∀ {id r}, a'.raised.get? id = some r → a.raised.get? id = some r)
    (lines : ∀ l ∈ a'.lines, l ∈ a.lines)
    (basis : ∀ {g b}, a'.basis.get? g = some b → a.basis.get? g = some b) :
    Entries s a' done log where
  numbered hr := n ▸ h.numbered (raised hr)
  requests hb := h.requests (basis hb)
  raisedSeq hr := h.raisedSeq (raised hr)
  lineSeq l hl := h.lineSeq l (lines l hl)
  raisedTarget hr hb := h.raisedTarget (raised hr) hb
  lineTarget l hl := h.lineTarget l (lines l hl)
  raisedRead hr := h.raisedRead (raised hr)
  lineRead l hl := h.lineRead l (lines l hl)
  lineAgree l hl l' hl' := h.lineAgree l (lines l hl) l' (lines l' hl')
  agree l hl _ _ hr := h.agree l (lines l hl) (raised hr)

theorem request (h : Entries s a done log) {lane : Lane} {genId : String} {basisSeq : Nat}
    (hp : e.payload = .fastRequest lane genId basisSeq) :
    Entries s { a with basis := a.basis.set genId basisSeq } (done ++ [e]) log := by
  refine { h.more e with requests := ?_ }
  intro g b hb
  rw [Dict.get?_set] at hb
  split at hb
  · rename_i hg
    cases hb
    exact ⟨e, by simp, lane, hg ▸ hp⟩
  · exact (h.more e).requests hb

theorem bindAt_cases {basis : Option Nat} {turn seq : Nat} {bound : Option Nat} {x : Nat}
    (h : Authority.bindAt basis turn seq bound = some x) :
    bound = some x ∨ bound = none ∧ x = turn ∧ ∃ b, basis = some b ∧ seq ≤ b := by
  unfold Authority.bindAt at h
  split at h
  · rename_i b
    split at h
    · exact Or.inr ⟨rfl, (Option.some.inj h).symm, b, rfl, ‹_›⟩
    · cases h
  · exact Or.inl h

theorem bindAt_ne_none {basis : Option Nat} {turn seq : Nat} {bound : Option Nat}
    (h : bound ≠ none) : Authority.bindAt basis turn seq bound ≠ none := by
  cases bound with
  | none => exact absurd rfl h
  | some x => exact h

/-- A seq that a turn bound is a target: the turn's request saw the line. -/
theorem bound_target {lane : Lane} {seq x turn : Nat} {bound basis : Option Nat}
    (was : ∀ x, bound = some x → Target s log lane seq x)
    (read : lane = .cp → s.slowView = .transcript → bound ≠ none)
    (saw : ∀ b, basis = some b → seq ≤ b → TurnSaw log lane seq turn)
    (hx : Authority.bindAt basis turn seq bound = some x) : Target s log lane seq x := by
  rcases bindAt_cases hx with h | ⟨hb, rfl, b, hbasis, hle⟩
  · exact was x h
  · unfold Target
    rw [if_neg fun ⟨hl, ht⟩ => read hl ht hb]
    exact saw b hbasis hle

section bind

variable {basis : Option Nat} {turn : Nat} {lane : Lane}

@[simp] theorem bindFence_lane (r : Raised) :
    (Authority.bindFence basis turn lane r).lane = r.lane := by
  unfold Authority.bindFence; split <;> rfl

@[simp] theorem bindFence_seq (r : Raised) :
    (Authority.bindFence basis turn lane r).seq = r.seq := by
  unfold Authority.bindFence; split <;> rfl

@[simp] theorem bindLine_seq (l : RepLine) :
    (Authority.bindLine basis turn lane l).seq = l.seq := by
  unfold Authority.bindLine; split <;> rfl

theorem bindFence_bound (r : Raised) : (Authority.bindFence basis turn lane r).bound =
    if r.lane = lane then Authority.bindAt basis turn r.seq r.bound else r.bound := by
  unfold Authority.bindFence; split <;> rfl

theorem bindLine_bound (l : RepLine) : (Authority.bindLine basis turn lane l).bound =
    if lane = .cp then Authority.bindAt basis turn l.seq l.bound else l.bound := by
  unfold Authority.bindLine; split <;> rfl

end bind

theorem get?_bind {turn : Nat} {lane : Lane} {genId : String} {id : String} {r' : Raised} :
    (a.bind turn lane genId).raised.get? id = some r' ↔
      ∃ r, a.raised.get? id = some r ∧
        Authority.bindFence (a.basis.get? genId) turn lane r = r' := by
  show (a.raised.mapValues _).get? id = some r' ↔ _
  rw [Dict.get?_mapValues, Option.map_eq_some_iff]

theorem mem_bind_lines {turn : Nat} {lane : Lane} {genId : String} {l' : RepLine} :
    l' ∈ (a.bind turn lane genId).lines ↔
      ∃ l ∈ a.lines, Authority.bindLine (a.basis.get? genId) turn lane l = l' := by
  show l' ∈ a.lines.map _ ↔ _
  rw [List.mem_map]

theorem turn (h : Entries s a done log) {lane : Lane} {genId : String}
    (hp : e.payload = .fastTurn lane genId) (he : e ∈ log) (sub : done ⊆ log)
    (earlier : ∀ x ∈ done, x.seq < e.seq) :
    Entries s (a.bind e.seq lane genId) (done ++ [e]) log := by
  have saw : ∀ {seq : Nat}, (∃ x ∈ done, x.seq = seq) → ∀ b, a.basis.get? genId = some b →
      seq ≤ b → TurnSaw log lane seq e.seq := by
    rintro _ ⟨x, hx, rfl⟩ b hb hle
    obtain ⟨r, hr, l, hreq⟩ := h.requests hb
    exact ⟨e, he, rfl, earlier x hx, genId, hp, r, sub hr, l, b, hreq, earlier r hr, hle⟩
  have m := h.more e
  constructor
  · intro id r' hr'
    obtain ⟨r, hr, _⟩ := get?_bind.mp hr'
    exact h.numbered hr
  · intro g b hb
    have kept : (a.basis.erase genId).get? g = some b := hb
    rw [Dict.get?_erase] at kept
    split at kept
    · cases kept
    · exact m.requests kept
  · intro id r' hr'
    obtain ⟨r, hr, rfl⟩ := get?_bind.mp hr'
    rw [bindFence_seq]
    exact m.raisedSeq hr
  · intro l' hl'
    obtain ⟨l, hl, rfl⟩ := mem_bind_lines.mp hl'
    rw [bindLine_seq]
    exact m.lineSeq l hl
  · intro id r' x hr' hx
    obtain ⟨r, hr, rfl⟩ := get?_bind.mp hr'
    rw [bindFence_bound] at hx
    rw [bindFence_lane, bindFence_seq]
    split at hx
    · rename_i hl
      exact bound_target (fun y => h.raisedTarget hr) (h.raisedRead hr)
        (fun b hb hle => hl ▸ saw (h.raisedSeq hr) b hb hle) hx
    · exact h.raisedTarget hr hx
  · intro l' hl' x hx
    obtain ⟨l, hl, rfl⟩ := mem_bind_lines.mp hl'
    rw [bindLine_bound] at hx
    rw [bindLine_seq]
    split at hx
    · rename_i hc
      exact bound_target (h.lineTarget l hl) (fun _ => h.lineRead l hl)
        (fun b hb hle => hc ▸ saw (h.lineSeq l hl) b hb hle) hx
    · exact h.lineTarget l hl x hx
  · intro id r' hr' hlane hv
    obtain ⟨r, hr, rfl⟩ := get?_bind.mp hr'
    rw [bindFence_lane] at hlane
    have := h.raisedRead hr hlane hv
    rw [bindFence_bound]
    split
    · exact bindAt_ne_none this
    · exact this
  · intro l' hl' hv
    obtain ⟨l, hl, rfl⟩ := mem_bind_lines.mp hl'
    have := h.lineRead l hl hv
    rw [bindLine_bound]
    split
    · exact bindAt_ne_none this
    · exact this
  · intro l1 hl1 l2 hl2 hs
    obtain ⟨l, hl, rfl⟩ := mem_bind_lines.mp hl1
    obtain ⟨l', hl', rfl⟩ := mem_bind_lines.mp hl2
    rw [bindLine_seq, bindLine_seq] at hs
    rw [bindLine_bound, bindLine_bound, hs, h.lineAgree l hl l' hl' hs]
  · intro l' hl' id r' hr' hlane hs
    obtain ⟨l, hl, rfl⟩ := mem_bind_lines.mp hl'
    obtain ⟨r, hr, rfl⟩ := get?_bind.mp hr'
    rw [bindFence_lane] at hlane
    rw [bindFence_seq, bindLine_seq] at hs
    rw [bindFence_bound, bindLine_bound, hs, hlane, h.agree l hl hr hlane hs]
    by_cases hc : lane = .cp
    · rw [if_pos hc.symm, if_pos hc]
    · rw [if_neg (fun e => hc e.symm), if_neg hc]

end Entries

namespace Books

variable {s : Session} {closed : Bool} {a : Authority} {done log : List Event} {e : Event}

theorem mono (h : Books s closed a done log) {log' : List Event} (sub : log ⊆ log') :
    Books s closed a done log' :=
  { h.toEntries.mono sub with
    users := fun hs m hm hu => (h.users hs m hm hu).imp_right fun c => c.mono sub
    reps := fun hs hc e he hr => (h.reps hs hc e he hr).imp_right fun c => c.mono sub }

theorem close (h : Books s closed a done log) : Books s true a done log :=
  { h with reps := fun _ hc => by cases hc }

/-- The handler of an event that is no user message and no line of a live call keeps the books if
it keeps their entries, their lines and the user fences. -/
theorem skip (h : Books s closed a done log) {a' : Authority}
    (entries : Entries s a' (done ++ [e]) log)
    (lines : ∀ l ∈ a.lines, (∃ l' ∈ a'.lines, l'.seq = l.seq) ∨ Covered s log .cp l.seq)
    (fences : ∀ {id r}, a.raised.get? id = some r → r.lane = .user →
      (∃ r', a'.raised.get? id = some r' ∧ r'.lane = .user ∧ r'.seq = r.seq) ∨
        Covered s log .user r.seq)
    (notUser : s.slow = true → e.isUserMsg → ∃ id r, a'.raised.get? id = some r ∧
      r.lane = .user ∧ r.seq = e.seq)
    (notRep : s.slow = true → closed = false → e.isRepLine → ∃ l ∈ a'.lines, l.seq = e.seq) :
    Books s closed a' (done ++ [e]) log := by
  refine { entries with users := ?_, reps := ?_ }
  · intro hs m hm hu
    rcases List.mem_append.mp hm with hm | hm
    · rcases h.users hs m hm hu with ⟨id, r, hr, hlane, hseq⟩ | hc
      · rcases fences hr hlane with ⟨r', hr', hlane', hseq'⟩ | hc
        · exact Or.inl ⟨id, r', hr', hlane', hseq'.trans hseq⟩
        · exact Or.inr (hseq ▸ hc)
      · exact Or.inr hc
    · rw [List.mem_singleton.mp hm] at hu ⊢
      exact Or.inl (notUser hs hu)
  · intro hs hc x hx hr
    rcases List.mem_append.mp hx with hx | hx
    · rcases h.reps hs hc x hx hr with ⟨l, hl, hseq⟩ | hcov
      · rcases lines l hl with ⟨l', hl', hseq'⟩ | hcov
        · exact Or.inl ⟨l', hl', hseq'.trans hseq⟩
        · exact Or.inr (hseq ▸ hcov)
      · exact Or.inr hcov
    · rw [List.mem_singleton.mp hx] at hr ⊢
      exact Or.inl (notRep hs hc hr)

end Books

end ProxyLoop

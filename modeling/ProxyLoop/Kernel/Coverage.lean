import ProxyLoop.Core.Capabilities
import ProxyLoop.Kernel.Books

/-!
# Fences cover every release

The handlers keep the books, an accept in flight keeps every uncovered rep line fenced, and the
fences on the board are those in the books once every event was delivered.  So a release, which
the fold accepts on an empty fence list alone, finds every line before it covered.
-/

namespace ProxyLoop

open Lib (Dict Reach anyStep)

def AllFenced (a : Authority) : Prop :=
  ∀ l ∈ a.lines, ∃ id r, a.raised.get? id = some r ∧ r.lane = .cp ∧ r.seq = l.seq

/-! ## The handlers keep the books -/

section handlers

variable {s : Session} {closed : Bool} {a : Authority} {done log : List Event} {e : Event}

theorem Books.userMsg (h : Books s closed a done log) (msg : e.isUserMsg) :
    Books s closed (a.raise [e.seq] e.seq .user e.eventId none).1 (done ++ [e]) log := by
  have m := h.toEntries.more e
  have entries := m.raise [e.seq] .user e.eventId none ⟨e, by simp, rfl⟩
    (fun x hx => by cases hx) (fun hl => by cases hl) fun hl => by cases hl
  refine h.skip entries (fun l hl => Or.inl ⟨l, hl, rfl⟩) ?_ ?_ ?_
  · intro id r hr hlane
    exact Or.inl ⟨r, m.raised_of_raise _ hr, hlane, rfl⟩
  · intro _ _
    exact ⟨_, _, (m.get?_raise _).mpr (Or.inl ⟨rfl, rfl⟩), rfl, rfl⟩
  · intro _ _ hr
    exact absurd hr msg.not_repLine

theorem Books.unchanged (h : Books s closed a done log)
    (notUser : s.slow = true → ¬ e.isUserMsg)
    (notRep : s.slow = true → closed = false → ¬ e.isRepLine) :
    Books s closed a (done ++ [e]) log :=
  h.skip (h.toEntries.more e) (fun l hl => Or.inl ⟨l, hl, rfl⟩)
    (fun hr hlane => Or.inl ⟨_, hr, hlane, rfl⟩) (fun hs hu => absurd hu (notUser hs))
    fun hs hc hr => absurd hr (notRep hs hc)

theorem Books.repLine (h : Books s closed a done log) (line : e.isRepLine) {utt : String}
    (inFlight : Bool) (new : ∀ x ∈ done, x.seq ≠ e.seq) :
    Books s closed (Authority.repLine s closed inFlight a e.seq utt).1 (done ++ [e]) log := by
  have notUser : ¬ e.isUserMsg := fun hu => hu.not_repLine line
  unfold Authority.repLine
  split
  · rename_i hl
    refine h.unchanged (fun _ => notUser) fun hs hc => ?_
    simp [Authority.live, hs, hc] at hl
  · dsimp only
    have added := h.toEntries.addLine utt new
    have known : ∃ x ∈ done ++ [e], x.seq = e.seq := ⟨e, by simp, rfl⟩
    have isIn : Authority.newLine s e.seq utt ∈ a.lines ++ [Authority.newLine s e.seq utt] := by simp
    have here : ∃ l ∈ a.lines ++ [Authority.newLine s e.seq utt], l.seq = e.seq :=
      ⟨_, isIn, rfl⟩
    split
    · have raised := added.raise [e.seq] .cp utt (Authority.newLine s e.seq utt).bound known
        (fun x hx => Entries.newLine_target hx) (fun _ => Entries.newLine_read)
        fun _ l hl hs => added.lineAgree _ isIn l hl hs.symm
      refine h.skip raised (fun l hl => Or.inl ⟨l, List.mem_append_left _ hl, rfl⟩) ?_
        (fun _ hu => absurd hu notUser) fun _ _ _ => here
      intro id r hr hlane
      exact Or.inl ⟨r, added.raised_of_raise _ hr, hlane, rfl⟩
    · exact h.skip added (fun l hl => Or.inl ⟨l, List.mem_append_left _ hl, rfl⟩)
        (fun hr hlane => Or.inl ⟨_, hr, hlane, rfl⟩) (fun _ hu => absurd hu notUser)
        fun _ _ _ => here

theorem Books.minted (h : Books s closed a done log) (mint : e.mintsAccept) :
    Books s closed (Authority.minted s closed a e.seq).1 (done ++ [e]) log := by
  have notUser : ¬ e.isUserMsg := fun ⟨_, hu⟩ => by
    obtain ⟨_, hp⟩ := mint; rw [hp] at hu; cases hu
  have notRep : ¬ e.isRepLine := fun ⟨_, _, hr⟩ => by
    obtain ⟨_, hp⟩ := mint; rw [hp] at hr; cases hr
  unfold Authority.minted
  split
  · exact h.unchanged (fun _ => notUser) fun _ _ => notRep
  · obtain ⟨entries, lines, kept, -⟩ := (h.toEntries.more e).raiseAll e.seq
      (a.lines.filter fun l => l.seq ∉ a.fencedLines) fun l hl => List.mem_of_mem_filter hl
    exact h.skip entries (fun l hl => Or.inl ⟨l, by rw [lines]; exact hl, rfl⟩)
      (fun hr hlane => Or.inl ⟨_, kept hr, hlane, rfl⟩) (fun _ hu => absurd hu notUser)
      fun _ _ hr => absurd hr notRep

theorem Books.turn (h : Books s closed a done log) {lane : Lane} {genId : String}
    (hp : e.payload = .fastTurn lane genId) (he : e ∈ log) (sub : done ⊆ log)
    (earlier : ∀ x ∈ done, x.seq < e.seq) :
    Books s closed (a.bind e.seq lane genId) (done ++ [e]) log := by
  refine h.skip (h.toEntries.turn hp he sub earlier) ?_ ?_ ?_ ?_
  · intro l hl
    exact Or.inl ⟨_, Entries.mem_bind_lines.mpr ⟨l, hl, rfl⟩, Entries.bindLine_seq l⟩
  · intro id r hr hlane
    exact Or.inl ⟨_, Entries.get?_bind.mpr ⟨r, hr, rfl⟩, by simpa using hlane, by simp⟩
  · rintro _ ⟨_, hu⟩; rw [hp] at hu; cases hu
  · rintro _ _ ⟨_, _, hr⟩; rw [hp] at hr; cases hr

theorem get?_clearAll (cause : Nat) {dead : Raised → Bool} {id : String} {r : Raised} :
    (a.clearAll cause dead).1.raised.get? id = some r ↔
      a.raised.get? id = some r ∧ dead r = false := by
  show (a.raised.filterValues _).get? id = some r ↔ _
  rw [Dict.get?_filterValues]
  simp

theorem Books.closedCall (h : Books s true a done log) {lane : Lane}
    (hp : e.payload = .chanClosed lane) :
    Books s true (a.closedCall e.seq).1 (done ++ [e]) log := by
  refine h.skip ((h.toEntries.more e).sub rfl (fun hr => ((get?_clearAll _).mp hr).1)
    (fun l hl => hl) id) (fun l hl => Or.inl ⟨l, hl, rfl⟩) ?_ ?_ fun _ hc => by cases hc
  · intro id r hr hlane
    exact Or.inl ⟨r, (get?_clearAll _).mpr ⟨hr, by simp [hlane]⟩, hlane, rfl⟩
  · rintro _ ⟨_, hu⟩; rw [hp] at hu; cases hu

theorem completed_raised {step basis : Nat} {id : String} {r : Raised} :
    (a.completed step basis).1.raised.get? id = some r ↔
      a.raised.get? id = some r ∧ r.bound.any (· ≤ basis) = false := by
  unfold Authority.completed
  dsimp only
  split <;> exact get?_clearAll step

theorem completed_lines {step basis : Nat} :
    (a.completed step basis).1.lines = a.lines.filter fun l => !l.bound.any (· ≤ basis) := by
  unfold Authority.completed
  dsimp only
  split <;> rfl

theorem Books.completed (h : Books s closed a done log) {basis : Nat}
    (hp : e.payload = .slowStepCompleted basis) (he : e ∈ log) :
    Books s closed (a.completed e.seq basis).1 (done ++ [e]) log := by
  have reached : ∀ {x : Nat}, x ≤ basis → StepReached log x := fun hx => ⟨e, he, basis, hp, hx⟩
  have entries : Entries s (a.completed e.seq basis).1 (done ++ [e]) log := by
    refine (h.toEntries.more e).sub ?_ (fun hr => (completed_raised.mp hr).1) ?_ ?_
    · unfold Authority.completed; dsimp only; split <;> rfl
    · intro l hl; rw [completed_lines] at hl; exact List.mem_of_mem_filter hl
    · unfold Authority.completed; dsimp only; split <;> exact id
  refine h.skip entries ?_ ?_ ?_ ?_
  · intro l hl
    cases hb : l.bound.any (· ≤ basis) with
    | false => exact Or.inl ⟨l, by rw [completed_lines]; exact List.mem_filter.mpr ⟨hl, by simp [hb]⟩,
        rfl⟩
    | true =>
      obtain ⟨x, hx, hle⟩ := (Option.any_eq_true _ _).mp hb
      exact Or.inr ⟨x, h.lineTarget l hl x hx, reached (by simpa using hle)⟩
  · intro id r hr hlane
    cases hb : r.bound.any (· ≤ basis) with
    | false => exact Or.inl ⟨r, completed_raised.mpr ⟨hr, hb⟩, hlane, rfl⟩
    | true =>
      obtain ⟨x, hx, hle⟩ := (Option.any_eq_true _ _).mp hb
      exact Or.inr ⟨x, hlane ▸ h.raisedTarget hr hx, reached (by simpa using hle)⟩
  · rintro _ ⟨_, hu⟩; rw [hp] at hu; cases hu
  · rintro _ _ ⟨_, _, hr⟩; rw [hp] at hr; cases hr

theorem Books.onEvent (h : Books s closed a done log) (bb : Blackboard) (he : e ∈ log)
    (sub : done ⊆ log) (earlier : ∀ x ∈ done, x.seq < e.seq)
    (closes : ∀ lane, e.payload = .chanClosed lane → closed = true) :
    Books s closed (a.onEvent s closed bb e).1 (done ++ [e]) log := by
  have unchanged : (¬ e.isUserMsg) → (¬ e.isRepLine) → Books s closed a (done ++ [e]) log :=
    fun hu hr => h.unchanged (fun _ => hu) fun _ _ => hr
  unfold Authority.onEvent
  split
  case h_1 text hp =>
    split
    · exact h.userMsg ⟨text, hp⟩
    · rename_i hs
      exact h.unchanged (fun hs' => absurd hs' hs) fun hs' => absurd hs' hs
  case h_2 utt text hp =>
    exact h.repLine ⟨utt, text, hp⟩ _ fun x hx => Nat.ne_of_lt (earlier x hx)
  case h_3 cap hp => exact h.minted ⟨cap, hp⟩
  case h_4 lane genId basisSeq hp =>
    exact h.skip (h.toEntries.request hp) (fun l hl => Or.inl ⟨l, hl, rfl⟩)
      (fun hr hlane => Or.inl ⟨_, hr, hlane, rfl⟩) (fun _ ⟨_, hu⟩ => by rw [hp] at hu; cases hu)
      fun _ _ ⟨_, _, hr⟩ => by rw [hp] at hr; cases hr
  case h_5 genId reason hp =>
    refine h.skip ((h.toEntries.more e).sub rfl id (fun l hl => hl) ?_)
      (fun l hl => Or.inl ⟨l, hl, rfl⟩) (fun hr hlane => Or.inl ⟨_, hr, hlane, rfl⟩)
      (fun _ ⟨_, hu⟩ => by rw [hp] at hu; cases hu) fun _ _ ⟨_, _, hr⟩ => by rw [hp] at hr; cases hr
    intro g b hb
    have : (a.basis.erase genId).get? g = some b := hb
    rw [Dict.get?_erase] at this
    split at this
    · cases this
    · exact this
  case h_6 lane genId hp => exact h.turn hp he sub earlier
  case h_7 lane hp =>
    have hc := closes lane hp
    subst hc
    exact h.closedCall hp
  case h_8 bump hp =>
    have := unchanged (fun ⟨_, hu⟩ => by rw [hp] at hu; cases hu)
      fun ⟨_, _, hr⟩ => by rw [hp] at hr; cases hr
    split <;> exact this
  case h_9 basis hp => exact h.completed hp he
  case h_10 msg hp =>
    have := unchanged (fun ⟨_, hu⟩ => by rw [hp] at hu; cases hu)
      fun ⟨_, _, hr⟩ => by rw [hp] at hr; cases hr
    split <;> exact this
  case h_11 card hp =>
    exact h.skip ((h.toEntries.more e).sub rfl id (fun l hl => hl) id)
      (fun l hl => Or.inl ⟨l, hl, rfl⟩) (fun hr hlane => Or.inl ⟨_, hr, hlane, rfl⟩)
      (fun _ ⟨_, hu⟩ => by rw [hp] at hu; cases hu) fun _ _ ⟨_, _, hr⟩ => by rw [hp] at hr; cases hr
  case h_12 p hp =>
    exact h.skip ((h.toEntries.more e).sub rfl id (fun l hl => hl) id)
      (fun l hl => Or.inl ⟨l, hl, rfl⟩) (fun hr hlane => Or.inl ⟨_, hr, hlane, rfl⟩)
      (fun _ ⟨_, hu⟩ => by rw [hp] at hu; cases hu) fun _ _ ⟨_, _, hr⟩ => by rw [hp] at hr; cases hr
  case h_13 was hp =>
    exact h.skip ((h.toEntries.more e).sub rfl id (fun l hl => hl) id)
      (fun l hl => Or.inl ⟨l, hl, rfl⟩) (fun hr hlane => Or.inl ⟨_, hr, hlane, rfl⟩)
      (fun _ ⟨_, hu⟩ => by rw [hp] at hu; cases hu) fun _ _ ⟨_, _, hr⟩ => by rw [hp] at hr; cases hr
  case h_14 notUser notRep _ _ _ _ _ _ _ _ _ _ _ =>
    exact unchanged (fun ⟨_, hu⟩ => notUser _ hu) fun ⟨_, _, hr⟩ => notRep _ _ hr

end handlers

/-! ## An accept in flight keeps its lines fenced -/

section fenced

variable {s : Session} {closed : Bool} {a : Authority} {done log : List Event} {e : Event}

theorem AllFenced.congr (h : AllFenced a) {a' : Authority} (lines : ∀ l ∈ a'.lines, l ∈ a.lines)
    (kept : ∀ {id r}, a.raised.get? id = some r → a'.raised.get? id = some r) : AllFenced a' :=
  fun l hl => by
    obtain ⟨id, r, hr, rest⟩ := h l (lines l hl)
    exact ⟨id, r, kept hr, rest⟩

theorem allFenced_minted (h : Entries s a done log) (live : Authority.live s closed = true)
    {mint : Nat} : AllFenced (Authority.minted s closed a mint).1 := by
  unfold Authority.minted
  rw [live]
  obtain ⟨-, lines, kept, all⟩ := h.raiseAll mint
    (a.lines.filter fun l => l.seq ∉ a.fencedLines) fun l hl => List.mem_of_mem_filter hl
  intro l hl
  replace hl : l ∈ a.lines := lines ▸ hl
  by_cases hf : l.seq ∈ a.fencedLines
  · obtain ⟨r, hr, hs⟩ := List.mem_map.mp hf
    obtain ⟨hv, hlane⟩ := List.mem_filter.mp hr
    obtain ⟨id, hid⟩ := Dict.mem_values.mp hv
    exact ⟨id, r, kept hid, by simpa using hlane, hs⟩
  · exact all l (List.mem_filter.mpr ⟨hl, by simpa using hf⟩)

/-- Every handler of a live call keeps the lines fenced while an accept is in flight, the mint's own
handler fencing them. -/
theorem Books.fenced (h : Books s closed a done log) {bb : Blackboard}
    (live : Authority.live s closed = true) (inFlight : acceptInFlight bb = true)
    (closes : ∀ lane, e.payload = .chanClosed lane → closed = true)
    (was : e.mintsAccept ∨ AllFenced a) : AllFenced (a.onEvent s closed bb e).1 := by
  have still : ¬ e.mintsAccept → AllFenced a := fun hn => was.resolve_left hn
  unfold Authority.onEvent
  split
  case h_3 cap hp => exact allFenced_minted h.toEntries live
  case h_1 text hp =>
    have f := still fun ⟨_, hm⟩ => by rw [hp] at hm; cases hm
    split
    · exact f.congr (fun l hl => hl) fun hr => h.raised_of_raise _ hr
    · exact f
  case h_2 utt text hp =>
    have f := still fun ⟨_, hm⟩ => by rw [hp] at hm; cases hm
    unfold Authority.repLine
    rw [live, inFlight]
    dsimp only [Bool.not_true, Bool.false_eq_true, ↓reduceIte]
    intro l hl
    rcases List.mem_append.mp hl with hl | hl
    · obtain ⟨id, r, hr, rest⟩ := f l hl
      exact ⟨id, r, h.raised_of_raise [e.seq] hr, rest⟩
    · rw [List.mem_singleton.mp hl]
      exact ⟨_, _, (h.get?_raise [e.seq]).mpr (Or.inl ⟨rfl, rfl⟩), rfl, rfl⟩
  case h_6 lane genId hp =>
    have f := still fun ⟨_, hm⟩ => by rw [hp] at hm; cases hm
    intro l' hl'
    obtain ⟨l, hl, rfl⟩ := Entries.mem_bind_lines.mp hl'
    obtain ⟨id, r, hr, hlane, hs⟩ := f l hl
    exact ⟨id, _, Entries.get?_bind.mpr ⟨r, hr, rfl⟩, by simpa using hlane, by simpa using hs⟩
  case h_7 lane hp =>
    have := closes lane hp
    simp [Authority.live, this] at live
  case h_9 basis hp =>
    have f := still fun ⟨_, hm⟩ => by rw [hp] at hm; cases hm
    intro l hl
    rw [completed_lines] at hl
    obtain ⟨hl, hb⟩ := List.mem_filter.mp hl
    obtain ⟨id, r, hr, hlane, hs⟩ := f l hl
    refine ⟨id, r, completed_raised.mpr ⟨hr, ?_⟩, hlane, hs⟩
    rw [h.agree l hl hr hlane hs]
    simpa using hb
  case h_4 lane genId basisSeq hp => exact still fun ⟨_, hm⟩ => by rw [hp] at hm; cases hm
  case h_5 genId reason hp => exact still fun ⟨_, hm⟩ => by rw [hp] at hm; cases hm
  case h_8 bump hp =>
    have f := still fun ⟨_, hm⟩ => by rw [hp] at hm; cases hm
    split <;> exact f
  case h_10 msg hp =>
    have f := still fun ⟨_, hm⟩ => by rw [hp] at hm; cases hm
    split <;> exact f
  case h_11 card hp => exact still fun ⟨_, hm⟩ => by rw [hp] at hm; cases hm
  case h_12 p hp => exact still fun ⟨_, hm⟩ => by rw [hp] at hm; cases hm
  case h_13 was' hp => exact still fun ⟨_, hm⟩ => by rw [hp] at hm; cases hm
  case h_14 _ _ notMint _ _ _ _ _ _ _ _ _ _ => exact still fun ⟨_, hm⟩ => notMint _ hm

end fenced

/-! ## The fences on the board -/

/-- The fence ids the board will hold once the reactions ran. -/
def settle : List Reaction → List String → List String
  | [], ids => ids
  | .emit _ _ (.authorityFence .raised id _) :: rest, ids => settle rest (ids ++ [id])
  | .emit _ _ (.authorityFence .cleared id _) :: rest, ids => settle rest (ids.filter (· ≠ id))
  | _ :: rest, ids => settle rest ids

theorem settle_append (first rest : List Reaction) (ids : List String) :
    settle (first ++ rest) ids = settle rest (settle first ids) := by
  fun_induction settle first ids <;> simp_all [settle]

theorem mem_settle_clear {cause : Nat} {dead : List (String × Raised)} {ids : List String}
    {id : String} :
    id ∈ settle (dead.map fun p => .emit .kernel [cause] (.authorityFence .cleared p.1 p.2.utt))
      ids ↔ id ∈ ids ∧ ∀ p ∈ dead, p.1 ≠ id := by
  induction dead generalizing ids with
  | nil => simp [settle]
  | cons p dead ih =>
    simp only [List.map_cons, settle, ih, List.mem_filter, List.forall_mem_cons, and_assoc,
      decide_eq_true_eq]
    exact and_congr_right fun _ => and_congr_left fun _ => ne_comm

/-- Each reaction is a fence, the bump of a relayed revoke, or the move of a stale card or of an
ended replan. -/
def Reaction.plain : Reaction → Bool
  | .emit _ _ (.authorityFence ..) => true
  | .emit _ _ (.authorityEpoch bump) => bump.reason = .f2sRevoke
  | .move trigger _ => trigger = .approvalStale || trigger = .replan
  | _ => false

/-- The reactions agree with the raised fences, given that `ids` do before. -/
def Settled (a : Authority) (reactions : List Reaction) (ids : List String) : Prop :=
  ∀ id, id ∈ settle reactions ids ↔ (a.raised.get? id).isSome = true

theorem plain_raiseAll {mint : Nat} {ls : List RepLine} {a : Authority} :
    ∀ r ∈ (Authority.raiseAll mint ls a).2, r.plain = true := by
  induction ls generalizing a with
  | nil => simp [Authority.raiseAll]
  | cons l ls ih =>
    intro r hr
    rcases List.mem_append.mp hr with hr | hr
    · rw [List.mem_singleton.mp hr]; rfl
    · exact ih r hr

theorem plain_clearAll {cause : Nat} {dead : Raised → Bool} {a : Authority} :
    ∀ r ∈ (a.clearAll cause dead).2, r.plain = true := by
  intro r hr
  obtain ⟨p, _, rfl⟩ := List.mem_map.mp hr
  rfl

theorem plain_onEvent {s : Session} {closed : Bool} {bb : Blackboard} {a : Authority} {e : Event} :
    ∀ r ∈ (a.onEvent s closed bb e).2, r.plain = true := by
  unfold Authority.onEvent
  split
  case h_1 => split <;> simp [Authority.raise, Reaction.plain]
  case h_2 =>
    unfold Authority.repLine
    split
    · simp
    · dsimp only
      split <;> simp [Authority.raise, Reaction.plain]
  case h_3 =>
    unfold Authority.minted
    split
    · simp
    · exact plain_raiseAll
  case h_7 => exact plain_clearAll
  case h_8 => split <;> simp [Reaction.plain]
  case h_9 =>
    unfold Authority.completed
    dsimp only
    split
    · intro r hr
      rcases List.mem_append.mp hr with hr | hr
      · exact plain_clearAll r hr
      · rw [List.mem_singleton.mp hr]; rfl
    · exact plain_clearAll
  case h_10 => split <;> simp [Reaction.plain]
  all_goals simp

section settled

variable {s : Session} {closed : Bool} {a : Authority} {done log : List Event} {e : Event}
  {ids : List String}

theorem settled_raise (h : Settled a [] ids) (causes : List Nat) (seq : Nat) (lane : Lane)
    (utt : String) (bound : Option Nat) :
    Settled (a.raise causes seq lane utt bound).1 (a.raise causes seq lane utt bound).2 ids := by
  intro id
  have := h id
  simp only [settle] at this
  simp only [Authority.raise, settle, List.mem_append, List.mem_singleton, Dict.get?_set, this]
  split <;> simp_all

theorem settled_raiseAll (h : Settled a [] ids) {mint : Nat} {ls : List RepLine} :
    Settled (Authority.raiseAll mint ls a).1 (Authority.raiseAll mint ls a).2 ids := by
  induction ls generalizing a ids with
  | nil => exact h
  | cons l ls ih =>
    have first := settled_raise h [l.seq, mint] l.seq .cp l.utt l.bound
    intro id
    have := @ih _ (settle (a.raise [l.seq, mint] l.seq .cp l.utt l.bound).2 ids) first id
    simp only [Authority.raiseAll, settle_append]
    exact this

theorem settled_clearAll (h : Settled a [] ids) (cause : Nat) (dead : Raised → Bool) :
    Settled (a.clearAll cause dead).1 (a.clearAll cause dead).2 ids := by
  intro id
  have hi := h id
  simp only [settle] at hi
  simp only [Authority.clearAll, mem_settle_clear, hi]
  constructor
  · rintro ⟨hs, hd⟩
    obtain ⟨r, hr⟩ := Option.isSome_iff_exists.mp hs
    refine Option.isSome_iff_exists.mpr ⟨r, (get?_clearAll cause).mpr ⟨hr, ?_⟩⟩
    by_contra hdead
    exact hd (id, r) (List.mem_filter.mpr ⟨Dict.get?_eq_some.mp hr, by simpa using hdead⟩) rfl
  · intro hs
    obtain ⟨r, hr⟩ := Option.isSome_iff_exists.mp hs
    obtain ⟨hr, hlive⟩ := (get?_clearAll cause).mp hr
    refine ⟨by rw [hr]; rfl, ?_⟩
    rintro ⟨id', r'⟩ hp rfl
    obtain ⟨hp, hdead⟩ := List.mem_filter.mp hp
    rw [Dict.get?_eq_some.mpr hp] at hr
    cases hr
    rw [hlive] at hdead
    cases hdead

theorem settled_onEvent (h : Settled a [] ids) (bb : Blackboard) :
    Settled (a.onEvent s closed bb e).1 (a.onEvent s closed bb e).2 ids := by
  unfold Authority.onEvent
  split
  case h_1 =>
    split
    · exact settled_raise h _ _ _ _ _
    · exact h
  case h_2 =>
    unfold Authority.repLine
    split
    · exact h
    · dsimp only
      split
      · exact settled_raise (a := { a with lines := _ }) h _ _ _ _ _
      · exact h
  case h_3 =>
    unfold Authority.minted
    split
    · exact h
    · exact settled_raiseAll h
  case h_6 =>
    intro id
    refine (h id).trans ?_
    show _ ↔ ((a.raised.mapValues _).get? id).isSome = true
    rw [Dict.get?_mapValues, Option.isSome_map]
  case h_7 => exact settled_clearAll h _ _
  case h_9 basis hp =>
    have cleared := settled_clearAll (a := { a with
      lines := a.lines.filter fun l => !l.bound.any (· ≤ basis) }) h e.seq
      fun r => r.bound.any (· ≤ basis)
    unfold Authority.completed
    dsimp only
    split
    · intro id
      rw [settle_append]
      exact cleared id
    · exact cleared
  case h_8 => split <;> exact h
  case h_10 => split <;> exact h
  all_goals exact h

end settled

/-! ## The invariant of a desk -/

theorem acceptInFlight_of_apply {bb bb' : Blackboard} {e : Event} (h : apply bb e = .ok bb')
    (inFlight : acceptInFlight bb' = true) : acceptInFlight bb = true ∨ e.mintsAccept := by
  by_contra hn
  rw [not_or, Bool.not_eq_true] at hn
  obtain ⟨none_live, notMint⟩ := hn
  rw [acceptInFlight_eq_false] at none_live
  suffices acceptInFlight bb' = false by rw [this] at inFlight; cases inFlight
  rw [acceptInFlight_eq_false]
  intro k c hk
  obtain ⟨b, hc, rfl⟩ := change_of_apply h
  replace hk : b.capabilities.get? k = some c := hk
  cases hc with
  | quiet hp same => exact none_live k c (same.capabilities ▸ hk)
  | minted a hp intent =>
    rw [Dict.get?_set] at hk
    split at hk
    · cases hk
      by_contra hl
      refine notMint ⟨a.capability, hp.trans ?_⟩
      simp only [isLiveAccept, Bool.not_eq_false, Bool.and_eq_true, decide_eq_true_eq] at hl
      rw [← hl.1, intent]
    · exact none_live k c hk
  | released lane id named cap =>
    simp only [consume, Dict.get?_set] at hk
    split at hk
    · cases hk; simp [isLiveAccept]
    · exact none_live k c hk
  | revoked lane reason id cap =>
    rw [Dict.get?_erase] at hk
    split at hk
    · cases hk
    · exact none_live k c hk
  | _ => exact none_live k c hk

structure FenceInv (d : Desk) : Prop where
  sound : d.bus.Sound
  books : ∃ done, d.bus.events = done ++ d.undelivered ∧
    Books d.session d.closed d.auth done d.bus.events
  settled : Settled d.auth d.handler (d.bus.bb.fences.map Fence.fenceId)
  fenced : Authority.live d.session d.closed = true → acceptInFlight d.bus.bb = true →
    (∃ u ∈ d.undelivered, u.mintsAccept) ∨ AllFenced d.auth
  plain : ∀ r ∈ d.handler, r.plain = true
  closes : ∀ e ∈ d.bus.events, ∀ lane, e.payload = .chanClosed lane → d.closed = true

theorem fenceInv_start (session : Session) (runId : String) :
    FenceInv (Desk.start session runId) where
  sound := Bus.sound_new runId
  books := ⟨[], rfl, books_start session false⟩
  settled id := by simp [Desk.start, settle]
  fenced _ h := by simp [Desk.start, acceptInFlight, Dict.values, Dict.empty] at h
  plain r h := by cases h
  closes e h := by cases h

namespace FenceInv

variable {d d' : Desk}

/-- An emit keeps the invariant if it leaves the fences settled for what remains of the handler. -/
theorem emit (inv : FenceInv d) (rest : List Reaction) (sub : ∀ r ∈ rest, r ∈ d.handler)
    {tMs : Nat} {actor : Actor} {causes : List Nat} {p : Payload}
    (h : { d with handler := rest }.emit tMs actor causes p = some d')
    (settled : ∀ bb, apply d.bus.bb (d.bus.next tMs actor causes p) = .ok bb →
      Settled d.auth rest (bb.fences.map Fence.fenceId))
    (closes : ∀ lane, p = .chanClosed lane → d.closed = true) : FenceInv d' := by
  obtain ⟨bus, hb, _, rfl⟩ := Desk.emit_eq_some h
  have he := Bus.emitted_of_emit hb
  obtain ⟨done, split, books⟩ := inv.books
  have grows : d.bus.events ⊆ bus.events := by
    rw [he.events]; exact List.subset_append_left ..
  constructor
  · exact inv.sound.emit hb
  · refine ⟨done, ?_, books.mono grows⟩
    show bus.events = _
    rw [he.events, split, List.append_assoc]
  · exact settled _ he.applied
  · intro live inFlight
    rcases acceptInFlight_of_apply he.applied inFlight with was | mint
    · rcases inv.fenced live was with ⟨u, hu, hm⟩ | f
      · exact Or.inl ⟨u, List.mem_append_left _ hu, hm⟩
      · exact Or.inr f
    · exact Or.inl ⟨_, List.mem_append_right _ (List.mem_singleton.mpr rfl), mint⟩
  · exact fun r hr => inv.plain r (sub r hr)
  · intro e hm lane hp
    rw [show bus.events = _ from he.events] at hm
    rcases List.mem_append.mp hm with hm | hm
    · exact inv.closes e hm lane hp
    · rw [List.mem_singleton.mp hm] at hp
      exact closes lane hp

/-- Step lemma: every step of a desk keeps the invariant. -/
theorem step (inv : FenceInv d) (h : Desk.Stepped d d') : FenceInv d' := by
  cases h with
  | tick tMs later =>
    exact ⟨inv.sound, inv.books, inv.settled, inv.fenced, inv.plain, inv.closes⟩
  | reacted tMs actor causes p rest next emitted =>
    have settled := inv.settled
    rw [next] at settled
    have plain := inv.plain _ (next ▸ List.mem_cons_self ..)
    refine inv.emit rest (fun r hr => next ▸ List.mem_cons_of_mem _ hr) emitted ?_ ?_
    · intro bb happ
      cases p with
      | authorityFence op id utt =>
        cases op with
        | raised => rw [fences_of_raised happ rfl]; exact settled
        | cleared => rw [fences_of_cleared happ rfl]; exact settled
      | authorityEpoch bump =>
        rw [fences_of_apply happ (fun _ _ _ h => by cases h)]
        exact settled
      | _ => cases plain
    · intro lane hp
      rw [hp] at plain
      cases plain
  | moved tMs trigger cause rest status next legal emitted =>
    have settled := inv.settled
    rw [next] at settled
    refine inv.emit rest (fun r hr => next ▸ List.mem_cons_of_mem _ hr) emitted ?_
      (fun lane hp => by cases hp)
    intro bb happ
    rw [fences_of_apply happ (fun _ _ _ h => by cases h)]
    exact settled
  | unmoved trigger cause rest next illegal =>
    have settled := inv.settled
    rw [next] at settled
    exact ⟨inv.sound, inv.books, settled, inv.fenced,
      fun r hr => inv.plain r (next ▸ List.mem_cons_of_mem _ hr), inv.closes⟩
  | delivered e rest idle next =>
    obtain ⟨done, split, books⟩ := inv.books
    rw [next] at split
    have he : e ∈ d.bus.events := by rw [split]; simp
    have sub : done ⊆ d.bus.events := by rw [split]; exact List.subset_append_left ..
    have closes := inv.closes e he
    have earlier : ∀ x ∈ done, x.seq < e.seq := fun x hx => by
      obtain ⟨i, hi, rfl⟩ := List.getElem_of_mem hx
      have h1 := inv.sound.dense i done[i] (by rw [split, List.getElem?_append_left hi,
        List.getElem?_eq_getElem hi])
      have h2 := inv.sound.dense done.length e (by rw [split]; simp)
      omega
    constructor
    · exact inv.sound
    · exact ⟨done ++ [e], by simpa using split, books.onEvent _ he sub earlier closes⟩
    · have settled := inv.settled
      rw [idle] at settled
      exact settled_onEvent settled _
    · intro live inFlight
      rcases inv.fenced live inFlight with ⟨u, hu, hm⟩ | f
      · rw [next] at hu
        rcases List.mem_cons.mp hu with rfl | hu
        · exact Or.inr (books.fenced live inFlight closes (Or.inl hm))
        · exact Or.inl ⟨u, hu, hm⟩
      · exact Or.inr (books.fenced live inFlight closes (Or.inr f))
    · exact plain_onEvent
    · exact inv.closes
  | closed idle none_left =>
    obtain ⟨done, split, books⟩ := inv.books
    refine ⟨inv.sound, ⟨done, split, books.close⟩, inv.settled, ?_, inv.plain, fun _ _ _ _ => rfl⟩
    intro live
    simp [Authority.live] at live
  | env tMs actor causes p idle outer emitted =>
    have hd : { d with handler := d.handler } = d := rfl
    refine inv.emit d.handler (fun r hr => hr) emitted ?_ ?_
    · intro bb happ
      have notFence : ∀ op id utt, p ≠ .authorityFence op id utt := fun op id utt hp => by
        subst hp
        rcases outer with ⟨_, outer⟩ | ⟨reason, hold⟩
        · cases outer
        · cases hold
      rw [fences_of_apply happ notFence]
      exact inv.settled
    · intro lane hp
      subst hp
      rcases outer with ⟨_, outer⟩ | ⟨reason, hold⟩
      · exact outer
      · cases hold

theorem reach {session : Session} {runId : String}
    (h : Reach Desk.step anyStep (Desk.start session runId) d) : FenceInv d :=
  h.invariant (fenceInv_start session runId) fun _ inv _ hs => inv.step (Desk.stepped hs)

end FenceInv

/-! ## Every release finds its lines covered -/

/-- With no fence on the board and every event delivered, no fence is in the books. -/
theorem FenceInv.unfenced {d : Desk} (inv : FenceInv d) (idle : d.handler = [])
    (none_up : d.bus.bb.fences = []) (id : String) : d.auth.raised.get? id = none := by
  have := inv.settled id
  rw [idle, none_up] at this
  simpa [settle] using this

/-- Partner and user fences cover every release: at each release of an accept, every user message
before it is covered, and so is every rep line while the call is open. -/
theorem released_covered (session : Session) (runId : String) (d d' : Desk) (tMs : Nat)
    (actor : Actor) (causes : List Nat) (lane : Lane) (id : String) (cap : Capability)
    (reach : Reach Desk.step anyStep (Desk.start session runId) d) (slow : d.session.slow = true)
    (release : d.step (.env tMs actor causes (.speakReleased lane (some id))) = some d')
    (named : d.bus.bb.capabilities.get? id = some cap) (accept : cap.intent = .acceptOffer) :
    (∀ m ∈ d.bus.events, m.isUserMsg → Covered d.session d.bus.events .user m.seq) ∧
      (d.closed = false →
        ∀ e ∈ d.bus.events, e.isRepLine → Covered d.session d.bus.events .cp e.seq) := by
  have inv := FenceInv.reach reach
  simp only [Desk.step] at release
  split at release
  case isFalse => cases release
  rename_i hq
  simp only [Desk.held, Bool.or_false, Bool.and_eq_true] at hq
  obtain ⟨idle, none_left⟩ := Desk.quiet_iff.mp hq.1
  obtain ⟨bus, hb, _, rfl⟩ := Desk.emit_eq_some release
  have law := capabilityLaw_of_fold inv.sound.fold
  obtain ⟨cap', auth, offer, ok, -⟩ :=
    release_spec law (Bus.emitted_of_emit hb).applied ⟨lane, rfl⟩
  have same := ok.found
  rw [named] at same
  cases same
  have inFlight : acceptInFlight d.bus.bb = true := by
    refine List.any_eq_true.mpr ⟨cap, Dict.mem_values_of_get? named, ?_⟩
    simp [isLiveAccept, accept, ok.unused]
  obtain ⟨done, split, books⟩ := inv.books
  rw [none_left, List.append_nil] at split
  have none_raised := inv.unfenced idle ok.unfenced
  constructor
  · intro m hm hu
    rcases books.users slow m (split ▸ hm) hu with ⟨id', r, hr, _⟩ | covered
    · rw [none_raised id'] at hr
      cases hr
    · exact covered
  · intro isOpen e he hr
    have live : Authority.live d.session d.closed = true := by
      simp [Authority.live, slow, isOpen]
    rcases books.reps slow isOpen e (split ▸ he) hr with ⟨l, hl, _⟩ | covered
    · rcases inv.fenced live inFlight with ⟨u, hu, _⟩ | fenced
      · rw [none_left] at hu
        cases hu
      · obtain ⟨id', r, hr', _⟩ := fenced l hl
        rw [none_raised id'] at hr'
        cases hr'
    · exact covered

/-! ## Two runs of the desk

An offer is recorded and read back, the rep says a line, an accept is minted and released.  In the
first a Slow step reads the line before; in the second no turn ever sees it, and the end of the call
clears its fence. -/

def deskCap : Capability :=
  { capId := "cap-1", businessActionId := "bid", intent := .acceptOffer, termsHash := "h"
    epoch := 0, expiresMs := 60000 }

def deskPrice : ReadbackSlot :=
  { field := "monthly_price", value := "6000", unit := .usdMinor, role := .recurring
    ok := Eq.refl true }

def deskRelease : DeskAct := .env 0 .kernel [0] (.speakReleased .cp (some "cap-1"))

def sent (actor : Actor) (p : Payload) : List DeskAct := [.env 0 actor [0] p, .deliver]

/-- Up to the rep's line, which is the fourth event. -/
def deskLine : List DeskAct :=
  [.env 0 .kernel [] (.sessionStarted ⟨"0", "dev", "1"⟩), .deliver] ++
  sent .guard (.offerRecorded "A" 1 [deskPrice] none) ++
  sent .guard (.readbackUpdated ⟨"A", 1, Dict.empty.set "monthly_price" .confirmed, some "h"⟩) ++
  sent .kernel (.uttFinal .cp .partner "u1" "Sixty a month.")

def deskMint : List DeskAct := sent .guard (.actionAuthorized ⟨.acceptOffer, deskCap⟩)

def Desk.after (session : Session) (acts : List DeskAct) : Desk :=
  (Lib.run Desk.step (Desk.start session "run") acts).getD (Desk.start session "run")

theorem Desk.reach_after (session : Session) (acts : List DeskAct) :
    Reach Desk.step anyStep (Desk.start session "run") (Desk.after session acts) :=
  Reach.start.run_getD acts

def readDesk : Desk :=
  Desk.after ⟨.transcript, true⟩ (deskLine ++ sent .slow (.slowStepCompleted 3) ++ deskMint)

/-- The call ends before any turn sees the line: its fence is raised at the mint and cleared by the
end of the call. -/
def endedDesk : Desk :=
  Desk.after ⟨.relayOnly, true⟩ (deskLine ++ deskMint ++ [.react 0, .deliver, .close] ++
    sent .kernel (.chanClosed .cp) ++ [.react 0, .deliver])

def Desk.releasable (d : Desk) : Bool :=
  d.session.slow && (d.step deskRelease).isSome &&
    (d.bus.bb.capabilities.get? "cap-1").map Capability.intent = some .acceptOffer

theorem readDesk_facts : readDesk.releasable = true ∧ readDesk.closed = false := by
  decide +kernel

theorem released_covered_read :
    readDesk.closed = false ∧
      ∀ e ∈ readDesk.bus.events, e.isRepLine →
        Covered readDesk.session readDesk.bus.events .cp e.seq := by
  obtain ⟨releasable, isOpen⟩ := readDesk_facts
  simp only [Desk.releasable, Bool.and_eq_true, decide_eq_true_eq] at releasable
  obtain ⟨⟨slow, release⟩, accept⟩ := releasable
  obtain ⟨d', release⟩ := Option.isSome_iff_exists.mp release
  obtain ⟨cap, named, accept⟩ := Option.map_eq_some_iff.mp accept
  exact ⟨isOpen, (released_covered ⟨.transcript, true⟩ "run" readDesk d' 0 .kernel [0] .cp "cap-1"
    cap (Desk.reach_after _ _) slow release named accept).2 isOpen⟩

def Payload.isRepLine : Payload → Bool
  | .uttFinal .cp .partner _ _ => true
  | _ => false

def Payload.isStep : Payload → Bool
  | .slowStepCompleted _ => true
  | _ => false

theorem endedDesk_facts : endedDesk.releasable = true ∧
    (endedDesk.bus.events.any fun e => e.payload.isRepLine) = true ∧
      (endedDesk.bus.events.all fun e => !e.payload.isStep) = true := by decide +kernel

theorem uncovered_of_no_step {s : Session} {log : List Event} {lane : Lane} {seq : Nat}
    (none_ : (log.all fun e => !e.payload.isStep) = true) : ¬ Covered s log lane seq := by
  rintro ⟨x, -, step, hs, basis, hp, -⟩
  have := List.all_eq_true.mp none_ step hs
  rw [hp] at this
  cases this

/-- After the end of the call an accept is released over a rep line that nothing covered. -/
theorem released_uncovered :
    Reach Desk.step anyStep (Desk.start ⟨.relayOnly, true⟩ "run") endedDesk ∧
      endedDesk.session.slow = true ∧ (∃ d', endedDesk.step deskRelease = some d') ∧
      (∃ cap, endedDesk.bus.bb.capabilities.get? "cap-1" = some cap ∧
        cap.intent = .acceptOffer) ∧
      ∃ e ∈ endedDesk.bus.events, e.isRepLine ∧
        ¬ Covered endedDesk.session endedDesk.bus.events .cp e.seq := by
  obtain ⟨releasable, line, unread⟩ := endedDesk_facts
  simp only [Desk.releasable, Bool.and_eq_true, decide_eq_true_eq] at releasable
  obtain ⟨⟨slow, release⟩, accept⟩ := releasable
  obtain ⟨e, he, line⟩ := List.any_eq_true.mp line
  refine ⟨Desk.reach_after _ _, slow, Option.isSome_iff_exists.mp release,
    Option.map_eq_some_iff.mp accept, e, he, ?_, uncovered_of_no_step unread⟩
  unfold Payload.isRepLine at line
  split at line
  · rename_i utt text hp; exact ⟨utt, text, hp⟩
  · cases line

end ProxyLoop

import Mathlib.Data.List.ReduceOption
import ProxyLoop.Slow.Fates

/-!
# Turns, sentences and deliveries

What the kernel's rules say of the places of a log: each turn, sentence and line is at one place,
and a generation's deliveries come in order, all after its sentences.  A voicing is heard just if
its turn spoke and was delivered whole.
-/

namespace ProxyLoop.Fates

open Lib (Dict At Quiet at_take at_snoc)
open Needs (ItemKind spoke)

/-! ## One place each -/

section places

variable {log log' : List Event} {e : Event} {n s d c i j : Nat} {lane lane' : Lane}
  {gen gen' utt : String}

theorem Extends.prefix_ (more : Extends log log') : log <+: log' := by
  induction more with
  | refl => exact List.prefix_rfl
  | write _ _ ih => exact ih.trans (List.prefix_append _ _)

/-- One event is a block, if it voices nothing. -/
theorem Extends.one (more : Extends log log')
    (rule : Rule log' e) (calm : ∀ msgId turn, e.cue ≠ .voiced msgId turn) :
    Extends log (log' ++ [e]) := by
  refine more.write ⟨fun n e' get => ?_, fun e' mem msgId turn cue => ?_⟩
  · obtain ⟨rfl, rfl⟩ : n = 0 ∧ e = e' := by
      cases n with
      | zero => exact ⟨rfl, Option.some.inj get⟩
      | succ n => cases get
    simpa using rule
  · cases List.mem_singleton.mp mem
    exact absurd cue (calm msgId turn)

theorem Written.extend (w : Written log) (more : Extends log log') : Written log' := by
  induction more with
  | refl => exact w
  | write _ block ih => exact .write ih block

theorem Written.ruled (w : Written log) : Lib.Ruled Rule log := by
  induction w with
  | refl => exact fun n e get => by cases get
  | write _ block ih => exact ih.append block.ruled

theorem Written.seq_at (w : Written log) (get : log[n]? = some e) : e.seq = n := by
  have rule := (w.ruled n e get).1
  rw [List.length_take] at rule
  have := (List.getElem?_eq_some_iff.mp get).1
  omega

theorem Written.allowed (w : Written log) (get : log[n]? = some e) : Allowed (log.take n) e :=
  (w.ruled n e get).2

theorem Written.one_turn (w : Written log) (hi : At log i fun e => ∃ lane, TurnOf lane gen e)
    (hj : At log j fun e => ∃ lane, TurnOf lane gen e) : i = j := by
  refine w.ruled.unique ?_ hi hj
  rintro log e ⟨-, ok⟩ ⟨lane, items, cue⟩ n ⟨e', get, lane', h⟩
  rw [Allowed, cue] at ok
  exact ok.2.1 n lane' ⟨e', get, h⟩

theorem Written.one_request (w : Written log) (hi : At log i (Requests lane gen))
    (hj : At log j (Requests lane' gen)) : i = j ∧ lane = lane' := by
  have same : i = j := by
    refine w.ruled.unique (P := fun e => ∃ lane, Requests lane gen e) ?_ (hi.imp fun _ h => ⟨_, h⟩)
      (hj.imp fun _ h => ⟨_, h⟩)
    rintro log e ⟨-, ok⟩ ⟨lane, cue⟩ n ⟨e', get, lane', h⟩
    rw [Allowed, show e.cue = _ from cue] at ok
    exact ok lane' n ⟨e', get, h⟩
  subst same
  obtain ⟨e, -, h, h'⟩ := hi.both hj
  exact ⟨rfl, (Cue.request.inj (h.symm.trans h')).1⟩

theorem Written.one_sentence (w : Written log) (hi : At log i (Says gen utt))
    (hj : At log j (Says gen' utt)) : i = j ∧ gen = gen' := by
  have same : i = j := by
    refine w.ruled.unique (P := fun e => ∃ gen, Says gen utt e) ?_ (hi.imp fun _ h => ⟨_, h⟩)
      (hj.imp fun _ h => ⟨_, h⟩)
    rintro log e ⟨-, ok⟩ ⟨gen, text, cue⟩ n ⟨e', get, h⟩
    rw [Allowed, cue] at ok
    exact ok.2.2.2 n ⟨e', get, Or.inl h⟩
  subst same
  obtain ⟨e, -, ⟨text, h⟩, text', h'⟩ := hi.both hj
  exact ⟨rfl, (Cue.sentence.inj (h.symm.trans h')).1⟩

theorem Written.one_delivery (w : Written log) (hi : At log i (Delivers utt))
    (hj : At log j (Delivers utt)) : i = j := by
  refine w.ruled.unique ?_ hi hj
  rintro log e ⟨-, ok⟩ ⟨lane, textHeard, interrupted, cue⟩ n bad
  rw [Allowed, cue] at ok
  rcases ok with new | ⟨_, _, _, _, _, _, new, _⟩
  · exact new n (bad.imp fun _ h => Or.inr (Or.inl h))
  · exact new n bad

/-- A sentence's delivery: on the lane whose generation is its own, after the sentences before it
were heard whole. -/
theorem Written.delivery (w : Written log) (speaks : At log s (Says gen utt))
    (delivers : At log d (Delivers utt)) : s < d ∧ ∃ lane textHeard interrupted,
      At log d (·.cue = .delivered lane utt textHeard interrupted) ∧
      Current (log.take d) lane gen ∧ (∀ n, ¬ At (log.take d) n (Cancels gen)) ∧
      (∀ s' utt', s' < s → At log s' (Says gen utt') →
        ∃ d', At (log.take d) d' (HearsWhole utt')) ∧
      (interrupted = false → textHeard ≠ "") := by
  obtain ⟨e, get, lane, textHeard, interrupted, cue⟩ := id delivers
  obtain ⟨e', get', text', cue'⟩ := id speaks
  have ok := w.allowed get
  rw [Allowed, cue] at ok
  rcases ok with new | ⟨gen₂, s₂, text, speaks₂, current, uncut, -, order, whole⟩
  · exfalso
    rcases Nat.lt_trichotomy s d with before | same | after
    · exact new s (at_take.mpr ⟨before, speaks.imp fun _ h => Or.inl ⟨gen, h⟩⟩)
    · subst same
      rw [Option.some.inj (get.symm.trans get'), cue'] at cue
      cases cue
    · have ok' := w.allowed get'
      rw [Allowed, cue'] at ok'
      exact ok'.2.2.2 d (at_take.mpr ⟨after, delivers.imp fun _ h => Or.inr (Or.inl h)⟩)
  · obtain ⟨lt, speaks₂⟩ := at_take.mp speaks₂
    obtain ⟨rfl, rfl⟩ := w.one_sentence speaks (speaks₂.imp fun _ h => ⟨text, h⟩)
    have some_ : text ≠ "" := by
      have ok' := w.allowed get'
      obtain ⟨e₂, get₂, cue₂⟩ := speaks₂
      rw [Option.some.inj (get'.symm.trans get₂)] at ok' cue'
      rw [Allowed, cue₂] at ok'
      exact ok'.2.2.1
    refine ⟨lt, lane, textHeard, interrupted, ⟨e, get, cue⟩, current, uncut,
      fun s' utt' lt' speaks' => ?_, fun heard => whole heard ▸ some_⟩
    exact order s' utt' lt' (at_take.mpr ⟨by omega, speaks'⟩)

/-- The event is a line of a transcript, or would be. -/
def Lines (utt : String) (e : Event) : Prop := Delivers utt e ∨ ∃ lane, e.cue = .final lane utt

theorem Written.final_sentence (w : Written log) (final : At log i fun e => e.cue = .final lane utt)
    (speaks : At log s (Says gen utt)) : False := by
  obtain ⟨e, get, cue⟩ := id final
  obtain ⟨e', get', text, cue'⟩ := id speaks
  have ok := w.allowed get
  have ok' := w.allowed get'
  rw [Allowed, cue] at ok
  rw [Allowed, cue'] at ok'
  rcases Nat.lt_trichotomy i s with before | same | after
  · exact ok'.2.2.2 i (at_take.mpr ⟨before, final.imp fun _ h => Or.inr (Or.inr ⟨lane, h⟩)⟩)
  · subst same
    rw [Option.some.inj (get.symm.trans get'), cue'] at cue
    cases cue
  · exact ok s (at_take.mpr ⟨after, speaks.imp fun _ h => Or.inl ⟨gen, h⟩⟩)

theorem Written.final_fresh (w : Written log) (final : At log i fun e => e.cue = .final lane utt)
    (names : At log j (Names utt)) (ne : i ≠ j) : False := by
  obtain ⟨e, get, cue⟩ := id final
  have ok := w.allowed get
  rw [Allowed, cue] at ok
  have later : ¬ j < i := fun before => ok j (at_take.mpr ⟨before, names⟩)
  have before : i < j := by omega
  have old : At (log.take j) i (Names utt) :=
    at_take.mpr ⟨before, final.imp fun _ h => Or.inr (Or.inr ⟨lane, h⟩)⟩
  obtain ⟨e', get', names⟩ := names
  have ok' := w.allowed get'
  rcases names with ⟨gen, text, cue'⟩ | ⟨lane', textHeard, interrupted, cue'⟩ | ⟨lane', cue'⟩ <;>
    rw [Allowed, cue'] at ok'
  · exact ok'.2.2.2 i old
  · rcases ok' with new | ⟨gen, s, text, speaks, -⟩
    · exact new i old
    · obtain ⟨lt, speaks⟩ := at_take.mp speaks
      exact w.final_sentence final (speaks.imp fun _ h => ⟨text, h⟩)
  · exact ok' i old

theorem Written.one_line (w : Written log) (hi : At log i (Lines utt)) (hj : At log j (Lines utt)) :
    i = j := by
  by_contra ne
  obtain ⟨e, get, delivers | ⟨lane, final⟩⟩ := hi
  · obtain ⟨e', get', delivers' | ⟨lane, final⟩⟩ := hj
    · exact ne (w.one_delivery ⟨e, get, delivers⟩ ⟨e', get', delivers'⟩)
    · exact w.final_fresh ⟨e', get', final⟩ ⟨e, get, Or.inr (Or.inl delivers)⟩ (Ne.symm ne)
  · obtain ⟨e', get', names⟩ := hj
    exact w.final_fresh ⟨e, get, final⟩ ⟨e', get', Or.inr names⟩ ne

/-- A generation of which something was delivered is not cancelled. -/
theorem Written.uncut (w : Written log) (speaks : At log s (Says gen utt))
    (delivers : At log d (Delivers utt)) : ¬ At log c (Cancels gen) := by
  rintro ⟨e, get, cancels⟩
  obtain ⟨lt, lane, textHeard, interrupted, _, _, uncut, _⟩ := w.delivery speaks delivers
  have cancels : e.cue = .cancelled gen := cancels
  have later : ¬ c < d := fun before => uncut c (at_take.mpr ⟨before, e, get, cancels⟩)
  have ok := w.allowed get
  rw [Allowed, cancels] at ok
  have earlier : ¬ d < c := fun after =>
    ok.2 s utt d (at_take.mpr ⟨by omega, speaks⟩) (at_take.mpr ⟨after, delivers⟩)
  obtain rfl : c = d := by omega
  obtain ⟨e', get', lane, textHeard, interrupted, cue⟩ := delivers
  rw [← Option.some.inj (get.symm.trans get'), cancels] at cue
  cases cue

theorem Written.sentences_before (w : Written log) (speaks : At log s (Says gen utt))
    (delivers : At log d (Delivers utt)) {s' : Nat} {utt' : String}
    (speaks' : At log s' (Says gen utt')) : s' < d := by
  obtain ⟨e, get, text, cue⟩ := id speaks'
  obtain ⟨lt, -⟩ := w.delivery speaks delivers
  have ok := w.allowed get
  rw [Allowed, cue] at ok
  have earlier : ¬ d < s' := fun after =>
    ok.2.1 s utt d (at_take.mpr ⟨by omega, speaks⟩) (at_take.mpr ⟨after, delivers⟩)
  have other : s' ≠ d := by
    rintro rfl
    obtain ⟨e', get', lane, textHeard, interrupted, cue'⟩ := delivers
    rw [← Option.some.inj (get.symm.trans get'), cue] at cue'
    cases cue'
  omega

end places

/-! ## Lookups -/

theorem findSome?_of_unique {α β : Type} {f : α → Option β} {l : List α} {a : α} {b : β}
    (mem : a ∈ l) (get : f a = some b) (unique : ∀ a' ∈ l, ∀ b', f a' = some b' → b' = b) :
    l.findSome? f = some b := by
  cases found : l.findSome? f with
  | none => cases (List.findSome?_eq_none_iff.mp found a mem).symm.trans get
  | some b' =>
    obtain ⟨a', mem', get'⟩ := List.exists_of_findSome?_eq_some found
    rw [unique a' mem' b' get']

section read

variable {log : List Event} {e : Event} {n s d t : Nat} {lane : Lane} {gen utt : String}
  {items : List ItemKind}

def IsTurn (gen : String) (items : List ItemKind) (e : Event) : Prop :=
  ∃ lane, e.cue = .turn lane gen items

theorem turnOf_eq_some (w : Written log) :
    turnOf log t = some (gen, items) ↔ At log t (IsTurn gen items) := by
  constructor
  · intro h
    obtain ⟨e, mem, get⟩ := List.exists_of_findSome?_eq_some h
    obtain ⟨n, here_⟩ := List.mem_iff_getElem?.mp mem
    split at get
    · rename_i lane g is cue
      obtain ⟨id, pair⟩ := Option.ite_none_right_eq_some.mp get
      rw [w.seq_at here_] at id
      cases pair
      exact ⟨e, id ▸ here_, lane, cue⟩
    · cases get
  · rintro ⟨e, get, lane, cue⟩
    refine findSome?_of_unique (List.mem_of_getElem? get) (b := (gen, items)) ?_ ?_
    · rw [cue]
      exact if_pos (w.seq_at get)
    · intro e' mem' b' get'
      obtain ⟨n, here_⟩ := List.mem_iff_getElem?.mp mem'
      split at get'
      · rename_i lane' g is cue'
        obtain ⟨id, pair⟩ := Option.ite_none_right_eq_some.mp get'
        rw [w.seq_at here_] at id
        subst id
        rw [← Option.some.inj (get.symm.trans here_), cue] at cue'
        cases cue'
        exact (Option.some.inj pair).symm
      · cases get'

theorem cut_iff : cut log gen = true ↔ ∃ c, At log c (Cancels gen) := by
  rw [cut, List.any_eq_true, Lib.exists_at]
  simp only [decide_eq_true_eq]
  rfl

theorem ended_iff : ended log gen = true ↔
    (∃ c, At log c (Cancels gen)) ∨ ∃ t lane, At log t (TurnOf lane gen) := by
  have turns : (∃ t lane, At log t (TurnOf lane gen)) ↔ ∃ e ∈ log, ∃ lane, TurnOf lane gen e := by
    rw [← Lib.exists_at]
    constructor
    · rintro ⟨t, lane, h⟩
      exact ⟨t, h.imp fun _ h => ⟨lane, h⟩⟩
    · rintro ⟨t, e, get, lane, h⟩
      exact ⟨t, lane, e, get, h⟩
  rw [ended, Bool.or_eq_true, cut_iff, turns, List.any_eq_true]
  refine or_congr_right (exists_congr fun e => and_congr_right fun _ => ?_)
  constructor
  · intro h
    split at h
    · rename_i lane g is cue
      rw [decide_eq_true_eq] at h
      exact ⟨lane, is, h ▸ cue⟩
    · cases h
  · rintro ⟨lane, is, cue⟩
    rw [cue]
    exact decide_eq_true rfl

theorem mem_sentences : utt ∈ sentences log gen ↔ ∃ s, At log s (Says gen utt) := by
  rw [Lib.exists_at, sentences, List.mem_filterMap]
  refine exists_congr fun e => and_congr_right fun _ => ?_
  constructor
  · intro h
    split at h
    · rename_i g u text cue
      obtain ⟨rfl, eq⟩ := Option.ite_none_right_eq_some.mp h
      cases eq
      exact ⟨text, cue⟩
    · cases h
  · rintro ⟨text, cue⟩
    rw [cue]
    exact if_pos rfl

/-- The event is the cp delivery of the utterance. -/
def PlaysOut (utt : String) (interrupted : Bool) (e : Event) : Prop :=
  ∃ textHeard, e.cue = .delivered .cp utt textHeard interrupted

theorem PlaysOut.delivers {interrupted : Bool} (h : PlaysOut utt interrupted e) :
    Delivers utt e := by
  obtain ⟨textHeard, cue⟩ := h
  exact ⟨_, _, _, cue⟩

theorem delivered_eq_some (w : Written log) {interrupted : Bool} :
    delivered log utt = some (d, interrupted) ↔ At log d (PlaysOut utt interrupted) := by
  constructor
  · intro h
    obtain ⟨e, mem, get⟩ := List.exists_of_findSome?_eq_some h
    obtain ⟨n, here_⟩ := List.mem_iff_getElem?.mp (List.mem_reverse.mp mem)
    split at get
    · rename_i u textHeard i cue
      obtain ⟨rfl, pair⟩ := Option.ite_none_right_eq_some.mp get
      rw [w.seq_at here_] at pair
      cases pair
      exact ⟨e, here_, textHeard, cue⟩
    · cases get
  · rintro ⟨e, get, textHeard, cue⟩
    refine findSome?_of_unique (List.mem_reverse.mpr (List.mem_of_getElem? get))
      (b := (d, interrupted)) ?_ ?_
    · rw [cue]
      exact (if_pos rfl).trans (by rw [w.seq_at get])
    · intro e' mem' b' get'
      obtain ⟨n, here_⟩ := List.mem_iff_getElem?.mp (List.mem_reverse.mp mem')
      split at get'
      · rename_i u textHeard' i cue'
        obtain ⟨rfl, pair⟩ := Option.ite_none_right_eq_some.mp get'
        obtain rfl := w.one_delivery ⟨e, get, _, _, _, cue⟩ ⟨e', here_, _, _, _, cue'⟩
        rw [← Option.some.inj pair, w.seq_at here_]
        rw [← Option.some.inj (get.symm.trans here_), cue] at cue'
        cases cue'
        rfl
      · cases get'

theorem Event.line?_eq_some (h : e.line? = some utt) :
    e.cue = .final .cp utt ∨ ∃ textHeard i, e.cue = .delivered .cp utt textHeard i := by
  unfold Event.line? at h
  split at h
  · rename_i u cue
    exact Or.inl (Option.some.inj h ▸ cue)
  · rename_i u textHeard i cue
    split at h
    · cases h
    · exact Or.inr ⟨textHeard, i, Option.some.inj h ▸ cue⟩
  · cases h

theorem Event.lines_of_line? (h : e.line? = some utt) : Lines utt e := by
  rcases e.line?_eq_some h with cue | ⟨textHeard, i, cue⟩
  · exact Or.inr ⟨_, cue⟩
  · exact Or.inl ⟨_, _, _, cue⟩

theorem said_eq (w : Written log) (get : log[n]? = some e) (line : e.line? = some utt) :
    said log utt = some n := by
  refine findSome?_of_unique (List.mem_reverse.mpr (List.mem_of_getElem? get)) ?_ ?_
  · rcases e.line?_eq_some line with cue | ⟨textHeard, i, cue⟩ <;> rw [cue] <;>
      exact (if_pos rfl).trans (by rw [w.seq_at get])
  · intro e' mem' b' get'
    obtain ⟨m, here_⟩ := List.mem_iff_getElem?.mp (List.mem_reverse.mp mem')
    have lines : Lines utt e' ∧ e'.seq = b' := by
      split at get'
      · rename_i u cue
        obtain ⟨rfl, eq⟩ := Option.ite_none_right_eq_some.mp get'
        exact ⟨Or.inr ⟨_, cue⟩, Option.some.inj eq⟩
      · rename_i u textHeard i cue
        obtain ⟨rfl, eq⟩ := Option.ite_none_right_eq_some.mp get'
        exact ⟨Or.inl ⟨_, _, _, cue⟩, Option.some.inj eq⟩
      · cases get'
    rw [← lines.2, w.seq_at here_]
    exact w.one_line ⟨e', here_, lines.1⟩ ⟨e, get, e.lines_of_line? line⟩

def lineSeqs (events : List Event) : List Nat :=
  events.filterMap fun e => e.line?.map fun _ => e.seq

theorem mapM_said (w : Written log) : (cpLines log).mapM (said log) = some (lineSeqs log) := by
  have part : ∀ es : List Event, (∀ e ∈ es, e ∈ log) →
      (cpLines es).mapM (said log) = some (lineSeqs es) := by
    intro es within
    induction es with
    | nil => rfl
    | cons e es ih =>
      obtain ⟨mem, rest⟩ := List.forall_mem_cons.mp within
      have ih := ih rest
      unfold cpLines lineSeqs at ih ⊢
      rw [List.filterMap_cons, List.filterMap_cons]
      rcases Option.eq_none_or_eq_some e.line? with none_ | ⟨utt, line⟩
      · rw [none_]
        exact ih
      · obtain ⟨n, get⟩ := List.mem_iff_getElem?.mp mem
        rw [line, Option.map_some]
        dsimp only
        rw [List.mapM_cons, said_eq w get line, ih, w.seq_at get]
        rfl
  exact part log fun e mem => mem

end read

/-! ## A voicing's fate -/

/-- The generation spoke, and each of its sentences was delivered whole to the rep. -/
def Whole (log : List Event) (gen : String) : Prop :=
  (∃ s utt, At log s (Says gen utt)) ∧
    ∀ s utt, At log s (Says gen utt) → ∃ d, At log d (PlaysOut utt false)

/-- Its last sentence, at `s`. -/
def LastSentence (log : List Event) (gen utt : String) (s : Nat) : Prop :=
  At log s (Says gen utt) ∧ Quiet log s log.length fun e => ∃ u, Says gen u e

/-- The turn at `t` spoke and was delivered whole. -/
def Delivered (log : List Event) (t : Nat) (gen : String) : Prop :=
  (∃ items, At log t (IsTurn gen items) ∧ spoke items = true) ∧ Whole log gen

section fate

variable {log : List Event} {seqs : List Nat} {t s d : Nat} {gen utt : String}

theorem Whole.uncut (w : Written log) (whole : Whole log gen) : cut log gen = false := by
  obtain ⟨⟨s, utt, speaks⟩, all⟩ := whole
  obtain ⟨d, plays⟩ := all s utt speaks
  refine Bool.eq_false_iff.mpr fun bad => ?_
  obtain ⟨c, cancels⟩ := cut_iff.mp bad
  exact w.uncut speaks (plays.imp fun _ h => h.delivers) cancels

theorem Whole.last (w : Written log) (whole : Whole log gen) :
    ∃ s utt d, LastSentence log gen utt s ∧ At log d (PlaysOut utt false) ∧
      ∀ s' utt' d', At log s' (Says gen utt') → At log d' (PlaysOut utt' false) → d' ≤ d := by
  obtain ⟨⟨s₀, utt₀, speaks₀⟩, all⟩ := whole
  have some_ : At log s₀ fun e => ∃ u, Says gen u e := speaks₀.imp fun _ h => ⟨_, h⟩
  obtain ⟨s, ⟨e, get, utt, speaks⟩, quiet⟩ := some_.last
  have speaks : At log s (Says gen utt) := ⟨e, get, speaks⟩
  obtain ⟨d, plays⟩ := all s utt speaks
  refine ⟨s, utt, d, ⟨speaks, quiet⟩, plays, fun s' utt' d' speaks' plays' => ?_⟩
  have before : ¬ s < s' := fun lt => quiet s' lt speaks'.lt (speaks'.imp fun _ h => ⟨_, h⟩)
  obtain ⟨-, _, _, _, _, _, _, order, _⟩ := w.delivery speaks (plays.imp fun _ h => h.delivers)
  by_cases same : s' = s
  · subst same
    obtain ⟨e', get', ⟨text, cue⟩, text', cue'⟩ := speaks.both speaks'
    obtain rfl := (Cue.sentence.inj (cue.symm.trans cue')).2.1
    exact Nat.le_of_eq (w.one_delivery (plays'.imp fun _ h => h.delivers)
      (plays.imp fun _ h => h.delivers))
  · obtain ⟨d₂, whole⟩ := order s' utt' (by omega) speaks'
    obtain ⟨lt, whole⟩ := at_take.mp whole
    have same := w.one_delivery (plays'.imp fun _ h => h.delivers)
      (whole.imp fun _ ⟨lane, text, cue⟩ => ⟨lane, text, false, cue⟩)
    omega

theorem foldr_max_eq {l : List Nat} {d : Nat} (mem : d ∈ l) (all : ∀ n ∈ l, n ≤ d) :
    l.foldr max 0 = d := by
  have bound : ∀ l : List Nat, (∀ n ∈ l, n ≤ d) → l.foldr max 0 ≤ d := by
    intro l all
    induction l with
    | nil => exact Nat.zero_le d
    | cons n l ih =>
      obtain ⟨head, tail⟩ := List.forall_mem_cons.mp all
      exact Nat.max_le.mpr ⟨head, ih tail⟩
  have reach : ∀ l : List Nat, d ∈ l → d ≤ l.foldr max 0 := by
    intro l mem
    induction l with
    | nil => cases mem
    | cons n l ih =>
      rcases List.mem_cons.mp mem with rfl | mem
      · exact Nat.le_max_left _ _
      · exact Nat.le_trans (ih mem) (Nat.le_max_right _ _)
  exact Nat.le_antisymm (bound l all) (reach l mem)

/-- A turn that was delivered whole is heard, from the line after its last sentence's delivery. -/
theorem fate_of_delivered (seqs : List Nat) (w : Written log) (delivered_ : Delivered log t gen) :
    ∃ s utt d, LastSentence log gen utt s ∧ At log d (PlaysOut utt false) ∧
      fate log seqs t = ⟨.heard, some (seqs.countP (· ≤ d)), false⟩ := by
  obtain ⟨⟨items, turn, spoke_⟩, whole⟩ := delivered_
  obtain ⟨s, utt, d, last, plays, latest⟩ := whole.last w
  refine ⟨s, utt, d, last, plays, ?_⟩
  have each : (sentences log gen).map (delivered log) =
      (sentences log gen).map fun u => some (((delivered log u).map Prod.fst).getD 0, false) := by
    refine List.map_congr_left fun u mem => ?_
    obtain ⟨s', speaks'⟩ := mem_sentences.mp mem
    obtain ⟨d', plays'⟩ := whole.2 s' u speaks'
    rw [(delivered_eq_some w).mpr plays']
    rfl
  have some_ : sentences log gen ≠ [] := List.ne_nil_of_mem (mem_sentences.mpr ⟨s, last.1⟩)
  have done : ((sentences log gen).map (delivered log)).reduceOption =
      (sentences log gen).map fun u => (((delivered log u).map Prod.fst).getD 0, false) := by
    rw [each]
    simp [List.reduceOption]
  have top : (((sentences log gen).map fun u =>
      (((delivered log u).map Prod.fst).getD 0, false)).map Prod.fst).foldr max 0 = d := by
    rw [List.map_map]
    refine foldr_max_eq (List.mem_map.mpr ⟨utt, mem_sentences.mpr ⟨s, last.1⟩, ?_⟩) ?_
    · simp [(delivered_eq_some w).mpr plays]
    · intro n mem
      obtain ⟨u, among, rfl⟩ := List.mem_map.mp mem
      obtain ⟨s', speaks'⟩ := mem_sentences.mp among
      obtain ⟨d', plays'⟩ := whole.2 s' u speaks'
      simp only [Function.comp_apply, (delivered_eq_some w).mpr plays', Option.map_some,
        Option.getD_some]
      exact latest s' u d' speaks' plays'
  unfold fate
  rw [(turnOf_eq_some w).mpr turn]
  dsimp only
  rw [spoke_, whole.uncut w, done, top]
  simp [some_]

/-- Only such a turn is heard. -/
theorem delivered_of_fate (seqs : List Nat) (w : Written log) (heard : (fate log seqs t).state = .heard) :
    ∃ gen, Delivered log t gen := by
  unfold fate at heard
  cases turn : turnOf log t with
  | none =>
    rw [turn] at heard
    cases heard
  | some pair =>
    obtain ⟨gen, items⟩ := pair
    rw [turn] at heard
    dsimp only at heard
    split at heard
    · rename_i open_
      rw [Bool.and_eq_true] at open_
      split at heard
      · cases heard
      · rename_i uncut
        split at heard
        · rename_i all
          rw [Bool.and_eq_true, decide_eq_true_eq, decide_eq_true_eq,
            List.reduceOption_length_eq_iff] at all
          refine ⟨gen, ⟨items, (turnOf_eq_some w).mp turn, open_.1⟩, ?_, fun s utt speaks => ?_⟩
          · obtain ⟨utt, mem⟩ := List.exists_mem_of_ne_nil (sentences log gen)
              fun bad => all.1 (by rw [bad]; rfl)
            obtain ⟨s, speaks⟩ := mem_sentences.mp mem
            exact ⟨s, utt, speaks⟩
          · have mem : delivered log utt ∈ (sentences log gen).map (delivered log) :=
              List.mem_map.mpr ⟨utt, mem_sentences.mpr ⟨s, speaks⟩, rfl⟩
            obtain ⟨⟨d, i⟩, found⟩ := Option.isSome_iff_exists.mp (all.2 _ mem)
            have whole : i = false := by
              refine Bool.eq_false_iff.mpr fun bad => uncut ?_
              refine List.any_eq_true.mpr ⟨(d, i), ?_, bad⟩
              exact List.reduceOption_mem_iff.mpr (found ▸ mem)
            exact ⟨d, (delivered_eq_some w).mp (whole ▸ found)⟩
        · cases heard
    · cases heard

theorem fate_line {n : Nat} (h : (fate log seqs t).line = some n) :
    (fate log seqs t).state = .heard := by
  unfold fate at h ⊢
  split at h
  · split at h
    · rename_i open_
      rw [if_pos open_]
      dsimp only at h ⊢
      split at h
      · cases h
      · rename_i uncut
        rw [if_neg uncut]
        split at h
        · rename_i all
          rw [if_pos all]
        · cases h
    · cases h
  · cases h

/-- A voicing's fate is no supersession. -/
theorem fate_superseded : (fate log seqs t).superseded = false := by
  unfold fate
  split
  · split
    · dsimp only
      split
      · rfl
      · split <;> rfl
    · rfl
  · rfl

end fate

end ProxyLoop.Fates

import ProxyLoop.Slow.Voicings

/-!
# What the rep heard stays heard

A log that goes on keeps what a message's fate is: heard, at the same line, or superseded; so a
read-back window does not move.
-/

namespace ProxyLoop.Fates

open Lib (Dict At Quiet at_take at_snoc)
open Needs (ItemKind spoke)

/-! ## The dictionary of fates -/

/-- The voicings of a message: their places, and the turns they cite. -/
def voicings (events : List Event) (msgId : String) : List (Nat × Nat) :=
  events.filterMap fun e =>
    match e.cue with
    | .voiced m turn => if m = msgId then some (e.seq, turn) else none
    | _ => none

def Fate.isHeard (f : Fate) : Bool := f.state = .heard

section dict

variable {log : List Event} {seqs : List Nat} {msgId : String}

theorem get?_voicedFates : (voicedFates log seqs).get? msgId =
    ((voicings log msgId).map fun v => fate log seqs v.2).foldl (fun o f => some (better o f))
      none := by
  have part : ∀ (es : List Event) (out : Dict String Fate),
      (es.foldl (fun out e =>
        match e.cue with
        | .voiced m turn => out.set m (better (out.get? m) (fate log seqs turn))
        | _ => out) out).get? msgId =
      ((voicings es msgId).map fun v => fate log seqs v.2).foldl (fun o f => some (better o f))
        (out.get? msgId) := by
    intro es
    induction es with
    | nil => exact fun _ => rfl
    | cons e es ih =>
      intro out
      rw [List.foldl_cons, ih]
      by_cases voiced : ∃ m turn, e.cue = .voiced m turn
      · obtain ⟨m, turn, cue⟩ := voiced
        have cons : voicings (e :: es) msgId =
            if m = msgId then (e.seq, turn) :: voicings es msgId else voicings es msgId := by
          unfold voicings
          rw [List.filterMap_cons, cue]
          dsimp only
          split <;> rename_i eq <;> split at eq <;> simp_all
        rw [cons, cue]
        dsimp only
        by_cases same : m = msgId
        · rw [if_pos same, same, Dict.get?_set_self, List.map_cons, List.foldl_cons]
        · rw [if_neg same, Dict.get?_set_ne _ (Ne.symm same)]
      · have quiet : voicings (e :: es) msgId = voicings es msgId := by
          unfold voicings
          refine List.filterMap_cons_none ?_
          split
          · rename_i m turn cue
            exact absurd ⟨m, turn, cue⟩ voiced
          · rfl
        rw [quiet]
        congr 1
        split
        · rename_i m turn cue
          exact absurd ⟨m, turn, cue⟩ voiced
        · rfl
  exact part log .empty

theorem better_heard (o : Option Fate) (f : Fate) :
    (some (better o f)).filter Fate.isHeard =
      (o.filter Fate.isHeard).or ((some f).filter Fate.isHeard) := by
  cases o with
  | none => rfl
  | some g =>
    obtain ⟨state, line, superseded⟩ := g
    obtain ⟨state', line', superseded'⟩ := f
    cases state <;> cases state' <;> rfl

/-- The fate of a message is heard just if a voicing's is; the first such one tells it. -/
theorem best_heard (fs : List Fate) (o : Option Fate) :
    (fs.foldl (fun o f => some (better o f)) o).filter Fate.isHeard =
      (o.filter Fate.isHeard).or (fs.find? Fate.isHeard) := by
  induction fs generalizing o with
  | nil => simp
  | cons f fs ih =>
    rw [List.foldl_cons, ih, better_heard, Option.or_assoc, List.find?_cons]
    congr 1
    cases hf : f.isHeard <;> simp [Option.filter, hf]

/-- The fate of a message is a voicing's. -/
theorem best_mem {fs : List Fate} {o : Option Fate} {f : Fate}
    (best : fs.foldl (fun o f => some (better o f)) o = some f) : o = some f ∨ f ∈ fs := by
  induction fs generalizing o with
  | nil => exact Or.inl best
  | cons g fs ih =>
    rcases ih best with here_ | later
    · cases o with
      | none => exact Or.inr (Option.some.inj here_ ▸ List.mem_cons_self)
      | some old =>
        unfold better at here_
        dsimp only at here_
        split at here_
        · exact Or.inr (Option.some.inj here_ ▸ List.mem_cons_self)
        · exact Or.inl here_
    · exact Or.inr (List.mem_cons_of_mem _ later)

theorem best_eq_none {fs : List Fate} :
    fs.foldl (fun o f => some (better o f)) none = none ↔ fs = [] := by
  have some_ : ∀ (fs : List Fate) (f : Fate),
      fs.foldl (fun o f => some (better o f)) (some f) ≠ none := by
    intro fs
    induction fs with
    | nil => nofun
    | cons g fs ih => exact fun f => ih _
  cases fs with
  | nil => simp
  | cons f fs => simpa using some_ fs _

end dict

def superseded (events : List Event) (pairs : List ((Nat × String) × Nat × String))
    (out : Dict String Fate) : Dict String Fate :=
  pairs.foldl
    (fun out (old, new) =>
      if (out.get? old.2).isNone && !rendered events old.1 new.1 then
        out.set old.2 ⟨.dead, none, true⟩
      else out)
    out

/-- The cp GUIDEs, each with the next one. -/
def guidePairs (events : List Event) : List ((Nat × String) × Nat × String) :=
  (events.filterMap Event.guide?).zip (events.filterMap Event.guide?).tail

section superseded

variable {log : List Event} {msgId : String} {f : Fate}
  {pairs : List ((Nat × String) × Nat × String)}

theorem get?_superseded_of_some (out : Dict String Fate) (h : out.get? msgId = some f) :
    (superseded log pairs out).get? msgId = some f := by
  induction pairs generalizing out with
  | nil => exact h
  | cons p pairs ih =>
    obtain ⟨old, new⟩ := p
    refine ih _ ?_
    dsimp only
    split
    · rename_i cond
      rw [Bool.and_eq_true] at cond
      refine (Dict.get?_set_ne _ ?_ _).trans h
      rintro rfl
      rw [h] at cond
      cases cond.1
    · exact h

theorem get?_superseded_of_none (out : Dict String Fate) (h : out.get? msgId = none) :
    (superseded log pairs out).get? msgId =
      if ∃ p ∈ pairs, p.1.2 = msgId ∧ rendered log p.1.1 p.2.1 = false then some ⟨.dead, none, true⟩
      else none := by
  induction pairs generalizing out with
  | nil => simpa [superseded] using h
  | cons p pairs ih =>
    obtain ⟨old, new⟩ := p
    rw [superseded, List.foldl_cons, ← superseded]
    dsimp only
    by_cases this : old.2 = msgId ∧ rendered log old.1 new.1 = false
    · rw [if_pos (by rw [this.1, h, this.2]; rfl),
        get?_superseded_of_some _ (by rw [this.1]; exact Dict.get?_set_self _ _ _),
        if_pos ⟨_, List.mem_cons_self, this⟩]
    · have kept : (if (out.get? old.2).isNone && !rendered log old.1 new.1 then
          out.set old.2 ⟨.dead, none, true⟩ else out).get? msgId = none := by
        split
        · rename_i cond
          rw [Bool.and_eq_true, Bool.not_eq_true'] at cond
          exact (Dict.get?_set_ne _ (fun same => this ⟨same.symm, cond.2⟩) _).trans h
        · exact h
      rw [ih _ kept]
      refine if_congr ⟨?_, ?_⟩ rfl rfl
      · rintro ⟨p, mem, h⟩
        exact ⟨p, List.mem_cons_of_mem _ mem, h⟩
      rintro ⟨p, mem, h⟩
      rcases List.mem_cons.mp mem with rfl | mem
      · exact absurd h this
      · exact ⟨p, mem, h⟩

theorem fates_eq (w : Written log) : fates log (cpLines log) =
    some (superseded log (guidePairs log) (voicedFates log (lineSeqs log))) := by
  rw [fates, mapM_said w]
  rfl

theorem fateOf_eq (w : Written log) : fateOf log msgId =
    (superseded log (guidePairs log) (voicedFates log (lineSeqs log))).get? msgId := by
  rw [fateOf, fates_eq w]
  rfl

/-- A message is heard just if the first voicing that is, says so. -/
theorem fateOf_heard (w : Written log) (heard : f.state = .heard) : fateOf log msgId = some f ↔
    ((voicings log msgId).map fun v => fate log (lineSeqs log) v.2).find? Fate.isHeard =
      some f := by
  have best := best_heard ((voicings log msgId).map fun v => fate log (lineSeqs log) v.2) none
  rw [← get?_voicedFates, Option.filter_none, Option.none_or] at best
  have isHeard : f.isHeard = true := decide_eq_true heard
  rw [fateOf_eq w, ← best]
  cases voiced : (voicedFates log (lineSeqs log)).get? msgId with
  | none =>
    rw [get?_superseded_of_none _ voiced]
    constructor
    · intro h
      split at h
      · cases h
        cases heard
      · cases h
    · nofun
  | some g =>
    rw [get?_superseded_of_some _ voiced]
    constructor
    · intro h
      cases h
      exact if_pos isHeard
    · intro h
      obtain ⟨-, h⟩ := Option.ite_none_right_eq_some.mp h
      exact h

/-- A message is superseded just if nothing voiced it, and it is a GUIDE that was no longer the
newest before a generation that may voice it. -/
theorem fateOf_superseded (w : Written log) : fateOf log msgId = some ⟨.dead, none, true⟩ ↔
    voicings log msgId = [] ∧
      ∃ p ∈ guidePairs log, p.1.2 = msgId ∧ rendered log p.1.1 p.2.1 = false := by
  rw [fateOf_eq w]
  cases voiced : (voicedFates log (lineSeqs log)).get? msgId with
  | none =>
    rw [get?_superseded_of_none _ voiced]
    rw [get?_voicedFates, best_eq_none, List.map_eq_nil_iff] at voiced
    rw [voiced]
    simp
  | some g =>
    rw [get?_superseded_of_some _ voiced]
    rw [get?_voicedFates] at voiced
    have no : g.superseded = false := by
      obtain ⟨v, -, rfl⟩ := List.mem_map.mp ((best_mem voiced).resolve_left nofun)
      exact fate_superseded
    constructor
    · intro h
      cases h
      cases no
    · rintro ⟨nothing, -⟩
      rw [nothing] at voiced
      cases voiced

end superseded

/-! ## What a longer log keeps -/

section kept

variable {log log' : List Event} {t n s d : Nat} {gen utt msgId : String} {items : List ItemKind}

theorem mem_voicings (w : Written log) {v t : Nat} :
    (v, t) ∈ voicings log msgId ↔ At log v (·.cue = .voiced msgId t) := by
  rw [voicings, List.mem_filterMap]
  constructor
  · rintro ⟨e, mem, h⟩
    obtain ⟨n, get⟩ := List.mem_iff_getElem?.mp mem
    split at h
    · rename_i m turn cue
      obtain ⟨rfl, eq⟩ := Option.ite_none_right_eq_some.mp h
      rw [w.seq_at get] at eq
      cases eq
      exact ⟨e, get, cue⟩
    · cases h
  · rintro ⟨e, get, cue⟩
    refine ⟨e, List.mem_of_getElem? get, ?_⟩
    rw [cue, w.seq_at get]
    exact if_pos rfl

theorem Written.sorted (w : Written log) : log.Pairwise fun e e' => e.seq < e'.seq := by
  refine List.pairwise_iff_getElem.mpr fun i j hi hj lt => ?_
  rw [w.seq_at (List.getElem?_eq_getElem hi), w.seq_at (List.getElem?_eq_getElem hj)]
  exact lt

theorem Written.voicing (w : Written log) {v : Nat} (voiced : At log v (·.cue = .voiced msgId t)) :
    ∃ lane gen r, At (log.take v) t (TurnOf lane gen) ∧ Current (log.take v) lane gen ∧
      At (log.take v) r (Requests lane gen) ∧ ∀ n, At (log.take v) n (Guides msgId) →
        lane = .cp ∧ n < r ∧ Quiet (log.take v) n r fun e => ∃ m, Guides m e := by
  obtain ⟨e, get, cue⟩ := voiced
  have ok := w.allowed get
  rw [Allowed, cue] at ok
  exact ok

/-- What was delivered whole stays so: no sentence of it comes after. -/
theorem Whole.mono (whole : Whole log gen) (w : Written log') (ext : log <+: log') :
    Whole log' gen ∧ ∀ s utt, At log' s (Says gen utt) → At log s (Says gen utt) := by
  obtain ⟨⟨s₀, utt₀, speaks₀⟩, all⟩ := whole
  obtain ⟨d, plays⟩ := all s₀ utt₀ speaks₀
  have back : ∀ s utt, At log' s (Says gen utt) → At log s (Says gen utt) := by
    intro s utt speaks
    have before := w.sentences_before (speaks₀.mono ext)
      ((plays.imp fun _ h => h.delivers).mono ext) speaks
    have := plays.lt
    exact (Lib.at_of_extends ext (by omega)).mp speaks
  refine ⟨⟨⟨s₀, utt₀, speaks₀.mono ext⟩, fun s utt speaks => ?_⟩, back⟩
  obtain ⟨d, plays⟩ := all s utt (back s utt speaks)
  exact ⟨d, plays.mono ext⟩

/-- The transcript's lines up to a place stay. -/
theorem countP_lineSeqs (w : Written log') (ext : log <+: log') (lt : d < log.length) :
    (lineSeqs log').countP (· ≤ d) = (lineSeqs log).countP (· ≤ d) := by
  obtain ⟨more, rfl⟩ := ext
  have later : (lineSeqs more).countP (· ≤ d) = 0 := by
    refine List.countP_eq_zero.mpr fun q mem => ?_
    obtain ⟨e, among, h⟩ := List.mem_filterMap.mp mem
    obtain ⟨-, -, rfl⟩ := Option.map_eq_some_iff.mp h
    obtain ⟨n, get⟩ := List.mem_iff_getElem?.mp among
    have seq := w.seq_at (n := log.length + n) (e := e) (by
      rw [List.getElem?_append_right (Nat.le_add_right _ _), Nat.add_sub_cancel_left]
      exact get)
    rw [decide_eq_true_eq, seq]
    omega
  rw [lineSeqs, List.filterMap_append, List.countP_append, ← lineSeqs, ← lineSeqs, later,
    Nat.add_zero]

/-- A turn that was delivered whole keeps its fate. -/
theorem fate_kept (w : Written log') (ext : log <+: log') (w₀ : Written log)
    (delivered_ : Delivered log t gen) :
    fate log' (lineSeqs log') t = fate log (lineSeqs log) t := by
  obtain ⟨s, utt, d, last, plays, eq⟩ := fate_of_delivered (lineSeqs log) w₀ delivered_
  obtain ⟨⟨items, turn, spoke_⟩, whole⟩ := delivered_
  obtain ⟨whole', back⟩ := whole.mono w ext
  obtain ⟨s', utt', d', last', plays', eq'⟩ := fate_of_delivered (lineSeqs log') w
    ⟨⟨items, turn.mono ext, spoke_⟩, whole'⟩
  have speaks := back s' utt' last'.1
  have same : s' = s := by
    have before : ¬ s < s' := fun lt =>
      last.2 s' lt speaks.lt (speaks.imp fun _ h => ⟨_, h⟩)
    have after : ¬ s' < s := fun lt => by
      have old := last.1.mono ext
      exact last'.2 s lt old.lt (old.imp fun _ h => ⟨_, h⟩)
    omega
  subst same
  obtain ⟨e, get, ⟨text, cue⟩, text', cue'⟩ := speaks.both last.1
  obtain rfl := (Cue.sentence.inj (cue.symm.trans cue')).2.1
  have same := w.one_delivery (plays'.imp fun _ h => h.delivers)
    ((plays.imp fun _ h => h.delivers).mono ext)
  rw [eq', eq, same, countP_lineSeqs w ext plays.lt]

/-- What was delivered to the rep is a cp generation's. -/
theorem Written.plays (w : Written log) (speaks : At log s (Says gen utt))
    {interrupted : Bool} (plays : At log d (PlaysOut utt interrupted)) :
    s < d ∧ Current (log.take d) .cp gen := by
  obtain ⟨lt, lane, textHeard, i, delivers, current, -⟩ :=
    w.delivery speaks (plays.imp fun _ h => h.delivers)
  obtain ⟨e, -, cue, textHeard', cue'⟩ := delivers.both plays
  obtain rfl := (Cue.delivered.inj (cue.symm.trans cue')).1
  exact ⟨lt, current⟩

/-- The generation that a voicing's turn is of, the newest of its lane then. -/
theorem Written.current (w : Written log) {v : Nat} (voiced : At log v (·.cue = .voiced msgId t))
    (turn : At log t (IsTurn gen items)) : t < v ∧ ∃ lane, Current (log.take v) lane gen := by
  obtain ⟨lane, g, r, turn', current, -⟩ := w.voicing voiced
  obtain ⟨lt, turn'⟩ := at_take.mp turn'
  obtain ⟨e, -, ⟨items', cue'⟩, lane', cue⟩ := turn'.both turn
  obtain rfl := (Cue.turn.inj (cue'.symm.trans cue)).2.1
  exact ⟨lt, lane, current⟩

/-- A turn voiced a message before one that the rep heard whole: if it is ever delivered whole, it
was by then. -/
theorem delivered_before (w : Written log') (ext : log <+: log') (w₀ : Written log)
    {v v' t' : Nat} {gen' : String} (delivered_ : Delivered log t gen)
    (voiced : At log v (·.cue = .voiced msgId t)) (voiced' : At log v' (·.cue = .voiced msgId t'))
    (before : v' < v) (delivered' : Delivered log' t' gen') : Delivered log t' gen' := by
  obtain ⟨⟨items, turn, spoke_⟩, whole⟩ := id delivered_
  obtain ⟨⟨items', turn', spoke'⟩, whole'⟩ := id delivered'
  obtain ⟨lt', lane', r', request', quiet'⟩ := w.current (voiced'.mono ext) turn'
  have within := voiced.lt
  obtain ⟨lt, lane, r, request, quiet⟩ := w₀.current voiced turn
  obtain ⟨ltr, request⟩ := at_take.mp request
  obtain ⟨ltr', request'⟩ := at_take.mp request'
  by_cases same : gen' = gen
  · subst same
    have one := w.one_turn (turn'.imp fun _ ⟨l, h⟩ => ⟨l, items', h⟩)
      ((turn.mono ext).imp fun _ ⟨l, h⟩ => ⟨l, items, h⟩)
    rw [one]
    exact delivered_
  · -- the rep heard the other generation, which the cp lane requested later
    have other : lane = .cp := by
      obtain ⟨⟨s, utt, speaks⟩, all⟩ := whole
      obtain ⟨d, plays⟩ := all s utt speaks
      obtain ⟨-, r₂, request₂, -⟩ := w₀.plays speaks plays
      exact (w₀.one_request request (at_take.mp request₂).2).2
    subst other
    have done : ∀ s utt d, At log' s (Says gen' utt) → At log' d (PlaysOut utt false) →
        s < d ∧ d < log.length := by
      intro s utt d speaks plays
      obtain ⟨lt, r₂, request₂, quiet₂⟩ := w.plays speaks plays
      refine ⟨lt, ?_⟩
      by_contra late
      obtain ⟨ltr₂, request₂⟩ := at_take.mp request₂
      obtain ⟨rfl, rfl⟩ := w.one_request request' request₂
      have apart : r' ≠ r := by
        rintro rfl
        obtain ⟨e, -, cue, cue'⟩ := request'.both (request.mono ext)
        exact same (Cue.request.inj (cue.symm.trans cue')).2
      have order : ¬ r < r' := fun bad => by
        have old : At log r' (Requests .cp gen') :=
          (Lib.at_of_extends ext (by omega)).mp request'
        refine quiet r' bad ?_ (at_take.mpr ⟨by omega, old.imp fun _ h => ⟨gen', h⟩⟩)
        rw [List.length_take]
        omega
      have dlt := plays.lt
      refine quiet₂ r (by omega) ?_ (at_take.mpr ⟨by omega,
        (request.mono ext).imp fun _ h => ⟨gen, h⟩⟩)
      rw [List.length_take]
      omega
    have back : ∀ {n} {P : Event → Prop}, At log' n P → n < log.length → At log n P :=
      fun h lt => (Lib.at_of_extends ext lt).mp h
    obtain ⟨⟨s, utt, speaks⟩, all⟩ := whole'
    obtain ⟨d, plays⟩ := all s utt speaks
    obtain ⟨lts, ltd⟩ := done s utt d speaks plays
    refine ⟨⟨items', back turn' (by omega), spoke'⟩, ⟨s, utt, back speaks (by omega)⟩,
      fun s utt speaks => ?_⟩
    obtain ⟨d, plays⟩ := all s utt (speaks.mono ext)
    exact ⟨d, back plays (done s utt d (speaks.mono ext) plays).2⟩

end kept

/-! ## Superseded GUIDEs -/

section guides

variable {log log' : List Event} {msgId : String}

theorem guide?_eq_some {e : Event} {p : Nat × String} : e.guide? = some p ↔
    e.seq = p.1 ∧ Guides p.2 e := by
  unfold Event.guide? Guides
  constructor
  · intro h
    split at h
    · rename_i m cue
      cases h
      exact ⟨rfl, cue⟩
    · cases h
  · rintro ⟨seq, cue⟩
    rw [cue]
    exact congrArg some (Prod.ext seq rfl)

theorem mem_guidePairs (w : Written log) {p : (Nat × String) × Nat × String}
    (mem : p ∈ guidePairs log) :
    At log p.1.1 (Guides p.1.2) ∧ At log p.2.1 (Guides p.2.2) ∧ p.1.1 < p.2.1 := by
  have places : ∀ q ∈ log.filterMap Event.guide?, At log q.1 (Guides q.2) := by
    intro q mem
    obtain ⟨e, mem, h⟩ := List.mem_filterMap.mp mem
    obtain ⟨n, get⟩ := List.mem_iff_getElem?.mp mem
    obtain ⟨seq, cue⟩ := guide?_eq_some.mp h
    rw [w.seq_at get] at seq
    exact ⟨e, seq ▸ get, cue⟩
  have sorted : (log.filterMap Event.guide?).Pairwise fun p q => p.1 < q.1 := by
    refine w.sorted.filterMap _ fun e e' lt p hp q hq => ?_
    rw [← (guide?_eq_some.mp hp).1, ← (guide?_eq_some.mp hq).1]
    exact lt
  have next : ∀ l : List (Nat × String), l.Pairwise (fun p q => p.1 < q.1) →
      ∀ p ∈ l.zip l.tail, p.1.1 < p.2.1 := by
    intro l
    induction l with
    | nil => nofun
    | cons a l ih =>
      intro sorted p mem
      obtain ⟨head, tail⟩ := List.pairwise_cons.mp sorted
      cases l with
      | nil => cases mem
      | cons b l =>
        rcases List.mem_cons.mp mem with rfl | mem
        · exact head b List.mem_cons_self
        · exact ih tail p mem
  obtain ⟨old, new⟩ := List.of_mem_zip mem
  exact ⟨places _ old, places _ (List.mem_of_mem_tail new), next _ sorted p mem⟩

theorem guidePairs_mono (ext : log <+: log') {p : (Nat × String) × Nat × String}
    (mem : p ∈ guidePairs log) : p ∈ guidePairs log' := by
  obtain ⟨more, rfl⟩ := ext
  have grow : ∀ l more : List (Nat × String), ∀ p ∈ l.zip l.tail,
      p ∈ (l ++ more).zip (l ++ more).tail := by
    intro l more
    induction l with
    | nil => nofun
    | cons a l ih =>
      intro p mem
      cases l with
      | nil => cases mem
      | cons b l =>
        rcases List.mem_cons.mp mem with rfl | mem
        · exact List.mem_cons_self
        · exact List.mem_cons_of_mem _ (ih p mem)
  rw [guidePairs, List.filterMap_append]
  exact grow _ _ p mem

theorem rendered_iff (w : Written log) {i j : Nat} : rendered log i j = true ↔
    ∃ r gen, i < r ∧ r < j ∧ At log r (Requests .cp gen) ∧ ended log gen = false := by
  rw [rendered, List.any_eq_true]
  constructor
  · rintro ⟨e, mem, h⟩
    obtain ⟨r, get⟩ := List.mem_iff_getElem?.mp mem
    split at h
    · rename_i gen cue
      simp only [Bool.and_eq_true, decide_eq_true_eq, Bool.not_eq_true', w.seq_at get] at h
      exact ⟨r, gen, h.1.1, h.1.2, ⟨e, get, cue⟩, h.2⟩
    · cases h
  · rintro ⟨r, gen, lt, lt', ⟨e, get, cue⟩, open_⟩
    refine ⟨e, List.mem_of_getElem? get, ?_⟩
    rw [show e.cue = .request .cp gen from cue]
    simp only [Bool.and_eq_true, decide_eq_true_eq, Bool.not_eq_true', w.seq_at get]
    exact ⟨⟨lt, lt'⟩, open_⟩

/-- What is voiced later is by a later turn. -/
theorem Extends.own (more : Extends log log') {v t : Nat}
    (voiced : At log' v (·.cue = .voiced msgId t)) (late : log.length ≤ v) : log.length ≤ t := by
  induction more with
  | refl => exact absurd voiced.lt (Nat.not_lt_of_le late)
  | @write log' es more block ih =>
    by_cases within : v < log'.length
    · exact ih ((Lib.at_of_extends (List.prefix_append _ _) within).mp voiced)
    · obtain ⟨e, get, cue⟩ := voiced
      rw [List.getElem?_append_right (Nat.le_of_not_lt within)] at get
      exact more.prefix_.length_le.trans (block.own e (List.mem_of_getElem? get) msgId t cue)

/-- A superseded GUIDE stays so: what could have voiced it was over, and what is voiced later is by
turns of later requests. -/
theorem superseded_kept (w₀ : Written log) (more : Extends log log')
    (h : fateOf log msgId = some ⟨.dead, none, true⟩) :
    fateOf log' msgId = some ⟨.dead, none, true⟩ := by
  have w := w₀.extend more
  have ext := more.prefix_
  obtain ⟨none_, p, mem, rfl, unrendered⟩ := (fateOf_superseded w₀).mp h
  obtain ⟨old, new, order⟩ := mem_guidePairs w₀ mem
  have ltn := new.lt
  have still : ∀ r gen, p.1.1 < r → r < p.2.1 → At log r (Requests .cp gen) →
      ended log gen = true := by
    intro r gen lt lt' request
    by_contra open_
    rw [(rendered_iff w₀).mpr ⟨r, gen, lt, lt', request, Bool.not_eq_true _ ▸ open_⟩] at unrendered
    cases unrendered
  refine (fateOf_superseded w).mpr ⟨?_, p, guidePairs_mono ext mem, rfl, ?_⟩
  · -- a generation that voiced it was requested before the next GUIDE, and is over
    refine List.eq_nil_iff_forall_not_mem.mpr fun ⟨v, t⟩ mem => ?_
    have voiced := (mem_voicings w).mp mem
    by_cases within : v < log.length
    · have bad := (mem_voicings w₀).mpr ((Lib.at_of_extends ext within).mp voiced)
      rw [none_] at bad
      cases bad
    · obtain ⟨lane, gen, r, turn, -, request, guide⟩ := w.voicing voiced
      have late := more.own voiced (by omega)
      obtain ⟨rfl, lt, quiet⟩ := guide p.1.1 (at_take.mpr ⟨by omega, old.mono ext⟩)
      obtain ⟨-, turn⟩ := at_take.mp turn
      obtain ⟨-, request⟩ := at_take.mp request
      have next : r < p.2.1 := by
        by_contra later
        rcases Nat.eq_or_lt_of_le (Nat.le_of_not_lt later) with same | lt'
        · obtain ⟨e, -, cue, cue'⟩ := request.both (same ▸ new.mono ext)
          cases (show e.cue = _ from cue).symm.trans cue'
        · exact quiet p.2.1 order lt' (at_take.mpr ⟨by omega, (new.mono ext).imp fun _ h => ⟨_, h⟩⟩)
      have over_ := still r gen lt next ((Lib.at_of_extends ext (by omega)).mp request)
      obtain ⟨e, get, items, cue⟩ := id turn
      have ok := w.allowed get
      rw [Allowed, cue] at ok
      rcases ended_iff.mp over_ with ⟨c, cancels⟩ | ⟨t', lane', turn'⟩
      · exact ok.2.2 c (at_take.mpr ⟨by have := cancels.lt; omega, cancels.mono ext⟩)
      · exact ok.2.1 t' lane' (at_take.mpr ⟨by have := turn'.lt; omega, turn'.mono ext⟩)
  · refine Bool.eq_false_iff.mpr fun bad => ?_
    obtain ⟨r, gen, lt, lt', request, open_⟩ := (rendered_iff w).mp bad
    have over_ := still r gen lt lt' ((Lib.at_of_extends ext (by omega)).mp request)
    rw [ended_iff.mpr] at open_
    · cases open_
    · rcases ended_iff.mp over_ with ⟨c, cancels⟩ | ⟨t', lane', turn'⟩
      · exact Or.inl ⟨c, cancels.mono ext⟩
      · exact Or.inr ⟨t', lane', turn'.mono ext⟩

end guides

/-! ## The law -/

section law

variable {log log' : List Event} {msgId : String} {f : Fate} {n : Nat}

/-- The message was first voiced at `v` by a turn that was delivered whole: the one at `t`. -/
def FirstHeard (log : List Event) (msgId : String) (v t : Nat) (gen : String) : Prop :=
  At log v (·.cue = .voiced msgId t) ∧ Delivered log t gen ∧
    ∀ v' t' gen', v' < v → At log v' (·.cue = .voiced msgId t') → ¬ Delivered log t' gen'

/-- The utterance is the transcript's line number `i`. -/
def LineAt (log : List Event) (i : Nat) (utt : String) : Prop := (cpLines log)[i]? = some utt

/-- The lines up to one of them. -/
theorem countP_line (w : Written log) {d : Nat} {utt : String} {e : Event}
    (get : log[d]? = some e) (line : e.line? = some utt) :
    ∃ i, (lineSeqs log).countP (· ≤ d) = i + 1 ∧ LineAt log i utt := by
  have lt := (List.getElem?_eq_some_iff.mp get).1
  have parts : log = log.take d ++ e :: log.drop (d + 1) := by
    rw [← (List.getElem?_eq_some_iff.mp get).2, List.getElem_cons_drop, List.take_append_drop]
  have seqs : ∀ (es : List Event) (q : Nat), q ∈ lineSeqs es → ∃ e ∈ es, e.seq = q := by
    intro es q mem
    obtain ⟨e, among, h⟩ := List.mem_filterMap.mp mem
    obtain ⟨-, -, rfl⟩ := Option.map_eq_some_iff.mp h
    exact ⟨e, among, rfl⟩
  have before : (lineSeqs (log.take d)).countP (· ≤ d) = (lineSeqs (log.take d)).length := by
    refine List.countP_eq_length.mpr fun q mem => ?_
    obtain ⟨e', among, rfl⟩ := seqs _ q mem
    obtain ⟨n, here_⟩ := List.mem_iff_getElem?.mp among
    have place : At (log.take d) n (fun x => x = e') := ⟨e', here_, rfl⟩
    obtain ⟨ltn, e₂, get₂, rfl⟩ := at_take.mp place
    rw [decide_eq_true_eq, w.seq_at get₂]
    omega
  have after : (lineSeqs (log.drop (d + 1))).countP (· ≤ d) = 0 := by
    refine List.countP_eq_zero.mpr fun q mem => ?_
    obtain ⟨e', among, rfl⟩ := seqs _ q mem
    obtain ⟨n, here_⟩ := List.mem_iff_getElem?.mp among
    rw [List.getElem?_drop] at here_
    rw [decide_eq_true_eq, w.seq_at here_]
    omega
  have cons : ∀ es, lineSeqs (e :: es) = d :: lineSeqs es := fun es => by
    rw [lineSeqs, List.filterMap_cons, line, w.seq_at get]
    rfl
  have length : (cpLines (log.take d)).length = (lineSeqs (log.take d)).length := by
    rw [cpLines, lineSeqs, List.length_filterMap_eq_countP, List.length_filterMap_eq_countP]
    simp
  refine ⟨(cpLines (log.take d)).length, ?_, ?_⟩
  · rw [parts, lineSeqs, List.filterMap_append, ← lineSeqs, ← lineSeqs, cons, List.countP_append,
      ← parts, before, List.countP_cons, after, length]
    simp
  · rw [LineAt, parts, cpLines, List.filterMap_append, List.filterMap_cons, line, ← parts,
      ← cpLines]
    simp

theorem voicings_sorted (msgId : String) (w : Written log) :
    (voicings log msgId).Pairwise fun p q => p.1 < q.1 := by
  refine w.sorted.filterMap _ fun e e' lt p hp q hq => ?_
  split at hp
  · split at hq
    · obtain ⟨-, rfl⟩ := Option.ite_none_right_eq_some.mp hp |>.imp id Option.some.inj
      obtain ⟨-, rfl⟩ := Option.ite_none_right_eq_some.mp hq |>.imp id Option.some.inj
      exact lt
    · cases hq
  · cases hp

/-- A heard message was first voiced, of the turns delivered whole, by one whose last sentence is
the transcript's line before the fate's. -/
theorem firstHeard_of_heard (w : Written log) (h : fateOf log msgId = some f)
    (heard : f.state = .heard) : ∃ v t gen s utt i, FirstHeard log msgId v t gen ∧
      LastSentence log gen utt s ∧ LineAt log i utt ∧ f = ⟨.heard, some (i + 1), false⟩ := by
  obtain ⟨-, pre, post, parts, before⟩ := List.find?_eq_some_iff_append.mp
    ((fateOf_heard w heard).mp h)
  obtain ⟨vs, ws, split_, rfl, rest⟩ := List.map_eq_append_iff.mp parts
  obtain ⟨⟨v, t⟩, vs', rfl, eq, rfl⟩ := List.map_eq_cons_iff.mp rest
  have voiced : At log v (·.cue = .voiced msgId t) :=
    (mem_voicings w).mp (by rw [split_]; exact List.mem_append_right _ List.mem_cons_self)
  obtain ⟨gen, delivered_⟩ := delivered_of_fate (lineSeqs log) w (t := t) (by
    rw [show fate log (lineSeqs log) t = f from eq]
    exact heard)
  obtain ⟨s, utt, d, last, plays, fate_⟩ := fate_of_delivered (lineSeqs log) w delivered_
  obtain ⟨e, get, textHeard, cue⟩ := id plays
  obtain ⟨-, _, _, _, ⟨e', get', cue'⟩, -, -, -, said_⟩ :=
    w.delivery last.1 (plays.imp fun _ h => h.delivers)
  rw [← Option.some.inj (get.symm.trans get'), cue] at cue'
  cases cue'
  have line : e.line? = some utt := by
    unfold Event.line?
    rw [cue]
    exact if_neg (said_ rfl)
  obtain ⟨i, count, lineAt⟩ := countP_line w get line
  refine ⟨v, t, gen, s, utt, i, ⟨voiced, delivered_, ?_⟩, last, lineAt, ?_⟩
  · intro v' t' gen' lt voiced' delivered'
    have mem := (mem_voicings w).mpr voiced'
    have sorted := voicings_sorted msgId w
    rw [split_] at mem sorted
    obtain ⟨-, sorted, -⟩ := List.pairwise_append.mp sorted
    rcases List.mem_append.mp mem with early | late
    · obtain ⟨_, _, _, _, _, fate'⟩ := fate_of_delivered (lineSeqs log) w delivered'
      have no := before _ (List.mem_map.mpr ⟨_, early, rfl⟩)
      rw [fate'] at no
      cases no
    · rcases List.mem_cons.mp late with same | late
      · cases same
        omega
      · have := (List.pairwise_cons.mp sorted).1 _ late
        dsimp only at this
        omega
  · rw [← eq, fate_, count]

/-- A heard message stays heard, at the same line. -/
theorem heard_kept (w : Written log') (ext : log <+: log') (w₀ : Written log)
    (h : fateOf log msgId = some f) (heard : f.state = .heard) : fateOf log' msgId = some f := by
  have found := (fateOf_heard w₀ heard).mp h
  obtain ⟨isHeard, pre, post, parts, before⟩ := List.find?_eq_some_iff_append.mp found
  obtain ⟨vs, ws, split_, rfl, rest⟩ := List.map_eq_append_iff.mp parts
  obtain ⟨⟨v, t⟩, vs', rfl, eq, rfl⟩ := List.map_eq_cons_iff.mp rest
  have places : ∀ p ∈ voicings log msgId, At log p.1 (·.cue = .voiced msgId p.2) := fun p mem =>
    (mem_voicings w₀).mp mem
  obtain ⟨gen, delivered_⟩ := delivered_of_fate (lineSeqs log) w₀ (t := t) (by
    rw [show fate log (lineSeqs log) t = f from eq]
    exact heard)
  have voiced := places (v, t) (by rw [split_]; exact List.mem_append_right _ List.mem_cons_self)
  have longer : ∃ more, voicings log' msgId = voicings log msgId ++ more := by
    obtain ⟨more, rfl⟩ := ext
    exact ⟨voicings more msgId, List.filterMap_append⟩
  obtain ⟨more, longer⟩ := longer
  refine (fateOf_heard w heard).mpr (List.find?_eq_some_iff_append.mpr ⟨isHeard,
    vs.map (fun p => fate log' (lineSeqs log') p.2),
    (vs' ++ more).map (fun p => fate log' (lineSeqs log') p.2), ?_, ?_⟩)
  · rw [longer, split_, List.append_assoc, List.map_append, List.cons_append, List.map_cons,
      fate_kept w ext w₀ delivered_, show fate log (lineSeqs log) t = f from eq]
  · intro g mem
    obtain ⟨⟨v', t'⟩, early, rfl⟩ := List.mem_map.mp mem
    have voiced' := places (v', t') (by rw [split_]; exact List.mem_append_left _ early)
    have no := before _ (List.mem_map.mpr ⟨_, early, rfl⟩)
    rw [Bool.not_eq_true'] at no ⊢
    refine Bool.eq_false_iff.mpr fun bad => ?_
    obtain ⟨gen', delivered'⟩ := delivered_of_fate (lineSeqs log') w (of_decide_eq_true bad)
    have sorted := voicings_sorted msgId w₀
    rw [split_] at sorted
    have lt : v' < v := (List.pairwise_append.mp sorted).2.2 _ early _ List.mem_cons_self
    obtain ⟨_, _, _, _, _, fate'⟩ := fate_of_delivered (lineSeqs log) w₀
      (delivered_before w ext w₀ delivered_ voiced voiced' lt delivered')
    rw [show fate log (lineSeqs log) t' = _ from fate'] at no
    cases no

theorem heard_of_line (w : Written log) (h : fateOf log msgId = some f) (line : f.line = some n) :
    f.state = .heard := by
  rw [fateOf_eq w] at h
  cases voiced : (voicedFates log (lineSeqs log)).get? msgId with
  | none =>
    rw [get?_superseded_of_none _ voiced] at h
    obtain ⟨-, rfl⟩ := Option.ite_none_right_eq_some.mp h |>.imp id Option.some.inj
    cases line
  | some g =>
    rw [get?_superseded_of_some _ voiced] at h
    cases h
    rw [get?_voicedFates] at voiced
    obtain ⟨v, -, rfl⟩ := List.mem_map.mp ((best_mem voiced).resolve_left nofun)
    exact fate_line line

/-- A read-back window opens in its call, where the rep heard its ask's message. -/
theorem window_eq_some {x : Tracked} {ask : Said.Ask} : window log x = some ask ↔
    x.call = calls log ∧ ∃ n, heardAt log x.msgId = some n ∧ ask = { x.ask with opening := n } := by
  rw [window, Option.ite_none_right_eq_some, Option.map_eq_some_iff]
  exact and_congr_right fun _ => exists_congr fun n => and_congr_right fun _ => eq_comm

/-- A read-back window, once open, stays where it is in its call. -/
theorem window_kept (w : Written log') (ext : log <+: log') (w₀ : Written log) {x : Tracked}
    {ask : Said.Ask} (h : window log x = some ask) (same : calls log' = calls log) :
    window log' x = some ask := by
  obtain ⟨current, n, at_, rfl⟩ := window_eq_some.mp h
  obtain ⟨f, fate_, line⟩ := Option.bind_eq_some_iff.mp at_
  have fate' := heard_kept w ext w₀ fate_ (heard_of_line w₀ fate_ line)
  refine window_eq_some.mpr ⟨current.trans same.symm, n, ?_, rfl⟩
  rw [heardAt, fate', Option.bind_some, line]

/-- What a log that goes on keeps: each heard message stays heard, at the line after the last
sentence of the first turn delivered whole that voiced it; a superseded GUIDE stays dead; and a
read-back window, which opens only for what was so heard, does not move in its call. -/
theorem fates_law (w : Written log) (more : Extends log log') :
    (∃ out, fates log (cpLines log) = some out) ∧
    (∀ msgId f, fateOf log msgId = some f → f.state = .heard → fateOf log' msgId = some f ∧
      ∃ v t gen s utt i, FirstHeard log msgId v t gen ∧ LastSentence log gen utt s ∧
        LineAt log i utt ∧ f.line = some (i + 1)) ∧
    (∀ msgId, fateOf log msgId = some ⟨.dead, none, true⟩ →
      fateOf log' msgId = some ⟨.dead, none, true⟩) ∧
    ∀ x ask, window log x = some ask →
      (calls log' = calls log → window log' x = some ask) ∧
      ∃ v t gen s utt i, FirstHeard log x.msgId v t gen ∧ LastSentence log gen utt s ∧
        LineAt log i utt ∧ ask = { x.ask with opening := i + 1 } := by
  have w' := w.extend more
  have ext := more.prefix_
  refine ⟨⟨_, fates_eq w⟩, fun msgId f fate_ heard => ?_,
    fun msgId dead => superseded_kept w more dead, fun x ask opens => ?_⟩
  · obtain ⟨v, t, gen, s, utt, i, first, last, lineAt, eq⟩ := firstHeard_of_heard w fate_ heard
    exact ⟨heard_kept w' ext w fate_ heard, v, t, gen, s, utt, i, first, last, lineAt, by rw [eq]⟩
  · refine ⟨window_kept w' ext w opens, ?_⟩
    obtain ⟨-, n, at_, rfl⟩ := window_eq_some.mp opens
    obtain ⟨f, fate_, line⟩ := Option.bind_eq_some_iff.mp at_
    obtain ⟨v, t, gen, s, utt, i, first, last, lineAt, eq⟩ :=
      firstHeard_of_heard w fate_ (heard_of_line w fate_ line)
    rw [eq] at line
    cases line
    exact ⟨v, t, gen, s, utt, i, first, last, lineAt, rfl⟩

end law

/-- A GUIDE that is no longer the newest, and one that a turn of one sentence voices, which the rep
hears whole and answers. -/
def oneGuide : List Event :=
  [⟨0, .opened .cp⟩, ⟨1, .s2f .cp "s2f-1" true⟩, ⟨2, .s2f .cp "s2f-2" true⟩,
    ⟨3, .request .cp "cp-g1"⟩, ⟨4, .turn .cp "cp-g1" [.speech]⟩, ⟨5, .voiced "s2f-2" 4⟩,
    ⟨6, .sentence "cp-g1" "cp-g1-u0" "hello"⟩, ⟨7, .delivered .cp "cp-g1-u0" "hello" false⟩,
    ⟨8, .final .cp "rep-1"⟩]

theorem not_at {log : List Event} {P : Event → Prop} (h : ∀ e ∈ log, ¬ P e) (n : Nat) :
    ¬ At log n P := by
  rintro ⟨e, get, holds⟩
  exact h e (List.mem_of_getElem? get) holds

theorem quiet_after {log : List Event} {P : Event → Prop} {i : Nat}
    (h : ∀ e ∈ log.drop (i + 1), ¬ P e) : Quiet log i log.length P := by
  rintro n lt - ⟨e, get, holds⟩
  refine h e (List.mem_of_getElem? (i := n - (i + 1)) ?_) holds
  rw [List.getElem?_drop, show i + 1 + (n - (i + 1)) = n by omega]
  exact get

theorem oneGuide_current {log : List Event} (h : log <+: oneGuide) (lt : 3 < log.length) :
    Current log .cp "cp-g1" := by
  have request : At oneGuide 3 (Requests .cp "cp-g1") := ⟨_, rfl, rfl⟩
  have quiet : Quiet oneGuide 3 oneGuide.length fun e => ∃ g, Requests .cp g e :=
    quiet_after (by simp [oneGuide, Requests])
  exact ⟨3, (Lib.at_of_extends h lt).mp request, fun n lt lt' bad =>
    quiet n lt (bad.mono h).lt (bad.mono h)⟩

theorem oneGuide_written : Written (oneGuide.take 8) ∧ Extends (oneGuide.take 8) oneGuide := by
  have current : ∀ n, 4 ≤ n → n ≤ 8 → Current (oneGuide.take n) .cp "cp-g1" := fun n le le' =>
    oneGuide_current (List.take_prefix _ _) (by
      rw [List.length_take, show oneGuide.length = 9 from rfl]
      omega)
  have none_ : Written (oneGuide.take 0) := .refl
  have opened : Written (oneGuide.take 1) :=
    none_.one (e := oneGuide[0]) ⟨rfl, trivial⟩ nofun
  have guide : Written (oneGuide.take 2) :=
    opened.one (e := oneGuide[1]) ⟨rfl, fun n lane guide => not_at (by simp [oneGuide]) n⟩ nofun
  have guides : Written (oneGuide.take 3) :=
    guide.one (e := oneGuide[2]) ⟨rfl, fun n lane guide => not_at (by simp [oneGuide]) n⟩ nofun
  have request : Written (oneGuide.take 4) :=
    guides.one (e := oneGuide[3]) ⟨rfl, fun lane => not_at (by simp [oneGuide, Requests])⟩ nofun
  have turn : Rule (oneGuide.take 4) oneGuide[4] := ⟨rfl, current 4 (by decide) (by decide),
    fun n lane => not_at (by simp [oneGuide, TurnOf]) n, not_at (by simp [oneGuide, Cancels])⟩
  have voiced : Rule (oneGuide.take 5) oneGuide[5] := by
    refine ⟨rfl, .cp, "cp-g1", 3, ⟨_, rfl, _, rfl⟩, current 5 (by decide) (by decide),
      ⟨_, rfl, rfl⟩, fun n guides => ?_⟩
    have newest : n = 2 := by
      have below := guides.lt
      obtain ⟨e, get, cue⟩ := guides
      match n, below with
      | 0, _ | 1, _ | 3, _ | 4, _ => cases get; exact absurd (show _ = _ from cue) (by decide)
      | 2, _ => rfl
    subst newest
    exact ⟨rfl, by decide, Lib.quiet_self⟩
  have block : Block (oneGuide.take 4) [oneGuide[4], oneGuide[5]] := by
    refine ⟨fun n e get => ?_, ?_⟩
    · match n with
      | 0 => exact Option.some.inj get ▸ turn
      | 1 => exact Option.some.inj get ▸ voiced
      | n + 2 => cases get
    · rintro e mem msgId t cue
      rcases List.mem_pair.mp mem with rfl | rfl
      · cases cue
      · cases cue
        decide
  have turned : Written (oneGuide.take 6) := request.write block
  have sentence : Written (oneGuide.take 7) :=
    turned.one (e := oneGuide[6]) ⟨rfl,
      ⟨.cp, 4, current 6 (by decide) (by decide), _, rfl, _, rfl⟩,
      fun s utt d _ => not_at (by simp [oneGuide, Delivers]) d, by decide,
      not_at (by simp [oneGuide, Names, Says, Delivers])⟩ nofun
  have delivered : Written (oneGuide.take 8) := by
    refine sentence.one (e := oneGuide[7]) ⟨rfl, Or.inr ⟨"cp-g1", 6, "hello", ⟨_, rfl, rfl⟩,
      current 7 (by decide) (by decide), not_at (by simp [oneGuide, Cancels]),
      not_at (by simp [oneGuide, Delivers]), fun s utt lt earlier => ?_, fun _ => rfl⟩⟩ nofun
    exact absurd (at_take.mpr ⟨lt, earlier⟩) (not_at (by simp [oneGuide, Says]) s)
  exact ⟨delivered, Extends.refl.one (e := oneGuide[8]) ⟨rfl,
    not_at (by simp [oneGuide, Names, Says, Delivers])⟩ nofun⟩

theorem fates_law_one_guide : fateOf oneGuide "s2f-2" = some ⟨.heard, some 1, false⟩ ∧
    fateOf oneGuide "s2f-1" = some ⟨.dead, none, true⟩ ∧
    window oneGuide ⟨"s2f-2", 1, ⟨0, .empty⟩⟩ = some ⟨1, .empty⟩ := by
  obtain ⟨-, heard, dead, opens⟩ := fates_law oneGuide_written.1 oneGuide_written.2
  exact ⟨(heard "s2f-2" ⟨.heard, some 1, false⟩ (by decide) rfl).1, dead "s2f-1" (by decide),
    (opens ⟨"s2f-2", 1, ⟨0, .empty⟩⟩ ⟨1, .empty⟩ rfl).1 rfl⟩

end ProxyLoop.Fates

import ProxyLoop.Guard.Needs
import ProxyLoop.Lib.Places

/-!
# The law of the needs ledger

A key is replied only if its latest ask that was not undone was heard and a user message came after
it.  What the ledger holds of an ask on its way is what the log says of it.
-/

namespace ProxyLoop.Needs

open Lib (Dict At Quiet at_snoc at_of_extends quiet_of_extends quiet_self)

/-! ## What the log says of an ask -/

def CitesTurn (t : Nat) (e : Event) : Prop := e.causes.head? = some t

def IsTurn (e : Event) : Prop := ∃ items, e.cue = .fastTurn items

/-- A turn with a word. -/
def Speaks (e : Event) : Prop := ∃ items, e.cue = .fastTurn items ∧ spoke items = true

def IsUserMsg (e : Event) : Prop := e.cue = .userMsg

/-- The event is a message that carries the ask at `a`. -/
def Sends (a : Nat) (e : Event) : Prop := ∃ msgId, Carries a msgId e

/-- The ask at `a` is sent at `m`, first. -/
def Sent (log : List Event) (a m : Nat) (msgId : String) : Prop :=
  a < m ∧ At log m (Carries a msgId) ∧ Quiet log a m (Sends a)

/-- The ask at `a` is voiced at `v`, first. -/
def VoicedAt (log : List Event) (a v : Nat) : Prop :=
  ∃ m msgId, Sent log a m msgId ∧ m < v ∧ At log v (Voices msgId) ∧ Quiet log m v (Voices msgId)

/-- The voicing at `v` cites the last turn before it, and it spoke. -/
def HeardAt (log : List Event) (v : Nat) : Prop :=
  ∃ t, t < v ∧ At log v (CitesTurn t) ∧ At log t Speaks ∧ Quiet log t v IsTurn

/-- The ask at `a` was voiced without a word before the key was asked for again or recorded. -/
def Undone (log : List Event) (a : Nat) (key : String) : Prop :=
  ∃ v, VoicedAt log a v ∧ ¬ HeardAt log v ∧ Quiet log a v (Asks key) ∧ Quiet log a v (Records key)

/-- The key's latest ask that was not undone. -/
def Latest (log : List Event) (key : String) : Option Nat → Prop
  | some a => At log a (Asks key) ∧ ∀ a', a < a' → At log a' (Asks key) → Undone log a' key
  | none => ∀ a', At log a' (Asks key) → Undone log a' key

section said

variable {log log' : List Event} {a m v t : Nat} {msgId key : String}

theorem Sent.mono (h : Sent log a m msgId) (ext : log <+: log') : Sent log' a m msgId :=
  ⟨h.1, h.2.1.mono ext, h.2.2.mono ext (Nat.le_of_lt h.2.1.lt)⟩

theorem VoicedAt.mono (h : VoicedAt log a v) (ext : log <+: log') : VoicedAt log' a v := by
  obtain ⟨m, msgId, sent, lt, voices, quiet⟩ := h
  exact ⟨m, msgId, sent.mono ext, lt, voices.mono ext, quiet.mono ext (Nat.le_of_lt voices.lt)⟩

theorem VoicedAt.lt (h : VoicedAt log a v) : a < v ∧ v < log.length := by
  obtain ⟨m, msgId, sent, lt, voices, -⟩ := h
  exact ⟨Nat.lt_trans sent.1 lt, voices.lt⟩

theorem HeardAt.mono (h : HeardAt log v) (ext : log <+: log') : HeardAt log' v := by
  obtain ⟨t, lt, cites, speaks, quiet⟩ := h
  exact ⟨t, lt, cites.mono ext, speaks.mono ext, quiet.mono ext (Nat.le_of_lt cites.lt)⟩

theorem heardAt_of_extends (ext : log <+: log') (lt : v < log.length) (h : HeardAt log' v) :
    HeardAt log v := by
  obtain ⟨t, lt', cites, speaks, quiet⟩ := h
  exact ⟨t, lt', (at_of_extends ext lt).mp cites, (at_of_extends ext (by omega)).mp speaks,
    quiet_of_extends ext quiet⟩

theorem Undone.mono (h : Undone log a key) (ext : log <+: log') : Undone log' a key := by
  obtain ⟨v, voiced, unheard, asks, records⟩ := h
  have lt := voiced.lt.2
  exact ⟨v, voiced.mono ext, fun bad => unheard (heardAt_of_extends ext lt bad),
    asks.mono ext (Nat.le_of_lt lt), records.mono ext (Nat.le_of_lt lt)⟩

theorem Latest.snoc {o : Option Nat} (h : Latest log key o) {e : Event} (calm : ¬ Asks key e) :
    Latest (log ++ [e]) key o := by
  have ext : log <+: log ++ [e] := List.prefix_append _ _
  have old : ∀ a', At (log ++ [e]) a' (Asks key) → At log a' (Asks key) := fun a' h =>
    (at_snoc.mp h).resolve_right fun bad => calm bad.2
  cases o with
  | some a => exact ⟨h.1.mono ext, fun a' lt asked => (h.2 a' lt (old a' asked)).mono ext⟩
  | none => exact fun a' asked => (h a' (old a' asked)).mono ext

/-- A message carries one ask's first sending. -/
theorem Sent.unique {m' : Nat} {msgId' : String} (h : Sent log a m msgId)
    (h' : Sent log a m' msgId') : m = m' ∧ msgId = msgId' := by
  have same : m = m' := by
    rcases Nat.lt_trichotomy m m' with lt | eq | lt
    · obtain ⟨e, get, carries⟩ := h.2.1
      exact absurd ⟨e, get, msgId, carries⟩ (h'.2.2 m h.1 lt)
    · exact eq
    · obtain ⟨e, get, carries⟩ := h'.2.1
      exact absurd ⟨e, get, msgId', carries⟩ (h.2.2 m' h'.1 lt)
  subst same
  obtain ⟨e, get, carries⟩ := h.2.1
  obtain ⟨e', get', carries'⟩ := h'.2.1
  obtain rfl : e = e' := Option.some.inj (get.symm.trans get')
  exact ⟨rfl, Cue.s2fMsg.inj (carries.2.symm.trans carries'.2)⟩

end said

/-! ## The ledger of a written log -/

theorem fold_snoc (log : List Event) (e : Event) : fold (log ++ [e]) = step (fold log) e := by
  rw [fold, List.foldl_append]
  rfl

structure NeedOk (log : List Event) (key : String) (need : Need) : Prop where
  pending : need.state = .pending → ∃ a, need.askedSeq = some a ∧ At log a (Asks key) ∧
    Quiet log a log.length (Asks key) ∧ Quiet log a log.length (Records key) ∧
    ∀ v, need.voicedSeq = some v → VoicedAt log a v ∧ HeardAt log v
  replied : need.state = .replied → ∃ a v u, need.askedSeq = some a ∧ VoicedAt log a v ∧
    HeardAt log v ∧ v < u ∧ At log u IsUserMsg

def KeyOk (log : List Event) (key : String) (o : Option Need) : Prop :=
  Latest log key (o.bind Need.askedSeq) ∧ ∀ need, o = some need → NeedOk log key need

/-- An ask on its way holds the needs of its keys as they were before it; none was pending. -/
def Kept (log : List Event) (ask : Ask) : Prop :=
  ∃ keys, At log ask.seq (fun e => e.asks = some keys) ∧
    ask.before = keys.map (fun k => (k, (fold (log.take ask.seq)).needs.get? k)) ∧
    ∀ k ∈ keys, (fold (log.take ask.seq)).state k ≠ some .pending ∧
      KeyOk (log.take ask.seq) k ((fold (log.take ask.seq)).needs.get? k)

structure Inv (log : List Event) : Prop where
  turn : ∀ t b, (fold log).turn = some (t, b) ↔
    At log t (fun e => ∃ items, e.cue = .fastTurn items ∧ spoke items = b) ∧
      Quiet log t log.length IsTurn
  asking : ∀ a ask, (fold log).asking.get? a = some ask →
    ask.seq = a ∧ Kept log ask ∧ Quiet log a log.length (Sends a)
  voicing : ∀ msgId ask, (fold log).voicing.get? msgId = some ask → Kept log ask ∧
    ∃ m, Sent log ask.seq m msgId ∧ Quiet log m log.length (Voices msgId)
  key : ∀ k, KeyOk log k ((fold log).needs.get? k)

section inv

variable {log : List Event} {e : Event} {k : String}

theorem Kept.snoc {ask : Ask} (h : Kept log ask) (e : Event) : Kept (log ++ [e]) ask := by
  obtain ⟨keys, asked, before, ok⟩ := h
  have same : (log ++ [e]).take ask.seq = log.take ask.seq :=
    List.take_append_of_le_length (Nat.le_of_lt asked.lt)
  refine ⟨keys, asked.mono (List.prefix_append _ _), ?_, ?_⟩ <;> rw [same]
  · exact before
  · exact ok

theorem Kept.snap {ask : Ask} (h : Kept log ask) : ∃ f : String → Option Need,
    ∀ p ∈ ask.before, p.2 = f p.1 := by
  obtain ⟨keys, -, before, -⟩ := h
  refine ⟨fun k => (fold (log.take ask.seq)).needs.get? k, fun p hp => ?_⟩
  rw [before] at hp
  obtain ⟨k, -, rfl⟩ := List.mem_map.mp hp
  rfl

theorem heard_iff (inv : Inv log) : heard (fold log) e = true ↔ HeardAt (log ++ [e]) log.length := by
  have ext : log <+: log ++ [e] := List.prefix_append _ _
  have last : ∀ P : Event → Prop, At (log ++ [e]) log.length P ↔ P e := fun P =>
    ⟨fun h => (at_snoc.mp h).elim (fun bad => absurd bad.lt (Nat.lt_irrefl _)) And.right,
      fun h => at_snoc.mpr (Or.inr ⟨rfl, h⟩)⟩
  constructor
  · intro h
    unfold heard at h
    split at h
    · rename_i turn cause ht hcause
      obtain rfl : turn = (cause, true) := by simpa using h
      obtain ⟨⟨e', get, items, cue, spoke_⟩, quiet⟩ := (inv.turn cause true).mp ht
      have speaks : At log cause Speaks := ⟨e', get, items, cue, spoke_⟩
      exact ⟨cause, speaks.lt, (last _).mpr hcause, speaks.mono ext,
        quiet.mono ext (Nat.le_refl _)⟩
    · cases h
  · rintro ⟨t, lt, cites, speaks, quiet⟩
    have cites := (last _).mp cites
    obtain ⟨e', get, items, cue, spoke_⟩ := (at_of_extends ext lt).mp speaks
    have turn := (inv.turn t true).mpr ⟨⟨e', get, items, cue, spoke_⟩, quiet_of_extends ext quiet⟩
    unfold heard
    rw [turn, show e.causes.head? = some t from cites]
    simp

theorem voicedAt_snoc (inv : Inv log) {msgId : String} {ask : Ask}
    (hv : (fold log).voicing.get? msgId = some ask) (voices : Voices msgId e) :
    VoicedAt (log ++ [e]) ask.seq log.length := by
  have ext : log <+: log ++ [e] := List.prefix_append _ _
  obtain ⟨-, m, sent, quiet⟩ := inv.voicing msgId ask hv
  exact ⟨m, msgId, sent.mono ext, sent.2.1.lt, at_snoc.mpr (Or.inr ⟨rfl, voices⟩),
    quiet.mono ext (Nat.le_refl _)⟩

theorem NeedOk.snoc {need : Need} (h : NeedOk log k need) (asks : ¬ Asks k e)
    (records : ¬ Records k e) : NeedOk (log ++ [e]) k need where
  pending pending := by
    have ext : log <+: log ++ [e] := List.prefix_append _ _
    obtain ⟨a, asked, at_, unasked, unrecorded, voiced⟩ := h.pending pending
    exact ⟨a, asked, at_.mono ext, unasked.snoc asks, unrecorded.snoc records, fun v hv =>
      (voiced v hv).imp (·.mono ext) (·.mono ext)⟩
  replied replied := by
    have ext : log <+: log ++ [e] := List.prefix_append _ _
    obtain ⟨a, v, u, asked, voiced, heard, lt, user⟩ := h.replied replied
    exact ⟨a, v, u, asked, voiced.mono ext, heard.mono ext, lt, user.mono ext⟩

theorem Latest.restored {log' : List Event} {a : Nat} {o : Option Nat} (h : Latest (log.take a) k o)
    (within : a ≤ log.length) (ext : log.take a <+: log') (undone : Undone log' a k)
    (none_ : ∀ a', a < a' → ¬ At log' a' (Asks k)) : Latest log' k o := by
  have later : ∀ a', At log' a' (Asks k) →
      (At (log.take a) a' (Asks k) → Undone (log.take a) a' k) → Undone log' a' k := by
    intro a' asked old
    rcases Nat.lt_trichotomy a' a with lt | eq | lt
    · exact (old ((at_of_extends ext (by rw [List.length_take]; omega)).mp asked)).mono ext
    · exact eq ▸ undone
    · exact absurd asked (none_ a' lt)
  cases o with
  | some a₀ => exact ⟨h.1.mono ext, fun a' lt asked => later a' asked (h.2 a' lt)⟩
  | none => exact fun a' asked => later a' asked (h a')

theorem Inv.key_step (inv : Inv log) (seq : e.seq = log.length) (k : String) :
    KeyOk (log ++ [e]) k ((fold (log ++ [e])).needs.get? k) := by
  have ext : log <+: log ++ [e] := List.prefix_append _ _
  have before := inv.key k
  have step_ := moved (fold log) e k fun msgId ask hv => (inv.voicing msgId ask hv).1.snap
  have quiet_ : (∀ name ok keys, e.cue ≠ .slowTool name ok keys) → ¬ Asks k e := by
    rintro other ⟨keys, asks, -⟩
    obtain ⟨name, ok, raw, hc⟩ := cue_of_asks asks
    exact other name ok raw hc
  rw [fold_snoc]
  generalize (fold log).needs.get? k = o at before step_
  generalize (step (fold log) e).needs.get? k = o' at step_ ⊢
  cases step_ with
  | asked o need asks pending asked unvoiced =>
    have at_ : At (log ++ [e]) log.length (Asks k) := at_snoc.mpr (Or.inr ⟨rfl, asks⟩)
    have length : (log ++ [e]).length = log.length + 1 := by simp
    rw [seq] at asked
    refine ⟨?_, fun need' hn => ?_⟩
    · rw [Option.bind_some, asked]
      refine ⟨at_, fun a' lt bad => ?_⟩
      have := bad.lt
      omega
    · cases hn
      refine ⟨fun _ => ⟨log.length, asked, at_, ?_, ?_, fun v hv => ?_⟩, fun replied => ?_⟩
      · rw [length]
        exact quiet_self
      · rw [length]
        exact quiet_self
      · rw [unvoiced] at hv
        cases hv
      · rw [pending] at replied
        cases replied
  | voiced msgId ask b need hc hv mem waits hh =>
    have asks : ¬ Asks k e := quiet_ (by simp [hc])
    have records : ¬ Records k e := by simp [Records, hc]
    simp only [Need.waitsFor, Bool.and_eq_true, decide_eq_true_eq] at waits
    refine ⟨before.1.snoc asks, fun need' hn => ?_⟩
    cases hn
    refine ⟨fun pending => ?_, fun replied => ?_⟩
    · have ok := (before.2 need rfl).snoc asks records
      obtain ⟨a, asked, at_, unasked, unrecorded, -⟩ := ok.pending waits.2
      refine ⟨a, asked, at_, unasked, unrecorded, fun v hv' => ?_⟩
      obtain rfl : ask.seq = a := Option.some.inj (waits.1.symm.trans asked)
      obtain rfl : e.seq = v := Option.some.inj hv'
      rw [seq]
      exact ⟨voicedAt_snoc inv hv hc, (heard_iff inv).mp hh⟩
    · exact absurd (waits.2.symm.trans replied) (by decide)
  | undone msgId ask b need hc hv mem waits hh =>
    have asks : ¬ Asks k e := quiet_ (by simp [hc])
    simp only [Need.waitsFor, Bool.and_eq_true, decide_eq_true_eq] at waits
    obtain ⟨a, asked, -, unasked, unrecorded, -⟩ := (before.2 need rfl).pending waits.2
    obtain rfl : ask.seq = a := Option.some.inj (waits.1.symm.trans asked)
    obtain ⟨keys, asking, kept, ok⟩ := (inv.voicing msgId ask hv).1
    rw [kept] at mem
    obtain ⟨k', among, eq⟩ := List.mem_map.mp mem
    cases eq
    obtain ⟨calm, latest, needOk⟩ := ok k among
    have ext' : log.take ask.seq <+: log ++ [e] := (List.take_prefix _ _).trans ext
    have undone : Undone (log ++ [e]) ask.seq k :=
      ⟨log.length, voicedAt_snoc inv hv hc,
        fun bad => (by rw [(heard_iff inv).mpr bad] at hh; cases hh),
        unasked.mono ext (Nat.le_refl _), unrecorded.mono ext (Nat.le_refl _)⟩
    refine ⟨latest.restored (Nat.le_of_lt asking.lt) ext' undone fun a' lt bad => ?_,
      fun need' hn => ⟨fun pending => ?_, fun replied => ?_⟩⟩
    · rcases at_snoc.mp bad with bad | ⟨-, bad⟩
      · exact unasked a' lt bad.lt bad
      · exact asks bad
    · refine absurd ?_ calm
      rw [Ledger.state, hn, Option.map_some, pending]
    · obtain ⟨a, v, u, asked, voiced, heard, lt, user⟩ := (needOk need' hn).replied replied
      exact ⟨a, v, u, asked, voiced.mono ext', heard.mono ext', lt, user.mono ext'⟩
  | replied need v hc pending hv =>
    have asks : ¬ Asks k e := quiet_ (by simp [hc])
    obtain ⟨a, asked, -, -, -, voiced⟩ := (before.2 need rfl).pending pending
    obtain ⟨voicedAt, heard⟩ := voiced v hv
    refine ⟨before.1.snoc asks, fun need' hn => ?_⟩
    cases hn
    refine ⟨(fun other => by cases other), fun _ => ⟨a, v, log.length, asked, voicedAt.mono ext, heard.mono ext,
      voicedAt.lt.2, at_snoc.mpr (Or.inr ⟨rfl, hc⟩)⟩⟩
  | answered o records =>
    have asks : ¬ Asks k e := quiet_ (by simp [show e.cue = _ from records])
    refine ⟨?_, fun need' hn => ?_⟩
    · cases o with
      | none => exact before.1.snoc asks
      | some need => exact before.1.snoc asks
    · cases hn
      exact ⟨(fun other => by cases other), fun other => by cases other⟩
  | still o asks records =>
    exact ⟨before.1.snoc asks, fun need hn => (before.2 need hn).snoc asks records⟩

theorem askDenial_eq_none {l : Ledger} {keys : List String} :
    askDenial l keys = none ↔ ∀ k ∈ keys, l.state k ≠ some .pending := by
  simp only [askDenial, ite_eq_left_iff, reduceCtorEq, imp_false, not_not, List.filter_eq_nil_iff,
    decide_eq_true_eq, ne_eq]

/-- A new ask holds the needs before it, of which none is pending. -/
theorem kept_ask (inv : Inv log) (seq : e.seq = log.length) (ok : Allowed log e)
    {keys : List String} (asks : e.asks = some keys) :
    Kept (log ++ [e]) ⟨e.seq, keys.map fun k => (k, (fold log).needs.get? k)⟩ := by
  have same : (log ++ [e]).take e.seq = log := by
    rw [seq, List.take_left]
  refine ⟨keys, at_snoc.mpr (Or.inr ⟨seq, asks⟩), by rw [same], fun k among => ?_⟩
  rw [same]
  refine ⟨?_, inv.key k⟩
  unfold Event.asks at asks
  split at asks
  · rename_i name ok' raw hc
    obtain ⟨cond, eq⟩ := Option.ite_none_right_eq_some.mp asks
    cases eq
    simp only [Bool.and_eq_true, decide_eq_true_eq] at cond
    rw [Allowed, hc] at ok
    exact askDenial_eq_none.mp (ok cond.1 cond.2) k (List.mem_eraseDups.mp among)
  · cases asks

theorem Inv.turn_snoc (inv : Inv log) (seq : e.seq = log.length) (t : Nat) (b : Bool) :
    (fold (log ++ [e])).turn = some (t, b) ↔
      At (log ++ [e]) t (fun e => ∃ items, e.cue = .fastTurn items ∧ spoke items = b) ∧
        Quiet (log ++ [e]) t (log ++ [e]).length IsTurn := by
  have ext : log <+: log ++ [e] := List.prefix_append _ _
  rw [fold_snoc]
  rcases turn_step (fold log) e with ⟨items, hc, eq⟩ | ⟨other, eq⟩
  · rw [eq, seq]
    constructor
    · intro h
      cases h
      exact ⟨at_snoc.mpr (Or.inr ⟨rfl, items, hc, rfl⟩), by simpa using quiet_self⟩
    · rintro ⟨at_, quiet⟩
      rcases at_snoc.mp at_ with old | ⟨here_, items', hc', spoke_⟩
      · exact absurd (at_snoc.mpr (Or.inr ⟨rfl, items, hc⟩)) (quiet log.length old.lt (by simp))
      · rw [hc] at hc'
        cases hc'
        rw [here_, spoke_]
  · rw [eq, inv.turn t b]
    constructor
    · rintro ⟨at_, quiet⟩
      exact ⟨at_.mono ext, quiet.snoc fun ⟨items, hc⟩ => other items hc⟩
    · rintro ⟨at_, quiet⟩
      refine ⟨(at_snoc.mp at_).resolve_right fun ⟨_, items, hc, _⟩ => other items hc, ?_⟩
      exact fun n lt lt' => quiet_of_extends ext quiet n lt (by rw [List.length_append]; omega)

theorem Inv.snoc (inv : Inv log) (seq : e.seq = log.length) (ok : Allowed log e) :
    Inv (log ++ [e]) where
  turn := inv.turn_snoc seq
  asking a ask h := by
    rw [fold_snoc] at h
    have length : (log ++ [e]).length = log.length + 1 := by simp
    rcases asking_step (fold log) e a with
      ⟨keys, asks, -, rfl, eq⟩ | ⟨msgId, -, eq⟩ | ⟨unsent, -, eq⟩
    · obtain rfl := Option.some.inj (eq.symm.trans h)
      refine ⟨rfl, kept_ask inv seq ok asks, ?_⟩
      rw [length, seq]
      exact quiet_self
    · cases eq.symm.trans h
    · obtain ⟨same, kept, quiet⟩ := inv.asking a ask (eq.symm.trans h)
      exact ⟨same, kept.snoc e, quiet.snoc fun ⟨msgId, bad⟩ => unsent msgId bad⟩
  voicing msgId ask h := by
    have ext : log <+: log ++ [e] := List.prefix_append _ _
    have length : (log ++ [e]).length = log.length + 1 := by simp
    rw [fold_snoc] at h
    rcases voicing_step (fold log) e msgId with
      ⟨a, ask', carries, get, eq⟩ | ⟨-, eq⟩ | ⟨unvoiced, -, eq⟩
    · obtain rfl := Option.some.inj (eq.symm.trans h)
      obtain ⟨rfl, kept, quiet⟩ := inv.asking a ask' get
      obtain ⟨keys, at_, -⟩ := id kept
      refine ⟨kept.snoc e, log.length, ⟨at_.lt, at_snoc.mpr (Or.inr ⟨rfl, carries⟩),
        quiet.mono ext (Nat.le_refl _)⟩, ?_⟩
      rw [length]
      exact quiet_self
    · cases eq.symm.trans h
    · obtain ⟨kept, m, sent, quiet⟩ := inv.voicing msgId ask (eq.symm.trans h)
      exact ⟨kept.snoc e, m, sent.mono ext, quiet.snoc unvoiced⟩
  key := inv.key_step seq

theorem inv_nil : Inv [] where
  turn t b := by
    constructor
    · intro h
      cases h
    · rintro ⟨at_, -⟩
      cases at_.lt
  asking a ask h := by cases h
  voicing msgId ask h := by cases h
  key k := ⟨fun a' asked => (by cases asked.lt), nofun⟩

theorem Written.inv (w : Written log) : Inv log := by
  induction w with
  | start => exact inv_nil
  | write w seq ok ih => exact ih.snoc seq ok

theorem Written.take (w : Written log) (n : Nat) : Written (log.take n) := by
  induction w with
  | start => simpa using Written.start
  | @write log e w seq ok ih =>
    by_cases below : n ≤ log.length
    · rw [List.take_append_of_le_length below]
      exact ih
    · rw [List.take_of_length_le (by simp; omega)]
      exact .write w seq ok

end inv

end ProxyLoop.Needs

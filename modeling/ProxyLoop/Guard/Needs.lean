import Mathlib.Data.Finset.Lattice.Basic
import Mathlib.Data.Finset.SDiff
import Mathlib.Tactic.Tauto
import ProxyLoop.Lib.Dict

/-!
# The needs ledger

What Slow has asked the user for, folded from the log: a key is pending from an ask, replied once a
user message is newer than the ask's voicing, answered once its fact is recorded.  An ask that was
voiced without a word is undone: its keys return to what they were.
-/

namespace ProxyLoop.Needs

open Lib (Dict)

/-! ## Events -/

inductive ItemKind
  | speech | relay | hold | issue
  deriving DecidableEq, Repr

inductive Cue
  | slowTool (name : String) (ok : Bool) (keys : List String)
  | s2fMsg (msgId : String)
  | fastTurn (items : List ItemKind)
  | s2fVoiced (msgId : String)
  | userMsg
  | factRecorded (key : String)
  | chanHold (reason : Option String)
  | other
  deriving DecidableEq, Repr

/-- An event of the log; its seq stands for its id. -/
structure Event where
  seq : Nat
  tMs : Nat
  causes : List Nat := []
  cue : Cue
  deriving DecidableEq, Repr

/-- The keys that a successful `ask_user` asks for. -/
def Event.asks (e : Event) : Option (List String) :=
  match e.cue with
  | .slowTool name ok keys => if name = "ask_user" && ok then some keys.eraseDups else none
  | _ => none

/-! ## The ledger -/

inductive State
  | pending | replied | answered
  deriving DecidableEq, Repr

structure Need where
  key : String
  state : State
  /-- successful keyed asks -/
  asks : Nat := 0
  /-- the latest ask -/
  askedSeq : Option Nat := none
  askedMs : Option Nat := none
  /-- its voicing -/
  voicedSeq : Option Nat := none
  /-- the user message after it -/
  repliedSeq : Option Nat := none
  /-- the recorded fact -/
  answeredSeq : Option Nat := none
  deriving DecidableEq, Repr

/-- An ask on its way: its seq, and each key's need before it. -/
structure Ask where
  seq : Nat
  before : List (String × Option Need)
  deriving DecidableEq, Repr

structure Ledger where
  needs : Dict String Need := .empty
  keyless : Nat := 0
  holds : Nat := 0
  /-- asked, but the ask was not heard -/
  unvoiced : Finset String := ∅
  /-- by the ask's event -/
  asking : Dict Nat Ask := .empty
  /-- by the message that carries the ask -/
  voicing : Dict String Ask := .empty
  /-- the last turn, and whether it spoke -/
  turn : Option (Nat × Bool) := none

def Ledger.state (l : Ledger) (key : String) : Option State := (l.needs.get? key).map Need.state

def needOf (needs : Dict String Need) (key : String) : Need :=
  (needs.get? key).getD { key, state := .pending }

def setNeeds (keys : List String) (change : String → Need → Need) (needs : Dict String Need) :
    Dict String Need :=
  keys.foldl (fun needs k => needs.set k (change k (needOf needs k))) needs

def spoke (items : List ItemKind) : Bool := items.contains .speech

/-- The voicing cites the last turn, and it spoke. -/
def heard (l : Ledger) (voiced : Event) : Bool :=
  match l.turn, voiced.causes.head? with
  | some turn, some cause => turn = (cause, true)
  | _, _ => false

/-- A new ask: its keys are pending again, its voicing still to come. -/
def asked (l : Ledger) (e : Event) (keys : List String) : Ledger :=
  if keys = [] then { l with keyless := l.keyless + 1 }
  else
    let change := fun (k : String) (need : Need) =>
      { need with
        state := .pending
        asks := (needOf l.needs k).asks + 1
        askedSeq := some e.seq
        askedMs := some e.tMs
        voicedSeq := none
        repliedSeq := none }
    { l with
      needs := setNeeds keys change l.needs
      unvoiced := l.unvoiced \ keys.toFinset
      asking := l.asking.set e.seq ⟨e.seq, keys.map fun k => (k, l.needs.get? k)⟩ }

/-- The need still waits for this ask. -/
def Need.waitsFor (need : Need) (seq : Nat) : Bool :=
  need.askedSeq = some seq && need.state = .pending

/-- Of an ask's keys, those that still wait for it. -/
def mine (l : Ledger) (ask : Ask) : List (String × Option Need) :=
  ask.before.filter fun (k, _) => (l.needs.get? k).any (·.waitsFor ask.seq)

def restored (before : List (String × Option Need)) (needs : Dict String Need) : Dict String Need :=
  before.foldl (fun needs (k, b) =>
    match b with
    | some need => needs.set k need
    | none => needs.erase k) needs

def voiced (l : Ledger) (e : Event) (msgId : String) (ask : Ask) : Ledger :=
  let mine := mine l ask
  let l := { l with voicing := l.voicing.erase msgId }
  if heard l e then
    let change := fun (_ : String) (need : Need) => { need with voicedSeq := some e.seq }
    { l with needs := setNeeds (mine.map Prod.fst) change l.needs }
  else
    -- never heard: as before the ask
    { l with needs := restored mine l.needs, unvoiced := l.unvoiced ∪ (mine.map Prod.fst).toFinset }

def step (l : Ledger) (e : Event) : Ledger :=
  match e.cue with
  | .slowTool .. =>
    match e.asks with
    | some keys => asked l e keys
    | none => l
  | .s2fMsg msgId =>
    match e.causes.head? with
    | some cause =>
      match l.asking.get? cause with
      | some ask => { l with
          asking := l.asking.erase cause, voicing := l.voicing.set msgId ask }
      | none => l
    | none => l
  | .fastTurn items => { l with turn := some (e.seq, spoke items) }
  | .s2fVoiced msgId =>
    match l.voicing.get? msgId with
    | some ask => voiced l e msgId ask
    | none => l
  | .userMsg =>
    let voiced := (l.needs.entries.filter fun (_, x) =>
      x.state = .pending && x.voicedSeq.getD 0 ≠ 0).map Prod.fst
    let change := fun (_ : String) (need : Need) =>
      { need with state := .replied, repliedSeq := some e.seq }
    { l with needs := setNeeds voiced change l.needs }
  | .factRecorded key =>
    let change := fun (_ : String) (need : Need) =>
      { need with state := .answered, answeredSeq := some e.seq }
    { l with unvoiced := l.unvoiced \ {key}, needs := setNeeds [key] change l.needs }
  | .chanHold reason => if reason.isSome then { l with holds := l.holds + 1 } else l
  | .other => l

def fold (events : List Event) : Ledger := events.foldl step {}

/-! ## Denials -/

/-- `ask_denial`: at most one ask of a key while it is pending. -/
def askDenial (l : Ledger) (keys : List String) : Option String :=
  let waiting := keys.filter fun k => l.state k = some .pending
  if waiting = [] then none
  else some ("already asked, waiting for the user: " ++ ", ".intercalate waiting ++
    "; ask again once the status bar shows it replied, or ask only for other keys")

/-- `start_denial`: each missing key was asked, and the user has replied since. -/
def startDenial (l : Ledger) (missing : List String) : Option String :=
  let unasked := missing.filter fun k => l.state k = none
  let waiting := missing.filter fun k => l.state k = some .pending
  if unasked ≠ [] then
    some ("not asked yet: " ++ ", ".intercalate unasked ++ "; ask_user for them with keys first")
  else if waiting ≠ [] then
    some ("no reply from the user yet for " ++ ", ".intercalate waiting ++ "; wait for it")
  else none

/-- An event that the kernel may write: no ask of a pending key, and no message id twice. -/
def Allowed (log : List Event) (e : Event) : Prop :=
  match e.cue with
  | .slowTool name ok keys => name = "ask_user" → ok = true → askDenial (fold log) keys = none
  | .s2fMsg msgId => ∀ e' ∈ log, e'.cue ≠ .s2fMsg msgId
  | _ => True

/-- The logs the kernel can write. -/
inductive Written : List Event → Prop
  | start : Written []
  | write {log : List Event} {e : Event} : Written log → e.seq = log.length → Allowed log e →
      Written (log ++ [e])

/-! ## What a step does to a key's need -/

theorem get?_setNeeds (change : String → Need → Need)
    (idem : ∀ k x, change k (change k x) = change k x) (keys : List String) :
    ∀ (needs : Dict String Need) (k : String), (setNeeds keys change needs).get? k =
      if k ∈ keys then some (change k (needOf needs k)) else needs.get? k := by
  induction keys with
  | nil => exact fun _ _ => rfl
  | cons j keys ih =>
    intro needs k
    have rest := ih (needs.set j (change j (needOf needs j))) k
    rw [show setNeeds (j :: keys) change needs =
      setNeeds keys change (needs.set j (change j (needOf needs j))) from rfl, rest]
    by_cases same : k = j
    · subst same
      rw [Dict.get?_set_self, if_pos List.mem_cons_self]
      split
      · rw [needOf, Dict.get?_set_self, Option.getD_some, idem]
      · rfl
    · rw [needOf, Dict.get?_set_ne _ same, ← needOf]
      simp only [List.mem_cons, same, false_or]

theorem get?_restored {f : String → Option Need} (before : List (String × Option Need)) :
    (∀ p ∈ before, p.2 = f p.1) → ∀ (needs : Dict String Need) (k : String),
      (restored before needs).get? k =
        if k ∈ before.map Prod.fst then f k else needs.get? k := by
  induction before with
  | nil => exact fun _ _ _ => rfl
  | cons p before ih =>
    intro all needs k
    obtain ⟨head, later⟩ := List.forall_mem_cons.mp all
    obtain ⟨j, b⟩ := p
    have one : ∀ needs : Dict String Need, (restored [(j, b)] needs).get? k =
        if k = j then b else needs.get? k := by
      intro needs
      cases b with
      | some need => exact Dict.get?_set needs j k need
      | none => exact Dict.get?_erase needs j k
    rw [show restored ((j, b) :: before) needs = restored before (restored [(j, b)] needs) from rfl,
      ih later, one, List.map_cons]
    simp only [List.mem_cons]
    by_cases among : k ∈ before.map Prod.fst
    · rw [if_pos among, if_pos (Or.inr among)]
    · rw [if_neg among]
      by_cases same : k = j
      · rw [if_pos same, if_pos (Or.inl same), same]
        exact head
      · rw [if_neg same, if_neg (by tauto)]

def Asks (k : String) (e : Event) : Prop := ∃ keys, e.asks = some keys ∧ k ∈ keys

def Records (k : String) (e : Event) : Prop := e.cue = .factRecorded k

inductive Moved (l : Ledger) (e : Event) (k : String) : Option Need → Option Need → Prop
  | asked (o : Option Need) (need : Need) : Asks k e → need.state = .pending →
      need.askedSeq = some e.seq → need.voicedSeq = none → Moved l e k o (some need)
  | voiced (msgId : String) (ask : Ask) (b : Option Need) (need : Need) :
      e.cue = .s2fVoiced msgId → l.voicing.get? msgId = some ask → (k, b) ∈ ask.before →
      need.waitsFor ask.seq = true → heard l e = true →
      Moved l e k (some need) (some { need with voicedSeq := some e.seq })
  | undone (msgId : String) (ask : Ask) (b : Option Need) (need : Need) :
      e.cue = .s2fVoiced msgId → l.voicing.get? msgId = some ask → (k, b) ∈ ask.before →
      need.waitsFor ask.seq = true → heard l e = false → Moved l e k (some need) b
  | replied (need : Need) (v : Nat) : e.cue = .userMsg → need.state = .pending →
      need.voicedSeq = some v →
      Moved l e k (some need) (some { need with state := .replied, repliedSeq := some e.seq })
  | answered (o : Option Need) : Records k e →
      Moved l e k o (some { o.getD { key := k, state := .pending } with
        state := .answered, answeredSeq := some e.seq })
  | still (o : Option Need) : ¬ Asks k e → ¬ Records k e → Moved l e k o o

theorem mem_mine {l : Ledger} {ask : Ask} {k : String} (h : k ∈ (mine l ask).map Prod.fst) :
    ∃ b need, (k, b) ∈ ask.before ∧ l.needs.get? k = some need ∧ need.waitsFor ask.seq = true := by
  obtain ⟨⟨k', b⟩, mem, rfl⟩ := List.mem_map.mp h
  obtain ⟨mem, waits⟩ := List.mem_filter.mp mem
  dsimp only at waits
  cases get : l.needs.get? k' with
  | none =>
    rw [get] at waits
    cases waits
  | some need =>
    rw [get] at waits
    exact ⟨b, need, mem, rfl, waits⟩

theorem moved (l : Ledger) (e : Event) (k : String)
    (snaps : ∀ msgId ask, l.voicing.get? msgId = some ask → ∃ f : String → Option Need,
      ∀ p ∈ ask.before, p.2 = f p.1) :
    Moved l e k (l.needs.get? k) ((step l e).needs.get? k) := by
  have unasked : (∀ name ok keys, e.cue ≠ .slowTool name ok keys) → ¬ Asks k e := by
    rintro other ⟨keys, asks, -⟩
    unfold Event.asks at asks
    split at asks
    · rename_i name ok keys hc
      exact other name ok keys hc
    · cases asks
  cases hc : e.cue with
  | slowTool name ok keys =>
    have unrecorded : ¬ Records k e := fun h => by
      rw [Records, hc] at h
      cases h
    cases ha : e.asks with
    | none =>
      have eq : step l e = l := by simp only [step, hc, ha]
      rw [eq]
      exact .still _ (fun ⟨_, asks, _⟩ => by rw [ha] at asks; cases asks) unrecorded
    | some keys =>
      have eq : step l e = asked l e keys := by simp only [step, hc, ha]
      rw [eq, asked]
      by_cases none_ : keys = []
      · rw [if_pos none_]
        refine .still _ ?_ unrecorded
        rintro ⟨keys', asks, mem⟩
        rw [ha] at asks
        cases asks
        rw [none_] at mem
        cases mem
      · rw [if_neg none_]
        dsimp only
        rw [get?_setNeeds _ (by exact fun _ _ => rfl)]
        by_cases mem : k ∈ keys
        · rw [if_pos mem]
          exact .asked _ _ ⟨keys, ha, mem⟩ rfl rfl rfl
        · rw [if_neg mem]
          refine .still _ ?_ unrecorded
          rintro ⟨keys', asks, mem'⟩
          rw [ha] at asks
          cases asks
          exact mem mem'
  | s2fMsg msgId =>
    have eq : (step l e).needs = l.needs := by
      simp only [step, hc]
      split
      · split <;> rfl
      · rfl
    rw [eq]
    exact .still _ (unasked (by simp [hc])) (by simp [Records, hc])
  | fastTurn items =>
    have eq : (step l e).needs = l.needs := by simp only [step, hc]
    rw [eq]
    exact .still _ (unasked (by simp [hc])) (by simp [Records, hc])
  | s2fVoiced msgId =>
    have still : Moved l e k (l.needs.get? k) (l.needs.get? k) :=
      .still _ (unasked (by simp [hc])) (by simp [Records, hc])
    cases hv : l.voicing.get? msgId with
    | none =>
      have eq : step l e = l := by simp only [step, hc, hv]
      rw [eq]
      exact still
    | some ask =>
      have eq : step l e = voiced l e msgId ask := by simp only [step, hc, hv]
      obtain ⟨f, snap⟩ := snaps msgId ask hv
      have same : heard { l with voicing := l.voicing.erase msgId } e = heard l e := rfl
      rw [eq, voiced]
      dsimp only
      rw [same]
      by_cases hh : heard l e = true
      · rw [if_pos hh]
        dsimp only
        rw [get?_setNeeds _ (by exact fun _ _ => rfl)]
        by_cases mem : k ∈ (mine l ask).map Prod.fst
        · obtain ⟨b, need, before, get, waits⟩ := mem_mine mem
          rw [if_pos mem, needOf, get]
          exact .voiced msgId ask b need hc hv before waits hh
        · rw [if_neg mem]
          exact still
      · rw [if_neg hh]
        dsimp only
        have mineSnap : ∀ p ∈ mine l ask, p.2 = f p.1 := fun p hp =>
          snap p (List.mem_of_mem_filter hp)
        rw [get?_restored _ mineSnap]
        by_cases mem : k ∈ (mine l ask).map Prod.fst
        · obtain ⟨b, need, before, get, waits⟩ := mem_mine mem
          rw [if_pos mem, get, ← snap _ before]
          exact .undone msgId ask b need hc hv before waits (Bool.not_eq_true _ ▸ hh)
        · rw [if_neg mem]
          exact still
  | userMsg =>
    simp only [step, hc]
    rw [get?_setNeeds _ (by exact fun _ _ => rfl)]
    by_cases mem : k ∈ (l.needs.entries.filter fun (_, x) =>
        x.state = .pending && x.voicedSeq.getD 0 ≠ 0).map Prod.fst
    · obtain ⟨⟨k', need⟩, entry, rfl⟩ := List.mem_map.mp mem
      obtain ⟨entry, cond⟩ := List.mem_filter.mp entry
      have get : l.needs.get? k' = some need := Dict.get?_eq_some.mpr entry
      simp only [Bool.and_eq_true, decide_eq_true_eq] at cond
      rw [if_pos mem, needOf, get]
      cases hv : need.voicedSeq with
      | none =>
        rw [hv] at cond
        exact absurd rfl cond.2
      | some v => exact .replied need v hc cond.1 hv
    · rw [if_neg mem]
      exact .still _ (unasked (by simp [hc])) (by simp [Records, hc])
  | factRecorded key =>
    simp only [step, hc]
    rw [get?_setNeeds _ (by exact fun _ _ => rfl)]
    by_cases same : k = key
    · rw [if_pos (List.mem_singleton.mpr same)]
      exact .answered _ (by rw [Records, hc, same])
    · rw [if_neg (fun mem => same (List.mem_singleton.mp mem))]
      exact .still _ (unasked (by simp [hc])) (by simp [Records, hc, Ne.symm same])
  | chanHold reason =>
    have eq : (step l e).needs = l.needs := by
      simp only [step, hc]
      split <;> rfl
    rw [eq]
    exact .still _ (unasked (by simp [hc])) (by simp [Records, hc])
  | other =>
    simp only [step, hc]
    exact .still _ (unasked (by simp [hc])) (by simp [Records, hc])

/-- An unheard voicing gives a key that still waits its need before the ask. -/
theorem get?_undone {l : Ledger} {e : Event} {msgId k : String} {ask : Ask} {b : Option Need}
    {need : Need} {f : String → Option Need} (hc : e.cue = .s2fVoiced msgId)
    (hv : l.voicing.get? msgId = some ask) (snap : ∀ p ∈ ask.before, p.2 = f p.1)
    (before : (k, b) ∈ ask.before) (get : l.needs.get? k = some need)
    (waits : need.waitsFor ask.seq = true) (unheard : heard l e = false) :
    (step l e).needs.get? k = b := by
  have eq : step l e = voiced l e msgId ask := by simp only [step, hc, hv]
  have same : heard { l with voicing := l.voicing.erase msgId } e = heard l e := rfl
  have mem : (k, b) ∈ mine l ask := by
    refine List.mem_filter.mpr ⟨before, ?_⟩
    dsimp only
    rw [get]
    exact waits
  have mineSnap : ∀ p ∈ mine l ask, p.2 = f p.1 := fun p hp => snap p (List.mem_of_mem_filter hp)
  rw [eq, voiced]
  dsimp only
  rw [same, unheard, if_neg Bool.false_ne_true]
  dsimp only
  rw [get?_restored _ mineSnap, if_pos (List.mem_map.mpr ⟨_, mem, rfl⟩), ← snap _ before]

def Carries (a : Nat) (msgId : String) (e : Event) : Prop :=
  e.causes.head? = some a ∧ e.cue = .s2fMsg msgId

def Voices (msgId : String) (e : Event) : Prop := e.cue = .s2fVoiced msgId

theorem cue_of_asks {e : Event} {keys : List String} (asks : e.asks = some keys) :
    ∃ name ok raw, e.cue = .slowTool name ok raw := by
  unfold Event.asks at asks
  split at asks
  · rename_i name ok raw hc
    exact ⟨name, ok, raw, hc⟩
  · cases asks

theorem asking_step (l : Ledger) (e : Event) (a : Nat) :
    (∃ keys, e.asks = some keys ∧ keys ≠ [] ∧ e.seq = a ∧
      (step l e).asking.get? a = some ⟨a, keys.map fun k => (k, l.needs.get? k)⟩) ∨
    (∃ msgId, Carries a msgId e ∧ (step l e).asking.get? a = none) ∨
    (∀ msgId, ¬ Carries a msgId e) ∧ (∀ keys, e.asks = some keys → keys ≠ [] → e.seq ≠ a) ∧
      (step l e).asking.get? a = l.asking.get? a := by
  have other : (step l e).asking = l.asking → (∀ msgId, e.cue ≠ .s2fMsg msgId) →
      (∀ keys, e.asks = some keys → keys = []) → (∀ msgId, ¬ Carries a msgId e) ∧
      (∀ keys, e.asks = some keys → keys ≠ [] → e.seq ≠ a) ∧
      (step l e).asking.get? a = l.asking.get? a :=
    fun eq unsent unasked => ⟨fun msgId h => unsent msgId h.2,
      fun keys asks some_ => absurd (unasked keys asks) some_, by rw [eq]⟩
  have unasked : (∀ name ok keys, e.cue ≠ .slowTool name ok keys) →
      ∀ keys, e.asks = some keys → keys = [] := fun quiet keys asks => by
    obtain ⟨name, ok, raw, hc⟩ := cue_of_asks asks
    exact absurd hc (quiet name ok raw)
  cases hc : e.cue with
  | slowTool name ok keys =>
    rcases Option.eq_none_or_eq_some e.asks with ha | ⟨keys, ha⟩
    · refine Or.inr (Or.inr (other (by simp only [step, hc, ha]) (by simp [hc]) fun keys asks => ?_))
      rw [ha] at asks
      cases asks
    · have eq : step l e = asked l e keys := by simp only [step, hc, ha]
      by_cases none_ : keys = []
      · refine Or.inr (Or.inr (other (by rw [eq, asked, if_pos none_]) (by simp [hc]) ?_))
        intro keys' asks
        rw [← Option.some.inj (ha.symm.trans asks)]
        exact none_
      · rw [eq, asked, if_neg none_]
        dsimp only
        by_cases here_ : e.seq = a
        · exact Or.inl ⟨keys, ha, none_, here_, by rw [here_, Dict.get?_set_self]⟩
        · exact Or.inr (Or.inr ⟨fun msgId h => (by rw [h.2] at hc; cases hc), fun _ _ _ => here_,
            Dict.get?_set_ne _ (Ne.symm here_) _⟩)
  | s2fMsg msgId =>
    by_cases cites : e.causes.head? = some a
    · refine Or.inr (Or.inl ⟨msgId, ⟨cites, hc⟩, ?_⟩)
      simp only [step, hc, cites]
      cases get : l.asking.get? a with
      | none => exact get
      | some ask => exact Dict.get?_erase_self _ _
    · refine Or.inr (Or.inr ⟨fun _ h => cites h.1,
        fun keys asks some_ => absurd (unasked (by simp [hc]) keys asks) some_, ?_⟩)
      simp only [step, hc]
      split
      · rename_i cause hcause
        split
        · exact Dict.get?_erase_ne _ (fun same => cites (same ▸ hcause))
        · rfl
      · rfl
  | s2fVoiced msgId =>
    refine Or.inr (Or.inr (other ?_ (by simp [hc]) (unasked (by simp [hc]))))
    simp only [step, hc]
    split
    · unfold voiced
      dsimp only
      split <;> rfl
    · rfl
  | fastTurn items =>
    exact Or.inr (Or.inr (other (by simp only [step, hc]) (by simp [hc]) (unasked (by simp [hc]))))
  | userMsg =>
    exact Or.inr (Or.inr (other (by simp only [step, hc]) (by simp [hc]) (unasked (by simp [hc]))))
  | factRecorded key =>
    exact Or.inr (Or.inr (other (by simp only [step, hc]) (by simp [hc]) (unasked (by simp [hc]))))
  | chanHold reason =>
    refine Or.inr (Or.inr (other ?_ (by simp [hc]) (unasked (by simp [hc]))))
    simp only [step, hc]
    split <;> rfl
  | other =>
    exact Or.inr (Or.inr (other (by simp only [step, hc]) (by simp [hc]) (unasked (by simp [hc]))))

theorem voicing_step (l : Ledger) (e : Event) (msgId : String) :
    (∃ a ask, Carries a msgId e ∧ l.asking.get? a = some ask ∧
      (step l e).voicing.get? msgId = some ask) ∨
    (Voices msgId e ∧ (step l e).voicing.get? msgId = none) ∨
    ¬ Voices msgId e ∧ (∀ a, Carries a msgId e → l.asking.get? a = none) ∧
      (step l e).voicing.get? msgId = l.voicing.get? msgId := by
  have other : (step l e).voicing = l.voicing → (∀ msgId, e.cue ≠ .s2fMsg msgId) →
      (∀ msgId, e.cue ≠ .s2fVoiced msgId) → ¬ Voices msgId e ∧
      (∀ a, Carries a msgId e → l.asking.get? a = none) ∧
      (step l e).voicing.get? msgId = l.voicing.get? msgId :=
    fun eq unsent unvoiced =>
      ⟨unvoiced msgId, fun a h => absurd h.2 (unsent msgId), by rw [eq]⟩
  cases hc : e.cue with
  | slowTool name ok keys =>
    refine Or.inr (Or.inr (other ?_ (by simp [hc]) (by simp [hc])))
    simp only [step, hc]
    split
    · unfold asked
      split <;> rfl
    · rfl
  | s2fMsg id =>
    by_cases same : id = msgId
    · subst same
      cases hcause : e.causes.head? with
      | none =>
        refine Or.inr (Or.inr ⟨by simp [Voices, hc], fun a h => ?_, by simp only [step, hc, hcause]⟩)
        rw [h.1] at hcause
        cases hcause
      | some a =>
        cases get : l.asking.get? a with
        | none =>
          refine Or.inr (Or.inr ⟨by simp [Voices, hc], fun a' h => ?_,
            by simp only [step, hc, hcause, get]⟩)
          obtain rfl : a' = a := Option.some.inj (h.1.symm.trans hcause)
          exact get
        | some ask =>
          refine Or.inl ⟨a, ask, ⟨hcause, hc⟩, get, ?_⟩
          simp only [step, hc, hcause, get, Dict.get?_set_self]
    · refine Or.inr (Or.inr ⟨by simp [Voices, hc], fun a h => ?_, ?_⟩)
      · exact absurd (Cue.s2fMsg.inj (hc.symm.trans h.2)) same
      · simp only [step, hc]
        split
        · split
          · exact Dict.get?_set_ne _ (Ne.symm same) _
          · rfl
        · rfl
  | s2fVoiced id =>
    have kept : ∀ ask, (voiced l e id ask).voicing = l.voicing.erase id := by
      intro ask
      unfold voiced
      dsimp only
      split <;> rfl
    by_cases same : id = msgId
    · subst same
      refine Or.inr (Or.inl ⟨hc, ?_⟩)
      simp only [step, hc]
      cases get : l.voicing.get? id with
      | none => exact get
      | some ask =>
        dsimp only
        rw [kept, Dict.get?_erase_self]
    · refine Or.inr (Or.inr ⟨fun h => same (Cue.s2fVoiced.inj (hc.symm.trans h)),
        fun a h => (by rw [h.2] at hc; cases hc), ?_⟩)
      simp only [step, hc]
      split
      · rw [kept]
        exact Dict.get?_erase_ne _ (Ne.symm same)
      · rfl
  | fastTurn items =>
    exact Or.inr (Or.inr (other (by simp only [step, hc]) (by simp [hc]) (by simp [hc])))
  | userMsg => exact Or.inr (Or.inr (other (by simp only [step, hc]) (by simp [hc]) (by simp [hc])))
  | factRecorded key =>
    exact Or.inr (Or.inr (other (by simp only [step, hc]) (by simp [hc]) (by simp [hc])))
  | chanHold reason =>
    refine Or.inr (Or.inr (other ?_ (by simp [hc]) (by simp [hc])))
    simp only [step, hc]
    split <;> rfl
  | other => exact Or.inr (Or.inr (other (by simp only [step, hc]) (by simp [hc]) (by simp [hc])))

theorem turn_step (l : Ledger) (e : Event) :
    (∃ items, e.cue = .fastTurn items ∧ (step l e).turn = some (e.seq, spoke items)) ∨
    (∀ items, e.cue ≠ .fastTurn items) ∧ (step l e).turn = l.turn := by
  cases hc : e.cue with
  | fastTurn items => exact Or.inl ⟨items, rfl, by simp only [step, hc]⟩
  | slowTool name ok keys =>
    refine Or.inr ⟨by simp, ?_⟩
    simp only [step, hc]
    split
    · unfold asked
      split <;> rfl
    · rfl
  | s2fMsg id =>
    refine Or.inr ⟨by simp, ?_⟩
    simp only [step, hc]
    split
    · split <;> rfl
    · rfl
  | s2fVoiced id =>
    refine Or.inr ⟨by simp, ?_⟩
    simp only [step, hc]
    split
    · unfold voiced
      dsimp only
      split <;> rfl
    · rfl
  | userMsg => exact Or.inr ⟨by simp, by simp only [step, hc]⟩
  | factRecorded key => exact Or.inr ⟨by simp, by simp only [step, hc]⟩
  | chanHold reason =>
    refine Or.inr ⟨by simp, ?_⟩
    simp only [step, hc]
    split <;> rfl
  | other => exact Or.inr ⟨by simp, by simp only [step, hc]⟩

end ProxyLoop.Needs

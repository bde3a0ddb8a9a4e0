import ProxyLoop.Core.History
import ProxyLoop.Slow.Authority
import ProxyLoop.Slow.RecordOffer

/-!
# Tightening a mandate only restricts

`tighten_mandate` from the changes Slow sends, and what its effects do to the board: what the new
mandate covers, the old one covered, and from the bump to the user's decision nothing older grants.
-/

namespace ProxyLoop

open Lib (Dict)

/-! ## The changes Slow sends -/

/-- A JSON value of an envelope; the items of a list are text, or another. -/
inductive RawBound
  | null
  | int (n : Int)
  | list (items : List RawValue)
  | other (repr : String)

def boundKeys : List String :=
  ["max_monthly_price_minor", "max_term_months", "max_one_time_fees_minor"]

def listKeys : List String := ["required_features", "forbidden_changes"]

def RawBound.number : RawBound → Except PyError (Option Int)
  | .null => .ok none
  | .int n => if n < 0 then .error .value else .ok (some n)
  | _ => .error .value

def RawValue.name : RawValue → Except PyError String
  | .text s => if s = "" then .error .value else .ok s
  | .other _ => .error .value

/-- A list of names, sorted; absent and empty are no change. -/
def RawBound.names : RawBound → Except PyError (List String)
  | .null => .ok []
  | .list items => do return sortedStrings (← items.mapM RawValue.name).dedup
  | _ => .error .value

/-- `_envelope`: a malformed field is refused, never dropped. -/
def envelopeOf (raw : Dict String RawBound) : Except PyError Envelope := do
  let get (key : String) := (raw.get? key).getD .null
  if raw.keys.any fun k => !(boundKeys ++ listKeys).contains k then throw .value
  return {
    maxMonthlyPriceMinor := ← (get "max_monthly_price_minor").number
    maxTermMonths := ← (get "max_term_months").number
    maxOneTimeFeesMinor := ← (get "max_one_time_fees_minor").number
    requiredFeatures := ← (get "required_features").names
    forbiddenChanges := ← (get "forbidden_changes").names }

/-- `tighten_mandate` of the changes as sent. -/
def tightenTool (py : Runtime) (bb : Blackboard) (raw : Dict String RawBound) (mid : String) : Result :=
  match envelopeOf raw with
  | .ok changes => tightenMandate py bb changes mid
  | .error _ => invalidArgs

/-! ## The tighter envelope -/

section

variable {py : Runtime} {log : List Event} {bb b : Blackboard} {m m' : Mandate} {changes : Envelope}
  {t : Terms} {n : Nat}

theorem mem_joined {kept more : List String} {x : String} :
    x ∈ joined kept more ↔ x ∈ kept ∨ x ∈ more := by
  unfold joined sortedStrings
  rw [(List.perm_insertionSort ..).mem_iff, List.mem_dedup, List.mem_append]

/-- A bound that is not looser is met only by what met the old one. -/
theorem le_of_tighter {was v : Option Int} (tight : looser was v = false) {value : Int}
    (met : ∀ x, (v <|> was) = some x → value ≤ x) : ∀ x, was = some x → value ≤ x := by
  rintro x rfl
  cases v with
  | none => exact met x rfl
  | some y =>
    have le := met y rfl
    simp only [looser, decide_eq_false_iff_not] at tight
    omega

theorem loosened_eq_nil (h : loosened m changes = []) :
    looser m.maxMonthlyPriceMinor changes.maxMonthlyPriceMinor = false ∧
      looser m.maxTermMonths changes.maxTermMonths = false ∧
      looser m.maxOneTimeFeesMinor changes.maxOneTimeFeesMinor = false := by
  simpa [loosened, and_assoc] using h

/-- The tighter mandate's bounds are within the old one's, and it keeps its lists. -/
theorem tightened_spec (tight : loosened m changes = []) (own : m'.envelope = tightened m changes) :
    (∀ t, withinBounds m' t → withinBounds m t) ∧ keepsLists m m' := by
  simp only [Mandate.envelope, tightened, Envelope.mk.injEq] at own
  obtain ⟨monthly, term, fees, features, forbidden⟩ := own
  obtain ⟨monthly', term', fees'⟩ := loosened_eq_nil tight
  constructor
  · rintro t ⟨price, months, sum⟩
    rw [monthly] at price
    rw [term] at months
    rw [fees] at sum
    exact ⟨le_of_tighter monthly' price, le_of_tighter term' months, le_of_tighter fees' sum⟩
  · unfold keepsLists
    rw [features, forbidden]
    exact ⟨fun f hf => mem_joined.mpr (Or.inl hf), fun c hc => mem_joined.mpr (Or.inl hc)⟩

/-! ## Grants of an older epoch -/

/-- Nothing the board records is of a later epoch. -/
structure EpochLaw (b : Blackboard) : Prop where
  mandate : ∀ m, b.priv.mandate = some m → m.epoch ≤ b.epoch
  approvals : ∀ id a, b.priv.approvals.get? id = some a → a.authorityEpoch ≤ b.epoch

theorem EpochLaw.apply {e : Event} {b' : Blackboard} (law : EpochLaw b) (h : apply b e = .ok b') :
    EpochLaw b' := by
  obtain ⟨c, hc, rfl⟩ := change_of_apply h
  cases hc with
  | quiet hp same =>
    constructor
    · intro m hm
      exact (law.mandate m (same.mandate ▸ hm)).trans same.epoch.ge
    · intro id a ha
      exact (law.approvals id a (same.approvals ▸ ha)).trans same.epoch.ge
  | epoch bump hp forward =>
    constructor
    · intro m hm
      obtain ⟨m', hm', rfl⟩ := Option.map_eq_some_iff.mp hm
      have := law.mandate m' hm'
      split
      · exact Nat.le_refl _
      · show m'.epoch ≤ bump.new
        omega
    · intro id a ha
      exact (law.approvals id a ha).trans forward.le
  | proposed p hp epoch =>
    refine ⟨fun m hm => ?_, law.approvals⟩
    cases hm
    exact epoch.le
  | mandate d m hp found id hash undecided epoch =>
    refine ⟨fun m hm => ?_, law.approvals⟩
    cases hm
    exact epoch.le
  | decided d card hp pending id current epoch live =>
    refine ⟨law.mandate, fun k a ha => ?_⟩
    have ha : (b.priv.approvals.set d.approvalId (approvalOf card d)).get? k = some a := ha
    rw [Dict.get?_set] at ha
    split at ha
    · cases ha
      exact epoch.le
    · exact law.approvals k a ha
  | _ => exact ⟨law.mandate, law.approvals⟩

theorem epochLaw_of_fold (h : fold log = .ok b) : EpochLaw b :=
  fold_invariant h ⟨nofun, nofun⟩ fun law ha => law.apply ha

/-- The epoch is past `n`, and no granted mandate or decided card is of a later one. -/
structure Older (n : Nat) (b : Blackboard) : Prop where
  law : CapabilityLaw b
  past : n < b.epoch
  mandate : ∀ m, b.priv.mandate = some m → m.status = .granted → m.epoch ≤ n
  approvals : ∀ id a, b.priv.approvals.get? id = some a → a.authorityEpoch ≤ n

/-- Only a decision ends that. -/
theorem Older.apply {e : Event} {b' : Blackboard} (older : Older n b) (undecided : e.isDecision = false)
    (h : apply b e = .ok b') : Older n b' := by
  have law := older.law.apply h
  obtain ⟨c, hc, rfl⟩ := change_of_apply h
  cases hc with
  | quiet hp same =>
    refine ⟨law, ?_, ?_, ?_⟩
    · exact older.past.trans_le same.epoch.ge
    · exact fun m hm => older.mandate m (same.mandate ▸ hm)
    · exact fun id a ha => older.approvals id a (same.approvals ▸ ha)
  | epoch bump hp forward =>
    refine ⟨law, older.past.trans forward, fun m hm granted => ?_, older.approvals⟩
    obtain ⟨m', hm', rfl⟩ := Option.map_eq_some_iff.mp hm
    split at granted
    · rename_i carried
      have := older.mandate m' hm' granted
      have := older.past
      omega
    · rename_i still
      rw [if_neg still]
      exact older.mandate m' hm' granted
  | proposed p hp epoch =>
    refine ⟨law, older.past, fun m hm granted => ?_, older.approvals⟩
    cases hm
    rw [p.proposed.1] at granted
    cases granted
  | mandate d m hp =>
    rw [Event.isDecision, hp] at undecided
    cases undecided
  | decided d card hp =>
    rw [Event.isDecision, hp] at undecided
    cases undecided
  | _ => exact ⟨law, older.past, older.mandate, older.approvals⟩

/-- Nothing is granted, and no capability of an epoch up to `n` is released. -/
structure Barred (n : Nat) (b : Blackboard) : Prop where
  uncovered : ∀ t tMs, mandateGap b.priv.mandate b.epoch tMs t ≠ none
  ungranted : ∀ o t g, grantOf b o t ≠ .ok g
  unreleased : ∀ e b' id cap, apply b e = .ok b' → e.releases id →
    b.capabilities.get? id = some cap → n < cap.epoch

theorem Older.barred (older : Older n b) : Barred n b := by
  have uncovered : ∀ t tMs, mandateGap b.priv.mandate b.epoch tMs t ≠ none := by
    intro t tMs none_
    obtain ⟨m, found, granted, epoch, -⟩ := mandateGap_eq_none.mp none_
    have := older.mandate m found granted
    have := older.past
    omega
  refine ⟨uncovered, fun o t g granted => ?_, fun e b' id cap ha rel found => ?_⟩
  · cases (grantOf_eq_ok granted).2 with
    | mandate m found status epoch =>
      have := older.mandate m found status
      have := older.past
      omega
    | approval a mem hash epoch =>
      obtain ⟨id, found⟩ := Dict.mem_values.mp mem
      have := older.approvals id a found
      have := older.past
      omega
  · obtain ⟨_, _, _, ok, -⟩ := release_spec older.law ha rel
    cases found.symm.trans ok.found
    exact older.past.trans_eq ok.epoch.symm

/-! ## The limits in force -/

/-- The mandate in force ends no later than `m`, covers nothing that `m` does not, and frees nothing
that `m` forbids. -/
structure Tighter (m : Mandate) (b : Blackboard) : Prop where
  expires : ∃ m', b.priv.mandate = some m' ∧
    ∀ x, m.expiresMs = some x → ∃ y, m'.expiresMs = some y ∧ y ≤ x
  covers : ∀ t tMs, mandateGap b.priv.mandate b.epoch tMs t = none → withinBounds m t
  free : ∀ t, hardViolations t b.priv.mandate = [] → hardViolations t (some m) = []

theorem tighter_of_limits (tight : loosened m changes = []) (found : b.priv.mandate = some m')
    (own : m'.envelope = tightened m changes) (expires : m'.expiresMs = m.expiresMs) : Tighter m b := by
  obtain ⟨within, keeps⟩ := tightened_spec tight own
  constructor
  · exact ⟨m', found, fun x hx => ⟨x, expires.trans hx, Int.le_refl x⟩⟩
  · intro t tMs none_
    obtain ⟨_, found', -, -, -, bounds⟩ := mandateGap_eq_none.mp none_
    cases found.symm.trans found'
    exact within t bounds
  · intro t none_
    rw [found] at none_
    obtain ⟨lists, supported⟩ := hardViolations_eq_nil.mp none_
    refine hardViolations_eq_nil.mpr ⟨fun _ own bad => ?_, supported⟩
    cases own
    exact lists m' rfl (breaksLists_of_keepsLists keeps bad)

def Event.proposes (e : Event) : Bool :=
  match e.payload with
  | .mandateProposed _ => true
  | _ => false

/-- Until another mandate is proposed, the one in force has the limits of the last. -/
theorem limits_of_fold {es : List Event} {b' : Blackboard} (found : b.priv.mandate = some m)
    (h : fold es b = .ok b') (unproposed : es.all (!·.proposes) = true) :
    ∃ m', b'.priv.mandate = some m' ∧ SameLimits m m' := by
  refine fold_invariant_mem (I := fun c => ∃ m', c.priv.mandate = some m' ∧ SameLimits m m') h
    ⟨m, found, .refl m⟩ ?_
  rintro c e c' he ⟨m', found, same⟩ ha
  have unproposed : e.proposes = false := by simpa using List.all_eq_true.mp unproposed e he
  have move := mandateMove_of_apply ha
  generalize c'.priv.mandate = o at move ⊢
  cases move with
  | kept => exact ⟨m', found, same⟩
  | bumped was limits status =>
    cases found.symm.trans was
    exact ⟨_, rfl, same.trans limits⟩
  | proposed p hp =>
    rw [Event.proposes, hp] at unproposed
    cases unproposed
  | decided d m hp found' id hash undecided =>
    cases found.symm.trans found'
    exact ⟨_, rfl, same.trans ⟨rfl, rfl, rfl, rfl⟩⟩

/-! ## The tool -/

/-- What a call that tightens does: a bump and a proposal, which fold, whatever their stamps.  From
the bump, while the user decides nothing, nothing is granted; and whatever the user decides, the
proposal restricts. -/
def Restricts (bb : Blackboard) (m : Mandate) (effects : List Payload) : Prop :=
  ∃ bump p, effects = [.authorityEpoch bump, .mandateProposed p] ∧
    ∀ e₁ e₂ : Event, e₁.payload = .authorityEpoch bump → e₂.payload = .mandateProposed p →
      ∃ b₁ b₂, apply bb e₁ = .ok b₁ ∧ apply b₁ e₂ = .ok b₂ ∧
        (∀ es b, fold es b₁ = .ok b → es.all (!·.isDecision) = true → Barred bb.epoch b) ∧
        ∀ es b, fold es b₂ = .ok b → es.all (!·.proposes) = true → Tighter m b

/-- What a refused call does: at most the record of the denial, which leaves authority as it was. -/
def Refuses (bb : Blackboard) (effects : List Payload) : Prop :=
  (effects = [] ∨ ∃ reason, effects = [.actionDenied "tighten_mandate" reason]) ∧
    ∀ es, es.map Event.payload = effects → ∃ b, fold es bb = .ok b ∧ SameAuthority bb b

theorem refuses_nil : Refuses bb [] := by
  refine ⟨Or.inl rfl, fun es same => ?_⟩
  rw [List.map_eq_nil_iff.mp same]
  exact ⟨bb, rfl, .refl bb⟩

theorem refuses_denial (reason : String) :
    Refuses bb [.actionDenied "tighten_mandate" reason] := by
  refine ⟨Or.inr ⟨reason, rfl⟩, fun es same => ?_⟩
  obtain ⟨e, rfl, hp⟩ := List.map_eq_singleton_iff.mp same
  refine ⟨stamp bb e, ?_, ?_⟩
  · refine fold_cons.mpr ⟨_, ?_, rfl⟩
    rw [apply, reduce, hp]
    rfl
  · constructor <;> rfl

theorem restricts (law : EpochLaw bb) (caps : CapabilityLaw bb) (tight : loosened m changes = [])
    (mid : String) :
    Restricts bb m [.authorityEpoch (.next bb.epoch .tightenMandate),
      proposed py (bb.epoch + 1) mid (tightened m changes) m.expiresMs] := by
  refine ⟨_, _, rfl, fun e₁ e₂ h₁ h₂ => ?_⟩
  obtain ⟨b₁, bumped, epoch, priv⟩ :
      ∃ b₁, apply bb e₁ = .ok b₁ ∧ b₁.epoch = bb.epoch + 1 ∧ b₁.priv = bb.priv := by
    have kept : bumpedMandate bb (.next bb.epoch .tightenMandate) = bb.priv.mandate := by
      simp [bumpedMandate]
    refine ⟨stamp { bb with epoch := bb.epoch + 1 } e₁, ?_, rfl, rfl⟩
    rw [apply, reduce, h₁]
    simp only [epochBump, kept]
    rw [require, if_pos (Nat.lt_succ_self _)]
    rfl
  obtain ⟨b₂, folded, found⟩ : ∃ b₂, apply b₁ e₂ = .ok b₂ ∧
      b₂.priv.mandate = some (proposal py (bb.epoch + 1) mid (tightened m changes) m.expiresMs) := by
    refine ⟨stamp (withMandate b₁ (proposal py (bb.epoch + 1) mid (tightened m changes)
      m.expiresMs)) e₂, ?_, rfl⟩
    rw [apply, reduce, h₂]
    simp only [mandateProposed]
    rw [require, if_pos (show (proposal py (bb.epoch + 1) mid (tightened m changes) m.expiresMs).epoch =
      b₁.epoch from epoch.symm)]
    rfl
  refine ⟨b₁, b₂, bumped, folded, fun es b hf undecided => ?_, fun es b hf unproposed => ?_⟩
  · have older : Older bb.epoch b₁ := by
      refine ⟨caps.apply bumped, by omega, fun m hm _ => ?_, fun id a ha => ?_⟩
      · exact law.mandate m (priv ▸ hm)
      · exact law.approvals id a (priv ▸ ha)
    refine (fold_invariant_mem hf older fun he older ha => older.apply ?_ ha).barred
    simpa using List.all_eq_true.mp undecided _ he
  · obtain ⟨m', found', same⟩ := limits_of_fold found hf unproposed
    exact tighter_of_limits tight found' same.envelope same.expires

end

/-- `tighten_mandate` only restricts. -/
theorem tighten_restricts (py : Runtime) {log : List Event} {bb : Blackboard} {m : Mandate}
    (h : fold log = .ok bb) (own : bb.priv.mandate = some m) (raw : Dict String RawBound)
    (mid : String) :
    ((tightenTool py bb raw mid).ok = true → Restricts bb m (tightenTool py bb raw mid).effects) ∧
      ((tightenTool py bb raw mid).ok = false → Refuses bb (tightenTool py bb raw mid).effects) := by
  unfold tightenTool
  cases envelopeOf raw with
  | error err => exact ⟨nofun, fun _ => refuses_nil⟩
  | ok changes =>
    simp only [tightenMandate, own]
    split
    · exact ⟨nofun, fun _ => refuses_nil⟩
    · split
      · exact ⟨nofun, fun _ => refuses_denial _⟩
      · rename_i tight
        have tight : loosened m changes = [] := by simp at tight; exact tight.1
        exact ⟨fun _ => restricts (epochLaw_of_fold h) (capabilityLaw_of_fold h) tight mid, nofun⟩

/-! ## A sample call -/

namespace Tightened

def py : Runtime := ⟨fun text => text, fun _ => .error .value, .ok, fun _ => .error .value⟩

def limits : Mandate := proposal py 0 "mandate-1" { maxMonthlyPriceMinor := some 9000 }

def log : List Event :=
  [⟨"run", 0, 0, .guard, [], 0, .mandateProposed ⟨limits, rfl, rfl⟩⟩,
    ⟨"run", 1, 5, .kernel, [0], 0, .mandateDecided ⟨"mandate-1", limits.mandateHash, .granted, .ui⟩⟩,
    ⟨"run", 2, 5, .kernel, [1], 0, .authorityEpoch ⟨1, .mandateDecided, by decide⟩⟩]

def board : Blackboard :=
  match fold log with
  | .ok bb => bb
  | .error _ => {}

/-- At most $80, and a year. -/
def changes : Dict String RawBound :=
  ⟨[("max_monthly_price_minor", .int 8000), ("max_term_months", .int 12)], by
    show ["max_monthly_price_minor", "max_term_months"].Nodup
    decide⟩

theorem facts : (fold log).toOption.isSome = true ∧
    board.priv.mandate = some ((limits.decide .granted .ui).withEpoch 1) ∧
    (tightenTool py board changes "mandate-2").ok = true := by
  decide +kernel

theorem folds : fold log = .ok board := by
  have some_ := facts.1
  unfold board
  cases h : fold log with
  | ok bb => rfl
  | error err =>
    rw [h] at some_
    cases some_

end Tightened

theorem tighten_restricts_sample :
    (tightenTool Tightened.py Tightened.board Tightened.changes "mandate-2").ok = true ∧
      Restricts Tightened.board ((Tightened.limits.decide .granted .ui).withEpoch 1)
        (tightenTool Tightened.py Tightened.board Tightened.changes "mandate-2").effects := by
  obtain ⟨-, own, ok⟩ := Tightened.facts
  exact ⟨ok, (tighten_restricts Tightened.py Tightened.folds own Tightened.changes "mandate-2").1 ok⟩

end ProxyLoop

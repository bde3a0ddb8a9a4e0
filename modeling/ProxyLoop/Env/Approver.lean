import ProxyLoop.Guard.Authorize
import ProxyLoop.Slow.Recorded

/-!
# The simulated approver

It decides a card from the principal's limits: granted if the card shows every required slot, all
confirmed, with terms within the limits.  After a stop every decision is a denial; after a mind
change the changed facts are the limits.  The delay of its post, from a seeded stream, is left out.
-/

namespace ProxyLoop.Env

open Lib (Dict Regex)
open Slots (python)

/-! ## The principal -/

/-- Minor units and months; `none` is unbounded. -/
structure Bounds where
  monthlyMinor : Option Int := none
  termMonths : Option Int := none
  feesMinor : Option Int := none
  deriving DecidableEq

inductive Bound
  | maxMonthlyPriceUsd | maxTermMonths | maxOneTimeFeesUsd
  deriving DecidableEq, Repr

/-- `MONEY`: plain ASCII dollars. -/
def money (usd : String) : Bool :=
  let digit := Regex.set isDigit
  (Regex.seq (.plus digit) (.opt (.all [Text.char '.', digit, digit]))).fullmatch usd.toList

/-- Amounts in dollars, months. -/
structure Limits where
  maxMonthlyPriceUsd : Option String := none
  maxTermMonths : Option Int := none
  maxOneTimeFeesUsd : Option String := none

/-- `envelope` names the profile facts in which the user states their limits; `limits` are the
unstated ones, by default the envelope. -/
structure Principal where
  envelope : Dict Bound String
  limits : Option Limits := none

/-- `int(Decimal(usd) * 100)`, of at most 28 digits. -/
def minor (usd : String) : Int := (Text.decimalOf usd.toList * 100).floor

def bounds (l : Limits) : Bounds where
  monthlyMinor := l.maxMonthlyPriceUsd.map minor
  termMonths := l.maxTermMonths
  feesMinor := l.maxOneTimeFeesUsd.map minor

def isOver (bound : Option Int) (value : Int) : Bool := bound.any (· < value)

def violations (b : Bounds) (monthlyMinor termMonths feesMinor : Int) : List String :=
  (if isOver b.monthlyMinor monthlyMinor then ["monthly_price_over"] else []) ++
    (if isOver b.termMonths termMonths then ["term_months_over"] else []) ++
    (if isOver b.feesMinor feesMinor then ["one_time_fees_over"] else [])

/-- Required read-back fields absent from `fields`. -/
def missingRequired (fields : List String) : List String :=
  let kinds := fields.map fieldKind
  (["monthly_price", "term_months", "expires"].filter fun f => !fields.contains f) ++
    (if kinds.contains "fee" || fields.contains "fees_none" then [] else ["fee:*|fees_none"]) ++
    (if kinds.contains "applied_change" || fields.contains "changes_none" then [] else
      ["applied_change:*|changes_none"])

/-- The number of the one slot of a field; of a digit that is not decimal `int` raises a
`ValueError` too. -/
def slot (offer : OfferPublic) (field : String) (unit : SlotUnit) : Except PyError Int :=
  match offer.slots.filter (·.field = field) with
  | [s] =>
    if s.unit ≠ unit || s.value = "" || !s.value.toList.all Text.isDecimal then .error .value
    else Time.int s.value
  | _ => .error .value

/-! ## Decisions -/

structure Approver where
  principal : Principal
  /-- as the user changed them -/
  facts : Dict String String
  changed : Bool := false
  stopped : Bool := false

structure Post where
  post : ApprovalPost
  /-- why it was denied -/
  reasons : List String

namespace Approver

/-- A text that a limit may be; `months` reads a whole number as pydantic does. -/
def isLimit (months : String → Option Int) : Bound → String → Bool
  | .maxTermMonths, text => (months text).any (1 ≤ ·)
  | _, text => money text

/-- `Limits.model_validate` of the stated facts. -/
def validated (months : String → Option Int) (stated : List (Bound × String)) :
    Except PyError Limits :=
  stated.foldlM with_ {}
where
  with_ (l : Limits) (p : Bound × String) : Except PyError Limits :=
    if isLimit months p.1 p.2 then
      .ok (match p.1 with
        | .maxMonthlyPriceUsd => { l with maxMonthlyPriceUsd := some p.2 }
        | .maxTermMonths => { l with maxTermMonths := months p.2 }
        | .maxOneTimeFeesUsd => { l with maxOneTimeFeesUsd := some p.2 })
    else .error .value

section

variable (months : String → Option Int) (a : Approver)

/-- The limits the user states. -/
def envelope : Except PyError Bounds := do
  let stated ← a.principal.envelope.entries.mapM fun (b, key) =>
    match a.facts.get? key with
    | some text => .ok (b, text)
    | none => .error .key
  return bounds (← validated months stated)

def limits : Except PyError Bounds :=
  match a.principal.limits with
  | some hidden => if a.changed then a.envelope months else .ok (bounds hidden)
  | none => a.envelope months

/-- The user said stop (`none`) or changed these facts. -/
def stop (change : Option (List (String × String))) : Approver :=
  match change with
  | none => { a with stopped := true }
  | some facts =>
    { a with facts := facts.foldl (fun d (k, v) => d.set k v) a.facts, changed := true }

def post (subject : PostSubject) (subjectId hash : String) (epoch : Nat) (reasons : List String) :
    Post :=
  let reasons := if a.stopped then "stopped" :: reasons else reasons
  ⟨⟨subject, subjectId, if reasons = [] then .granted else .denied, hash, epoch⟩, reasons⟩

def decide (card : ApprovalCard) (offer : OfferPublic) : Except PyError Post := do
  if offer.offerRef ≠ card.offerRef || offer.revision ≠ card.revision then throw .value
  let fields := offer.slots.map ReadbackSlot.field
  let reasons := (if missingRequired fields = [] then [] else ["incomplete_card"]) ++
    -- Guard's read-back stays authoritative
    (if offer.slots.all (·.status = .confirmed) then [] else ["unconfirmed"])
  let mut out := reasons
  if reasons = [] then
    let monthly ← slot offer "monthly_price" .usdMinor
    let months' ← slot offer "term_months" .months
    let fees ← (fields.filter fun f => "fee:".toList.isPrefixOf f.toList).mapM (slot offer · .usdMinor)
    out := violations (← a.limits months) monthly months' fees.sum
  return a.post .approval card.approvalId card.termsHash card.authorityEpoch out

end

end Approver

/-! ## Agreement with Guard -/

section

variable {months : String → Option Int} {a : Approver} {card : ApprovalCard} {o : OfferPublic}
  {slots : List ReadbackSlot} {sha256 : String → String} {cents : String → Except PyError Int}

/-- Where the stated limits are what a card is judged by, each is a limit. -/
def Readable (months : String → Option Int) (a : Approver) : Prop :=
  a.changed = true ∨ a.principal.limits = none → ∀ p ∈ a.principal.envelope.entries,
    ∃ text, a.facts.get? p.2 = some text ∧ Approver.isLimit months p.1 text = true

/-- The card is decided, and by the limits alone: denied only for a bound that the terms Guard
hashed exceed. -/
def Agrees (months : String → Option Int) (py : Runtime) (a : Approver) (card : ApprovalCard)
    (o : OfferPublic) : Prop :=
  ∃ post b t, a.decide months card o = .ok post ∧ a.limits months = .ok b ∧
    offerTerms py o = .ok (some t) ∧
    post.reasons =
      violations b t.monthlyPriceMinor t.termMonths (t.fees.map Fee.amountMinor).sum ∧
    (post.post.decision = .denied ↔ post.reasons ≠ [])

theorem bind_eq_ok {α β : Type} {x : Except PyError α} {f : α → Except PyError β} {r : β} :
    x >>= f = .ok r ↔ ∃ v, x = .ok v ∧ f v = .ok r := by
  cases x <;> simp [bind, Except.bind]

theorem validated_ok (stated : List (Bound × String)) (l : Limits) :
    (∃ l', stated.foldlM (Approver.validated.with_ months) l = .ok l') ↔
      ∀ p ∈ stated, Approver.isLimit months p.1 p.2 = true := by
  induction stated generalizing l with
  | nil => simp [pure, Except.pure]
  | cons p stated ih =>
    rw [List.forall_mem_cons, List.foldlM_cons, Approver.validated.with_]
    by_cases hp : Approver.isLimit months p.1 p.2 = true
    · rw [if_pos hp]
      exact (ih _).trans (by simp [hp])
    · rw [if_neg hp]
      exact iff_of_false (fun ⟨_, h⟩ => by cases h) fun h => hp h.1

theorem stated_ok {facts : Dict String String} (entries : List (Bound × String)) :
    (∃ stated, entries.mapM (m := Except PyError) (fun p =>
      match facts.get? p.2 with
      | some text => .ok (p.1, text)
      | none => .error .key) = .ok stated ∧
        ∀ q ∈ stated, Approver.isLimit months q.1 q.2 = true) ↔
      ∀ p ∈ entries, ∃ text, facts.get? p.2 = some text ∧
        Approver.isLimit months p.1 text = true := by
  induction entries with
  | nil => exact iff_of_true ⟨[], rfl, nofun⟩ nofun
  | cons p entries ih =>
    rw [List.forall_mem_cons, ← ih, List.mapM_cons]
    cases facts.get? p.2 with
    | none => exact iff_of_false (fun ⟨_, h, _⟩ => by cases h) fun ⟨⟨_, h, _⟩, _⟩ => by cases h
    | some text =>
      constructor
      · rintro ⟨stated, h, hl⟩
        obtain ⟨_, ⟨⟩, h⟩ := bind_eq_ok.mp h
        obtain ⟨rest, hrest, h⟩ := bind_eq_ok.mp h
        cases h
        obtain ⟨hp, hl⟩ := List.forall_mem_cons.mp hl
        exact ⟨⟨text, rfl, hp⟩, rest, hrest, hl⟩
      · rintro ⟨⟨_, ⟨⟩, hp⟩, rest, hrest, hl⟩
        refine ⟨(p.1, text) :: rest, ?_, List.forall_mem_cons.mpr ⟨hp, hl⟩⟩
        exact bind_eq_ok.mpr ⟨_, rfl, bind_eq_ok.mpr ⟨rest, hrest, rfl⟩⟩

theorem limits_ok : (∃ b, a.limits months = .ok b) ↔ Readable months a := by
  have stated : (∃ b, a.envelope months = .ok b) ↔ ∀ p ∈ a.principal.envelope.entries,
      ∃ text, a.facts.get? p.2 = some text ∧ Approver.isLimit months p.1 text = true := by
    rw [← stated_ok, Approver.envelope]
    simp only [bind_eq_ok, Approver.validated, ← validated_ok (l := {})]
    constructor
    · rintro ⟨_, stated, hs, l, hl, ⟨⟩⟩
      exact ⟨stated, hs, l, hl⟩
    · rintro ⟨stated, hs, l, hl⟩
      exact ⟨bounds l, stated, hs, l, hl, rfl⟩
  rw [Approver.limits, Readable]
  cases hl : a.principal.limits with
  | none => simpa using stated
  | some hidden =>
    cases hc : a.changed with
    | true => simpa using stated
    | false => simp

/-! ## The slots of a recorded offer -/

/-- The statuses of the slots are not read. -/
theorem recorded_congr {slots' : List ReadbackSlot} (h : Slots.Recorded slots)
    (same : slots'.map ReadbackSlot.term = slots.map ReadbackSlot.term) : Slots.Recorded slots' := by
  have fields : slots'.map ReadbackSlot.field = slots.map ReadbackSlot.field := by
    have := congrArg (List.map Prod.fst) same
    rwa [List.map_map, List.map_map] at this
  have twin : ∀ s' ∈ slots',
      ∃ s ∈ slots, s.field = s'.field ∧ s.value = s'.value ∧ s.unit = s'.unit := by
    intro s' hs'
    have mem : s'.term ∈ slots.map ReadbackSlot.term := same ▸ List.mem_map_of_mem hs'
    obtain ⟨s, hs, eq⟩ := List.mem_map.mp mem
    simp only [ReadbackSlot.term, Prod.mk.injEq] at eq
    exact ⟨s, hs, eq.1, eq.2.1, eq.2.2.1⟩
  constructor
  · rw [fields]
    exact h.distinct
  · intro s' hs'
    obtain ⟨s, hs, field, value, unit⟩ := twin s' hs'
    rw [← unit, ← field]
    exact h.unit s hs
  · intro s' hs'
    obtain ⟨s, hs, field, value, unit⟩ := twin s' hs'
    rw [← unit, ← value]
    exact h.number s hs
  · intro s' hs'
    obtain ⟨s, hs, field, value, unit⟩ := twin s' hs'
    rw [← unit, ← value]
    exact h.flag s hs
  · intro s' hs'
    obtain ⟨s, hs, field, value, unit⟩ := twin s' hs'
    rw [← unit, ← value]
    exact h.instant s hs
  · intro s' hs' kind list true_ t' ht'
    obtain ⟨s, hs, field, value, -⟩ := twin s' hs'
    obtain ⟨t, ht, field', -⟩ := twin t' ht'
    rw [← field']
    exact h.agrees s hs kind (field ▸ list) (value.trans true_) t ht

theorem decimal_of_digit {c : Char} (h : isDigit c = true) : Text.isDecimal c = true := by
  have := Time.isDigit_iff.mp h
  simp [Text.isDecimal, Text.decimal?, show c.toNat < 128 by omega, this.1, this.2]

theorem filter_field {l : List ReadbackSlot} (distinct : (l.map ReadbackSlot.field).Nodup)
    {s : ReadbackSlot} (hs : s ∈ l) : l.filter (·.field = s.field) = [s] := by
  induction l with
  | nil => cases hs
  | cons t l ih =>
    obtain ⟨fresh, distinct⟩ := List.nodup_cons.mp distinct
    rcases List.mem_cons.mp hs with rfl | hs
    · rw [List.filter_cons_of_pos (by simp), List.filter_eq_nil_iff.mpr]
      intro t ht own
      exact fresh (List.mem_map.mpr ⟨t, ht, of_decide_eq_true own⟩)
    · rw [List.filter_cons_of_neg, ih distinct hs]
      simp only [decide_eq_true_eq]
      exact fun own => fresh (own ▸ List.mem_map_of_mem hs)

/-- A number that is sent is the approver's, as it is Guard's. -/
theorem slot_eq (h : Slots.Recorded o.slots) {s : ReadbackSlot} (hs : s ∈ o.slots)
    (number : s.unit = .usdMinor ∨ s.unit = .months) : slot o s.field s.unit = Time.int s.value := by
  obtain ⟨some_, digits⟩ := h.number s hs number
  have decimal : s.value.toList.all Text.isDecimal = true :=
    List.all_eq_true.mpr fun c hc => decimal_of_digit (List.all_eq_true.mp digits c hc)
  unfold slot
  rw [filter_field h.distinct hs]
  simp [some_, decimal]

theorem starts_iff (kind : List Char) (bare : ':' ∉ kind) (l : List Char) :
    (kind ++ [':']).isPrefixOf l = true ↔ l.contains ':' = true ∧ (partitionColon l).1 = kind := by
  induction l generalizing kind with
  | nil => cases kind <;> simp
  | cons c l ih =>
    rw [partitionColon]
    cases kind with
    | nil =>
      by_cases colon : c = ':'
      · simp [colon]
      · simp [colon, Ne.symm colon]
    | cons k kind =>
      obtain ⟨head, bare⟩ := not_or.mp (List.mem_cons.not.mp bare)
      by_cases colon : c = ':'
      · simp [colon, Ne.symm head]
      · have step := ih kind bare
        rw [List.cons_append, List.isPrefixOf, Bool.and_eq_true, step, beq_iff_eq, if_neg colon]
        simp [Ne.symm colon, eq_comm (a := k)]
        tauto

theorem fee_start (field : String) :
    "fee:".toList.isPrefixOf field.toList = (isCoded field && fieldKind field = "fee") := by
  have kind : fieldKind field = "fee" ↔ (partitionColon field.toList).1 = "fee".toList := by
    rw [fieldKind, ← String.toList_inj, String.toList_ofList]
  rw [Bool.eq_iff_iff, Bool.and_eq_true, decide_eq_true_eq, kind]
  exact starts_iff "fee".toList (by decide) field.toList

/-- The approver adds up the fees that Guard lists. -/
theorem fees_eq (sha256 : String → String) (cents : String → Except PyError Int)
    (h : Slots.Recorded o.slots) {l : List ReadbackSlot} (mine : ∀ s ∈ l, s ∈ o.slots) :
    ((l.map ReadbackSlot.field).filter fun f => "fee:".toList.isPrefixOf f.toList).mapM
        (slot o · .usdMinor) =
      (codedFees (python sha256 cents) (fieldValues l) "fee").map (List.map Fee.amountMinor) := by
  induction l with
  | nil => rfl
  | cons s l ih =>
    obtain ⟨hs, rest⟩ := List.forall_mem_cons.mp mine
    have ih := ih rest
    unfold codedFees coded fieldValues at ih ⊢
    simp only [fee_start, List.map_cons, List.filter_cons] at ih ⊢
    by_cases fee : (isCoded s.field && fieldKind s.field = "fee") = true
    · have unit : s.unit = .usdMinor := by
        have kind : fieldKind s.field = "fee" := of_decide_eq_true (Bool.and_eq_true_iff.mp fee).2
        rw [h.unit s hs, kind]
        rfl
      have own : slot o s.field .usdMinor = Time.int s.value := unit ▸ slot_eq h hs (Or.inl unit)
      rw [if_pos fee, if_pos fee, List.mapM_cons, ih, own, List.map_cons, List.mapM_cons]
      show _ = Except.map _ ((Time.int s.value >>= _) >>= _)
      cases Time.int s.value with
      | error err => rfl
      | ok n =>
        generalize List.mapM (m := Except PyError) (β := Fee) _ _ = fees
        cases fees <;> rfl
    · rw [if_neg fee, if_neg fee, ih]

/-- What `offer_terms` read of a recorded offer. -/
theorem terms_spec (h : Slots.Recorded o.slots) {t : Terms}
    (terms : offerTerms (python sha256 cents) o = .ok (some t)) :
    slot o "monthly_price" .usdMinor = .ok t.monthlyPriceMinor ∧
      slot o "term_months" .months = .ok t.termMonths ∧
      codedFees (python sha256 cents) (fieldValues o.slots) "fee" = .ok t.fees := by
  have required : ∀ field n, requiredInt (python sha256 cents) (fieldValues o.slots) field = .ok n →
      unitOf (fieldKind field) = .usdMinor ∨ unitOf (fieldKind field) = .months →
      slot o field (unitOf (fieldKind field)) = .ok n := by
    intro field n read number
    unfold requiredInt at read
    split at read
    · cases read
    · rename_i v held
      obtain ⟨s, hs, rfl, rfl⟩ := (Slots.valueOf_eq_some h.distinct).mp held
      rw [← h.unit s hs] at number ⊢
      exact (slot_eq h hs number).trans read
  have read : readTerms (python sha256 cents) o.offerRef o.revision (fieldValues o.slots) =
      .ok (some t) := by
    unfold offerTerms termsOf at terms
    split at terms
    · cases terms
    · split at terms
      · cases terms
      · split at terms
        · cases terms
        · cases terms
        · exact terms
  unfold readTerms at read
  obtain ⟨fees, hfees, read⟩ := bind_eq_ok.mp read
  obtain ⟨credits, -, read⟩ := bind_eq_ok.mp read
  obtain ⟨monthly, hmonthly, read⟩ := bind_eq_ok.mp read
  dsimp only at read
  split at read
  · cases read
  obtain ⟨months, hmonths, read⟩ := bind_eq_ok.mp read
  obtain ⟨expires, -, read⟩ := bind_eq_ok.mp read
  cases read
  exact ⟨required _ _ hmonthly (Or.inl rfl), required _ _ hmonths (Or.inr rfl), hfees⟩

/-- What the approver requires of a card that Guard issued: an expiry. -/
theorem missing_iff (complete : ProxyLoop.missingRequired o = []) :
    missingRequired (o.slots.map ReadbackSlot.field) = [] ↔ ∃ v, Slots.Holds o.slots "expires" v := by
  have sent : (o.slots.map ReadbackSlot.field).contains "expires" = true ↔
      ∃ v, Slots.Holds o.slots "expires" v := by
    rw [List.contains_iff_mem, List.mem_map]
    exact ⟨fun ⟨s, hs, own⟩ => ⟨_, s, hs, own, rfl⟩, fun ⟨_, s, hs, own, _⟩ => ⟨s, hs, own⟩⟩
  rw [← sent]
  unfold ProxyLoop.missingRequired at complete
  simp only [List.append_eq_nil_iff, List.filter_eq_nil_iff, List.forall_mem_cons, Bool.not_eq_true,
    Bool.not_eq_false', List.not_mem_nil, false_imp_iff, implies_true, and_true] at complete
  obtain ⟨⟨⟨monthly, months⟩, fees⟩, changes⟩ := complete
  unfold missingRequired
  dsimp only
  rw [fees, changes, List.append_nil, List.append_nil]
  simp only [List.filter_cons, List.filter_nil, monthly, months, Bool.not_true, Bool.false_eq_true,
    if_false]
  cases (o.slots.map ReadbackSlot.field).contains "expires" <;> simp

theorem post_denied (subject : PostSubject) (id hash : String) (epoch : Nat) (reasons : List String) :
    (a.post subject id hash epoch reasons).post.decision = .denied ↔
      (a.post subject id hash epoch reasons).reasons ≠ [] := by
  simp [Approver.post]

theorem incomplete_not_mem {b : Bounds} {monthly term fees : Int} :
    "incomplete_card" ∉ violations b monthly term fees := by
  unfold violations
  simp only [List.mem_append, not_or]
  refine ⟨⟨?_, ?_⟩, ?_⟩ <;> split <;> simp

/-- On a card that Guard issued for a recorded offer, the approver of a principal that has not stopped
decides by the limits alone exactly when the offer has an expiry slot and the limits are readable. -/
theorem approver_agrees {w : Lexical} {bb at_ : Blackboard} {ref ref' ref'' : String}
    {raw : List RawSlot} {tMs : Nat} {wall : Int} {result : Result}
    {revision : Nat} {expires : Option Int} {case_ : CaseRef}
    (recorded : Slots.recordOffer w bb ref raw tMs wall = .ok result)
    (emitted : .offerRecorded ref' revision slots expires ∈ result.effects)
    (found : at_.pub.offers.get? ref'' = some o)
    (same : o.slots.map ReadbackSlot.term = slots.map ReadbackSlot.term)
    (issued : requestApproval (python sha256 cents) at_ ref'' case_ = .ok card)
    (going : a.stopped = false) :
    Agrees months (python sha256 cents) a card o ↔
      (∃ v, Slots.Holds o.slots "expires" v) ∧ Readable months a := by
  have h : Slots.Recorded o.slots := recorded_congr (Slots.recorded_of_effects recorded emitted).2 same
  obtain ⟨o', t, open_, rfl, -⟩ := requestApproval_eq_ok issued
  obtain ⟨found', -, ok⟩ := openOfferAt_eq_ok.mp open_
  cases found.symm.trans found'
  obtain ⟨price, term, fees⟩ := terms_spec h ok.terms
  have sums := fees_eq sha256 cents h (l := o.slots) fun s hs => hs
  rw [fees] at sums
  have confirmed := ok.confirmed
  simp only [readbackConfirmed, Bool.and_eq_true, List.isEmpty_iff] at confirmed
  rw [← missing_iff confirmed.2, ← limits_ok]
  have kept : ∀ out, (a.post .approval (approvalId at_ o) (termsHash (python sha256 cents) t)
      at_.epoch out).reasons = out := by
    intro out
    simp [Approver.post, going]
  have all : (o.slots.all fun s => s.status = .confirmed) = true := confirmed.1.1
  unfold Agrees Approver.decide
  simp only [newCard, all, ne_eq, not_true_eq_false, decide_false, Bool.or_self, Bool.false_eq_true,
    if_false, if_true, List.append_nil]
  by_cases missing : missingRequired (o.slots.map ReadbackSlot.field) = []
  · simp only [missing, if_true, price, term, sums, bind, Except.bind, Except.map, pure, Except.pure,
      true_and]
    constructor
    · rintro ⟨_, b, _, -, limits, -⟩
      exact ⟨b, limits⟩
    · rintro ⟨b, limits⟩
      rw [limits]
      exact ⟨_, b, t, rfl, rfl, ok.terms, kept _, post_denied ..⟩
  · simp only [missing, if_false, false_and, iff_false]
    rintro ⟨post, b, t', decided, -, -, reasons, -⟩
    cases decided
    rw [kept] at reasons
    exact incomplete_not_mem (reasons ▸ List.mem_cons_self ..)

end

/-! ## Sample cards -/

namespace Sample

def py : Runtime := python (fun text => text) fun _ => .error .value

def months (text : String) : Option Int := (Time.int text).toOption

/-- A user who would pay $80 a month. -/
def approver : Approver where
  principal := { envelope := ⟨[(.maxMonthlyPriceUsd, "max_price")], by decide⟩,
                 limits := some { maxMonthlyPriceUsd := some "80" } }
  facts := ⟨[("max_price", "70")], by decide⟩

def confirmed (raw : List RawSlot) : List ReadbackSlot :=
  (raw.filterMap Slots.slot?).map (·.withStatus .confirmed)

def offer (raw : List RawSlot) : OfferPublic where
  offerRef := "basic"
  revision := 1
  slots := confirmed raw
  termsHash := ((offerTermsHash py ⟨"basic", 1, confirmed raw, .open, none, none⟩).toOption).join

def board (raw : List RawSlot) : Blackboard where
  pub := { offers := ⟨[("basic", offer raw)], by show ["basic"].Nodup; decide⟩ }

/-- The rep named no expiry. -/
def unstated : List RawSlot := Slots.Sample.call [("fees_none", "true"), ("changes_none", "true")]

def card (raw : List RawSlot) : Option ApprovalCard :=
  (requestApproval py (board raw) "basic" ⟨"case", "account", "user"⟩).toOption

theorem recorded : ∀ raw ∈ [Slots.Sample.openEnded, unstated],
    Slots.Sample.revisions raw = [("basic", 1, raw.filterMap Slots.slot?, none)] := by
  decide +kernel

theorem same (raw : List RawSlot) : (offer raw).slots.map ReadbackSlot.term =
    (raw.filterMap Slots.slot?).map ReadbackSlot.term := by
  rw [offer, confirmed, List.map_map]
  rfl

/-- Each card is issued; without an expiry the approver denies it. -/
theorem cards : ((card Slots.Sample.openEnded).isSome ∧ (card unstated).isSome) ∧
    (card unstated).bind (fun c => (approver.decide months c (offer unstated)).toOption.map
      Post.reasons) = some ["incomplete_card"] := by
  decide +kernel

theorem issued {raw : List RawSlot} {c : ApprovalCard} (h : card raw = some c) :
    requestApproval py (board raw) "basic" ⟨"case", "account", "user"⟩ = .ok c := by
  unfold card at h
  cases hc : requestApproval py (board raw) "basic" ⟨"case", "account", "user"⟩ with
  | error err => simp [hc, Except.toOption] at h
  | ok c' =>
    rw [hc] at h
    cases h
    rfl

end Sample

theorem approver_agrees_open_ended : ∃ card, Sample.card Slots.Sample.openEnded = some card ∧
    Agrees Sample.months Sample.py Sample.approver card (Sample.offer Slots.Sample.openEnded) := by
  obtain ⟨result, h, emitted⟩ :=
    Slots.Sample.of_revisions (Sample.recorded Slots.Sample.openEnded (by simp))
  obtain ⟨card, hc⟩ := Option.isSome_iff_exists.mp Sample.cards.1.1
  refine ⟨card, hc, (approver_agrees h emitted rfl (Sample.same _) (Sample.issued hc) rfl).mpr ⟨?_, ?_⟩⟩
  · have sent : ∃ s ∈ (Sample.offer Slots.Sample.openEnded).slots, s.field = "expires" := by
      decide +kernel
    obtain ⟨s, hs, own⟩ := sent
    exact ⟨s.value, s, hs, own, rfl⟩
  · rintro (changed | limits)
    · cases changed
    · cases limits

/-- An offer without an expiry slot: Guard issues the card, and the approver denies it as incomplete. -/
theorem approver_disagrees : ¬ ∀ (months : String → Option Int) (a : Approver) (card : ApprovalCard)
      (o : OfferPublic) (slots : List ReadbackSlot) (sha256 : String → String)
      (cents : String → Except PyError Int) (w : Lexical) (bb at_ : Blackboard)
      (ref ref' ref'' : String) (raw : List RawSlot) (tMs : Nat) (wall : Int)
      (result : Result) (revision : Nat) (expires : Option Int) (case_ : CaseRef),
    Slots.recordOffer w bb ref raw tMs wall = .ok result →
    .offerRecorded ref' revision slots expires ∈ result.effects →
    at_.pub.offers.get? ref'' = some o →
    o.slots.map ReadbackSlot.term = slots.map ReadbackSlot.term →
    requestApproval (python sha256 cents) at_ ref'' case_ = .ok card →
    a.stopped = false → Agrees months (python sha256 cents) a card o := by
  intro claim
  obtain ⟨result, h, emitted⟩ :=
    Slots.Sample.of_revisions (Sample.recorded Sample.unstated (by simp))
  obtain ⟨⟨-, some_⟩, denied⟩ := Sample.cards
  obtain ⟨card, hc⟩ := Option.isSome_iff_exists.mp some_
  obtain ⟨post, b, t, decided, -, -, reasons, -⟩ := claim Sample.months Sample.approver card
    _ _ _ _ _ _ _ _ _ _ _ _ _ _ _ _ _ h emitted rfl (Sample.same _) (Sample.issued hc) rfl
  rw [hc, Option.bind_some, decided] at denied
  have own : post.reasons = ["incomplete_card"] := by simpa [Except.toOption] using denied
  rw [reasons] at own
  exact incomplete_not_mem (own ▸ List.mem_singleton_self _)

end ProxyLoop.Env

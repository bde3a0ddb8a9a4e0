import ProxyLoop.Contract.Events
import ProxyLoop.Guard.Terms

/-!
# The read-back of an offer

Which slots a revision must record, when it is confirmed, and the words Guard reads it back in.
How a rep line confirms a slot is in `Guard.Said`; here an update carries any statuses.
-/

namespace ProxyLoop

/-- The fields a revision must record to be complete. -/
def missingRequired (o : OfferPublic) : List String :=
  let fields := o.slots.map ReadbackSlot.field
  let kinds := fields.map fieldKind
  (["monthly_price", "term_months"].filter fun f => !fields.contains f) ++
  (if kinds.contains "fee" || fields.contains "fees_none" then [] else ["fee:*|fees_none"]) ++
  (if kinds.contains "applied_change" || fields.contains "changes_none" then [] else
    ["applied_change:*|changes_none"])

/-- The required fields are there, none repeats, and every slot is confirmed. -/
def readbackConfirmed (o : OfferPublic) : Bool :=
  (o.slots.all fun s => s.status = .confirmed) && (o.slots.map ReadbackSlot.field).Nodup &&
    (missingRequired o).isEmpty

/-- `int(digits)`, of ASCII digits. -/
def decimal (digits : List Char) : Nat := digits.foldl (fun n c => 10 * n + (c.toNat - 48)) 0

def twoDigits (n : Nat) : String := if n < 10 then "0" ++ toString n else toString n

/-- One slot's value as Guard says it.  `isdigit` is of ASCII digits: `record_offer` records no
others. -/
def spoken (s : ReadbackSlot) : String :=
  let digits := s.value.toList
  if s.unit = .usdMinor && !digits.isEmpty && digits.all isDigit then
    "$" ++ toString (decimal digits / 100) ++ "." ++ twoDigits (decimal digits % 100)
  else if s.unit = .months then s.value ++ " months"
  else if s.field = "expires" && s.value = "none" then "no expiry"
  else s.value

/-- `field.replace("_", " ").replace(":", " ")`. -/
def spokenField (field : String) : String :=
  String.ofList (field.toList.map fun c => if c = '_' || c = ':' then ' ' else c)

/-- The terms, as Guard writes them on a card or an accept line. -/
def readbackText (o : OfferPublic) : String :=
  String.intercalate "; " (o.slots.map fun s => spokenField s.field ++ " " ++ spoken s)

/-- The read-back update of an offer whose slots now have these statuses: Guard binds its terms. -/
def readbackUpdate (py : Runtime) (o : OfferPublic) (statuses : Lib.Dict String SlotStatus) :
    Except PyError Readback := do
  return ⟨o.offerRef, o.revision, statuses, ← offerTermsHash py o⟩

theorem readbackUpdate_eq_ok {py : Runtime} {o : OfferPublic}
    {statuses : Lib.Dict String SlotStatus} {r : Readback} :
    readbackUpdate py o statuses = .ok r ↔
      ∃ h, offerTermsHash py o = .ok h ∧ r = ⟨o.offerRef, o.revision, statuses, h⟩ := by
  unfold readbackUpdate
  cases offerTermsHash py o <;> simp [bind, Except.bind, pure, Except.pure, eq_comm]

/-! ## The read-back text fits its card -/

theorem decimal_lt {digits : List Char} (h : digits.all isDigit = true) :
    decimal digits < 10 ^ digits.length := by
  have from_ : ∀ (ds : List Char) (n : Nat), ds.all isDigit = true →
      ds.foldl (fun n c => 10 * n + (c.toNat - 48)) n < (n + 1) * 10 ^ ds.length := by
    intro ds
    induction ds with
    | nil => intro n _; simp
    | cons d ds ih =>
      intro n hd
      obtain ⟨digit, rest⟩ := List.all_cons ▸ hd |> Bool.and_eq_true_iff.mp
      have small : d.toNat - 48 ≤ 9 := by
        have : d ≤ '9' := by simp [isDigit] at digit; exact digit.2
        have : d.toNat ≤ '9'.toNat := this
        have : '9'.toNat = 57 := rfl
        omega
      rw [List.foldl_cons, List.length_cons]
      calc _ < (10 * n + (d.toNat - 48) + 1) * 10 ^ ds.length := ih _ rest
        _ ≤ ((n + 1) * 10) * 10 ^ ds.length := Nat.mul_le_mul_right _ (by omega)
        _ = (n + 1) * 10 ^ (ds.length + 1) := by rw [Nat.pow_succ, Nat.mul_assoc, Nat.mul_comm 10]
  simpa [decimal] using from_ digits 0 h

theorem length_twoDigits {n : Nat} (h : n < 100) : (twoDigits n).length = 2 := by
  unfold twoDigits
  have small : ∀ m, m < 100 →
      (if m < 10 then "0" ++ toString m else toString m : String).length = 2 := by decide
  exact small n h

theorem length_spoken (s : ReadbackSlot) : (spoken s).length ≤ maxSlotValue + 7 := by
  have value : s.value.length ≤ maxSlotValue := by
    have := s.ok
    simp [slotOk] at this
    exact this.2
  unfold spoken
  dsimp only
  split
  · rename_i money
    simp only [Bool.and_eq_true] at money
    have lt := decimal_lt money.2
    have : decimal s.value.toList < 10 ^ maxSlotValue :=
      lt.trans_le (Nat.pow_le_pow_right (by omega) (by rw [String.length_toList]; exact value))
    have : (toString (decimal s.value.toList / 100)).length ≤ maxSlotValue :=
      (Nat.length_repr_le_iff (by decide)).mpr (by omega)
    have := length_twoDigits (n := decimal s.value.toList % 100) (by omega)
    simp only [String.length_append]
    have : "$".length = 1 := rfl
    have : ".".length = 1 := rfl
    omega
  · split
    · rw [String.length_append]
      have : " months".length = 7 := rfl
      omega
    · split
      · decide
      · omega

theorem length_intercalate_le (sep : List Char) {parts : List (List Char)} {n : Nat}
    (h : ∀ p ∈ parts, p.length ≤ n) :
    (sep.intercalate parts).length ≤ parts.length * (n + sep.length) := by
  induction parts with
  | nil => simp [List.intercalate]
  | cons p parts ih =>
    have first := h p (List.mem_cons_self ..)
    have rest := ih fun q hq => h q (List.mem_cons_of_mem _ hq)
    cases parts with
    | nil => simp [List.intercalate]; omega
    | cons q parts =>
      have step : sep.intercalate (p :: q :: parts) =
        p ++ sep ++ sep.intercalate (q :: parts) := by simp [List.intercalate]
      rw [step, List.length_cons (a := p), Nat.succ_mul]
      simp only [List.length_append]
      omega

/-- The read-back text of a valid offer fits a card. -/
theorem length_readbackText {o : OfferPublic} (few : o.slots.length ≤ maxSlots) :
    (readbackText o).length ≤ maxReadbackText := by
  have part : ∀ p ∈ (o.slots.map fun s => spokenField s.field ++ " " ++ spoken s).map
      String.toList, p.length ≤ maxSlotField + 1 + (maxSlotValue + 7) := by
    intro p hp
    simp only [List.map_map, List.mem_map, Function.comp_apply] at hp
    obtain ⟨s, _, rfl⟩ := hp
    have field : (spokenField s.field).length ≤ maxSlotField := by
      have := s.ok
      simp only [slotOk, Bool.and_eq_true, decide_eq_true_eq] at this
      rw [spokenField, String.length_ofList, List.length_map, String.length_toList]
      exact this.1.2
    have value := length_spoken s
    have : " ".length = 1 := rfl
    simp only [String.length_toList, String.length_append]
    omega
  have whole := length_intercalate_le "; ".toList part
  rw [← String.toList_intercalate, String.length_toList] at whole
  simp only [List.length_map] at whole
  have : "; ".toList.length = 2 := rfl
  calc (readbackText o).length ≤ _ := whole
    _ ≤ maxSlots * (maxSlotField + 1 + (maxSlotValue + 7) + "; ".toList.length) :=
        Nat.mul_le_mul_right _ few
    _ ≤ maxReadbackText := by decide

end ProxyLoop

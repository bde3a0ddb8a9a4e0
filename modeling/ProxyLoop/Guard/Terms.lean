import Mathlib.Data.List.Sort
import ProxyLoop.Contract.State

/-!
# Offer terms and their hash

`offerTerms` reads the material terms off an offer's read-back slots, or says why there are none;
`termsHash` hashes the canonical JSON of every field with its list fields sorted, so the hash does
not depend on the order lines were recorded in.

What the code takes from the standard library and cannot be written as a Lean function of its own
is the section's `Runtime`: SHA-256, the reading of a number or an instant from text.
-/

namespace ProxyLoop

/-! ## The runtime -/

/-- The exceptions the terms code can meet. -/
inductive PyError
  | value | key | type | overflow
  deriving DecidableEq, Repr

/-- The library functions the model leaves open. -/
structure Runtime where
  /-- `hashlib.sha256(text.encode("utf-8")).hexdigest()` -/
  sha256 : String → String
  /-- `int(text)` -/
  int : String → Except PyError Int
  /-- `_utc_text(datetime.fromisoformat(text).astimezone(UTC))`, a naive time a `ValueError` -/
  utcText : String → Except PyError String
  /-- `Decimal(text) * 100`, when it is a finite whole number -/
  cents : String → Except PyError Int

/-! ## Canonical JSON -/

def hexDigit (n : Nat) : Char := "0123456789abcdef".toList.getD n '0'

/-- One character of a JSON string, non-ASCII text kept. -/
def jsonChar (c : Char) : List Char :=
  if c = '\x22' then ['\\', '\x22']
  else if c = '\\' then ['\\', '\\']
  else if c = '\n' then ['\\', 'n']
  else if c = '\r' then ['\\', 'r']
  else if c = '\t' then ['\\', 't']
  else if c.toNat = 8 then ['\\', 'b']
  else if c.toNat = 12 then ['\\', 'f']
  else if c.toNat < 32 then
    ['\\', 'u', '0', '0', hexDigit (c.toNat / 16), hexDigit (c.toNat % 16)]
  else [c]

def jsonString (s : String) : String :=
  "\x22" ++ String.ofList (s.toList.flatMap jsonChar) ++ "\x22"

def jsonInt (n : Int) : String := toString n

def jsonBool (b : Bool) : String := if b then "true" else "false"

def jsonNull : String := "null"

def jsonList (items : List String) : String := "[" ++ String.intercalate "," items ++ "]"

/-- An object of rendered values; the caller lists the keys in sorted order. -/
def jsonObject (fields : List (String × String)) : String :=
  "\x7b" ++ String.intercalate "," (fields.map fun f => jsonString f.1 ++ ":" ++ f.2) ++ "\x7d"

/-- `sorted(xs)` on strings: by code point. -/
def sortedStrings (xs : List String) : List String := xs.insertionSort (· ≤ ·)

/-! ## Terms -/

structure Fee where
  code : String
  amountMinor : Int
  deriving DecidableEq

/-- `NO_EXPIRY`, as `_utc_text` writes it. -/
def noExpiry : String := "9999-12-31T23:59:59Z"

/-- The material terms of one offer revision; `expiresAt` is the instant as `_utc_text` writes
it. -/
structure Terms where
  monthlyPriceMinor : Int
  currency : String
  termMonths : Int
  features : List String
  fees : List Fee
  credits : List Fee
  appliedChanges : List String
  totalCost12mMinor : Int
  offerId : String
  offerRevision : Nat
  expiresAt : String
  deriving DecidableEq

def feeLe (a b : Fee) : Prop := a.code < b.code ∨ a.code = b.code ∧ a.amountMinor ≤ b.amountMinor

instance : DecidableRel feeLe := fun a b => by unfold feeLe; infer_instance

def feeLines (fees : List Fee) : String :=
  jsonList ((fees.insertionSort feeLe).map fun f =>
    jsonObject [("amount_minor", jsonInt f.amountMinor), ("code", jsonString f.code)])

/-- The text `terms_hash` hashes: every field, with fee and change completeness. -/
def termsJson (t : Terms) : String :=
  jsonObject
    [("applied_changes", jsonList ((sortedStrings t.appliedChanges).map jsonString)),
      ("changes_none", jsonBool t.appliedChanges.isEmpty),
      ("credits", feeLines t.credits),
      ("currency", jsonString t.currency),
      ("expires_at", jsonString t.expiresAt),
      ("features", jsonList ((sortedStrings t.features).map jsonString)),
      ("fees", feeLines t.fees),
      ("fees_none", jsonBool t.fees.isEmpty),
      ("monthly_price_minor", jsonInt t.monthlyPriceMinor),
      ("offer_id", jsonString t.offerId),
      ("offer_revision", jsonInt t.offerRevision),
      ("term_months", jsonInt t.termMonths),
      ("total_cost_12m_minor", jsonInt t.totalCost12mMinor)]

/-- Completeness is stated: a `*_none` slot that is `true` iff nothing is listed, or, without one,
at least one listed line. -/
def stated {α : Type} (none? : Option String) (listed : List α) : Bool :=
  match none? with
  | none => !listed.isEmpty
  | some flag => (flag = "true" || flag = "false") && ((flag = "true") = (listed.isEmpty : Bool))

def booleanKinds : List String := ["applied_change", "feature", "fees_none", "changes_none"]

/-- `by`: the field and value of each slot. -/
def fieldValues (slots : List ReadbackSlot) : List (String × String) :=
  slots.map fun s => (s.field, s.value)

def valueOf (by_ : List (String × String)) (field : String) : Option String :=
  (by_.find? (·.1 = field)).map Prod.snd

/-- The slots of the coded fields of `kind`: code and value. -/
def coded (by_ : List (String × String)) (kind : String) : List (String × String) :=
  (by_.filter fun p => isCoded p.1 && fieldKind p.1 = kind).map fun p => (fieldCode p.1, p.2)

/-- The codes of the `kind` slots that are `true`. -/
def trueCodes (by_ : List (String × String)) (kind : String) : List String :=
  ((coded by_ kind).filter (·.2 = "true")).map Prod.fst

section runtime

variable (py : Runtime)

def termsHash (t : Terms) : String := py.sha256 (termsJson t)

/-- The `kind` slots as fee lines. -/
def codedFees (by_ : List (String × String)) (kind : String) : Except PyError (List Fee) :=
  (coded by_ kind).mapM fun p => do return ⟨p.1, ← py.int p.2⟩

/-- A required numeric slot: a missing field is a `KeyError`. -/
def requiredInt (by_ : List (String × String)) (field : String) : Except PyError Int :=
  match valueOf by_ field with
  | none => .error .key
  | some v => py.int v

/-- The expiry instant: a missing slot is open for the call, as "no expiry". -/
def expiresAt (by_ : List (String × String)) : Except PyError String :=
  let expires := (valueOf by_ "expires").getD "none"
  if expires = "none" then .ok noExpiry else py.utcText expires

/-- The `try` block of `offer_terms`. -/
def readTerms (ref : String) (revision : Nat) (by_ : List (String × String)) :
    Except PyError (Option Terms) := do
  let fees ← codedFees py by_ "fee"
  let credits ← codedFees py by_ "credit"
  let monthly ← requiredInt py by_ "monthly_price"
  let changes := trueCodes by_ "applied_change"
  if !(stated (valueOf by_ "fees_none") fees && stated (valueOf by_ "changes_none") changes) then
    return none
  let months ← requiredInt py by_ "term_months"
  let expires ← expiresAt py by_
  return some
    { monthlyPriceMinor := monthly
      currency := "USD"
      termMonths := months
      features := trueCodes by_ "feature"
      fees, credits
      appliedChanges := changes
      totalCost12mMinor := monthly * 12 + (fees.map Fee.amountMinor).sum -
        (credits.map Fee.amountMinor).sum
      offerId := ref
      offerRevision := revision
      expiresAt := expires }

/-- `offer_terms` on the fields and values of the slots. -/
def termsOf (ref : String) (revision : Nat) (by_ : List (String × String)) :
    Except PyError (Option Terms) :=
  if !(by_.map Prod.fst).Nodup then .ok none
  else if by_.any fun p =>
      booleanKinds.contains (fieldKind p.1) && p.2 ≠ "true" && p.2 ≠ "false" then
    .ok none
  else match readTerms py ref revision by_ with
    | .error .key | .error .value => .ok none
    | r => r

/-- The terms of an offer's slots, `none` while they are incomplete or malformed.  A `KeyError` or
`ValueError` is caught; any other exception of the runtime is not. -/
def offerTerms (offer : OfferPublic) : Except PyError (Option Terms) :=
  termsOf py offer.offerRef offer.revision (fieldValues offer.slots)

def offerTermsHash (offer : OfferPublic) : Except PyError (Option String) :=
  (offerTerms py offer).map (Option.map (termsHash py))

theorem offerTermsHash_eq_some {py : Runtime} {offer : OfferPublic} {h : String} :
    offerTermsHash py offer = .ok (some h) ↔
      ∃ t, offerTerms py offer = .ok (some t) ∧ termsHash py t = h := by
  unfold offerTermsHash
  cases ho : offerTerms py offer with
  | error e => simp [Except.map]
  | ok t? => cases t? <;> simp [Except.map]

/-- Terms are read off the reference, the revision, and the slots' fields and values alone. -/
theorem offerTerms_congr {py : Runtime} {o o' : OfferPublic} (ref : o.offerRef = o'.offerRef)
    (revision : o.revision = o'.revision) (fields : fieldValues o.slots = fieldValues o'.slots) :
    offerTerms py o = offerTerms py o' := by
  unfold offerTerms
  rw [ref, revision, fields]

theorem offerTermsHash_congr {py : Runtime} {o o' : OfferPublic} (ref : o.offerRef = o'.offerRef)
    (revision : o.revision = o'.revision) (fields : fieldValues o.slots = fieldValues o'.slots) :
    offerTermsHash py o = offerTermsHash py o' := by
  unfold offerTermsHash
  rw [offerTerms_congr ref revision fields]

end runtime

end ProxyLoop

import ProxyLoop.Guard.Mandate

/-!
# Capabilities

One-use release tokens, and their revalidation at release time.  On the cp lane a capability is a
release token for the Speaker of this side.
-/

namespace ProxyLoop

def capTtlMs : Int := 60000

def Intent.text : Intent → String
  | .acceptOffer => "accept_offer"
  | .submitTransaction => "submit_transaction"

/-- The hash of what the action is; no run id, seq or time goes in. -/
def businessActionId (py : Runtime) (caseId : String) (intent : Intent) (offerId : String)
    (offerRevision : Nat) (termsHash grant : String) : String :=
  py.sha256 (jsonList
    [jsonString caseId, jsonString intent.text, jsonString offerId, jsonInt offerRevision,
      jsonString termsHash, jsonString grant])

def mint (bb : Blackboard) (bid : String) (intent : Intent) (termsHash : String)
    (expiresMs : Int) : Capability where
  capId := "cap-" ++ toString (bb.authorizations.length + 1)
  businessActionId := bid
  intent := intent
  termsHash := termsHash
  epoch := bb.epoch
  expiresMs := expiresMs

def isReleasedAccept (c : Capability) : Bool := c.intent = .acceptOffer && c.consumed

/-- An accept capability neither released nor revoked. -/
def isLiveAccept (c : Capability) : Bool := c.intent = .acceptOffer && !c.consumed

/-- An accept of these terms, or with `none` of any terms, was released. -/
def releasedAccept (bb : Blackboard) (termsHash : Option String := none) : Bool :=
  bb.capabilities.values.any fun c =>
    isReleasedAccept c && (termsHash = none || termsHash = some c.termsHash)

def acceptInFlight (bb : Blackboard) : Bool := bb.capabilities.values.any isLiveAccept

/-- The first recorded offer with these terms, with its ref. -/
def offerWith (bb : Blackboard) (termsHash : String) : Option (String × OfferPublic) :=
  bb.pub.offers.entries.find? (·.2.termsHash = some termsHash)

/-- The offer `ref` points to; an authorization without one points nowhere. -/
def authorizedOffer (bb : Blackboard) (auth : Option Authorization) : Option OfferPublic :=
  auth.bind fun a => bb.pub.offers.get? (a.offerRef.getD "")

/-- Why the line holding `capId` may not be released now; `none` if it may. -/
def revalidate (bb : Blackboard) (capId : String) (tReleaseEnd : Nat) : Option String :=
  match bb.capabilities.get? capId with
  | none => some "unknown_capability"
  | some cap =>
    if cap.consumed then some "consumed"
    else if cap.epoch ≠ bb.epoch then some "epoch"
    else if bb.fences ≠ [] then some "fence"
    else match authorizedOffer bb (bb.authorizations.find? (·.capId = capId)) with
      | none => some "offer_closed"
      | some offer =>
        if offer.status ≠ .open then some "offer_closed"
        else if offer.termsHash ≠ some cap.termsHash then some "terms_changed"
        else if expired (some cap.expiresMs) tReleaseEnd || expired offer.expiresMs tReleaseEnd then
          some "expired"
        else none

theorem acceptInFlight_eq_false {bb : Blackboard} :
    acceptInFlight bb = false ↔
      ∀ k c, bb.capabilities.get? k = some c → isLiveAccept c = false := by
  unfold acceptInFlight
  rw [List.any_eq_false]
  constructor
  · intro h k c hc
    simpa using h c (Lib.Dict.mem_values_of_get? hc)
  · intro h c hc
    obtain ⟨k, hk⟩ := Lib.Dict.mem_values.mp hc
    simp [h k c hk]

theorem releasedAccept_eq_false {bb : Blackboard} {termsHash : String} :
    releasedAccept bb (some termsHash) = false ↔
      ∀ k c, bb.capabilities.get? k = some c → isReleasedAccept c = true →
        c.termsHash ≠ termsHash := by
  unfold releasedAccept
  rw [List.any_eq_false]
  constructor
  · intro h k c hc hr he
    have := h c (Lib.Dict.mem_values_of_get? hc)
    simp [hr, he] at this
  · intro h c hc
    obtain ⟨k, hk⟩ := Lib.Dict.mem_values.mp hc
    intro hb
    simp only [Bool.and_eq_true, Bool.or_eq_true, decide_eq_true_eq, reduceCtorEq, false_or,
      Option.some.injEq] at hb
    exact h k c hk hb.1 hb.2.symm

end ProxyLoop

import ProxyLoop.Guard.Authorize

/-!
# The event behind a capability

`accept_offer` lets Guard choose the grant, and only afterwards looks for the event that made it:
its effects cite that event.
-/

namespace ProxyLoop

/-- `last`: the latest event whose payload is wanted. -/
def last (events : List Event) (wanted : Payload → Bool) : Option Nat :=
  (events.reverse.find? fun e => wanted e.payload).map (·.seq)

def Payload.decidesCard (id : String) : Payload → Bool
  | .approvalDecided d => d.approvalId = id
  | _ => false

def Payload.decidesMandate (hash : String) : Payload → Bool
  | .mandateDecided d => d.mandateHash = hash
  | _ => false

/-- `_grant_event`: the decision whose business action id the capability carries. -/
def grantEvent (py : Runtime) (bb : Blackboard) (case_ : CaseRef) (offer : OfferPublic)
    (cap : Capability) (events : List Event) : Option Nat :=
  let bid (grant : String) := businessActionId py case_.caseId .acceptOffer offer.offerRef
    offer.revision cap.termsHash grant
  -- the loop keeps the last approval that matches, and the mandate goes over it
  let approval := (bb.priv.approvals.values.filter fun a =>
    bid a.approvalId = cap.businessActionId).getLast?
  match bb.priv.mandate.filter fun m => bid m.mandateHash = cap.businessActionId, approval with
  | some m, _ => last events (Payload.decidesMandate m.mandateHash)
  | none, some a => last events (Payload.decidesCard a.approvalId)
  | none, none => none

/-- The latest wanted event of a log that ends in unwanted ones. -/
theorem last_append {before after : List Event} {e : Event} {wanted : Payload → Bool}
    (own : wanted e.payload = true) (none_ : ∀ x ∈ after, wanted x.payload = false) :
    last (before ++ e :: after) wanted = some e.seq := by
  have skip : after.reverse.find? (fun x => wanted x.payload) = none := by
    simpa using none_
  simp [last, List.find?_append, skip, own]

end ProxyLoop

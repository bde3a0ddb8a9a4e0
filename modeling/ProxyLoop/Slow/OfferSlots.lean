import ProxyLoop.Slow.Authority

/-!
# Recording an offer

The slots of a call have passed the lexical gates (each value is one a rep line says, each code the
rep's name for it): those gates only refuse, and are left open.  What follows decides whether the
slots are a new revision.
-/

namespace ProxyLoop

/-- `_NONE`: a flag, and the kind of the list it says is empty. -/
def noneKind (field : String) : Option String :=
  match field with
  | "fees_none" => some "fee"
  | "changes_none" => some "applied_change"
  | _ => none

/-- The fields that occur more than once. -/
def repeats (fields : List String) : List String :=
  sortedStrings (fields.filter fun f => 1 < fields.count f).dedup

/-- `conflicts`: slots that no terms hash could bind together. -/
def conflicts (slots : List ReadbackSlot) : List String :=
  let fields := slots.map ReadbackSlot.field
  (if slots.isEmpty then ["no slots"] else []) ++ (repeats fields).map (· ++ " repeats") ++
  slots.flatMap fun s => match noneKind s.field with
    | some kind =>
      if s.value = "true" then
        (fields.filter (fieldKind · = kind)).map fun f => s.field ++ "=true with " ++ f
      else []
    | none => []

def ReadbackSlot.term (s : ReadbackSlot) : String × String × SlotUnit × SlotRole :=
  (s.field, s.value, s.unit, s.role)

/-- `_terms` of the two lists are equal. -/
def sameTerms (a b : List ReadbackSlot) : Bool :=
  (a.map ReadbackSlot.term).isPerm (b.map ReadbackSlot.term)

/-- The tail of `record_offer`: unchanged terms keep the revision, others are the next one. -/
def recordOffer (bb : Blackboard) (ref : String) (slots : List ReadbackSlot)
    (expiresMs : Option Int) : Result :=
  let bad := conflicts slots
  if bad ≠ [] then
    refused .invalidArgs ("record_offer refused, nothing recorded: " ++ String.intercalate "; " bad)
  else match bb.pub.offers.get? ref with
  | some prev =>
    if prev.status = .open && sameTerms prev.slots slots then
      done ("unchanged " ++ ref ++ " r" ++ toString prev.revision) []
    else recorded (prev.revision + 1)
  | none => if maxOffers ≤ bb.pub.offers.size then no "too many offers" else recorded 1
where
  recorded (revision : Nat) : Result :=
    let until_ := match expiresMs with
      | some t => if t = 0 then "" else ", expires at t=" ++ toString t ++ " ms"
      | none => ""
    done ("recorded " ++ ref ++ " r" ++ toString revision ++ until_)
      [.offerRecorded ref revision slots expiresMs]

end ProxyLoop

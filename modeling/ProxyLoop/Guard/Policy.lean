import Mathlib.Data.List.Dedup

/-!
# Applied-change policy

The bounded set of Provider changes: a few catalogued tokens, or the removal of a named add-on.
-/

namespace ProxyLoop

def supportedAppliedChanges : List String :=
  ["plan_change", "revised_plan_change", "predefined_promotion_credit"]

def removeAddOnPrefix : String := "remove_add_on:"

def unsupportedAppliedChange : String := "unsupported_applied_change"

/-- Whether one Provider change token is inside the bounded set. -/
def isSupportedAppliedChange (change : String) : Bool :=
  supportedAppliedChanges.contains change ||
    (removeAddOnPrefix.toList.isPrefixOf change.toList &&
      removeAddOnPrefix.length < change.length)

/-- The unsupported change tokens in first-seen order, deduplicated. -/
def unsupportedAppliedChanges (changes : List String) : List String :=
  (changes.filter fun c => !isSupportedAppliedChange c).eraseDups

end ProxyLoop

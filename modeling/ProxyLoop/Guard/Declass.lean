import ProxyLoop.Contract.State
import ProxyLoop.Guard.Negation

/-!
# The numbers a rep line says

What `record_offer` binds a money or term value to.
-/

namespace ProxyLoop.Declass

open Lib (Regex)
open Text (anyCase char digit space spaces digits)
open Negation (boundary)

section unicode

variable (u : Unicode)

/-- `_UNIT["usd_minor"]`: `$` (1), two decimals (2), dollars (3). -/
def usdRegex : Regex Char :=
  .any [.all [char '$', .opt space, .group 1 Text.number],
    .seq (.group 2 (.all [digits, char '.', digit, digit])) (boundary u),
    .all [.group 3 Text.number, spaces, anyCase "dollar", .opt (anyCase "s"), boundary u]]

def monthsRegex : Regex Char :=
  .all [.group 1 digits, spaces, .opt (char '-'), spaces, anyCase "month", .opt (anyCase "s"),
    boundary u]

/-- `spoken`: the values of a unit a line says, in dollars for money. -/
def spoken (line : List Char) : SlotUnit → List Rat
  | .usdMinor => values (usdRegex u)
  | .months => values (monthsRegex u)
  | _ => Text.numbers line
where
  values (r : Regex Char) : List Rat :=
    (r.finditer (Text.joinThousands line)).flatMap fun m => (m.groups.map Prod.snd).map Text.decimalOf

end unicode

end ProxyLoop.Declass

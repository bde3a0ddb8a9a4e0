import Mathlib
import ProxyLoop.Lib.Dict

/-!
# Tallies

A dictionary of counts: what is counted under each key, and in all.
-/

namespace Lib.Dict

variable {κ : Type} [DecidableEq κ]

def bump (d : Dict κ Nat) (k : κ) (n : Nat) : Dict κ Nat := d.set k ((d.get? k).getD 0 + n)

def count? (d : Dict κ Nat) (k : κ) : Nat := (d.get? k).getD 0

def total (d : Dict κ Nat) : Nat := d.values.sum

theorem count?_bump (d : Dict κ Nat) (k k' : κ) (n : Nat) :
    (d.bump k n).count? k' = d.count? k' + if k' = k then n else 0 := by
  rw [count?, bump, get?_set]
  split
  · rename_i same
    rw [same]
    rfl
  · rfl

theorem sum_setEntries {l : List (κ × Nat)} (once : (l.map Prod.fst).Nodup) (k : κ) (n : Nat) :
    ((setEntries l k (((l.find? (·.1 = k)).map Prod.snd).getD 0 + n)).map Prod.snd).sum =
      (l.map Prod.snd).sum + n := by
  induction l with
  | nil => simp [setEntries]
  | cons e l ih =>
    rw [List.map_cons, List.nodup_cons] at once
    unfold setEntries
    by_cases own : e.1 = k
    · rw [if_pos own, List.find?_cons_of_pos (by simpa using own)]
      simp only [List.map_cons, List.sum_cons, Option.map_some, Option.getD_some]
      omega
    · rw [if_neg own, List.find?_cons_of_neg (by simpa using own)]
      simp only [List.map_cons, List.sum_cons, ih once.2]
      omega

theorem total_bump (d : Dict κ Nat) (k : κ) (n : Nat) : (d.bump k n).total = d.total + n :=
  sum_setEntries d.nodup k n

end Lib.Dict

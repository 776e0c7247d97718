/-!
# Decimal digits

Numbers are written in the ten ASCII digits. This file finds the digits at the start of a text
(`Playhead.Text.digits`), says which number digits spell (`Playhead.Text.ofDigits`), and reads whole
texts as integers: an optional sign, then digits and nothing else (`Playhead.Text.integerIn?`).
-/

namespace Playhead.Text

/-- The digits that a text starts with, and the rest. -/
def digits (cs : List Char) : List Nat × List Char :=
  ((cs.takeWhile Char.isDigit).map fun c => c.toNat - '0'.toNat, cs.dropWhile Char.isDigit)

/-- As `digits`, where there must be at least one. -/
def digits? (cs : List Char) : Option (List Nat × List Char) :=
  match digits cs with
  | ([], _) => none
  | found => some found

/-- The natural number that digits spell. -/
def ofDigits (digits : List Nat) : Nat :=
  digits.foldl (fun n d => n * 10 + d) 0

/-- The natural number that a text of digits spells. -/
def natural? (cs : List Char) : Option Nat :=
  match digits? cs with
  | some (ds, []) => some (ofDigits ds)
  | _ => none

/-- The integer from `low` up to `high` that a text spells. A minus sign is known only
where there are negative numbers. -/
def integerIn? (low high : Int) (text : String) : Option Int := do
  let n ← match text.toList with
    | '-' :: cs => if low < 0 then (natural? cs).map fun n => -(n : Int) else none
    | '+' :: cs => (natural? cs).map Int.ofNat
    | cs => (natural? cs).map Int.ofNat
  if low ≤ n ∧ n ≤ high then some n else none

end Playhead.Text

import Playhead.FloatFormat
import Playhead.Json.Token
import Playhead.Wire.Number

/-!
# What number a numeral stands for

A numeral with neither point nor exponent is an integer, unless it is `-0` or too great for the
signed and unsigned numbers of 64 bits (`Playhead.Json.Numeral.integer?`). Every numeral stands for
a floating-point number, unless it is too great for one (`Playhead.Json.Numeral.double?`).

The latter is **not the nearest one** to the numeral in all cases. The digits are gathered into a
number of 64 bits, the significand, as long as they fit; the significand is rounded; and then it is
multiplied or divided by a rounded power of ten, which rounds a second time.
-/

namespace Playhead.Json

open Text (ofDigits)

namespace Numeral

/-- The integer, where there is neither point nor exponent and it has 64 bits. -/
def integer? (numeral : Numeral) : Option Int :=
  let n := ofDigits numeral.whole
  if numeral.fraction ≠ [] ∨ numeral.exponent.isSome then none
  else if numeral.negative then if n = 0 ∨ 0x8000000000000000 < n then none else some (-n)
  else if n < UInt64.size then some n
  else none

/-- The natural number of any size, where there is neither sign nor point nor exponent. -/
def natural? (numeral : Numeral) : Option Nat :=
  if numeral.fraction ≠ [] ∨ numeral.exponent.isSome ∨ numeral.negative then none
  else some (ofDigits numeral.whole)

/-- A significand with further digits, as long as it stays in 64 bits, and the number of digits
taken. -/
def gather (significand taken : Nat) : List Nat → Nat × Nat
  | [] => (significand, taken)
  | d :: digits =>
    if significand * 10 + d < UInt64.size then gather (significand * 10 + d) (taken + 1) digits
    else (significand, taken)

/-- The greatest power of ten that is a finite number. -/
def greatestPower : Nat := 308

/-- A magnitude times a power of ten; nothing if that is infinite. -/
def scaleUp? (bits power : Nat) : Option Nat :=
  if power ≤ greatestPower then
    let product := FloatFormat.double.mul bits (FloatFormat.double.ofNat (Nat.pow 10 power))
    if product = FloatFormat.double.infinity then none else some product
  else if bits = 0 then some 0
  else none

/-- A magnitude divided by a power of ten, in several steps if the power is not finite. -/
def scaleDown (bits power : Nat) : Nat :=
  if power ≤ greatestPower then
    FloatFormat.double.div bits (FloatFormat.double.ofNat (Nat.pow 10 power))
  else if bits = 0 then 0
  else
    scaleDown (FloatFormat.double.div bits (FloatFormat.double.ofNat (Nat.pow 10 greatestPower)))
      (power - greatestPower)
termination_by power
decreasing_by
  rename_i h _
  simp only [greatestPower] at h ⊢
  omega

/-- The magnitude of a significand times a power of ten; nothing if that is infinite. -/
def scale? (significand : Nat) (power : Int) : Option Nat :=
  let bits := FloatFormat.double.ofNat significand
  match power with
  | .ofNat power => scaleUp? bits power
  | .negSucc power => some (scaleDown bits (power + 1))

/-- The floating-point number of 64 bits; nothing if that is infinite. -/
def double? (numeral : Numeral) : Option Float64Bits := do
  let (significand, whole) := gather 0 0 numeral.whole
  let (significand, taken) := gather significand 0 numeral.fraction
  -- Digits that were not taken count as zeros before the point and as nothing after it.
  let start : Int := (numeral.whole.length - whole : Nat) - taken
  let power : Int := match numeral.exponent with
    | none => start
    | some (negative, digits) =>
      if negative then start - ofDigits digits else start + ofDigits digits
  let magnitude ← scale? significand power
  return .ofNat (FloatFormat.double.withSign numeral.negative magnitude)

/-- The floating-point number of 32 bits. An integer is rounded once, any other numeral by way of 64
bits; what is too great for 32 bits becomes infinite. -/
def single? (numeral : Numeral) : Option Float32Bits := do
  let magnitude ← match numeral.integer? with
    | some n => some (FloatFormat.single.ofNat n.natAbs)
    | none => do
      let bits ← numeral.double?
      some (FloatFormat.double.convert .single (bits.toNat % FloatFormat.double.sign))
  return .ofNat (FloatFormat.single.withSign numeral.negative magnitude)

end Numeral

end Playhead.Json

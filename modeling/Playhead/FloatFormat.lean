import Playhead.Bytes

/-!
# Binary floating-point numbers

A floating-point number is a bit pattern. This file says what number a pattern stands for and which
pattern stands for a number best, in exact arithmetic on natural numbers:

* `Playhead.roundDiv` – the natural number nearest to a quotient, **ties to even**;
* `Playhead.FloatFormat.scaled` – a magnitude as a multiple of the least positive one, which is
  `1 / FloatFormat.unit`;
* `Playhead.FloatFormat.ofRatio` – the magnitude nearest to a quotient, ties to even, infinite when
  the quotient is too great.

Patterns are natural numbers here, and **without their sign**, the top bit.
-/

namespace Playhead

/-- The natural number nearest to `n / d`; of two that are equally near, the even one. -/
def roundDiv (n d : Nat) : Nat :=
  let q := n / d
  let r := n % d
  if d < 2 * r ∨ (2 * r = d ∧ q % 2 = 1) then q + 1 else q

/-- A binary format: the widths of the exponent and of the fraction. -/
structure FloatFormat where
  exponentWidth : Nat
  fractionWidth : Nat

namespace FloatFormat

/-- Numbers of 32 bits. -/
def single : FloatFormat := ⟨8, 23⟩

/-- Numbers of 64 bits. -/
def double : FloatFormat := ⟨11, 52⟩

/-- What a one in the exponent adds to a pattern. -/
def step (format : FloatFormat) : Nat := Nat.pow 2 format.fractionWidth

/-- The pattern of infinity; those above it are no numbers. -/
def infinity (format : FloatFormat) : Nat := (Nat.pow 2 format.exponentWidth - 1) * format.step

/-- The pattern of the sign. -/
def sign (format : FloatFormat) : Nat := Nat.pow 2 format.exponentWidth * format.step

/-- How many of the least positive magnitude make one. -/
def unit (format : FloatFormat) : Nat :=
  Nat.pow 2 (Nat.pow 2 (format.exponentWidth - 1) - 2 + format.fractionWidth)

/-- A finite magnitude in multiples of the least positive one. -/
def scaled (format : FloatFormat) (bits : Nat) : Nat :=
  let exponent := bits / format.step
  let fraction := bits % format.step
  if exponent = 0 then fraction else (format.step + fraction) * Nat.pow 2 (exponent - 1)

/-- The magnitude nearest to `n / d`; of two that are equally near, the one whose last bit is
zero. Patterns follow each other as the magnitudes do, so a fraction that is rounded up beyond its
width leads to the next exponent by itself. -/
def ofRatio (format : FloatFormat) (n d : Nat) : Nat :=
  let whole := n * format.unit / d
  let shift := whole.log2 - format.fractionWidth
  -- The leading bit of the rounded significand adds one step, which completes the exponent.
  min format.infinity (shift * format.step + roundDiv (n * format.unit) (d * Nat.pow 2 shift))

/-- The magnitude nearest to a natural number. -/
def ofNat (format : FloatFormat) (n : Nat) : Nat :=
  format.ofRatio n 1

/-- The rounded product of two finite magnitudes. -/
def mul (format : FloatFormat) (a b : Nat) : Nat :=
  format.ofRatio (format.scaled a * format.scaled b) (format.unit * format.unit)

/-- The rounded quotient of two finite magnitudes, the second of which is not zero. -/
def div (format : FloatFormat) (a b : Nat) : Nat :=
  format.ofRatio (format.scaled a) (format.scaled b)

/-- The magnitude in another format. A number that is too great there becomes infinite. -/
def convert (source target : FloatFormat) (bits : Nat) : Nat :=
  target.ofRatio (source.scaled bits) source.unit

/-- A magnitude with its sign. -/
def withSign (format : FloatFormat) (negative : Bool) (bits : Nat) : Nat :=
  if negative then format.sign + bits else bits

end FloatFormat

end Playhead

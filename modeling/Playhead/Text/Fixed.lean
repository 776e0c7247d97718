import Playhead.FloatFormat
import Playhead.Wire.Number

/-!
# Numbers with a fixed number of decimal places

`Playhead.Text.fixed` writes the number of a floating-point pattern with a given number of places.
The number is rounded exactly: to the nearest, and to an even last digit if two are equally near. A
negative sign stays also when nothing but zeros are left.
-/

namespace Playhead.Text

/-- A natural number with a point before its last `places` digits. -/
def withPlaces (places n : Nat) : String :=
  let fraction := toString (n % Nat.pow 10 places)
  toString (n / Nat.pow 10 places) ++ "." ++
    String.ofList (List.replicate (places - fraction.length) '0') ++ fraction

/-- A magnitude with `places` decimal places, of which there is at least one. -/
def fixedMagnitude (format : FloatFormat) (places bits : Nat) : String :=
  if bits = format.infinity then "inf"
  else withPlaces places (roundDiv (format.scaled bits * Nat.pow 10 places) format.unit)

/-- A single-precision number with `places` decimal places, of which there is at least one. -/
def fixed (places : Nat) (number : Float32Bits) : String :=
  let magnitude := number.toNat % FloatFormat.single.sign
  if FloatFormat.single.infinity < magnitude then "NaN"
  else
    (if number.toNat = magnitude then "" else "-") ++
      fixedMagnitude .single places magnitude

end Playhead.Text

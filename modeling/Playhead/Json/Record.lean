import Playhead.Json.Numeral
import Playhead.Json.Value
import Playhead.Bytes

/-!
# Reading records

What a value of some type looks like in JSON is said by a function from values to that type, with
nothing for a value of another shape. This file has the ones that all others are made of.

A record with given fields (`Playhead.Json.fields?`) may be written as an object, in which the
fields come in any order and others may come between, or as a list of exactly the fields in order.
A value of one of several kinds is an object with a single member that names the kind
(`Playhead.Json.variant?`).
-/

namespace Playhead.Json

/-- The value of the only member with a key. -/
def member? (members : List (Option String × Value)) (key : String) : Option Value :=
  match members.filter fun m => m.1 = some key with
  | [(_, v)] => some v
  | _ => none

/-- The values of the fields of a record. Each is there once, and every key is a text. -/
def fields? (keys : List String) : Value → Option (List Value)
  | .list items => if items.length = keys.length then some items else none
  | .record members =>
    if members.all fun m => m.1.isSome then keys.mapM (member? members) else none
  | _ => none

/-- The name of a kind, and the value of that kind. -/
def variant? : Value → Option (String × Value)
  | .record [(some kind, v)] => some (kind, v)
  | _ => none

/-- A list of values that are all read in the same way. -/
def list? {α : Type} (read? : Value → Option α) : Value → Option (List α)
  | .list items => items.mapM read?
  | _ => none

/-- A truth value. -/
def bool? : Value → Option Bool
  | .bool b => some b
  | _ => none

/-- A text. -/
def text? : Value → Option String
  | .string text => text
  | _ => none

/-- An integer from `low` up to `high`. -/
def integerIn? (low high : Int) : Value → Option Int
  | .number n => n.integer?.filter fun i => low ≤ i && i ≤ high
  | _ => none

/-- A byte. -/
def u8? (v : Value) : Option UInt8 :=
  (integerIn? 0 255 v).map fun i => .ofNat i.toNat

/-- A signed number of 16 bits. -/
def i16? (v : Value) : Option Int16 :=
  (integerIn? Int16.minValue.toInt Int16.maxValue.toInt v).map .ofInt

/-- A signed number of 32 bits. -/
def i32? (v : Value) : Option Int32 :=
  (integerIn? Int32.minValue.toInt Int32.maxValue.toInt v).map .ofInt

/-- A signed number of 64 bits. -/
def i64? (v : Value) : Option Int64 :=
  (integerIn? Int64.minValue.toInt Int64.maxValue.toInt v).map .ofInt

/-- A natural number below `bound`, which may have more than 64 bits. -/
def naturalBelow? (bound : Nat) : Value → Option Nat
  | .number n => n.natural?.filter (· < bound)
  | _ => none

/-- A single-precision number. -/
def f32? : Value → Option Float32Bits
  | .number n => n.single?
  | _ => none

/-- A double-precision number. -/
def f64? : Value → Option Float64Bits
  | .number n => n.double?
  | _ => none

/-- A byte string, as the list of its bytes. -/
def bytes? : Value → Option Bytes :=
  list? u8?

/-- A value that may be null. -/
def nullable? {α : Type} (read? : Value → Option α) : Value → Option (Option α)
  | .null => some none
  | v => (read? v).map some

end Playhead.Json

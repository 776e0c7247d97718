import Playhead.Json.Token

/-!
# JSON values

A value is read from its tokens one token at a time. Between two tokens there is a **reading
position** (`Playhead.Json.Reading`): what may come next, and the lists and records that are still
open around it. `Playhead.Json.Value.ofTokens?` gives the value when the tokens end just after it.
-/

namespace Playhead.Json

/-- A JSON value. Members of a record keep their order and may repeat a key. -/
inductive Value where
  | null
  | bool (b : Bool)
  | number (n : Numeral)
  | string (text : Option String)
  | list (items : List Value)
  | record (members : List (Option String × Value))

/-- A list or record whose next value is being read; what it holds so far, last first. -/
inductive Open where
  | list (done : List Value)
  | record (done : List (Option String × Value)) (key : Option String)

/-- What may come next. Where `first` is true, the list or record has just been opened and may be
closed at once. -/
inductive Reading where
  | value (first : Bool) (around : List Open)
  | key (first : Bool) (done : List (Option String × Value)) (around : List Open)
  | colon (done : List (Option String × Value)) (key : Option String) (around : List Open)
  /-- A value has been read; a comma, a bracket or the end follows. -/
  | after (v : Value) (around : List Open)

namespace Reading

/-- The position after one more token. -/
def next? : Reading → Token → Option Reading
  | value _ around, .null => some (after .null around)
  | value _ around, .bool b => some (after (.bool b) around)
  | value _ around, .number n => some (after (.number n) around)
  | value _ around, .string text => some (after (.string text) around)
  | value _ around, .openList => some (value true (.list [] :: around))
  | value _ around, .openRecord => some (key true [] around)
  | value true (.list _ :: around), .closeList => some (after (.list []) around)
  | key _ done around, .string text => some (colon done text around)
  | key true _ around, .closeRecord => some (after (.record []) around)
  | colon done name around, .colon => some (value false (.record done name :: around))
  | after v (.list done :: around), .comma => some (value false (.list (v :: done) :: around))
  | after v (.list done :: around), .closeList =>
    some (after (.list (v :: done).reverse) around)
  | after v (.record done name :: around), .comma => some (key false ((name, v) :: done) around)
  | after v (.record done name :: around), .closeRecord =>
    some (after (.record ((name, v) :: done).reverse) around)
  | _, _ => none

/-- The value, if nothing is open any more. -/
def value? : Reading → Option Value
  | after v [] => some v
  | _ => none

end Reading

namespace Value

/-- The value that some tokens spell. -/
def ofTokens? (tokens : List Token) : Option Value := do
  (← tokens.foldlM Reading.next? (.value false [])).value?

/-- The value that a text spells. -/
def ofText? (text : String) : Option Value := do
  ofTokens? (← tokens? text)

end Value

end Playhead.Json

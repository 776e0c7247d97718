import Playhead.Text.Digits

/-!
# The words of a JSON text

A JSON text is a sequence of tokens: brackets, commas, colons, `null`, truth values, numbers and
strings, with blanks between them. `Playhead.Json.tokens?` finds them; a text with anything else in
it has none.

Numbers stay digits (`Playhead.Json.Numeral`), because what a number may be depends on where it
stands. So do strings to some degree: an escape may name half of a surrogate pair, and a string
with a half that lacks its other half is well formed, yet no text (`Playhead.Json.Token.string`).
-/

namespace Playhead.Json

open Text (digits?)

/-- A number as it is written. -/
structure Numeral where
  negative : Bool
  /-- The digits before the point: a single zero, or no zero in front. -/
  whole : List Nat
  /-- The digits after the point; none when there is no point. -/
  fraction : List Nat
  /-- Whether the exponent is negative, and its digits. -/
  exponent : Option (Bool × List Nat)
  deriving DecidableEq, Repr

/-- A token. The text of a string is missing when an escape in it names half of a surrogate pair. -/
inductive Token where
  | openList
  | closeList
  | openRecord
  | closeRecord
  | comma
  | colon
  | null
  | bool (b : Bool)
  | number (n : Numeral)
  | string (text : Option String)
  deriving DecidableEq, Repr

/-- Whether a character may stand between tokens. -/
def isBlank (c : Char) : Bool :=
  c == ' ' || c == '\t' || c == '\n' || c == '\r'

/-! ### Numbers -/

/-- The number that a text starts with, and the rest. -/
def numeral? (cs : List Char) : Option (Numeral × List Char) := do
  let (negative, cs) := match cs with
    | '-' :: cs => (true, cs)
    | cs => (false, cs)
  let (whole, cs) ← match cs with
    | '0' :: cs => some ([0], cs)
    | cs => digits? cs
  let (fraction, cs) ← match cs with
    | '.' :: cs => digits? cs
    | cs => some ([], cs)
  let (exponent, cs) ← match cs with
    | c :: cs =>
      if c = 'e' ∨ c = 'E' then do
        let (negative, cs) := match cs with
          | '-' :: cs => (true, cs)
          | '+' :: cs => (false, cs)
          | cs => (false, cs)
        let (power, cs) ← digits? cs
        some (some (negative, power), cs)
      else some (none, c :: cs)
    | [] => some (none, [])
  some (⟨negative, whole, fraction, exponent⟩, cs)

/-! ### Strings -/

/-- The value of a hexadecimal digit. -/
def hexDigit? (c : Char) : Option Nat :=
  if c.isDigit then some (c.toNat - '0'.toNat)
  else if 'a' ≤ c ∧ c ≤ 'f' then some (c.toNat - 'a'.toNat + 10)
  else if 'A' ≤ c ∧ c ≤ 'F' then some (c.toNat - 'A'.toNat + 10)
  else none

/-- The characters that escapes of a single letter name. -/
def shortEscape? : Char → Option Char
  | '"' => some '"'
  | '\\' => some '\\'
  | '/' => some '/'
  | 'b' => some '\x08'
  | 'f' => some '\x0c'
  | 'n' => some '\n'
  | 'r' => some '\r'
  | 't' => some '\t'
  | _ => none

/-- An item of a string: a character, or a unit of sixteen bits that an escape names. -/
inductive Item where
  | char (c : Char)
  | unit (n : Nat)

/-- The items up to the quote that ends a string, and what follows it; those already found are in
`done`, last first. Control characters must be escaped. -/
def items? (done : List Item) : List Char → Option (List Item × List Char)
  | '"' :: cs => some (done.reverse, cs)
  | '\\' :: 'u' :: a :: b :: c :: d :: cs => do
    let n ← [a, b, c, d].foldlM (fun n digit => (hexDigit? digit).map (n * 16 + ·)) 0
    items? (.unit n :: done) cs
  | '\\' :: c :: cs => do items? (.char (← shortEscape? c) :: done) cs
  | c :: cs => if c.toNat < 0x20 ∨ c = '\\' then none else items? (.char c :: done) cs
  | [] => none

/-- Whether a unit is the first half of a surrogate pair. -/
def isHigh (n : Nat) : Bool := 0xD800 ≤ n && n < 0xDC00

/-- Whether a unit is the second half of a surrogate pair. -/
def isLow (n : Nat) : Bool := 0xDC00 ≤ n && n < 0xE000

/-- The characters that items stand for, after those in `done`, last first: a pair of units stands
for one character, and half a pair for none. -/
def chars? (done : List Char) : List Item → Option (List Char)
  | [] => some done.reverse
  | .char c :: items => chars? (c :: done) items
  | .unit n :: items =>
    if isHigh n then
      match items with
      | .unit m :: items =>
        if isLow m then
          chars? (Char.ofNat (0x10000 + (n - 0xD800) * 0x400 + (m - 0xDC00)) :: done) items
        else none
      | _ => none
    else if isLow n then none
    else chars? (Char.ofNat n :: done) items

/-! ### Tokens -/

/-- The text after a word that it must start with. -/
def after? : List Char → List Char → Option (List Char)
  | [], cs => some cs
  | w :: word, c :: cs => if w = c then after? word cs else none
  | _ :: _, [] => none

/-- The token that a text starts with, and the rest. -/
def token? : List Char → Option (Token × List Char)
  | [] => none
  | c :: cs =>
    match c with
    | '[' => some (.openList, cs)
    | ']' => some (.closeList, cs)
    | '\x7b' => some (.openRecord, cs)
    | '\x7d' => some (.closeRecord, cs)
    | ',' => some (.comma, cs)
    | ':' => some (.colon, cs)
    | '"' =>
      (items? [] cs).map fun (items, rest) => (.string ((chars? [] items).map String.ofList), rest)
    | 'n' => (after? ['u', 'l', 'l'] cs).map (.null, ·)
    | 't' => (after? ['r', 'u', 'e'] cs).map (.bool true, ·)
    | 'f' => (after? ['a', 'l', 's', 'e'] cs).map (.bool false, ·)
    | c => (numeral? (c :: cs)).map fun (n, rest) => (.number n, rest)

/-- The tokens of a text after those in `done`, last first. Every token takes up a character, so
`bound` need not exceed the length of the text. -/
def tokensFrom? : Nat → List Token → List Char → Option (List Token)
  | bound, done, cs =>
    match cs.dropWhile isBlank with
    | [] => some done.reverse
    | c :: cs =>
      match bound with
      | 0 => none
      | bound + 1 =>
        match token? (c :: cs) with
        | some (token, rest) => tokensFrom? bound (token :: done) rest
        | none => none

/-- The tokens of a text. -/
def tokens? (text : String) : Option (List Token) :=
  tokensFrom? text.length [] text.toList

end Playhead.Json

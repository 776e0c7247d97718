/-!
# Lines

What is printed is one text; who reads it sees lines. A line ends at a line feed, and a carriage
return **right before** the line feed belongs to the end and not to the line. Other carriage
returns stay, and so do all other characters that some programs take for the end of a line.

* `Playhead.Text.lines` – the lines of a text;
* `Playhead.Text.ofLines` – the text in which each line is ended by a line feed. It has the same
  lines again exactly if none of them holds a line feed or stops at a carriage return.
-/

namespace Playhead.Text

/-- The lines of the characters that are left, where `line` holds those of the current line that
have been read, last first. What follows the last line feed is a line unless it is empty. -/
def linesFrom (line : List Char) : List Char → List String
  | [] => if line.isEmpty then [] else [String.ofList line.reverse]
  | '\r' :: '\n' :: rest => String.ofList line.reverse :: linesFrom [] rest
  | '\n' :: rest => String.ofList line.reverse :: linesFrom [] rest
  | c :: rest => linesFrom (c :: line) rest

/-- The lines of a text. -/
def lines (text : String) : List String :=
  linesFrom [] text.toList

/-- The text of some lines, each with a line feed at its end. -/
def ofLines (lines : List String) : String :=
  String.join (lines.map fun line => line ++ "\n")

end Playhead.Text

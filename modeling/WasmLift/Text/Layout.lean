import WasmLift.Text.Blank

/-!
# Lines, indentation and scopes

A statement is a text of one or more lines. A scope writes each of its statements two spaces further
in and closes with a brace at its own depth; a statement that does not end in a brace is ended by a
semicolon.
-/

namespace WasmLift.Text

/-- Cuts a text after each line feed. Every piece but the last ends in a line feed, and no piece is
empty. -/
def splitLines : List Char → List (List Char)
  | [] => []
  | c :: cs =>
    if c = '\n' then [c] :: splitLines cs
    else
      match splitLines cs with
      | [] => [[c]]
      | piece :: pieces => (c :: piece) :: pieces

/-- A line without the line feed that ends it, nor a carriage return right before that. -/
def chomp (line : List Char) : List Char :=
  match line.reverse with
  | '\n' :: '\r' :: rest => rest.reverse
  | '\n' :: rest => rest.reverse
  | _ => line

/-- The lines of a text, without their line ends. -/
def lines (cs : List Char) : List (List Char) :=
  (splitLines cs).map chomp

/-- One line, two spaces further in; a line of blanks becomes empty. -/
def indentLine (line : List Char) : List Char :=
  trimEnd (' ' :: ' ' :: line)

/-- The lines of a trimmed text, each two spaces further in. -/
def indent (s : String) : String :=
  String.ofList (List.intercalate ['\n'] ((lines (trim s.toList)).map indentLine))

/-- A statement with its end: a semicolon, unless it closes a brace. -/
def terminate (stmt : String) : String :=
  if stmt.toList.getLast? = some '}' then stmt else stmt ++ ";"

/-- A text as a statement of a scope: nothing when it is empty. -/
def statement (text : String) : List String :=
  if text.isEmpty then [] else [terminate text]

/-- The statements of a scope, each on a line of its own and further in. -/
def indented : List String → String
  | [] => ""
  | s :: rest => "\n" ++ indent s ++ indented rest

/-- A scope: its head, which opens the brace, its statements further in, and the closing brace. -/
def scope (head : String) (statements : List String) : String :=
  head ++ indented statements ++ "\n\x7d"

/-- The texts one after the other, with a comma and a space between them. -/
def commaList (parts : List String) : String :=
  String.intercalate ", " parts

end WasmLift.Text

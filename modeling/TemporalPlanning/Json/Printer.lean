import TemporalPlanning.Json.Value

/-!
# Writing JSON

`Json.compress` writes a document on one line and `Json.pretty` writes it with two blanks of
indentation per level, an empty list or object as its two brackets. Strings keep all characters
except the quote, the backslash and the control characters, which are escaped.
-/

namespace TemporalPlanning

namespace Json

/-- The hexadecimal digit of a number below sixteen. -/
def hexDigit (n : Nat) : Char :=
  if n < 10 then Char.ofNat ('0'.toNat + n) else Char.ofNat ('a'.toNat + n - 10)

/-- A character inside quotes. -/
def escape (c : Char) : List Char :=
  match c with
  | '"' => ['\\', '"']
  | '\\' => ['\\', '\\']
  | '\x08' => ['\\', 'b']
  | '\x0c' => ['\\', 'f']
  | '\n' => ['\\', 'n']
  | '\r' => ['\\', 'r']
  | '\t' => ['\\', 't']
  | c =>
    -- the control characters without a letter of their own
    if c.toNat < 0x20 then ['\\', 'u', '0', '0', hexDigit (c.toNat / 16), hexDigit (c.toNat % 16)]
    else [c]

/-- A string with its quotes. -/
def quote (s : String) : String :=
  String.ofList ('"' :: s.toList.flatMap escape ++ ['"'])

/-- A number. -/
def writeNumeral (n : Numeral) : String :=
  let digits := (if n.negative then "-" else "") ++ toString n.digits
  if n.whole then digits else digits ++ "e" ++ toString n.scale

/-- The texts of a list one after the other, with a separator between neighbours. -/
def separated (separator : String) (texts : List String) : String := separator.intercalate texts

mutual

/-- A document on one line. -/
def compress : Json → String
  | .null => "null"
  | .bool b => if b then "true" else "false"
  | .number n => writeNumeral n
  | .text s => quote s
  | .list items => "[" ++ separated "," (compressItems items) ++ "]"
  | .object fields => "\x7b" ++ separated "," (compressFields fields) ++ "\x7d"

/-- The elements of a list, each on one line. -/
def compressItems : List Json → List String
  | [] => []
  | j :: rest => compress j :: compressItems rest

/-- The fields of an object, each on one line. -/
def compressFields : List (String × Json) → List String
  | [] => []
  | (name, j) :: rest => (quote name ++ ":" ++ compress j) :: compressFields rest

end

/-- A new line at a given level of nesting. -/
def newline (level : Nat) : String := "\n" ++ String.ofList (List.replicate (2 * level) ' ')

/-- The parts of a container, each on a line of its own. -/
def block (level : Nat) (opening closing : String) (parts : List String) : String :=
  if parts.isEmpty then opening ++ closing
  else
    opening ++ newline (level + 1) ++ separated ("," ++ newline (level + 1)) parts
      ++ newline level ++ closing

mutual

/-- A document with indentation, its first line at a given level of nesting. -/
def prettyAt (level : Nat) : Json → String
  | .list items => block level "[" "]" (prettyItems (level + 1) items)
  | .object fields => block level "\x7b" "\x7d" (prettyFields (level + 1) fields)
  | .null => "null"
  | .bool b => if b then "true" else "false"
  | .number n => writeNumeral n
  | .text s => quote s

/-- The elements of a list with indentation. -/
def prettyItems (level : Nat) : List Json → List String
  | [] => []
  | j :: rest => prettyAt level j :: prettyItems level rest

/-- The fields of an object with indentation. -/
def prettyFields (level : Nat) : List (String × Json) → List String
  | [] => []
  | (name, j) :: rest => (quote name ++ ": " ++ prettyAt level j) :: prettyFields level rest

end

/-- A document with indentation. -/
def pretty (j : Json) : String := prettyAt 0 j

end Json

end TemporalPlanning

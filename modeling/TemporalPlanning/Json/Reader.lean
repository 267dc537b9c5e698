import TemporalPlanning.Json.Lexeme

/-!
# Reading a text into a draft

`Document.ofText` puts the lexemes of a text together. It follows the text until it breaks and
closes the containers that are open there, so that everything before the break can be looked at.

A break *after a comma* is kept as one more, unreadable element: a reader that wants no further
element objects to the comma, not to what follows it. A break *instead of a comma* is kept as the
container's `stop`.
-/

namespace TemporalPlanning

namespace Document

/-- A container that is still open. Elements are kept last first. -/
inductive Open where
  | list (items : List Draft)
  /-- An object whose field `key` is being read. -/
  | object (fields : List (Key × Draft)) (key : Key)

/-- The document that results when nothing can be read after `d`: all open containers are closed
around it. -/
def breakOff (d : Draft) : List Open → Document
  | [] => ⟨d, false⟩
  | .list items :: outer => breakOff (.list (d :: items).reverse none) outer
  | .object fields key :: outer => breakOff (.object ((key, d) :: fields).reverse none) outer

/-- The document that results when a key of an object cannot be read. -/
def breakAtKey (fields : List (Key × Draft)) (key : Key) (outer : List Open) : Document :=
  breakOff (.broken .malformed) (.object fields key :: outer)

/-- Why a text is refused that goes on with `lexemes` where a separator belongs. -/
def unseparated : List Lexeme → Reject
  | [] => .truncated
  | _ :: _ => .malformed

mutual

/-- Reads on where a value belongs. -/
def atValue (outer : List Open) : List Lexeme → Document
  | [] => breakOff (.broken .truncated) outer
  -- an empty list is told apart here, since a value is expected after every comma
  | .listStart :: .listEnd :: rest => afterValue (.list [] none) outer rest
  | .listStart :: rest => atValue (.list [] :: outer) rest
  | .objectStart :: rest => atKey [] outer rest
  | .text key :: rest =>
    match key with
    | .unreadable _ _ => breakOff key.toDraft outer
    | key => afterValue key.toDraft outer rest
  -- what is broken ends the document there, with everything that is still open
  | .scalar d :: rest =>
    match d with
    | .broken why => breakOff (.broken why) outer
    | .garbled read skipped => breakOff (.garbled read skipped) outer
    | d => afterValue d outer rest
  | _ :: _ => breakOff (.broken .malformed) outer

/-- Reads on behind the value `d`. -/
def afterValue (d : Draft) : (outer : List Open) → List Lexeme → Document
  | [], rest => ⟨d, !rest.isEmpty⟩
  | .list items :: outer, .comma :: rest => atValue (.list (d :: items) :: outer) rest
  | .list items :: outer, .listEnd :: rest =>
    afterValue (.list (d :: items).reverse none) outer rest
  -- neither a comma nor the closing bracket: the items read so far are kept
  | .list items :: outer, rest =>
    breakOff (.list (d :: items).reverse (some (unseparated rest))) outer
  | .object fields key :: outer, .comma :: rest => atKey ((key, d) :: fields) outer rest
  | .object fields key :: outer, .objectEnd :: rest =>
    afterValue (.object ((key, d) :: fields).reverse none) outer rest
  | .object fields key :: outer, rest =>
    breakOff (.object ((key, d) :: fields).reverse (some (unseparated rest))) outer

/-- Reads on where a key belongs. Only an object without fields may end here. -/
def atKey (fields : List (Key × Draft)) (outer : List Open) : List Lexeme → Document
  | [] => breakAtKey fields (.unreadable .truncated .truncated) outer
  | .objectEnd :: rest =>
    -- an object may close at once, but not after a comma
    if fields.isEmpty then afterValue (.object [] none) outer rest
    else breakAtKey fields (.unreadable .malformed .malformed) outer
  | .text key :: rest =>
    match key, rest with
    | .unreadable read skipped, _ => breakAtKey fields (.unreadable read skipped) outer
    | key, .colon :: rest => atValue (.object fields key :: outer) rest
    | key, rest => breakOff (.broken (unseparated rest)) (.object fields key :: outer)
  | _ :: _ => breakAtKey fields (.unreadable .malformed .malformed) outer

end

/-- What can be read of a text. -/
def ofText (text : String) : Document :=
  atValue [] (Lexeme.lexemes text.toList)

end Document

/-- A JSON document from its text. -/
def Json.ofText? (text : String) : Option Json :=
  let doc := Document.ofText text
  if doc.trailing then none else doc.root.toJson?

end TemporalPlanning

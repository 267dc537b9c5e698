import TemporalPlanning.Json.Value

/-!
# Drafts: what could be read of a text

A typed reader walks a text from left to right and stops at the first problem, be it a broken text
or a value of the wrong type. Which of two problems comes first therefore depends on the type that
is asked for. A `Draft` holds what every typed reader needs to decide this: the values of a text up
to its first break, and at the break the reason.

Two readings of one place can fail differently: a value that is *read* is checked more strictly
than one that is *skipped*, because no field asks for it. A draft keeps both reasons where they
differ.
-/

namespace TemporalPlanning

/-- Why a text was refused. -/
inductive Reject where
  /-- The text is not JSON. -/
  | malformed
  /-- The text ends too early. -/
  | truncated
  /-- The text is JSON, but not of the shape that was asked for. -/
  | mismatched
  deriving DecidableEq, Repr

/-- The word for a reason, as reports use it. -/
def Reject.word : Reject → String
  | .malformed => "syntax"
  | .truncated => "eof"
  | .mismatched => "data"

/-- What stands where a key of an object belongs. -/
inductive Key where
  | text (s : String)
  /-- A string with a surrogate escape that has no partner; it may be skipped but not read. -/
  | unpaired
  /-- No string, or one that breaks: the reasons when it is read and when it is skipped. -/
  | unreadable (read skipped : Reject)
  deriving DecidableEq, Repr

/-- What could be read of a value. The readable part of a list or object is complete when `stop` is
empty; otherwise `stop` says why the text could not be followed after the last element. -/
inductive Draft where
  | null
  | bool (b : Bool)
  | number (n : Numeral)
  | text (s : String)
  /-- A string with a surrogate escape that has no partner. -/
  | unpaired
  | list (items : List Draft) (stop : Option Reject)
  | object (fields : List (Key × Draft)) (stop : Option Reject)
  /-- No value begins here, or a string that breaks. -/
  | broken (why : Reject)
  /-- A number, word or string that breaks: the reasons when it is read and when it is skipped. -/
  | garbled (read skipped : Reject)
  deriving Repr

/-- A text as a whole: its value, and whether anything but white space follows it. -/
structure Document where
  root : Draft
  trailing : Bool
  deriving Repr

namespace Draft

/-- The reason for which a value is refused when another type is asked for. A scalar is read to its
end first. -/
def refusal : Draft → Reject
  | .broken why => why
  | .garbled read _ => read
  | .unpaired => .malformed
  | .number n => if n.tooLarge then .malformed else .mismatched
  | _ => .mismatched

mutual

/-- The draft of a complete document. -/
def ofJson : Json → Draft
  | .null => .null
  | .bool b => .bool b
  | .number n => .number n
  | .text s => .text s
  | .list items => .list (ofItems items) none
  | .object fields => .object (ofFields fields) none

/-- The drafts of the elements of a list. -/
def ofItems : List Json → List Draft
  | [] => []
  | j :: rest => ofJson j :: ofItems rest

/-- The drafts of the fields of an object. -/
def ofFields : List (String × Json) → List (Key × Draft)
  | [] => []
  | (name, j) :: rest => (.text name, ofJson j) :: ofFields rest

end

mutual

/-- The document that a draft is the draft of, if it is complete. -/
def toJson? : Draft → Option Json
  | .null => some .null
  | .bool b => some (.bool b)
  | .number n => some (.number n)
  | .text s => some (.text s)
  | .list items none => (toItems? items).map .list
  | .object fields none => (toFields? fields).map .object
  | _ => none

/-- The documents that the elements of a list are the drafts of. -/
def toItems? : List Draft → Option (List Json)
  | [] => some []
  | d :: rest => do
    let j ← toJson? d
    let js ← toItems? rest
    return j :: js

/-- The documents that the fields of an object are the drafts of. -/
def toFields? : List (Key × Draft) → Option (List (String × Json))
  | [] => some []
  | (.text name, d) :: rest => do
    let j ← toJson? d
    let js ← toFields? rest
    return (name, j) :: js
  | _ :: _ => none

end

mutual

/-- Passes over a value that nothing asks for. -/
def skip : Draft → Except Reject Unit
  | .broken why => .error why
  | .garbled _ skipped => .error skipped
  | .list items stop => do
    skipItems items
    stop.elim (.ok ()) .error
  | .object fields stop => do
    skipFields fields
    stop.elim (.ok ()) .error
  | _ => .ok ()

/-- Passes over the elements of a list. -/
def skipItems : List Draft → Except Reject Unit
  | [] => .ok ()
  | d :: rest => do
    skip d
    skipItems rest

/-- Passes over the fields of an object. -/
def skipFields : List (Key × Draft) → Except Reject Unit
  | [] => .ok ()
  | (.unreadable _ skipped, _) :: _ => .error skipped
  | (_, d) :: rest => do
    skip d
    skipFields rest

end

/-- The nesting at which a reader that keeps everything gives up. -/
def nestingLimit : Nat := 128

mutual

/-- Reads a whole value whatever its type, with `room` levels of nesting left. -/
def absorb (room : Nat) : Draft → Except Reject Unit
  | .broken why => .error why
  | .garbled read _ => .error read
  | .unpaired => .error .malformed
  | .number n => if n.tooLarge then .error .malformed else .ok ()
  -- each layer of brackets takes one level of the room that is left
  | .list items stop =>
    if room ≤ 1 then .error .malformed
    else do
      absorbItems (room - 1) items
      stop.elim (.ok ()) .error
  | .object fields stop =>
    if room ≤ 1 then .error .malformed
    else do
      absorbFields (room - 1) fields
      stop.elim (.ok ()) .error
  | _ => .ok ()

/-- Reads the elements of a list whatever their types. -/
def absorbItems (room : Nat) : List Draft → Except Reject Unit
  | [] => .ok ()
  | d :: rest => do
    absorb room d
    absorbItems room rest

/-- Reads the fields of an object whatever their types. -/
def absorbFields (room : Nat) : List (Key × Draft) → Except Reject Unit
  | [] => .ok ()
  | (.unreadable read _, _) :: _ => .error read
  | (.unpaired, _) :: _ => .error .malformed
  | (.text _, d) :: rest => do
    absorb room d
    absorbFields room rest

end

end Draft

end TemporalPlanning

import TemporalPlanning.Json.Draft

/-!
# Typed readers

A `Decoder α` reads a value of type `α` from a draft, from left to right, and stops at the first
problem. Records (`Record`) and tagged unions (`tagged`) are described by their fields and variants:

* a record is an object, whose unknown fields are passed over and whose known fields may stand once
  each, or a list of its fields in order;
* a variant without content is its name; a variant with content is an object whose only key is the
  name of the variant.

`Document.decode` reads a text and `Json.decode` a document that is known to be complete.
-/

namespace TemporalPlanning

/-- A reader of values of type `α`. -/
abbrev Decoder (α : Type) := Draft → Except Reject α

namespace Decoder

variable {α β : Type}

/-- Succeeds with `a` unless the text broke before its end was seen. -/
def unlessStopped (stop : Option Reject) (a : α) : Except Reject α :=
  match stop with
  | none => .ok a
  | some why => .error why

/-- A string. -/
def text : Decoder String
  | .text s => .ok s
  | d => .error d.refusal

/-- A truth value. -/
def bool : Decoder Bool
  | .bool b => .ok b
  | d => .error d.refusal

/-- The null value. -/
def null : Decoder Unit
  | .null => .ok ()
  | d => .error d.refusal

/-- An integer of a range, both ends included. -/
def integer (lo hi : Int) : Decoder Int
  | .number n =>
    if n.tooLarge then .error .malformed
    else match n.toInt? with
      | some i => if lo ≤ i ∧ i ≤ hi then .ok i else .error .mismatched
      | none => .error .mismatched
  | d => .error d.refusal

/-- A signed integer of 64 bits. -/
def int64 : Decoder Int := integer (-9223372036854775808) 9223372036854775807

/-- A natural number below a bound. -/
def natBelow (bound : Nat) (d : Draft) : Except Reject Nat :=
  (integer 0 (bound - 1) d).map Int.toNat

/-- A natural number of 32 bits. -/
def nat32 : Decoder Nat := natBelow UInt32.size

/-- A natural number of 64 bits. -/
def nat64 : Decoder Nat := natBelow UInt64.size

/-- A value that null stands in for when it is absent. -/
def option (read : Decoder α) : Decoder (Option α)
  | .null => .ok none
  | d => (read d).map some

/-- The elements of a list, each read in the same way. -/
def elements (read : Decoder α) : List Draft → Except Reject (List α)
  | [] => .ok []
  | d :: rest => do
    let a ← read d
    let as ← elements read rest
    return a :: as

/-- A list of any length. -/
def list (read : Decoder α) : Decoder (List α)
  | .list items stop => do unlessStopped stop (← elements read items)
  | d => .error d.refusal

/-- A list of exactly two elements. -/
def pair (first : Decoder α) (second : Decoder β) : Decoder (α × β)
  | .list [] stop => .error (stop.getD .mismatched)
  | .list [d] stop => do
    let _ ← first d
    .error (stop.getD .mismatched)
  | .list (d :: e :: more) stop => do
    let a ← first d
    let b ← second e
    if more.isEmpty then unlessStopped stop (a, b) else .error .malformed
  | d => .error d.refusal

/-- One of several variants: those that are their name alone, and those with content. -/
def tagged (plain : String → Option α) (filled : String → Option (Decoder α)) : Decoder α
  | .text name => (plain name).elim (.error .mismatched) .ok
  | .object [] _ => .error .malformed
  | .object ((.unpaired, _) :: _) _ => .error .malformed
  | .object ((.unreadable read _, _) :: _) _ => .error read
  | .object ((.text name, d) :: more) stop => do
    let a ← match filled name, plain name with
      | some read, _ => read d
      | none, some a => (null d).map fun _ => a
      | none, none => .error .mismatched
    if more.isEmpty then unlessStopped stop a else .error .malformed
  | .broken why => .error why
  | _ => .error .malformed

/-- A word out of a list of words, each with the value that it stands for. -/
def word (words : List (String × α)) : Decoder α :=
  tagged (fun name => words.lookup name) (fun _ => none)

end Decoder

/-! ### Records -/

/-- A field of a record: how its value is read into a record that is being built, and where it may
be left out. -/
structure Field (α : Type) where
  name : String
  /-- Reads the value of the field into the record. -/
  read : Draft → α → Except Reject α
  /-- Whether an object has to have the field. -/
  inObject : Bool
  /-- Whether a list has to have the field. -/
  inList : Bool

namespace Field

variable {α β : Type}

/-- Reads the value of a field and puts it into the record. -/
def into (read : Decoder β) (put : β → α → α) (d : Draft) (a : α) : Except Reject α :=
  (read d).map fun b => put b a

/-- A field that has to be there. -/
def required (name : String) (read : Decoder β) (put : β → α → α) : Field α :=
  ⟨name, into read put, true, true⟩

/-- A field that an object may leave out, but not a list. -/
def nullable (name : String) (read : Decoder β) (put : Option β → α → α) : Field α :=
  ⟨name, into (Decoder.option read) put, false, true⟩

/-- A field that may be left out; the record then keeps what it had there at the start. -/
def defaulted (name : String) (read : Decoder β) (put : β → α → α) : Field α :=
  ⟨name, into read put, false, false⟩

end Field

/-- How a record is read. -/
structure Record (α : Type) where
  /-- The record before any field is read. -/
  start : α
  /-- The fields in order. -/
  fields : List (Field α)
  /-- Whether unknown fields are refused. -/
  closed : Bool := false
  /-- What remains to be checked once all fields are there. -/
  check : α → Except Reject α := .ok

namespace Record

variable {α : Type}

/-- Reads the fields of an object; `seen` holds the names that were met already. -/
def readFields (r : Record α) :
    List (Key × Draft) → (seen : List String) → α → Except Reject (α × List String)
  | [], seen, a => .ok (a, seen)
  | (.unpaired, _) :: _, _, _ => .error .malformed
  | (.unreadable read _, _) :: _, _, _ => .error read
  | (.text name, d) :: rest, seen, a =>
    match r.fields.find? (fun f => f.name == name) with
    -- a field that comes twice is refused before it is read
    | some f =>
      if seen.contains name then .error .mismatched
      else do
        let a ← f.read d a
        r.readFields rest (name :: seen) a
    | none =>
      -- an unknown field is passed over, but it has to be readable
      if r.closed then .error .mismatched
      else do
        d.skip
        r.readFields rest seen a

/-- Reads the fields of a list in order, and says which elements are left over. -/
def readItems (stop : Option Reject) :
    List (Field α) → List Draft → α → Except Reject (α × List Draft)
  | f :: fields, d :: items, a => do
    let a ← f.read d a
    readItems stop fields items a
  | [], items, a => .ok (a, items)
  | fields, [], a => do
    let a ← Decoder.unlessStopped stop a
    if fields.any (·.inList) then .error .mismatched else .ok (a, [])

/-- Reads a record from an object or from a list. -/
def read (r : Record α) : Decoder α
  | .object fields stop => do
    let (a, seen) ← r.readFields fields [] r.start
    let a ← Decoder.unlessStopped stop a
    if r.fields.all (fun f => !f.inObject || seen.contains f.name) then r.check a
    else .error .mismatched
  | .list items stop => do
    let (a, more) ← readItems stop r.fields items r.start
    let a ← r.check a
    if more.isEmpty then Decoder.unlessStopped stop a else .error .malformed
  | d => .error d.refusal

end Record

/-- Reads a value from a document that is complete. All that can be wrong with it is its shape. -/
def Json.decode {α : Type} (read : Decoder α) (j : Json) : Except Reject α :=
  (read (Draft.ofJson j)).mapError fun _ => .mismatched

/-- Reads a text as a whole: nothing may follow its value. -/
def Document.decode {α : Type} (read : Decoder α) (doc : Document) : Except Reject α := do
  let a ← read doc.root
  if doc.trailing then .error .malformed else return a

end TemporalPlanning

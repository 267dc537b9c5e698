/-!
# JSON values

`Json` is a JSON document as a tree and `Numeral` a JSON number as it is written. A numeral keeps
what its text says — sign, digits, power of ten, and whether a fraction or an exponent was written —
so that integers stay exact at every size and `-0` stays apart from `0`.

`Numeral.toInt?_ofInt` says that an integer can be read back from the numeral that writes it.
-/

namespace TemporalPlanning

/-- A JSON number: `digits * 10 ^ scale`, negated when `negative`. -/
structure Numeral where
  /-- Whether a minus sign stands in front. -/
  negative : Bool
  /-- All digits, the point left out. -/
  digits : Nat
  /-- The power of ten that the digits are multiplied by. -/
  scale : Int
  /-- Whether the number is written without fraction and without exponent. -/
  whole : Bool
  deriving DecidableEq, Repr

namespace Numeral

/-- The numeral of an integer. -/
def ofInt (i : Int) : Numeral :=
  ⟨decide (i < 0), i.natAbs, 0, true⟩

/-- The integer that a numeral writes. A fraction, an exponent or a minus sign before zero makes a
number that is no integer. -/
def toInt? (n : Numeral) : Option Int :=
  if !n.whole then none
  else if !n.negative then some n.digits
  else if n.digits = 0 then none
  else some (-n.digits)

@[simp] theorem toInt?_ofInt (i : Int) : (ofInt i).toInt? = some i := by
  unfold ofInt toInt?
  by_cases h : i < 0
  · have hdigits : i.natAbs ≠ 0 := by omega
    have hneg : -(i.natAbs : Int) = i := by omega
    simp only [decide_eq_true h, Bool.not_true, Bool.false_eq_true, if_false, if_neg hdigits, hneg]
  · have hpos : (i.natAbs : Int) = i := by omega
    simp only [decide_eq_false h, Bool.not_true, Bool.not_false, Bool.false_eq_true, if_false,
      if_true, hpos]

/-- The digits that a 64-bit significand keeps: the leading ones, as many as fit, with the power of
ten raised by one for each digit left out. `room` bounds the number of digits left out. -/
def keepSignificand : (room : Nat) → (digits : Nat) → (scale : Int) → Nat × Int
  | 0, digits, scale => (digits, scale)
  | room + 1, digits, scale =>
    if digits < UInt64.size then (digits, scale) else keepSignificand room (digits / 10) (scale + 1)

/-- The double nearest to a power of ten. -/
def powerOfTen (e : Nat) : Float :=
  Float.ofScientific 1 false e

/-- The double that a numeral stands for: its significand, times or divided by a power of ten. -/
def toFloat (n : Numeral) : Float :=
  let (digits, scale) := keepSignificand n.digits.log2 n.digits n.scale
  let significand := Float.ofNat digits
  let magnitude :=
    if digits = 0 then 0.0
    else if 0 ≤ scale then
      if 308 < scale then 1.0 / 0.0 else significand * powerOfTen scale.toNat
    -- below the least subnormal, whatever the digits are
    else if scale < -700 then 0.0
    -- two divisions, because the power of ten alone is out of range
    else if scale < -308 then significand / powerOfTen 308 / powerOfTen (-scale - 308).toNat
    else significand / powerOfTen (-scale).toNat
  if n.negative then -magnitude else magnitude

/-- Whether the number is too large for a double. An integer that fits 64 bits never is. -/
def tooLarge (n : Numeral) : Bool :=
  if n.whole && n.digits < UInt64.size then false else n.toFloat.isInf

@[simp] theorem tooLarge_ofInt {i : Int} (h : i.natAbs < UInt64.size) :
    (ofInt i).tooLarge = false :=
  if_pos (by rw [ofInt, decide_eq_true h]; rfl)

end Numeral

/-- A JSON document. -/
inductive Json where
  | null
  | bool (b : Bool)
  | number (n : Numeral)
  | text (s : String)
  | list (items : List Json)
  | object (fields : List (String × Json))
  deriving Repr

namespace Json

/-- An integer. -/
def int (i : Int) : Json := .number (.ofInt i)

/-- A natural number. -/
def nat (n : Nat) : Json := int n

/-- A value that may be absent; its absence is written as null. -/
def option {α : Type} (write : α → Json) : Option α → Json
  | none => .null
  | some a => write a

/-- A list, element by element. -/
def listOf {α : Type} (write : α → Json) (xs : List α) : Json := .list (xs.map write)

/-- The field of an object, if the value is an object that has it. -/
def field? : Json → String → Option Json
  | .object fields, name => fields.lookup name
  | _, _ => none

/-- The elements of a list; every other value has none. -/
def items : Json → List Json
  | .list xs => xs
  | _ => []

/-- The string that a value is, if it is one. -/
def text? : Json → Option String
  | .text s => some s
  | _ => none

/-- The integer that a value is, if it is one. -/
def int? : Json → Option Int
  | .number n => n.toInt?
  | _ => none

/-- The natural number that a value is, if it is one. -/
def nat? (j : Json) : Option Nat := do
  let i ← j.int?
  if 0 ≤ i then some i.toNat else none

/-- The truth value that a value is, if it is one. -/
def bool? : Json → Option Bool
  | .bool b => some b
  | _ => none

end Json

end TemporalPlanning

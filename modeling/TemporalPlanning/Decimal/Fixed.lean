/-!
# Decimals with a fixed number of places

A double is a sign, a whole number and a power of two. `fixed` writes it with a given number of
decimal places: the exact value is rounded to the nearest multiple of the last place, a value in the
middle to the even neighbour, and the sign is kept even before zero.

`roundDiv_bounds` says that the rounded quotient is within half a unit of the exact one.
-/

namespace TemporalPlanning

namespace Decimal

/-- The quotient of two numbers rounded to the nearest integer, a tie to the even neighbour. -/
def roundDiv (num den : Nat) : Nat :=
  let q := num / den
  let r := num % den
  if 2 * r < den then q
  else if den < 2 * r then q + 1
  else if q % 2 = 0 then q else q + 1

theorem roundDiv_bounds (num : Nat) {den : Nat} (h : 0 < den) :
    2 * num ≤ 2 * (roundDiv num den * den) + den ∧
      2 * (roundDiv num den * den) ≤ 2 * num + den := by
  have hdiv : den * (num / den) + num % den = num := Nat.div_add_mod num den
  have hmod : num % den < den := Nat.mod_lt _ h
  have hmul : num / den * den = den * (num / den) := Nat.mul_comm _ _
  have hsucc : (num / den + 1) * den = den * (num / den) + den := by
    rw [Nat.succ_mul, hmul]
  unfold roundDiv
  dsimp only
  -- below one half, above it, and a tie that goes to the even neighbour
  split
  · rw [hmul]; omega
  · split
    · rw [hsucc]; omega
    · split
      · rw [hmul]; omega
      · rw [hsucc]; omega

/-- The value `significand * 2 ^ exponent`. -/
structure Binary where
  negative : Bool
  significand : Nat
  exponent : Int

/-- The parts of a finite double. -/
def Binary.ofFloat (x : Float) : Binary :=
  let bits := x.toBits.toNat
  let fraction := bits % Nat.pow 2 52
  let field := bits / Nat.pow 2 52 % Nat.pow 2 11
  let significand := if field = 0 then fraction else fraction + Nat.pow 2 52
  ⟨bits / Nat.pow 2 63 = 1, significand, (max field 1 : Nat) - (1075 : Int)⟩

/-- A value as a multiple of the last of `places` decimal places. -/
def Binary.units (b : Binary) (places : Nat) : Nat :=
  let scaled := b.significand * Nat.pow 10 places
  if 0 ≤ b.exponent then scaled * Nat.pow 2 b.exponent.toNat
  else roundDiv scaled (Nat.pow 2 (-b.exponent).toNat)

/-- The digits of a number of decimal places, with zeros in front. -/
def padded (places n : Nat) : String :=
  let digits := toString n
  String.ofList (List.replicate (places - digits.length) '0') ++ digits

/-- A double with a fixed number of decimal places. -/
def fixed (places : Nat) (x : Float) : String :=
  if x.isNaN then "NaN"
  else
    let b := Binary.ofFloat x
    let sign := if b.negative then "-" else ""
    if x.isInf then sign ++ "inf"
    else
      -- rounded once, on the exact binary value; the digits are read off the whole number
      let units := b.units places
      let one := Nat.pow 10 places
      sign ++ toString (units / one) ++ "." ++ padded places (units % one)

end Decimal

end TemporalPlanning

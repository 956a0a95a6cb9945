/-!
# The range of a double

A JSON number is held as an unsigned 64-bit significand and a power of ten, the two rounded to a
double and multiplied. Digits that no longer fit the significand only move the power. A number whose
product is beyond the largest double cannot be held.
-/

set_option autoImplicit false

namespace ScriptTaint.Json.Magnitude

/-- The nearest number with 53 significant bits; a tie goes to the even neighbour. -/
def nearest (n : Nat) : Nat :=
  if n < Nat.pow 2 53 then n
  else
    let unit := Nat.pow 2 (n.log2 - 52)
    let quotient := n / unit
    let rest := 2 * (n % unit)
    if unit < rest || (unit == rest && quotient % 2 == 1) then (quotient + 1) * unit
    else quotient * unit

/-- The least number that rounds to infinity, halfway from the largest double to `2 ^ 1024`. -/
def bound : Nat := Nat.pow 2 1024 - Nat.pow 2 970

/-- A significand with room for one more digit takes it. -/
def push? (significand digit : Nat) : Option Nat :=
  if significand * 10 + digit < UInt64.size then some (significand * 10 + digit) else none

/-- Digits before the point: the significand, and how many digits it did not take. -/
def whole (significand : Nat) : List Nat → Nat × Nat
  | [] => (significand, 0)
  | d :: ds =>
    match push? significand d with
    | some s => whole s ds
    | none => (significand, ds.length + 1)

/-- Digits after the point: the significand, and how many digits it took. -/
def fraction (significand : Nat) : List Nat → Nat × Nat
  | [] => (significand, 0)
  | d :: ds =>
    match push? significand d with
    | some s => let (s, taken) := fraction s ds; (s, taken + 1)
    | none => (significand, 0)

/-- Whether the number with these digits before and after the point can be held. -/
def fits (before after : List Nat) (exponent : Int) : Bool :=
  let (significand, dropped) := whole 0 before
  let (significand, taken) := fraction significand after
  let power := exponent + dropped - taken
  if significand == 0 || power < 0 then true
  else if 308 < power then false
  else nearest significand * nearest (Nat.pow 10 power.toNat) < bound

end ScriptTaint.Json.Magnitude

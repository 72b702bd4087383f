/-!
Numbers in double precision, kept exactly: a whole number below `2 ^ 53` times a power of two. A
decimal fraction becomes the nearest of them, of two equally near ones the even one.
-/
namespace Typeahead

inductive Double where
  /-- The number `mantissa * 2 ^ exponent`, or its negative. -/
  | finite (negative : Bool) (mantissa : Nat) (exponent : Int)
  | infinite (negative : Bool)
  | nan
deriving DecidableEq, Repr

namespace Double

/-- The exponent of the smallest numbers. -/
def leastExponent : Int := -1074

/-- The exponent of the largest numbers. -/
def greatestExponent : Int := 971

/-- The exponent's part of a fraction: `b ^ e` is the quotient of the two. -/
def power (b : Nat) (e : Int) : Nat × Nat := (Nat.pow b e.toNat, Nat.pow b (-e).toNat)

/-- The whole number nearest to `num / den`, the even one if two are. -/
def roundDiv (num den : Nat) : Nat :=
  let q := num / den
  let r := num % den
  if 2 * r < den then q else if den < 2 * r then q + 1 else q + q % 2

/-- The rounded quotient is within half a unit of the exact one. -/
theorem roundDiv_near (num : Nat) {den : Nat} (h : 0 < den) :
    2 * (roundDiv num den * den) ≤ 2 * num + den ∧ 2 * num ≤ 2 * (roundDiv num den * den) + den := by
  have e : den * (num / den) + num % den = num := Nat.div_add_mod num den
  have l : num % den < den := Nat.mod_lt num h
  have h₀ : num / den * den = den * (num / den) := Nat.mul_comm ..
  have h₁ : (num / den + 1) * den = den * (num / den) + den := by rw [Nat.add_mul, h₀, Nat.one_mul]
  simp only [roundDiv]
  split
  · omega
  · split
    · omega
    · rcases Nat.mod_two_eq_zero_or_one (num / den) with hm | hm <;>
        simp only [hm, Nat.add_zero] <;> omega

/-- The greatest `e` with `2 ^ e ≤ num / den`. -/
def binaryOrder (num den : Nat) : Int :=
  let e : Int := (num.log2 : Int) - den.log2
  let (up, down) := power 2 e
  if den * up ≤ num * down then e else e - 1

/-- The number nearest to `digits * 10 ^ exponent`; beyond the largest number all is infinite. -/
def ofDecimal (negative : Bool) (digits : Nat) (exponent : Int) : Double :=
  if digits = 0 then finite negative 0 leastExponent
  else
    let (up, down) := power 10 exponent
    let num := digits * up
    let e := max (binaryOrder num down - 52) leastExponent
    let (up₂, down₂) := power 2 e
    let m := roundDiv (num * down₂) (down * up₂)
    let e' := if m = 0x20000000000000 then e + 1 else e
    if greatestExponent < e' then infinite negative
    else finite negative (if m = 0x20000000000000 then 0x10000000000000 else m) e'

/-- The whole part of `mantissa * 2 ^ exponent`, toward zero. -/
def truncate (negative : Bool) (mantissa : Nat) (exponent : Int) : Int :=
  let (up, down) := power 2 exponent
  let n := mantissa * up / down
  if negative then -(n : Int) else n

end Double
end Typeahead

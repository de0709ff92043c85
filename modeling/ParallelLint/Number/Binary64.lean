set_option autoImplicit false

/-!
Finite binary64 numbers as `mantissa * 2 ^ exponent` with a sign, and rounding of exact quotients
to the nearest of them, ties to the even mantissa. No machine arithmetic is involved.
-/
namespace ParallelLint.Number

/-- Normal numbers have `2 ^ 52 ≤ mantissa < 2 ^ 53`; below them `exponent = -1074`. -/
structure Binary64 where
  negative : Bool
  mantissa : Nat
  exponent : Int
  deriving DecidableEq, Repr, Inhabited

def scaled (n d : Nat) (e : Int) : Nat × Nat :=
  if 0 ≤ e then (n <<< e.toNat, d) else (n, d <<< (-e).toNat)

/-- The nearest natural number to `n / d`; a half goes to the even neighbour. -/
def roundHalfEven (n d : Nat) : Nat :=
  let q := n / d
  let r := n % d
  if d < 2 * r || (2 * r = d && q % 2 = 1) then q + 1 else q

/-- The exponent at which `n / d` has 53 bits, but never below the least one. -/
def fittingExponent (n d : Nat) : Int :=
  let low : Int := max (-1074) ((Nat.log2 n : Int) - Nat.log2 d - 53)
  let s := scaled n d (-low)
  if s.1 / s.2 < 1 <<< 53 then low else low + 1

namespace Binary64

def zero (negative : Bool) : Binary64 := ⟨negative, 0, -1074⟩

def ofRatio (negative : Bool) (n d : Nat) : Option Binary64 :=
  let e := fittingExponent n d
  let s := scaled n d (-e)
  let m := roundHalfEven s.1 s.2
  let carried : Nat × Int := if m = 1 <<< 53 then (1 <<< 52, e + 1) else (m, e)
  if 971 < carried.2 then none else some ⟨negative, carried.1, carried.2⟩

def isZero (x : Binary64) : Bool := x.mantissa = 0

def ratio (x : Binary64) : Nat × Nat := scaled x.mantissa 1 x.exponent

def mul (x y : Binary64) : Option Binary64 :=
  ofRatio (x.negative != y.negative) (x.ratio.1 * y.ratio.1) (x.ratio.2 * y.ratio.2)

def div (x y : Binary64) : Option Binary64 :=
  ofRatio (x.negative != y.negative) (x.ratio.1 * y.ratio.2) (x.ratio.2 * y.ratio.1)

def ofNat (n : Nat) : Option Binary64 := ofRatio false n 1

/-- The number nearest to `± digits * 10 ^ exponent`. Past four hundred places either way the
answer is known without the power of ten. -/
def ofDecimal (negative : Bool) (digits : Nat) (exponent : Int) : Option Binary64 :=
  if digits = 0 || exponent + Nat.log2 digits < -400 then some (zero negative)
  else if 400 < exponent then none
  else if 0 ≤ exponent then ofRatio negative (digits * Nat.pow 10 exponent.toNat) 1
  else ofRatio negative digits (Nat.pow 10 (-exponent).toNat)

def floor (x : Binary64) : Nat := x.ratio.1 / x.ratio.2

end Binary64

inductive Extended where
  | finite (x : Binary64)
  | infinite (negative : Bool)
  | nan
  deriving DecidableEq, Repr

def Extended.ofDecimal (negative : Bool) (digits : Nat) (exponent : Int) : Extended :=
  match Binary64.ofDecimal negative digits exponent with
  | some x => .finite x
  | none => .infinite negative

end ParallelLint.Number

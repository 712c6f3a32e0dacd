import Mathlib.Algebra.Group.Int.Defs
import Mathlib.Algebra.GroupWithZero.Nat
import Mathlib.Data.Int.Basic
import Mathlib.Order.Lattice

/-!
# IEEE 754 binary64 values

A finite value is `±mant · 2^exp` in the one canonical form the format has for it, so equality
of values is equality of terms (the two zeros apart).  Rounding is to nearest, ties to even.
Every finite value is an integer multiple of `2^-1074`; comparisons go through that integer.
-/

/-- The significand and exponent pairs of the format: normal numbers, subnormals and zero. -/
def Binary64.Canonical (mant : Nat) (exp : Int) : Prop :=
  mant < 2 ^ 53 ∧ -1074 ≤ exp ∧ exp ≤ 971 ∧ (2 ^ 52 ≤ mant ∨ exp = -1074)

instance (mant : Nat) (exp : Int) : Decidable (Binary64.Canonical mant exp) :=
  inferInstanceAs (Decidable (_ ∧ _))

inductive Binary64 where
  | finite (neg : Bool) (mant : Nat) (exp : Int) (canonical : Binary64.Canonical mant exp)
  | infinite (neg : Bool)
  | nan
  deriving DecidableEq

namespace Binary64

def zero : Binary64 := finite false 0 (-1074) (by decide)

instance : Inhabited Binary64 := ⟨zero⟩

/-- A rounded significand that fits the format, or the infinity it overflows to. -/
def ofScaled (neg : Bool) (mant : Nat) (exp : Int) : Binary64 :=
  if h : Canonical mant exp then finite neg mant exp h else infinite neg

/-- `num / den` rounded to the nearest integer, ties to even. -/
def roundDiv (num den : Nat) : Nat :=
  let q := num / den
  let r := num % den
  if 2 * r < den then q else if den < 2 * r then q + 1 else if q % 2 = 0 then q else q + 1

/-- The integer part of `log₂ (num / den)` for positive arguments. -/
def floorLog2 (num den : Nat) : Int :=
  let l : Int := (num.log2 : Int) - den.log2
  let reached := if 0 ≤ l then den * 2 ^ l.toNat ≤ num else den ≤ num * 2 ^ (-l).toNat
  if reached then l else l - 1

/-- The value nearest to `±num / den`. -/
def ofRatio (neg : Bool) (num den : Nat) : Binary64 :=
  if num = 0 then finite neg 0 (-1074) (by decide)
  else
    let e := max (-1074) (floorLog2 num den - 52)
    let m := if 0 ≤ e then roundDiv num (den * 2 ^ e.toNat) else roundDiv (num * 2 ^ (-e).toNat) den
    if m = 2 ^ 53 then ofScaled neg (2 ^ 52) (e + 1) else ofScaled neg m e

def ofInt (i : Int) : Binary64 :=
  if i = 0 then zero else ofRatio (i < 0) i.natAbs 1

/-- A finite value as a multiple of `2^-1074`. -/
def scaled : Binary64 → Int
  | finite neg mant exp _ =>
    let magnitude : Int := mant * 2 ^ (exp + 1074).toNat
    if neg then -magnitude else magnitude
  | infinite neg => if neg then -(2 ^ 2100) else 2 ^ 2100
  | nan => 0

def isNan : Binary64 → Bool
  | nan => true
  | _ => false

def isFinite : Binary64 → Bool
  | finite .. => true
  | _ => false

/-- Comparison by value: the zeros are equal, and a NaN is related to nothing. -/
def eq (a b : Binary64) : Bool := !a.isNan && !b.isNan && a.scaled == b.scaled

def lt (a b : Binary64) : Bool := !a.isNan && !b.isNan && decide (a.scaled < b.scaled)

def le (a b : Binary64) : Bool := !a.isNan && !b.isNan && decide (a.scaled ≤ b.scaled)

/-- Finite with no fractional part. -/
def isInteger (a : Binary64) : Bool := a.isFinite && a.scaled % 2 ^ 1074 == 0

/-- Truncation toward zero. -/
def trunc (a : Binary64) : Int := a.scaled.tdiv (2 ^ 1074)

/-- Truncation to an unsigned integer of `bits` bits, saturating, a NaN giving zero. -/
def toUnsigned (bits : Nat) (a : Binary64) : Nat :=
  if a.isNan then 0 else min a.trunc.toNat (2 ^ bits - 1)

/-- Truncation to a signed integer of `bits` bits, saturating, a NaN giving zero. -/
def toSigned (bits : Nat) (a : Binary64) : Int :=
  if a.isNan then 0 else max (-(2 ^ (bits - 1))) (min a.trunc (2 ^ (bits - 1) - 1))

def digitsValue (ds : List Char) : Nat :=
  ds.foldl (fun acc c => acc * 10 + (c.toNat - '0'.toNat)) 0

/-- Read a decimal literal from its sign, integer digits and fraction digits. -/
def ofDecimal (neg : Bool) (whole frac : List Char) : Binary64 :=
  ofRatio neg (digitsValue (whole ++ frac)) (10 ^ frac.length)

/-- Whether `10^k ≤ num / den`. -/
def reachesPow10 (num den : Nat) (k : Int) : Bool :=
  if 0 ≤ k then decide (den * 10 ^ k.toNat ≤ num) else decide (den ≤ num * 10 ^ (-k).toNat)

/-- The integer part of `log₁₀ (num / den)`, from the estimate `log₁₀ 2 ≈ 0.30103`. -/
def floorLog10 (num den : Nat) : Int :=
  let est := floorLog2 num den * 30103 / 100000
  if reachesPow10 num den (est + 1) then est + 1
  else if reachesPow10 num den est then est else est - 1

/-- A positive decimal `c · 10^k` rounded into the format. -/
def ofPow10 (c : Nat) (k : Int) : Binary64 :=
  if 0 ≤ k then ofRatio false (c * 10 ^ k.toNat) 1 else ofRatio false c (10 ^ (-k).toNat)

/-- The closer of the two `n`-digit neighbours of `num / den` that read back as `v`. -/
def shortestAt (v : Binary64) (num den n : Nat) : Option (Nat × Int) :=
  let k := floorLog10 num den + 1 - n
  let low := if 0 ≤ k then num / (den * 10 ^ k.toNat) else num * 10 ^ (-k).toNat / den
  let rest := if 0 ≤ k then num % (den * 10 ^ k.toNat) else num * 10 ^ (-k).toNat % den
  let unit := if 0 ≤ k then den * 10 ^ k.toNat else den
  let lowOk := ofPow10 low k == v
  let highOk := ofPow10 (low + 1) k == v
  if lowOk && (!highOk || 2 * rest ≤ unit) then some (low, k)
  else if highOk then some (low + 1, k) else none

/-- The shortest decimal that reads back as the positive value `mant · 2^exp`. -/
def shortest (mant : Nat) (exp : Int) : Nat × Int :=
  let v := ofScaled false mant exp
  let num := if 0 ≤ exp then mant * 2 ^ exp.toNat else mant
  let den := if 0 ≤ exp then 1 else 2 ^ (-exp).toNat
  ((List.range' 1 17).findSome? (shortestAt v num den)).getD (mant, 0)

/-- Positional notation, with as many digits as reading the value back needs. -/
def display : Binary64 → String
  | nan => "NaN"
  | infinite neg => if neg then "-inf" else "inf"
  | finite neg mant exp _ =>
    let sign := if neg then "-" else ""
    if mant = 0 then sign ++ "0"
    else
      let (c, k) := shortest mant exp
      let digits := (Nat.toDigits 10 c)
      if 0 ≤ k then sign ++ String.ofList (digits ++ List.replicate k.toNat '0')
      else
        let point := (digits.length : Int) + k
        if 0 < point then
          sign ++ String.ofList (digits.take point.toNat ++ '.' :: digits.drop point.toNat)
        else sign ++ String.ofList ('0' :: '.' :: List.replicate (-point).toNat '0' ++ digits)

example : ofDecimal false ['0'] ['1'] = finite false 7205759403792794 (-56) (by decide) := by
  decide +kernel

end Binary64

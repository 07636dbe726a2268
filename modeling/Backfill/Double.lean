/-!
Decimals as doubles.
-/

namespace Backfill

/-- The two zeros count as one. -/
inductive Double where
  | nan
  | infinite (negative : Bool)
  | finite (q : Rat)
  deriving DecidableEq, Repr

namespace Double

/-- The nearest integer, the even one of two. -/
def roundToEven (q : Rat) : Int :=
  let n := (q + 1 / 2).floor
  if q + 1 / 2 = n ∧ n % 2 = 1 then n - 1 else n

/-- The greatest power of two that `q` reaches, for positive `q`. -/
def binaryExponent (q : Rat) : Int :=
  let k : Int := q.num.natAbs.log2 - q.den.log2
  if (2 : Rat) ^ k ≤ q then k else k - 1

/-- Doubles have 53 binary digits, and none below the 1074th after the point. -/
def nearest (q : Rat) : Rat :=
  let unit : Rat := 2 ^ max (binaryExponent q.abs - 52) (-1074)
  roundToEven (q / unit) * unit

def ofRat (q : Rat) : Double :=
  let r := nearest q
  if r.abs < 2 ^ (1024 : Int) then .finite r else .infinite (r < 0)

/-- The bounds only save writing out powers that are too large or too small for any double. -/
def ofDecimal (mantissa exponent : Int) : Double :=
  let magnitude := exponent + (Nat.toDigits 10 mantissa.natAbs).length
  if mantissa = 0 ∨ magnitude < -330 then .finite 0
  else if 310 < magnitude then .infinite (mantissa < 0)
  else ofRat (mantissa * 10 ^ exponent)

/-- For `n` up to 308, so that it is finite. -/
def powerOfTen (n : Int) : Rat := nearest (10 ^ n)

/-- Worked out in doubles, so that the significand, the power of ten and the result are each
rounded. Below the power -308 it takes two divisions, and where two are not enough, nothing is left
of a significand of 64 bits. -/
def ofScientific (significand exponent : Int) : Double :=
  let s := nearest significand
  if s = 0 ∨ exponent < -616 then .finite 0
  else if exponent < -308 then
    ofRat (nearest (s / powerOfTen 308) / powerOfTen (-exponent - 308))
  else if exponent < 0 then ofRat (s / powerOfTen (-exponent))
  else if exponent ≤ 308 then ofRat (s * powerOfTen exponent)
  else .infinite (s < 0)

def isZero (d : Double) : Bool := d = .finite 0

/-- The nearest natural number up to `most`, the greater one of two. -/
def toNat (most : Nat) : Double → Nat
  | .nan => 0
  | .infinite negative => if negative then 0 else most
  | .finite q => min (q + 1 / 2).floor.toNat most

end Double

end Backfill

namespace Staging

/-- A natural number rounded to so many binary digits. A half goes to the even neighbour. -/
def roundBits (bits n : Nat) : Nat :=
  let unit := Nat.pow 2 (n.log2 + 1 - bits)
  let low := n / unit
  let rest := n % unit
  if 2 * rest < unit || (2 * rest = unit && low % 2 = 0) then low * unit else (low + 1) * unit

/-- Appends decimal digits to a number up to the first that takes it to the limit. Gives the
digits that are left. -/
def appendDigits (limit n : Nat) : List Char → Nat × List Char
  | [] => (n, [])
  | c :: cs =>
    let m := Nat.ofDigitChars 10 [c] n
    if m < limit then appendDigits limit m cs else (n, c :: cs)

/-- A decimal number, `significand * 10 ^ exponent`. -/
structure Decimal where
  significand : Nat
  exponent : Int
deriving DecidableEq

/-- The number of the digits before and behind a point. It keeps the first digits that fit into
64 bits and is cut off behind them. -/
def Decimal.ofDigits (whole fraction : List Char) : Decimal :=
  let (n, wholeRest) := appendDigits (Nat.pow 2 64) 0 whole
  let (n, fractionRest) := appendDigits (Nat.pow 2 64) n fraction
  ⟨n, wholeRest.length + fractionRest.length - fraction.length⟩

def Decimal.scale (d : Decimal) (exponent : Int) : Decimal :=
  { d with exponent := d.exponent + exponent }

/-- Whether a number is too large for a double, which is the rounded product of the doubles
nearest to the significand and to the power of ten. -/
def Decimal.overflows (d : Decimal) : Bool :=
  d.significand ≠ 0 && 0 ≤ d.exponent && (308 < d.exponent ||
    Nat.pow 2 1024 ≤
      roundBits 53 (roundBits 53 d.significand * roundBits 53 (Nat.pow 10 d.exponent.toNat)))

end Staging

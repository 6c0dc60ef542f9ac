import JMinusMinus.Decimal.Numeral

/-!
# Doubles

A double is a sign and a magnitude. The magnitude is the lower 63 bits of the IEEE 754
binary64 format read as a number, so magnitudes order as the values do.

* Reading rounds a decimal to the nearest double, a tie to the even magnitude. What is too
  large becomes infinity, what is too small zero.
* Writing takes the fewest digits that read back, and of those the nearest to the value, a tie
  upwards. Notation is positional from `1e-4` up to `1e16`, with at least one digit after the
  point, and scientific elsewhere.

All arithmetic is exact, on natural numbers. A positive value is `m * 2 ^ q`, handled as a
quotient of naturals.
-/

namespace JMinusMinus

structure Binary64 where
  /-- Whether the sign bit is set. -/
  negative : Bool
  /-- The other 63 bits as a number. -/
  magnitude : Nat
deriving DecidableEq

namespace Binary64

def infinity : Nat := 0x7ff * Nat.pow 2 52

def quietNaN : Nat := infinity + Nat.pow 2 51

def bits (x : Binary64) : Nat := (if x.negative then Nat.pow 2 63 else 0) + x.magnitude

def ofBits (n : Nat) : Binary64 := ⟨Nat.pow 2 63 ≤ n % Nat.pow 2 64, n % Nat.pow 2 63⟩

def one : Binary64 := ⟨false, 0x3ff * Nat.pow 2 52⟩

def zero : Binary64 := ⟨false, 0⟩

/-! ## Rounding -/

/-- A quotient rounded to the nearest natural, a tie to the even one. -/
def roundToEven (num den : Nat) : Nat :=
  let q := num / den
  let r := num % den
  if 2 * r < den then q
  else if 2 * r > den then q + 1
  else if q % 2 = 0 then q else q + 1

/-- The exponent of two whose power is the last below or at a positive quotient. -/
def binaryExponent (num den : Nat) : Int :=
  let t : Int := (Nat.log2 num : Int) - (Nat.log2 den : Int)
  let reaches := if 0 ≤ t then den * Nat.pow 2 t.toNat ≤ num else den ≤ num * Nat.pow 2 (-t).toNat
  if reaches then t else t - 1

/-- The magnitude nearest to a positive quotient. -/
def nearest (num den : Nat) : Nat :=
  let e := max (binaryExponent num den - 52) (-1074)
  let m := if 0 ≤ e then roundToEven num (den * Nat.pow 2 e.toNat)
    else roundToEven (num * Nat.pow 2 (-e).toNat) den
  min ((e + 1074).toNat * Nat.pow 2 52 + m) infinity

def ofDecimal (m : Nat) (e : Int) : Nat :=
  let top := e + ((Nat.toDigits 10 m).length : Int)
  if m = 0 || top < -400 then 0
  else if 400 < top then infinity
  else if 0 ≤ e then nearest (m * Nat.pow 10 e.toNat) 1
  else nearest m (Nat.pow 10 (-e).toNat)

def ofInt (n : Int) : Binary64 := ⟨n < 0, ofDecimal n.natAbs 0⟩

/-! ## Reading -/

/-- The value of an exponent part, which may be missing but not incomplete. -/
def exponent? : List Char → Option Int
  | [] => some 0
  | c :: cs => if c = 'e' || c = 'E' then Numeral.int? cs else none

/-- The magnitude of a decimal: digits, a point among them or not, then an exponent. -/
def decimal? (cs : List Char) : Option Nat :=
  let whole := cs.takeWhile Char.isDigit
  let rest := cs.dropWhile Char.isDigit
  let (fraction, rest) := match rest with
    | '.' :: cs => (cs.takeWhile Char.isDigit, cs.dropWhile Char.isDigit)
    | cs => ([], cs)
  let digits := whole ++ fraction
  if digits.isEmpty then none
  else (exponent? rest).map fun e =>
    ofDecimal (Numeral.valueFrom 0 digits) (e - (fraction.length : Int))

/-- The magnitude a word names, in any case. -/
def named? (cs : List Char) : Option Nat :=
  let word := String.ofList (cs.map Char.toLower)
  if word == "inf" || word == "infinity" then some infinity
  else if word == "nan" then some quietNaN
  else none

def unsigned? (cs : List Char) : Option Nat := (decimal? cs).or (named? cs)

def read? : List Char → Option Binary64
  | '-' :: cs => (unsigned? cs).map (⟨true, ·⟩)
  | '+' :: cs => (unsigned? cs).map (⟨false, ·⟩)
  | cs => (unsigned? cs).map (⟨false, ·⟩)

/-! ## Shortest digits -/

/-- A positive value and the ends of the interval that rounds to it, over one denominator. -/
structure Interval where
  low : Nat
  value : Nat
  high : Nat
  den : Nat
  /-- Whether the ends belong to the interval. -/
  closed : Bool

def interval (magnitude : Nat) : Interval :=
  let field := magnitude / Nat.pow 2 52
  let fraction := magnitude % Nat.pow 2 52
  let m := if field = 0 then fraction else fraction + Nat.pow 2 52
  let q : Int := (max field 1 : Nat) - 1075
  let scale := if 2 ≤ q then Nat.pow 2 (q - 2).toNat else 1
  let den := if 2 ≤ q then 1 else Nat.pow 2 (2 - q).toNat
  let below := if fraction = 0 && 1 < field then 1 else 2
  ⟨(4 * m - below) * scale, 4 * m * scale, (4 * m + 2) * scale, den, m % 2 = 0⟩

/-- The least `p` from a start on, within a bound, such that the value is below `10 ^ p`. -/
def leastPower (num den : Nat) : Nat → Int → Int
  | 0, p => p
  | bound + 1, p =>
    let below := if 0 ≤ p then num < den * Nat.pow 10 p.toNat
      else num * Nat.pow 10 (-p).toNat < den
    if below then p else leastPower num den bound (p + 1)

/-- Where the point of a positive quotient stands, counted from the left of its first digit.
The binary exponent gives it up to two steps. -/
def decimalPoint (num den : Nat) : Int :=
  leastPower num den 4 (binaryExponent num den * 30103 / 100000 - 1)

def gridStep (e : Int) : Nat × Nat :=
  if 0 ≤ e then (Nat.pow 10 e.toNat, 1) else (1, Nat.pow 10 (-e).toNat)

/-- Whether a grid point lies in the interval. -/
def Interval.contains (i : Interval) (c : Nat) (step : Nat × Nat) : Bool :=
  let x := c * step.1 * i.den
  let low := i.low * step.2
  let high := i.high * step.2
  if i.closed then low ≤ x && x ≤ high else low < x && x < high

/-- The grid point in the interval nearest to the value, a tie upwards. -/
def Interval.onGrid? (i : Interval) (e : Int) : Option Nat :=
  let step := gridStep e
  let num := i.value * step.2
  let den := step.1 * i.den
  let c := num / den
  let down := i.contains c step && c ≠ 0
  let up := i.contains (c + 1) step
  if up && (!down || 2 * (num % den) ≥ den) then some (c + 1)
  else if down then some c
  else none

/-- The first grid with a point in the interval, from `count` digits on, within a bound. -/
def Interval.shortest (i : Interval) (point : Int) : Nat → Nat → Nat × Int
  | 0, count => (i.value / i.den, point - (count : Int))
  | bound + 1, count =>
    match i.onGrid? (point - (count : Int)) with
    | some c => (c, point - (count : Int))
    | none => i.shortest point bound (count + 1)

def trimZeros (digits : List Char) : List Char := (digits.reverse.dropWhile (· = '0')).reverse

/-- The fewest digits that read back, and where their point stands. -/
def shortestDigits (magnitude : Nat) : List Char × Int :=
  let i := interval magnitude
  let point := decimalPoint i.value i.den
  let (c, e) := i.shortest point 17 1
  let digits := Nat.toDigits 10 c
  (trimZeros digits, e + (digits.length : Int))

/-! ## Writing -/

def positional (digits : List Char) (point : Int) : List Char :=
  if point ≤ 0 then ['0', '.'] ++ List.replicate (-point).toNat '0' ++ digits
  else
    let n := point.toNat
    let whole := digits.take n ++ List.replicate (n - digits.length) '0'
    let fraction := digits.drop n
    whole ++ ['.'] ++ (if fraction.isEmpty then ['0'] else fraction)

/-- Scientific notation: one digit, the others after a point, the exponent. -/
def scientific (digits : List Char) (point : Int) : List Char :=
  let mantissa := match digits with
    | [] => []
    | [d] => [d]
    | d :: ds => d :: '.' :: ds
  mantissa ++ ['e'] ++ (toString (point - 1)).toList

def magnitudeText (magnitude : Nat) : List Char :=
  if magnitude > infinity then ['N', 'a', 'N']
  else if magnitude = infinity then ['i', 'n', 'f']
  else if magnitude = 0 then ['0', '.', '0']
  else
    let (digits, point) := shortestDigits magnitude
    if -3 ≤ point && point ≤ 16 then positional digits point else scientific digits point

/-- The text of a double. NaN has no sign. -/
def text (x : Binary64) : String :=
  let sign := if x.negative && x.magnitude ≤ infinity then ['-'] else []
  String.ofList (sign ++ magnitudeText x.magnitude)

/-- The bits as sixteen hexadecimal digits. -/
def hex (x : Binary64) : String :=
  let digits := Nat.toDigits 16 x.bits
  String.ofList (List.replicate (16 - digits.length) '0' ++ digits)

end Binary64

end JMinusMinus

import DexLift.Text.Basic

/-!
# Binary floating-point values

A bit pattern is a sign, an exponent and a fraction. Everything that prints a
value works on its exact form, a natural number times a power of two.
-/

namespace DexLift.Decimal

/-- How a binary format divides its bits. -/
structure Layout where
  fractionBits : Nat
  exponentBits : Nat

/-- Thirty-two bits. -/
def Layout.single : Layout := ⟨23, 8⟩

/-- Sixty-four bits. -/
def Layout.double : Layout := ⟨52, 11⟩

/-- What a bit pattern stands for. -/
inductive Number where
  | nan
  | infinite (negative : Bool)
  /-- The value `significand * 2 ^ exponent`. `atBinade` says that the value is a power of two whose
  neighbour below is half as far away as the one above. -/
  | finite (negative : Bool) (significand : Nat) (exponent : Int) (atBinade : Bool)

def Layout.decode (layout : Layout) (bits : Nat) : Number :=
  let fraction := bits % (1 <<< layout.fractionBits)
  let biased := (bits >>> layout.fractionBits) % (1 <<< layout.exponentBits)
  let negative := bits.testBit (layout.fractionBits + layout.exponentBits)
  let top := (1 <<< layout.exponentBits) - 1
  let bias : Int := ((1 <<< (layout.exponentBits - 1)) + layout.fractionBits : Nat) - 1
  if biased = top then
    if fraction = 0 then .infinite negative else .nan
  else if biased = 0 then .finite negative fraction (1 - bias) false
  else .finite negative ((1 <<< layout.fractionBits) + fraction) (biased - bias)
    (fraction = 0 && biased > 1)

/-!
## A fixed number of decimal places

The exact value is rounded to a multiple of the last place; a value exactly
halfway between two multiples goes to the even one.
-/

/-- The natural number nearest to `num / den`; halfway goes to the even neighbour. -/
def roundToEven (num den : Nat) : Nat :=
  let below := num / den
  let twice := 2 * (num % den)
  if twice < den then below
  else if twice > den then below + 1
  else below + below % 2

/-- A natural number of units of `10 ^ -places`, written with that many places. -/
def placesText (places units : Nat) : Text :=
  let digits := Text.padLeft (places + 1) 48 (Text.ofNat units)
  let integral := digits.length - places
  digits.take integral ++ "." ++ digits.drop integral

def fixed (places : Nat) (value : Float) : Text :=
  match Layout.double.decode value.toBits.toNat with
  | .nan => "NaN"
  | .infinite negative => if negative then "-Inf" else "+Inf"
  | .finite negative significand exponent _ =>
    let units := roundToEven ((significand * Nat.pow 10 places) <<< exponent.toNat)
      (1 <<< (-exponent).toNat)
    (if negative then "-" else "") ++ placesText places units

/-!
## The fewest digits that read back

The reals that round to a given value form an interval around it, closed when
the significand is even. For one digit, two digits and so on, the two
neighbours of the value on that decimal grid are tested against the interval;
the first grid with a hit wins, and of two hits the nearer; half way between
them the even one.
-/

/-- A positive decimal: the digits read as a number, times ten to `scale`. -/
structure Digits where
  digits : Nat
  scale : Int
deriving DecidableEq, Repr

/-- A fraction of natural numbers; every bound is compared by cross multiplication. -/
structure Fraction where
  num : Nat
  den : Nat

def Fraction.scaled (n : Nat) (twos tens : Int) : Fraction :=
  ⟨(n <<< twos.toNat) * Nat.pow 10 tens.toNat, (1 <<< (-twos).toNat) * Nat.pow 10 (-tens).toNat⟩

/-- Less or equal. -/
def Fraction.le (a b : Fraction) : Bool := a.num * b.den ≤ b.num * a.den

def Fraction.lt (a b : Fraction) : Bool := a.num * b.den < b.num * a.den

/-- The interval of reals that round to one value, in units of a quarter of its last place. -/
structure Interval where
  low : Nat
  value : Nat
  high : Nat
  exponent : Int
  closed : Bool

def Interval.around (significand : Nat) (exponent : Int) (atBinade : Bool) : Interval :=
  { low := 4 * significand - (if atBinade then 1 else 2)
    value := 4 * significand
    high := 4 * significand + 2
    exponent := exponent - 2
    closed := significand % 2 = 0 }

def Interval.holds (interval : Interval) (digits : Nat) (scale : Int) : Bool :=
  let candidate := Fraction.scaled digits 0 scale
  let low := Fraction.scaled interval.low interval.exponent 0
  let high := Fraction.scaled interval.high interval.exponent 0
  if interval.closed then low.le candidate && candidate.le high
  else low.lt candidate && candidate.lt high

def Interval.hit? (interval : Interval) (scale : Int) : Option Digits :=
  let value := Fraction.scaled interval.value interval.exponent (-scale)
  let below := value.num / value.den
  let above := below + 1
  let belowIn := below > 0 && interval.holds below scale
  let aboveIn := interval.holds above scale
  -- twice the value against the sum of its neighbours
  let twice := 2 * value.num
  let middle := (below + above) * value.den
  let nearBelow := twice < middle ∨ twice = middle ∧ below % 2 = 0
  if belowIn && (!aboveIn || nearBelow) then some ⟨below, scale⟩
  else if aboveIn then some ⟨above, scale⟩
  else none

def Interval.firstHit (interval : Interval) (scale : Int) : Nat → Digits
  | 0 => ⟨0, 0⟩
  | tries + 1 =>
    match interval.hit? scale with
    | some digits => digits
    | none => interval.firstHit (scale - 1) tries

def shortest (significand : Nat) (exponent : Int) (atBinade : Bool) : Digits :=
  let interval := Interval.around significand exponent atBinade
  -- no value of these formats reaches ten to the power 310
  interval.firstHit 310 700

def Digits.text (d : Digits) : Text := Text.ofNat d.digits

def placePoint (digits : Text) (integral : Nat) : Text :=
  if digits.length ≤ integral then ⟨digits.bytes ++ List.replicate (integral - digits.length) 48⟩
  else digits.take integral ++ "." ++ digits.drop integral

/-- Positional below ten to the sixth and from ten to the minus fourth on, else with an exponent
of at least two digits. -/
def Digits.general (d : Digits) : Text :=
  let digits := d.text
  let point : Int := digits.length + d.scale
  let exponent := point - 1
  if exponent < -4 ∨ exponent ≥ 6 then
    let size := Text.ofNat exponent.natAbs
    placePoint digits 1 ++ (if exponent < 0 then "e-" else "e+") ++ Text.padLeft 2 48 size
  else if point ≤ 0 then "0." ++ (⟨List.replicate (-point).toNat 48⟩ : Text) ++ digits
  else placePoint digits point.toNat

/-- The text of a value: as few digits as read back. -/
def general (layout : Layout) (bits : Nat) : Text :=
  match layout.decode bits with
  | .nan => "NaN"
  | .infinite negative => if negative then "-Inf" else "+Inf"
  | .finite negative significand exponent atBinade =>
    let size : Text :=
      if significand = 0 then "0" else (shortest significand exponent atBinade).general
    if negative then "-" ++ size else size

end DexLift.Decimal

/-!
# The shortest decimal of a binary number

A finite binary word stands for every real number that rounds to it. Of the decimals in that
interval, `shortest` takes those with the fewest digits, and of these the one nearest to the
word's own value; when two are equally near, the larger. All arithmetic is exact, on naturals.

A `DecimalStyle` says how such a decimal is written: whether an integer keeps a `.0`, and which
decimal exponents are written out in full.
-/

namespace SeaOfNodes.Text

/-- How many bits of a binary word are its fraction and its exponent. -/
structure FloatLayout where
  fractionBits : Nat
  exponentBits : Nat

/-- The 32-bit layout. -/
def FloatLayout.single : FloatLayout := ⟨23, 8⟩

/-- The 64-bit layout. -/
def FloatLayout.double : FloatLayout := ⟨52, 11⟩

/-- What a binary word stands for. A finite word is `mantissa * 2 ^ exponent`; the gap below it is
half the gap above it when `narrowBelow` holds. -/
inductive FloatValue
  | nan
  | infinite (negative : Bool)
  | finite (negative : Bool) (mantissa : Nat) (exponent : Int) (narrowBelow : Bool)

/-- Read a word of the given layout. -/
def FloatLayout.read (layout : FloatLayout) (bits : Nat) : FloatValue :=
  let unit := Nat.pow 2 layout.fractionBits
  let range := Nat.pow 2 layout.exponentBits
  let fraction := bits % unit
  let biased := bits / unit % range
  let negative := bits / (unit * range) % 2 == 1
  let least : Int := 2 - (range / 2 : Nat) - (layout.fractionBits : Int)
  if biased = range - 1 then
    if fraction = 0 then .infinite negative else .nan
  else if biased = 0 then .finite negative fraction least false
  else
    .finite negative (unit + fraction) (least + (biased : Int) - 1)
      (fraction == 0 && 1 < biased)

/-- A decimal: `digits * 10 ^ scale`. -/
structure Decimal where
  digits : Nat
  scale : Int

/-- The power `base ^ e` as a numerator and a denominator. -/
def ratio (base : Nat) (e : Int) : Nat × Nat :=
  if 0 ≤ e then (base.pow e.toNat, 1) else (1, base.pow (-e).toNat)

/-- A value and the ends of the interval that rounds to it, over one denominator. -/
structure Interval where
  low : Nat
  value : Nat
  high : Nat
  denominator : Nat
  /-- Whether the ends belong to the interval. -/
  closed : Bool

/-- The reals that round to `mantissa * 2 ^ exponent`; ties go to the even mantissa. -/
def Interval.ofBinary (mantissa : Nat) (exponent : Int) (narrowBelow : Bool) : Interval :=
  let (num, den) := ratio 2 (exponent - 2)
  { low := (4 * mantissa - if narrowBelow then 1 else 2) * num
    value := 4 * mantissa * num
    high := (4 * mantissa + 2) * num
    denominator := den
    closed := mantissa % 2 == 0 }

/-- Whether `c * num / den` lies in the interval. -/
def Interval.contains (i : Interval) (c num den : Nat) : Bool :=
  let scaled := c * num * i.denominator
  if i.closed then i.low * den ≤ scaled && scaled ≤ i.high * den
  else i.low * den < scaled && scaled < i.high * den

/-- Search upwards for the first `k` with `value < 10 ^ k`. -/
def Interval.magnitudeFrom (i : Interval) : Nat → Int → Int
  | 0, k => k
  | fuel + 1, k =>
    let (num, den) := ratio 10 k
    if i.value * den < num * i.denominator then k else i.magnitudeFrom fuel (k + 1)

/-- The number of digits before the point, negative for a value below one tenth. -/
def Interval.magnitude (i : Interval) : Int := i.magnitudeFrom 800 (-400)

/-- The decimal of `n` digits nearest to the value, if one of its two neighbours on that grid lies
in the interval. -/
def Interval.onGrid (i : Interval) (k : Int) (n : Nat) : Option Decimal :=
  let scale := k - n
  let (num, den) := ratio 10 scale
  let below := i.value * den / (num * i.denominator)
  let hitsBelow := i.contains below num den
  let hitsAbove := i.contains (below + 1) num den
  if hitsBelow && hitsAbove then
    if 2 * i.value * den < (2 * below + 1) * num * i.denominator then some ⟨below, scale⟩
    else some ⟨below + 1, scale⟩
  else if hitsBelow then some ⟨below, scale⟩
  else if hitsAbove then some ⟨below + 1, scale⟩
  else none

/-- Drop trailing zeros of the digits. -/
def Decimal.trim : Nat → Decimal → Decimal
  | 0, d => d
  | fuel + 1, d =>
    if d.digits ≠ 0 && d.digits % 10 = 0 then trim fuel ⟨d.digits / 10, d.scale + 1⟩ else d

/-- The shortest decimal that reads back as the given word. Seventeen digits always suffice. -/
def shortest (mantissa : Nat) (exponent : Int) (narrowBelow : Bool) : Decimal :=
  let i := Interval.ofBinary mantissa exponent narrowBelow
  let k := i.magnitude
  match (List.range 17).findSome? fun n => i.onGrid k (n + 1) with
  | some d => d.trim 20
  | none => ⟨0, 0⟩

/-! ### Writing decimals -/

/-- How decimals are written. -/
structure DecimalStyle where
  /-- Whether an integer is followed by `.0`. -/
  pointZero : Bool
  /-- The decimal exponents written out in full; all of them if absent. -/
  positional : Option (Int × Int)

/-- Digits with the point after the first `point` of them, zeros filled in on either side. -/
def positionalText (style : DecimalStyle) (digits : String) (point : Int) : String :=
  let size : Int := digits.length
  if point ≤ 0 then "0." ++ String.ofList (List.replicate (-point).toNat '0') ++ digits
  else if size ≤ point then
    digits ++ String.ofList (List.replicate (point - size).toNat '0') ++
      if style.pointZero then ".0" else ""
  else
    String.ofList (digits.toList.take point.toNat) ++ "." ++
      String.ofList (digits.toList.drop point.toNat)

/-- One digit, the point, the other digits, and the exponent. -/
def exponentText (digits : String) (exponent : Int) : String :=
  let rest := String.ofList (digits.toList.drop 1)
  String.ofList (digits.toList.take 1) ++ (if rest.isEmpty then "" else "." ++ rest) ++ "e" ++
    toString exponent

/-- A decimal in the given style. -/
def Decimal.text (d : Decimal) (style : DecimalStyle) : String :=
  let digits := toString d.digits
  let point : Int := d.scale + digits.length
  match style.positional with
  | some (least, most) =>
    if least ≤ point - 1 && point - 1 ≤ most then positionalText style digits point
    else exponentText digits (point - 1)
  | none => positionalText style digits point

/-- A binary word as text. Zero keeps its sign; a NaN has none. -/
def FloatLayout.text (layout : FloatLayout) (style : DecimalStyle) (bits : Nat) : String :=
  let sign (negative : Bool) := if negative then "-" else ""
  match layout.read bits with
  | .nan => "NaN"
  | .infinite negative => sign negative ++ "inf"
  | .finite negative 0 _ _ => sign negative ++ if style.pointZero then "0.0" else "0"
  | .finite negative mantissa exponent narrowBelow =>
    sign negative ++ (shortest mantissa exponent narrowBelow).text style

end SeaOfNodes.Text

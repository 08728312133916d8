/-!
# Shortest decimals

A binary number `m · 2 ^ q` is shown by the decimal with the fewest digits that is read back as
the same number, i.e., that lies nearer to it than to its neighbours; among those with the same
number of digits, by the nearest.
-/

namespace Frontend.Decimal

/-- A binary number `mantissa · 2 ^ exponent`. The number below it is half as far away as the
    one above if it is `lowest` of those with its exponent. -/
structure Binary where
  mantissa : Nat
  exponent : Int
  lowest : Bool

/-- The fraction `n · 2 ^ q / 10 ^ e`, as a numerator and a denominator. -/
def scaled (n : Nat) (q e : Int) : Nat × Nat :=
  (n * Nat.pow 2 q.toNat * Nat.pow 10 (-e).toNat, Nat.pow 2 (-q).toNat * Nat.pow 10 e.toNat)

/-- Whether `d` times `10 ^ e` is read back as the number `b`. It has to lie within half the
    distance to the neighbours; at exactly half, an even mantissa wins. -/
def Binary.isNear (b : Binary) (d : Nat) (e : Int) : Bool :=
  let q := b.exponent - 2
  let (lo, den) := scaled (4 * b.mantissa - (if b.lowest then 1 else 2)) q e
  let (hi, _) := scaled (4 * b.mantissa + 2) q e
  if b.mantissa % 2 = 0 then lo ≤ d * den && d * den ≤ hi
  else lo < d * den && d * den < hi

/-- The nearest of the numbers with exponent `e` that are read back as `b`; of two equally
    near the even one. -/
def Binary.nearest? (b : Binary) (e : Int) : Option Nat :=
  let (num, den) := scaled b.mantissa b.exponent e
  let d := num / den
  let below := b.isNear d e
  let above := b.isNear (d + 1) e
  let twice := 2 * (num % den)
  if below && above then
    some (if twice < den || (twice == den && d % 2 == 0) then d else d + 1)
  else if below then some d
  else if above then some (d + 1)
  else none

/-- The greatest `k` with `10 ^ k` at most the number, for a number that is not zero and whose
    `k` lies above `low` and below `low + span`. -/
def Binary.magnitude (b : Binary) (low : Int) : Nat → Int
  | 0 => low
  | span + 1 =>
    let k := low + span
    let (num, den) := scaled b.mantissa b.exponent k
    if den ≤ num then k else b.magnitude low span

/-- The digits and the exponent of the shortest decimal of a number that is not zero. -/
def Binary.shortest (b : Binary) : Nat × Int :=
  let k := b.magnitude (-330) 650
  let found := (List.range 17).findSome? fun n : Nat =>
    (b.nearest? (k - n)).map fun d => (d, k - n)
  found.getD (b.mantissa, b.exponent)

/-- The digits without zeros at their end, with the exponent that makes up for them. -/
def trim : Nat → Nat → Int → Nat × Int
  | 0, d, e => (d, e)
  | fuel + 1, d, e => if d % 10 = 0 && d ≠ 0 then trim fuel (d / 10) (e + 1) else (d, e)

/-- A finite binary number of 64 bits by its bits: eleven of exponent, then 52 of mantissa. -/
def Binary.ofBits (bits : Nat) : Binary :=
  let unit := Nat.pow 2 52
  let e : Nat := bits / unit % Nat.pow 2 11
  let f : Nat := bits % unit
  if e = 0 then ⟨f, -1074, false⟩
  else ⟨f + unit, (e : Int) - 1075, f == 0 && e != 1⟩

/-- A decimal `d · 10 ^ e` as text. It is written out if its point falls within the first
    sixteen digits or up to five places before them, and always has a fractional part then;
    else it has one digit before the point and an exponent with a sign. -/
def write (d : Nat) (e : Int) : String :=
  let digits := toString d
  let point := e + digits.length
  let zeros := fun n : Int => String.join (List.replicate n.toNat "0")
  if 0 ≤ e && point ≤ 16 then digits ++ zeros e ++ ".0"
  else if 0 < point && point ≤ 16 then
    String.ofList (digits.toList.take point.toNat) ++ "."
      ++ String.ofList (digits.toList.drop point.toNat)
  else if -5 < point && point ≤ 0 then "0." ++ zeros (-point) ++ digits
  else
    let head := String.ofList (digits.toList.take 1)
    let tail := String.ofList (digits.toList.drop 1)
    head ++ (if tail.isEmpty then "" else "." ++ tail) ++ (if 0 < point then "e+" else "e")
      ++ toString (point - 1)

/-- A finite number of 64 bits as text. -/
def ofFloat (x : Float) : String :=
  let bits := x.toBits.toNat
  let b := Binary.ofBits bits
  let sign := if bits / Nat.pow 2 63 = 1 then "-" else ""
  if b.mantissa = 0 then sign ++ "0.0"
  else
    let (d, e) := b.shortest
    let (d, e) := trim 20 d e
    sign ++ write d e

end Frontend.Decimal

/-!
Decimal texts of numbers. A quotient is first taken to the nearest value with 53 binary digits, then
written with a fixed number of decimals; both steps round a half to the even neighbour.
-/
namespace TreeRepair.Text

/-- The decimal digits of a number. -/
def digits (n : Nat) : List Char := Nat.toDigits 10 n

/-- A list of digits with zeros in front, up to a length. -/
def padZeros (length : Nat) (ds : List Char) : List Char :=
  List.replicate (length - ds.length) '0' ++ ds

/-- The quotient rounded to a whole number, a half to the even neighbour. -/
def roundDiv (n d : Nat) : Nat :=
  let q := n / d
  let twice := 2 * (n % d)
  if twice < d then q
  else if d < twice then q + 1
  else if q % 2 = 0 then q else q + 1

/-- How often a quotient of at most `2 ^ 52` has to be doubled to have 53 binary digits. -/
def doublings (n d : Nat) : Nat :=
  let s := 52 + d.log2 - n.log2
  if n * Nat.pow 2 s < d * Nat.pow 2 52 then s + 1 else s

/-- A quotient at the nearest value with 53 binary digits, as a whole number and the power of two
that it is divided by. -/
def nearestBinary (n d : Nat) : Nat × Nat :=
  if n = 0 ∨ d = 0 then (0, 1)
  else
    let scale := Nat.pow 2 (doublings n d)
    (roundDiv (n * scale) d, scale)

/-- A quotient with a number of decimals; zero if the denominator is zero. -/
def fixedPoint (places n d : Nat) : List Char :=
  let (m, scale) := nearestBinary n d
  let units := roundDiv (m * Nat.pow 10 places) scale
  digits (units / Nat.pow 10 places) ++ '.' :: padZeros places (digits (units % Nat.pow 10 places))

end TreeRepair.Text

import YamlCheck.Number.Binary64

/-!
# Shortest decimal text

A number is written with the fewest decimal digits that read back as the same number, and among
those with the digits nearest to it.  The reals that read back as `m · 2^e` form an interval around
it; for one digit, two digits and so on the two neighbours of the number on the decimal grid of
that length are tried, and the first grid with a hit decides.
-/

namespace YamlCheck.Number

/-- Four times the ends of the interval of reals that round to `m · 2^e`, in units of `2^(e-2)`;
the lower half is narrower just above a power of two. -/
def readBackBounds (m : Nat) (e : Int) : Nat × Nat :=
  (if m == twoTo 52 && e != -1074 then 4 * m - 1 else 4 * m - 2, 4 * m + 2)

/-- Whether `digits · 10^k` reads back as `m · 2^e`. -/
def readsBack (m : Nat) (e : Int) (digits : Nat) (k : Int) : Bool :=
  let (lo, hi) := readBackBounds m e
  -- Both sides of a comparison are multiplied until they are integers.
  let two := e - 2
  let left := digits * (if 0 ≤ k then tenTo k.toNat else 1)
    * (if two < 0 then twoTo (-two).toNat else 1)
  let unit := (if k < 0 then tenTo (-k).toNat else 1) * (if 0 ≤ two then twoTo two.toNat else 1)
  if m % 2 == 0 then lo * unit ≤ left && left ≤ hi * unit
  else lo * unit < left && left < hi * unit

/-- The number of digits before the decimal point of `num / den`, or minus the number of zeros
just after it: `10^(p-1) ≤ num / den < 10^p`. -/
def pointPosition (num den : Nat) : Int :=
  let guess : Int :=
    (((num.log2 : Int) - den.log2 - 1) * 30103).fdiv 100000
  let below (p : Int) : Bool :=
    if 0 ≤ p then num < den * tenTo p.toNat else num * tenTo (-p).toNat < den
  if below guess then guess
  else if below (guess + 1) then guess + 1
  else if below (guess + 2) then guess + 2
  else guess + 3

/-- The neighbour of `num / den` on the grid of multiples of `10^k` that reads back as `m · 2^e`,
the nearer one if both do. -/
def gridHit (m : Nat) (e : Int) (num den : Nat) (k : Int) : Option Nat :=
  let a := if 0 ≤ k then num else num * tenTo (-k).toNat
  let b := if 0 ≤ k then den * tenTo k.toNat else den
  let below := a / b
  let nearest := roundHalfEven a b
  let other := if nearest == below then below + 1 else below
  if readsBack m e nearest k then some nearest
  else if readsBack m e other k then some other
  else none

/-- The digits and the position of the decimal point before them: `0.d₁d₂… · 10^p`. -/
def shortestDigits (m : Nat) (e : Int) : List Char × Int :=
  let (num, den) := Binary64.quotient m e
  let p := pointPosition num den
  let rec try' : Nat → Nat → List Char × Int
    | 0, count => ((Nat.toDigits 10 (roundHalfEven num den)), (count : Int))
    | fuel + 1, count =>
      match gridHit m e num den (p - count) with
      | some d =>
        let ds := Nat.toDigits 10 d
        (ds, p + ((ds.length : Int) - count))
      | none => try' fuel (count + 1)
  try' 17 1

def trimZeros (ds : List Char) : List Char :=
  (ds.reverse.dropWhile (· == '0')).reverse

/-- The text of a number: positional between `10^-4` and `10^16`, with at least one digit after
the point; otherwise with an exponent of at least two digits. -/
def Binary64.text : Binary64 → String
  | .nan => "nan"
  | .infinite s => if s then "-inf" else "inf"
  | .finite s m e =>
    let sign := if s then ['-'] else []
    if m == 0 then String.ofList (sign ++ ['0', '.', '0'])
    else
      let (ds, p) := shortestDigits m e
      let ds := trimZeros ds
      let body :=
        if -4 < p && p ≤ 16 then
          if p ≤ 0 then '0' :: '.' :: (List.replicate (-p).toNat '0' ++ ds)
          else if ds.length ≤ p.toNat then
            ds ++ List.replicate (p.toNat - ds.length) '0' ++ ['.', '0']
          else ds.take p.toNat ++ '.' :: ds.drop p.toNat
        else
          let x := p - 1
          let xs := Nat.toDigits 10 x.natAbs
          let xs := if xs.length < 2 then '0' :: xs else xs
          let head := match ds with
            | [d] => [d]
            | d :: rest => d :: '.' :: rest
            | [] => []
          head ++ 'e' :: (if x < 0 then '-' else '+') :: xs
      String.ofList (sign ++ body)

end YamlCheck.Number

/-!
# Binary floating-point numbers

Numbers with a significand of 53 bits, kept as exact integers so that statements about them are
statements about integers.  Every operation computes the exact rational result and rounds it once,
to the nearest representable number and to the even one on a tie.
-/

namespace YamlCheck.Number

/-- A floating-point number: `±m · 2^e`, an infinity or no number at all.  Finite values come from
`Binary64.ofQuotient`, which keeps `m < 2^53`, `-1074 ≤ e ≤ 971`, and `2^52 ≤ m` unless
`e = -1074`, so that equal numbers are equal structures but for the sign of zero. -/
inductive Binary64
  | finite (negative : Bool) (m : Nat) (e : Int)
  | infinite (negative : Bool)
  | nan
  deriving Repr, DecidableEq

def twoTo (n : Nat) : Nat := Nat.pow 2 n

def tenTo (n : Nat) : Nat := Nat.pow 10 n

/-- The integer nearest to `num / den`, the even one on a tie. -/
def roundHalfEven (num den : Nat) : Nat :=
  let q := num / den
  let r := num % den
  if 2 * r < den then q
  else if den < 2 * r then q + 1
  else if q % 2 == 0 then q else q + 1

def scaled (num den : Nat) (e : Int) : Nat × Nat :=
  if 0 ≤ e then (num, den * twoTo e.toNat) else (num * twoTo (-e).toNat, den)

namespace Binary64

def zero (negative : Bool) : Binary64 := .finite negative 0 (-1074)

/-- The number nearest to `± num / den`; `den` is positive. -/
def ofQuotient (negative : Bool) (num den : Nat) : Binary64 :=
  if num == 0 then zero negative
  else
    let low : Int := max ((num.log2 : Int) - den.log2 - 53) (-1074)
    let coarse := scaled num den low
    let e := if coarse.1 / coarse.2 < twoTo 53 then low else low + 1
    let fine := scaled num den e
    let m := roundHalfEven fine.1 fine.2
    let (m, e) := if m == twoTo 53 then (twoTo 52, e + 1) else (m, e)
    if e > 971 then .infinite negative else .finite negative m e

def ofDecimal (negative : Bool) (digits : Nat) (exponent : Int) : Binary64 :=
  if digits == 0 then zero negative
  else
    let magnitude := ((Nat.toDigits 10 digits).length : Int) + exponent
    if magnitude > 400 then .infinite negative
    else if magnitude < -400 then zero negative
    else if 0 ≤ exponent then ofQuotient negative (digits * tenTo exponent.toNat) 1
    else ofQuotient negative digits (tenTo (-exponent).toNat)

/-- The number nearest to a natural, unless it lies beyond the finite numbers. -/
def ofNat? (n : Nat) : Option Binary64 :=
  match ofQuotient false n 1 with
  | .infinite _ => none
  | x => some x

def quotient (m : Nat) (e : Int) : Nat × Nat :=
  if 0 ≤ e then (m * twoTo e.toNat, 1) else (m, twoTo (-e).toNat)

def neg : Binary64 → Binary64
  | .finite s m e => .finite (!s) m e
  | .infinite s => .infinite (!s)
  | .nan => .nan

def mul : Binary64 → Binary64 → Binary64
  | .nan, _ => .nan
  | _, .nan => .nan
  | .infinite s, .infinite t => .infinite (s != t)
  | .infinite s, .finite t m _ => if m == 0 then .nan else .infinite (s != t)
  | .finite s m _, .infinite t => if m == 0 then .nan else .infinite (s != t)
  | .finite s m e, .finite t n f =>
    let a := quotient m e
    let b := quotient n f
    ofQuotient (s != t) (a.1 * b.1) (a.2 * b.2)

def add : Binary64 → Binary64 → Binary64
  | .nan, _ => .nan
  | _, .nan => .nan
  | .infinite s, .infinite t => if s == t then .infinite s else .nan
  | .infinite s, .finite .. => .infinite s
  | .finite .., .infinite t => .infinite t
  | .finite s m e, .finite t n f =>
    let a := quotient m e
    let b := quotient n f
    let x : Int := (if s then -1 else 1) * (a.1 * b.2 : Nat)
    let y : Int := (if t then -1 else 1) * (b.1 * a.2 : Nat)
    if x + y == 0 then zero (s && t) else ofQuotient (decide (x + y < 0)) (x + y).natAbs (a.2 * b.2)

/-- Equality of numbers: the zeros are equal, and nothing equals `nan`. -/
def numEq : Binary64 → Binary64 → Bool
  | .finite s m e, .finite t n f => (m == 0 && n == 0) || (s == t && m == n && e == f)
  | .infinite s, .infinite t => s == t
  | _, _ => false

def eqInt (x : Binary64) (i : Int) : Bool :=
  match x with
  | .finite s m e =>
    let q := quotient m e
    ((if s then -1 else 1) * (q.1 : Int)) == i * q.2
  | _ => false

def isNan : Binary64 → Bool
  | .nan => true
  | _ => false

def toInt? : Binary64 → Option Int
  | .finite s m e =>
    let q := quotient m e
    if q.1 % q.2 == 0 then some ((if s then -1 else 1) * (q.1 / q.2 : Nat)) else none
  | _ => none

end Binary64

end YamlCheck.Number

import NamedContent.Octets

/-!
# The Edwards curve of Ed25519

Arithmetic on the twisted Edwards curve `-x² + y² = 1 + d·x²·y²` over the field of order
`p = 2^255 - 19`. Field elements are natural numbers below `p`. A point is kept in extended
coordinates: `x = X/Z`, `y = Y/Z` and `x·y = T/Z`, which makes addition complete and free of
division.
-/

namespace NamedContent.Edwards

/-! ### The field -/

/-- The order of the field. -/
def p : Nat := (1 <<< 255) - 19

def add (a b : Nat) : Nat := (a + b) % p

def sub (a b : Nat) : Nat := (a + p - b) % p

def mul (a b : Nat) : Nat := a * b % p

/-- The power `a ^ e` by squaring, reading `bits` bits of the exponent from the top. -/
def pow (a e : Nat) : (bits : Nat) → (acc : Nat) → Nat
  | 0, acc => acc
  | i + 1, acc =>
    let square := mul acc acc
    pow a e i (if e.testBit i then mul square a else square)

/-- The inverse of a field element, and zero for zero. -/
def inv (a : Nat) : Nat := pow a (p - 2) 255 1

/-- The curve's constant, `-121665 / 121666`. -/
def d : Nat := 37095705934669439343138083508754565189542113879843219016388785533085940283555

/-- A square root of `-1`. -/
def sqrtMinusOne : Nat :=
  19681161376707505956807079304988542015446066515923890162744021073123829784752

/-- A root `x` of `v·x² = u`, the even one of the two, if there is one. -/
def sqrtRatio? (u v : Nat) : Option Nat :=
  let v3 := mul (mul v v) v
  let v7 := mul (mul v3 v3) v
  let root := mul (mul u v3) (pow (mul u v7) ((p - 5) / 8) 252 1)
  let check := mul v (mul root root)
  let even (r : Nat) : Nat := if r % 2 = 0 then r else sub 0 r
  if check = u then some (even root)
  else if check = sub 0 u then some (even (mul root sqrtMinusOne))
  else none

/-! ### Points -/

/-- A point in extended coordinates. -/
structure Point where
  x : Nat
  y : Nat
  z : Nat
  t : Nat

namespace Point

def zero : Point := ⟨0, 1, 1, 0⟩

def base : Point :=
  let x := 15112221349535400772501151409588531511454012693041857206046113283949847762202
  let y := 46316835694926478169428394003475163141307993866256225615783033603165251855960
  ⟨x, y, 1, mul x y⟩

/-- Sum of two points; also right when they are equal. -/
def add (q r : Point) : Point :=
  let a := mul (Edwards.sub q.y q.x) (Edwards.sub r.y r.x)
  let b := mul (Edwards.add q.y q.x) (Edwards.add r.y r.x)
  let c := mul (mul q.t (2 * d % p)) r.t
  let e := mul (2 * q.z % p) r.z
  let h := Edwards.sub b a
  let f := Edwards.sub e c
  let g := Edwards.add e c
  let k := Edwards.add b a
  ⟨mul h f, mul g k, mul f g, mul h k⟩

def double (q : Point) : Point :=
  let a := mul q.x q.x
  let b := mul q.y q.y
  let c := 2 * mul q.z q.z % p
  let k := Edwards.add a b
  let s := Edwards.add q.x q.y
  let e := Edwards.sub k (mul s s)
  let g := Edwards.sub a b
  let f := Edwards.add c g
  ⟨mul e f, mul g k, mul f g, mul e k⟩

def neg (q : Point) : Point := ⟨Edwards.sub 0 q.x, q.y, q.z, Edwards.sub 0 q.t⟩

/-- The point `acc` doubled `bits` times, with the point added wherever the multiplier has a bit. -/
def mulAux (k : Nat) (q : Point) : (bits : Nat) → (acc : Point) → Point
  | 0, acc => acc
  | i + 1, acc =>
    let twice := acc.double
    mulAux k q i (if k.testBit i then twice.add q else twice)

/-- A multiple of a point, for multipliers below `2 ^ 256`. -/
def mul (q : Point) (k : Nat) : Point := mulAux k q 256 zero

/-- The 32-byte form of a point: its `y`, with the parity of `x` in the top bit. -/
def encode (q : Point) : Block 32 :=
  let zinv := inv q.z
  let x := Edwards.mul q.x zinv
  let y := Edwards.mul q.y zinv
  ⟨Octets.ofNatLE 32 (y + ((x % 2) <<< 255)), Octets.length_ofNatLE ..⟩

/-- The point that 32 bytes stand for. The `y` is taken modulo `p`, and the parity bit is ignored
where `x` is zero. -/
def decode? (b : Block 32) : Option Point := do
  let n := Octets.toNatLE b.octets
  let y := n % (1 <<< 255) % p
  let yy := Edwards.mul y y
  let x ← sqrtRatio? (Edwards.sub yy 1) (Edwards.add (Edwards.mul d yy) 1)
  let x := if n.testBit 255 then Edwards.sub 0 x else x
  return ⟨x, y, 1, Edwards.mul x y⟩

end Point

end NamedContent.Edwards

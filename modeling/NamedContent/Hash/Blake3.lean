import NamedContent.Octets

/-!
# The BLAKE3 hash

The message is cut into chunks of 1024 bytes and each chunk into blocks of 64 bytes. Blocks are
chained through the compression function; the chunks' chaining values are the leaves of a binary
tree, whose levels are formed by joining neighbours, an odd last node moving up unchanged. The
digest is the first 32 bytes of the root's output.

A state of sixteen words is kept as four rows of four, so that a round is one mixing step down the
columns and one down the diagonals, the latter by rotating the rows before and after.
-/

namespace NamedContent.Blake3

/-! ### The compression function -/

/-- Four words of the state. -/
structure Row where
  x0 : UInt32
  x1 : UInt32
  x2 : UInt32
  x3 : UInt32

namespace Row

def zip (f : UInt32 → UInt32 → UInt32) (a b : Row) : Row :=
  ⟨f a.x0 b.x0, f a.x1 b.x1, f a.x2 b.x2, f a.x3 b.x3⟩

def rotate1 (a : Row) : Row := ⟨a.x1, a.x2, a.x3, a.x0⟩

def rotate2 (a : Row) : Row := ⟨a.x2, a.x3, a.x0, a.x1⟩

def rotate3 (a : Row) : Row := ⟨a.x3, a.x0, a.x1, a.x2⟩

def toList (a : Row) : List UInt32 := [a.x0, a.x1, a.x2, a.x3]

end Row

def rotateRight (k : UInt32) (x : UInt32) : UInt32 := (x >>> k) ||| (x <<< (32 - k))

/-- The state of the compression function. -/
structure State where
  a : Row
  b : Row
  c : Row
  d : Row

/-- The quarter-round on all four columns, each with two message words. -/
def mix (s : State) (mx my : Row) : State :=
  let add := Row.zip (· + ·)
  let turn (k : UInt32) := Row.zip fun x y => rotateRight k (x ^^^ y)
  let a := add (add s.a s.b) mx
  let d := turn 16 s.d a
  let c := add s.c d
  let b := turn 12 s.b c
  let a := add (add a b) my
  let d := turn 8 d a
  let c := add c d
  let b := turn 7 b c
  ⟨a, b, c, d⟩

/-- One round: columns with the first eight message words, diagonals with the last eight. -/
def round (s : State) (m : List UInt32) : State :=
  let w (i : Nat) : UInt32 := m.getD i 0
  let s := mix s ⟨w 0, w 2, w 4, w 6⟩ ⟨w 1, w 3, w 5, w 7⟩
  let s := ⟨s.a, s.b.rotate1, s.c.rotate2, s.d.rotate3⟩
  let s := mix s ⟨w 8, w 10, w 12, w 14⟩ ⟨w 9, w 11, w 13, w 15⟩
  ⟨s.a, s.b.rotate3, s.c.rotate2, s.d.rotate1⟩

/-- Where each message word of the next round comes from. -/
def permutation : List Nat := [2, 6, 3, 10, 7, 0, 4, 13, 1, 11, 12, 5, 9, 14, 15, 8]

def permute (m : List UInt32) : List UInt32 := permutation.map fun i => m.getD i 0

/-- Seven rounds, the message words permuted between them. -/
def rounds : Nat → State → List UInt32 → State
  | 0, s, _ => s
  | n + 1, s, m => rounds n (round s m) (permute m)

def initial : Row × Row :=
  (⟨0x6A09E667, 0xBB67AE85, 0x3C6EF372, 0xA54FF53A⟩,
   ⟨0x510E527F, 0x9B05688C, 0x1F83D9AB, 0x5BE0CD19⟩)

/-- What remains of a node of the tree before its last compression. -/
structure Node where
  chain : Row × Row
  words : List UInt32
  counter : UInt64
  blockLength : UInt32
  flags : UInt32

def chunkStart : UInt32 := 1
def chunkEnd : UInt32 := 2
def parentNode : UInt32 := 4
def rootNode : UInt32 := 8

namespace Node

/-- The first eight words of the compression function's output, with more flags set. -/
def compress (n : Node) (more : UInt32) : Row × Row :=
  let low := n.counter.toUInt32
  let high := (n.counter >>> 32).toUInt32
  let s := rounds 7
    ⟨n.chain.1, n.chain.2, initial.1, ⟨low, high, n.blockLength, n.flags ||| more⟩⟩ n.words
  (Row.zip (· ^^^ ·) s.a s.c, Row.zip (· ^^^ ·) s.b s.d)

def chainingValue (n : Node) : Row × Row := n.compress 0

end Node

/-! ### Words and blocks -/

/-- The little-endian words of a byte string, filled up with zero bytes to sixteen words. -/
def blockWords (block : Octets) : List UInt32 :=
  (List.range 16).map fun i => UInt32.ofNat (Octets.toNatLE ((block.drop (4 * i)).take 4))

def rowBytes (r : Row) : Octets := r.toList.flatMap fun w => Octets.ofNatLE 4 w.toNat

@[simp] theorem length_rowBytes (r : Row) : (rowBytes r).length = 16 := by
  simp [rowBytes, Row.toList, Octets.length_ofNatLE]

/-! ### Chunks and the tree -/

/-- Chain the blocks of one chunk; the last block's node is left uncompressed. -/
def chainBlocks (counter : UInt64) :
    (chain : Row × Row) → (flags : UInt32) → (block : Octets) → (rest : List Octets) → Node
  | chain, flags, block, [] =>
    ⟨chain, blockWords block, counter, UInt32.ofNat block.length, flags ||| chunkEnd⟩
  | chain, flags, block, next :: rest =>
    let node : Node := ⟨chain, blockWords block, counter, UInt32.ofNat block.length, flags⟩
    chainBlocks counter node.chainingValue 0 next rest

def chunkNode (counter : Nat) (chunk : Octets) : Node :=
  match Octets.pieces 64 chunk with
  | [] => chainBlocks (UInt64.ofNat counter) initial chunkStart [] []
  | block :: rest => chainBlocks (UInt64.ofNat counter) initial chunkStart block rest

def join (left right : Node) : Node :=
  let (l0, l1) := left.chainingValue
  let (r0, r1) := right.chainingValue
  ⟨initial, l0.toList ++ l1.toList ++ r0.toList ++ r1.toList, 0, 64, parentNode⟩

/-- Join neighbours; an odd last node stays as it is. -/
def joinPairs : List Node → List Node
  | left :: right :: rest => join left right :: joinPairs rest
  | nodes => nodes

/-- Join level after level until one node is left. -/
def joinLevels : Nat → Node → List Node → Node
  | 0, node, _ => node
  | _ + 1, node, [] => node
  | fuel + 1, node, rest =>
    match joinPairs (node :: rest) with
    | [] => node
    | top :: more => joinLevels fuel top more

def rootOf (message : Octets) : Node :=
  match (Octets.pieces 1024 message).zipIdx with
  | [] => chunkNode 0 []
  | (chunk, i) :: rest =>
    joinLevels (rest.length + 1) (chunkNode i chunk) (rest.map fun (c, j) => chunkNode j c)

def hash (message : Octets) : Block 32 :=
  let out := (rootOf message).compress rootNode
  ⟨rowBytes out.1 ++ rowBytes out.2, by simp⟩

end NamedContent.Blake3

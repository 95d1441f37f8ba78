import BurstPoolNode.Blocks

/-!
# Shabal

The hash function Shabal, one message at a time and written with loops: three
accumulators of 32-bit words, a round for every block of 64 bytes under a
64-bit counter, and three more rounds with the last block at the end
(`hash`). The first two blocks hold the size of the output, and are counted
from minus one on.
-/

namespace Shabal

/-- The accumulators. -/
@[ext] structure State where
  a : Vector UInt32 12
  b : Vector UInt32 16
  c : Vector UInt32 16
  deriving DecidableEq

/-- The words of a block. -/
abbrev Block := Vector UInt32 16

def rotl (x k : UInt32) : UInt32 := x <<< k ||| x >>> (32 - k)

/-! ## The round -/

/-- The index of the step `i` in the run `j` through a block, among the words of `a`. -/
def place (j i : ℕ) : Fin 12 := Fin.ofNat 12 (16 * j + i)

/-- The word that a step puts into `a`. -/
def stirred (m : Block) (s : State) (p : ℕ × Fin 16) : UInt32 :=
  let (j, i) := p
  let x := place j i
  3 * (s.a[x] ^^^ 5 * rotl s.a[x + 11] 15 ^^^ s.c[8 - i]) ^^^
    s.b[i + 13] ^^^ (s.b[i + 9] &&& ~~~ s.b[i + 6]) ^^^ m[i]

/-- A step of the permutation. -/
def stir (m : Block) (s : State) (p : ℕ × Fin 16) : State :=
  let w := stirred m s p
  { s with a := s.a.set (place p.1 p.2) w, b := s.b.set p.2 (rotl s.b[p.2] 1 ^^^ ~~~ w) }

/-- The steps of the permutation, in order: three runs through a block. -/
def steps : List (ℕ × Fin 16) :=
  (List.range 3).flatMap fun j => (List.finRange 16).map fun i => (j, i)

/-- The `j`-th of the last additions. -/
def addWord (s : State) (j : ℕ) : State :=
  { s with a := s.a.set (Fin.ofNat 12 j) (s.a[Fin.ofNat 12 j] + s.c[Fin.ofNat 16 (j + 3)]) }

/-- The keyed permutation. -/
def permute (m : Block) (s : State) : State :=
  (List.range 36).foldl addWord (steps.foldl (stir m) { s with b := s.b.map (rotl · 17) })

/-- The low and the high word of a counter. -/
def low (w : UInt64) : UInt32 := w.toUInt32
def high (w : UInt64) : UInt32 := (w >>> 32).toUInt32

/-- Inserts a block before the permutation. -/
def insert (m : Block) (w : UInt64) (s : State) : State :=
  { s with
    a := (s.a.set 0 (s.a[0] ^^^ low w)).set 1 (s.a[1] ^^^ high w)
    b := Vector.zipWith (· + ·) s.b m }

/-- A round, with the block `m` under the counter `w`. -/
def round (m : Block) (w : UInt64) (s : State) : State :=
  let s := permute m (insert m w s)
  { s with b := Vector.zipWith (· - ·) s.c m, c := s.b }

/-! ## Messages -/

/-- The word in four bytes, the least significant first. -/
def word (b₀ b₁ b₂ b₃ : UInt8) : UInt32 :=
  b₀.toUInt32 ||| b₁.toUInt32 <<< 8 ||| b₂.toUInt32 <<< 16 ||| b₃.toUInt32 <<< 24

/-- The bytes of a word, the least significant first. -/
def bytes (x : UInt32) : List UInt8 :=
  [x.toUInt8, (x >>> 8).toUInt8, (x >>> 16).toUInt8, (x >>> 24).toUInt8]

/-- The words of 64 bytes. -/
def words (bs : List UInt8) : Block :=
  Vector.ofFn fun i => word (bs.getD (4 * i) 0) (bs.getD (4 * i + 1) 0) (bs.getD (4 * i + 2) 0)
    (bs.getD (4 * i + 3) 0)

/-- The accumulators and the counter of the next block. -/
abbrev Chain := State × UInt64

/-- The words of a block are hashed. -/
def Chain.insert (x : Chain) (m : Block) : Chain := (round m x.2 x.1, x.2 + 1)

/-- The bytes of a block are hashed. -/
def Chain.step (x : Chain) (bs : List UInt8) : Chain := x.insert (words bs)

/-- One of the first two blocks, for an output of `size` bits. -/
def sizeBlock (size k : ℕ) : Block := Vector.ofFn fun i => UInt32.ofNat (size + k + i)

/-- Before the first block of the message. -/
def start (size : ℕ) : Chain :=
  let zero : State := ⟨Vector.replicate 12 0, Vector.replicate 16 0, Vector.replicate 16 0⟩
  Chain.insert (Chain.insert (zero, -1) (sizeBlock size 0)) (sizeBlock size 16)

/-- The byte after the message: what is left of it in `bits`, a one, and zeros. -/
def lastByte (bits : List Bool) : UInt8 :=
  UInt8.ofNat ((bits ++ [true] ++ List.replicate (7 - bits.length) false).foldl
    (fun x b => 2 * x + b.toNat) 0)

/-- The last block, for the bytes and the bits of the message that are left. -/
def pad (rest : List UInt8) (bits : List Bool) : List UInt8 :=
  rest ++ lastByte bits :: List.replicate (63 - rest.length) 0

/-- The last block is hashed four times under the same counter. -/
def final (x : Chain) (bs : List UInt8) : State := (round (words bs) x.2)^[4] x.1

/-- The digest of `size` bits: the last words of `c`. -/
def digest (size : ℕ) (s : State) : List UInt8 :=
  (s.c.toList.drop (16 - size / 32)).flatMap bytes

/-- The digest of `size` bits of a message: the bytes `msg` and the `bits` after them. -/
def hash (size : ℕ) (msg : List UInt8) (bits : List Bool) : List UInt8 :=
  let x := Blocks.consume 64 Chain.step (start size) msg
  digest size (final x.1 (pad x.2 bits))

theorem length_flatMap_bytes (l : List UInt32) : (l.flatMap bytes).length = 4 * l.length := by
  induction l with
  | nil => rfl
  | cons x l ih =>
    rw [List.flatMap_cons, List.length_append, ih, List.length_cons, Nat.mul_succ, Nat.add_comm]
    rfl

/-- A digest is as long as its size says. -/
theorem length_hash {size : ℕ} (h : size ≤ 512) (msg : List UInt8) (bits : List Bool) :
    (hash size msg bits).length = 4 * (size / 32) := by
  rw [hash, digest, length_flatMap_bytes, List.length_drop, Vector.length_toList]
  omega

end Shabal

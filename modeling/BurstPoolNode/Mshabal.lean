import BurstPoolNode.Simd
import BurstPoolNode.Shabal

/-!
# Shabal on several lanes

`mshabal_sse4.c` and `mshabal256_avx2.c`: Shabal on four and on eight messages
at a time. Registers hold a word of every message, so that a pass through
`compress` is a round in every lane. The two files do the same on a different
number `n` of lanes, but for how they are set up and closed, and for the lanes
without data, which only the first file has.

Where a buffer would be left, in the context or in the data of a caller, the
result is `none`.
-/

namespace BurstPoolNode.Mshabal

open Simd

variable {n : ℕ}

theorem neZero_four : NeZero 4 := ⟨by decide⟩
theorem neZero_eight : NeZero 8 := ⟨by decide⟩
theorem neZero_twelve : NeZero 12 := ⟨by decide⟩
theorem neZero_sixteen : NeZero 16 := ⟨by decide⟩

attribute [local instance] neZero_four neZero_twelve neZero_sixteen

/-! ## Compression -/

/-- The registers of a pass. -/
@[ext] structure Registers (n : ℕ) where
  a : Vector (Epi32 n) 12
  b : Vector (Epi32 n) 16
  c : Vector (Epi32 n) 16

/-- The operands of a `PP`. -/
structure PPCall where
  xa0 : Fin 12
  xa1 : Fin 12
  xb0 : Fin 16
  xb1 : Fin 16
  xb2 : Fin 16
  xb3 : Fin 16
  xc : Fin 16
  xm : Fin 16
  deriving DecidableEq

/-- The first half of `PP`: the new `xa0`. -/
def ppXa0 (m : Vector (Epi32 n) 16) (r : Registers n) (p : PPCall) : Epi32 n :=
  let tt := or (slli r.a[p.xa1] 15) (srli r.a[p.xa1] 17)
  let tt := add (slli tt 2) tt
  let tt := xor (xor r.a[p.xa0] tt) r.c[p.xc]
  let tt := add (slli tt 1) tt
  xor (xor tt r.b[p.xb1]) (xor (andnot r.b[p.xb3] r.b[p.xb2]) m[p.xm])

/-- `PP` -/
def pp (m : Vector (Epi32 n) 16) (r : Registers n) (p : PPCall) : Registers n :=
  let xa0 := ppXa0 m r p
  let tt := r.b[p.xb0]
  let tt := or (slli tt 1) (srli tt 31)
  { r with
    a := r.a.set p.xa0 xa0
    b := r.b.set p.xb0 (xor tt (xor xa0 (set1 0xFFFFFFFF))) }

def ppCalls : List PPCall :=
  [⟨0x0, 0xB, 0x0, 0xD, 0x9, 0x6, 0x8, 0x0⟩, ⟨0x1, 0x0, 0x1, 0xE, 0xA, 0x7, 0x7, 0x1⟩,
   ⟨0x2, 0x1, 0x2, 0xF, 0xB, 0x8, 0x6, 0x2⟩, ⟨0x3, 0x2, 0x3, 0x0, 0xC, 0x9, 0x5, 0x3⟩,
   ⟨0x4, 0x3, 0x4, 0x1, 0xD, 0xA, 0x4, 0x4⟩, ⟨0x5, 0x4, 0x5, 0x2, 0xE, 0xB, 0x3, 0x5⟩,
   ⟨0x6, 0x5, 0x6, 0x3, 0xF, 0xC, 0x2, 0x6⟩, ⟨0x7, 0x6, 0x7, 0x4, 0x0, 0xD, 0x1, 0x7⟩,
   ⟨0x8, 0x7, 0x8, 0x5, 0x1, 0xE, 0x0, 0x8⟩, ⟨0x9, 0x8, 0x9, 0x6, 0x2, 0xF, 0xF, 0x9⟩,
   ⟨0xA, 0x9, 0xA, 0x7, 0x3, 0x0, 0xE, 0xA⟩, ⟨0xB, 0xA, 0xB, 0x8, 0x4, 0x1, 0xD, 0xB⟩,
   ⟨0x0, 0xB, 0xC, 0x9, 0x5, 0x2, 0xC, 0xC⟩, ⟨0x1, 0x0, 0xD, 0xA, 0x6, 0x3, 0xB, 0xD⟩,
   ⟨0x2, 0x1, 0xE, 0xB, 0x7, 0x4, 0xA, 0xE⟩, ⟨0x3, 0x2, 0xF, 0xC, 0x8, 0x5, 0x9, 0xF⟩,
   ⟨0x4, 0x3, 0x0, 0xD, 0x9, 0x6, 0x8, 0x0⟩, ⟨0x5, 0x4, 0x1, 0xE, 0xA, 0x7, 0x7, 0x1⟩,
   ⟨0x6, 0x5, 0x2, 0xF, 0xB, 0x8, 0x6, 0x2⟩, ⟨0x7, 0x6, 0x3, 0x0, 0xC, 0x9, 0x5, 0x3⟩,
   ⟨0x8, 0x7, 0x4, 0x1, 0xD, 0xA, 0x4, 0x4⟩, ⟨0x9, 0x8, 0x5, 0x2, 0xE, 0xB, 0x3, 0x5⟩,
   ⟨0xA, 0x9, 0x6, 0x3, 0xF, 0xC, 0x2, 0x6⟩, ⟨0xB, 0xA, 0x7, 0x4, 0x0, 0xD, 0x1, 0x7⟩,
   ⟨0x0, 0xB, 0x8, 0x5, 0x1, 0xE, 0x0, 0x8⟩, ⟨0x1, 0x0, 0x9, 0x6, 0x2, 0xF, 0xF, 0x9⟩,
   ⟨0x2, 0x1, 0xA, 0x7, 0x3, 0x0, 0xE, 0xA⟩, ⟨0x3, 0x2, 0xB, 0x8, 0x4, 0x1, 0xD, 0xB⟩,
   ⟨0x4, 0x3, 0xC, 0x9, 0x5, 0x2, 0xC, 0xC⟩, ⟨0x5, 0x4, 0xD, 0xA, 0x6, 0x3, 0xB, 0xD⟩,
   ⟨0x6, 0x5, 0xE, 0xB, 0x7, 0x4, 0xA, 0xE⟩, ⟨0x7, 0x6, 0xF, 0xC, 0x8, 0x5, 0x9, 0xF⟩,
   ⟨0x8, 0x7, 0x0, 0xD, 0x9, 0x6, 0x8, 0x0⟩, ⟨0x9, 0x8, 0x1, 0xE, 0xA, 0x7, 0x7, 0x1⟩,
   ⟨0xA, 0x9, 0x2, 0xF, 0xB, 0x8, 0x6, 0x2⟩, ⟨0xB, 0xA, 0x3, 0x0, 0xC, 0x9, 0x5, 0x3⟩,
   ⟨0x0, 0xB, 0x4, 0x1, 0xD, 0xA, 0x4, 0x4⟩, ⟨0x1, 0x0, 0x5, 0x2, 0xE, 0xB, 0x3, 0x5⟩,
   ⟨0x2, 0x1, 0x6, 0x3, 0xF, 0xC, 0x2, 0x6⟩, ⟨0x3, 0x2, 0x7, 0x4, 0x0, 0xD, 0x1, 0x7⟩,
   ⟨0x4, 0x3, 0x8, 0x5, 0x1, 0xE, 0x0, 0x8⟩, ⟨0x5, 0x4, 0x9, 0x6, 0x2, 0xF, 0xF, 0x9⟩,
   ⟨0x6, 0x5, 0xA, 0x7, 0x3, 0x0, 0xE, 0xA⟩, ⟨0x7, 0x6, 0xB, 0x8, 0x4, 0x1, 0xD, 0xB⟩,
   ⟨0x8, 0x7, 0xC, 0x9, 0x5, 0x2, 0xC, 0xC⟩, ⟨0x9, 0x8, 0xD, 0xA, 0x6, 0x3, 0xB, 0xD⟩,
   ⟨0xA, 0x9, 0xE, 0xB, 0x7, 0x4, 0xA, 0xE⟩, ⟨0xB, 0xA, 0xF, 0xC, 0x8, 0x5, 0x9, 0xF⟩]

/-- `A[xa] = _mm_add_epi32(A[xa], C[xc])` -/
def addC (r : Registers n) (p : Fin 12 × Fin 16) : Registers n :=
  { r with a := r.a.set p.1 (add r.a[p.1] r.c[p.2]) }

def addCalls : List (Fin 12 × Fin 16) :=
  [(0xB, 0x6), (0xA, 0x5), (0x9, 0x4), (0x8, 0x3), (0x7, 0x2), (0x6, 0x1),
   (0x5, 0x0), (0x4, 0xF), (0x3, 0xE), (0x2, 0xD), (0x1, 0xC), (0x0, 0xB),
   (0xB, 0xA), (0xA, 0x9), (0x9, 0x8), (0x8, 0x7), (0x7, 0x6), (0x6, 0x5),
   (0x5, 0x4), (0x4, 0x3), (0x3, 0x2), (0x2, 0x1), (0x1, 0x0), (0x0, 0xF),
   (0xB, 0xE), (0xA, 0xD), (0x9, 0xC), (0x8, 0xB), (0x7, 0xA), (0x6, 0x9),
   (0x5, 0x8), (0x4, 0x7), (0x3, 0x6), (0x2, 0x5), (0x1, 0x4), (0x0, 0x3)]

/-- `SWAP_AND_SUB` -/
def swapAndSub (m : Vector (Epi32 n) 16) (r : Registers n) (i : Fin 16) : Registers n :=
  { r with b := put r.b i (sub (r.c.get i) (m.get i)), c := put r.c i (r.b.get i) }

/-- A pass of the loop of `compress`, with the words `m`. -/
def pass (m : Vector (Epi32 n) 16) (whigh wlow : UInt32) (r : Registers n) : Registers n :=
  let r := { r with b := Vector.zipWith add r.b m }
  let r := { r with a := put r.a 0 (xor (r.a.get 0) (set1 wlow)) }
  let r := { r with a := put r.a 1 (xor (r.a.get 1) (set1 whigh)) }
  let r := { r with b := r.b.map fun x => or (slli x 17) (srli x 15) }
  let r := ppCalls.foldl (pp m) r
  let r := addCalls.foldl addC r
  (List.finRange 16).foldl (swapAndSub m) r

/-- The words of the next block of every lane. -/
def loadWords (bufs : Fin n → List UInt8) : Option (Vector (Epi32 n) 16) :=
  if ∀ k, 64 ≤ (bufs k).length then
    some (Vector.ofFn fun j => Vector.ofFn fun k => Shabal.word ((bufs k).getD (4 * j) 0)
      ((bufs k).getD (4 * j + 1) 0) ((bufs k).getD (4 * j + 2) 0) ((bufs k).getD (4 * j + 3) 0))
  else none

/-- The loop of `compress`. -/
def compressLoop : ℕ → (Fin n → List UInt8) → Registers n → UInt32 → UInt32 →
    Option (Registers n × UInt32 × UInt32)
  | 0, _, r, whigh, wlow => some (r, whigh, wlow)
  | num + 1, bufs, r, whigh, wlow => do
    let m ← loadWords bufs
    let r := pass m whigh wlow r
    let wlow := wlow + 1
    let whigh := if wlow = 0 then whigh + 1 else whigh
    compressLoop num (fun k => (bufs k).drop 64) r whigh wlow

/-- What the contexts of both files have. -/
structure Context (n : ℕ) where
  buf : Vector (Vector UInt8 64) n
  ptr : ℕ
  state : Vector (Epi32 n) 44
  whigh : UInt32
  wlow : UInt32

def load (state : Vector (Epi32 n) 44) : Registers n where
  a := Vector.ofFn fun j => state[Fin.ofNat 44 j]
  b := Vector.ofFn fun j => state[Fin.ofNat 44 (j + 12)]
  c := Vector.ofFn fun j => state[Fin.ofNat 44 (j + 28)]

def store (r : Registers n) : Vector (Epi32 n) (12 + 16 + 16) := r.a ++ r.b ++ r.c

/-- `sse4_mshabal_compress`, `mshabal256_compress` -/
def compress (sc : Context n) (bufs : Fin n → List UInt8) (num : ℕ) : Option (Context n) := do
  let (r, whigh, wlow) ← compressLoop num bufs (load sc.state) sc.whigh sc.wlow
  return { sc with state := store r, whigh, wlow }

/-- A block from the buffers of the context. -/
def compressBuf (sc : Context n) : Option (Context n) :=
  compress sc (fun k => (sc.buf.get k).toList) 1

/-! ## Starting -/

/-- The first two bytes of a word of a buffer are set. -/
def setSize (lo hi : Fin 16 → UInt8) (buf : Vector UInt8 64) (u : Fin 16) : Vector UInt8 64 :=
  (buf.setIfInBounds (4 * u) (lo u)).setIfInBounds (4 * u + 1) (hi u)

/-- A loop over the words of a buffer. -/
def setSizes (lo hi : Fin 16 → UInt8) (buf : Vector UInt8 64) : Vector UInt8 64 :=
  (List.finRange 16).foldl (setSize lo hi) buf

/-- What `sse4_mshabal_init` and `mshabal256_init` do, given the bytes of the two loops. -/
def init (lo₁ hi₁ lo₂ hi₂ : Fin 16 → UInt8) : Option (Context n) := do
  let sc : Context n :=
    { buf := Vector.replicate n (Vector.replicate 64 0)
      ptr := 0
      state := Vector.replicate 44 (Vector.replicate n 0)
      whigh := 0xFFFFFFFF
      wlow := 0xFFFFFFFF }
  let sc ← compressBuf { sc with buf := sc.buf.map (setSizes lo₁ hi₁) }
  compressBuf { sc with buf := sc.buf.map (setSizes lo₂ hi₂) }

/-! ## Data -/

/-- A buffer with `len` bytes of `data` from `ptr` on. -/
def copyBytes (buf : Vector UInt8 64) (ptr : ℕ) (data : List UInt8) (len : ℕ) : Vector UInt8 64 :=
  Vector.ofFn fun i => if ptr ≤ i ∧ i < ptr + len then data.getD (i - ptr) 0 else buf[i]

/-- `memcpy` of `len` bytes of every lane into the buffers, from `ptr` on. -/
def memcpy (buf : Vector (Vector UInt8 64) n) (ptr : ℕ) (data : Fin n → List UInt8) (len : ℕ) :
    Option (Vector (Vector UInt8 64) n) :=
  if ptr + len ≤ 64 ∧ ∀ k, len ≤ (data k).length then
    some (Vector.ofFn fun k => copyBytes buf[k] ptr (data k) len)
  else none

/-- The end of the update: whole blocks from the data, and the rest into the buffers. -/
def absorbBlocks (sc : Context n) (data : Fin n → List UInt8) (len : ℕ) :
    Option (Context n) := do
  let num := len / 64
  let sc ← (if num ≠ 0 then compress sc data num else some sc)
  let data := fun k => (data k).drop (64 * num)
  let len := len % 64
  let buf ← memcpy sc.buf 0 data len
  return { sc with buf, ptr := len }

/-- What `sse4_mshabal` and `mshabal256` do with data in every lane. -/
def absorb (sc : Context n) (data : Fin n → List UInt8) (len : ℕ) : Option (Context n) := do
  if sc.ptr ≠ 0 then
    let clen := 64 - sc.ptr
    if clen > len then
      let buf ← memcpy sc.buf sc.ptr data len
      return { sc with buf, ptr := sc.ptr + len }
    else
      let buf ← memcpy sc.buf sc.ptr data clen
      let sc ← compressBuf { sc with buf }
      absorbBlocks sc (fun k => (data k).drop clen) (len - clen)
  else
    absorbBlocks sc data len

/-! ## Closing -/

/-- A buffer with the byte `ub` at `ptr` and zeros after it. -/
def padBytes (buf : Vector UInt8 64) (ptr : ℕ) (ub : UInt8) : Vector UInt8 64 :=
  Vector.ofFn fun i => if i < ptr then buf[i] else if i = ptr then ub else 0

/-- The bytes `ub` and zeros after the bytes in the buffers. -/
def padBuf (buf : Vector (Vector UInt8 64) n) (ptr : ℕ) (ub : Fin n → UInt8) :
    Option (Vector (Vector UInt8 64) n) :=
  if ptr < 64 then
    some (Vector.ofFn fun k => padBytes buf[k] ptr (ub k))
  else none

/-- A pass of the loop of `close`: the counter goes back. -/
def closeRound (sc : Context n) : Option (Context n) := do
  let sc ← compressBuf sc
  let whigh := if sc.wlow = 0 then sc.whigh - 1 else sc.whigh
  return { sc with wlow := sc.wlow - 1, whigh }

/-- What `sse4_mshabal_close` and `mshabal256_close` do before the output. -/
def close (sc : Context n) (ub : Fin n → UInt8) : Option (Context n) := do
  let buf ← padBuf sc.buf sc.ptr ub
  let sc ← closeRound { sc with buf }
  let sc ← closeRound sc
  let sc ← closeRound sc
  closeRound sc

/-- `sc->state[i]`, the registers being in memory one after the other. -/
def stateWord (sc : Context n) (i : ℕ) : Option UInt32 :=
  sc.state[i / n]? >>= fun x => x[i % n]?

/-- The `w` words of the lane `k` that are copied out, from `off` in the state on. -/
def output (sc : Context n) (w off k : ℕ) : Option (List UInt32) :=
  (List.range w).mapM fun z => stateWord sc (off + n * z + k)

/-! ## Four lanes -/

/-- `mshabal_context` -/
structure MshabalContext extends Context 4 where
  outSize : UInt32

/-- `sse4_mshabal_init` -/
def sse4MshabalInit (outSize : UInt32) : Option MshabalContext := do
  let sc ← init (fun u => (outSize + UInt32.ofNat u).toUInt8)
    (fun u => ((outSize + UInt32.ofNat u) >>> 8).toUInt8)
    (fun u => (outSize + UInt32.ofNat u + 16).toUInt8)
    (fun u => ((outSize + UInt32.ofNat u + 16) >>> 8).toUInt8)
  return { sc with outSize }

/-- `sse4_mshabal`, with `none` for `NULL`. -/
def sse4Mshabal (sc : MshabalContext) (data : Fin 4 → Option (List UInt8)) (len : ℕ) :
    Option MshabalContext := do
  match data 0 <|> data 1 <|> data 2 <|> data 3 with
  | none => return sc
  | some data0 =>
    let sc' ← absorb sc.toContext ![data0, (data 1).getD data0, (data 2).getD data0,
      (data 3).getD data0] len
    return { sc with toContext := sc' }

/-- `sse4_mshabal_close`: the words written for every lane. -/
def sse4MshabalClose (sc : MshabalContext) (ub : Fin 4 → UInt32) (n : UInt32) :
    Option (Fin 4 → List UInt32) := do
  let z : UInt32 := 0x80 >>> n
  let sc' ← close sc.toContext fun k => ((ub k &&& -z) ||| z).toUInt8
  let outSizeW32 := sc.outSize >>> 5
  let off := 4 * (28 + (16 - outSizeW32))
  let out (k : ℕ) := output sc' outSizeW32.toNat off.toNat k
  return ![← out 0, ← out 1, ← out 2, ← out 3]

/-! ## Eight lanes -/

/-- `mshabal256_init` -/
def mshabal256Init : Option (Context 8) :=
  init (fun u => UInt8.ofNat (256 + u)) (fun _ => 1) (fun u => UInt8.ofNat (272 + u)) (fun _ => 1)

/-- `mshabal256` -/
def mshabal256 (sc : Context 8) (data : Fin 8 → List UInt8) (len : ℕ) : Option (Context 8) :=
  absorb sc data len

/-- `mshabal256_close`: the words written for every lane. -/
def mshabal256Close (sc : Context 8) : Option (Fin 8 → List UInt32) := do
  let sc ← close sc fun _ => 0x80
  let dst (k : ℕ) := output sc 8 288 k
  return ![← dst 0, ← dst 1, ← dst 2, ← dst 3, ← dst 4, ← dst 5, ← dst 6, ← dst 7]

end BurstPoolNode.Mshabal

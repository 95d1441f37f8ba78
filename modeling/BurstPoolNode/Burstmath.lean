import BurstPoolNode.Buffer

/-!
# Deadlines

`burstmath.c`: the scoop of a block (`calculateScoop`) and the deadlines of 4 or
8 nonces at a time (`calculateDeadlinesSse4`, `calculateDeadlinesAvx2`), with
their local arrays as `Buffer`s. A read of memory that is outside an array or
not yet written, and a division by zero, make the result `none`.

The Shabal routines are vendored. Of the scalar ones it is assumed that they
compute a function `H` from the bytes absorbed to 32 bytes, and of those
working on `n` lanes at once that they compute `H` on every lane (`MShabal`).
-/

namespace BurstPoolNode

/-- The multi-lane Shabal routines for an output of 256 bits: in every lane they
    compute `H` on the concatenation of the chunks absorbed, the chunks
    absorbed by one call being of the same length. -/
structure MShabal (H : List UInt8 → Vector UInt8 32) (n : ℕ) where
  Context : Type
  init : Context
  absorb : Context → (Fin n → List UInt8) → Context
  close : Context → Fin n → Vector UInt8 32
  close_absorb : ∀ chunks : List (Fin n → List UInt8),
    (∀ c ∈ chunks, ∀ j k, (c j).length = (c k).length) →
      ∀ k, close (chunks.foldl absorb init) k = H (chunks.flatMap fun c => c k)

/-- Routines that keep what they absorb. -/
def MShabal.recording (H : List UInt8 → Vector UInt8 32) (n : ℕ) : MShabal H n where
  Context := Fin n → List UInt8
  init _ := []
  absorb x c k := x k ++ c k
  close x k := H (x k)
  close_absorb chunks _ k := by
    have h : ∀ (cs : List (Fin n → List UInt8)) (x : Fin n → List UInt8),
        cs.foldl (fun x c k => x k ++ c k) x k = x k ++ cs.flatMap fun c => c k := fun cs => by
      induction cs with
      | nil => simp
      | cons c cs ih =>
        intro x
        simp [ih]
    rw [h, List.nil_append]

namespace Burstmath

variable {H : List UInt8 → Vector UInt8 32}

/-! ## Bytes -/

/-- The `i`-th byte of `x` in memory, on a little-endian machine. -/
def byteAt (x : UInt64) (i : ℕ) : UInt8 := (x >>> UInt64.ofNat (8 * i)).toUInt8

/-- The bytes of `x`, the most significant first. -/
def be64 (x : UInt64) : List UInt8 :=
  [byteAt x 7, byteAt x 6, byteAt x 5, byteAt x 4, byteAt x 3, byteAt x 2, byteAt x 1, byteAt x 0]

/-- The number in memory at the start of a digest, on a little-endian machine. -/
def le64 (d : Vector UInt8 32) : UInt64 :=
  (d.toList.take 8).foldr (fun b x => b.toUInt64 ||| x <<< 8) 0

/-- `a / b`, which traps when `b` is zero. -/
def div (a b : UInt64) : Option UInt64 := if b = 0 then none else some (a / b)

/-! ## The scoop of a block -/

def scoopSize : ℕ := 64
def numScoops : ℕ := 4096
def nonceSize : ℕ := numScoops * scoopSize

theorem nonceSize_eq : nonceSize = 262144 := rfl
def hashSize : ℕ := 32
def hashCap : ℕ := 4096

/-- The scoop of a block of the height `height` and generation signature `gensig`. -/
def calculateScoop (H : List UInt8 → Vector UInt8 32) (height : UInt64)
    (gensig : Vector UInt8 32) : UInt32 :=
  let newGensig := H (gensig.toList ++ be64 height)
  ((newGensig[30] &&& 0x0F).toUInt32 <<< 8) ||| newGensig[31].toUInt32

/-- A scoop number is of twelve bits. -/
theorem calculateScoop_lt (H : List UInt8 → Vector UInt8 32) (height : UInt64)
    (gensig : Vector UInt8 32) : calculateScoop H height gensig < 4096 := by
  rw [calculateScoop, UInt32.lt_iff_toNat_lt, UInt32.toNat_or, UInt32.toNat_shiftLeft]
  generalize H (gensig.toList ++ be64 height) = newGensig
  have hhigh : (newGensig[30] &&& 0x0F).toNat ≤ 15 := by
    rw [UInt8.toNat_and]
    exact Nat.and_le_right
  have hlow : newGensig[31].toNat < 256 := UInt8.toNat_lt _
  have hshift : (8 : UInt32).toNat % 32 = 8 := rfl
  refine Nat.or_lt_two_pow (n := 12) ?_ ?_
  · rw [UInt8.toNat_toUInt32, hshift, Nat.shiftLeft_eq]
    omega
  · rw [UInt8.toNat_toUInt32]
    omega

/-! ## Plots -/

/-- A `gendata` array: the plot of a nonce, and its seed after it. -/
abbrev Gendata := Buffer UInt8 (16 + nonceSize)

/-- `SET_NONCE`: the bytes of `nonce` in reverse order, from `offset` after the
    plot on. -/
def setNonce (gendata : Gendata) (nonce : UInt64) (offset : ℕ) : Option Gendata := do
  let gendata ← gendata.write (nonceSize + offset) [byteAt nonce 7]
  let gendata ← gendata.write (nonceSize + offset + 1) [byteAt nonce 6]
  let gendata ← gendata.write (nonceSize + offset + 2) [byteAt nonce 5]
  let gendata ← gendata.write (nonceSize + offset + 3) [byteAt nonce 4]
  let gendata ← gendata.write (nonceSize + offset + 4) [byteAt nonce 3]
  let gendata ← gendata.write (nonceSize + offset + 5) [byteAt nonce 2]
  let gendata ← gendata.write (nonceSize + offset + 6) [byteAt nonce 1]
  gendata.write (nonceSize + offset + 7) [byteAt nonce 0]

/-- The number of bytes hashed at the index `i` of the fill loop. -/
def hashLen (i : ℕ) : ℕ :=
  let len := nonceSize + 16 - i
  if len > hashCap then hashCap else len

/-- A step of the XOR loop in one lane: `gendata[i] ^= final[i % 32]`. -/
def xorByte (gendata : Gendata) (final : Vector UInt8 32) (i : ℕ) : Option Gendata := do
  let bytes ← gendata.read i 1
  gendata.write i (bytes.map fun b => b ^^^ final[i % 32])

/-- Where the scoop `scoopNr` starts in a plot, in 32-bit arithmetic. -/
def scoopStart (scoopNr : UInt32) : ℕ := (scoopNr * UInt32.ofNat scoopSize).toNat

/-- Where the mirror scoop of `scoopNr` starts in a plot. -/
def mirrorStart (scoopNr : UInt32) : ℕ := ((4095 - scoopNr) * UInt32.ofNat scoopSize).toNat

/-- The two copies out of `gendata` into the scoop of a lane. -/
def copyScoop (gendata : Gendata) (poc2 : Bool) (scoopNr : UInt32) : Option (List UInt8) := do
  let first ← gendata.read (scoopStart scoopNr) 32
  let second ←
    if poc2 then
      gendata.read (mirrorStart scoopNr + 32) 32
    else
      gendata.read (scoopStart scoopNr + 32) 32
  return first ++ second

/-! ## Four lanes -/

/-- The fill loop of `calculate_deadlines_sse4`, from the index `i` on: the hash of
    what starts at `i` goes in front of it. -/
def fillSse4 (x : MShabal H 4) (i : ℕ)
    (gendata1 gendata2 gendata3 gendata4 : Gendata) :
    Option (Gendata × Gendata × Gendata × Gendata) := do
  if _h : i > 0 then
    let sc := x.absorb x.init ![← gendata1.read i (hashLen i), ← gendata2.read i (hashLen i),
      ← gendata3.read i (hashLen i), ← gendata4.read i (hashLen i)]
    -- An index below zero would be outside the arrays.
    if hashSize ≤ i then
      let gendata1 ← gendata1.write (i - hashSize) (x.close sc 0).toList
      let gendata2 ← gendata2.write (i - hashSize) (x.close sc 1).toList
      let gendata3 ← gendata3.write (i - hashSize) (x.close sc 2).toList
      let gendata4 ← gendata4.write (i - hashSize) (x.close sc 3).toList
      fillSse4 x (i - hashSize) gendata1 gendata2 gendata3 gendata4
    else
      none
  else
    return (gendata1, gendata2, gendata3, gendata4)
termination_by i
decreasing_by exact Nat.sub_lt _h (by decide)

/-- The XOR loop of `calculate_deadlines_sse4`, from the index `i` on. -/
def xorSse4 (final1 final2 final3 final4 : Vector UInt8 32) (i : ℕ)
    (gendata1 gendata2 gendata3 gendata4 : Gendata) :
    Option (Gendata × Gendata × Gendata × Gendata) := do
  if i < nonceSize then
    let gendata1 ← xorByte gendata1 final1 i
    let gendata2 ← xorByte gendata2 final2 i
    let gendata3 ← xorByte gendata3 final3 i
    let gendata4 ← xorByte gendata4 final4 i
    xorSse4 final1 final2 final3 final4 (i + 1) gendata1 gendata2 gendata3 gendata4
  else
    return (gendata1, gendata2, gendata3, gendata4)
termination_by nonceSize - i

/-- `calculate_deadlines_sse4`: the deadlines of the lanes. -/
def calculateDeadlinesSse4 (x : MShabal H 4) (poc2 : Bool)
    (baseTarget1 baseTarget2 baseTarget3 baseTarget4 : UInt64)
    (scoopNr1 scoopNr2 scoopNr3 scoopNr4 : UInt32)
    (gensig1 gensig2 gensig3 gensig4 : Vector UInt8 32)
    (addr1 addr2 addr3 addr4 : UInt64)
    (nonce1 nonce2 nonce3 nonce4 : UInt64) :
    Option (Vector UInt64 4) := do
  let gendata1 ← setNonce Buffer.uninit addr1 0
  let gendata2 ← setNonce Buffer.uninit addr2 0
  let gendata3 ← setNonce Buffer.uninit addr3 0
  let gendata4 ← setNonce Buffer.uninit addr4 0
  let gendata1 ← setNonce gendata1 nonce1 8
  let gendata2 ← setNonce gendata2 nonce2 8
  let gendata3 ← setNonce gendata3 nonce3 8
  let gendata4 ← setNonce gendata4 nonce4 8
  let (gendata1, gendata2, gendata3, gendata4) ←
    fillSse4 x nonceSize gendata1 gendata2 gendata3 gendata4
  let sc := x.absorb x.init ![← gendata1.read 0 (16 + nonceSize),
    ← gendata2.read 0 (16 + nonceSize), ← gendata3.read 0 (16 + nonceSize),
    ← gendata4.read 0 (16 + nonceSize)]
  let final1 := x.close sc 0
  let final2 := x.close sc 1
  let final3 := x.close sc 2
  let final4 := x.close sc 3
  let (gendata1, gendata2, gendata3, gendata4) ←
    xorSse4 final1 final2 final3 final4 0 gendata1 gendata2 gendata3 gendata4
  let deadlineSc := x.absorb x.init ![gensig1.toList, gensig2.toList, gensig3.toList,
    gensig4.toList]
  let scoop1 ← copyScoop gendata1 poc2 scoopNr1
  let scoop2 ← copyScoop gendata2 poc2 scoopNr2
  let scoop3 ← copyScoop gendata3 poc2 scoopNr3
  let scoop4 ← copyScoop gendata4 poc2 scoopNr4
  let deadlineSc := x.absorb deadlineSc ![scoop1, scoop2, scoop3, scoop4]
  let targetResult1 := le64 (x.close deadlineSc 0)
  let targetResult2 := le64 (x.close deadlineSc 1)
  let targetResult3 := le64 (x.close deadlineSc 2)
  let targetResult4 := le64 (x.close deadlineSc 3)
  return #v[← div targetResult1 baseTarget1, ← div targetResult2 baseTarget2,
    ← div targetResult3 baseTarget3, ← div targetResult4 baseTarget4]

/-! ## Eight lanes -/

/-- The fill loop of `calculate_deadlines_avx2`, from the index `i` on, which is moved
    between the hash and the writes. -/
def fillAvx2 (x : MShabal H 8) (i : ℕ)
    (gendata1 gendata2 gendata3 gendata4 gendata5 gendata6 gendata7 gendata8 : Gendata) :
    Option (Gendata × Gendata × Gendata × Gendata × Gendata × Gendata × Gendata × Gendata) := do
  if _h : i ≠ 0 then
    let sc := x.absorb x.init ![← gendata1.read i (hashLen i), ← gendata2.read i (hashLen i),
      ← gendata3.read i (hashLen i), ← gendata4.read i (hashLen i), ← gendata5.read i (hashLen i),
      ← gendata6.read i (hashLen i), ← gendata7.read i (hashLen i), ← gendata8.read i (hashLen i)]
    -- An index below zero would be outside the arrays.
    if hashSize ≤ i then
      let i' := i - hashSize
      let gendata1 ← gendata1.write i' (x.close sc 0).toList
      let gendata2 ← gendata2.write i' (x.close sc 1).toList
      let gendata3 ← gendata3.write i' (x.close sc 2).toList
      let gendata4 ← gendata4.write i' (x.close sc 3).toList
      let gendata5 ← gendata5.write i' (x.close sc 4).toList
      let gendata6 ← gendata6.write i' (x.close sc 5).toList
      let gendata7 ← gendata7.write i' (x.close sc 6).toList
      let gendata8 ← gendata8.write i' (x.close sc 7).toList
      fillAvx2 x i' gendata1 gendata2 gendata3 gendata4 gendata5 gendata6 gendata7 gendata8
    else
      none
  else
    return (gendata1, gendata2, gendata3, gendata4, gendata5, gendata6, gendata7, gendata8)
termination_by i
decreasing_by exact Nat.sub_lt (Nat.pos_of_ne_zero _h) (by decide)

/-- The XOR loop of `calculate_deadlines_avx2`, from the index `i` on. -/
def xorAvx2 (final1 final2 final3 final4 final5 final6 final7 final8 : Vector UInt8 32) (i : ℕ)
    (gendata1 gendata2 gendata3 gendata4 gendata5 gendata6 gendata7 gendata8 : Gendata) :
    Option (Gendata × Gendata × Gendata × Gendata × Gendata × Gendata × Gendata × Gendata) := do
  if i < nonceSize then
    let gendata1 ← xorByte gendata1 final1 i
    let gendata2 ← xorByte gendata2 final2 i
    let gendata3 ← xorByte gendata3 final3 i
    let gendata4 ← xorByte gendata4 final4 i
    let gendata5 ← xorByte gendata5 final5 i
    let gendata6 ← xorByte gendata6 final6 i
    let gendata7 ← xorByte gendata7 final7 i
    let gendata8 ← xorByte gendata8 final8 i
    xorAvx2 final1 final2 final3 final4 final5 final6 final7 final8 (i + 1) gendata1 gendata2
      gendata3 gendata4 gendata5 gendata6 gendata7 gendata8
  else
    return (gendata1, gendata2, gendata3, gendata4, gendata5, gendata6, gendata7, gendata8)
termination_by nonceSize - i

/-- `calculate_deadlines_avx2`: the deadlines of the lanes. -/
def calculateDeadlinesAvx2 (x : MShabal H 8) (poc2 : Bool)
    (baseTarget1 baseTarget2 baseTarget3 baseTarget4 baseTarget5 baseTarget6 baseTarget7
     baseTarget8 : UInt64)
    (scoopNr1 scoopNr2 scoopNr3 scoopNr4 scoopNr5 scoopNr6 scoopNr7 scoopNr8 : UInt32)
    (gensig1 gensig2 gensig3 gensig4 gensig5 gensig6 gensig7 gensig8 : Vector UInt8 32)
    (addr1 addr2 addr3 addr4 addr5 addr6 addr7 addr8 : UInt64)
    (nonce1 nonce2 nonce3 nonce4 nonce5 nonce6 nonce7 nonce8 : UInt64) :
    Option (Vector UInt64 8) := do
  let gendata1 ← setNonce Buffer.uninit addr1 0
  let gendata2 ← setNonce Buffer.uninit addr2 0
  let gendata3 ← setNonce Buffer.uninit addr3 0
  let gendata4 ← setNonce Buffer.uninit addr4 0
  let gendata5 ← setNonce Buffer.uninit addr5 0
  let gendata6 ← setNonce Buffer.uninit addr6 0
  let gendata7 ← setNonce Buffer.uninit addr7 0
  let gendata8 ← setNonce Buffer.uninit addr8 0
  let gendata1 ← setNonce gendata1 nonce1 8
  let gendata2 ← setNonce gendata2 nonce2 8
  let gendata3 ← setNonce gendata3 nonce3 8
  let gendata4 ← setNonce gendata4 nonce4 8
  let gendata5 ← setNonce gendata5 nonce5 8
  let gendata6 ← setNonce gendata6 nonce6 8
  let gendata7 ← setNonce gendata7 nonce7 8
  let gendata8 ← setNonce gendata8 nonce8 8
  let (gendata1, gendata2, gendata3, gendata4, gendata5, gendata6, gendata7, gendata8) ←
    fillAvx2 x nonceSize gendata1 gendata2 gendata3 gendata4 gendata5 gendata6 gendata7 gendata8
  let sc := x.absorb x.init ![← gendata1.read 0 (16 + nonceSize),
    ← gendata2.read 0 (16 + nonceSize), ← gendata3.read 0 (16 + nonceSize),
    ← gendata4.read 0 (16 + nonceSize), ← gendata5.read 0 (16 + nonceSize),
    ← gendata6.read 0 (16 + nonceSize), ← gendata7.read 0 (16 + nonceSize),
    ← gendata8.read 0 (16 + nonceSize)]
  let final1 := x.close sc 0
  let final2 := x.close sc 1
  let final3 := x.close sc 2
  let final4 := x.close sc 3
  let final5 := x.close sc 4
  let final6 := x.close sc 5
  let final7 := x.close sc 6
  let final8 := x.close sc 7
  let (gendata1, gendata2, gendata3, gendata4, gendata5, gendata6, gendata7, gendata8) ←
    xorAvx2 final1 final2 final3 final4 final5 final6 final7 final8 0 gendata1 gendata2 gendata3
      gendata4 gendata5 gendata6 gendata7 gendata8
  let deadlineSc := x.absorb x.init ![gensig1.toList, gensig2.toList, gensig3.toList,
    gensig4.toList, gensig5.toList, gensig6.toList, gensig7.toList, gensig8.toList]
  let scoop1 ← copyScoop gendata1 poc2 scoopNr1
  let scoop2 ← copyScoop gendata2 poc2 scoopNr2
  let scoop3 ← copyScoop gendata3 poc2 scoopNr3
  let scoop4 ← copyScoop gendata4 poc2 scoopNr4
  let scoop5 ← copyScoop gendata5 poc2 scoopNr5
  let scoop6 ← copyScoop gendata6 poc2 scoopNr6
  let scoop7 ← copyScoop gendata7 poc2 scoopNr7
  let scoop8 ← copyScoop gendata8 poc2 scoopNr8
  let deadlineSc := x.absorb deadlineSc ![scoop1, scoop2, scoop3, scoop4,
    scoop5, scoop6, scoop7, scoop8]
  let targetResult1 := le64 (x.close deadlineSc 0)
  let targetResult2 := le64 (x.close deadlineSc 1)
  let targetResult3 := le64 (x.close deadlineSc 2)
  let targetResult4 := le64 (x.close deadlineSc 3)
  let targetResult5 := le64 (x.close deadlineSc 4)
  let targetResult6 := le64 (x.close deadlineSc 5)
  let targetResult7 := le64 (x.close deadlineSc 6)
  let targetResult8 := le64 (x.close deadlineSc 7)
  return #v[← div targetResult1 baseTarget1, ← div targetResult2 baseTarget2,
    ← div targetResult3 baseTarget3, ← div targetResult4 baseTarget4,
    ← div targetResult5 baseTarget5, ← div targetResult6 baseTarget6,
    ← div targetResult7 baseTarget7, ← div targetResult8 baseTarget8]

/-! ## Lanes -/

/-- What a deadline is computed from. -/
structure Lane where
  account : UInt64
  nonce : UInt64
  gensig : Vector UInt8 32
  scoopNr : UInt32
  baseTarget : UInt64
  deriving DecidableEq

/-- `calculate_deadlines_sse4` on the data of its lanes. -/
def lanesSse4 (x : MShabal H 4) (poc2 : Bool) (l : Fin 4 → Lane) : Option (Vector UInt64 4) :=
  calculateDeadlinesSse4 x poc2
    (l 0).baseTarget (l 1).baseTarget (l 2).baseTarget (l 3).baseTarget
    (l 0).scoopNr (l 1).scoopNr (l 2).scoopNr (l 3).scoopNr
    (l 0).gensig (l 1).gensig (l 2).gensig (l 3).gensig
    (l 0).account (l 1).account (l 2).account (l 3).account
    (l 0).nonce (l 1).nonce (l 2).nonce (l 3).nonce

/-- `calculate_deadlines_avx2` on the data of its lanes. -/
def lanesAvx2 (x : MShabal H 8) (poc2 : Bool) (l : Fin 8 → Lane) : Option (Vector UInt64 8) :=
  calculateDeadlinesAvx2 x poc2
    (l 0).baseTarget (l 1).baseTarget (l 2).baseTarget (l 3).baseTarget
    (l 4).baseTarget (l 5).baseTarget (l 6).baseTarget (l 7).baseTarget
    (l 0).scoopNr (l 1).scoopNr (l 2).scoopNr (l 3).scoopNr
    (l 4).scoopNr (l 5).scoopNr (l 6).scoopNr (l 7).scoopNr
    (l 0).gensig (l 1).gensig (l 2).gensig (l 3).gensig
    (l 4).gensig (l 5).gensig (l 6).gensig (l 7).gensig
    (l 0).account (l 1).account (l 2).account (l 3).account
    (l 4).account (l 5).account (l 6).account (l 7).account
    (l 0).nonce (l 1).nonce (l 2).nonce (l 3).nonce
    (l 4).nonce (l 5).nonce (l 6).nonce (l 7).nonce

end Burstmath

end BurstPoolNode

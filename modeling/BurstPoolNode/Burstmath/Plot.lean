import BurstPoolNode.Burstmath

/-!
# Plots, lane by lane

The plot of a nonce as a definition of its own, on one lane and on lists
(`plot`, `deadline`), and the loops of `burstmath.c` in terms of it: started
from the seed, the fill loops leave `accumulated` in every lane and the XOR
loops `plot` in front of the seed, reading only bytes that have been written
(`fillSse4_filled`, `xorSse4_filled` and their likes for eight lanes).
-/

namespace BurstPoolNode.Burstmath

variable {H : List UInt8 → Vector UInt8 32}

/-! ## The definition of a deadline -/

variable (H) in
/-- `n` times, the hash of the first `hashCap` bytes in front. -/
def grow : ℕ → List UInt8 → List UInt8
  | 0, acc => acc
  | n + 1, acc => grow n ((H (acc.take hashCap)).toList ++ acc)

variable (H) in
/-- The hashes of a nonce, in front of its seed. -/
def accumulated (account nonce : UInt64) : List UInt8 :=
  grow H 8192 (be64 account ++ be64 nonce)

/-- `bs` with the digest `f` repeated over the first `n` bytes. -/
def mask (f : Vector UInt8 32) (n : ℕ) (bs : List UInt8) : List UInt8 :=
  bs.mapIdx fun i b => if i < n then b ^^^ f.get (Fin.ofNat 32 i) else b

variable (H) in
/-- The plot of a nonce: its hashes, masked by the hash of everything. -/
def plot (account nonce : UInt64) : List UInt8 :=
  mask (H (accumulated H account nonce)) nonceSize
    ((accumulated H account nonce).take nonceSize)

/-- The scoop `s` of a plot; for PoC2, its second half is that of the mirror scoop. -/
def scoop (plot : List UInt8) (poc2 : Bool) (s : ℕ) : List UInt8 :=
  (plot.drop (64 * s)).take 32 ++
    if poc2 then (plot.drop (64 * (4095 - s) + 32)).take 32 else (plot.drop (64 * s + 32)).take 32

variable (H) in
/-- The deadline of a nonce for a block. -/
def deadline (poc2 : Bool) (l : Lane) : UInt64 :=
  le64 (H (l.gensig.toList ++ scoop (plot H l.account l.nonce) poc2 l.scoopNr.toNat)) / l.baseTarget

/-- The scoop is one of the plot, and there is a base target to divide by. -/
structure Lane.Valid (l : Lane) : Prop where
  scoopNr_lt : l.scoopNr < 4096
  baseTarget_ne : l.baseTarget ≠ 0

instance (l : Lane) : Decidable l.Valid :=
  decidable_of_iff (_ ∧ _) ⟨fun h => ⟨h.1, h.2⟩, fun h => ⟨h.1, h.2⟩⟩

@[simp] theorem length_grow (n : ℕ) (acc : List UInt8) :
    (grow H n acc).length = 32 * n + acc.length := by
  induction n generalizing acc with
  | zero => simp [grow]
  | succ n ih =>
    rw [grow, ih, List.length_append, Vector.length_toList]
    ring

@[simp] theorem length_accumulated (account nonce : UInt64) :
    (accumulated H account nonce).length = 16 + nonceSize := by
  simp [accumulated, be64, nonceSize_eq]

@[simp] theorem length_mask (f : Vector UInt8 32) (n : ℕ) (bs : List UInt8) :
    (mask f n bs).length = bs.length := by
  simp [mask]

theorem getElem_mask (f : Vector UInt8 32) (n : ℕ) (bs : List UInt8) {i : ℕ}
    (hi : i < (mask f n bs).length) (hi' : i < bs.length) :
    (mask f n bs)[i] = if i < n then bs[i] ^^^ f[i % 32] else bs[i] := by
  simp only [mask, List.getElem_mapIdx]
  rfl

theorem mask_zero (f : Vector UInt8 32) (bs : List UInt8) : mask f 0 bs = bs := by
  refine List.ext_getElem (by simp) fun i h h' => ?_
  simp [mask]

/-- Masking one byte more. -/
theorem mask_set (f : Vector UInt8 32) {n : ℕ} {bs : List UInt8} (hn : n < bs.length) :
    (mask f n bs).set n (bs[n] ^^^ f[n % 32]) = mask f (n + 1) bs := by
  refine List.ext_getElem (by simp) fun i h h' => ?_
  have hi : i < bs.length := by simpa using h
  rw [List.getElem_set, getElem_mask f n bs _ hi, getElem_mask f (n + 1) bs _ hi]
  split_ifs <;> first | omega | simp_all

theorem take_mask (f : Vector UInt8 32) (n k : ℕ) (bs : List UInt8) :
    (mask f n bs).take k = mask f n (bs.take k) := by
  refine List.ext_getElem (by simp) fun i h h' => ?_
  simp [mask]

/-! ## The arrays of a lane -/

/-- A `gendata` array whose last bytes are `acc`, the others not written. -/
def written (acc : List UInt8) (h : acc.length ≤ 16 + nonceSize) : Gendata := Buffer.filled acc h

theorem close_one {n : ℕ} (x : MShabal H n) (c : Fin n → List UInt8)
    (hc : ∀ j k, (c j).length = (c k).length) (k : Fin n) :
    x.close (x.absorb x.init c) k = H (c k) := by
  have h := x.close_absorb [c] (by simpa using hc) k
  simpa using h

/-- Lanes of the same length, each hashed up to the cap. -/
theorem close_take {n : ℕ} (x : MShabal H n) (acc : Fin n → List UInt8)
    (hacc : ∀ j k, (acc j).length = (acc k).length) (k : Fin n) :
    x.close (x.absorb x.init fun j => (acc j).take hashCap) k = H ((acc k).take hashCap) :=
  close_one x (fun j => (acc j).take hashCap) (fun j k => by simp [hacc j k]) k

theorem close_two {n : ℕ} (x : MShabal H n) (c d : Fin n → List UInt8)
    (hc : ∀ j k, (c j).length = (c k).length) (hd : ∀ j k, (d j).length = (d k).length)
    (k : Fin n) : x.close (x.absorb (x.absorb x.init c) d) k = H (c k ++ d k) := by
  have h := x.close_absorb [c, d] (by simpa using ⟨hc, hd⟩) k
  simpa using h

/-- `SET_NONCE` writes the bytes of a number, the most significant first. -/
theorem setNonce_eq (g : Gendata) (v : UInt64) (offset : ℕ) :
    setNonce g v offset = g.write (nonceSize + offset) (be64 v) := by
  have step : ∀ (off : ℕ) (xs ys : List UInt8) (k : ℕ) (f : Gendata → Option Gendata),
      k = off + xs.length → ((g.write off xs).bind fun g => (g.write k ys).bind f) =
        (g.write off (xs ++ ys)).bind f := by
    rintro off xs ys _ f rfl
    rw [← Option.bind_assoc, Buffer.write_write]
  simp only [setNonce, bind]
  rw [step, step, step, step, step, step]
  · exact Buffer.write_write ..
  all_goals rfl

/-- The seed of a nonce, written in two steps. -/
theorem setNonce_uninit (account : UInt64) :
    ∃ g, setNonce Buffer.uninit account 0 = some g ∧ ∀ nonce, setNonce g nonce 8 =
      some (written (be64 account ++ be64 nonce) (Nat.le_add_right _ _)) := by
  have h : ∀ nonce, ((setNonce Buffer.uninit account 0).bind fun g => setNonce g nonce 8) =
      some (written (be64 account ++ be64 nonce) (Nat.le_add_right _ _)) := fun nonce => by
    simp only [setNonce_eq]
    rw [show nonceSize + 8 = nonceSize + 0 + (be64 account).length from rfl, Buffer.write_write,
      ← Buffer.filled_nil, Buffer.write_filled _ (by simp [be64, Nat.add_comm])]
    simp only [List.append_nil]
    rfl
  cases hg : setNonce Buffer.uninit account 0 with
  | none => simp [hg] at h
  | some g => exact ⟨g, rfl, fun nonce => by simpa [hg] using h nonce⟩

/-- What is hashed at the index `i`: the first `hashCap` bytes written. -/
theorem read_hashLen {acc : List UInt8} {i : ℕ} (hi : i + acc.length = 16 + nonceSize) :
    (written acc (by omega)).read i (hashLen i) = some (acc.take hashCap) := by
  have hlen : hashLen i = min hashCap acc.length := by
    simp only [hashLen]
    split_ifs <;> omega
  rw [hlen, written, Buffer.read_filled _ (by omega) (by omega), hi, Nat.sub_self, List.drop_zero,
    ← List.take_take, List.take_length]

/-- The hash goes in front of what is written. -/
theorem write_digest {acc : List UInt8} {i : ℕ} (hi : i + acc.length = 16 + nonceSize)
    (h : hashSize ≤ i) (d : Vector UInt8 32) :
    (written acc (by omega)).write (i - hashSize) d.toList =
      some (written (d.toList ++ acc) (by simp [hashSize] at *; omega)) :=
  Buffer.write_filled _ (by simp [hashSize] at *; omega)

/-- The next hash is left to be written one hash size further down. -/
theorem length_digest {acc : List UInt8} {k : ℕ} (h : 32 * (k + 1) + acc.length = 16 + nonceSize)
    (d : Vector UInt8 32) : 32 * k + (d.toList ++ acc).length = 16 + nonceSize := by
  rw [← h, List.length_append, Vector.length_toList]
  ring

theorem read_all {acc : List UInt8} (h : acc.length = 16 + nonceSize) :
    (written acc (Nat.le_of_eq h)).read 0 (16 + nonceSize) = some acc := by
  rw [written, Buffer.read_filled _ (by omega) (by omega), h, Nat.zero_add, Nat.sub_self,
    List.drop_zero, List.take_of_length_le (Nat.le_of_eq h)]

/-- A step of the XOR loop masks one byte more. -/
theorem xorByte_filled {acc : List UInt8} (h : acc.length = 16 + nonceSize) (f : Vector UInt8 32)
    {i : ℕ} (hi : i < nonceSize) :
    xorByte (written (mask f i acc) (by simp [h])) f i =
      some (written (mask f (i + 1) acc) (by simp [h])) := by
  have hlen : i < (mask f i acc).length := by
    rw [length_mask]
    omega
  have hread : (written (mask f i acc) (by simp [h])).read i 1 =
      some [(mask f i acc)[i]] := by
    rw [written, Buffer.read_filled _ (by simp [h]) (by omega), length_mask, h, Nat.add_sub_cancel,
      List.drop_eq_getElem_cons hlen, List.take_succ_cons, List.take_zero]
  have hi' : i < acc.length := by omega
  have hb : (mask f i acc)[i] = acc[i] := by
    rw [getElem_mask f i acc hlen hi', if_neg (lt_irrefl i)]
  rw [xorByte, hread, hb]
  simp only [bind, Option.bind_some, List.map_cons, List.map_nil]
  rw [written, Buffer.write_filled_singleton (by simp [h]) (by omega)]
  simp only [mask_set f hi', written]

/-! ## The loops -/

theorem vec4_eta {α : Type*} (f : Fin 4 → α) : ![f 0, f 1, f 2, f 3] = f := by
  funext k
  fin_cases k <;> rfl

/-- The fill loop leaves the hashes of every lane in front of what it started from. -/
theorem fillSse4_filled (x : MShabal H 4) (k : ℕ) (acc : Fin 4 → List UInt8)
    (h : ∀ j, 32 * k + (acc j).length = 16 + nonceSize) :
    fillSse4 x (32 * k)
      (written (acc 0) ((Nat.le_add_left ..).trans_eq (h 0)))
      (written (acc 1) ((Nat.le_add_left ..).trans_eq (h 1)))
      (written (acc 2) ((Nat.le_add_left ..).trans_eq (h 2)))
      (written (acc 3) ((Nat.le_add_left ..).trans_eq (h 3))) =
      some (written (grow H k (acc 0)) ((length_grow k _).trans (h 0)).le,
        written (grow H k (acc 1)) ((length_grow k _).trans (h 1)).le,
        written (grow H k (acc 2)) ((length_grow k _).trans (h 2)).le,
        written (grow H k (acc 3)) ((length_grow k _).trans (h 3)).le) := by
  induction k generalizing acc with
  | zero =>
    rw [fillSse4]
    simp [grow]
  | succ k ih =>
    have hsize : hashSize ≤ 32 * (k + 1) := Nat.le_add_left ..
    have hsub : 32 * (k + 1) - hashSize = 32 * k := Nat.add_sub_cancel ..
    -- The lanes have the same length, so that each gets its own hash.
    have hclose := close_take x acc fun i j => Nat.add_left_cancel ((h i).trans (h j).symm)
    rw [fillSse4, dif_pos (by omega)]
    simp only [read_hashLen (h _), bind, Option.bind_some, if_pos hsize,
      vec4_eta (fun j => (acc j).take hashCap), hclose, write_digest (h _) hsize]
    rw [hsub]
    exact ih (fun j => (H ((acc j).take hashCap)).toList ++ acc j) fun j => length_digest (h j) _

/-- The XOR loop masks the plot of every lane. -/
theorem xorSse4_filled (f : Fin 4 → Vector UInt8 32) (acc : Fin 4 → List UInt8)
    (h : ∀ j, (acc j).length = 16 + nonceSize) {k i : ℕ} (hi : i + k = nonceSize) :
    xorSse4 (f 0) (f 1) (f 2) (f 3) i
      (written (mask (f 0) i (acc 0)) ((length_mask ..).trans (h 0)).le)
      (written (mask (f 1) i (acc 1)) ((length_mask ..).trans (h 1)).le)
      (written (mask (f 2) i (acc 2)) ((length_mask ..).trans (h 2)).le)
      (written (mask (f 3) i (acc 3)) ((length_mask ..).trans (h 3)).le) =
      some (written (mask (f 0) nonceSize (acc 0)) ((length_mask ..).trans (h 0)).le,
        written (mask (f 1) nonceSize (acc 1)) ((length_mask ..).trans (h 1)).le,
        written (mask (f 2) nonceSize (acc 2)) ((length_mask ..).trans (h 2)).le,
        written (mask (f 3) nonceSize (acc 3)) ((length_mask ..).trans (h 3)).le) := by
  induction k generalizing i with
  | zero =>
    obtain rfl : i = nonceSize := by omega
    rw [xorSse4, if_neg (lt_irrefl _)]
    rfl
  | succ k ih =>
    -- The loop reads the byte it masks, which is written: the lanes are full.
    have hlt : i < nonceSize := by omega
    rw [xorSse4, if_pos hlt]
    simp only [xorByte_filled (h _) _ hlt, bind, Option.bind_some]
    exact ih (by omega)

theorem vec8_eta {α : Type*} (f : Fin 8 → α) :
    ![f 0, f 1, f 2, f 3, f 4, f 5, f 6, f 7] = f := by
  funext k
  fin_cases k <;> rfl

/-- The fill loop leaves the hashes of every lane in front of what it started from. -/
theorem fillAvx2_filled (x : MShabal H 8) (k : ℕ) (acc : Fin 8 → List UInt8)
    (h : ∀ j, 32 * k + (acc j).length = 16 + nonceSize) :
    fillAvx2 x (32 * k)
      (written (acc 0) ((Nat.le_add_left ..).trans_eq (h 0)))
      (written (acc 1) ((Nat.le_add_left ..).trans_eq (h 1)))
      (written (acc 2) ((Nat.le_add_left ..).trans_eq (h 2)))
      (written (acc 3) ((Nat.le_add_left ..).trans_eq (h 3)))
      (written (acc 4) ((Nat.le_add_left ..).trans_eq (h 4)))
      (written (acc 5) ((Nat.le_add_left ..).trans_eq (h 5)))
      (written (acc 6) ((Nat.le_add_left ..).trans_eq (h 6)))
      (written (acc 7) ((Nat.le_add_left ..).trans_eq (h 7))) =
      some (written (grow H k (acc 0)) ((length_grow k _).trans (h 0)).le,
        written (grow H k (acc 1)) ((length_grow k _).trans (h 1)).le,
        written (grow H k (acc 2)) ((length_grow k _).trans (h 2)).le,
        written (grow H k (acc 3)) ((length_grow k _).trans (h 3)).le,
        written (grow H k (acc 4)) ((length_grow k _).trans (h 4)).le,
        written (grow H k (acc 5)) ((length_grow k _).trans (h 5)).le,
        written (grow H k (acc 6)) ((length_grow k _).trans (h 6)).le,
        written (grow H k (acc 7)) ((length_grow k _).trans (h 7)).le) := by
  induction k generalizing acc with
  | zero =>
    rw [fillAvx2]
    simp [grow]
  | succ k ih =>
    have hsize : hashSize ≤ 32 * (k + 1) := Nat.le_add_left ..
    have hsub : 32 * (k + 1) - hashSize = 32 * k := Nat.add_sub_cancel ..
    -- The lanes have the same length, so that each gets its own hash.
    have hclose := close_take x acc fun i j => Nat.add_left_cancel ((h i).trans (h j).symm)
    rw [fillAvx2, dif_pos (by omega)]
    simp only [read_hashLen (h _), bind, Option.bind_some, if_pos hsize,
      vec8_eta (fun j => (acc j).take hashCap), hclose, write_digest (h _) hsize]
    rw [hsub]
    exact ih (fun j => (H ((acc j).take hashCap)).toList ++ acc j) fun j => length_digest (h j) _

/-- The XOR loop masks the plot of every lane. -/
theorem xorAvx2_filled (f : Fin 8 → Vector UInt8 32) (acc : Fin 8 → List UInt8)
    (h : ∀ j, (acc j).length = 16 + nonceSize) {k i : ℕ} (hi : i + k = nonceSize) :
    xorAvx2 (f 0) (f 1) (f 2) (f 3) (f 4) (f 5) (f 6) (f 7) i
      (written (mask (f 0) i (acc 0)) ((length_mask ..).trans (h 0)).le)
      (written (mask (f 1) i (acc 1)) ((length_mask ..).trans (h 1)).le)
      (written (mask (f 2) i (acc 2)) ((length_mask ..).trans (h 2)).le)
      (written (mask (f 3) i (acc 3)) ((length_mask ..).trans (h 3)).le)
      (written (mask (f 4) i (acc 4)) ((length_mask ..).trans (h 4)).le)
      (written (mask (f 5) i (acc 5)) ((length_mask ..).trans (h 5)).le)
      (written (mask (f 6) i (acc 6)) ((length_mask ..).trans (h 6)).le)
      (written (mask (f 7) i (acc 7)) ((length_mask ..).trans (h 7)).le) =
      some (written (mask (f 0) nonceSize (acc 0)) ((length_mask ..).trans (h 0)).le,
        written (mask (f 1) nonceSize (acc 1)) ((length_mask ..).trans (h 1)).le,
        written (mask (f 2) nonceSize (acc 2)) ((length_mask ..).trans (h 2)).le,
        written (mask (f 3) nonceSize (acc 3)) ((length_mask ..).trans (h 3)).le,
        written (mask (f 4) nonceSize (acc 4)) ((length_mask ..).trans (h 4)).le,
        written (mask (f 5) nonceSize (acc 5)) ((length_mask ..).trans (h 5)).le,
        written (mask (f 6) nonceSize (acc 6)) ((length_mask ..).trans (h 6)).le,
        written (mask (f 7) nonceSize (acc 7)) ((length_mask ..).trans (h 7)).le) := by
  induction k generalizing i with
  | zero =>
    obtain rfl : i = nonceSize := by omega
    rw [xorAvx2, if_neg (lt_irrefl _)]
    rfl
  | succ k ih =>
    have hlt : i < nonceSize := by omega
    rw [xorAvx2, if_pos hlt]
    simp only [xorByte_filled (h _) _ hlt, bind, Option.bind_some]
    exact ih (by omega)

end BurstPoolNode.Burstmath

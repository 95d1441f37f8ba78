import BurstPoolNode.Burstmath.Lanes

/-!
# The versions of the proof of capacity

The scoop of a nonce depends on the version: no scoop is its own mirror. For
every valid lane there is a hash that makes the deadlines of the two versions
different (`exists_deadline_ne`): one that numbers the hashes of a plot, so that
the second halves of the two scoops hold different numbers, and marks one of
them.

Another hash (`echo`) makes any byte of the seed the deadline of a nonce
(`deadline_echo`).
-/

namespace BurstPoolNode.Burstmath

/-- A digest that holds the number `n`. -/
def numbered (n : ℕ) : Vector UInt8 32 :=
  .ofFn fun i =>
    if i.val = 0 then UInt8.ofNat n else if i.val = 1 then UInt8.ofNat (n / 256) else 0

/-- The number at the start of `bs`. -/
def number (bs : List UInt8) : ℕ := (bs.getD 0 0).toNat + 256 * (bs.getD 1 0).toNat

theorem number_numbered {n : ℕ} (h : n < 8192) (bs : List UInt8) :
    number ((numbered n).toList ++ bs) = n := by
  have hget : ∀ i : Fin 32, ((numbered n).toList ++ bs).getD i 0 = (numbered n).get i := by
    intro i
    have hlen : i < (numbered n).toList.length := by simp
    rw [List.getD_eq_getElem?_getD, List.getElem?_append_left hlen, Vector.getElem?_toList,
      Vector.getElem?_eq_getElem i.isLt]
    rfl
  have h0 : ((numbered n).toList ++ bs).getD 0 0 = UInt8.ofNat n :=
    (hget 0).trans (Vector.getElem_ofFn (Fin.isLt 0))
  have h1 : ((numbered n).toList ++ bs).getD 1 0 = UInt8.ofNat (n / 256) :=
    (hget 1).trans (Vector.getElem_ofFn (Fin.isLt 1))
  rw [number, h0, h1, UInt8.toNat_ofNat', UInt8.toNat_ofNat']
  omega

/-- Numbers the hashes of a plot, leaves the plot unmasked, and marks the scoops whose second
    half holds `target`. -/
def marking (target : ℕ) (bs : List UInt8) : Vector UInt8 32 :=
  if bs.length = 16 then numbered 0
  else if bs.length = 16 + nonceSize then Vector.replicate 32 0
  else if bs.length = 96 then
    if number (bs.drop 64) = target then Vector.replicate 32 255 else Vector.replicate 32 0
  else numbered (number bs + 1)

/-- The first `n` numbers in front of a seed. -/
def stack (seed : List UInt8) : ℕ → List UInt8
  | 0 => seed
  | n + 1 => (numbered n).toList ++ stack seed n

variable {seed : List UInt8}

theorem length_stack (hseed : seed.length = 16) (n : ℕ) : (stack seed n).length = 16 + 32 * n := by
  induction n with
  | zero => rw [stack, hseed]
  | succ n ih =>
    rw [stack, List.length_append, ih, Vector.length_toList]
    omega

/-- The next hash of a plot holds the next number. -/
theorem marking_take_stack (hseed : seed.length = 16) (target : ℕ) {n : ℕ} (hn : n < 8192) :
    marking target ((stack seed n).take hashCap) = numbered n := by
  have hlen : ((stack seed n).take hashCap).length = min 4096 (16 + 32 * n) := by
    rw [List.length_take, length_stack hseed, hashCap]
  rw [marking, hlen]
  cases n with
  | zero => rw [if_pos (by omega)]
  | succ n =>
    have hsize := nonceSize_eq
    rw [if_neg (by omega), if_neg (by omega), if_neg (by omega), stack, List.take_append,
      List.take_of_length_le (by simp [hashCap]), number_numbered (by omega)]

theorem grow_stack (hseed : seed.length = 16) (target : ℕ) {n k : ℕ} (h : k + n ≤ 8192) :
    grow (marking target) n (stack seed k) = stack seed (k + n) := by
  induction n generalizing k with
  | zero => rfl
  | succ n ih =>
    -- The hash in front holds the number of hashes below it.
    rw [grow, marking_take_stack hseed target (by omega)]
    exact (ih (k := k + 1) (by omega)).trans (by rw [Nat.add_right_comm, Nat.add_assoc])

theorem drop_stack {n k : ℕ} (h : k ≤ n) : (stack seed n).drop (32 * k) = stack seed (n - k) := by
  induction k with
  | zero => rfl
  | succ k ih =>
    have hnk : n - k = n - (k + 1) + 1 := by omega
    rw [Nat.mul_succ, ← List.drop_drop, ih (by omega), hnk, stack, List.drop_append,
      List.drop_of_length_le (by simp)]
    simp

/-- The digest zero masks nothing. -/
theorem mask_replicate_zero (n : ℕ) (bs : List UInt8) : mask (Vector.replicate 32 0) n bs = bs := by
  refine List.ext_getElem (by simp) fun i h h' => ?_
  simp [mask]

/-- The digests of a plot hold the numbers, the highest first. -/
theorem plot_marking (target : ℕ) (account nonce : UInt64) {k : ℕ} (hk : k < 8192) :
    ((plot (marking target) account nonce).drop (32 * k)).take 32 =
      (numbered (8191 - k)).toList := by
  have hseed : (be64 account ++ be64 nonce).length = 16 := rfl
  have hacc : accumulated (marking target) account nonce =
      stack (be64 account ++ be64 nonce) 8192 := by
    rw [accumulated]
    exact (grow_stack hseed target (k := 0) (by omega)).trans (by rw [Nat.zero_add])
  have hfinal : marking target (accumulated (marking target) account nonce) =
      Vector.replicate 32 0 := by
    rw [marking, length_accumulated, if_neg (by simp [nonceSize_eq]), if_pos rfl]
  have hnum : 8192 - k = 8191 - k + 1 := by omega
  have hsize := nonceSize_eq
  rw [plot, hfinal, mask_replicate_zero, hacc, List.drop_take, List.take_take,
    drop_stack (by omega), hnum, stack, min_eq_left (by omega), List.take_append,
    List.take_of_length_le (by simp)]
  simp

/-- The deadline is zero unless the scoop is marked. -/
theorem deadline_marking (target : ℕ) (poc2 : Bool) {l : Lane} (hl : l.Valid) :
    deadline (marking target) poc2 l =
      (if (if poc2 then 2 * l.scoopNr.toNat else 8190 - 2 * l.scoopNr.toNat) = target then
        0xFFFFFFFFFFFFFFFF
      else 0) / l.baseTarget := by
  have hs : l.scoopNr.toNat < 4096 := UInt32.lt_iff_toNat_lt.mp hl.scoopNr_lt
  have hhalf : ∀ {k off : ℕ}, off = 32 * k → k < 8192 →
      ((plot (marking target) l.account l.nonce).drop off).take 32 =
        (numbered (8191 - k)).toList := by
    rintro k _ rfl hk
    exact plot_marking target l.account l.nonce hk
  set n := if poc2 then 2 * l.scoopNr.toNat else 8190 - 2 * l.scoopNr.toNat with hn
  have hscoop : scoop (plot (marking target) l.account l.nonce) poc2 l.scoopNr.toNat =
      (numbered (8191 - 2 * l.scoopNr.toNat)).toList ++ (numbered n).toList := by
    rw [scoop, hhalf (k := 2 * l.scoopNr.toNat) (by omega) (by omega), hn]
    cases poc2 with
    | true =>
      -- The second half of the mirror scoop.
      rw [if_pos rfl, if_pos rfl, hhalf (k := 8191 - 2 * l.scoopNr.toNat) (by omega) (by omega)]
      congr 3
      omega
    | false =>
      -- The second half of the scoop itself.
      rw [if_neg (by decide), if_neg (by decide),
        hhalf (k := 2 * l.scoopNr.toNat + 1) (by omega) (by omega)]
      congr 3
      omega
  have hnum : number (numbered n).toList = n := by
    have hlt : n < 8192 := by
      rw [hn]
      split_ifs <;> omega
    rw [← List.append_nil (numbered n).toList]
    exact number_numbered hlt []
  rw [deadline, hscoop, marking, if_neg (by simp),
    if_neg (by simp [nonceSize_eq]), if_pos (by simp), ← List.append_assoc,
    List.drop_append_of_le_length (by simp), List.drop_of_length_le (by simp), List.nil_append,
    hnum]
  split_ifs
  · rfl
  · rfl

/-- For every valid lane, some hash makes the deadlines of the two versions differ. -/
theorem exists_deadline_ne {l : Lane} (hl : l.Valid) :
    ∃ H : List UInt8 → Vector UInt8 32, deadline H true l ≠ deadline H false l := by
  have hs : l.scoopNr.toNat < 4096 := UInt32.lt_iff_toNat_lt.mp hl.scoopNr_lt
  refine ⟨marking (2 * l.scoopNr.toNat), ?_⟩
  -- The number of an unmirrored second half is even but not divisible by four.
  have hne : 8190 - 2 * l.scoopNr.toNat ≠ 2 * l.scoopNr.toNat := by omega
  rw [deadline_marking _ _ hl, deadline_marking _ _ hl, if_pos (if_pos rfl),
    if_neg (by simpa using hne)]
  intro heq
  -- The greatest number does not become zero when it is divided.
  have hpos : 0 < l.baseTarget.toNat := by
    refine Nat.pos_of_ne_zero fun h => hl.baseTarget_ne ?_
    exact UInt64.toNat_inj.mp h
  have hlt := l.baseTarget.toNat_lt
  have hdiv : 0 < 0xFFFFFFFFFFFFFFFF / l.baseTarget.toNat := Nat.div_pos (by omega) hpos
  have hzero := congrArg UInt64.toNat heq
  rw [UInt64.toNat_div, UInt64.toNat_div] at hzero
  simp at hzero
  omega

/-! ## A hash that tells nonces apart -/

/-- Repeats the byte `f` of the seed all over a plot, leaves the plot unmasked, and makes the
    first byte of a scoop the number of the last digest. -/
def echo (f : List UInt8 → UInt8) (bs : List UInt8) : Vector UInt8 32 :=
  if bs.length = 16 then Vector.replicate 32 (f bs)
  else if bs.length = 16 + nonceSize then Vector.replicate 32 0
  else if bs.length = 96 then (Vector.replicate 32 0).set 0 (bs.getD 32 0) (by decide)
  else Vector.replicate 32 (bs.getD 0 0)

variable {f : List UInt8 → UInt8}

/-- The next hash of a plot is the same again. -/
theorem echo_take (hseed : seed.length = 16) (k : ℕ) :
    echo f ((List.replicate (32 * k) (f seed) ++ seed).take hashCap) =
      Vector.replicate 32 (f seed) := by
  cases k with
  | zero =>
    have htake : (List.replicate (32 * 0) (f seed) ++ seed).take hashCap = seed :=
      List.take_of_length_le (by simp [hseed, hashCap])
    rw [htake, echo, if_pos hseed]
  | succ k =>
    have hlen : ((List.replicate (32 * (k + 1)) (f seed) ++ seed).take hashCap).length =
        min 4096 (16 + 32 * (k + 1)) := by
      rw [List.length_take, List.length_append, List.length_replicate, hseed, hashCap,
        Nat.add_comm]
    have hfirst : ((List.replicate (32 * (k + 1)) (f seed) ++ seed).take hashCap).getD 0 0 =
        f seed := by
      rw [Nat.mul_succ, List.replicate_succ]
      rfl
    have hsize := nonceSize_eq
    rw [echo, hlen, if_neg (by omega), if_neg (by omega), if_neg (by omega), hfirst]

theorem grow_echo (hseed : seed.length = 16) (n k : ℕ) :
    grow (echo f) n (List.replicate (32 * k) (f seed) ++ seed) =
      List.replicate (32 * (k + n)) (f seed) ++ seed := by
  induction n generalizing k with
  | zero => rfl
  | succ n ih =>
    have hblock : (Vector.replicate 32 (f seed)).toList = List.replicate 32 (f seed) :=
      Vector.toList_replicate
    have hk : 32 + 32 * k = 32 * (k + 1) := by ring
    rw [grow, echo_take hseed, hblock, ← List.append_assoc, List.replicate_append_replicate, hk, ih,
      Nat.add_right_comm, Nat.add_assoc]

theorem plot_echo (account nonce : UInt64) :
    plot (echo f) account nonce = List.replicate nonceSize (f (be64 account ++ be64 nonce)) := by
  have hseed : (be64 account ++ be64 nonce).length = 16 := rfl
  have hacc : accumulated (echo f) account nonce =
      List.replicate nonceSize (f (be64 account ++ be64 nonce)) ++ (be64 account ++ be64 nonce) :=
    grow_echo hseed 8192 0
  have hfinal : echo f (accumulated (echo f) account nonce) = Vector.replicate 32 0 := by
    rw [echo, length_accumulated, if_neg (by simp [nonceSize_eq]), if_pos rfl]
  rw [plot, hfinal, mask_replicate_zero, hacc, List.take_append_of_le_length (by simp),
    List.take_of_length_le (by simp)]

/-- The deadline is the byte of the seed, over the base target. -/
theorem deadline_echo (poc2 : Bool) {l : Lane} (hl : l.Valid) :
    deadline (echo f) poc2 l = (f (be64 l.account ++ be64 l.nonce)).toUInt64 / l.baseTarget := by
  have hs : l.scoopNr.toNat < 4096 := UInt32.lt_iff_toNat_lt.mp hl.scoopNr_lt
  generalize hc : f (be64 l.account ++ be64 l.nonce) = c
  have hhalf : ∀ {off : ℕ}, off + 32 ≤ nonceSize →
      ((plot (echo f) l.account l.nonce).drop off).take 32 = List.replicate 32 c := by
    intro off hoff
    rw [plot_echo, hc, List.drop_replicate, List.take_replicate, min_eq_left (by omega)]
  have hscoop : scoop (plot (echo f) l.account l.nonce) poc2 l.scoopNr.toNat =
      List.replicate 64 c := by
    have hsize := nonceSize_eq
    rw [scoop, hhalf (by omega), hhalf (by omega), hhalf (by omega), ite_self,
      List.replicate_append_replicate]
  have hget : (l.gensig.toList ++ List.replicate 64 c).getD 32 0 = c := by
    rw [List.getD_append_right _ _ _ _ (by simp)]
    simp
  have hnumber : le64 ((Vector.replicate 32 0).set 0 c) = c.toUInt64 := by
    have hbytes : ((Vector.replicate 32 0).set 0 c).toList.take 8 = [c, 0, 0, 0, 0, 0, 0, 0] := rfl
    rw [le64, hbytes]
    simp
  rw [deadline, hscoop, echo, if_neg (by simp),
    if_neg (by simp [nonceSize_eq]), if_pos (by simp), hget, hnumber]

end BurstPoolNode.Burstmath

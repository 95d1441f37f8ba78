import BurstPoolNode.Mshabal

/-!
# The lanes of a pass

What `compress` does to the words of a lane: a round of Shabal for every block of
the lane, under the counter that the two halves in the context make together
(`compress_chain`). The unrolled calls are those of the loops
(`ppCalls_eq`, `addCalls_eq`), the last additions in the opposite order, which
makes no difference.
-/

namespace BurstPoolNode.Mshabal

open Simd

variable {n : ℕ}

/-! ## Words -/

theorem shl_one_add (x : UInt32) : x <<< 1 + x = 3 * x := by
  refine UInt32.toNat_inj.mp ?_
  simp only [UInt32.toNat_add, UInt32.toNat_shiftLeft, UInt32.toNat_mul, Nat.shiftLeft_eq]
  change (x.toNat * 2 % 2 ^ 32 + x.toNat) % 2 ^ 32 = 3 * x.toNat % 2 ^ 32
  omega

theorem shl_two_add (x : UInt32) : x <<< 2 + x = 5 * x := by
  refine UInt32.toNat_inj.mp ?_
  simp only [UInt32.toNat_add, UInt32.toNat_shiftLeft, UInt32.toNat_mul, Nat.shiftLeft_eq]
  change (x.toNat * 4 % 2 ^ 32 + x.toNat) % 2 ^ 32 = 5 * x.toNat % 2 ^ 32
  omega

/-- The counter in two halves. -/
def counter (whigh wlow : UInt32) : UInt64 := UInt64.ofNat (2 ^ 32 * whigh.toNat + wlow.toNat)

theorem toNat_counter (whigh wlow : UInt32) :
    (counter whigh wlow).toNat = 2 ^ 32 * whigh.toNat + wlow.toNat := by
  have hhigh := whigh.toNat_lt
  have hlow := wlow.toNat_lt
  exact UInt64.toNat_ofNat_of_lt' (by change _ < 2 ^ 64; omega)

@[simp] theorem low_counter (whigh wlow : UInt32) : Shabal.low (counter whigh wlow) = wlow := by
  have hlow := wlow.toNat_lt
  refine UInt32.toNat_inj.mp ?_
  rw [Shabal.low, UInt64.toNat_toUInt32, toNat_counter]
  omega

@[simp] theorem high_counter (whigh wlow : UInt32) : Shabal.high (counter whigh wlow) = whigh := by
  have hhigh := whigh.toNat_lt
  have hlow := wlow.toNat_lt
  refine UInt32.toNat_inj.mp ?_
  rw [Shabal.high, UInt64.toNat_toUInt32, UInt64.toNat_shiftRight, toNat_counter,
    Nat.shiftRight_eq_div_pow]
  change (2 ^ 32 * whigh.toNat + wlow.toNat) / 2 ^ 32 % 2 ^ 32 = whigh.toNat
  omega

/-- Counting up carries into the high half. -/
theorem counter_succ (whigh wlow : UInt32) :
    counter (if wlow + 1 = 0 then whigh + 1 else whigh) (wlow + 1) = counter whigh wlow + 1 := by
  have hhigh := whigh.toNat_lt
  have hlow := wlow.toNat_lt
  refine UInt64.toNat_inj.mp ?_
  rw [toNat_counter, UInt64.toNat_add, toNat_counter, UInt32.toNat_add]
  split_ifs with h
  · have h := congrArg UInt32.toNat h
    rw [UInt32.toNat_add] at h
    rw [UInt32.toNat_add]
    simp only [UInt32.toNat_one, UInt64.toNat_one, UInt32.toNat_zero] at h ⊢
    omega
  · have h := mt UInt32.toNat_inj.mp h
    rw [UInt32.toNat_add] at h
    simp only [UInt32.toNat_one, UInt64.toNat_one, UInt32.toNat_zero] at h ⊢
    omega

/-- Counting down borrows from the high half. -/
theorem counter_pred (whigh wlow : UInt32) :
    counter (if wlow = 0 then whigh - 1 else whigh) (wlow - 1) = counter whigh wlow - 1 := by
  have h := counter_succ (if wlow = 0 then whigh - 1 else whigh) (wlow - 1)
  have hhigh : (if wlow - 1 + 1 = 0 then (if wlow = 0 then whigh - 1 else whigh) + 1
      else if wlow = 0 then whigh - 1 else whigh) = whigh := by
    simp only [UInt32.sub_add_cancel]
    split_ifs
    · exact UInt32.sub_add_cancel ..
    · rfl
  rw [hhigh, UInt32.sub_add_cancel] at h
  rw [h, UInt64.add_sub_cancel]

/-! ## A pass -/

/-- The accumulators in the lane `k`. -/
def Registers.lane (r : Registers n) (k : Fin n) : Shabal.State :=
  ⟨laneOf k r.a, laneOf k r.b, laneOf k r.c⟩

attribute [local instance] neZero_twelve neZero_sixteen in
/-- The call of `PP` that is a step of the permutation. -/
def callOf (p : ℕ × Fin 16) : PPCall :=
  ⟨Shabal.place p.1 p.2, Shabal.place p.1 p.2 + 11, p.2, p.2 + 13, p.2 + 9, p.2 + 6, 8 - p.2, p.2⟩

theorem ppCalls_eq : ppCalls = Shabal.steps.map callOf := by decide

theorem getElem_ppXa0 (m : Vector (Epi32 n) 16) (r : Registers n) (p : ℕ × Fin 16) (k : Fin n) :
    (ppXa0 m r (callOf p)).get k = Shabal.stirred (laneOf k m) (r.lane k) p := by
  have h₁₇ : (32 - 15 : UInt32) = 17 := rfl
  rw [Vector.get_eq_getElem]
  simp only [Registers.lane, ppXa0, callOf, Shabal.stirred, Shabal.rotl, Fin.getElem_fin,
    getElem_laneOf, getElem_xor, getElem_add, getElem_or, getElem_andnot, getElem_slli,
    getElem_srli, shl_one_add, shl_two_add, h₁₇]
  rw [UInt32.and_comm (~~~_)]
  simp only [UInt32.xor_assoc]

/-- The two words that a call of `PP` writes. -/
theorem lane_pp (m : Vector (Epi32 n) 16) (r : Registers n) (p : ℕ × Fin 16) (k : Fin n) :
    (pp m r (callOf p)).lane k = Shabal.stir (laneOf k m) (r.lane k) p := by
  have hw := getElem_ppXa0 m r p k
  have h₃₁ : (32 - 1 : UInt32) = 31 := rfl
  have hone (x : UInt32) : x ^^^ 0xFFFFFFFF = ~~~x := UInt32.xor_neg_one
  ext1
  · rw [Registers.lane, pp, Shabal.stir, laneOf_set, ← hw]
    rfl
  · simp only [Registers.lane, pp, Shabal.stir, laneOf_set, getElem_xor, getElem_or, getElem_slli,
      getElem_srli, getElem_set1, Fin.getElem_fin, getElem_laneOf, Shabal.rotl, h₃₁, hone]
    rw [← Registers.lane, ← hw]
    rfl
  · rfl

theorem lane_addC (r : Registers n) (j : ℕ) (k : Fin n) :
    (addC r (Fin.ofNat 12 j, Fin.ofNat 16 (j + 3))).lane k = Shabal.addWord (r.lane k) j := by
  ext1
  · simp only [Registers.lane, addC, Shabal.addWord, laneOf_set, Fin.getElem_fin, getElem_laneOf,
      getElem_add]
  · rfl
  · rfl

theorem addCalls_eq : addCalls =
    ((List.range 36).map fun j => (Fin.ofNat 12 j, Fin.ofNat 16 (j + 3))).reverse := by decide

/-- The order of two of the last additions makes no difference. -/
theorem addWord_comm (s : Shabal.State) (i j : ℕ) :
    Shabal.addWord (Shabal.addWord s i) j = Shabal.addWord (Shabal.addWord s j) i := by
  by_cases h : Fin.ofNat 12 i = Fin.ofNat 12 j
  · ext1
    · simp only [Shabal.addWord, h, Fin.getElem_fin, Vector.getElem_set_self, Vector.set_set]
      rw [UInt32.add_assoc, UInt32.add_assoc, UInt32.add_comm s.c[_]]
    · rfl
    · rfl
  · have hij : (Fin.ofNat 12 i : ℕ) ≠ Fin.ofNat 12 j := mt Fin.ext h
    ext1
    · simp only [Shabal.addWord, Fin.getElem_fin, Vector.getElem_set_ne _ _ hij,
        Vector.getElem_set_ne _ _ hij.symm]
      exact Vector.set_comm _ _ hij
    · rfl
    · rfl

instance : RightCommutative Shabal.addWord := ⟨addWord_comm⟩

theorem lane_foldl_addC (r : Registers n) (k : Fin n) :
    (addCalls.foldl addC r).lane k = (List.range 36).foldl Shabal.addWord (r.lane k) := by
  rw [addCalls_eq, ← List.map_reverse, List.foldl_map,
    ← (List.reverse_perm (List.range 36)).foldl_eq (r.lane k)]
  exact (List.foldl_hom (fun r : Registers n => r.lane k) fun r j => (lane_addC r j k).symm).symm

theorem lane_foldl_pp (m : Vector (Epi32 n) 16) (r : Registers n) (k : Fin n) :
    (ppCalls.foldl (pp m) r).lane k =
      Shabal.steps.foldl (Shabal.stir (laneOf k m)) (r.lane k) := by
  rw [ppCalls_eq, List.foldl_map]
  exact (List.foldl_hom (fun r : Registers n => r.lane k) fun r p => (lane_pp m r p k).symm).symm

/-- The swaps done so far. -/
theorem foldl_swapAndSub (m : Vector (Epi32 n) 16) {l : List (Fin 16)} (hl : l.Nodup)
    (r : Registers n) (i : Fin 16) :
    (l.foldl (swapAndSub m) r).a = r.a ∧
      (l.foldl (swapAndSub m) r).b.get i =
        (if i ∈ l then sub (r.c.get i) (m.get i) else r.b.get i) ∧
      (l.foldl (swapAndSub m) r).c.get i = if i ∈ l then r.b.get i else r.c.get i := by
  induction l generalizing r with
  | nil => simp
  | cons x l ih =>
    obtain ⟨hx, hl⟩ := List.nodup_cons.mp hl
    obtain ⟨ha, hb, hc⟩ := ih hl (swapAndSub m r x)
    refine ⟨ha, hb.trans ?_, hc.trans ?_⟩
    · by_cases h : i = x
      · subst h
        simp [hx, swapAndSub, get_put]
      · simp [h, Ne.symm h, swapAndSub, get_put]
    · by_cases h : i = x
      · subst h
        simp [hx, swapAndSub, get_put]
      · simp [h, Ne.symm h, swapAndSub, get_put]

theorem lane_foldl_swapAndSub (m : Vector (Epi32 n) 16) (r : Registers n) (k : Fin n)
    {l : List (Fin 16)} (hl : l.Nodup) (hall : ∀ i, i ∈ l) :
    (l.foldl (swapAndSub m) r).lane k =
      { r.lane k with
        b := Vector.zipWith (· - ·) (r.lane k).c (laneOf k m), c := (r.lane k).b } := by
  have h := foldl_swapAndSub m hl r
  ext1
  · exact congrArg (laneOf k) (h 0).1
  · ext i hi : 1
    have hb := congrArg (·[k]) (h ⟨i, hi⟩).2.1
    simpa [Registers.lane, hall, Vector.get_eq_getElem] using hb
  · ext i hi : 1
    have hc := congrArg (·[k]) (h ⟨i, hi⟩).2.2
    simpa [Registers.lane, hall, Vector.get_eq_getElem] using hc

/-- A pass of the loop is a round in every lane. -/
theorem lane_pass (m : Vector (Epi32 n) 16) (whigh wlow : UInt32) (r : Registers n) (k : Fin n) :
    (pass m whigh wlow r).lane k =
      Shabal.round (laneOf k m) (counter whigh wlow) (r.lane k) := by
  rw [pass, lane_foldl_swapAndSub m _ k (List.nodup_finRange 16) List.mem_finRange,
    lane_foldl_addC, lane_foldl_pp, Shabal.round, Shabal.permute]
  have hinsert : Registers.lane
      { r with
        a := put (put r.a 0 (xor (r.a.get 0) (set1 wlow))) 1
          (xor ((put r.a 0 (xor (r.a.get 0) (set1 wlow))).get 1) (set1 whigh))
        b := (Vector.zipWith add r.b m).map fun x => or (slli x 17) (srli x 15) } k =
      { Shabal.insert (laneOf k m) (counter whigh wlow) (r.lane k) with
        b := (Shabal.insert (laneOf k m) (counter whigh wlow) (r.lane k)).b.map
          (Shabal.rotl · 17) } := by
    ext1
    · simp only [Registers.lane, Shabal.insert, put, Vector.get_eq_getElem, laneOf_set]
      simp
    · ext i hi : 1
      have h₁₅ : (32 - 17 : UInt32) = 15 := rfl
      simp [Registers.lane, Shabal.insert, Shabal.rotl, h₁₅]
    · rfl
  rw [← hinsert]

/-! ## Compression -/

theorem words_take (bs : List UInt8) : Shabal.words (bs.take 64) = Shabal.words bs := by
  have h {i : ℕ} (hi : i < 64) : (bs.take 64).getD i 0 = bs.getD i 0 := by
    rw [List.getD_eq_getElem?_getD, List.getD_eq_getElem?_getD, List.getElem?_take_of_lt hi]
  ext i hi : 1
  simp only [Shabal.words, Vector.getElem_ofFn]
  rw [h (by omega), h (by omega), h (by omega), h (by omega)]

theorem loadWords_eq {bufs : Fin n → List UInt8} (h : ∀ k, 64 ≤ (bufs k).length) :
    ∃ m, loadWords bufs = some m ∧ ∀ k, laneOf k m = Shabal.words (bufs k) := by
  refine ⟨_, if_pos h, fun k => ?_⟩
  ext i hi : 1
  simp [Shabal.words]

/-- The loop is the rounds of the blocks, in every lane. -/
theorem compressLoop_steps {num : ℕ} {bufs : Fin n → List UInt8}
    (h : ∀ k, 64 * num ≤ (bufs k).length) (r : Registers n) (whigh wlow : UInt32) :
    ∃ r' whigh' wlow', compressLoop num bufs r whigh wlow = some (r', whigh', wlow') ∧
      ∀ k, (r'.lane k, counter whigh' wlow') =
        Blocks.steps 64 Shabal.Chain.step num (r.lane k, counter whigh wlow) (bufs k) := by
  induction num generalizing bufs r whigh wlow with
  | zero => exact ⟨r, whigh, wlow, rfl, fun _ => rfl⟩
  | succ num ih =>
    obtain ⟨m, hm, hwords⟩ := loadWords_eq fun k => (Nat.le_mul_of_pos_right 64 num.succ_pos).trans
      (h k)
    have hleft (k : Fin n) : 64 * num ≤ ((bufs k).drop 64).length := by
      have := h k
      rw [List.length_drop]
      omega
    obtain ⟨r', whigh', wlow', hloop, hsteps⟩ := ih hleft
      (pass m whigh wlow r) (if wlow + 1 = 0 then whigh + 1 else whigh) (wlow + 1)
    refine ⟨r', whigh', wlow', ?_, fun k => ?_⟩
    · rw [compressLoop, hm, Option.bind_eq_bind, Option.bind_some]
      exact hloop
    · rw [hsteps k, counter_succ, lane_pass, hwords, Blocks.steps, Shabal.Chain.step, words_take]
      rfl

theorem load_store (r : Registers n) : load (store r) = r := by
  have ha (i : ℕ) (hi : i < 12) : (store r)[Fin.ofNat 44 i] = r.a[i] := by
    have hmod : i % 44 = i := Nat.mod_eq_of_lt (by omega)
    simp only [store, Fin.getElem_fin, Fin.val_ofNat, hmod]
    rw [Vector.getElem_append_left (by omega), Vector.getElem_append_left hi]
  have hb (i : ℕ) (hi : i < 16) : (store r)[Fin.ofNat 44 (i + 12)] = r.b[i] := by
    have hmod : (i + 12) % 44 = i + 12 := Nat.mod_eq_of_lt (by omega)
    simp only [store, Fin.getElem_fin, Fin.val_ofNat, hmod]
    rw [Vector.getElem_append_left (by omega), Vector.getElem_append_right _ (by omega)]
    rfl
  have hc (i : ℕ) (hi : i < 16) : (store r)[Fin.ofNat 44 (i + 28)] = r.c[i] := by
    have hmod : (i + 28) % 44 = i + 28 := Nat.mod_eq_of_lt (by omega)
    simp only [store, Fin.getElem_fin, Fin.val_ofNat, hmod]
    rw [Vector.getElem_append_right _ (by omega)]
    rfl
  ext1
  · ext i hi : 1
    rw [load, Vector.getElem_ofFn, ha i hi]
  · ext i hi : 1
    rw [load, Vector.getElem_ofFn, hb i hi]
  · ext i hi : 1
    rw [load, Vector.getElem_ofFn, hc i hi]

/-- The accumulators of the lane `k` and the counter. -/
def Context.chain (sc : Context n) (k : Fin n) : Shabal.Chain :=
  ((load sc.state).lane k, counter sc.whigh sc.wlow)

/-- With enough data in every lane, `compress` is the rounds of the blocks, in every lane. -/
theorem compress_chain (sc : Context n) {num : ℕ} {bufs : Fin n → List UInt8}
    (h : ∀ k, 64 * num ≤ (bufs k).length) :
    ∃ sc', compress sc bufs num = some sc' ∧ sc'.buf = sc.buf ∧ sc'.ptr = sc.ptr ∧
      ∀ k, sc'.chain k = Blocks.steps 64 Shabal.Chain.step num (sc.chain k) (bufs k) := by
  obtain ⟨r, whigh, wlow, hloop, hsteps⟩ := compressLoop_steps h (load sc.state) sc.whigh sc.wlow
  refine ⟨{ sc with state := store r, whigh, wlow }, ?_, rfl, rfl, fun k => ?_⟩
  · rw [compress, hloop]
    rfl
  · rw [Context.chain, load_store]
    exact hsteps k

/-- A block out of the buffers. -/
theorem compressBuf_chain (sc : Context n) :
    ∃ sc', compressBuf sc = some sc' ∧ sc'.buf = sc.buf ∧ sc'.ptr = sc.ptr ∧
      ∀ k : Fin n, sc'.chain k = (sc.chain k).step (sc.buf.get k).toList := by
  have hblock (k : Fin n) : 64 * 1 ≤ (sc.buf.get k).toList.length := by simp
  obtain ⟨sc', hsc', hbuf, hptr, hchain⟩ := compress_chain sc hblock
  refine ⟨sc', hsc', hbuf, hptr, fun k => (hchain k).trans ?_⟩
  rw [Blocks.steps, Blocks.steps, List.take_of_length_le (by simp)]

end BurstPoolNode.Mshabal

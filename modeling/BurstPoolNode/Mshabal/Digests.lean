import BurstPoolNode.Mshabal.Streams
import BurstPoolNode.Burstmath.Lanes

/-!
# The digests of the lanes

Setting a context up hashes the size of the output in every lane (`init_stream`),
and closing it leaves the digests in its words. From the first call to the
last no buffer is left, and every lane has the Shabal digest of its own data:

* `sse4_hash`: on four lanes, for any size of output and any bits after the bytes.
  A lane without data in some calls does not disturb the others;
* `avx2_hash`: on eight lanes.
-/

namespace BurstPoolNode.Mshabal

open Simd Burstmath

variable {n : ℕ}

/-! ## Starting -/

theorem getElem_setSize (lo hi : Fin 16 → UInt8) (buf : Vector UInt8 64) (x u : Fin 16) {r : ℕ}
    (hr : r < 4) :
    (setSize lo hi buf x)[4 * u.val + r] =
      if x = u ∧ r = 0 then lo u else if x = u ∧ r = 1 then hi u else buf[4 * u.val + r] := by
  rw [setSize, Vector.getElem_setIfInBounds, Vector.getElem_setIfInBounds]
  by_cases h : x = u
  · subst h
    simp only [true_and]
    split_ifs <;> first | rfl | omega
  · have h' : (x : ℕ) ≠ u := fun h' => h (Fin.ext h')
    rw [if_neg (mt And.left h), if_neg (mt And.left h), if_neg (by omega), if_neg (by omega)]

/-- The byte `r` of the word `u` after the loop, or a part `l` of it. -/
theorem getElem_foldl_setSize (lo hi : Fin 16 → UInt8) (buf : Vector UInt8 64) (l : List (Fin 16))
    (u : Fin 16) {r : ℕ} (hr : r < 4) :
    (l.foldl (setSize lo hi) buf)[4 * u.val + r] =
      if u ∈ l ∧ r = 0 then lo u else if u ∈ l ∧ r = 1 then hi u else buf[4 * u.val + r] := by
  induction l generalizing buf with
  | nil => simp
  | cons x l ih =>
    rw [List.foldl_cons, ih, getElem_setSize lo hi buf x u hr]
    by_cases hx : x = u
    · subst hx
      simp only [List.mem_cons, true_or, true_and]
      split_ifs <;> first | rfl | tauto
    · have hu : u ∈ x :: l ↔ u ∈ l := by simp [Ne.symm hx]
      simp [hx, hu]

theorem getElem_setSizes (lo hi : Fin 16 → UInt8) (buf : Vector UInt8 64) (u : Fin 16) {r : ℕ}
    (hr : r < 4) :
    (setSizes lo hi buf)[4 * u.val + r] =
      if r = 0 then lo u else if r = 1 then hi u else buf[4 * u.val + r] := by
  rw [setSizes, getElem_foldl_setSize lo hi buf _ u hr]
  simp only [List.mem_finRange, true_and]

/-- A buffer whose words are of two bytes. -/
def Short (buf : Vector UInt8 64) : Prop :=
  ∀ u : Fin 16, buf[4 * u.val + 2] = 0 ∧ buf[4 * u.val + 3] = 0

theorem Short.setSizes {buf : Vector UInt8 64} (h : Short buf) (lo hi : Fin 16 → UInt8) :
    Short (setSizes lo hi buf) := fun u =>
  ⟨(getElem_setSizes lo hi buf u (by decide)).trans (h u).1,
    (getElem_setSizes lo hi buf u (by decide)).trans (h u).2⟩

/-- The words of a buffer after the loop. -/
theorem words_setSizes (lo hi : Fin 16 → UInt8) {buf : Vector UInt8 64} (h : Short buf) :
    Shabal.words (setSizes lo hi buf).toList =
      Vector.ofFn fun u => Shabal.word (lo u) (hi u) 0 0 := by
  ext i hi' : 1
  have hget {r : ℕ} (hr : r < 4) : (setSizes lo hi buf).toList.getD (4 * i + r) 0 =
      (setSizes lo hi buf)[4 * i + r] := by
    rw [List.getD_eq_getElem _ _ (by simp; omega), Vector.getElem_toList]
  have h₀ : (setSizes lo hi buf).toList.getD (4 * i) 0 = lo ⟨i, hi'⟩ :=
    (hget (r := 0) (by decide)).trans (getElem_setSizes lo hi buf ⟨i, hi'⟩ (r := 0) (by decide))
  have h₁ : (setSizes lo hi buf).toList.getD (4 * i + 1) 0 = hi ⟨i, hi'⟩ :=
    (hget (by decide)).trans (getElem_setSizes lo hi buf ⟨i, hi'⟩ (r := 1) (by decide))
  have h₂ := (hget (by decide)).trans (h.setSizes lo hi ⟨i, hi'⟩).1
  have h₃ := (hget (by decide)).trans (h.setSizes lo hi ⟨i, hi'⟩).2
  rw [Shabal.words, Vector.getElem_ofFn, Vector.getElem_ofFn, h₀, h₁, h₂, h₃]

theorem lane_zero (k : Fin n) :
    (load (Vector.replicate 44 (Vector.replicate n 0))).lane k =
      ⟨Vector.replicate 12 0, Vector.replicate 16 0, Vector.replicate 16 0⟩ := by
  ext1
  · ext i hi : 1
    simp [Registers.lane, load]
  · ext i hi : 1
    simp [Registers.lane, load]
  · ext i hi : 1
    simp [Registers.lane, load]

/-- Setting up with two rounds of sizes. -/
theorem init_stream (size : ℕ) (lo₁ hi₁ lo₂ hi₂ : Fin 16 → UInt8)
    (h₁ : (Vector.ofFn fun u => Shabal.word (lo₁ u) (hi₁ u) 0 0) = Shabal.sizeBlock size 0)
    (h₂ : (Vector.ofFn fun u => Shabal.word (lo₂ u) (hi₂ u) 0 0) = Shabal.sizeBlock size 16) :
    ∃ sc : Context n, init lo₁ hi₁ lo₂ hi₂ = some sc ∧ sc.ptr = 0 ∧
      ∀ k, sc.stream k = (Shabal.start size, []) := by
  have hzero : Short (Vector.replicate 64 0) := fun u => ⟨by simp, by simp⟩
  obtain ⟨sc₁, hsc₁, hbuf₁, hptr₁, hchain₁⟩ := compressBuf_chain
    { buf := (Vector.replicate n (Vector.replicate 64 0)).map (setSizes lo₁ hi₁)
      ptr := 0
      state := Vector.replicate 44 (Vector.replicate n 0)
      whigh := 0xFFFFFFFF
      wlow := 0xFFFFFFFF }
  obtain ⟨sc₂, hsc₂, -, hptr₂, hchain₂⟩ := compressBuf_chain
    { sc₁ with buf := sc₁.buf.map (setSizes lo₂ hi₂) }
  have hptr : sc₂.ptr = 0 := hptr₂.trans hptr₁
  refine ⟨sc₂, ?_, hptr, fun k => ?_⟩
  · rw [init]
    dsimp only
    rw [hsc₁]
    exact hsc₂
  · have hwords₁ : Shabal.words (setSizes lo₁ hi₁ (Vector.replicate 64 0)).toList =
        Shabal.sizeBlock size 0 := (words_setSizes lo₁ hi₁ hzero).trans h₁
    have hwords₂ : Shabal.words (setSizes lo₂ hi₂
        (setSizes lo₁ hi₁ (Vector.replicate 64 0))).toList = Shabal.sizeBlock size 16 :=
      (words_setSizes lo₂ hi₂ (hzero.setSizes lo₁ hi₁)).trans h₂
    have hbuf (k : Fin n) : (sc₁.buf.map (setSizes lo₂ hi₂)).get k =
        setSizes lo₂ hi₂ (setSizes lo₁ hi₁ (Vector.replicate 64 0)) := by
      rw [hbuf₁, Vector.get_eq_getElem]
      simp
    have hstart : sc₁.chain k = Shabal.Chain.insert ((⟨Vector.replicate 12 0,
        Vector.replicate 16 0, Vector.replicate 16 0⟩, -1)) (Shabal.sizeBlock size 0) := by
      rw [hchain₁ k, ← hwords₁, Shabal.Chain.step, Context.chain, lane_zero]
      simp only [Vector.get_eq_getElem, Vector.getElem_map, Vector.getElem_replicate]
      rfl
    rw [Context.stream, hptr, List.take_zero, hchain₂ k]
    refine congrArg (·, []) ?_
    rw [Shabal.start, ← hstart, ← hwords₂, Shabal.Chain.step]
    dsimp only
    rw [hbuf k]
    rfl

/-! ## Closing -/

theorem toList_padBytes (buf : Vector UInt8 64) {ptr : ℕ} (hptr : ptr < 64) (ub : UInt8) :
    (padBytes buf ptr ub).toList = buf.toList.take ptr ++ ub :: List.replicate (63 - ptr) 0 := by
  have hmin : min ptr 64 = ptr := by omega
  refine List.ext_getElem (by simp; omega) fun i hi hi' => ?_
  simp only [padBytes, Vector.getElem_toList, Vector.getElem_ofFn, Fin.getElem_fin]
  split_ifs with h h
  · rw [List.getElem_append_left (by simp; omega)]
    simp
  · subst h
    rw [List.getElem_append_right (by simp)]
    simp [hmin]
  · rw [List.getElem_append_right (by simp; omega)]
    simp only [List.length_take, Vector.length_toList, hmin]
    rw [List.getElem_cons, dif_neg (by omega), List.getElem_replicate]

/-- A round after which the counter is as before. -/
theorem closeRound_chain (sc : Context n) :
    ∃ sc', closeRound sc = some sc' ∧ sc'.buf = sc.buf ∧
      ∀ k : Fin n, sc'.chain k =
        (Shabal.round (Shabal.words (sc.buf.get k).toList) (sc.chain k).2 (sc.chain k).1,
          (sc.chain k).2) := by
  obtain ⟨sc₁, hsc₁, hbuf, -, hchain⟩ := compressBuf_chain sc
  refine ⟨{ sc₁ with
    wlow := sc₁.wlow - 1, whigh := if sc₁.wlow = 0 then sc₁.whigh - 1 else sc₁.whigh }, ?_, hbuf,
    fun k => ?_⟩
  · rw [closeRound, hsc₁]
    rfl
  · have hk := hchain k
    rw [Shabal.Chain.step, Shabal.Chain.insert, Context.chain, Prod.mk.injEq] at hk
    rw [Context.chain, counter_pred, hk.2, UInt64.add_sub_cancel]
    exact Prod.ext hk.1 rfl

/-- Closing hashes what is left in the buffers, and the byte `ub`, as the last block. -/
theorem close_final {sc : Context n} (hptr : sc.ptr < 64) (ub : Fin n → UInt8) :
    ∃ sc', close sc ub = some sc' ∧ ∀ k : Fin n, (load sc'.state).lane k =
      Shabal.final (sc.chain k)
        ((sc.stream k).2 ++ ub k :: List.replicate (63 - (sc.stream k).2.length) 0) := by
  have hpad : padBuf sc.buf sc.ptr ub =
      some (Vector.ofFn fun k => padBytes sc.buf[k] sc.ptr (ub k)) := if_pos hptr
  obtain ⟨sc₁, hsc₁, hbuf₁, h₁⟩ := closeRound_chain
    { sc with buf := Vector.ofFn fun k => padBytes sc.buf[k] sc.ptr (ub k) }
  obtain ⟨sc₂, hsc₂, hbuf₂, h₂⟩ := closeRound_chain sc₁
  obtain ⟨sc₃, hsc₃, hbuf₃, h₃⟩ := closeRound_chain sc₂
  obtain ⟨sc₄, hsc₄, -, h₄⟩ := closeRound_chain sc₃
  refine ⟨sc₄, ?_, fun k => ?_⟩
  · rw [close, hpad]
    simp only [Option.bind_eq_bind, Option.bind_some, hsc₁, hsc₂, hsc₃, hsc₄]
  · have hlen : (sc.stream k).2.length = sc.ptr := by
      rw [Context.stream, List.length_take, Vector.length_toList]
      omega
    have hblock : ((Vector.ofFn fun k => padBytes sc.buf[k] sc.ptr (ub k)).get k).toList =
        (sc.stream k).2 ++ ub k :: List.replicate (63 - (sc.stream k).2.length) 0 := by
      rw [hlen, Vector.get_eq_getElem, Vector.getElem_ofFn]
      exact toList_padBytes sc.buf[k] hptr (ub k)
    have h := congrArg Prod.fst (h₄ k)
    rw [h₃ k, h₂ k, h₁ k, hbuf₃, hbuf₂, hbuf₁] at h
    rw [Shabal.final, ← hblock]
    exact h

/-! ## The output -/

theorem mapM_eq_some_map {α β : Type*} {f : α → Option β} {g : α → β} {l : List α}
    (h : ∀ x ∈ l, f x = some (g x)) : l.mapM f = some (l.map g) := by
  induction l with
  | nil => rfl
  | cons x l ih =>
    rw [List.mapM_cons, h x List.mem_cons_self, ih fun y hy => h y (List.mem_cons_of_mem _ hy)]
    rfl

/-- The words of `c` are the last of the state. -/
theorem stateWord_c (sc : Context n) (k : Fin n) {i : ℕ} (hi : i < 16) :
    stateWord sc (n * (28 + i) + k) = some ((load sc.state).lane k).c[i] := by
  have hn : 0 < n := k.pos
  have hdiv : (n * (28 + i) + k) / n = 28 + i := by
    rw [Nat.mul_add_div hn, Nat.div_eq_of_lt k.isLt, Nat.add_zero]
  have hmod : (n * (28 + i) + k) % n = k := by
    rw [Nat.mul_add_mod, Nat.mod_eq_of_lt k.isLt]
  have hload : (load sc.state).c[i] = sc.state[28 + i] := by
    have hi' : (i + 28) % 44 = 28 + i := by omega
    simp only [load, Vector.getElem_ofFn, Fin.getElem_fin, Fin.val_ofNat, hi']
  rw [stateWord, hdiv, hmod, Vector.getElem?_eq_getElem (by omega), Option.bind_eq_bind,
    Option.bind_some, Vector.getElem?_eq_getElem k.isLt, Registers.lane, getElem_laneOf, hload]
  rfl

/-- The last words of `c` in the lane `k`. -/
theorem output_eq (sc : Context n) (k : Fin n) {w off : ℕ} (hw : w ≤ 16)
    (hoff : off = n * (28 + (16 - w))) :
    output sc w off k = some (((load sc.state).lane k).c.toList.drop (16 - w)) := by
  subst hoff
  have hword : ∀ z ∈ List.range w, stateWord sc (n * (28 + (16 - w)) + n * z + k) =
      some (((load sc.state).lane k).c.toList.getD (16 - w + z) 0) := by
    intro z hz
    have hz := List.mem_range.mp hz
    rw [← Nat.mul_add, Nat.add_assoc 28, stateWord_c sc k (by omega),
      List.getD_eq_getElem _ _ (by simp; omega), Vector.getElem_toList]
  rw [output, mapM_eq_some_map hword]
  refine congrArg some (List.ext_getElem (by simp; omega) fun i hi hi' => ?_)
  rw [List.length_map, List.length_range] at hi
  rw [List.getElem_map, List.getElem_range, List.getElem_drop,
    List.getD_eq_getElem _ _ (by simp; omega)]

/-! ## Four lanes -/

/-- The first `n` bits of the byte `ub`, the most significant first. -/
def topBits (n : ℕ) (ub : UInt32) : List Bool :=
  (List.range n).map fun i => ub.toNat.testBit (7 - i)

theorem lastByte_cases : ∀ n : Fin 8, ∀ b : Fin 256,
    (UInt8.ofNat b &&& (-(0x80 >>> UInt32.ofNat n) : UInt32).toUInt8 |||
      (0x80 >>> UInt32.ofNat n : UInt32).toUInt8) =
      Shabal.lastByte ((List.range n).map fun i => b.val.testBit (7 - i)) := by decide +kernel

/-- The byte that `sse4_mshabal_close` puts after the data. -/
theorem lastByte_topBits {n : UInt32} (hn : n < 8) (ub : UInt32) :
    ((ub &&& -(0x80 >>> n)) ||| 0x80 >>> n).toUInt8 = Shabal.lastByte (topBits n.toNat ub) := by
  have hn : n.toNat < 8 := UInt32.lt_iff_toNat_lt.mp hn
  have hbits : topBits n.toNat ub =
      (List.range n.toNat).map fun i => (ub.toNat % 256).testBit (7 - i) := by
    refine List.map_congr_left fun i _ => ?_
    rw [show 256 = 2 ^ 8 from rfl, Nat.testBit_mod_two_pow, decide_eq_true (by omega),
      Bool.true_and]
  have hub : ub.toUInt8 = UInt8.ofNat (ub.toNat % 256) := by
    refine UInt8.toNat_inj.mp ?_
    rw [UInt32.toNat_toUInt8, UInt8.toNat_ofNat']
    omega
  have h := lastByte_cases ⟨n.toNat, hn⟩ ⟨ub.toNat % 256, Nat.mod_lt _ (by decide)⟩
  rw [UInt32.toUInt8_or, UInt32.toUInt8_and, hub, hbits, ← h]
  simp only [UInt32.ofNat_toNat]

theorem toNat_word (b₀ b₁ b₂ b₃ : UInt8) : (Shabal.word b₀ b₁ b₂ b₃).toNat =
    b₀.toNat + 2 ^ 8 * b₁.toNat + 2 ^ 16 * b₂.toNat + 2 ^ 24 * b₃.toNat := by
  have h₀ := b₀.toNat_lt
  have h₁ := b₁.toNat_lt
  have h₂ := b₂.toNat_lt
  have h₃ := b₃.toNat_lt
  have hshift (b : UInt8) (k : UInt32) (hk : k.toNat ≤ 24) :
      (b.toUInt32 <<< k).toNat = b.toNat <<< k.toNat := by
    have hb : b.toNat < 2 ^ 8 := b.toNat_lt
    have hpow : b.toNat * 2 ^ k.toNat < 2 ^ 32 := calc
      b.toNat * 2 ^ k.toNat < 2 ^ 8 * 2 ^ k.toNat := Nat.mul_lt_mul_of_pos_right hb (by positivity)
      _ ≤ 2 ^ 8 * 2 ^ 24 := Nat.mul_le_mul_left _ (Nat.pow_le_pow_right (by decide) hk)
      _ = 2 ^ 32 := rfl
    rw [UInt32.toNat_shiftLeft, UInt8.toNat_toUInt32, Nat.mod_eq_of_lt (a := k.toNat) (by omega),
      Nat.shiftLeft_eq, Nat.mod_eq_of_lt hpow]
  -- The bytes do not overlap, so that what is joined is added.
  rw [Shabal.word, UInt32.toNat_or, UInt32.toNat_or, UInt32.toNat_or, hshift _ _ (by decide),
    hshift _ _ (by decide), hshift _ _ (by decide), UInt8.toNat_toUInt32, Nat.or_comm,
    Nat.or_comm (_ ||| _) (b₂.toNat <<< _), Nat.or_comm b₀.toNat]
  change b₃.toNat <<< 24 ||| (b₂.toNat <<< 16 ||| (b₁.toNat <<< 8 ||| b₀.toNat)) = _
  rw [← Nat.shiftLeft_add_eq_or_of_lt (i := 8) h₀,
    ← Nat.shiftLeft_add_eq_or_of_lt (i := 16) (by rw [Nat.shiftLeft_eq]; omega),
    ← Nat.shiftLeft_add_eq_or_of_lt (i := 24) (by rw [Nat.shiftLeft_eq, Nat.shiftLeft_eq]; omega),
    Nat.shiftLeft_eq, Nat.shiftLeft_eq, Nat.shiftLeft_eq]
  omega

/-- A word of two bytes. -/
theorem word_of_lt {x : UInt32} (h : x.toNat < 65536) :
    Shabal.word x.toUInt8 (x >>> 8).toUInt8 0 0 = x := by
  refine UInt32.toNat_inj.mp ?_
  rw [toNat_word, UInt32.toNat_toUInt8, UInt32.toNat_toUInt8, UInt32.toNat_shiftRight,
    Nat.shiftRight_eq_div_pow]
  change x.toNat % 2 ^ 8 + 2 ^ 8 * (x.toNat / 2 ^ 8 % 2 ^ 8) + 2 ^ 16 * 0 + 2 ^ 24 * 0 = x.toNat
  omega

theorem sse4MshabalInit_stream {outSize : UInt32} (h : outSize.toNat ≤ 512) :
    ∃ sc, sse4MshabalInit outSize = some sc ∧ sc.ptr = 0 ∧ sc.outSize = outSize ∧
      ∀ k, sc.stream k = (Shabal.start outSize.toNat, []) := by
  have hword {k u : ℕ} (hk : k ≤ 16) (hu : u < 16) {x : UInt32}
      (hx : x = outSize + UInt32.ofNat u + UInt32.ofNat k) :
      Shabal.word x.toUInt8 (x >>> 8).toUInt8 0 0 = UInt32.ofNat (outSize.toNat + k + u) := by
    have hx' : x = UInt32.ofNat (outSize.toNat + k + u) := by
      rw [hx, Nat.add_right_comm, UInt32.ofNat_add, UInt32.ofNat_add, UInt32.ofNat_toNat]
    have hnat : x.toNat = outSize.toNat + k + u := by
      rw [hx', UInt32.toNat_ofNat_of_lt' (by change _ < 2 ^ 32; omega)]
    rw [word_of_lt (by omega), hx']
  obtain ⟨sc, hsc, hptr, hstream⟩ := init_stream (n := 4) outSize.toNat
    (fun u => (outSize + UInt32.ofNat u).toUInt8)
    (fun u => ((outSize + UInt32.ofNat u) >>> 8).toUInt8)
    (fun u => (outSize + UInt32.ofNat u + 16).toUInt8)
    (fun u => ((outSize + UInt32.ofNat u + 16) >>> 8).toUInt8)
    (by
      ext i hi : 1
      rw [Shabal.sizeBlock, Vector.getElem_ofFn, Vector.getElem_ofFn]
      exact hword (by decide) hi (UInt32.add_zero _).symm)
    (by
      ext i hi : 1
      rw [Shabal.sizeBlock, Vector.getElem_ofFn, Vector.getElem_ofFn]
      exact hword (by decide) hi rfl)
  refine ⟨{ sc with outSize }, ?_, hptr, rfl, hstream⟩
  rw [sse4MshabalInit, hsc]
  rfl

/-- What a call gives to the lane `k`. -/
def given (k : Fin 4) (c : (Fin 4 → Option (List UInt8)) × ℕ) : List UInt8 :=
  ((c.1 k).getD []).take c.2

/-- The data that a call reads is there. -/
def Accessible (c : (Fin 4 → Option (List UInt8)) × ℕ) : Prop :=
  ∀ k, ∀ data ∈ c.1 k, c.2 ≤ data.length

instance (c : (Fin 4 → Option (List UInt8)) × ℕ) : Decidable (Accessible c) :=
  inferInstanceAs (Decidable (∀ k, ∀ data ∈ c.1 k, c.2 ≤ data.length))

/-- The lane `k` has data in a call, if any lane has. -/
def Given (k : Fin 4) (c : (Fin 4 → Option (List UInt8)) × ℕ) : Prop := 0 < c.2 → (c.1 k).isSome

instance (k : Fin 4) (c : (Fin 4 → Option (List UInt8)) × ℕ) : Decidable (Given k c) :=
  inferInstanceAs (Decidable (0 < c.2 → (c.1 k).isSome))

/-- The data that stands in for what is missing is that of some lane. -/
theorem exists_mem_of_orElse {data : Fin 4 → Option (List UInt8)} {data0 : List UInt8}
    (h : (data 0 <|> data 1 <|> data 2 <|> data 3) = some data0) :
    (∃ j, data0 ∈ data j) ∧ ![data0, (data 1).getD data0, (data 2).getD data0,
      (data 3).getD data0] = fun k => (data k).getD data0 := by
  refine ⟨?_, ?_⟩
  · rcases h₀ : data 0 with _ | d₀
    · rcases h₁ : data 1 with _ | d₁
      · rcases h₂ : data 2 with _ | d₂
        · rw [h₀, h₁, h₂] at h
          exact ⟨3, h⟩
        · rw [h₀, h₁, h₂] at h
          exact ⟨2, h₂.trans h⟩
      · rw [h₀, h₁] at h
        exact ⟨1, h₁.trans h⟩
    · rw [h₀] at h
      exact ⟨0, h₀.trans h⟩
  · funext k
    match k with
    | 0 =>
      rcases h₀ : data 0 with _ | d₀
      · rfl
      · rw [h₀] at h
        exact (Option.some.inj h).symm
    | 1 => rfl
    | 2 => rfl
    | 3 => rfl

/-- A call feeds the lanes that have data, whatever the others have. -/
theorem sse4Mshabal_stream {sc : MshabalContext} (hptr : sc.ptr < 64)
    {c : (Fin 4 → Option (List UInt8)) × ℕ} (hc : Accessible c) :
    ∃ sc', sse4Mshabal sc c.1 c.2 = some sc' ∧ sc'.ptr < 64 ∧ sc'.outSize = sc.outSize ∧
      ∀ k, Given k c →
        sc'.stream k = Blocks.feed 64 Shabal.Chain.step (sc.stream k) (given k c) := by
  obtain ⟨data, len⟩ := c
  rcases h : (data 0 <|> data 1 <|> data 2 <|> data 3) with _ | data0
  · -- No lane has data.
    refine ⟨sc, by rw [sse4Mshabal, h]; rfl, hptr, rfl, fun k hk => ?_⟩
    have hnone : data k = none := by
      simp only [Option.orElse_eq_orElse, Option.orElse_eq_or, Option.or_eq_none_iff] at h
      match k with
      | 0 => exact h.1
      | 1 => exact h.2.1
      | 2 => exact h.2.2.1
      | 3 => exact h.2.2.2
    have hkept : (sc.stream k).2.length < 64 := by
      rw [Context.stream, List.length_take, Vector.length_toList]
      omega
    have hgiven : given k (data, len) = [] := by
      rw [given]
      dsimp only
      rw [hnone, Option.getD_none, List.take_nil]
    rw [hgiven, Blocks.feed_of_lt hkept]
  · obtain ⟨⟨j, hj⟩, hsubst⟩ := exists_mem_of_orElse h
    have hlen (k : Fin 4) : len ≤ ((data k).getD data0).length := by
      rcases hk : data k with _ | d
      · exact hc j _ hj
      · exact hc k _ hk
    obtain ⟨sc', hsc', hptr', hstream⟩ := absorb_stream hptr hlen
    refine ⟨{ sc with toContext := sc' }, ?_, hptr', rfl, fun k hk => (hstream k).trans ?_⟩
    · rw [sse4Mshabal, h]
      dsimp only
      rw [hsubst, hsc']
      rfl
    · rw [given]
      rcases Nat.eq_zero_or_pos len with hlen | hlen
      · rw [hlen, List.take_zero, List.take_zero]
      · obtain ⟨d, hd⟩ := Option.isSome_iff_exists.mp (hk hlen)
        dsimp only at hd ⊢
        rw [hd, Option.getD_some, Option.getD_some]

theorem foldlM_sse4Mshabal_stream {calls : List ((Fin 4 → Option (List UInt8)) × ℕ)}
    (hcalls : ∀ c ∈ calls, Accessible c) {sc : MshabalContext} (hptr : sc.ptr < 64) :
    ∃ sc', calls.foldlM (fun sc c => sse4Mshabal sc c.1 c.2) sc = some sc' ∧ sc'.ptr < 64 ∧
      sc'.outSize = sc.outSize ∧ ∀ k, (∀ c ∈ calls, Given k c) →
        sc'.stream k =
          (calls.map (given k)).foldl (Blocks.feed 64 Shabal.Chain.step) (sc.stream k) := by
  induction calls generalizing sc with
  | nil => exact ⟨sc, rfl, hptr, rfl, fun _ _ => rfl⟩
  | cons c calls ih =>
    obtain ⟨sc₁, hsc₁, hptr₁, hsize₁, hstream₁⟩ :=
      sse4Mshabal_stream hptr (hcalls c List.mem_cons_self)
    obtain ⟨sc', hsc', hptr', hsize', hstream'⟩ :=
      ih (fun c hc => hcalls c (List.mem_cons_of_mem _ hc)) hptr₁
    refine ⟨sc', ?_, hptr', hsize'.trans hsize₁, fun k hk => ?_⟩
    · rw [List.foldlM_cons, hsc₁]
      exact hsc'
    · rw [hstream' k fun c hc => hk c (List.mem_cons_of_mem _ hc),
        hstream₁ k (hk c List.mem_cons_self), List.map_cons, List.foldl_cons]

/-- Where the output starts in the state. -/
theorem toNat_off {w : UInt32} (h : w.toNat ≤ 16) :
    (4 * (28 + (16 - w))).toNat = 4 * (28 + (16 - w.toNat)) := by
  have hle : w ≤ 16 := UInt32.le_iff_toNat_le.mpr h
  rw [UInt32.toNat_mul, UInt32.toNat_add, UInt32.toNat_sub_of_le _ _ hle]
  change 4 * ((28 + (16 - w.toNat)) % 2 ^ 32) % 2 ^ 32 = _
  omega

/-- Closing leaves the digest of the stream in every lane. -/
theorem sse4MshabalClose_eq {sc : MshabalContext} (hptr : sc.ptr < 64)
    (h : sc.outSize.toNat ≤ 512) (ub : Fin 4 → UInt32) {n : UInt32} (hn : n < 8) :
    ∃ out, sse4MshabalClose sc ub n = some out ∧
      ∀ k, (out k).flatMap Shabal.bytes = Shabal.digest sc.outSize.toNat
        (Shabal.final (sc.stream k).1 (Shabal.pad (sc.stream k).2 (topBits n.toNat (ub k)))) := by
  obtain ⟨sc', hsc', hfinal⟩ := close_final hptr
    fun k => ((ub k &&& -(0x80 >>> n)) ||| 0x80 >>> n).toUInt8
  have hw : (sc.outSize >>> 5).toNat = sc.outSize.toNat / 32 := by
    rw [UInt32.toNat_shiftRight, Nat.shiftRight_eq_div_pow]
    rfl
  have hoff := toNat_off (w := sc.outSize >>> 5) (by rw [hw]; omega)
  rw [hw] at hoff
  have hout (k : Fin 4) := output_eq sc' k (w := sc.outSize.toNat / 32) (by omega) hoff
  refine ⟨fun k => ((load sc'.state).lane k).c.toList.drop (16 - sc.outSize.toNat / 32), ?_,
    fun k => ?_⟩
  · rw [sse4MshabalClose]
    dsimp only
    refine bind_eq_of_some hsc' ?_
    rw [hw]
    refine bind_eq_of_some (hout 0) (bind_eq_of_some (hout 1) (bind_eq_of_some (hout 2)
      (bind_eq_of_some (hout 3) ?_)))
    exact congrArg some (vec4_eta fun k =>
      ((load sc'.state).lane k).c.toList.drop (16 - sc.outSize.toNat / 32))
  · dsimp only
    rw [hfinal k, Shabal.digest, Shabal.pad, lastByte_topBits hn]
    rfl

theorem hash_eq_of_feed {size : ℕ} {x : Shabal.Chain × List UInt8} {chunks : List (List UInt8)}
    (h : x = chunks.foldl (Blocks.feed 64 Shabal.Chain.step) (Shabal.start size, []))
    (bits : List Bool) :
    Shabal.digest size (Shabal.final x.1 (Shabal.pad x.2 bits)) =
      Shabal.hash size chunks.flatten bits := by
  have hnil : ([] : List UInt8).length < 64 := by decide
  rw [h, Blocks.foldl_feed (by decide) hnil, Blocks.feed, List.nil_append, Shabal.hash]

/-- The context after some calls. -/
def sse4Absorbed (outSize : UInt32) (calls : List ((Fin 4 → Option (List UInt8)) × ℕ)) :
    Option MshabalContext := do
  calls.foldlM (fun sc c => sse4Mshabal sc c.1 c.2) (← sse4MshabalInit outSize)

theorem sse4Absorbed_close {outSize : UInt32} (hsize : outSize.toNat ≤ 512)
    {calls : List ((Fin 4 → Option (List UInt8)) × ℕ)} (hcalls : ∀ c ∈ calls, Accessible c)
    (ub : Fin 4 → UInt32) {n : UInt32} (hn : n < 8) :
    ∃ out, ((sse4Absorbed outSize calls).bind fun sc => sse4MshabalClose sc ub n) = some out ∧
      ∀ k, (∀ c ∈ calls, Given k c) → (out k).flatMap Shabal.bytes =
        Shabal.hash outSize.toNat (calls.flatMap (given k)) (topBits n.toNat (ub k)) := by
  obtain ⟨sc₀, hsc₀, hptr₀, hsize₀, hstream₀⟩ := sse4MshabalInit_stream hsize
  have hlt₀ : sc₀.ptr < 64 := by rw [hptr₀]; decide
  obtain ⟨sc, hsc, hptr, hsize', hstream⟩ := foldlM_sse4Mshabal_stream hcalls hlt₀
  rw [hsize₀] at hsize'
  obtain ⟨out, hout, hdigest⟩ := sse4MshabalClose_eq hptr (by rw [hsize']; exact hsize) ub hn
  refine ⟨out, bind_eq_of_some (bind_eq_of_some hsc₀ hsc) hout, fun k hk => ?_⟩
  rw [hdigest k, hsize', List.flatMap]
  exact hash_eq_of_feed ((hstream k hk).trans (by rw [hstream₀])) _

/-! ## Eight lanes -/

theorem mshabal256Init_stream : ∃ sc, mshabal256Init = some sc ∧ sc.ptr = 0 ∧
    ∀ k, sc.stream k = (Shabal.start 256, []) :=
  init_stream _ _ _ _ _ (by decide +kernel) (by decide +kernel)

/-- What a call gives to the lane `k`. -/
def given256 (k : Fin 8) (c : (Fin 8 → List UInt8) × ℕ) : List UInt8 := (c.1 k).take c.2

theorem foldlM_mshabal256_stream {calls : List ((Fin 8 → List UInt8) × ℕ)}
    (hcalls : ∀ c ∈ calls, ∀ k, c.2 ≤ (c.1 k).length) {sc : Context 8} (hptr : sc.ptr < 64) :
    ∃ sc', calls.foldlM (fun sc c => mshabal256 sc c.1 c.2) sc = some sc' ∧ sc'.ptr < 64 ∧
      ∀ k, sc'.stream k =
        (calls.map (given256 k)).foldl (Blocks.feed 64 Shabal.Chain.step) (sc.stream k) := by
  induction calls generalizing sc with
  | nil => exact ⟨sc, rfl, hptr, fun _ => rfl⟩
  | cons c calls ih =>
    obtain ⟨sc₁, hsc₁, hptr₁, hstream₁⟩ := absorb_stream hptr (hcalls c List.mem_cons_self)
    obtain ⟨sc', hsc', hptr', hstream'⟩ :=
      ih (fun c hc => hcalls c (List.mem_cons_of_mem _ hc)) hptr₁
    refine ⟨sc', ?_, hptr', fun k => ?_⟩
    · rw [List.foldlM_cons, mshabal256, hsc₁]
      exact hsc'
    · rw [hstream' k, hstream₁ k, List.map_cons, List.foldl_cons]
      rfl

theorem mshabal256Close_eq {sc : Context 8} (hptr : sc.ptr < 64) :
    ∃ out, mshabal256Close sc = some out ∧ ∀ k, (out k).flatMap Shabal.bytes =
      Shabal.digest 256 (Shabal.final (sc.stream k).1 (Shabal.pad (sc.stream k).2 [])) := by
  obtain ⟨sc', hsc', hfinal⟩ := close_final hptr fun _ => 0x80
  have hout (k : Fin 8) : output sc' 8 288 k = some (((load sc'.state).lane k).c.toList.drop 8) :=
    output_eq sc' k (by decide) rfl
  refine ⟨fun k => ((load sc'.state).lane k).c.toList.drop 8, ?_, fun k => ?_⟩
  · rw [mshabal256Close]
    refine bind_eq_of_some hsc' (bind_eq_of_some (hout 0) (bind_eq_of_some (hout 1)
      (bind_eq_of_some (hout 2) (bind_eq_of_some (hout 3) (bind_eq_of_some (hout 4)
        (bind_eq_of_some (hout 5) (bind_eq_of_some (hout 6) (bind_eq_of_some (hout 7) ?_))))))))
    exact congrArg some (vec8_eta fun k => ((load sc'.state).lane k).c.toList.drop 8)
  · have hbyte : Shabal.lastByte [] = 0x80 := by decide
    have hdrop : 16 - 256 / 32 = 8 := by decide
    have hchain : (sc.stream k).1 = sc.chain k := rfl
    dsimp only
    rw [hfinal k, Shabal.digest, Shabal.pad, hbyte, hdrop, hchain]

/-- The context after some calls. -/
def avx2Absorbed (calls : List ((Fin 8 → List UInt8) × ℕ)) : Option (Context 8) := do
  calls.foldlM (fun sc c => mshabal256 sc c.1 c.2) (← mshabal256Init)

theorem avx2Absorbed_close {calls : List ((Fin 8 → List UInt8) × ℕ)}
    (hcalls : ∀ c ∈ calls, ∀ k, c.2 ≤ (c.1 k).length) :
    ∃ out, (avx2Absorbed calls).bind mshabal256Close = some out ∧ ∀ k,
      (out k).flatMap Shabal.bytes = Shabal.hash 256 (calls.flatMap (given256 k)) [] := by
  obtain ⟨sc₀, hsc₀, hptr₀, hstream₀⟩ := mshabal256Init_stream
  have hlt₀ : sc₀.ptr < 64 := by rw [hptr₀]; decide
  obtain ⟨sc, hsc, hptr, hstream⟩ := foldlM_mshabal256_stream hcalls hlt₀
  obtain ⟨out, hout, hdigest⟩ := mshabal256Close_eq hptr
  refine ⟨out, bind_eq_of_some (bind_eq_of_some hsc₀ hsc) hout, fun k => ?_⟩
  rw [hdigest k, List.flatMap]
  exact hash_eq_of_feed ((hstream k).trans (by rw [hstream₀])) _

/-! ## Results -/

/-- On four lanes, for any size of output and any bits after the bytes: a lane that has
    data in every call has the Shabal digest of it, and of the first `n` bits of
    its last byte, whatever the other lanes have or lack; no buffer is left. -/
theorem sse4_hash {outSize : UInt32} (hsize : outSize.toNat ≤ 512)
    {calls : List ((Fin 4 → Option (List UInt8)) × ℕ)} (hcalls : ∀ c ∈ calls, Accessible c)
    (ub : Fin 4 → UInt32) {n : UInt32} (hn : n < 8) :
    ∃ sc out, sse4Absorbed outSize calls = some sc ∧ sse4MshabalClose sc ub n = some out ∧
      ∀ k, (∀ c ∈ calls, Given k c) → (out k).flatMap Shabal.bytes =
        Shabal.hash outSize.toNat (calls.flatMap (given k)) (topBits n.toNat (ub k)) := by
  obtain ⟨out, hout, hhash⟩ := sse4Absorbed_close hsize hcalls ub hn
  obtain ⟨sc, hsc, hclose⟩ := Option.bind_eq_some_iff.mp hout
  exact ⟨sc, out, hsc, hclose, hhash⟩

/-- Three of the lanes lack data in one of two calls. -/
theorem sse4_hash_oneLane :
    let calls : List ((Fin 4 → Option (List UInt8)) × ℕ) :=
      [(fun _ => some [1, 2, 3], 2), (fun k => if k = 3 then some [4] else none, 1)]
    ∃ sc out, sse4Absorbed 224 calls = some sc ∧ sse4MshabalClose sc (fun _ => 0xF0) 3 = some out ∧
      (out 3).flatMap Shabal.bytes = Shabal.hash 224 [1, 2, 4] [true, true, true] := by
  intro calls
  have hcalls : ∀ c ∈ calls, Accessible c := by decide
  have hgiven : ∀ c ∈ calls, Given 3 c := by decide
  have hsize₀ : UInt32.toNat 224 ≤ 512 := by decide
  obtain ⟨sc, out, hsc, hout, hhash⟩ :=
    sse4_hash hsize₀ hcalls (fun _ => 0xF0) (n := 3) (by decide)
  have hbytes : calls.flatMap (given 3) = [1, 2, 4] := by decide
  have hbits : topBits (UInt32.toNat 3) 0xF0 = [true, true, true] := by decide
  have hsize : UInt32.toNat 224 = 224 := rfl
  have hhash := hhash 3 hgiven
  rw [hbytes, hbits, hsize] at hhash
  exact ⟨sc, out, hsc, hout, hhash⟩

/-- On eight lanes: every lane has the Shabal digest of its data; no buffer is left. -/
theorem avx2_hash {calls : List ((Fin 8 → List UInt8) × ℕ)}
    (hcalls : ∀ c ∈ calls, ∀ k, c.2 ≤ (c.1 k).length) :
    ∃ sc out, avx2Absorbed calls = some sc ∧ mshabal256Close sc = some out ∧ ∀ k,
      (out k).flatMap Shabal.bytes = Shabal.hash 256 (calls.flatMap (given256 k)) [] := by
  obtain ⟨out, hout, hhash⟩ := avx2Absorbed_close hcalls
  obtain ⟨sc, hsc, hclose⟩ := Option.bind_eq_some_iff.mp hout
  exact ⟨sc, out, hsc, hclose, hhash⟩

/-- Two calls, the second with more than what is read. -/
theorem avx2_hash_twoCalls :
    let calls : List ((Fin 8 → List UInt8) × ℕ) :=
      [(fun k => [UInt8.ofNat k, 1], 2), (fun _ => [2, 3], 1)]
    ∃ sc out, avx2Absorbed calls = some sc ∧ mshabal256Close sc = some out ∧
      (out 5).flatMap Shabal.bytes = Shabal.hash 256 [5, 1, 2] [] := by
  intro calls
  have hcalls : ∀ c ∈ calls, ∀ k, c.2 ≤ (c.1 k).length := by decide
  obtain ⟨sc, out, hsc, hout, hhash⟩ := avx2_hash hcalls
  have hbytes : calls.flatMap (given256 5) = [5, 1, 2] := by decide
  have hhash := hhash 5
  rw [hbytes] at hhash
  exact ⟨sc, out, hsc, hout, hhash⟩

end BurstPoolNode.Mshabal

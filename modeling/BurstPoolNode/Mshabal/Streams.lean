import BurstPoolNode.Mshabal.Lanes

/-!
# The streams of the lanes

A context holds a stream for every lane: what the lane has hashed, and the bytes
in its buffer that do not fill a block. All lanes have as many, so that one
`ptr` does for all. An update feeds every lane its data (`absorb_stream`), and
closing hashes the rest of every lane as the last block (`close_final`).
-/

namespace BurstPoolNode.Mshabal

open Simd

variable {n : ℕ}

/-- What the lane `k` has hashed, and the bytes it keeps. -/
def Context.stream (sc : Context n) (k : Fin n) : Shabal.Chain × List UInt8 :=
  (sc.chain k, (sc.buf.get k).toList.take sc.ptr)

/-! ## Data -/

theorem take_copyBytes {ptr len : ℕ} (hptr : ptr + len ≤ 64) (buf : Vector UInt8 64)
    {data : List UInt8} (hlen : len ≤ data.length) :
    (copyBytes buf ptr data len).toList.take (ptr + len) =
      buf.toList.take ptr ++ data.take len := by
  refine List.ext_getElem (by simp; omega) fun i hi hi' => ?_
  rw [List.length_take, Vector.length_toList, lt_min_iff] at hi
  simp only [copyBytes, List.getElem_take, Vector.getElem_toList, Vector.getElem_ofFn,
    Fin.getElem_fin]
  by_cases h : i < ptr
  · rw [if_neg (by omega), List.getElem_append_left (by simp; omega)]
    simp
  · have hmin : min ptr 64 = ptr := by omega
    rw [if_pos ⟨by omega, hi.1⟩, List.getElem_append_right (by simp; omega),
      List.getD_eq_getElem _ _ (by omega)]
    simp [hmin]

/-- The copied bytes follow those in front of them. -/
theorem memcpy_eq {ptr len : ℕ} (hptr : ptr + len ≤ 64) (buf : Vector (Vector UInt8 64) n)
    {data : Fin n → List UInt8} (hlen : ∀ k, len ≤ (data k).length) :
    ∃ buf', memcpy buf ptr data len = some buf' ∧
      ∀ k : Fin n, (buf'.get k).toList.take (ptr + len) =
        (buf.get k).toList.take ptr ++ (data k).take len := by
  refine ⟨_, if_pos ⟨hptr, hlen⟩, fun k => ?_⟩
  rw [Vector.get_eq_getElem, Vector.getElem_ofFn]
  exact take_copyBytes hptr _ (hlen k)

/-- The blocks that are whole go through `compress`, the rest into the buffers. -/
theorem absorbBlocks_stream (sc : Context n) {data : Fin n → List UInt8} {len : ℕ}
    (hlen : ∀ k, len ≤ (data k).length) :
    ∃ sc', absorbBlocks sc data len = some sc' ∧ sc'.ptr < 64 ∧
      ∀ k, sc'.stream k =
        Blocks.consume 64 Shabal.Chain.step (sc.chain k) ((data k).take len) := by
  have hnum : 64 * (len / 64) ≤ len := Nat.mul_div_le ..
  obtain ⟨sc₁, hsc₁, hchain⟩ : ∃ sc₁,
      (if len / 64 ≠ 0 then compress sc data (len / 64) else some sc) = some sc₁ ∧
      ∀ k, sc₁.chain k = Blocks.steps 64 Shabal.Chain.step (len / 64) (sc.chain k) (data k) := by
    by_cases h : len / 64 = 0
    · exact ⟨sc, if_neg (not_not_intro h), fun k => by rw [h, Blocks.steps]⟩
    · obtain ⟨sc₁, hsc₁, -, -, hchain⟩ := compress_chain sc fun k => hnum.trans (hlen k)
      exact ⟨sc₁, (if_pos h).trans hsc₁, hchain⟩
  have hleft (k : Fin n) : len % 64 ≤ ((data k).drop (64 * (len / 64))).length := by
    have := hlen k
    rw [List.length_drop]
    omega
  have hfits : 0 + len % 64 ≤ 64 := by omega
  obtain ⟨buf, hbuf, htake⟩ := memcpy_eq hfits sc₁.buf hleft
  refine ⟨{ sc₁ with buf, ptr := len % 64 }, ?_, Nat.mod_lt _ (by decide), fun k => ?_⟩
  · rw [absorbBlocks]
    dsimp only
    rw [hsc₁, Option.bind_eq_bind, Option.bind_some, hbuf]
    rfl
  · have hk : ((data k).take len).length = len := List.length_take_of_le (hlen k)
    have hmod : len - 64 * (len / 64) = len % 64 := (Nat.mod_eq_sub ..).symm
    have hrest := htake k
    rw [Nat.zero_add, List.take_zero, List.nil_append] at hrest
    rw [Blocks.consume, hk, List.drop_take, hmod]
    refine Prod.ext ((hchain k).trans ?_) hrest
    conv_lhs => rw [← List.take_append_drop len (data k)]
    exact Blocks.steps_append (by rw [hk]; exact hnum) ..

/-- An update feeds every lane its data. -/
theorem absorb_stream {sc : Context n} (hptr : sc.ptr < 64) {data : Fin n → List UInt8} {len : ℕ}
    (hlen : ∀ k, len ≤ (data k).length) :
    ∃ sc', absorb sc data len = some sc' ∧ sc'.ptr < 64 ∧
      ∀ k, sc'.stream k =
        Blocks.feed 64 Shabal.Chain.step (sc.stream k) ((data k).take len) := by
  have hkept (k : Fin n) : ((sc.buf.get k).toList.take sc.ptr).length = sc.ptr := by
    rw [List.length_take, Vector.length_toList]
    omega
  by_cases h₀ : sc.ptr = 0
  · obtain ⟨sc', hsc', hptr', hstream⟩ := absorbBlocks_stream sc hlen
    refine ⟨sc', by rw [absorb, if_neg (not_not_intro h₀), hsc'], hptr', fun k => ?_⟩
    rw [hstream k, Blocks.feed, Context.stream, h₀, List.take_zero, List.nil_append]
  · by_cases hfit : 64 - sc.ptr > len
    · -- The data does not fill the block.
      have hfits : sc.ptr + len ≤ 64 := by omega
      obtain ⟨buf, hbuf, htake⟩ := memcpy_eq hfits sc.buf hlen
      refine ⟨{ sc with buf, ptr := sc.ptr + len }, ?_, by dsimp only; omega, fun k => ?_⟩
      · rw [absorb, if_pos h₀]
        dsimp only
        rw [if_pos hfit, hbuf]
        rfl
      · have hshort : ((sc.buf.get k).toList.take sc.ptr ++ (data k).take len).length < 64 := by
          rw [List.length_append, hkept, List.length_take_of_le (hlen k)]
          omega
        rw [Blocks.feed, Context.stream.eq_1 sc, Blocks.consume_of_lt hshort]
        exact Prod.ext rfl (htake k)
    · -- The data fills the block, which is hashed before the rest.
      have hclen : 64 - sc.ptr ≤ len := by omega
      have hfits : sc.ptr + (64 - sc.ptr) ≤ 64 := by omega
      obtain ⟨buf, hbuf, htake⟩ := memcpy_eq hfits sc.buf fun k => hclen.trans (hlen k)
      obtain ⟨sc₁, hsc₁, -, -, hchain⟩ := compressBuf_chain { sc with buf }
      have hleft (k : Fin n) : len - (64 - sc.ptr) ≤ ((data k).drop (64 - sc.ptr)).length := by
        have := hlen k
        rw [List.length_drop]
        omega
      obtain ⟨sc', hsc', hptr', hstream⟩ := absorbBlocks_stream sc₁ hleft
      refine ⟨sc', ?_, hptr', fun k => ?_⟩
      · rw [absorb, if_pos h₀]
        dsimp only
        rw [if_neg hfit, hbuf, Option.bind_eq_bind, Option.bind_some, hsc₁]
        exact hsc'
      · have hfull : (buf.get k).toList =
            (sc.buf.get k).toList.take sc.ptr ++ (data k).take (64 - sc.ptr) := by
          rw [← htake k, List.take_of_length_le (by simp; omega)]
        have hsplit : (data k).take len =
            (data k).take (64 - sc.ptr) ++ ((data k).drop (64 - sc.ptr)).take
              (len - (64 - sc.ptr)) := by
          rw [← List.take_add, Nat.add_sub_cancel' hclen]
        rw [hstream k, hchain k, Blocks.feed, Context.stream, hsplit, ← List.append_assoc, ← hfull,
          Blocks.consume_block (by decide) (by simp)]
        rfl

end BurstPoolNode.Mshabal

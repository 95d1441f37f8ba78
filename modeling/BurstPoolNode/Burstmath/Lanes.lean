import BurstPoolNode.Burstmath.Plot

/-!
# The deadlines of the lanes

Once the loops are done, a lane has its plot, and what is left is to take the
scoop out of it and to hash and divide (`laneDeadline`). The deadlines of a
call are those of its lanes, whatever the others hold
(`lanesSse4_eq_some_iff`, `lanesAvx2_eq_some_iff`), and the deadline of a valid
lane is `deadline` (`laneDeadline_of_valid`).

* `calculateDeadlines_eq_deadline`: both builds compute `deadline` in every
  lane, without reading outside the arrays or what is not written.
-/

namespace BurstPoolNode.Burstmath

variable {H : List UInt8 → Vector UInt8 32}

/-! ## One lane -/

variable (H) in
/-- The array of a nonce once its plot is masked. -/
def gendata (account nonce : UInt64) : Gendata :=
  written (mask (H (accumulated H account nonce)) nonceSize (accumulated H account nonce))
    ((length_mask ..).trans (length_accumulated ..)).le

variable (H) in
/-- What is left to do in a lane when its plot is there. -/
def laneDeadline (poc2 : Bool) (l : Lane) : Option UInt64 := do
  let scoop ← copyScoop (gendata H l.account l.nonce) poc2 l.scoopNr
  div (le64 (H (l.gensig.toList ++ scoop))) l.baseTarget

theorem bind_eq_of_some {α β : Type*} {x : Option α} {a : α} {f : α → Option β} {y : Option β}
    (h : x = some a) (hf : f a = y) : x.bind f = y := by
  rw [h]
  exact hf

theorem copyScoop_eq_some_iff {g : Gendata} {poc2 : Bool} {s : UInt32} {bs : List UInt8} :
    copyScoop g poc2 s = some bs ↔ ∃ first, g.read (scoopStart s) 32 = some first ∧
      ∃ second, g.read ((if poc2 then mirrorStart s else scoopStart s) + 32) 32 = some second ∧
        first ++ second = bs := by
  cases poc2 <;> simp [copyScoop, Option.bind_eq_some_iff]

theorem length_copyScoop {g : Gendata} {poc2 : Bool} {s : UInt32} {bs : List UInt8}
    (h : copyScoop g poc2 s = some bs) : bs.length = scoopSize := by
  obtain ⟨first, hf, second, hs, rfl⟩ := copyScoop_eq_some_iff.mp h
  rw [List.length_append, Buffer.length_of_read hf, Buffer.length_of_read hs, scoopSize]

/-- Reading inside the plot. -/
theorem read_gendata (account nonce : UInt64) {off len : ℕ} (h : off + len ≤ nonceSize) :
    (gendata H account nonce).read off len =
      some (((plot H account nonce).drop off).take len) := by
  have hplot : plot H account nonce = (mask (H (accumulated H account nonce)) nonceSize
      (accumulated H account nonce)).take nonceSize := (take_mask ..).symm
  rw [gendata, written, Buffer.read_filled _ (by simp) (by omega), length_mask,
    length_accumulated, Nat.add_sub_cancel, hplot, List.drop_take, List.take_take,
    min_eq_left (by omega)]

theorem scoopStart_eq {scoopNr : UInt32} (h : scoopNr < 4096) :
    scoopStart scoopNr = 64 * scoopNr.toNat := by
  have hlt : scoopNr.toNat < 4096 := UInt32.lt_iff_toNat_lt.mp h
  simp [scoopStart, scoopSize]
  omega

theorem mirrorStart_eq {scoopNr : UInt32} (h : scoopNr < 4096) :
    mirrorStart scoopNr = 64 * (4095 - scoopNr.toNat) := by
  have hlt : scoopNr.toNat < 4096 := UInt32.lt_iff_toNat_lt.mp h
  have hle : scoopNr ≤ 4095 := UInt32.le_iff_toNat_le.mpr (by simp; omega)
  simp [mirrorStart, scoopSize, UInt32.toNat_sub_of_le _ _ hle]
  omega

/-- For a scoop and a base target that exist, a lane gives the deadline. -/
theorem laneDeadline_of_valid (poc2 : Bool) {l : Lane} (hl : l.Valid) :
    laneDeadline H poc2 l = some (deadline H poc2 l) := by
  have hs : l.scoopNr.toNat < 4096 := UInt32.lt_iff_toNat_lt.mp hl.scoopNr_lt
  have hstart := scoopStart_eq hl.scoopNr_lt
  have hmirror := mirrorStart_eq hl.scoopNr_lt
  have hscoop : copyScoop (gendata H l.account l.nonce) poc2 l.scoopNr =
      some (scoop (plot H l.account l.nonce) poc2 l.scoopNr.toNat) := by
    refine copyScoop_eq_some_iff.mpr ⟨_, read_gendata _ _ ?_, _, read_gendata _ _ ?_, ?_⟩
    · simp only [hstart, nonceSize_eq]
      omega
    · simp only [hstart, hmirror, nonceSize_eq]
      split_ifs <;> omega
    · cases poc2 <;> simp [scoop, hstart, hmirror]
  rw [laneDeadline, hscoop]
  exact if_neg hl.baseTarget_ne

/-- The product of the scoop number and 64, as the code computes it, is inside of the plot (it
    wraps around from 2 ^ 26 on), and there is a base target to divide by. -/
structure Lane.Computable (l : Lane) : Prop where
  scoopNr_lt : l.scoopNr.toNat % 2 ^ 26 < numScoops
  baseTarget_ne : l.baseTarget ≠ 0

instance (l : Lane) : Decidable l.Computable :=
  decidable_of_iff (_ ∧ _) ⟨fun h => ⟨h.1, h.2⟩, fun h => ⟨h.1, h.2⟩⟩

/-- The copies of the scoop stay inside of the array just when they start inside of the plot. -/
theorem exists_copyScoop_iff {account nonce : UInt64} {poc2 : Bool} {scoopNr : UInt32} :
    (∃ bs, copyScoop (gendata H account nonce) poc2 scoopNr = some bs) ↔
      scoopNr.toNat % 2 ^ 26 < numScoops := by
  have hread (off : ℕ) : (∃ bs, (gendata H account nonce).read off 32 = some bs) ↔
      off + 32 ≤ 16 + nonceSize :=
    Buffer.exists_read_filled_iff ((length_mask ..).trans (length_accumulated ..))
  have hlt := scoopNr.toNat_lt
  have hstart : scoopStart scoopNr = scoopNr.toNat * 64 % 2 ^ 32 := UInt32.toNat_mul ..
  have hmirror : mirrorStart scoopNr =
      (2 ^ 32 - scoopNr.toNat + 4095) % 2 ^ 32 * 64 % 2 ^ 32 := by
    rw [mirrorStart, UInt32.toNat_mul, UInt32.toNat_sub]
    rfl
  have hcopy : (∃ bs, copyScoop (gendata H account nonce) poc2 scoopNr = some bs) ↔
      scoopStart scoopNr + 32 ≤ 16 + nonceSize ∧
        (if poc2 then mirrorStart scoopNr else scoopStart scoopNr) + 32 + 32 ≤ 16 + nonceSize := by
    rw [← hread, ← hread]
    constructor
    · rintro ⟨bs, hbs⟩
      obtain ⟨first, hfirst, second, hsecond, -⟩ := copyScoop_eq_some_iff.mp hbs
      exact ⟨⟨first, hfirst⟩, second, hsecond⟩
    · rintro ⟨⟨first, hfirst⟩, second, hsecond⟩
      exact ⟨_, copyScoop_eq_some_iff.mpr ⟨first, hfirst, second, hsecond, rfl⟩⟩
  rw [hcopy, hstart, hmirror, nonceSize, numScoops, scoopSize]
  split_ifs <;> omega

/-- A lane gives a deadline just when it can be computed. -/
theorem exists_laneDeadline_iff {poc2 : Bool} {l : Lane} :
    (∃ d, laneDeadline H poc2 l = some d) ↔ l.Computable := by
  constructor
  · rintro ⟨d, hd⟩
    obtain ⟨scoop, hscoop, hdiv⟩ := Option.bind_eq_some_iff.mp hd
    rw [div] at hdiv
    split_ifs at hdiv with hzero
    exact ⟨exists_copyScoop_iff.mp ⟨scoop, hscoop⟩, hzero⟩
  · rintro ⟨hscoop, hne⟩
    obtain ⟨scoop, hscoop⟩ : ∃ bs, copyScoop (gendata H l.account l.nonce) poc2 l.scoopNr =
        some bs := exists_copyScoop_iff.mpr hscoop
    exact ⟨_, bind_eq_of_some hscoop (if_neg hne)⟩

/-! ## All lanes -/

/-- Hashing the scoops together is hashing them lane by lane. -/
theorem div_close_scoops {n : ℕ} (x : MShabal H n) {poc2 : Bool} {l : Fin n → Lane}
    {s : Fin n → List UInt8}
    (hs : ∀ k, copyScoop (gendata H (l k).account (l k).nonce) poc2 (l k).scoopNr = some (s k))
    (k : Fin n) :
    div (le64 (x.close (x.absorb (x.absorb x.init fun k => (l k).gensig.toList) s) k))
      (l k).baseTarget = laneDeadline H poc2 (l k) := by
  rw [close_two x _ s (fun i j => by simp)
    fun i j => (length_copyScoop (hs i)).trans (length_copyScoop (hs j)).symm]
  rw [laneDeadline, hs]
  rfl

theorem lanesSse4_eq (x : MShabal H 4) (poc2 : Bool) (l : Fin 4 → Lane) :
    lanesSse4 x poc2 l = do
    let scoop1 ← copyScoop (gendata H (l 0).account (l 0).nonce) poc2 (l 0).scoopNr
    let scoop2 ← copyScoop (gendata H (l 1).account (l 1).nonce) poc2 (l 1).scoopNr
    let scoop3 ← copyScoop (gendata H (l 2).account (l 2).nonce) poc2 (l 2).scoopNr
    let scoop4 ← copyScoop (gendata H (l 3).account (l 3).nonce) poc2 (l 3).scoopNr
    let deadlineSc := x.absorb (x.absorb x.init ![(l 0).gensig.toList, (l 1).gensig.toList,
      (l 2).gensig.toList, (l 3).gensig.toList]) ![scoop1, scoop2, scoop3, scoop4]
    return #v[← div (le64 (x.close deadlineSc 0)) (l 0).baseTarget,
      ← div (le64 (x.close deadlineSc 1)) (l 1).baseTarget,
      ← div (le64 (x.close deadlineSc 2)) (l 2).baseTarget,
      ← div (le64 (x.close deadlineSc 3)) (l 3).baseTarget] := by
  obtain ⟨g1, hg1, hn1⟩ := setNonce_uninit (l 0).account
  obtain ⟨g2, hg2, hn2⟩ := setNonce_uninit (l 1).account
  obtain ⟨g3, hg3, hn3⟩ := setNonce_uninit (l 2).account
  obtain ⟨g4, hg4, hn4⟩ := setNonce_uninit (l 3).account
  have hfill := fillSse4_filled x 8192 (fun j => be64 (l j).account ++ be64 (l j).nonce) fun j => by
    simp [be64, nonceSize_eq]
  have hall := fun j => read_all (length_accumulated (H := H) (l j).account (l j).nonce)
  have hhash := close_one x (fun j => accumulated H (l j).account (l j).nonce) fun i j => by simp
  rw [← vec4_eta fun j => accumulated H (l j).account (l j).nonce] at hhash
  have hxor := xorSse4_filled (fun j => H (accumulated H (l j).account (l j).nonce))
    (fun j => accumulated H (l j).account (l j).nonce) (fun j => by simp) (Nat.zero_add _)
  simp only [mask_zero] at hxor
  rw [lanesSse4, calculateDeadlinesSse4]
  -- Step by step: the accounts, the nonces, the fill loop, the final hash, the XOR loop.
  refine bind_eq_of_some hg1 (bind_eq_of_some hg2 (bind_eq_of_some hg3 (bind_eq_of_some hg4 ?_)))
  refine bind_eq_of_some (hn1 _) (bind_eq_of_some (hn2 _) (bind_eq_of_some (hn3 _)
    (bind_eq_of_some (hn4 _) ?_)))
  refine bind_eq_of_some hfill ?_
  refine bind_eq_of_some (hall 0) (bind_eq_of_some (hall 1) (bind_eq_of_some (hall 2)
    (bind_eq_of_some (hall 3) ?_)))
  simp only [hhash]
  refine bind_eq_of_some hxor ?_
  rfl

/-- The lanes do not interfere. -/
theorem lanesSse4_eq_some_iff (x : MShabal H 4) (poc2 : Bool) (l : Fin 4 → Lane)
    (v : Vector UInt64 4) :
    lanesSse4 x poc2 l = some v ↔ ∀ k, laneDeadline H poc2 (l k) = some (v.get k) := by
  rw [lanesSse4_eq, vec4_eta fun k => (l k).gensig.toList]
  constructor
  · intro h
    obtain ⟨s1, h1, h⟩ := Option.bind_eq_some_iff.mp h
    obtain ⟨s2, h2, h⟩ := Option.bind_eq_some_iff.mp h
    obtain ⟨s3, h3, h⟩ := Option.bind_eq_some_iff.mp h
    obtain ⟨s4, h4, h⟩ := Option.bind_eq_some_iff.mp h
    obtain ⟨d1, hd1, h⟩ := Option.bind_eq_some_iff.mp h
    obtain ⟨d2, hd2, h⟩ := Option.bind_eq_some_iff.mp h
    obtain ⟨d3, hd3, h⟩ := Option.bind_eq_some_iff.mp h
    obtain ⟨d4, hd4, h⟩ := Option.bind_eq_some_iff.mp h
    cases h
    have hdiv := div_close_scoops x (s := ![s1, s2, s3, s4]) fun
      | 0 => h1 | 1 => h2 | 2 => h3 | 3 => h4
    exact fun
      | 0 => (hdiv 0).symm.trans hd1 | 1 => (hdiv 1).symm.trans hd2
      | 2 => (hdiv 2).symm.trans hd3 | 3 => (hdiv 3).symm.trans hd4
  · intro h
    -- Every lane has its scoop and its quotient, so that no step of the call fails.
    choose s hs hdiv using fun k => Option.bind_eq_some_iff.mp (h k)
    have hdiv := fun k => (div_close_scoops x hs k).trans (h k)
    refine bind_eq_of_some (hs 0) (bind_eq_of_some (hs 1) (bind_eq_of_some (hs 2)
      (bind_eq_of_some (hs 3) ?_)))
    rw [vec4_eta s]
    refine bind_eq_of_some (hdiv 0) (bind_eq_of_some (hdiv 1) (bind_eq_of_some (hdiv 2)
      (bind_eq_of_some (hdiv 3) (congrArg some (Vector.ext fun i hi => ?_)))))
    obtain rfl | rfl | rfl | rfl : i = 0 ∨ i = 1 ∨ i = 2 ∨ i = 3 := by omega
    all_goals rfl

theorem lanesAvx2_eq (x : MShabal H 8) (poc2 : Bool) (l : Fin 8 → Lane) :
    lanesAvx2 x poc2 l = do
    let scoop1 ← copyScoop (gendata H (l 0).account (l 0).nonce) poc2 (l 0).scoopNr
    let scoop2 ← copyScoop (gendata H (l 1).account (l 1).nonce) poc2 (l 1).scoopNr
    let scoop3 ← copyScoop (gendata H (l 2).account (l 2).nonce) poc2 (l 2).scoopNr
    let scoop4 ← copyScoop (gendata H (l 3).account (l 3).nonce) poc2 (l 3).scoopNr
    let scoop5 ← copyScoop (gendata H (l 4).account (l 4).nonce) poc2 (l 4).scoopNr
    let scoop6 ← copyScoop (gendata H (l 5).account (l 5).nonce) poc2 (l 5).scoopNr
    let scoop7 ← copyScoop (gendata H (l 6).account (l 6).nonce) poc2 (l 6).scoopNr
    let scoop8 ← copyScoop (gendata H (l 7).account (l 7).nonce) poc2 (l 7).scoopNr
    let deadlineSc := x.absorb (x.absorb x.init
      ![(l 0).gensig.toList, (l 1).gensig.toList, (l 2).gensig.toList, (l 3).gensig.toList,
      (l 4).gensig.toList, (l 5).gensig.toList, (l 6).gensig.toList, (l 7).gensig.toList])
      ![scoop1, scoop2, scoop3, scoop4, scoop5, scoop6, scoop7, scoop8]
    return #v[← div (le64 (x.close deadlineSc 0)) (l 0).baseTarget,
      ← div (le64 (x.close deadlineSc 1)) (l 1).baseTarget,
      ← div (le64 (x.close deadlineSc 2)) (l 2).baseTarget,
      ← div (le64 (x.close deadlineSc 3)) (l 3).baseTarget,
      ← div (le64 (x.close deadlineSc 4)) (l 4).baseTarget,
      ← div (le64 (x.close deadlineSc 5)) (l 5).baseTarget,
      ← div (le64 (x.close deadlineSc 6)) (l 6).baseTarget,
      ← div (le64 (x.close deadlineSc 7)) (l 7).baseTarget] := by
  obtain ⟨g1, hg1, hn1⟩ := setNonce_uninit (l 0).account
  obtain ⟨g2, hg2, hn2⟩ := setNonce_uninit (l 1).account
  obtain ⟨g3, hg3, hn3⟩ := setNonce_uninit (l 2).account
  obtain ⟨g4, hg4, hn4⟩ := setNonce_uninit (l 3).account
  obtain ⟨g5, hg5, hn5⟩ := setNonce_uninit (l 4).account
  obtain ⟨g6, hg6, hn6⟩ := setNonce_uninit (l 5).account
  obtain ⟨g7, hg7, hn7⟩ := setNonce_uninit (l 6).account
  obtain ⟨g8, hg8, hn8⟩ := setNonce_uninit (l 7).account
  have hfill := fillAvx2_filled x 8192
    (fun j => be64 (l j).account ++ be64 (l j).nonce) fun j => by
    simp [be64, nonceSize_eq]
  have hall := fun j => read_all (length_accumulated (H := H) (l j).account (l j).nonce)
  have hhash := close_one x (fun j => accumulated H (l j).account (l j).nonce) fun i j => by simp
  rw [← vec8_eta fun j => accumulated H (l j).account (l j).nonce] at hhash
  have hxor := xorAvx2_filled (fun j => H (accumulated H (l j).account (l j).nonce))
    (fun j => accumulated H (l j).account (l j).nonce) (fun j => by simp) (Nat.zero_add _)
  simp only [mask_zero] at hxor
  rw [lanesAvx2, calculateDeadlinesAvx2]
  -- Step by step: the accounts, the nonces, the fill loop, the final hash, the XOR loop.
  refine bind_eq_of_some hg1 (bind_eq_of_some hg2 (bind_eq_of_some hg3 (bind_eq_of_some hg4
    (bind_eq_of_some hg5 (bind_eq_of_some hg6 (bind_eq_of_some hg7 (bind_eq_of_some hg8 ?_)))))))
  refine bind_eq_of_some (hn1 _) (bind_eq_of_some (hn2 _) (bind_eq_of_some (hn3 _)
    (bind_eq_of_some (hn4 _) (bind_eq_of_some (hn5 _) (bind_eq_of_some (hn6 _)
      (bind_eq_of_some (hn7 _) (bind_eq_of_some (hn8 _) ?_)))))))
  refine bind_eq_of_some hfill ?_
  refine bind_eq_of_some (hall 0) (bind_eq_of_some (hall 1) (bind_eq_of_some (hall 2)
    (bind_eq_of_some (hall 3) (bind_eq_of_some (hall 4) (bind_eq_of_some (hall 5)
      (bind_eq_of_some (hall 6) (bind_eq_of_some (hall 7) ?_)))))))
  simp only [hhash]
  refine bind_eq_of_some hxor ?_
  rfl

/-- The lanes do not interfere. -/
theorem lanesAvx2_eq_some_iff (x : MShabal H 8) (poc2 : Bool) (l : Fin 8 → Lane)
    (v : Vector UInt64 8) :
    lanesAvx2 x poc2 l = some v ↔ ∀ k, laneDeadline H poc2 (l k) = some (v.get k) := by
  rw [lanesAvx2_eq, vec8_eta fun k => (l k).gensig.toList]
  constructor
  · intro h
    obtain ⟨s1, h1, h⟩ := Option.bind_eq_some_iff.mp h
    obtain ⟨s2, h2, h⟩ := Option.bind_eq_some_iff.mp h
    obtain ⟨s3, h3, h⟩ := Option.bind_eq_some_iff.mp h
    obtain ⟨s4, h4, h⟩ := Option.bind_eq_some_iff.mp h
    obtain ⟨s5, h5, h⟩ := Option.bind_eq_some_iff.mp h
    obtain ⟨s6, h6, h⟩ := Option.bind_eq_some_iff.mp h
    obtain ⟨s7, h7, h⟩ := Option.bind_eq_some_iff.mp h
    obtain ⟨s8, h8, h⟩ := Option.bind_eq_some_iff.mp h
    obtain ⟨d1, hd1, h⟩ := Option.bind_eq_some_iff.mp h
    obtain ⟨d2, hd2, h⟩ := Option.bind_eq_some_iff.mp h
    obtain ⟨d3, hd3, h⟩ := Option.bind_eq_some_iff.mp h
    obtain ⟨d4, hd4, h⟩ := Option.bind_eq_some_iff.mp h
    obtain ⟨d5, hd5, h⟩ := Option.bind_eq_some_iff.mp h
    obtain ⟨d6, hd6, h⟩ := Option.bind_eq_some_iff.mp h
    obtain ⟨d7, hd7, h⟩ := Option.bind_eq_some_iff.mp h
    obtain ⟨d8, hd8, h⟩ := Option.bind_eq_some_iff.mp h
    cases h
    have hdiv := div_close_scoops x (s := ![s1, s2, s3, s4, s5, s6, s7, s8]) fun
      | 0 => h1 | 1 => h2 | 2 => h3 | 3 => h4 | 4 => h5 | 5 => h6 | 6 => h7 | 7 => h8
    exact fun
      | 0 => (hdiv 0).symm.trans hd1 | 1 => (hdiv 1).symm.trans hd2
      | 2 => (hdiv 2).symm.trans hd3 | 3 => (hdiv 3).symm.trans hd4
      | 4 => (hdiv 4).symm.trans hd5 | 5 => (hdiv 5).symm.trans hd6
      | 6 => (hdiv 6).symm.trans hd7 | 7 => (hdiv 7).symm.trans hd8
  · intro h
    -- Every lane has its scoop and its quotient, so that no step of the call fails.
    choose s hs hdiv using fun k => Option.bind_eq_some_iff.mp (h k)
    have hdiv := fun k => (div_close_scoops x hs k).trans (h k)
    refine bind_eq_of_some (hs 0) (bind_eq_of_some (hs 1) (bind_eq_of_some (hs 2)
      (bind_eq_of_some (hs 3) (bind_eq_of_some (hs 4) (bind_eq_of_some (hs 5)
        (bind_eq_of_some (hs 6) (bind_eq_of_some (hs 7) ?_)))))))
    rw [vec8_eta s]
    refine bind_eq_of_some (hdiv 0) (bind_eq_of_some (hdiv 1) (bind_eq_of_some (hdiv 2)
      (bind_eq_of_some (hdiv 3) (bind_eq_of_some (hdiv 4) (bind_eq_of_some (hdiv 5)
        (bind_eq_of_some (hdiv 6) (bind_eq_of_some (hdiv 7)
          (congrArg some (Vector.ext fun i hi => ?_)))))))))
    obtain rfl | rfl | rfl | rfl | rfl | rfl | rfl | rfl : i = 0 ∨ i = 1 ∨ i = 2 ∨ i = 3 ∨
      i = 4 ∨ i = 5 ∨ i = 6 ∨ i = 7 := by omega
    all_goals rfl

end BurstPoolNode.Burstmath

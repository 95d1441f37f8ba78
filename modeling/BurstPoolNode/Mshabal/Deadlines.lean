import BurstPoolNode.Mshabal.Digests

/-!
# Deadlines on Shabal

The routines of the two files are `MShabal`s for the Shabal digests of 256 bits
(`sse4`, `avx2`), so that what holds of the deadlines for any such routines
holds of them.

* `deadlines_eq`: with these routines, both builds find the deadline of every
  lane that the plot made with Shabal has, and so the same.
-/

namespace BurstPoolNode.Mshabal

open Burstmath

theorem length_hash256 (msg : List UInt8) : (Shabal.hash 256 msg []).length = 32 :=
  Shabal.length_hash (show 256 ≤ 512 by decide) msg []

/-- The digest of 256 bits. -/
def shabal256 (msg : List UInt8) : Vector UInt8 32 :=
  ⟨(Shabal.hash 256 msg []).toArray, List.size_toArray.trans (length_hash256 msg)⟩

theorem toList_shabal256 (msg : List UInt8) :
    (shabal256 msg).toList = Shabal.hash 256 msg [] := by
  rw [shabal256, Vector.toList_mk, List.toList_toArray]

theorem toList_ofFn_getD {bs : List UInt8} {n : ℕ} (h : bs.length = n) :
    (Vector.ofFn fun i : Fin n => bs.getD i 0).toList = bs := by
  refine List.ext_getElem (by rw [h, Vector.length_toList]) fun i hi hi' => ?_
  rw [Vector.getElem_toList, Vector.getElem_ofFn, List.getD_eq_getElem _ _ hi']

/-- The bytes that words are written as, for a digest of 256 bits. -/
def digestOf (words : List UInt32) : Vector UInt8 32 :=
  Vector.ofFn fun i => (words.flatMap Shabal.bytes).getD i 0

theorem digestOf_eq {words : List UInt32} {msg : List UInt8}
    (h : words.flatMap Shabal.bytes = Shabal.hash 256 msg []) : digestOf words = shabal256 msg := by
  rw [digestOf, h, ← Vector.toList_inj, toList_shabal256]
  exact toList_ofFn_getD (length_hash256 msg)

theorem foldl_bind {σ β : Type*} (f : σ → β → Option σ) (x : Option σ) (l : List β) :
    l.foldl (fun x c => x.bind fun s => f s c) x = x.bind fun s => l.foldlM f s := by
  induction l generalizing x with
  | nil => cases x <;> rfl
  | cons c l ih => cases x <;> simp [ih]

attribute [local instance] neZero_four neZero_eight

/-- The call on all lanes of chunks of the same length. -/
def sse4Call (c : Fin 4 → List UInt8) : (Fin 4 → Option (List UInt8)) × ℕ :=
  (fun k => some (c k), (c 0).length)

def sse4Close (x : Option MshabalContext) (k : Fin 4) : Vector UInt8 32 :=
  match x.bind fun sc => sse4MshabalClose sc (fun _ => 0) 0 with
  | none => Vector.replicate 32 0
  | some out => digestOf (out k)

theorem sse4Close_absorb (chunks : List (Fin 4 → List UInt8))
    (h : ∀ c ∈ chunks, ∀ j k, (c j).length = (c k).length) (k : Fin 4) :
    sse4Close (chunks.foldl (fun x c => x.bind fun sc =>
      sse4Mshabal sc (sse4Call c).1 (sse4Call c).2) (sse4MshabalInit 256)) k =
      shabal256 (chunks.flatMap fun c => c k) := by
  have hcalls : ∀ c ∈ chunks.map sse4Call, Accessible c := by
    intro c hc k data hdata
    obtain ⟨d, hd, rfl⟩ := List.mem_map.mp hc
    cases hdata
    exact (h d hd 0 k).le
  have hsize : UInt32.toNat 256 ≤ 512 := by decide
  obtain ⟨out, hout, hhash⟩ := sse4Absorbed_close hsize hcalls (fun _ => 0) (n := 0) (by decide)
  have hgiven : (chunks.map sse4Call).flatMap (given k) = chunks.flatMap fun c => c k := by
    rw [List.flatMap_map]
    refine List.flatMap_congr fun c hc => ?_
    exact List.take_of_length_le (h c hc 0 k).ge
  have habsorbed : chunks.foldl (fun x c => x.bind fun sc =>
      sse4Mshabal sc (sse4Call c).1 (sse4Call c).2) (sse4MshabalInit 256) =
      sse4Absorbed 256 (chunks.map sse4Call) := by
    rw [foldl_bind, sse4Absorbed]
    simp only [List.foldlM_map]
    rfl
  rw [sse4Close, habsorbed, hout]
  refine digestOf_eq ((hhash k fun c hc _ => ?_).trans ?_)
  · obtain ⟨d, -, rfl⟩ := List.mem_map.mp hc
    rfl
  · rw [hgiven]
    rfl

/-- The routines of `mshabal_sse4.c`. -/
def sse4 : MShabal shabal256 4 where
  Context := Option MshabalContext
  init := sse4MshabalInit 256
  absorb x c := x.bind fun sc => sse4Mshabal sc (sse4Call c).1 (sse4Call c).2
  close := sse4Close
  close_absorb := sse4Close_absorb

/-- The call on all lanes of chunks of the same length. -/
def avx2Call (c : Fin 8 → List UInt8) : (Fin 8 → List UInt8) × ℕ := (c, (c 0).length)

def avx2Close (x : Option (Context 8)) (k : Fin 8) : Vector UInt8 32 :=
  match x.bind mshabal256Close with
  | none => Vector.replicate 32 0
  | some out => digestOf (out k)

theorem avx2Close_absorb (chunks : List (Fin 8 → List UInt8))
    (h : ∀ c ∈ chunks, ∀ j k, (c j).length = (c k).length) (k : Fin 8) :
    avx2Close (chunks.foldl (fun x c => x.bind fun sc =>
      mshabal256 sc (avx2Call c).1 (avx2Call c).2) mshabal256Init) k =
      shabal256 (chunks.flatMap fun c => c k) := by
  have hcalls : ∀ c ∈ chunks.map avx2Call, ∀ k, c.2 ≤ (c.1 k).length := by
    intro c hc k
    obtain ⟨d, hd, rfl⟩ := List.mem_map.mp hc
    exact (h d hd 0 k).le
  obtain ⟨out, hout, hhash⟩ := avx2Absorbed_close hcalls
  have hgiven : (chunks.map avx2Call).flatMap (given256 k) = chunks.flatMap fun c => c k := by
    rw [List.flatMap_map]
    refine List.flatMap_congr fun c hc => ?_
    exact List.take_of_length_le (h c hc 0 k).ge
  have habsorbed : chunks.foldl (fun x c => x.bind fun sc =>
      mshabal256 sc (avx2Call c).1 (avx2Call c).2) mshabal256Init =
      avx2Absorbed (chunks.map avx2Call) := by
    rw [foldl_bind, avx2Absorbed]
    simp only [List.foldlM_map]
    rfl
  rw [avx2Close, habsorbed, hout]
  exact digestOf_eq ((hhash k).trans (by rw [hgiven]))

/-- The routines of `mshabal256_avx2.c`. -/
def avx2 : MShabal shabal256 8 where
  Context := Option (Context 8)
  init := mshabal256Init
  absorb x c := x.bind fun sc => mshabal256 sc (avx2Call c).1 (avx2Call c).2
  close := avx2Close
  close_absorb := avx2Close_absorb

/-- With the routines of the two files, both builds find in every lane the deadline of the
    plot that is made with Shabal, when all lanes have a scoop and a base target. -/
theorem deadlines_eq (poc2 : Bool) {l₄ : Fin 4 → Lane} {l₈ : Fin 8 → Lane}
    (h₄ : ∀ k, (l₄ k).Valid) (h₈ : ∀ k, (l₈ k).Valid) :
    lanesSse4 sse4 poc2 l₄ = some (Vector.ofFn fun k => deadline shabal256 poc2 (l₄ k)) ∧
      lanesAvx2 avx2 poc2 l₈ = some (Vector.ofFn fun k => deadline shabal256 poc2 (l₈ k)) := by
  refine ⟨(lanesSse4_eq_some_iff ..).mpr fun k => ?_, (lanesAvx2_eq_some_iff ..).mpr fun k => ?_⟩
  · rw [laneDeadline_of_valid poc2 (h₄ k)]
    exact congrArg some
      (Vector.getElem_ofFn (f := fun k => deadline shabal256 poc2 (l₄ k)) k.isLt).symm
  · rw [laneDeadline_of_valid poc2 (h₈ k)]
    exact congrArg some
      (Vector.getElem_ofFn (f := fun k => deadline shabal256 poc2 (l₈ k)) k.isLt).symm

/-- The same lane in all lanes of both builds. -/
theorem deadlines_eq_oneLane :
    let l : Lane := ⟨1, 2, Vector.replicate 32 0, 7, 2⟩
    ∃ v w, lanesSse4 sse4 true (fun _ => l) = some v ∧ lanesAvx2 avx2 true (fun _ => l) = some w ∧
      v.get 3 = deadline shabal256 true l ∧ w.get 3 = v.get 3 := by
  intro l
  have hl : l.Valid := ⟨by decide, by decide⟩
  have hl₄ : ∀ _ : Fin 4, l.Valid := fun _ => hl
  have hl₈ : ∀ _ : Fin 8, l.Valid := fun _ => hl
  obtain ⟨h₄, h₈⟩ := deadlines_eq true hl₄ hl₈
  have hget {n : ℕ} (k : Fin n) :
      (Vector.ofFn fun _ : Fin n => deadline shabal256 true l).get k = deadline shabal256 true l :=
    Vector.getElem_ofFn k.isLt
  exact ⟨_, _, h₄, h₈, hget 3, (hget 3).trans (hget 3).symm⟩

end BurstPoolNode.Mshabal

import BurstPoolNode.Burstmath.Poc
import BurstPoolNode.DeadlineRequestHandler

/-!
# Batches and single requests

The deadlines of a batch, lane by lane (`deadlines_eq_some_iff`), compared with
those of its requests alone (`SameAlone`).

One version of the proof of capacity is used for the whole batch, that of the
height of the first request:

* `sameAlone_iff`: the deadline of a request in a batch is the one it has alone
  if and only if the first request is on the same side of the first PoC2 block,
  and all requests have a base target to divide by (or this one has none, in
  which case there is no deadline either way).
-/

namespace BurstPoolNode.DeadlineRequestHandler

open Burstmath

variable {H : List UInt8 → Vector UInt8 32}

/-- What the deadline of a request is computed from. -/
def lane (creq : CalcDeadlineReq) : Lane :=
  ⟨creq.accountId, creq.nonce, creq.gensig, creq.scoopNr, creq.baseTarget⟩

/-- The deadlines of a batch are those of its lanes, for the height of the first. -/
theorem deadlines_eq_some_iff (b : Build) (x : MShabal H b.parallelValidations)
    (poc2StartHeight : UInt64) (creqs : Vector CalcDeadlineReq b.parallelValidations)
    (v : Vector UInt64 b.parallelValidations) :
    deadlines b x poc2StartHeight creqs = some v ↔
      ∀ k, laneDeadline H (decide (poc2StartHeight ≤ (creqs.get 0).height)) (lane (creqs.get k)) =
        some (v.get k) := by
  cases b with
  | avx2 => exact lanesAvx2_eq_some_iff x _ (fun k => lane (creqs.get k)) v
  | sse4 => exact lanesSse4_eq_some_iff x _ (fun k => lane (creqs.get k)) v

/-- The deadline of the `i`-th request of a batch is the one it has as the first of a batch
    of its own, whatever fills up that batch, for all routines and the hash they compute.
    (There may be none, if the computation fails.) -/
def SameAlone (b : Build) (poc2StartHeight : UInt64)
    (creqs : Vector CalcDeadlineReq b.parallelValidations) (i : Fin b.parallelValidations) : Prop :=
  ∀ (H : List UInt8 → Vector UInt8 32) (x : MShabal H b.parallelValidations)
    (alone : Vector CalcDeadlineReq b.parallelValidations), alone.get 0 = creqs.get i →
    (∀ k, k ≠ 0 → (lane (alone.get k)).Valid) →
      (deadlines b x poc2StartHeight creqs).map (fun v => v.get i) =
        (deadlines b x poc2StartHeight alone).map (fun v => v.get 0)

variable {b : Build} {x : MShabal H b.parallelValidations} {poc2StartHeight : UInt64}
  {creqs : Vector CalcDeadlineReq b.parallelValidations}

/-- A batch of valid lanes has its deadlines. -/
theorem deadlines_of_valid (hvalid : ∀ k, (lane (creqs.get k)).Valid)
    (i : Fin b.parallelValidations) :
    (deadlines b x poc2StartHeight creqs).map (fun v => v.get i) =
      some (deadline H (decide (poc2StartHeight ≤ (creqs.get 0).height)) (lane (creqs.get i))) := by
  have hget : ∀ k, (Vector.ofFn fun k => deadline H
      (decide (poc2StartHeight ≤ (creqs.get 0).height)) (lane (creqs.get k))).get k = _ :=
    fun k => Vector.getElem_ofFn k.isLt
  have h := (deadlines_eq_some_iff b x poc2StartHeight creqs _).mpr fun k =>
    (laneDeadline_of_valid _ (hvalid k)).trans (congrArg some (hget k).symm)
  rw [h, Option.map_some, hget]

theorem exists_deadlines_of_valid (hvalid : ∀ k, (lane (creqs.get k)).Valid) :
    ∃ v, deadlines b x poc2StartHeight creqs = some v := by
  obtain ⟨v, hv, -⟩ := Option.map_eq_some_iff.mp (deadlines_of_valid hvalid 0)
  exact ⟨v, hv⟩

/-- With all digests the same, the deadlines are quotients. -/
theorem deadlines_of_const {d : Vector UInt8 32} {b : Build}
    {x : MShabal (fun _ => d) b.parallelValidations} {poc2StartHeight : UInt64}
    {creqs : Vector CalcDeadlineReq b.parallelValidations}
    (hvalid : ∀ k, (lane (creqs.get k)).Valid) :
    deadlines b x poc2StartHeight creqs =
      some (creqs.map fun creq => le64 d / creq.baseTarget) := by
  refine (deadlines_eq_some_iff ..).mpr fun k => (laneDeadline_of_valid _ (hvalid k)).trans ?_
  have hget : (creqs.map fun creq => le64 d / creq.baseTarget).get k =
      le64 d / (creqs.get k).baseTarget := Vector.getElem_map _ k.isLt
  exact congrArg some hget.symm

/-- A batch has its deadlines just when all of its lanes can be computed. -/
theorem exists_deadlines_iff : (∃ v, deadlines b x poc2StartHeight creqs = some v) ↔
    ∀ k, (lane (creqs.get k)).Computable := by
  constructor
  · rintro ⟨v, hv⟩ k
    exact exists_laneDeadline_iff.mp ⟨_, (deadlines_eq_some_iff ..).mp hv k⟩
  · intro h
    choose d hd using fun k => exists_laneDeadline_iff.mpr (h k)
    refine ⟨Vector.ofFn d, (deadlines_eq_some_iff ..).mpr fun k => (hd k).trans (congrArg some ?_)⟩
    exact (Vector.getElem_ofFn k.isLt).symm

/-- Without a base target in some lane, there are no deadlines. -/
theorem deadlines_of_baseTarget_eq {k : Fin b.parallelValidations}
    (hk : (creqs.get k).baseTarget = 0) : deadlines b x poc2StartHeight creqs = none := by
  rw [Option.eq_none_iff_forall_ne_some]
  exact fun v hv => (exists_deadlines_iff.mp ⟨v, hv⟩ k).baseTarget_ne hk

/-- The deadline of a request that is as it would be alone is the one for its own height: a
    batch of copies of the request has it. -/
theorem SameAlone.eq_deadline {i : Fin b.parallelValidations}
    (h : SameAlone b poc2StartHeight creqs i) (hi : (lane (creqs.get i)).Valid)
    (x : MShabal H b.parallelValidations) :
    (deadlines b x poc2StartHeight creqs).map (fun v => v.get i) =
      some (deadline H (decide (poc2StartHeight ≤ (creqs.get i).height)) (lane (creqs.get i))) := by
  have hget : ∀ k, (Vector.replicate b.parallelValidations (creqs.get i)).get k = creqs.get i :=
    fun k => Vector.getElem_replicate k.isLt
  have hcopies : ∀ k,
      (lane ((Vector.replicate b.parallelValidations (creqs.get i)).get k)).Valid := by
    intro k
    rw [hget]
    exact hi
  rw [h H x _ (hget 0) fun k _ => hcopies k, deadlines_of_valid hcopies, hget]

/-- On different sides of the first PoC2 block, some hash tells the deadlines apart. -/
theorem not_sameAlone_of_height (hvalid : ∀ k, (lane (creqs.get k)).Valid)
    {i : Fin b.parallelValidations}
    (hne : ¬(poc2StartHeight ≤ (creqs.get 0).height ↔ poc2StartHeight ≤ (creqs.get i).height)) :
    ¬SameAlone b poc2StartHeight creqs i := by
  intro hsame
  obtain ⟨H, hH⟩ := exists_deadline_ne (hvalid i)
  have h := hsame.eq_deadline (hvalid i) (.recording H _)
  rw [deadlines_of_valid hvalid, Option.some.injEq] at h
  by_cases h0 : poc2StartHeight ≤ (creqs.get 0).height
  · have hi : ¬poc2StartHeight ≤ (creqs.get i).height := fun hi => hne (iff_of_true h0 hi)
    rw [decide_eq_true h0, decide_eq_false hi] at h
    exact hH h
  · have hi : poc2StartHeight ≤ (creqs.get i).height := by
      by_contra hi
      exact hne (iff_of_false h0 hi)
    rw [decide_eq_false h0, decide_eq_true hi] at h
    exact hH h.symm

/-- **Batching does not change a validation** just when the requests can all be divided by
    their base targets and are on one side of the first PoC2 block. In a batch of `pending`
    requests, for scoops that exist and filled up with valid lanes, the deadline of the `i`-th
    request is the one it has alone if and only if it has no base target, or all requests have
    one and the first request is on the same side of the first PoC2 block. -/
theorem sameAlone_iff (b : Build) (poc2StartHeight : UInt64)
    (creqs : Vector CalcDeadlineReq b.parallelValidations) (pending : ℕ)
    (hscoop : ∀ k, (creqs.get k).scoopNr < 4096)
    (hpadding : ∀ k : Fin b.parallelValidations, pending ≤ k → (creqs.get k).baseTarget ≠ 0)
    (i : Fin b.parallelValidations) :
    SameAlone b poc2StartHeight creqs i ↔
      (creqs.get i).baseTarget = 0 ∨
        (∀ k : Fin b.parallelValidations, k < pending → (creqs.get k).baseTarget ≠ 0) ∧
          (poc2StartHeight ≤ (creqs.get 0).height ↔ poc2StartHeight ≤ (creqs.get i).height) := by
  have hvalid : (∀ k : Fin b.parallelValidations, k < pending → (creqs.get k).baseTarget ≠ 0) →
      ∀ k, (lane (creqs.get k)).Valid := by
    intro hbase k
    refine ⟨hscoop k, ?_⟩
    rcases lt_or_ge k.val pending with hk | hk
    · exact hbase k hk
    · exact hpadding k hk
  constructor
  · -- Alone, a valid request has the deadline for its own height (`SameAlone.eq_deadline`).
    intro hsame
    by_cases hzero : (creqs.get i).baseTarget = 0
    · exact .inl hzero
    have hlane : (lane (creqs.get i)).Valid := ⟨hscoop i, hzero⟩
    have hbase : ∀ k : Fin b.parallelValidations, k < pending → (creqs.get k).baseTarget ≠ 0 := by
      -- Another request without a base target keeps the batch from being computed.
      intro k _ hk
      have h := hsame.eq_deadline hlane (.recording (fun _ => Vector.replicate 32 0) _)
      rw [deadlines_of_baseTarget_eq hk] at h
      cases h
    refine .inr ⟨hbase, ?_⟩
    by_contra hne
    exact not_sameAlone_of_height (hvalid hbase) hne hsame
  · rintro (hzero | ⟨hbase, hside⟩)
    · intro H x alone halone _
      rw [deadlines_of_baseTarget_eq hzero, deadlines_of_baseTarget_eq (by rw [halone, hzero])]
      rfl
    · intro H x alone halone hothers
      have halone' : ∀ k, (lane (alone.get k)).Valid := by
        intro k
        rcases eq_or_ne k 0 with rfl | hk
        · rw [halone]
          exact hvalid hbase i
        · exact hothers k hk
      rw [deadlines_of_valid (hvalid hbase), deadlines_of_valid halone', halone]
      simp only [hside]

/-- A request taken at the height `height`. -/
def requestAt (height : UInt64) : CalcDeadlineReq :=
  ⟨7, 1, height, 0, 1, 9, Vector.replicate 32 0,
    some ⟨0, "192.0.2.1", "203.0.113.7", "/burst?requestType=submitNonce", 11⟩⟩

theorem sameAlone_iff_above :
    SameAlone .sse4 100 #v[requestAt 100, requestAt 101, requestAt 0, requestAt 0] (1 : Fin 4) :=
  (sameAlone_iff .sse4 100 #v[requestAt 100, requestAt 101, requestAt 0, requestAt 0] 2
    (by decide +kernel) (by decide +kernel) (1 : Fin 4)).mpr
    (.inr ⟨by decide +kernel, by decide +kernel⟩)

/-- The first PoC2 block starts while the batch fills up. -/
theorem not_sameAlone_astride :
    ¬SameAlone .sse4 100 #v[requestAt 99, requestAt 100, requestAt 0, requestAt 0] (1 : Fin 4) := by
  have hvalid : ∀ k : Fin 4, (lane ((#v[requestAt 99, requestAt 100, requestAt 0, requestAt 0] :
      Vector CalcDeadlineReq 4).get k)).Valid := fun k =>
    ⟨by revert k; decide +kernel, by revert k; decide +kernel⟩
  exact not_sameAlone_of_height (b := .sse4) hvalid (by decide +kernel)

end BurstPoolNode.DeadlineRequestHandler

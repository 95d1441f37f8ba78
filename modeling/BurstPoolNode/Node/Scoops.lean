import BurstPoolNode.Node.Divisor
import BurstPoolNode.Wallet.Signatures

/-!
# Scoops

Every lane of a batch is computed, and its scoop copied out of the plot, those
that only fill up the batch included. The distributor gives these a base target,
and no scoop: what is in theirs is what memory held.

* `ScoopInv`: the requests have a scoop of the plot, on their way to a batch and
  long after it has been posted;
* `always_inPlot_iff`: all copies stay inside the plots if and only if no batch
  is posted while a slot that was never taken holds a scoop out of range;
* `along_inRange`: so they do if memory holds scoops in range at the start.
-/

namespace BurstPoolNode

open DeadlineRequestHandler (Batch Distributor)
open Burstmath

/-- The scoop of the lane is one of the plot, and it and its mirror scoop are inside of it. -/
structure CalcDeadlineReq.InPlot (creq : CalcDeadlineReq) : Prop where
  scoopNr_lt : creq.scoopNr < 4096
  scoop_le : scoopStart creq.scoopNr + scoopSize ≤ nonceSize
  mirror_le : mirrorStart creq.scoopNr + scoopSize ≤ nonceSize

theorem CalcDeadlineReq.inPlot_iff {creq : CalcDeadlineReq} :
    creq.InPlot ↔ creq.scoopNr < 4096 := by
  refine ⟨InPlot.scoopNr_lt, fun h => ⟨h, ?_, ?_⟩⟩
  · have hlt : creq.scoopNr.toNat < 4096 := UInt32.lt_iff_toNat_lt.mp h
    rw [scoopStart_eq h]
    simp only [nonceSize_eq, scoopSize]
    omega
  · rw [mirrorStart_eq h]
    simp only [nonceSize_eq, scoopSize]
    omega

/-! ## The scoop of the wallet -/

namespace Wallet

variable {parse : String → Option Json} {H : List UInt8 → Vector UInt8 32} {mem : Memory}
  {w : Wallet} {t : Transfer}

theorem refreshBlock_scoop_lt (h : w.currentBlock.scoop < 4096) :
    (w.refreshBlock parse H mem t).2.currentBlock.scoop < 4096 := by
  cases hinfo : w.newInfo parse t with
  | none => rwa [refreshBlock_of_none hinfo]
  | some info =>
    rw [(refreshBlock_installs hinfo).2]
    exact calculateScoop_lt ..

theorem construct_scoop_lt {db : String → Option ResultSet} {cfg : Config}
    (h : construct parse H mem db cfg t = some w) : w.currentBlock.scoop < 4096 := by
  obtain ⟨w₀, hfresh, hw⟩ := construct_reachable h
  rw [← Option.some.inj hw]
  refine refreshBlock_scoop_lt ?_
  rw [hfresh.currentBlock]
  decide

end Wallet

namespace Node

variable {F : Type} {b : Build} [Zero F] [One F] [Sub F] [Mul F] [Div F] [LT F] [DecidableLT F]
  {e : Environment F b} {n m : Node F b} {a : Action F}

/-! ## Requests -/

/-- The scoops of the current block and of the requests on their way to a batch. -/
structure ScoopInv (n : Node F b) : Prop where
  currentBlock : n.wallet.currentBlock.scoop < 4096
  q : ∀ creq ∈ n.q, creq.scoopNr < 4096
  slots : ∀ creq ∈ n.distributor.reqs, creq.session ≠ none → creq.scoopNr < 4096

theorem scoopInv_init (h : n ∈ (node e).init) : ScoopInv n := by
  obtain ⟨mem, t, w, reqs, hw, hreqs, rfl⟩ := init_eq h
  exact ⟨Wallet.construct_scoop_lt hw, nofun, fun creq hcreq hsome =>
    absurd (hreqs creq hcreq).2 hsome⟩

theorem step_scoopInv (h : ScoopInv n) (hst : (node e).step n a = some m) : ScoopInv m := by
  cases step_cases hst with
  | enque henque =>
    refine ⟨h.currentBlock, fun creq hcreq => ?_, h.slots⟩
    rcases List.mem_append.mp hcreq with hcreq | hcreq
    · exact h.q creq hcreq
    · obtain rfl := List.mem_singleton.mp hcreq
      have hsnapshot := Session.processSubmitNonceReq_enque (Session.handleRequest_enque henque)
      rw [hsnapshot.2.2.1]
      exact h.currentBlock
  | refresh => exact ⟨Wallet.refreshBlock_scoop_lt h.currentBlock, h.q, h.slots⟩
  | found hplace hcreq hlt =>
    refine ⟨h.currentBlock, fun creq hmem => h.q creq (List.mem_of_mem_eraseIdx hmem),
      fun creq hmem hsome => ?_⟩
    rcases @Vector.mem_or_eq_of_mem_set _ _ _ _ _ _ hlt hmem with hmem | rfl
    · exact h.slots creq hmem hsome
    · exact h.q _ (List.mem_of_getElem? hcreq)
  | _ => exact ⟨h.currentBlock, h.q, h.slots⟩

/-! ## Batches -/

/-- No batch is posted while a slot that was never taken holds a scoop out of range. -/
def InRange (n : Node F b) (a : Action F) : Prop :=
  n.Posts a → ∀ creq ∈ n.distributor.reqs, creq.session = none → creq.scoopNr < 4096

/-- All lanes of all batches are inside of their plots. -/
def AllInPlot (n : Node F b) : Prop :=
  ∀ batch ∈ n.batches, ∀ creq ∈ batch.creqs, creq.InPlot

omit [Zero F] [One F] [Sub F] [Mul F] [Div F] [LT F] [DecidableLT F] in
/-- Requests are in range anyway. -/
theorem ScoopInv.forall_inPlot_iff (h : ScoopInv n) : (∀ creq ∈ n.distributor.reqs, creq.InPlot) ↔
    ∀ creq ∈ n.distributor.reqs, creq.session = none → creq.scoopNr < 4096 := by
  simp only [CalcDeadlineReq.inPlot_iff]
  refine ⟨fun hall creq hcreq _ => hall creq hcreq, fun hpadding creq hcreq => ?_⟩
  by_cases hnone : creq.session = none
  · exact hpadding creq hcreq hnone
  · exact h.slots creq hcreq hnone

theorem step_allInPlot_iff (h : ScoopInv n) (hall : AllInPlot n)
    (hst : (node e).step n a = some m) : AllInPlot m ↔ InRange n a := by
  rw [AllInPlot] at hall ⊢
  rcases step_batches hst with ⟨hposts, heq⟩ | ⟨hposts, heq⟩
  · -- The batch is a copy of the slots.
    rw [InRange, ← h.forall_inPlot_iff, heq, List.forall_mem_append, List.forall_mem_singleton]
    exact ⟨fun hm _ => hm.2, fun hslots => ⟨hall, hslots hposts⟩⟩
  · rw [heq]
    exact iff_of_true hall fun hpost => absurd hpost hposts

theorem inRange_of_step_eq_none (hst : (node e).step n a = none) : InRange n a := by
  intro hposts
  cases a with
  | head =>
    obtain ⟨t, ht, -⟩ := step_head_of_full (e := e) hposts.1 hposts.2.1 hposts.2.2
    cases hst.symm.trans ht
  | _ => exact hposts.elim

/-- **No lane indexes outside its plot** just as long as no batch is posted while a slot that
    was never taken holds a scoop out of range: in every state of a run, all lanes of all batches
    are inside of their plots if and only if no step of the run posts such slots. -/
theorem always_inPlot_iff (hn : n ∈ (node e).init) (as : List (Action F)) :
    (node e).Always AllInPlot n as ↔ (node e).Along InRange n as := by
  have hempty : AllInPlot n := by
    obtain ⟨mem, t, w, reqs, -, -, rfl⟩ := init_eq hn
    exact nofun
  exact System.always_iff_along (fun _ _ _ => step_scoopInv)
    (fun _ _ _ => step_allInPlot_iff) (fun _ _ => inRange_of_step_eq_none) (scoopInv_init hn) hempty

/-- With scoops in range in memory, all runs are of this kind. -/
theorem along_inRange (hn : n ∈ (node e).init)
    (hpadding : ∀ creq ∈ n.distributor.reqs, creq.scoopNr < 4096) (as : List (Action F)) :
    (node e).Along InRange n as := by
  refine System.along_of_invariant (T := node e)
    (J := fun n => ScoopInv n ∧ ∀ creq ∈ n.distributor.reqs, creq.scoopNr < 4096)
    (fun s a t h hst => ⟨step_scoopInv h.1 hst, ?_⟩) (fun s a h _ creq hcreq _ => h.2 creq hcreq) as
    ⟨scoopInv_init hn, hpadding⟩
  cases step_cases hst with
  | found hplace hcreq hlt =>
    intro creq hmem
    rcases @Vector.mem_or_eq_of_mem_set _ _ _ _ _ _ hlt hmem with hmem | rfl
    · exact h.2 creq hmem
    · exact h.1.q _ (List.mem_of_getElem? hcreq)
  | _ => exact h.2

omit [Zero F] [One F] [Sub F] [Mul F] [Div F] [LT F] [DecidableLT F] in
theorem start_reqs {mem : Memory} {t : Transfer}
    {reqs : Vector CalcDeadlineReq b.parallelValidations} (h : start e mem t reqs = some n) :
    n.distributor.reqs = reqs := by
  obtain ⟨w, -, h⟩ := Option.bind_eq_some_iff.mp h
  rw [← Option.some.inj h]

theorem scoopNr_paddingReqs {t : Transfer} {n : Node ℚ .sse4} (h : oneAccountStart t = some n) :
    ∀ creq ∈ n.distributor.reqs, creq.scoopNr < 4096 := by
  rw [start_reqs h]
  intro creq hcreq
  rw [(Vector.mem_replicate.mp hcreq).2]
  decide

/-- Slots that are zeros but for the base target. -/
theorem always_inPlot_iff_singleNonce : ∃ n : Node ℚ .sse4, n ∈ (node oneAccount).init ∧
    (node oneAccount).Always AllInPlot n singleNonce := by
  have hsome : (oneAccountStart ⟨[Mining.infoText "5"], true⟩).isSome = true := by decide +kernel
  obtain ⟨n, hn⟩ := Option.isSome_iff_exists.mp hsome
  have hinit := oneAccountStart_mem hn
  have halong := along_inRange hinit (scoopNr_paddingReqs hn) singleNonce
  exact ⟨n, hinit, (always_inPlot_iff hinit singleNonce).mpr halong⟩

/-- Slots whose memory holds the scoop 4096. -/
def wildReqs : Vector CalcDeadlineReq 4 :=
  Vector.replicate 4 ⟨0, 0, 0, 4096, 1, 0, Vector.replicate 32 0, none⟩

theorem not_always_inPlot : ¬∀ n : Node ℚ .sse4, n ∈ (node oneAccount).init →
    ∀ as, (node oneAccount).Always AllInPlot n as := by
  intro h
  have hrun : ((start oneAccount ⟨Vector.replicate 32 0, []⟩ ⟨[Mining.infoText "5"], true⟩
      wildReqs).bind fun n => ((node oneAccount).exec n singleNonce).map fun n =>
        n.batches.map fun batch => (batch.creqs[3]?).map CalcDeadlineReq.scoopNr) =
          some [some 4096] := by
    decide +kernel
  obtain ⟨n, hn, hrun⟩ := Option.bind_eq_some_iff.mp hrun
  obtain ⟨m, hm, hscoops⟩ := Option.map_eq_some_iff.mp hrun
  have hpadding : Distributor.padding wildReqs := by
    intro creq hcreq
    rw [(Vector.mem_replicate.mp hcreq).2]
    exact ⟨rfl, rfl⟩
  have hall := (h n ⟨_, _, wildReqs, hpadding, hn⟩ singleNonce).of_exec hm
  obtain ⟨batch, hbatches, hscoop⟩ := List.map_eq_singleton_iff.mp hscoops
  obtain ⟨creq, hcreq, hscoop⟩ := Option.map_eq_some_iff.mp hscoop
  have hlane := hall batch (hbatches ▸ List.mem_singleton_self batch) creq
    (Vector.mem_of_getElem? hcreq)
  exact absurd hlane.scoopNr_lt (by rw [hscoop]; decide)

end Node

end BurstPoolNode

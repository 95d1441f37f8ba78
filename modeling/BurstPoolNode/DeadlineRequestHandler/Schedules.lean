import BurstPoolNode.DeadlineRequestHandler.Batch
import BurstPoolNode.DeadlineRequestHandler.Validations
import BurstPoolNode.Improvements

/-!
# Schedules

The requests for the nonces of one block, split into batches that are validated
one after the other (`validateBatches`).

Filled up with valid lanes, the batches compute of each request the deadline it
has alone (`ownDeadline`), so that they are its requests in turn
(`validateBatches_eq`), and those leave a round with the least of its deadlines
(`Settled`):

* `settled_inTurn`: the replies, the rounds and what is passed on after any
  list of validations from miners at rest;
* `exists_exec_inTurn`: it is a run of the concurrent validations, which leave
  the miners at rest when they are all done (`atRest_of_isDone`);
* `validateBatches_settles`: none of it depends on the schedule.
-/

namespace BurstPoolNode

/-- The request carries the block. -/
structure CalcDeadlineReq.Carries (creq : CalcDeadlineReq) (block : Block) : Prop where
  height_eq : creq.height = block.height
  gensig_eq : creq.gensig = block.gensig
  scoopNr_eq : creq.scoopNr = block.scoop
  baseTarget_eq : creq.baseTarget = block.baseTarget

/-- No lock is held, and no two accounts share a round. -/
structure Miners.AtRest (m : Miners) : Prop where
  free : ∀ p, (m.rounds p).mu = none
  injective : ∀ a b p, m.table a = some p → m.table b = some p → a = b

namespace DeadlineRequestHandler

open Burstmath

variable {H : List UInt8 → Vector UInt8 32}

/-! ## What becomes of the requests -/

/-- The deadline of a request in a batch of its own. -/
def ownDeadline (H : List UInt8 → Vector UInt8 32) (poc2StartHeight : UInt64)
    (creq : CalcDeadlineReq) : UInt64 :=
  deadline H (decide (poc2StartHeight ≤ creq.height)) (lane creq)

section

variable (deadlineLimit : UInt64) (d : CalcDeadlineReq → UInt64)

/-- The reply to a request, if it has a session. -/
def reply (creq : CalcDeadlineReq) : Option (ℕ × Response) :=
  creq.session.map fun s =>
    (s.id, if d creq > deadlineLimit then limitError s else success (d creq) s)

/-- The deadlines within the limit of the requests for an account and a height. -/
def accepted (reqs : List CalcDeadlineReq) (accountId height : UInt64) : List UInt64 :=
  (reqs.filter fun creq =>
    creq.accountId = accountId ∧ creq.height = height ∧ d creq ≤ deadlineLimit).map d

/-- The deadlines that are passed on for an account. -/
def deadlinesOf (fs : List (UInt64 × SubmitNonceRequest)) (accountId : UInt64) : List UInt64 :=
  (fs.filter fun f => f.2.accountId = accountId).map fun f => f.2.deadline

/-- What the validations of `reqs` in turn make of `sh`. -/
structure Settled (reqs : List CalcDeadlineReq) (sh sh' : Shared) : Prop where
  table_eq : sh'.miners.table = sh.miners.table
  atRest : sh'.miners.AtRest
  writes : ∃ replies, sh'.writes = sh.writes ++ replies ∧
    reqs.map (reply deadlineLimit d) = replies.map some
  rounds : ∀ a p, sh.miners.table a = some p →
    let round := sh.miners.rounds p
    sh'.miners.rounds p = { round with
      deadline := (accepted deadlineLimit d reqs a round.height).foldl min round.deadline }
  forwarded : ∃ fs, sh'.forwarded = sh.forwarded ++ fs ∧
    (∀ a, sh.miners.table a = none → deadlinesOf fs a = []) ∧
    ∀ a p, sh.miners.table a = some p →
      let round := sh.miners.rounds p
      deadlinesOf fs a = improvements round.deadline (accepted deadlineLimit d reqs a round.height)

end

variable {deadlineLimit : UInt64} {d : CalcDeadlineReq → UInt64}

theorem accepted_append (reqs reqs' : List CalcDeadlineReq) (a height : UInt64) :
    accepted deadlineLimit d (reqs ++ reqs') a height =
      accepted deadlineLimit d reqs a height ++ accepted deadlineLimit d reqs' a height := by
  rw [accepted, List.filter_append, List.map_append]
  rfl

theorem accepted_singleton (creq : CalcDeadlineReq) (a height : UInt64) :
    accepted deadlineLimit d [creq] a height =
      if creq.accountId = a ∧ creq.height = height ∧ d creq ≤ deadlineLimit then [d creq]
      else [] := by
  simp only [accepted, List.filter_cons, List.filter_nil, decide_eq_true_eq]
  split_ifs <;> rfl

theorem accepted_perm {reqs reqs' : List CalcDeadlineReq} (h : reqs.Perm reqs')
    (a height : UInt64) :
    (accepted deadlineLimit d reqs a height).Perm (accepted deadlineLimit d reqs' a height) :=
  (h.filter _).map d

theorem reply_congr {d' : CalcDeadlineReq → UInt64} {creq : CalcDeadlineReq}
    (h : d creq = d' creq) : reply deadlineLimit d creq = reply deadlineLimit d' creq := by
  simp only [reply, h]

theorem accepted_congr {d' : CalcDeadlineReq → UInt64} {reqs : List CalcDeadlineReq}
    (h : ∀ creq ∈ reqs, d creq = d' creq) (a height : UInt64) :
    accepted deadlineLimit d reqs a height = accepted deadlineLimit d' reqs a height := by
  rw [accepted, accepted, List.filter_congr fun creq hcreq => by rw [h creq hcreq]]
  exact List.map_congr_left fun creq hcreq => h creq (List.mem_of_mem_filter hcreq)

theorem accepted_eq_nil {reqs : List CalcDeadlineReq} {height height' : UInt64}
    (h : ∀ creq ∈ reqs, creq.height = height) (hne : height' ≠ height) (a : UInt64) :
    accepted deadlineLimit d reqs a height' = [] := by
  rw [accepted, List.map_eq_nil_iff, List.filter_eq_nil_iff]
  intro creq hcreq hacc
  rw [decide_eq_true_eq, h creq hcreq] at hacc
  exact hne hacc.2.1.symm

theorem deadlinesOf_singleton (f : UInt64 × SubmitNonceRequest) (a : UInt64) :
    deadlinesOf [f] a = if f.2.accountId = a then [f.2.deadline] else [] := by
  simp only [deadlinesOf, List.filter_cons, List.filter_nil, decide_eq_true_eq]
  split_ifs <;> rfl

theorem deadlinesOf_append (fs gs : List (UInt64 × SubmitNonceRequest)) (a : UInt64) :
    deadlinesOf (fs ++ gs) a = deadlinesOf fs a ++ deadlinesOf gs a := by
  rw [deadlinesOf, List.filter_append, List.map_append]
  rfl

/-! ## One validation -/

/-- The request improves on the round at `p`, which is that of its account. -/
def Improves (deadlineLimit deadline : UInt64) (creq : CalcDeadlineReq) (sh : Shared) (p : ℕ) :
    Prop :=
  sh.miners.table creq.accountId = some p ∧ deadline ≤ deadlineLimit ∧
    (sh.miners.rounds p).height = creq.height ∧ deadline < (sh.miners.rounds p).deadline

/-- With no lock held, a validation passes on and stores an improvement, and nothing else. -/
theorem exists_validateDeadline {sh : Shared} (hfree : ∀ p, (sh.miners.rounds p).mu = none)
    {creq : CalcDeadlineReq} {s : Session} (hs : creq.session = some s)
    (deadlineLimit deadline : UInt64) :
    ∃ sh', validateDeadline deadlineLimit creq deadline sh = some sh' ∧
      sh'.writes = sh.writes ++
        [(s.id, if deadline > deadlineLimit then limitError s else success deadline s)] ∧
      ((∃ p, Improves deadlineLimit deadline creq sh p ∧
          sh'.miners = (sh.setRound p { sh.miners.rounds p with deadline := deadline }).miners ∧
          sh'.forwarded = sh.forwarded ++
            [(creq.recipId, ⟨creq.accountId, creq.nonce, deadline, creq.height⟩)]) ∨
        (∀ p, ¬Improves deadlineLimit deadline creq sh p) ∧
          sh'.miners = sh.miners ∧ sh'.forwarded = sh.forwarded) := by
  rw [validateDeadline]
  by_cases hlimit : deadline > deadlineLimit
  · rw [if_pos hlimit, if_pos hlimit, Shared.write, hs]
    refine ⟨_, rfl, rfl, .inr ⟨fun p himp => ?_, rfl, rfl⟩⟩
    exact UInt64.not_lt.mpr himp.2.1 hlimit
  · rw [if_neg hlimit, if_neg hlimit]
    cases ht : sh.miners.getMinerRound creq.accountId with
    | none =>
      rw [Shared.write, hs]
      refine ⟨_, rfl, rfl, .inr ⟨fun p himp => ?_, rfl, rfl⟩⟩
      cases ht.symm.trans himp.1
    | some p =>
      dsimp only
      rw [if_pos (hfree p)]
      split_ifs with hbetter
      · rw [Shared.write, hs]
        exact ⟨_, rfl, rfl, .inl ⟨p, ⟨ht, UInt64.not_lt.mp hlimit, hbetter.1, hbetter.2⟩, rfl, rfl⟩⟩
      · rw [Shared.write, hs]
        refine ⟨_, rfl, rfl, .inr ⟨fun q himp => ?_, rfl, rfl⟩⟩
        obtain rfl : p = q := Option.some.inj (ht.symm.trans himp.1)
        exact hbetter himp.2.2

/-! ## Validations in turn -/

theorem atRest_setRound {sh : Shared} (h : sh.miners.AtRest) (p : ℕ) (deadline : UInt64) :
    (sh.setRound p { sh.miners.rounds p with deadline := deadline }).miners.AtRest := by
  refine ⟨fun q => ?_, h.injective⟩
  rw [Shared.setRound_rounds]
  split_ifs
  · exact h.free p
  · exact h.free q

namespace Settled

variable {reqs reqs' : List CalcDeadlineReq} {creq : CalcDeadlineReq} {sh sh' sh'' : Shared}

theorem nil (h : sh.miners.AtRest) : Settled deadlineLimit d [] sh sh where
  table_eq := rfl
  atRest := h
  writes := ⟨[], (List.append_nil _).symm, rfl⟩
  rounds _ _ _ := rfl
  forwarded := ⟨[], (List.append_nil _).symm, fun _ _ => rfl, fun _ _ _ => rfl⟩

/-- Some requests, and others after them. -/
theorem append (h : Settled deadlineLimit d reqs sh sh')
    (h' : Settled deadlineLimit d reqs' sh' sh'') :
    Settled deadlineLimit d (reqs ++ reqs') sh sh'' := by
  obtain ⟨replies, hreplies, hmap⟩ := h.writes
  obtain ⟨replies', hreplies', hmap'⟩ := h'.writes
  obtain ⟨fs, hfs, hnone, hsome⟩ := h.forwarded
  obtain ⟨fs', hfs', hnone', hsome'⟩ := h'.forwarded
  have hrounds' := h'.rounds
  rw [h.table_eq] at hrounds' hnone' hsome'
  refine ⟨h'.table_eq.trans h.table_eq, h'.atRest, ⟨replies ++ replies', ?_, ?_⟩, fun a p hp => ?_,
    ⟨fs ++ fs', ?_, fun a ha => ?_, fun a p hp => ?_⟩⟩
  · rw [hreplies', hreplies, List.append_assoc]
  · rw [List.map_append, List.map_append, hmap, hmap']
  · simp only [hrounds' a p hp, h.rounds a p hp, accepted_append, List.foldl_append]
  · rw [hfs', hfs, List.append_assoc]
  · rw [deadlinesOf_append, hnone a ha, hnone' a ha, List.append_nil]
  · simp only [deadlinesOf_append, hsome a p hp, hsome' a p hp, h.rounds a p hp, accepted_append,
      improvements_append]

/-- One request, whose deadline is taken for that of its round if it is less. -/
theorem single (hrest : sh.miners.AtRest) (hcreq : ∃ s, creq.session = some s) :
    ∃ sh', validateDeadline deadlineLimit creq (d creq) sh = some sh' ∧
      Settled deadlineLimit d [creq] sh sh' := by
  obtain ⟨s, hs⟩ := hcreq
  obtain ⟨sh', hsh', hwrites, h⟩ :=
    exists_validateDeadline hrest.free hs deadlineLimit (d creq)
  have hreply : [creq].map (reply deadlineLimit d) = List.map some
      [(s.id, if d creq > deadlineLimit then limitError s else success (d creq) s)] := by
    rw [List.map_singleton, reply, hs]
    rfl
  refine ⟨sh', hsh', ?_⟩
  rcases h with ⟨p, ⟨htable, hlimit, hheight, hlt⟩, hminers, hforwarded⟩ |
    ⟨himp, hminers, hforwarded⟩
  · have hrest' : sh'.miners.AtRest := hminers ▸ atRest_setRound hrest p (d creq)
    -- The request is accepted for the round at `p`, which is of its account alone.
    have haccount : ∀ a q, sh.miners.table a = some q → (creq.accountId = a ↔ q = p) := by
      intro a q hq
      constructor
      · rintro rfl
        exact Option.some.inj (hq.symm.trans htable)
      · rintro rfl
        exact hrest.injective _ _ _ htable hq
    have haccepted : ∀ a q, sh.miners.table a = some q →
        accepted deadlineLimit d [creq] a (sh.miners.rounds q).height =
          if q = p then [d creq] else [] := by
      intro a q hq
      rw [accepted_singleton]
      refine if_congr ⟨fun h => (haccount a q hq).mp h.1, ?_⟩ rfl rfl
      rintro rfl
      exact ⟨(haccount a q hq).mpr rfl, hheight.symm, hlimit⟩
    refine ⟨by rw [hminers, Shared.setRound_table], hrest', ⟨_, hwrites, hreply⟩, fun a q hq => ?_,
      ⟨_, hforwarded, fun a ha => ?_, fun a q hq => ?_⟩⟩
    · dsimp only
      rw [hminers, Shared.setRound_rounds, haccepted a q hq]
      split_ifs with hqp
      · rw [hqp, List.foldl_cons, List.foldl_nil, min_eq_ite, if_pos hlt]
      · rfl
    · rw [deadlinesOf_singleton, if_neg]
      rintro rfl
      cases ha.symm.trans htable
    · dsimp only
      rw [deadlinesOf_singleton, haccepted a q hq]
      by_cases hqp : q = p
      · rw [if_pos ((haccount a q hq).mpr hqp), if_pos hqp, hqp, improvements, if_pos hlt]
        rfl
      · rw [if_neg fun h => hqp ((haccount a q hq).mp h), if_neg hqp]
        rfl
  · -- If the deadline is accepted, it is not below that of the round.
    have hskip : ∀ a p, sh.miners.table a = some p →
        accepted deadlineLimit d [creq] a (sh.miners.rounds p).height = [] ∨
          accepted deadlineLimit d [creq] a (sh.miners.rounds p).height = [d creq] ∧
            ¬d creq < (sh.miners.rounds p).deadline := by
      intro a p hp
      rw [accepted_singleton]
      split_ifs with hacc
      · obtain ⟨rfl, hheight, hlimit⟩ := hacc
        exact .inr ⟨rfl, fun hlt => himp p ⟨hp, hlimit, hheight.symm, hlt⟩⟩
      · exact .inl rfl
    refine ⟨by rw [hminers], hminers ▸ hrest, ⟨_, hwrites, hreply⟩, fun a p hp => ?_,
      ⟨[], by rw [hforwarded, List.append_nil], fun _ _ => rfl, fun a p hp => ?_⟩⟩
    · dsimp only
      rw [hminers]
      rcases hskip a p hp with hnil | ⟨hcons, hlt⟩
      · rw [hnil]
        rfl
      · rw [hcons, List.foldl_cons, List.foldl_nil, min_eq_ite, if_neg hlt]
    · dsimp only
      rcases hskip a p hp with hnil | ⟨hcons, hlt⟩
      · rw [hnil]
        rfl
      · rw [hcons, improvements, if_neg hlt]
        rfl

end Settled

/-- The validations of `reqs` in turn. -/
def inTurn (deadlineLimit : UInt64) (d : CalcDeadlineReq → UInt64) (reqs : List CalcDeadlineReq)
    (sh : Shared) : Option Shared :=
  reqs.foldlM (fun sh creq => validateDeadline deadlineLimit creq (d creq) sh) sh

/-- The requests that have a session are all settled in turn. -/
theorem settled_inTurn {reqs : List CalcDeadlineReq}
    (hs : ∀ creq ∈ reqs, ∃ s, creq.session = some s) {sh : Shared} (hrest : sh.miners.AtRest) :
    ∃ sh', inTurn deadlineLimit d reqs sh = some sh' ∧ Settled deadlineLimit d reqs sh sh' := by
  induction reqs generalizing sh with
  | nil => exact ⟨sh, rfl, .nil hrest⟩
  | cons creq reqs ih =>
    obtain ⟨sh₁, hsh₁, hsingle⟩ := Settled.single hrest (hs creq List.mem_cons_self)
    obtain ⟨sh', hsh', h⟩ := ih (fun creq h => hs creq (List.mem_cons_of_mem _ h)) hsingle.atRest
    refine ⟨sh', ?_, hsingle.append h⟩
    rw [inTurn, List.foldlM_cons, hsh₁]
    exact hsh'

/-! ## Batches in turn -/

/-- The batches validated one after the other. -/
def validateBatches (b : Build) (x : MShabal H b.parallelValidations)
    (poc2StartHeight deadlineLimit : UInt64) (batches : List (Batch b.parallelValidations))
    (sh : Shared) : Option Shared :=
  batches.foldlM (fun sh batch => validateDeadlines b x poc2StartHeight deadlineLimit batch sh) sh

/-- The batch holds a request, and is filled up with valid lanes. -/
structure Batch.FilledUp {n : ℕ} (batch : Batch n) : Prop where
  pending_pos : 0 < batch.pending
  pending_le : batch.pending ≤ n
  padding : ∀ k : Fin n, batch.pending ≤ k → (lane (batch.creqs.get k)).Valid

theorem lane_valid {creq : CalcDeadlineReq} {block : Block} (h : creq.Carries block)
    (hscoop : block.scoop < 4096) (hbase : block.baseTarget ≠ 0) : (lane creq).Valid := by
  refine ⟨?_, ?_⟩
  · rw [lane, h.scoopNr_eq]
    exact hscoop
  · rw [lane, h.baseTarget_eq]
    exact hbase

variable {b : Build} {x : MShabal H b.parallelValidations} {poc2StartHeight : UInt64}
  {block : Block} {sh : Shared}

theorem get_mem_lanes {n : ℕ} {batch : Batch n} {k : Fin n} (hk : k < batch.pending) :
    batch.creqs.get k ∈ batch.lanes := by
  have hget : batch.creqs.toList[k.val]? = some (batch.creqs.get k) := by simp [Vector.get]
  exact List.mem_of_getElem? ((List.getElem?_take_of_lt hk).trans hget)

/-- The lanes of a batch for a block are validated with the deadlines they have alone. -/
theorem validateDeadlines_eq {batch : Batch b.parallelValidations} (hfilled : batch.FilledUp)
    (hcarries : ∀ creq ∈ batch.lanes, creq.Carries block) (hscoop : block.scoop < 4096)
    (hbase : block.baseTarget ≠ 0) :
    validateDeadlines b x poc2StartHeight deadlineLimit batch sh =
      inTurn deadlineLimit (ownDeadline H poc2StartHeight) batch.lanes sh := by
  have hvalid : ∀ k, (lane (batch.creqs.get k)).Valid := by
    intro k
    rcases lt_or_ge k.val batch.pending with hk | hk
    · exact lane_valid (hcarries _ (get_mem_lanes hk)) hscoop hbase
    · exact hfilled.padding k hk
  have hheight : ∀ {k : Fin b.parallelValidations}, k < batch.pending →
      (batch.creqs.get k).height = block.height :=
    fun hk => (hcarries _ (get_mem_lanes hk)).height_eq
  obtain ⟨v, hv⟩ := @exists_deadlines_of_valid H b x poc2StartHeight batch.creqs hvalid
  -- The lane 0 holds a request, so that the version is the one for the block.
  have hdeadline : ∀ k : Fin b.parallelValidations, k < batch.pending →
      v.get k = ownDeadline H poc2StartHeight (batch.creqs.get k) := by
    intro k hk
    have hk' := @deadlines_of_valid H b x poc2StartHeight batch.creqs hvalid k
    rw [hv, hheight hfilled.pending_pos, ← hheight hk] at hk'
    exact Option.some.inj hk'
  have hlanes : (batch.creqs.zip v).toList.take batch.pending =
      batch.lanes.map fun creq => (creq, ownDeadline H poc2StartHeight creq) := by
    refine List.ext_getElem (by simp [Batch.lanes]) fun i hi _ => ?_
    have hlt : i < batch.pending ∧ i < b.parallelValidations := by simpa using hi
    have hi' := hdeadline ⟨i, hlt.2⟩ hlt.1
    simp only [Batch.lanes, List.getElem_take, List.getElem_map, Vector.getElem_toList,
      Vector.getElem_zip]
    exact congrArg _ hi'
  rw [validateDeadlines, hv, Option.bind_eq_bind, Option.bind_some, hlanes, List.foldlM_map]
  rfl

theorem inTurn_append (d : CalcDeadlineReq → UInt64) (reqs reqs' : List CalcDeadlineReq)
    (sh : Shared) : inTurn deadlineLimit d (reqs ++ reqs') sh =
      (inTurn deadlineLimit d reqs sh).bind (inTurn deadlineLimit d reqs') :=
  List.foldlM_append

/-- Batches for a block in turn are their requests in turn. -/
theorem validateBatches_eq {batches : List (Batch b.parallelValidations)}
    (hfilled : ∀ batch ∈ batches, batch.FilledUp)
    (hcarries : ∀ creq ∈ batches.flatMap Batch.lanes, creq.Carries block)
    (hscoop : block.scoop < 4096) (hbase : block.baseTarget ≠ 0) :
    validateBatches b x poc2StartHeight deadlineLimit batches sh =
      inTurn deadlineLimit (ownDeadline H poc2StartHeight) (batches.flatMap Batch.lanes) sh := by
  induction batches generalizing sh with
  | nil => rfl
  | cons batch batches ih =>
    rw [List.flatMap_cons] at hcarries ⊢
    rw [List.forall_mem_append] at hcarries
    rw [List.forall_mem_cons] at hfilled
    rw [inTurn_append, validateBatches, List.foldlM_cons,
      validateDeadlines_eq hfilled.1 hcarries.1 hscoop hbase]
    exact congrArg _ (funext fun sh => ih hfilled.2 hcarries.2)

/-! ## Rest -/

theorem atRest_of_cached {height : UInt64} {m : Miners} (h : m.Cached height) : m.AtRest :=
  ⟨h.free, h.injective⟩

/-- Validations that are all done leave the miners at rest. -/
theorem atRest_of_isDone {s : Validations}
    (h : (validations deadlineLimit).Reachable System.Any s)
    (hdone : ∀ v ∈ s.calls, v.pc.isDone) : s.shared.miners.AtRest := by
  have hinv := reachable_inv h
  refine ⟨fun p => ?_, hinv.injective⟩
  rw [Option.eq_none_iff_forall_ne_some]
  intro i hi
  obtain ⟨v, hv, hp⟩ := (hinv.held p i).mp hi
  have hvdone := hdone v (List.mem_of_getElem? hv)
  cases hpc : v.pc <;> rw [hpc] at hp hvdone <;> cases hp <;> cases hvdone

/-- Validations in turn are a run of the concurrent ones, after which they are all done. -/
theorem exists_exec_inTurn {reqs : List CalcDeadlineReq} {d : CalcDeadlineReq → UInt64}
    {s : Validations} {sh' : Shared} (h : inTurn deadlineLimit d reqs s.shared = some sh') :
    ∃ as calls, (validations deadlineLimit).exec s as = some ⟨sh', s.calls ++ calls⟩ ∧
      calls.map Validation.creq = reqs ∧ ∀ v ∈ calls, v.pc.isDone := by
  induction reqs generalizing s with
  | nil =>
    cases h
    exact ⟨[], [], by rw [List.append_nil]; rfl, rfl, nofun⟩
  | cons creq reqs ih =>
    rw [inTurn, List.foldlM_cons, Option.bind_eq_bind, Option.bind_eq_some_iff] at h
    obtain ⟨sh₁, hsh₁, h⟩ := h
    let started := s.calls ++ [⟨creq, d creq, .start⟩]
    have hlt : s.calls.length < started.length := by simp [started]
    obtain ⟨n, ok, hexec⟩ := exec_alone hlt hsh₁
    have hset : ∀ pc, started.set s.calls.length ⟨creq, d creq, pc⟩ =
        s.calls ++ [⟨creq, d creq, pc⟩] := by
      intro pc
      simp [started]
    rw [hset, hset] at hexec
    obtain ⟨as, calls, has, hcalls, hdone⟩ :=
      @ih ⟨sh₁, s.calls ++ [⟨creq, d creq, .done ok⟩]⟩ h
    refine ⟨.start creq (d creq) :: (List.replicate n (.run s.calls.length) ++ as),
      ⟨creq, d creq, .done ok⟩ :: calls, ?_, ?_, ?_⟩
    · have hstart : (validations deadlineLimit).step s (.start creq (d creq)) =
          some ⟨s.shared, started⟩ := rfl
      rw [System.exec_cons, hstart, Option.bind_some, System.exec_append, hexec, Option.bind_some,
        has, List.append_assoc, List.singleton_append]
    · rw [List.map_cons, hcalls]
    · rw [List.forall_mem_cons]
      exact ⟨rfl, hdone⟩

/-! ## Any schedule -/

/-- **Neither the order of the requests for a block nor their batches matter.** Whatever the
    batches that the requests `reqs` are split into, whatever fills them up and whatever their
    order: they are all validated; each request gets the reply for the deadline it has alone;
    a round for the height of the block has, in the end, the least of its deadline and of the
    deadlines within the limit of its account, which is passed on, as the last and least one,
    if it is below the former; the other rounds stay as they are, and nothing is passed on for
    their accounts. -/
theorem validateBatches_settles (b : Build) (x : MShabal H b.parallelValidations)
    (poc2StartHeight deadlineLimit : UInt64) {block : Block} (hscoop : block.scoop < 4096)
    (hbase : block.baseTarget ≠ 0) {reqs : List CalcDeadlineReq}
    (hcarries : ∀ creq ∈ reqs, creq.Carries block)
    (hsession : ∀ creq ∈ reqs, ∃ s, creq.session = some s)
    {batches : List (Batch b.parallelValidations)} (hfilled : ∀ batch ∈ batches, batch.FilledUp)
    (hreqs : (batches.flatMap Batch.lanes).Perm reqs) {sh : Shared} (hrest : sh.miners.AtRest) :
    ∃ sh' replies fs,
      validateBatches b x poc2StartHeight deadlineLimit batches sh = some sh' ∧
      sh'.writes = sh.writes ++ replies ∧
      (batches.flatMap Batch.lanes).map (reply deadlineLimit (ownDeadline H poc2StartHeight)) =
        replies.map some ∧
      sh'.forwarded = sh.forwarded ++ fs ∧
      sh'.miners.table = sh.miners.table ∧
      (∀ a, sh.miners.getMinerRound a = none → deadlinesOf fs a = []) ∧
      ∀ a p, sh.miners.getMinerRound a = some p →
        let round := sh.miners.rounds p
        let best := (accepted deadlineLimit (ownDeadline H poc2StartHeight) reqs a
          block.height).foldl min round.deadline
        sh'.miners.rounds p =
            (if round.height = block.height then { round with deadline := best } else round) ∧
          (deadlinesOf fs a).min? =
            if round.height = block.height ∧ best < round.deadline then some best else none := by
  have hlanes : ∀ {creq}, creq ∈ batches.flatMap Batch.lanes → creq ∈ reqs :=
    fun h => hreqs.mem_iff.mp h
  obtain ⟨sh', hsh', hsettled⟩ := @settled_inTurn deadlineLimit (ownDeadline H poc2StartHeight) _
    (fun creq h => hsession creq (hlanes h)) _ hrest
  obtain ⟨replies, hwrites, hreplies⟩ := hsettled.writes
  obtain ⟨fs, hfs, hnone, hsome⟩ := hsettled.forwarded
  refine ⟨sh', replies, fs, ?_, hwrites, hreplies, hfs, hsettled.table_eq, hnone,
    fun a p hp => ?_⟩
  · rw [validateBatches_eq hfilled (fun creq h => hcarries creq (hlanes h)) hscoop hbase, hsh']
  · intro round best
    have hround := hsettled.rounds a p hp
    have hdeadlines := hsome a p hp
    dsimp only at hround hdeadlines
    by_cases hheight : round.height = block.height
    · have hbest : (accepted deadlineLimit (ownDeadline H poc2StartHeight)
          (batches.flatMap Batch.lanes) a block.height).foldl min round.deadline = best :=
        foldl_min_perm (accepted_perm hreqs a block.height) round.deadline
      rw [hround, hdeadlines, min?_improvements, hheight, hbest, if_pos rfl]
      simp only [true_and]
      exact ⟨rfl, rfl⟩
    · have hnil : accepted deadlineLimit (ownDeadline H poc2StartHeight)
          (batches.flatMap Batch.lanes) a round.height = [] :=
        accepted_eq_nil (fun creq h => (hcarries creq (hlanes h)).height_eq) hheight a
      rw [hround, hdeadlines, hnil, if_neg hheight, if_neg fun h => hheight h.1]
      exact ⟨rfl, rfl⟩

/-! ## Two accounts -/

/-- The request for a nonce of an account. -/
def nonceOf (accountId nonce : UInt64) (id : ℕ) : CalcDeadlineReq :=
  { someRequest nonce id with accountId := accountId }

/-- Two nonces of each of two accounts, in two batches. -/
def twoBatches : List (Batch 4) :=
  [⟨#v[nonceOf 7 20 0, nonceOf 8 30 1, requestAt 9, requestAt 9], 2⟩,
    ⟨#v[nonceOf 7 12 2, nonceOf 8 200 3, requestAt 9, requestAt 9], 2⟩]

/-- They come in in another order. -/
def fourNonces : List CalcDeadlineReq :=
  [nonceOf 8 200 3, nonceOf 7 12 2, nonceOf 7 20 0, nonceOf 8 30 1]

/-- The miners of the accounts. -/
def twoMiners : Shared := { miners := (Miners.cacheMiners {} 5 (some ⟨[(7, 9), (8, 9)], false⟩)).2 }

/-- Makes the last byte of a nonce its deadline. -/
def lastByte : List UInt8 → Vector UInt8 32 := echo fun seed => seed.getD 15 0

theorem ownDeadline_fourNonces :
    ∀ creq ∈ fourNonces, ownDeadline lastByte 0 creq = (byteAt creq.nonce 0).toUInt64 := by
  have h : ∀ creq ∈ fourNonces, (lane creq).Valid ∧ creq.baseTarget = 1 := by decide +kernel
  intro creq hcreq
  obtain ⟨hvalid, hbase⟩ := h creq hcreq
  calc ownDeadline lastByte 0 creq = (byteAt creq.nonce 0).toUInt64 / creq.baseTarget :=
        deadline_echo _ hvalid
    _ = (byteAt creq.nonce 0).toUInt64 := by rw [hbase, UInt64.div_one]

theorem filledUp_twoBatches : ∀ batch ∈ twoBatches, batch.FilledUp := by
  intro batch hbatch
  have h : (0 < batch.pending ∧ batch.pending ≤ 4) ∧ ∀ k : Fin 4, batch.pending ≤ k →
      (lane (batch.creqs.get k)).scoopNr < 4096 ∧ (lane (batch.creqs.get k)).baseTarget ≠ 0 := by
    revert batch
    decide +kernel
  exact ⟨h.1.1, h.1.2, fun k hk => ⟨(h.2 k hk).1, (h.2 k hk).2⟩⟩

/-- The account 7 gets the deadline 12, the account 8 the deadline 30; its other one is above the
    limit. -/
theorem validateBatches_settles_two : ∃ sh',
    validateBatches .sse4 (.recording lastByte 4) 0 100 twoBatches twoMiners = some sh' ∧
    (sh'.writes.map fun r => (r.1, r.2.status)) =
      [(0, .ok), (1, .ok), (2, .ok), (3, .badRequest)] ∧
    ((deadlinesOf sh'.forwarded 7).min? = some 12 ∧ (sh'.miners.rounds 0).deadline = 12) ∧
    (deadlinesOf sh'.forwarded 8).min? = some 30 ∧ (sh'.miners.rounds 1).deadline = 30 := by
  have hcached : twoMiners.miners.Cached 5 :=
    @Miners.cached_cacheMiners 5 (some ⟨[(7, 9), (8, 9)], false⟩) _ rfl
  have hcarries : ∀ creq ∈ fourNonces, creq.Carries ⟨5, 1, 0, Vector.replicate 32 0⟩ := by
    simp only [fourNonces, List.forall_mem_cons]
    exact ⟨⟨rfl, rfl, rfl, rfl⟩, ⟨rfl, rfl, rfl, rfl⟩, ⟨rfl, rfl, rfl, rfl⟩, ⟨rfl, rfl, rfl, rfl⟩,
      nofun⟩
  have hsession : ∀ creq ∈ fourNonces, ∃ s, creq.session = some s := by
    simp only [fourNonces, List.forall_mem_cons]
    exact ⟨⟨_, rfl⟩, ⟨_, rfl⟩, ⟨_, rfl⟩, ⟨_, rfl⟩, nofun⟩
  have hperm : (twoBatches.flatMap Batch.lanes).Perm fourNonces := by decide +kernel
  obtain ⟨sh', replies, fs, hsh', hwrites, hreplies, hfs, -, -, hround⟩ :=
    validateBatches_settles .sse4 (.recording lastByte 4) 0 100 (by decide) (by decide) hcarries
      hsession filledUp_twoBatches hperm (atRest_of_cached hcached)
  refine ⟨sh', hsh', ?_, ?_⟩
  · have hreply : (twoBatches.flatMap Batch.lanes).map (reply 100 (ownDeadline lastByte 0)) =
        (twoBatches.flatMap Batch.lanes).map (reply 100 fun creq =>
          (byteAt creq.nonce 0).toUInt64) :=
      List.map_congr_left fun creq hcreq =>
        reply_congr (ownDeadline_fourNonces creq (hperm.mem_iff.mp hcreq))
    have hstatus : (replies.map some).map (Option.map fun r => (r.1, r.2.status)) =
        [(0, .ok), (1, .ok), (2, .ok), (3, .badRequest)].map some := by
      rw [← hreplies]
      exact (congrArg _ hreply).trans (by decide +kernel)
    rw [hwrites]
    refine List.map_injective_iff.mpr (Option.some_injective _) ((?_ : _ = _).trans hstatus)
    rw [List.map_map, List.map_map]
    rfl
  · -- The round of an account has its least deadline.
    have hleast : ∀ a p best, twoMiners.miners.getMinerRound a = some p →
        (accepted 100 (fun creq => (byteAt creq.nonce 0).toUInt64) fourNonces a 5).foldl min
          (twoMiners.miners.rounds p).deadline = best →
        (twoMiners.miners.rounds p).height = 5 ∧ best < (twoMiners.miners.rounds p).deadline →
          (deadlinesOf sh'.forwarded a).min? = some best ∧
            (sh'.miners.rounds p).deadline = best := by
      intro a p best hp hbest hlt
      obtain ⟨hrounds, hdeadlines⟩ := hround a p hp
      rw [accepted_congr ownDeadline_fourNonces, hbest] at hrounds hdeadlines
      rw [hfs, hrounds, if_pos hlt.1]
      exact ⟨hdeadlines.trans (if_pos hlt), rfl⟩
    exact ⟨hleast 7 0 12 (by decide +kernel) (by decide +kernel) (by decide +kernel),
      hleast 8 1 30 (by decide +kernel) (by decide +kernel) (by decide +kernel)⟩

end DeadlineRequestHandler

end BurstPoolNode

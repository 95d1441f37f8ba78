import BurstPoolNode.Node.Completion

/-!
# What the node tells

The deadlines that the node tells to the miners, and those that it passes on to
the pools, are those of the requests that it posted.

* `DeadlineRequestHandler.RepliesInv`: the validations write and pass on what
  they are started with (`Validations.told`), on the right side of the limit;
* `Computed`: a request is in a lane of a posted batch, and its deadline is the
  one computed for that lane;
* `truthful`: what is told is what is computed, in every run of the node.
-/

namespace BurstPoolNode

open DeadlineRequestHandler Burstmath

namespace DeadlineRequestHandler

variable {deadlineLimit : UInt64}

/-- The requests that are validated, each with its deadline. -/
def Validations.told (s : Validations) : List (CalcDeadlineReq × UInt64) :=
  s.calls.map fun v => (v.creq, v.deadline)

/-- On which side of the limit the deadline is, once it is compared. -/
def Validation.Compared (deadlineLimit : UInt64) (v : Validation) : Prop :=
  match v.pc with
  | .start => True
  | .writeError => deadlineLimit < v.deadline
  | .done false => deadlineLimit < v.deadline
  | _ => v.deadline ≤ deadlineLimit

/-- The response to a request with its deadline. -/
def replyTo (deadlineLimit : UInt64) (p : CalcDeadlineReq × UInt64) (s : Session) : Response :=
  if p.2 ≤ deadlineLimit then success p.2 s else limitError s

/-- The invariant of what the validations write. -/
structure RepliesInv (deadlineLimit : UInt64) (s : Validations) : Prop where
  compared : ∀ v ∈ s.calls, v.Compared deadlineLimit
  replies : ∀ r ∈ s.shared.writes, ∃ p ∈ s.told, ∃ ss, p.1.session = some ss ∧
    r = (ss.id, replyTo deadlineLimit p ss)

section

variable {i : ℕ} {v : Validation} {sh sh' : Shared} {pc : Pc}

theorem Validation.Next.compared (h : v.Next deadlineLimit i sh pc sh')
    (hv : v.Compared deadlineLimit) : Validation.Compared deadlineLimit { v with pc } := by
  rw [Validation.Compared] at hv
  cases h with
  | aboveLimit _ hlt => exact hlt
  | belowLimit _ hle => exact UInt64.not_lt.mp hle
  | _ hpc =>
    rw [hpc] at hv
    exact hv

/-- What a step writes is the response to the request and its deadline. -/
theorem Validation.Next.replies (h : v.Next deadlineLimit i sh pc sh')
    (hv : v.Compared deadlineLimit) : ∀ r ∈ sh'.writes, r ∈ sh.writes ∨
      ∃ ss, v.creq.session = some ss ∧
        r = (ss.id, replyTo deadlineLimit (v.creq, v.deadline) ss) := by
  rw [Validation.Compared] at hv
  intro r hr
  cases h with
  | writeError hpc hs =>
    rw [hpc] at hv
    rcases List.mem_append.mp hr with hr | hr
    · exact .inl hr
    · refine .inr ⟨_, hs, (List.mem_singleton.mp hr).trans ?_⟩
      rw [replyTo, if_neg (UInt64.not_le.mpr hv)]
  | writeOk hpc hs =>
    rw [hpc] at hv
    rcases List.mem_append.mp hr with hr | hr
    · exact .inl hr
    · refine .inr ⟨_, hs, (List.mem_singleton.mp hr).trans ?_⟩
      rw [replyTo, if_pos hv]
  | _ => exact .inl hr

end

theorem step_told {s t : Validations} {a : Action}
    (hst : (validations deadlineLimit).step s a = some t) :
    (∃ creq deadline, a = .start creq deadline ∧ t.told = s.told ++ [(creq, deadline)]) ∨
      (∃ i, a = .run i) ∧ t.told = s.told := by
  rcases step_cases hst with ⟨creq, deadline, rfl, rfl⟩ | ⟨i, v, pc, sh, rfl, hv, -, rfl⟩
  · exact .inl ⟨creq, deadline, rfl, List.map_append⟩
  · refine .inr ⟨⟨i, rfl⟩, ?_⟩
    exact map_set_of_eq (y := { v with pc := pc })
      (fun v : Validation => (v.creq, v.deadline)) hv rfl

theorem step_repliesInv {s t : Validations} {a : Action} (h : RepliesInv deadlineLimit s)
    (hst : (validations deadlineLimit).step s a = some t) : RepliesInv deadlineLimit t := by
  have htold : ∀ p ∈ s.told, p ∈ t.told := fun p hp => by
    rcases step_told hst with ⟨creq, deadline, -, heq⟩ | ⟨-, heq⟩
    · exact heq ▸ List.mem_append_left _ hp
    · exact heq ▸ hp
  rcases step_cases hst with ⟨creq, deadline, -, rfl⟩ | ⟨i, v, pc, sh, -, hv, hnext, rfl⟩
  · refine ⟨fun v hv => ?_, fun r hr => ?_⟩
    · rcases List.mem_append.mp hv with hv | hv
      · exact h.compared v hv
      · rw [List.mem_singleton.mp hv]
        trivial
    · obtain ⟨p, hp, hreply⟩ := h.replies r hr
      exact ⟨p, htold p hp, hreply⟩
  · have hmem := List.mem_of_getElem? hv
    have hcompared := h.compared v hmem
    refine ⟨fun w hw => ?_, fun r hr => ?_⟩
    · rcases List.mem_or_eq_of_mem_set hw with hw | rfl
      · exact h.compared w hw
      · exact hnext.compared hcompared
    · rcases hnext.replies hcompared r hr with hr | hreply
      · obtain ⟨p, hp, hreply⟩ := h.replies r hr
        exact ⟨p, htold p hp, hreply⟩
      · exact ⟨_, htold _ (List.mem_map_of_mem hmem), hreply⟩

theorem reachable_repliesInv {s : Validations}
    (h : (validations deadlineLimit).Reachable System.Any s) : RepliesInv deadlineLimit s := by
  refine h.invariant (fun s hs => ?_) fun _ _ _ hs _ hst => step_repliesInv hs hst
  obtain ⟨height, res, miners, -, rfl⟩ := hs
  exact ⟨by simp, by simp⟩

/-- What is passed on is a request that is validated, with its deadline. -/
theorem told_of_forwarded {s : Validations}
    (h : (validations deadlineLimit).Reachable System.Any s) :
    ∀ f ∈ s.shared.forwarded, ∃ p ∈ s.told, p.2 ≤ deadlineLimit ∧
      f = (p.1.recipId, ⟨p.1.accountId, p.1.nonce, p.2, p.1.height⟩) := by
  intro f hf
  obtain ⟨i, v, hv, hbacks, hle, -⟩ := (reachable_inv h).backed f hf
  exact ⟨_, List.mem_map_of_mem (List.mem_of_getElem? hv), hle, hbacks⟩

end DeadlineRequestHandler

namespace Node

variable {F : Type} {b : Build}

/-- The request is in a lane of a posted batch, and its deadline is the one of that lane: of
    the plot of the version that the first request of the batch asks for. -/
def Computed (e : Environment F b) (n : Node F b) (p : CalcDeadlineReq × UInt64) : Prop :=
  ∃ batch ∈ n.batches, p.1 ∈ batch.lanes ∧
    laneDeadline e.H (decide (e.cfg.poc2StartHeight ≤ (batch.creqs.get 0).height)) (lane p.1) =
      some p.2

/-- The invariant of the deadlines. -/
structure TruthInv (e : Environment F b) (n : Node F b) : Prop where
  deadlines : ∀ task ∈ n.tasks, ∀ ds ∈ task.deadlines,
    DeadlineRequestHandler.deadlines b e.shabal e.cfg.poc2StartHeight task.batch.creqs = some ds
  told : ∀ p ∈ n.validations.told, Computed e n p

variable [Zero F] [One F] [Sub F] [Mul F] [Div F] [LT F] [DecidableLT F]
  {e : Environment F b} {n m : Node F b} {a : Action F}

theorem Computed.step {p : CalcDeadlineReq × UInt64} (h : Computed e n p)
    (hst : (node e).step n a = some m) : Computed e m p := by
  obtain ⟨batch, hbatch, hlane⟩ := h
  refine ⟨batch, ?_, hlane⟩
  rcases step_batches hst with ⟨-, heq⟩ | ⟨-, heq⟩
  · exact heq ▸ List.mem_append_left _ hbatch
  · exact heq ▸ hbatch

omit [Zero F] [One F] [Sub F] [Mul F] [Div F] [LT F] [DecidableLT F] in
/-- The deadline that a validation is started with is that of its lane. -/
theorem computed_of_task (h : TruthInv e n) {task : Task b.parallelValidations}
    (htask : task ∈ n.tasks) {ds : Vector UInt64 b.parallelValidations}
    (hds : task.deadlines = some ds) (hnext : task.next < task.batch.pending)
    {creq : CalcDeadlineReq} (hcreq : task.batch.creqs[task.next]? = some creq)
    {deadline : UInt64} (hdeadline : ds[task.next]? = some deadline) :
    Computed e n (creq, deadline) := by
  obtain ⟨hlt, rfl⟩ := Vector.getElem?_eq_some_iff.mp hcreq
  obtain ⟨-, rfl⟩ := Vector.getElem?_eq_some_iff.mp hdeadline
  refine ⟨task.batch, List.mem_map_of_mem htask, ?_, ?_⟩
  · refine List.mem_of_getElem? (i := task.next) ?_
    rw [Batch.lanes, List.getElem?_take_of_lt hnext, Vector.getElem?_toList]
    exact hcreq
  · exact (deadlines_eq_some_iff b e.shabal e.cfg.poc2StartHeight _ ds).mp
      (h.deadlines task htask ds hds) ⟨task.next, hlt⟩

theorem step_truthInv (h : TruthInv e n) (hst : (node e).step n a = some m) : TruthInv e m := by
  have hkept : ∀ p ∈ n.validations.told, Computed e m p := fun p hp => (h.told p hp).step hst
  cases step_cases hst with
  | post =>
    refine ⟨fun task htask ds hds => ?_, hkept⟩
    rcases List.mem_append.mp htask with htask | htask
    · exact h.deadlines task htask ds hds
    · rw [List.mem_singleton.mp htask] at hds
      cases hds
  | @compute k task ds htask hnone hds =>
    refine ⟨fun task₁ h₁ ds₁ hds₁ => ?_, hkept⟩
    rcases List.mem_or_eq_of_mem_set h₁ with h₁ | rfl
    · exact h.deadlines task₁ h₁ ds₁ hds₁
    · exact Option.some.inj hds₁ ▸ hds
  | @validate k task ds creq deadline htask hds hnext hidle hcreq hdeadline =>
    have hmem := List.mem_of_getElem? htask
    have hcomputed := computed_of_task h hmem hds hnext hcreq hdeadline
    refine ⟨fun task₁ h₁ ds₁ hds₁ => ?_, fun p hp => ?_⟩
    · rcases List.mem_or_eq_of_mem_set h₁ with h₁ | rfl
      · exact h.deadlines task₁ h₁ ds₁ hds₁
      · exact h.deadlines task hmem ds₁ hds₁
    · rw [validations, Validations.told, List.map_append] at hp
      rcases List.mem_append.mp hp with hp | hp
      · exact hkept p hp
      · rw [List.map_singleton, List.mem_singleton] at hp
        exact hp ▸ hcomputed.step hst
  | @run i v hv =>
    refine ⟨h.deadlines, fun p hp => ?_⟩
    rcases step_told hv with ⟨creq, deadline, hstart, -⟩ | ⟨-, heq⟩
    · cases hstart
    · exact hkept p (heq ▸ hp)
  | _ => exact ⟨h.deadlines, hkept⟩

theorem reachable_truthInv (h : (node e).Reachable System.Any n) : TruthInv e n := by
  refine h.invariant (fun n hn => ?_) fun _ _ _ hn _ hst => step_truthInv hn hst
  obtain ⟨mem, t, w, reqs, -, -, rfl⟩ := init_eq hn
  exact ⟨by simp, by simp [validations, Validations.told]⟩

/-- Every response of a validation and every nonce passed on to a pool has the deadline of its
    request, and is on the right side of the limit. -/
def Truthful (e : Environment F b) (n : Node F b) : Prop :=
  (∀ r ∈ n.written, ∃ p ss, Computed e n p ∧ p.1.session = some ss ∧
    r = (ss.id, replyTo e.cfg.deadlineLimit p ss)) ∧
  ∀ f ∈ n.forwarded, ∃ p, Computed e n p ∧ p.2 ≤ e.cfg.deadlineLimit ∧
    f = (p.1.recipId, ⟨p.1.accountId, p.1.nonce, p.2, p.1.height⟩)

theorem truthful (h : (node e).Reachable System.Any n) : Truthful e n := by
  have hinv := reachable_truthInv h
  have hvalidations := reachable_validations h
  refine ⟨fun r hr => ?_, fun f hf => ?_⟩
  · obtain ⟨p, hp, ss, hreply⟩ := (reachable_repliesInv hvalidations).replies r hr
    exact ⟨p, ss, hinv.told p hp, hreply⟩
  · obtain ⟨p, hp, hle, heq⟩ := told_of_forwarded hvalidations f hf
    exact ⟨p, hinv.told p hp, hle, heq⟩

/-- A nonce is accepted and passed on, another one is above the limit. -/
theorem truthful_validated : ∃ n : Node ℚ .sse4, (node oneAccount).Reachable System.Any n ∧
    n.written = [(1, success 100 ⟨1, nonceReq⟩), (2, limitError ⟨2, nonceReq⟩)] ∧
      n.forwarded = [(9, ⟨7, 1, 100, 5⟩)] ∧ Truthful oneAccount n := by
  obtain ⟨n, hreach, -, hwritten, hforwarded⟩ := exists_validated
  exact ⟨n, hreach.any, hwritten, hforwarded, truthful hreach.any⟩

end Node

end BurstPoolNode

import BurstPoolNode.Node.Answers
import BurstPoolNode.Node.Divisor

/-!
# Completion

What becomes of the requests that came in: each is answered once, unless the
process crashes.

The threads of the pool come to the end of the posted batches, since every step
of theirs leaves less to do (`work`), and as long as a posted request is not
answered, one of them has a step to take. What can be in the way is a lane that
cannot be computed: the batch it is posted in is the end of the process.

* `exec_work`: the steps of the pool, against the work that is posted;
* `exists_step_pool`: the step that a posted request waits for;
* `count_answered_of_stuck`: when the pool has no step left, what was posted is answered;
* `crash_of_not_computes`: the end of the process;
* `accounted`: every request is answered once as long as no batch is posted with
  a lane that cannot be computed (`Computes`), and no longer.
-/

namespace BurstPoolNode

open DeadlineRequestHandler

/-! ## Work -/

/-- A bound on the steps of the pool that a batch takes. -/
def DeadlineRequestHandler.Batch.cost {k : ℕ} (batch : Batch k) : ℕ :=
  1 + 9 * batch.pending

/-- A bound on the steps that a task still takes, apart from those of its validations. -/
def Task.work {k : ℕ} (task : Task k) : ℕ :=
  (if task.deadlines = none then 1 else 0) + 9 * (task.batch.pending - task.next)

namespace Node

variable {F : Type} {b : Build}

/-- A bound on the steps that the pool still takes for what is posted. -/
def work (n : Node F b) : ℕ :=
  (n.tasks.map Task.work).sum + (n.calls.map fun v => v.pc.toDone).sum

/-- The cost of all that has been posted. -/
def cost (n : Node F b) : ℕ := (n.batches.map Batch.cost).sum

/-- The steps of the threads of the pool count. -/
def Action.pool : Action F → ℕ
  | .compute _ | .validate _ | .run _ => 1
  | _ => 0

/-- The number of steps of the pool in a run. -/
def poolSteps (as : List (Action F)) : ℕ := (as.map Action.pool).sum

variable [Zero F] [One F] [Sub F] [Mul F] [Div F] [LT F] [DecidableLT F]
  {e : Environment F b} {n m : Node F b} {a : Action F}

theorem cost_of_not_posts (hst : (node e).step n a = some m) (ha : ¬n.Posts a) :
    m.cost = n.cost := by
  rcases step_batches hst with ⟨hposts, -⟩ | ⟨-, heq⟩
  · exact absurd hposts ha
  · rw [cost, heq, cost]

/-- A step of the pool leaves less to do, and a post adds its cost. -/
theorem step_work (hst : (node e).step n a = some m) (halive : m.crashed = false) :
    a.pool + m.work + n.cost ≤ n.work + m.cost := by
  have hcost := cost_of_not_posts hst
  cases step_cases hst with
  | post =>
    simp only [Action.pool, work, cost, batches, List.map_append, List.map_cons, List.map_nil,
      List.sum_append, List.sum_cons, List.sum_nil, Task.work, Batch.cost, if_true]
    omega
  | @compute k task ds htask hnone =>
    have hwork := sum_map_set Task.work htask { task with deadlines := some ds }
    rw [hcost id]
    simp only [Task.work, hnone, if_true, reduceCtorEq, if_false] at hwork
    simp only [Action.pool, work]
    omega
  | crash => cases halive
  | @validate k task ds creq deadline htask hds hnext =>
    -- A lane less is waiting, and its validation has eight steps.
    have hwork := sum_map_set Task.work htask
      { task with next := task.next + 1, running := some n.calls.length }
    have hlane : Task.work { task with next := task.next + 1, running := some n.calls.length } + 9 =
        task.work := by
      simp only [Task.work]
      omega
    have hstart : Pc.start.toDone = 8 := rfl
    rw [hcost id]
    simp only [Action.pool, work, List.map_append, List.map_cons, List.map_nil, List.sum_append,
      List.sum_cons, List.sum_nil, hstart]
    omega
  | @run i v hv =>
    obtain ⟨_, _, hj, _⟩ | ⟨j, w, pc, sh, hj, hw, hnext, rfl⟩ :=
      DeadlineRequestHandler.step_cases hv
    · cases hj
    · cases hj
      have hlt := hnext.toDone_lt
      have hcalls := sum_map_set (fun v : Validation => v.pc.toDone) hw { w with pc := pc }
      rw [hcost id]
      simp only [validations] at hcalls
      simp only [Action.pool, work, setValidations, validations]
      omega
  | _ => exact (Nat.add_assoc 0 n.work n.cost).trans_le (Nat.zero_add _).le

theorem alive_of_exec {as : List (Action F)} (hst : (node e).exec n as = some m)
    (halive : m.crashed = false) : n.crashed = false := by
  cases as with
  | nil => exact Option.some.inj hst ▸ halive
  | cons a as =>
    rw [System.exec_cons, Option.bind_eq_some_iff] at hst
    obtain ⟨t, ht, -⟩ := hst
    exact alive_of_step ht

/-- In a run, the pool takes no more steps than there was work, and has been posted since. -/
theorem exec_work {as : List (Action F)} (hst : (node e).exec n as = some m)
    (halive : m.crashed = false) : poolSteps as + m.work + n.cost ≤ n.work + m.cost := by
  induction as generalizing n with
  | nil =>
    obtain rfl := Option.some.inj hst
    exact (Nat.add_assoc 0 n.work n.cost).trans_le (Nat.zero_add _).le
  | cons a as ih =>
    rw [System.exec_cons, Option.bind_eq_some_iff] at hst
    obtain ⟨t, ht, hst⟩ := hst
    have hfirst := step_work ht (alive_of_exec hst halive)
    have hrest := ih hst
    rw [poolSteps] at hrest
    rw [poolSteps, List.map_cons, List.sum_cons]
    omega

/-! ## Steps of the pool -/

/-- A validation that is not done has a next step, which brings it closer to its end. -/
theorem exists_step_run (h : (node e).Reachable System.Any n) (halive : n.crashed = false) {i : ℕ}
    {v : Validation} (hv : n.calls[i]? = some v) (hdone : v.pc.isDone = false) :
    ∃ m w, (node e).step n (.run i) = some m ∧ m.calls[i]? = some w ∧
      w.pc.toDone < v.pc.toDone := by
  have hcreq : v.creq ∈ n.tasks.flatMap Task.validated :=
    (reachable_taskInv h).calls_perm.subset (List.mem_map_of_mem (List.mem_of_getElem? hv))
  obtain ⟨task, htask, hcreq⟩ := List.mem_flatMap.mp hcreq
  obtain ⟨s, hs⟩ := (reachable_sessions h).lanes _ (List.mem_map_of_mem htask) _
    (List.mem_of_mem_take hcreq)
  obtain ⟨r, hr⟩ := v.exists_next hs hdone e.cfg.deadlineLimit i n.validations.shared
  refine ⟨n.setValidations ⟨r.2, n.calls.set i { v with pc := r.1 }⟩, { v with pc := r.1 }, ?_, ?_,
    (Validation.next_cases hr).toDone_lt⟩
  · have hcalls : n.validations.calls[i]? = some v := hv
    rw [step_of_alive halive]
    simp only [act, DeadlineRequestHandler.validations, bind, hcalls, Option.bind_some, hr]
    rfl
  · exact List.getElem?_set_self (List.getElem?_eq_some_iff.mp hv).1

/-- A task whose lanes can be computed has its deadlines computed. -/
theorem exists_step_compute (halive : n.crashed = false) {k : ℕ} {task : Task b.parallelValidations}
    (htask : n.tasks[k]? = some task) (hnone : task.deadlines = none)
    (hcomputable : ∀ i, (lane (task.batch.creqs.get i)).Computable) :
    ∃ ds, (node e).step n (.compute k) =
      some { n with tasks := n.tasks.set k { task with deadlines := some ds } } := by
  obtain ⟨ds, hds⟩ : ∃ ds, deadlines b e.shabal e.cfg.poc2StartHeight task.batch.creqs = some ds :=
    exists_deadlines_iff.mpr hcomputable
  refine ⟨ds, ?_⟩
  rw [step_of_alive halive]
  simp only [act, bind, htask, hds, Option.bind_some, if_pos hnone]

/-- With its deadlines computed and the lane before done, a task has a next lane to validate. -/
theorem exists_step_validate (h : (node e).Reachable System.Any n) (halive : n.crashed = false)
    {k : ℕ} {task : Task b.parallelValidations} {ds : Vector UInt64 b.parallelValidations}
    (htask : n.tasks[k]? = some task) (hds : task.deadlines = some ds)
    (hnext : task.next < task.batch.pending) (hidle : n.idle task) :
    ∃ m, (node e).step n (.validate k) = some m := by
  have hlt : task.next < b.parallelValidations :=
    hnext.trans_le (pending_le_of_batches h _ (List.mem_map_of_mem (List.mem_of_getElem? htask)))
  have hcreq : task.batch.creqs[task.next]? = some task.batch.creqs[task.next] :=
    Vector.getElem?_eq_getElem hlt
  have hdeadline : ds[task.next]? = some ds[task.next] := Vector.getElem?_eq_getElem hlt
  rw [step_of_alive halive]
  simp only [act, bind, htask, hds, hcreq, hdeadline, Option.bind_some,
    if_pos (And.intro hnext hidle)]
  exact ⟨_, rfl⟩

/-- The requests of a task that is done are answered. -/
theorem count_answered (h : (node e).Reachable System.Any n) {task : Task b.parallelValidations}
    (htask : task ∈ n.tasks) (hnext : task.next = task.batch.pending) (hidle : n.idle task)
    {creq : CalcDeadlineReq} (hcreq : creq ∈ task.batch.lanes) :
    ∃ s, creq.session = some s ∧ n.answered.count s.id = 1 := by
  have hinv := reachable_taskInv h
  obtain ⟨s, hs⟩ := (reachable_sessions h).lanes _ (List.mem_map_of_mem htask) creq hcreq
  refine ⟨s, hs, ?_⟩
  have hvalidated : creq ∈ task.validated := by
    rw [Task.validated, hnext, Batch.lanes, List.take_take, Nat.min_self]
    exact hcreq
  obtain ⟨i, v, hv, rfl, hdone⟩ := hinv.isDone_of_idle htask hidle hvalidated
  have hwritten : s.id ∈ n.calls.flatMap Validation.responded := by
    refine List.mem_flatMap.mpr ⟨v, List.mem_of_getElem? hv, ?_⟩
    rw [Validation.responded, if_pos hdone, CalcDeadlineReq.ids, hs]
    exact List.mem_singleton_self _
  have hpos := List.count_pos_iff.mpr hwritten
  rw [← hinv.written] at hpos
  have hplaces := count_places_eq h s.id
  rw [count_places, List.count_range] at hplaces
  rw [answered, List.count_append]
  split_ifs at hplaces <;> omega

/-- The validation that a task is at has been started. -/
theorem reachable_running (h : (node e).Reachable System.Any n) :
    ∀ task ∈ n.tasks, ∀ i ∈ task.running, i < n.calls.length := by
  induction h with
  | init hs =>
    obtain ⟨mem, t, w, reqs, -, -, rfl⟩ := init_eq hs
    exact nofun
  | step _ _ hst ih =>
    cases step_cases hst with
    | post =>
      intro task htask
      rcases List.mem_append.mp htask with htask | htask
      · exact ih task htask
      · rw [List.mem_singleton.mp htask]
        exact nofun
    | @compute k task ds htask =>
      intro task₁ h₁
      rcases List.mem_or_eq_of_mem_set h₁ with h₁ | rfl
      · exact ih task₁ h₁
      · exact ih task (List.mem_of_getElem? htask)
    | validate =>
      intro task₁ h₁ i hi
      rw [List.length_append]
      rcases List.mem_or_eq_of_mem_set h₁ with h₁ | rfl
      · exact Nat.lt_succ_of_lt (ih task₁ h₁ i hi)
      · cases hi
        exact Nat.lt_succ_self _
    | run hv =>
      obtain ⟨_, _, hj, _⟩ | ⟨j, w, pc, sh, hj, hw, hnext, rfl⟩ :=
        DeadlineRequestHandler.step_cases hv
      · cases hj
      · intro task htask i hi
        rw [setValidations, List.length_set]
        exact ih task htask i hi
    | _ => exact ih

/-- As long as a posted request is not answered, and every batch can be computed, a thread of
    the pool has a step to take. -/
theorem exists_step_pool (h : (node e).Reachable System.Any n) (halive : n.crashed = false)
    (hcomputable : ∀ batch ∈ n.batches, ∀ i, (lane (batch.creqs.get i)).Computable)
    (hposted : n.posted ≠ []) : ∃ a m, Action.pool a = 1 ∧ (node e).step n a = some m := by
  by_contra hstuck
  push Not at hstuck
  have hcalls : ∀ (i : ℕ) (v : Validation), n.calls[i]? = some v → v.pc.isDone = true := by
    intro i v hv
    by_contra hdone
    obtain ⟨m, w, hst, -⟩ := exists_step_run h halive hv (eq_false_of_ne_true hdone)
    exact hstuck _ m rfl hst
  have htasks : ∀ task ∈ n.tasks, task.batch.pending ≤ task.next := by
    intro task htask
    obtain ⟨k, hk⟩ := List.mem_iff_getElem?.mp htask
    have hidle : n.idle task := by
      rw [idle]
      cases hrunning : task.running with
      | none => rfl
      | some i =>
        have hi := List.getElem?_eq_getElem (reachable_running h task htask i hrunning)
        simp only [hi, Option.any_some]
        exact hcalls i _ hi
    cases hds : task.deadlines with
    | none =>
      obtain ⟨ds, hst⟩ := exists_step_compute (e := e) halive hk hds
        (hcomputable _ (List.mem_map_of_mem htask))
      exact absurd hst (hstuck _ _ rfl)
    | some ds =>
      by_contra hnext
      obtain ⟨m, hst⟩ := exists_step_validate h halive hk hds (Nat.lt_of_not_le hnext) hidle
      exact hstuck _ m rfl hst
  refine hposted (List.append_eq_nil_iff.mpr ⟨?_, ?_⟩)
  · refine List.flatMap_eq_nil_iff.mpr fun task htask => ?_
    have hwaiting : task.waiting = [] := by
      refine List.drop_eq_nil_of_le (le_trans ?_ (htasks task htask))
      exact List.length_take_le ..
    rw [hwaiting, List.flatMap_nil]
  · refine List.flatMap_eq_nil_iff.mpr fun v hv => ?_
    obtain ⟨i, hi⟩ := List.mem_iff_getElem?.mp hv
    rw [Validation.unanswered, if_pos (hcalls i v hi)]

/-! ## The end of the process -/

/-- No batch is posted with a lane that cannot be computed. -/
def Computes (n : Node F b) (a : Action F) : Prop :=
  n.Posts a → ∀ i, (lane (n.distributor.reqs.get i)).Computable

instance (n : Node F b) (a : Action F) : Decidable (Computes n a) :=
  inferInstanceAs (Decidable (_ → _))

omit [Zero F] [One F] [Sub F] [Mul F] [Div F] [LT F] [DecidableLT F] in
/-- A step of the pool posts nothing. -/
theorem computes_of_pool (ha : a.pool = 1) : Computes n a := by
  cases a with
  | head => cases ha
  | _ => exact False.elim

/-- The pool leaves the queue and the slots as they are. -/
theorem exec_pool {as : List (Action F)} (hst : (node e).exec n as = some m)
    (has : ∀ a ∈ as, a.pool = 1) :
    m.sessions = n.sessions ∧ m.queued = n.queued ∧ m.collected = n.collected := by
  induction as generalizing n with
  | nil =>
    obtain rfl := Option.some.inj hst
    exact ⟨rfl, rfl, rfl⟩
  | cons a as ih =>
    rw [System.exec_cons, Option.bind_eq_some_iff] at hst
    obtain ⟨t, ht, hst⟩ := hst
    obtain ⟨hfirst, hrest⟩ := List.forall_mem_cons.mp has
    have hlater := ih hst hrest
    cases step_cases ht with
    | compute | crash | validate | run => exact hlater
    | _ => cases hfirst

/-- The invariant of the runs in which all batches can be computed. -/
structure ComputeInv (n : Node F b) : Prop where
  alive : n.crashed = false
  lanes : ∀ batch ∈ n.batches, ∀ i, (lane (batch.creqs.get i)).Computable

theorem step_computeInv (h : ComputeInv n) (ha : Computes n a)
    (hst : (node e).step n a = some m) : ComputeInv m := by
  refine ⟨?_, forall_batches_step h.lanes ha hst⟩
  cases step_cases hst with
  | crash htask hnone hds =>
    have hmem := List.mem_map_of_mem (f := Task.batch) (List.mem_of_getElem? htask)
    obtain ⟨ds, hsome⟩ := exists_deadlines_iff.mpr (h.lanes _ hmem)
    cases hds.symm.trans hsome
  | _ => exact h.alive

theorem reachable_computeInv (h : (node e).Reachable Computes n) : ComputeInv n := by
  refine h.invariant (fun n hn => ?_) fun _ _ _ h ha hst => step_computeInv h ha hst
  obtain ⟨mem, t, w, reqs, -, -, rfl⟩ := init_eq hn
  exact ⟨rfl, nofun⟩

/-- The process has crashed while a request was waiting for its answer. -/
structure Lost (e : Environment F b) (n : Node F b) : Prop where
  crashed : n.crashed = true
  stuck : ∀ a, (node e).step n a = none
  unanswered : ∃ id < n.sessions, id ∉ n.answered

/-- While a slot is taken, a request waits for its answer. -/
theorem exists_unanswered (h : (node e).Reachable System.Any n) (hpos : 0 < n.distributor.pending) :
    ∃ id < n.sessions, id ∉ n.answered := by
  have hmem : n.distributor.reqs.get 0 ∈ n.distributor.reqs.toList.take n.distributor.pending := by
    refine List.mem_of_getElem? (i := 0) ?_
    rw [List.getElem?_take_of_lt hpos, Vector.getElem?_toList]
    exact Vector.getElem?_eq_getElem (Nat.pos_of_neZero _)
  obtain ⟨s, hs⟩ := (reachable_sessions h).slots _ hmem
  have hcollected : 0 < n.collected.count s.id := by
    refine List.count_pos_iff.mpr (List.mem_flatMap.mpr ⟨_, hmem, ?_⟩)
    rw [CalcDeadlineReq.ids, hs]
    exact List.mem_singleton_self _
  have hplaces := count_places_eq h s.id
  rw [places, List.count_append, List.count_append, List.count_append, List.count_range] at hplaces
  split_ifs at hplaces with hlt
  · refine ⟨s.id, hlt, fun hanswered => ?_⟩
    have hcount : 0 < n.answered.count s.id := List.count_pos_iff.mpr hanswered
    omega
  · omega

/-- A task that cannot be computed is the end of the process. -/
theorem step_crash (halive : n.crashed = false) {k : ℕ} {task : Task b.parallelValidations}
    (htask : n.tasks[k]? = some task) (hnone : task.deadlines = none)
    (hds : deadlines b e.shabal e.cfg.poc2StartHeight task.batch.creqs = none) :
    (node e).step n (.compute k) = some { n with crashed := true } := by
  rw [step_of_alive halive]
  simp only [act, bind, htask, hds, Option.bind_some, if_pos hnone]

/-- A batch that is posted with a lane that cannot be computed is the end of the process when
    a thread takes it up. -/
theorem crash_of_not_computes (h : (node e).Reachable System.Any n) (ha : ¬Computes n a)
    (hst : (node e).step n a = some m) :
    ∃ k, (node e).step m (.compute k) = some { m with crashed := true } ∧
      Lost e { m with crashed := true } := by
  rw [Computes, Classical.not_imp] at ha
  obtain ⟨hposts, hlanes⟩ := ha
  cases a with
  | head =>
    have hnone : deadlines b e.shabal e.cfg.poc2StartHeight n.distributor.reqs = none := by
      rw [Option.eq_none_iff_forall_ne_some]
      exact fun ds hds => hlanes (exists_deadlines_iff.mp ⟨ds, hds⟩)
    cases step_cases hst with
    | post hplace hfull =>
      have hpos : 0 < n.distributor.pending := by
        rcases hfull with hfull | hfull
        · rw [hfull]
          exact Nat.pos_of_neZero _
        · exact hfull.1
      obtain ⟨id, hid, hanswered⟩ := exists_unanswered h hpos
      refine ⟨n.tasks.length, step_crash ?_ List.getElem?_concat_length rfl hnone, rfl,
        fun _ => step_of_crashed rfl, id, hid, hanswered⟩
      exact hposts.1
    | pass hplace hfull => exact absurd hposts.2.2 hfull
  | _ => exact hposts.elim

/-! ## One answer -/

theorem lt_sessions_of_mem (h : (node e).Reachable System.Any n) {id : ℕ} (hmem : id ∈ n.places) :
    id < n.sessions := by
  have hpos := List.count_pos_iff.mpr hmem
  rw [count_places_eq h, List.count_pos_iff, List.mem_range] at hpos
  exact hpos

/-- A request is in one place. -/
theorem count_one_place (h : (node e).Reachable System.Any n) {id : ℕ} (hid : id < n.sessions) :
    n.queued.count id + n.collected.count id + n.posted.count id + n.answered.count id = 1 := by
  have hcount := count_places_eq h id
  rw [List.count_range, if_pos hid, places, List.count_append, List.count_append,
    List.count_append] at hcount
  exact hcount

/-- When the pool has no step left, what was posted is answered. -/
theorem count_answered_of_stuck (h : (node e).Reachable Computes n) {as : List (Action F)}
    (hst : (node e).exec n as = some m) (has : ∀ a ∈ as, a.pool = 1)
    (hstuck : ∀ a : Action F, a.pool = 1 → (node e).step m a = none) {id : ℕ}
    (hid : id ∈ n.posted) : m.answered.count id = 1 := by
  obtain ⟨hsessions, hqueued, hcollected⟩ := exec_pool hst has
  have hm := h.exec_of (fun a ha _ => computes_of_pool (has a ha)) hst
  have hposted : m.posted = [] := by
    by_contra hposted
    have hinv := reachable_computeInv hm
    obtain ⟨a, t, ha, ht⟩ := exists_step_pool hm.any hinv.alive hinv.lanes hposted
    rw [hstuck a ha] at ht
    cases ht
  have hlt : id < n.sessions := by
    refine lt_sessions_of_mem h.any ?_
    exact List.mem_append_left _ (List.mem_append_right _ hid)
  have hbefore := count_one_place h.any hlt
  have hafter := count_one_place hm.any (hsessions ▸ hlt)
  have hpos := List.count_pos_iff.mpr hid
  rw [hqueued, hcollected, hposted, List.count_nil] at hafter
  omega

/-- What becomes of the requests that came in. -/
structure Accounted (e : Environment F b) (n : Node F b) : Prop where
  alive : n.crashed = false
  /-- A request is queued, in a slot, in a lane of a batch or answered, and that once. -/
  one_place : ∀ id < n.sessions,
    n.queued.count id + n.collected.count id + n.posted.count id + n.answered.count id = 1
  /-- Nobody else is answered. -/
  lt_sessions : ∀ id ∈ n.places, id < n.sessions
  /-- A poll has a slot to write to. -/
  slot : n.distributor.place = .poll → n.distributor.pending < b.parallelValidations
  /-- What is validated are lanes below `pending`, each of them once at most. -/
  validated : (n.calls.map Validation.creq).Perm (n.tasks.flatMap Task.validated)
  /-- The responses of the validations are those of the validations that are done. -/
  written : ∀ id, (n.written.map Prod.fst).count id =
    (n.calls.flatMap Validation.responded).count id
  /-- What is forwarded has been validated. -/
  forwarded : ∀ f ∈ n.forwarded, ∃ v ∈ n.calls,
    f = (v.creq.recipId, ⟨v.creq.accountId, v.creq.nonce, v.deadline, v.creq.height⟩)
  /-- Batches stay as they are posted. -/
  kept : ∀ as m, (node e).exec n as = some m → n.batches <+: m.batches
  /-- A request in a slot is posted after 51 failed polls at most. -/
  patience : ∀ as m j creq, n.InSlot j creq → (node e).exec n as = some m → m.crashed = false →
    51 ≤ failedPolls as →
      (∃ batch ∈ m.batches.drop n.batches.length, batch.Holds j creq) ∨
        m.distributor.place = .head ∧ ∃ t batch, (node e).step m .head = some t ∧
          t.batches = m.batches ++ [batch] ∧ batch.Holds j creq
  /-- A task has its deadlines computed, … -/
  compute : ∀ (k : ℕ) (task : Task b.parallelValidations), n.tasks[k]? = some task →
    task.deadlines = none → ∃ ds, (node e).step n (.compute k) =
      some { n with tasks := n.tasks.set k { task with deadlines := some ds } }
  /-- … once they are, it goes on from lane to lane, … -/
  validate : ∀ (k : ℕ) (task : Task b.parallelValidations)
    (ds : Vector UInt64 b.parallelValidations), n.tasks[k]? = some task →
      task.deadlines = some ds → task.next < task.batch.pending → n.idle task →
        ∃ m, (node e).step n (.validate k) = some m
  /-- … each validation goes on to its end, … -/
  run : ∀ (i : ℕ) (v : Validation), n.calls[i]? = some v → v.pc.isDone = false →
    ∃ m w, (node e).step n (.run i) = some m ∧ m.calls[i]? = some w ∧ w.pc.toDone < v.pc.toDone
  /-- … and the requests of a task that is done are answered, once each. -/
  done : ∀ task ∈ n.tasks, task.next = task.batch.pending → n.idle task →
    ∀ creq ∈ task.batch.lanes, ∃ s, creq.session = some s ∧ n.answered.count s.id = 1
  /-- While a posted request is not answered, a thread of the pool has a step to take, … -/
  progress : n.posted ≠ [] → ∃ a m, Action.pool a = 1 ∧ (node e).step n a = some m
  /-- … and whatever comes in meanwhile, the pool takes no more steps than there is work. -/
  ends : ∀ as m, (node e).exec n as = some m → m.crashed = false →
    poolSteps as + m.work + n.cost ≤ n.work + m.cost
  /-- When none is left, in whatever order they were taken, what was posted is answered, once. -/
  completed : ∀ as m, (node e).exec n as = some m → (∀ a ∈ as, Action.pool a = 1) →
    (∀ a, Action.pool a = 1 → (node e).step m a = none) → ∀ id ∈ n.posted, m.answered.count id = 1

theorem accounted_of_computes (h : (node e).Reachable Computes n) : Accounted e n where
  alive := (reachable_computeInv h).alive
  one_place _ hid := count_one_place h.any hid
  lt_sessions _ hmem := lt_sessions_of_mem h.any hmem
  slot := (reachable_slotInv h.any).lt
  validated := (reachable_taskInv h.any).calls_perm
  written := (reachable_taskInv h.any).written
  forwarded f hf := by
    obtain ⟨i, v, hv, heq, -⟩ := (reachable_inv (reachable_validations h.any)).backed f hf
    exact ⟨v, List.mem_of_getElem? hv, heq⟩
  kept _ _ hst := exec_batches hst
  patience _ _ _ _ hslot hst halive hpolls := posted_of_failedPolls h.any hslot hst halive hpolls
  compute _ _ htask hnone := by
    have hinv := reachable_computeInv h
    have hmem := List.mem_map_of_mem (f := Task.batch) (List.mem_of_getElem? htask)
    exact exists_step_compute hinv.alive htask hnone (hinv.lanes _ hmem)
  validate _ _ _ htask hds hnext hidle :=
    exists_step_validate h.any (reachable_computeInv h).alive htask hds hnext hidle
  run _ _ hv hdone := exists_step_run h.any (reachable_computeInv h).alive hv hdone
  done _ htask hnext hidle _ hcreq := count_answered h.any htask hnext hidle hcreq
  progress hposted := by
    have hinv := reachable_computeInv h
    exact exists_step_pool h.any hinv.alive hinv.lanes hposted
  ends _ _ hst halive := exec_work hst halive
  completed _ _ hst has hstuck _ hid := count_answered_of_stuck h hst has hstuck hid

/-- **Exactly one answer per request**, none lost, none duplicated, as long as no batch is posted
    with a lane that cannot be computed, and no longer. It holds in every state reached by such
    steps; after any other step, taking up the batch that it posts crashes the process, with a
    request that is never answered. -/
theorem accounted (e : Environment F b) :
    (∀ n, (node e).Reachable Computes n → Accounted e n) ∧
      ∀ n a m, (node e).Reachable System.Any n → ¬Computes n a → (node e).step n a = some m →
        ∃ k, (node e).step m (.compute k) = some { m with crashed := true } ∧
          Lost e { m with crashed := true } :=
  ⟨fun _ h => accounted_of_computes h, fun _ _ _ h ha hst => crash_of_not_computes h ha hst⟩

/-! ## A batch of two nonces -/

/-- The `k`-th batch of the node with the account 7, with its deadlines. -/
def computed (n : Node ℚ .sse4) (k : ℕ) : Node ℚ .sse4 :=
  { n with tasks := n.tasks.modify k fun task =>
    { task with deadlines := some (task.batch.creqs.map fun creq => 10000 / creq.baseTarget) } }

/-- It is computed next. -/
def Ready (n : Node ℚ .sse4) (k : ℕ) : Prop :=
  n.crashed = false ∧ ∃ task ∈ n.tasks[k]?, task.deadlines = none ∧
    ∀ i, (lane (task.batch.creqs.get i)).Valid

instance (n : Node ℚ .sse4) (k : ℕ) : Decidable (n.Ready k) :=
  inferInstanceAs (Decidable (_ ∧ _))

theorem step_of_ready {n : Node ℚ .sse4} {k : ℕ} (h : n.Ready k) :
    (node oneAccount).step n (.compute k) = some (n.computed k) := by
  obtain ⟨halive, task, htask, hnone, hvalid⟩ := h
  have hds : deadlines .sse4 oneAccount.shabal oneAccount.cfg.poc2StartHeight task.batch.creqs =
      some (task.batch.creqs.map fun creq => 10000 / creq.baseTarget) :=
    deadlines_of_const hvalid
  have hmodify : n.tasks.modify k (fun task =>
      { task with deadlines := some (task.batch.creqs.map fun creq => 10000 / creq.baseTarget) }) =
        n.tasks.set k { task with
          deadlines := some (task.batch.creqs.map fun creq => 10000 / creq.baseTarget) } := by
    rw [List.modify_eq_set_getElem?, Option.mem_def.mp htask]
    rfl
  rw [step_of_alive halive, computed, hmodify]
  simp only [act, bind, Option.mem_def.mp htask, hds, Option.bind_some, if_pos hnone]

/-- The request for a nonce of the account. -/
def nonceReq : Request :=
  ⟨"192.0.2.1", "203.0.113.7", "/burst?requestType=submitNonce&accountId=7&nonce=1", 11⟩

/-- A request for mining info, and two nonces: the base target is 5 when the second one comes. -/
def twoTargets : List (Action ℚ) :=
  [.request 100 ⟨"192.0.2.1", "203.0.113.7", "/burst?requestType=getMiningInfo", 11⟩,
      .request 100 nonceReq,
      .refresh ⟨Vector.replicate 32 0, []⟩ ⟨[Mining.infoText "6" "5"], true⟩,
      .request 110 nonceReq, .head, .poll (some 0), .head, .poll (some 0)] ++
    (List.replicate 51 [.head, .poll none]).flatten ++ [.head]

/-- Both are validated. Then another nonce is posted, and the next one found in the queue. -/
def validating : List (Action ℚ) :=
  .validate 0 :: List.replicate 8 (.run 0) ++ .validate 0 :: List.replicate 2 (.run 1) ++
    [.request 120 nonceReq, .poll (some 0)] ++ (List.replicate 51 [.head, .poll none]).flatten ++
    [.head, .request 130 nonceReq, .poll (some 0), .request 140 nonceReq]

/-- The first nonce is passed on, the second one is above the limit. -/
theorem exists_validated : ∃ n : Node ℚ .sse4, (node oneAccount).Reachable Computes n ∧
    (n.queued, n.collected, n.posted, n.answered) = ([5], [4], [3], [0, 1, 2]) ∧
      n.written = [(1, success 100 ⟨1, nonceReq⟩), (2, limitError ⟨2, nonceReq⟩)] ∧
        n.forwarded = [(9, ⟨7, 1, 100, 5⟩)] := by
  have hrun : ((oneAccountStart ⟨[Mining.infoText "5"], true⟩).bind fun n =>
      ((node oneAccount).execIf Computes n twoTargets).bind fun n =>
        if n.Ready 0 then
          ((node oneAccount).execIf Computes (n.computed 0) validating).map fun n => decide
            ((n.queued, n.collected, n.posted, n.answered) = ([5], [4], [3], [0, 1, 2]) ∧
              n.written = [(1, success 100 ⟨1, nonceReq⟩), (2, limitError ⟨2, nonceReq⟩)] ∧
                n.forwarded = [(9, ⟨7, 1, 100, 5⟩)])
        else
          none) = some true := by
    decide +kernel
  obtain ⟨n, hn, hrun⟩ := Option.bind_eq_some_iff.mp hrun
  obtain ⟨m, hm, hrun⟩ := Option.bind_eq_some_iff.mp hrun
  split_ifs at hrun with hready
  obtain ⟨t, ht, hfacts⟩ := Option.map_eq_some_iff.mp hrun
  have hreach := System.Reachable.execIf (.init (oneAccountStart_mem hn)) hm
  have hcomputed := hreach.step (computes_of_pool rfl) (step_of_ready hready)
  exact ⟨t, .execIf hcomputed ht, of_decide_eq_true hfacts⟩

/-- The transfer of the start fails, and the batch with the nonce has the base target zero. -/
theorem exists_zeroTarget : ∃ n m : Node ℚ .sse4, (node oneAccount).Reachable System.Any n ∧
    ¬Computes n .head ∧ (node oneAccount).step n .head = some m ∧ m.posted = [0] ∧
      m.answered = [] := by
  have hrun : ((oneAccountStart ⟨[], false⟩).bind fun n =>
      ((node oneAccount).exec n singleNonce.dropLast).bind fun n =>
        ((node oneAccount).step n .head).map fun m => decide
          (¬Computes n .head ∧ m.posted = [0] ∧ m.answered = [])) = some true := by
    decide +kernel
  obtain ⟨n₀, hn₀, hrun⟩ := Option.bind_eq_some_iff.mp hrun
  obtain ⟨n, hn, hrun⟩ := Option.bind_eq_some_iff.mp hrun
  obtain ⟨m, hm, hfacts⟩ := Option.map_eq_some_iff.mp hrun
  obtain ⟨hcomputes, hplaces⟩ := of_decide_eq_true hfacts
  have hreach := System.Reachable.exec (.init (oneAccountStart_mem hn₀)) hn
  exact ⟨n, m, hreach, hcomputes, hm, hplaces⟩

theorem accounted_validated :
    (∃ n : Node ℚ .sse4, (node oneAccount).Reachable Computes n ∧
      (n.queued, n.collected, n.posted, n.answered) = ([5], [4], [3], [0, 1, 2]) ∧
        Accounted oneAccount n) ∧
      ∃ (m : Node ℚ .sse4) (k : ℕ), m.posted = [0] ∧
        (node oneAccount).step m (.compute k) = some { m with crashed := true } ∧
          Lost oneAccount { m with crashed := true } := by
  refine ⟨?_, ?_⟩
  · obtain ⟨n, hreach, hplaces, -⟩ := exists_validated
    exact ⟨n, hreach, hplaces, (accounted oneAccount).1 n hreach⟩
  · obtain ⟨n, m, hreach, hcomputes, hst, hposted, -⟩ := exists_zeroTarget
    obtain ⟨k, hcrash⟩ := (accounted oneAccount).2 n .head m hreach hcomputes hst
    exact ⟨m, k, hposted, hcrash⟩

theorem not_accounted : ∃ n : Node ℚ .sse4, (node oneAccount).Reachable System.Any n ∧
    n.posted = [0] ∧ n.answered = [] ∧ Lost oneAccount n ∧ ¬Accounted oneAccount n := by
  obtain ⟨n, m, hreach, hcomputes, hst, hposted, hanswered⟩ := exists_zeroTarget
  obtain ⟨k, hcrash, hlost⟩ := crash_of_not_computes hreach hcomputes hst
  refine ⟨{ m with crashed := true }, (hreach.step trivial hst).step trivial hcrash, hposted,
    hanswered, hlost, fun h => ?_⟩
  cases h.alive

end Node

end BurstPoolNode

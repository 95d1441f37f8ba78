import BurstPoolNode.DeadlineRequestHandler.Batch
import BurstPoolNode.Node.Posting

/-!
# Answers

Where the requests that came in are (`places`): in the queue, in a slot of the
distributor, in a lane of a batch, or answered. Places are lists of the numbers
of sessions; to be in one place is to be counted once in all of them.

* `count_places_step`, `count_places_eq`: a step takes a request from one place
  to another, so that each is in one place at any time;
* `RequestInv`: what holds of the requests on their way to a validation, such as
  having a session to answer (`reachable_sessions`);
* `TaskInv`: the validations are those of the lanes below `pending` that a
  thread has come to, and write the responses.
-/

namespace BurstPoolNode

open DeadlineRequestHandler

/-! ## Where a request is -/

/-- The number of the session of a request, if it has one. -/
def CalcDeadlineReq.ids (creq : CalcDeadlineReq) : List ℕ :=
  creq.session.toList.map Session.id

/-- Those whose validation has not started. -/
def Task.waiting {k : ℕ} (task : Task k) : List CalcDeadlineReq := task.batch.lanes.drop task.next

/-- Those whose validation has started. -/
def Task.validated {k : ℕ} (task : Task k) : List CalcDeadlineReq :=
  task.batch.lanes.take task.next

/-- The number of the session that the validation is yet to answer. -/
def DeadlineRequestHandler.Validation.unanswered (v : Validation) : List ℕ :=
  if v.pc.isDone then [] else v.creq.ids

/-- The number of the session that the validation has answered. -/
def DeadlineRequestHandler.Validation.responded (v : Validation) : List ℕ :=
  if v.pc.isDone then v.creq.ids else []

namespace Node

variable {F : Type} {b : Build}

/-- The requests in the queue. -/
def queued (n : Node F b) : List ℕ := n.q.flatMap CalcDeadlineReq.ids

/-- The requests in a slot below `pending`. -/
def collected (n : Node F b) : List ℕ :=
  (n.distributor.reqs.toList.take n.distributor.pending).flatMap CalcDeadlineReq.ids

/-- The requests in a lane of a batch, whose validation has not started or is not done. -/
def posted (n : Node F b) : List ℕ :=
  (n.tasks.flatMap fun task => task.waiting.flatMap CalcDeadlineReq.ids) ++
    n.calls.flatMap Validation.unanswered

/-- The requests that have been passed to `do_write`. -/
def answered (n : Node F b) : List ℕ := n.answers.map Prod.fst ++ n.written.map Prod.fst

/-- All of them. -/
def places (n : Node F b) : List ℕ := n.queued ++ n.collected ++ n.posted ++ n.answered

end Node

/-- The sessions that a step of a validation answers. -/
theorem DeadlineRequestHandler.Validation.Next.count_written {deadlineLimit : UInt64} {i : ℕ}
    {v : Validation} {sh sh' : Shared} {pc : Pc} (h : v.Next deadlineLimit i sh pc sh') (id : ℕ) :
    (sh'.writes.map Prod.fst).count id + v.responded.count id =
      (sh.writes.map Prod.fst).count id + (responded { v with pc := pc }).count id ∧
    (sh'.writes.map Prod.fst).count id + (unanswered { v with pc := pc }).count id =
      (sh.writes.map Prod.fst).count id + v.unanswered.count id := by
  obtain ⟨hv, ⟨hpc, hwrites⟩ | ⟨hpc, s, res, hs, hwrites⟩⟩ := h.writes_cases
  · simp [responded, unanswered, hv, hpc, hwrites]
  · simp [responded, unanswered, hv, hpc, hwrites, CalcDeadlineReq.ids, hs]

namespace Node

variable {F : Type} {b : Build}

/-- Filling the next slot. -/
theorem take_succ_set {k p : ℕ} (reqs : Vector CalcDeadlineReq k) (hp : p < k)
    (creq : CalcDeadlineReq) :
    (reqs.set p creq).toList.take (p + 1) = reqs.toList.take p ++ [creq] := by
  rw [Vector.toList_set, List.take_add_one, List.take_set_of_le le_rfl, List.getElem?_set_self]
  · rfl
  · simpa using hp

theorem getElem?_lanes {k i : ℕ} {batch : Batch k} (hi : i < batch.pending) :
    batch.lanes[i]? = batch.creqs[i]? := by
  rw [Batch.lanes, List.getElem?_take_of_lt hi, Vector.getElem?_toList]

/-- Starting a validation takes its request from the lanes that are waiting to those that
    are validated. -/
theorem lanes_next {k : ℕ} {task : Task k} {creq : CalcDeadlineReq}
    (hnext : task.next < task.batch.pending) (hcreq : task.batch.creqs[task.next]? = some creq) :
    task.waiting = creq :: task.batch.lanes.drop (task.next + 1) ∧
      task.batch.lanes.take (task.next + 1) = task.validated ++ [creq] := by
  rw [← getElem?_lanes hnext] at hcreq
  refine ⟨?_, ?_⟩
  · rw [Task.waiting, List.drop_eq_getElem?_toList_append, hcreq]
    rfl
  · rw [Task.validated, List.take_add_one, hcreq]
    rfl

theorem count_places (n : Node F b) (id : ℕ) : n.places.count id =
    n.queued.count id + n.collected.count id +
      ((n.tasks.flatMap fun task => task.waiting.flatMap CalcDeadlineReq.ids).count id +
        (n.calls.flatMap Validation.unanswered).count id) +
      ((n.answers.map Prod.fst).count id + (n.written.map Prod.fst).count id) := by
  simp only [places, posted, answered, List.count_append]

variable [Zero F] [One F] [Sub F] [Mul F] [Div F] [LT F] [DecidableLT F]
  {e : Environment F b} {n m : Node F b} {a : Action F}

/-- A step moves requests from one place to another; a new one gets the next number. -/
theorem count_places_step (hst : (node e).step n a = some m) (id : ℕ) :
    m.places.count id + (List.range n.sessions).count id =
      n.places.count id + (List.range m.sessions).count id := by
  rw [count_places, count_places]
  cases step_cases hst with
  | answer =>
    simp only [queued, collected, List.range_succ, List.map_append, List.map_cons, List.map_nil,
      List.count_append]
    omega
  | enque henque =>
    have hids := Session.processSubmitNonceReq_enque (Session.handleRequest_enque henque)
    simp only [queued, collected, List.range_succ, List.flatMap_append, List.flatMap_singleton,
      CalcDeadlineReq.ids, hids.1, Option.toList_some, List.map_cons, List.map_nil,
      List.count_append]
    omega
  | refresh => rfl
  | post =>
    simp only [queued, collected, List.flatMap_append, List.flatMap_singleton, Task.waiting,
      Batch.lanes, List.take_zero, List.drop_zero, List.flatMap_nil, List.count_append,
      List.count_nil]
    omega
  | pass => rfl
  | notFound => rfl
  | found hplace hcreq hlt =>
    have hq := (flatMap_eraseIdx_perm CalcDeadlineReq.ids hcreq).count_eq id
    simp only [queued, collected, take_succ_set, List.flatMap_append, List.flatMap_singleton,
      List.count_append] at hq ⊢
    omega
  | @compute k task ds htask =>
    -- The lanes that are waiting stay the same.
    have htasks := (List.perm_append_left_iff _).mp (flatMap_set_perm
      (fun task => task.waiting.flatMap CalcDeadlineReq.ids) htask
      { task with deadlines := some ds })
    simp only [queued, collected, htasks.count_eq id]
  | crash => rfl
  | @validate k task ds creq deadline htask hds hnext hidle hcreq hdeadline =>
    -- The request goes from the lane to the validation that is started.
    have hwaiting : task.waiting =
        creq :: Task.waiting { task with next := task.next + 1, running := some n.calls.length } :=
      (lanes_next hnext hcreq).1
    have htasks := (flatMap_set_perm (fun task => task.waiting.flatMap CalcDeadlineReq.ids) htask
      { task with next := task.next + 1, running := some n.calls.length }).count_eq id
    have hcall : Validation.unanswered ⟨creq, deadline, .start⟩ = creq.ids := rfl
    simp only [hwaiting, List.flatMap_cons, List.count_append] at htasks
    simp only [queued, collected, List.flatMap_append, List.flatMap_singleton, hcall,
      List.count_append]
    omega
  | @run i v hv =>
    obtain ⟨_, _, h, _⟩ | ⟨j, w, pc, sh, hj, hw, hnext, rfl⟩ := DeadlineRequestHandler.step_cases hv
    · cases h
    · cases hj
      have hcalls := (flatMap_set_perm Validation.unanswered hw { w with pc := pc }).count_eq id
      have hwritten := (hnext.count_written id).2
      simp only [List.count_append, validations] at hcalls hwritten
      simp only [queued, collected, setValidations, validations]
      omega

theorem places_init (h : n ∈ (node e).init) : n.places = [] ∧ n.sessions = 0 := by
  obtain ⟨mem, t, w, reqs, -, -, rfl⟩ := init_eq h
  exact ⟨rfl, rfl⟩

/-- Every request that came in is in one place. -/
theorem count_places_eq (h : (node e).Reachable System.Any n) (id : ℕ) :
    n.places.count id = (List.range n.sessions).count id := by
  induction h with
  | init hs => rw [(places_init hs).1, (places_init hs).2, List.range_zero]
  | step _ _ hst ih =>
    have hstep := count_places_step hst id
    omega

/-! ## Sessions -/

/-- What holds of the requests on their way to a validation. -/
structure RequestInv (P : CalcDeadlineReq → Prop) (n : Node F b) : Prop where
  q : ∀ creq ∈ n.q, P creq
  slots : ∀ creq ∈ n.distributor.reqs.toList.take n.distributor.pending, P creq
  lanes : ∀ batch ∈ n.batches, ∀ creq ∈ batch.lanes, P creq

theorem requestInv_init {P : CalcDeadlineReq → Prop} (h : n ∈ (node e).init) : RequestInv P n := by
  obtain ⟨mem, t, w, reqs, -, -, rfl⟩ := init_eq h
  exact ⟨nofun, by simp, nofun⟩

/-- It goes on holding if it holds of what is enqueued. -/
theorem step_requestInv {P : CalcDeadlineReq → Prop} (h : RequestInv P n)
    (henque : ∀ (s : Session) (params : Params) (creq : CalcDeadlineReq),
      s.processSubmitNonceReq n.wallet params = .enque creq → P creq)
    (hst : (node e).step n a = some m) : RequestInv P m := by
  have hlanes := forall_batches_step h.lanes (fun _ => h.slots) hst
  cases step_cases hst with
  | enque hnew =>
    refine ⟨fun creq hcreq => ?_, h.slots, hlanes⟩
    rcases List.mem_append.mp hcreq with hcreq | hcreq
    · exact h.q creq hcreq
    · obtain rfl := List.mem_singleton.mp hcreq
      exact henque _ _ _ (Session.handleRequest_enque hnew)
  | post => exact ⟨h.q, by simp, hlanes⟩
  | found hplace hcreq hlt =>
    refine ⟨fun creq hmem => h.q creq (List.mem_of_mem_eraseIdx hmem), fun creq hmem => ?_, hlanes⟩
    simp only [take_succ_set] at hmem
    rcases List.mem_append.mp hmem with hmem | hmem
    · exact h.slots creq hmem
    · obtain rfl := List.mem_singleton.mp hmem
      exact h.q _ (List.mem_of_getElem? hcreq)
  | _ => exact ⟨h.q, h.slots, hlanes⟩

/-- The requests on their way to a validation have a session to answer. -/
theorem reachable_sessions (h : (node e).Reachable System.Any n) :
    RequestInv (fun creq => ∃ s, creq.session = some s) n := by
  refine h.invariant (fun _ => requestInv_init) fun _ _ _ h _ hst => step_requestInv h ?_ hst
  intro s params creq henque
  exact ⟨s, (Session.processSubmitNonceReq_enque henque).1⟩

/-! ## Tasks -/

/-- The invariant of the tasks. -/
structure TaskInv (n : Node F b) : Prop where
  /-- The validations are those of the lanes that a thread has come to. -/
  calls_perm : (n.calls.map Validation.creq).Perm (n.tasks.flatMap Task.validated)
  /-- The validation of such a lane is done, or the one that the thread is at. -/
  started : ∀ task ∈ n.tasks, ∀ creq ∈ task.validated, ∃ i v, n.calls[i]? = some v ∧
    v.creq = creq ∧ (v.pc.isDone ∨ task.running = some i)
  /-- The validations that are done have written their responses, and nobody else has. -/
  written : ∀ id, (n.written.map Prod.fst).count id =
    (n.calls.flatMap Validation.responded).count id

omit [Zero F] [One F] [Sub F] [Mul F] [Div F] [LT F] [DecidableLT F] in
/-- With the lane before done, all the validated lanes of a task are. -/
theorem TaskInv.isDone_of_idle (h : TaskInv n) {task : Task b.parallelValidations}
    (htask : task ∈ n.tasks) (hidle : n.idle task) {creq : CalcDeadlineReq}
    (hcreq : creq ∈ task.validated) :
    ∃ (i : ℕ) (v : Validation), n.calls[i]? = some v ∧ v.creq = creq ∧ v.pc.isDone := by
  obtain ⟨i, v, hv, hvc, hdone | hrunning⟩ := h.started task htask creq hcreq
  · exact ⟨i, v, hv, hvc, hdone⟩
  · rw [idle, hrunning] at hidle
    simp only [hv, Option.any_some] at hidle
    exact ⟨i, v, hv, hvc, hidle⟩

theorem step_taskInv (h : TaskInv n) (hst : (node e).step n a = some m) : TaskInv m := by
  cases step_cases hst with
  | post =>
    -- No lane of a new task is validated.
    refine ⟨?_, fun task htask => ?_, h.written⟩
    · rw [List.flatMap_append, List.flatMap_singleton, Task.validated, List.take_zero,
        List.append_nil]
      exact h.calls_perm
    · rcases List.mem_append.mp htask with htask | htask
      · exact h.started task htask
      · rw [List.mem_singleton.mp htask, Task.validated, List.take_zero]
        exact nofun
  | @compute k task ds htask =>
    have hmem := List.mem_of_getElem? htask
    refine ⟨?_, fun task₁ h₁ => ?_, h.written⟩
    · have htasks := (List.perm_append_left_iff _).mp
        (flatMap_set_perm Task.validated htask { task with deadlines := some ds })
      exact h.calls_perm.trans htasks.symm
    · rcases List.mem_or_eq_of_mem_set h₁ with h₁ | rfl
      · exact h.started task₁ h₁
      · exact h.started task hmem
  | @validate k task ds creq deadline htask hds hnext hidle hcreq hdeadline =>
    have hmem := List.mem_of_getElem? htask
    have hvalidated : Task.validated
        { task with next := task.next + 1, running := some n.calls.length } =
          task.validated ++ [creq] := (lanes_next hnext hcreq).2
    have hcalls : ∀ {i : ℕ} {v : Validation}, n.calls[i]? = some v →
        (n.calls ++ [⟨creq, deadline, .start⟩])[i]? = some v := by
      intro i v hv
      rw [List.getElem?_append_left (List.getElem?_eq_some_iff.mp hv).1, hv]
    refine ⟨?_, fun task₁ h₁ creq₁ hcreq₁ => ?_, fun id => ?_⟩
    · have htasks := flatMap_set_perm Task.validated htask
        { task with next := task.next + 1, running := some n.calls.length }
      rw [hvalidated, List.append_assoc, List.perm_append_left_iff] at htasks
      rw [List.map_append]
      exact (List.perm_append_comm.trans (h.calls_perm.append_left [creq])).trans htasks.symm
    · rcases List.mem_or_eq_of_mem_set h₁ with h₁ | rfl
      · obtain ⟨i, v, hv, hvc, hdone⟩ := h.started task₁ h₁ creq₁ hcreq₁
        exact ⟨i, v, hcalls hv, hvc, hdone⟩
      · rw [hvalidated] at hcreq₁
        rcases List.mem_append.mp hcreq₁ with hcreq₁ | hcreq₁
        · obtain ⟨i, v, hv, hvc, hdone⟩ := h.isDone_of_idle hmem hidle hcreq₁
          exact ⟨i, v, hcalls hv, hvc, .inl hdone⟩
        · refine ⟨n.calls.length, ⟨creq, deadline, .start⟩, by simp, ?_, .inr rfl⟩
          exact (List.mem_singleton.mp hcreq₁).symm
    · rw [List.flatMap_append, List.flatMap_singleton, List.count_append]
      exact h.written id
  | @run i v hv =>
    obtain ⟨_, _, hj, _⟩ | ⟨j, w, pc, sh, hj, hw, hnext, rfl⟩ :=
      DeadlineRequestHandler.step_cases hv
    · cases hj
    · cases hj
      refine ⟨?_, fun task htask creq hcreq => ?_, fun id => ?_⟩
      · have hself := map_set_of_eq Validation.creq (y := { w with pc := pc }) hw rfl
        exact hself ▸ h.calls_perm
      · obtain ⟨j, v, hv, hvc, hdone⟩ := h.started task htask creq hcreq
        rcases eq_or_ne i j with rfl | hij
        · -- It was not done, so that it is the one that the thread is at.
          obtain rfl := Option.some.inj (hw.symm.trans hv)
          rw [hnext.writes_cases.1] at hdone
          have hi : i < n.calls.length := (List.getElem?_eq_some_iff.mp hw).1
          exact ⟨i, _, List.getElem?_set_self hi, hvc,
            .inr (hdone.resolve_left Bool.false_ne_true)⟩
        · refine ⟨j, v, ?_, hvc, hdone⟩
          rw [← hv]
          exact List.getElem?_set_ne hij
      · have hcalls := (flatMap_set_perm Validation.responded hw { w with pc := pc }).count_eq id
        have hwritten := (hnext.count_written id).1
        have hold := h.written id
        simp only [List.count_append, validations] at hcalls hwritten
        simp only [setValidations, validations]
        omega
  | _ => exact ⟨h.calls_perm, h.started, h.written⟩

theorem reachable_taskInv (h : (node e).Reachable System.Any n) : TaskInv n := by
  refine h.invariant (fun s hs => ?_) fun _ _ _ h _ hst => step_taskInv h hst
  obtain ⟨mem, t, w, reqs, -, -, rfl⟩ := init_eq hs
  exact ⟨.nil, nofun, fun _ => rfl⟩

end Node

end BurstPoolNode

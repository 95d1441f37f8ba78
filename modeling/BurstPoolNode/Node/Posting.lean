import BurstPoolNode.DeadlineRequestHandler.Timer
import BurstPoolNode.Lists
import BurstPoolNode.Node

/-!
# Posting

The distributor, in the runs of the node: it polls into a slot of the array,
posts copies of the slots that are never changed, and does not let a request
wait in its slot for more than 51 polls that fail.

* `reachable_distributes`: the distributor runs the loop studied apart;
* `reachable_slotInv`: a poll has a free slot, and few polls fail while a slot
  is taken (`SlotInv`);
* `exec_batches`: what is posted stays as it is;
* `posted_of_failedPolls`: after 51 failed polls, a request has been posted, or
  is with the next step;
* `exists_posted`: as long as the process is alive, a request in the queue can
  reach a batch.
-/

namespace BurstPoolNode

open DeadlineRequestHandler

/-- The request is in the lane `j` of the batch, below `pending`. -/
def DeadlineRequestHandler.Batch.Holds {k : ℕ} (batch : Batch k) (j : ℕ) (creq : CalcDeadlineReq) :
    Prop :=
  j < batch.pending ∧ batch.creqs[j]? = some creq

namespace Node

variable {F : Type} {b : Build}

/-! ## The loop -/

/-- The batches that have been posted, in the order of their posts. -/
def batches (n : Node F b) : List (Batch b.parallelValidations) := n.tasks.map Task.batch

/-- The distributor and the batches are those of a run of the loop. -/
def Distributes (n : Node F b) (t : Timed b.parallelValidations) : Prop :=
  t.d = n.distributor ∧ t.posted.map Prod.fst = n.batches

variable [Zero F] [One F] [Sub F] [Mul F] [Div F] [LT F] [DecidableLT F]
  {e : Environment F b} {n m : Node F b} {a : Action F}

/-- A step of the node is one of the loop, or none. -/
theorem step_distributes {t : Timed b.parallelValidations} (h : n.Distributes t)
    (hst : (node e).step n a = some m) :
    m.Distributes t ∨ ∃ c u, (Timed.distributing b).step t c = some u ∧ m.Distributes u := by
  obtain ⟨d, failed, posted⟩ := t
  obtain ⟨rfl, hposted⟩ := h
  cases step_cases hst with
  | post hplace hpost =>
    refine .inr ⟨.head, _, if_pos hplace, ?_⟩
    simp only [Distributes, Timed.head, Distributor.head, if_pos hpost]
    refine ⟨trivial, ?_⟩
    rw [List.map_append, hposted]
    symm
    exact List.map_append
  | pass hplace hpost =>
    refine .inr ⟨.head, _, if_pos hplace, ?_⟩
    simp only [Distributes, Timed.head, Distributor.head, if_neg hpost]
    exact ⟨trivial, hposted⟩
  | notFound hplace => exact .inr ⟨.poll none, _, if_pos hplace, rfl, hposted⟩
  | @found i creq hplace hcreq hlt =>
    exact .inr ⟨.poll (some creq), _, (if_pos hplace).trans (Timed.found_of_lt hlt), rfl, hposted⟩
  | compute htask =>
    refine .inl ⟨rfl, hposted.trans ?_⟩
    symm
    exact map_set_of_eq Task.batch htask rfl
  | validate htask =>
    refine .inl ⟨rfl, hposted.trans ?_⟩
    symm
    exact map_set_of_eq Task.batch htask rfl
  | _ => exact .inl ⟨rfl, hposted⟩

/-- The distributor of the node runs the loop studied apart. -/
theorem reachable_distributes (h : (node e).Reachable System.Any n) :
    ∃ t, (Timed.distributing b).Reachable System.Any t ∧ n.Distributes t := by
  induction h with
  | init hs =>
    obtain ⟨mem, t, w, reqs, -, hreqs, rfl⟩ := init_eq hs
    exact ⟨_, .init ⟨reqs, hreqs, rfl⟩, rfl, rfl⟩
  | step _ _ hst ih =>
    obtain ⟨t, ht, hn⟩ := ih
    rcases step_distributes hn hst with hm | ⟨c, u, hu, hm⟩
    · exact ⟨t, ht, hm⟩
    · exact ⟨u, .step ht trivial hu, hm⟩

/-! ## The slots -/

/-- The invariant of the distributor: there is a slot to poll into, and with a request in the
    slots, no more polls than it takes have failed. -/
structure SlotInv (d : Distributor b.parallelValidations) : Prop where
  le : d.pending ≤ b.parallelValidations
  lt : d.place = .poll → d.pending < b.parallelValidations
  waited_le : d.place = .poll → 0 < d.pending → d.waited ≤ 50

theorem reachable_slotInv (h : (node e).Reachable System.Any n) : SlotInv n.distributor := by
  obtain ⟨t, ht, hd, -⟩ := reachable_distributes h
  have hinv := ht.invariant (fun _ => Timed.loopInv_init) fun _ _ _ h _ hst =>
    Timed.step_loopInv h hst
  exact hd ▸ ⟨hinv.le, hinv.lt, hinv.waited_le⟩

/-! ## Batches -/

/-- The step posts a batch. -/
def Posts (n : Node F b) : Action F → Prop
  | .head => n.crashed = false ∧ n.distributor.place = .head ∧
      (n.distributor.pending = b.parallelValidations ∨
        n.distributor.pending > 0 ∧ n.distributor.waited > 50)
  | _ => False

instance (n : Node F b) : (a : Action F) → Decidable (n.Posts a)
  | .head => inferInstanceAs (Decidable (_ ∧ _ ∧ _))
  | .request _ _ | .refresh _ _ | .poll _ | .compute _ | .validate _ | .run _ => .isFalse id

/-- A step posts a copy of the slots, or nothing. -/
theorem step_batches (hst : (node e).step n a = some m) :
    n.Posts a ∧ m.batches = n.batches ++ [⟨n.distributor.reqs, n.distributor.pending⟩] ∨
      ¬n.Posts a ∧ m.batches = n.batches := by
  have halive := alive_of_step hst
  cases step_cases hst with
  | post hplace hfull => exact .inl ⟨⟨halive, hplace, hfull⟩, List.map_append⟩
  | pass hplace hfull => exact .inr ⟨fun h => hfull h.2.2, rfl⟩
  | compute htask => exact .inr ⟨id, map_set_of_eq Task.batch htask rfl⟩
  | validate htask => exact .inr ⟨id, map_set_of_eq Task.batch htask rfl⟩
  | _ => exact .inr ⟨id, rfl⟩

/-- What holds of the batches goes on holding, if it holds of the slots when they are posted. -/
theorem forall_batches_step {P : Batch b.parallelValidations → Prop}
    (h : ∀ batch ∈ n.batches, P batch)
    (hslots : n.Posts a → P ⟨n.distributor.reqs, n.distributor.pending⟩)
    (hst : (node e).step n a = some m) : ∀ batch ∈ m.batches, P batch := by
  rcases step_batches hst with ⟨hposts, heq⟩ | ⟨-, heq⟩
  · rw [heq]
    intro batch hbatch
    rcases List.mem_append.mp hbatch with hbatch | hbatch
    · exact h batch hbatch
    · rw [List.mem_singleton.mp hbatch]
      exact hslots hposts
  · rw [heq]
    exact h

/-- What is posted stays as it is. -/
theorem exec_batches {as : List (Action F)} (hst : (node e).exec n as = some m) :
    n.batches <+: m.batches := by
  refine System.exec_invariant (T := node e) (I := fun t => n.batches <+: t.batches)
    (fun s a t hs hst => hs.trans ?_) List.prefix_rfl hst
  rcases step_batches hst with ⟨-, heq⟩ | ⟨-, heq⟩
  · rw [heq]
    exact List.prefix_append ..
  · rw [heq]

/-- A batch has no more requests than lanes. -/
theorem pending_le_of_batches (h : (node e).Reachable System.Any n) :
    ∀ batch ∈ n.batches, batch.pending ≤ b.parallelValidations := by
  induction h with
  | init hs =>
    obtain ⟨mem, t, w, reqs, -, -, rfl⟩ := init_eq hs
    exact nofun
  | step hn _ hst ih => exact forall_batches_step ih (fun _ => (reachable_slotInv hn).le) hst

/-! ## Waiting in a slot -/

/-- The request is in the slot `j`, below `pending`. -/
def InSlot (n : Node F b) (j : ℕ) (creq : CalcDeadlineReq) : Prop :=
  j < n.distributor.pending ∧ n.distributor.reqs[j]? = some creq

/-- A poll that finds nothing counts. -/
def Action.failed : Action F → ℕ
  | .poll none => 1
  | _ => 0

/-- The number of polls of a run that find nothing. -/
def failedPolls (as : List (Action F)) : ℕ := (as.map Action.failed).sum

/-- A request in a slot is posted, or stays and waits. -/
theorem step_inSlot {j : ℕ} {creq : CalcDeadlineReq} (h : n.InSlot j creq)
    (hst : (node e).step n a = some m) :
    (∃ batch, m.batches = n.batches ++ [batch] ∧ batch.Holds j creq) ∨
      m.batches = n.batches ∧ m.InSlot j creq ∧
        m.distributor.waited = n.distributor.waited + a.failed := by
  cases step_cases hst with
  | post => exact .inl ⟨_, List.map_append, h⟩
  | found hplace hcreq hlt =>
    refine .inr ⟨rfl, ⟨Nat.lt_succ_of_lt h.1, ?_⟩, rfl⟩
    -- The slot that is filled is another one.
    exact (Vector.getElem?_set_ne hlt (Nat.ne_of_gt h.1)).trans h.2
  | compute htask => exact .inr ⟨map_set_of_eq Task.batch htask rfl, h, rfl⟩
  | validate htask => exact .inr ⟨map_set_of_eq Task.batch htask rfl, h, rfl⟩
  | _ => exact .inr ⟨rfl, h, rfl⟩

theorem exec_inSlot {j : ℕ} {creq : CalcDeadlineReq} {as : List (Action F)} (h : n.InSlot j creq)
    (hst : (node e).exec n as = some m) :
    (∃ batch ∈ m.batches.drop n.batches.length, batch.Holds j creq) ∨
      m.InSlot j creq ∧ m.distributor.waited = n.distributor.waited + failedPolls as := by
  induction as generalizing n with
  | nil =>
    obtain rfl := Option.some.inj hst
    exact .inr ⟨h, rfl⟩
  | cons a as ih =>
    rw [System.exec_cons, Option.bind_eq_some_iff] at hst
    obtain ⟨t, ht, hst⟩ := hst
    rcases step_inSlot h ht with ⟨batch, heq, hbatch⟩ | ⟨heq, hslot, hwaited⟩
    · obtain ⟨more, hmore⟩ := exec_batches hst
      refine .inl ⟨batch, ?_, hbatch⟩
      rw [← hmore, heq, List.append_assoc, List.drop_left]
      exact List.mem_cons_self
    · rw [← heq]
      refine (ih hslot hst).imp_right fun ⟨hm, hwaited'⟩ => ⟨hm, ?_⟩
      rw [hwaited', hwaited, failedPolls, failedPolls, List.map_cons, List.sum_cons, Nat.add_assoc]

theorem step_head (halive : n.crashed = false) (hplace : n.distributor.place = .head) :
    ∃ t, (node e).step n .head = some t ∧ t.crashed = false ∧ t.distributor.place = .poll ∧
      t.q = n.q := by
  rw [step_of_alive halive]
  simp only [act, if_pos hplace, Distributor.head]
  split_ifs
  · exact ⟨_, rfl, halive, rfl, rfl⟩
  · exact ⟨_, rfl, halive, rfl, rfl⟩

theorem step_head_of_full (halive : n.crashed = false) (hplace : n.distributor.place = .head)
    (hfull : n.distributor.pending = b.parallelValidations ∨
      n.distributor.pending > 0 ∧ n.distributor.waited > 50) :
    ∃ t, (node e).step n .head = some t ∧
      t.batches = n.batches ++ [⟨n.distributor.reqs, n.distributor.pending⟩] := by
  rw [step_of_alive halive]
  simp only [act, if_pos hplace, Distributor.head, if_pos hfull]
  exact ⟨_, rfl, List.map_append⟩

theorem step_found {i : ℕ} {creq : CalcDeadlineReq} (halive : n.crashed = false)
    (hplace : n.distributor.place = .poll) (hi : n.q[i]? = some creq)
    (hlt : n.distributor.pending < b.parallelValidations) :
    ∃ t, (node e).step n (.poll (some i)) = some t ∧ t.crashed = false ∧
      t.InSlot n.distributor.pending creq ∧ t.distributor.place = .head := by
  rw [step_of_alive halive]
  simp only [act, if_pos hplace, hi, Distributor.found, dif_pos hlt]
  exact ⟨_, rfl, halive, ⟨Nat.lt_succ_self _, Vector.getElem?_set_self hlt⟩, rfl⟩

/-- After 51 failed polls, a request has been posted, or the distributor posts it next. -/
theorem posted_of_failedPolls (hn : (node e).Reachable System.Any n) {j : ℕ}
    {creq : CalcDeadlineReq} {as : List (Action F)} (h : n.InSlot j creq)
    (hst : (node e).exec n as = some m) (halive : m.crashed = false)
    (hpolls : 51 ≤ failedPolls as) :
    (∃ batch ∈ m.batches.drop n.batches.length, batch.Holds j creq) ∨
      m.distributor.place = .head ∧ ∃ t batch, (node e).step m .head = some t ∧
        t.batches = m.batches ++ [batch] ∧ batch.Holds j creq := by
  rcases exec_inSlot h hst with hposted | ⟨hslot, hwaited⟩
  · exact .inl hposted
  · have hpos : 0 < m.distributor.pending := Nat.zero_lt_of_lt hslot.1
    have hinv := reachable_slotInv (hn.exec hst)
    cases hplace : m.distributor.place with
    | poll =>
      -- The last head of the loop would have posted.
      have hwaited' := hinv.waited_le hplace hpos
      omega
    | head =>
      obtain ⟨t, ht, hbatches⟩ := step_head_of_full (e := e) halive hplace (.inr ⟨hpos, by omega⟩)
      exact .inr ⟨rfl, t, _, ht, hbatches, hslot⟩

/-! ## Reaching a batch -/

/-- While nothing is found, the distributor goes on. -/
theorem exec_idle (k : ℕ) (halive : n.crashed = false) (hplace : n.distributor.place = .head) :
    ∃ m, (node e).exec n (List.replicate k [.head, .poll none]).flatten = some m ∧
      m.crashed = false := by
  induction k generalizing n with
  | zero => exact ⟨n, rfl, halive⟩
  | succ k ih =>
    obtain ⟨t, ht, htalive, htplace, -⟩ := step_head (e := e) halive hplace
    have hpoll : (node e).step t (.poll none) =
        some { t with distributor := t.distributor.notFound } :=
      (step_of_alive htalive).trans (if_pos htplace)
    rw [List.replicate_succ, List.flatten_cons, System.exec_append, System.exec_cons, ht,
      Option.bind_some, System.exec_cons, hpoll]
    exact ih htalive rfl

omit [Zero F] [One F] [Sub F] [Mul F] [Div F] [LT F] [DecidableLT F] in
theorem failedPolls_idle (k : ℕ) :
    failedPolls (List.replicate k [Action.head, Action.poll (F := F) none]).flatten = k := by
  induction k with
  | zero => rfl
  | succ k ih =>
    rw [failedPolls] at ih
    rw [failedPolls, List.replicate_succ, List.flatten_cons, List.map_append, List.sum_append, ih]
    exact Nat.add_comm 1 k

/-- The distributor comes to poll the queue. -/
theorem exists_poll (halive : n.crashed = false) : ∃ as t, (node e).exec n as = some t ∧
    t.crashed = false ∧ t.distributor.place = .poll ∧ t.q = n.q := by
  cases hplace : n.distributor.place with
  | poll => exact ⟨[], n, rfl, halive, hplace, rfl⟩
  | head =>
    obtain ⟨t, ht, htalive, htplace, htq⟩ := step_head (e := e) halive hplace
    refine ⟨[.head], t, ?_, htalive, htplace, htq⟩
    rw [System.exec_cons, ht]
    rfl

/-- In a process that is alive, a request in the queue can reach a batch. -/
theorem exists_posted (hn : (node e).Reachable System.Any n) (halive : n.crashed = false)
    {creq : CalcDeadlineReq} (hcreq : creq ∈ n.q) :
    ∃ as m, (node e).exec n as = some m ∧ ∃ batch ∈ m.batches, creq ∈ batch.creqs := by
  obtain ⟨as, t, ht, htalive, htplace, htq⟩ := exists_poll (e := e) halive
  obtain ⟨i, hi⟩ := List.mem_iff_getElem?.mp (htq ▸ hcreq)
  have hlt := (reachable_slotInv (hn.exec ht)).lt htplace
  -- It is found, and then nothing more.
  obtain ⟨u, hu, hualive, huslot, huplace⟩ := step_found (e := e) htalive htplace hi hlt
  obtain ⟨m, hm, hmalive⟩ := exec_idle (e := e) 51 hualive huplace
  have hfound : (node e).exec n (as ++ [.poll (some i)]) = some u := by
    rw [System.exec_concat, ht, Option.bind_some, hu]
  have hrun : (node e).exec n (as ++ [.poll (some i)] ++
      (List.replicate 51 [.head, .poll none]).flatten) = some m := by
    rw [System.exec_append, hfound, Option.bind_some, hm]
  rcases posted_of_failedPolls (hn.exec hfound) huslot hm hmalive (failedPolls_idle 51).ge with
    ⟨batch, hmem, -, hlane⟩ | ⟨-, v, batch, hv, hbatches, -, hlane⟩
  · exact ⟨_, m, hrun, batch, List.mem_of_mem_drop hmem, Vector.mem_of_getElem? hlane⟩
  · have hrun' : (node e).exec n (as ++ [.poll (some i)] ++
        (List.replicate 51 [.head, .poll none]).flatten ++ [.head]) = some v := by
      rw [System.exec_concat, hrun, Option.bind_some, hv]
    have hmem : batch ∈ v.batches := by
      rw [hbatches]
      exact List.mem_append_right _ (List.mem_singleton_self batch)
    exact ⟨_, v, hrun', batch, hmem, Vector.mem_of_getElem? hlane⟩

end Node

end BurstPoolNode

import BurstPoolNode.ConcurrentQueue.Calls

/-!
# A single consumer

Only one thread dequeues, the distributor; any number of threads enqueue.

* `Producer.Sole`: the tickets of the consumer add up, and it has read the
  elements in their order.
* `Queue.queue_fifo`: the elements of one producer come in the order in which
  they were enqueued.
* `Queue.queue_finds`: a call that begins when there is an element returns one.
-/

namespace BurstPoolNode.ConcurrentQueue

variable {α ι : Type*} [DecidableEq ι]

/-- How many elements have been read by a consumer that has moved the head to `head`. -/
def Dequeue.readCount (head : ℕ) : Dequeue → ℕ
  | .indexed i => i.toNat
  | _ => head

namespace Producer

/-- How the tickets add up for a consumer at `d`. -/
def Tally (s : Producer α ι) : Dequeue → Prop
  | .loadedOvercommit _ oc => oc = s.dequeueOvercommit ∧
      s.dequeueOptimisticCount.toNat = s.dequeueOvercommit.toNat + s.headIndex.toNat
  | .entered oc => oc = s.dequeueOvercommit ∧
      s.dequeueOptimisticCount.toNat = s.dequeueOvercommit.toNat + s.headIndex.toNat
  | .ticket oc k => oc = s.dequeueOvercommit ∧
      k.toNat = s.dequeueOvercommit.toNat + s.headIndex.toNat ∧
      s.dequeueOptimisticCount.toNat = k.toNat + 1
  | .granted _ =>
    s.dequeueOptimisticCount.toNat = s.dequeueOvercommit.toNat + s.headIndex.toNat + 1
  | .refused _ =>
    s.dequeueOptimisticCount.toNat = s.dequeueOvercommit.toNat + s.headIndex.toNat + 1
  | .indexed i => s.headIndex.toNat = i.toNat + 1 ∧
      s.dequeueOptimisticCount.toNat = s.dequeueOvercommit.toNat + s.headIndex.toNat
  | _ => s.dequeueOptimisticCount.toNat = s.dequeueOvercommit.toNat + s.headIndex.toNat

/-- What holds of a producer with the sole consumer `c`. -/
structure Sole (s : Producer α ι) (c : ι) : Prop where
  tally : s.Tally (s.threads c)
  taken : s.taken.map Prod.snd = s.published.take ((s.threads c).readCount s.headIndex.toNat)

namespace Sole

variable {s : Producer α ι} {f : Fates} {c : ι}

omit [DecidableEq ι] in
theorem new : Sole ({} : Producer α ι) c where
  tally := rfl
  taken := rfl

omit [DecidableEq ι] in
theorem of_threads {d : Dequeue} (hd : s.threads c = d) (htally : s.Tally d)
    (htaken : s.taken.map Prod.snd = s.published.take (d.readCount s.headIndex.toNat)) :
    s.Sole c where
  tally := hd ▸ htally
  taken := hd ▸ htaken

theorem dequeue (h : s.Sole c) (hinv : s.Inv f) (hb : s.Below) : (s.dequeue c).1.Sole c := by
  obtain ⟨htally, htaken⟩ := h
  have hthread := hinv.thread c
  rw [Producer.dequeue]
  rcases hc : s.threads c with _ | tail | ⟨tail, oc⟩ | oc | ⟨oc, k⟩ | k | k | i
  all_goals rw [hc] at htally htaken hthread
  case start => exact of_threads (Function.update_self ..) htally htaken
  case loadedTail => exact of_threads (Function.update_self ..) ⟨rfl, htally⟩ htaken
  case loadedOvercommit =>
    dsimp only
    split_ifs
    · exact of_threads (Function.update_self ..) htally htaken
    · exact of_threads (Function.update_self ..) htally.2 htaken
  case entered =>
    exact of_threads (Function.update_self ..) ⟨htally.1, htally.2, toNat_succ hb.2⟩ htaken
  case ticket =>
    obtain ⟨-, hk, hcount⟩ := htally
    have hcount := hcount.trans (congrArg (· + 1) hk)
    dsimp only
    split_ifs
    · exact of_threads (Function.update_self ..) hcount htaken
    · exact of_threads (Function.update_self ..) hcount htaken
  case granted =>
    have hsucc := toNat_succ ((hinv.head_lt_tail hthread.1 hthread.2).trans hb.1)
    refine of_threads (Function.update_self ..) ⟨hsucc, ?_⟩ htaken
    change s.dequeueOptimisticCount.toNat = s.dequeueOvercommit.toNat + (s.headIndex + 1).toNat
    rw [hsucc, ← Nat.add_assoc]
    exact htally
  case refused =>
    have hsucc := toNat_succ (hinv.overcommit_le.trans_lt hb.2)
    refine of_threads (Function.update_self ..) ?_ htaken
    change s.dequeueOptimisticCount.toNat = (s.dequeueOvercommit + 1).toNat + s.headIndex.toNat
    rw [hsucc, Nat.add_right_comm]
    exact htally
  case indexed =>
    obtain ⟨hi, hcell⟩ := hinv.cell_of_indexed hc
    dsimp only
    rw [hcell]
    refine of_threads (Function.update_self ..) htally.2 ?_
    change (s.taken ++ [_]).map Prod.snd = s.published.take s.headIndex.toNat
    rw [List.map_append, htaken, htally.1, List.map_singleton]
    exact (List.take_succ_eq_append_getElem hi).symm

omit [DecidableEq ι] in
theorem readCount_le (hinv : s.Inv f) (c : ι) :
    (s.threads c).readCount s.headIndex.toNat ≤ s.published.length := by
  have hthread := hinv.thread c
  have hhead := hinv.head_le_tail
  rw [← hinv.length_published] at hhead
  rcases hc : s.threads c with _ | _ | _ | _ | _ | _ | _ | i
  case indexed =>
    rw [hc] at hthread
    exact hthread.1.le.trans hhead
  all_goals exact hhead

omit [DecidableEq ι] in
/-- Exactly the first elements are read. -/
theorem mem_read (h : s.Sole c) (hinv : s.Inv f) (i : ℕ) :
    i ∈ f.read ↔ i < (s.threads c).readCount s.headIndex.toNat := by
  have hthread := hinv.thread c
  have hle := readCount_le hinv c
  have hlt : ∀ j ∈ f.read, j < (s.threads c).readCount s.headIndex.toNat := by
    intro j hj
    have hlt := hinv.read_lt j hj
    have htally := h.tally
    rcases hc : s.threads c with _ | _ | _ | _ | _ | _ | _ | i
    case indexed =>
      rw [hc] at hthread htally
      have hne : j ≠ i.toNat := fun hji => hthread.2 (hji ▸ hj)
      have := htally.1
      change j < i.toNat
      omega
    all_goals exact hlt
  have hlength : f.read.length = (s.threads c).readCount s.headIndex.toNat := by
    have htaken := congrArg List.length hinv.taken
    have hfirst := congrArg List.length h.taken
    simp only [List.length_map, List.length_take] at htaken hfirst
    omega
  have hsub : f.read.toFinset ⊆ Finset.range ((s.threads c).readCount s.headIndex.toNat) :=
    fun j hj => Finset.mem_range.mpr (hlt j (List.mem_toFinset.mp hj))
  have heq := Finset.eq_of_subset_of_card_le hsub
    (by rw [Finset.card_range, List.toFinset_card_of_nodup hinv.read_nodup, hlength])
  rw [← List.mem_toFinset, heq, Finset.mem_range]

omit [DecidableEq ι] in
/-- The elements are read in their order, and those that are not are in their cells. -/
theorem fifo (h : s.Sole c) (hinv : s.Inv f) : s.taken.map Prod.snd ++ s.inCells = s.published := by
  have hmem := h.mem_read hinv
  have htaken := h.taken
  have hn := readCount_le hinv c
  generalize (s.threads c).readCount s.headIndex.toNat = n at hmem htaken hn
  have hcell : ∀ i < s.published.length,
      s.cells (UInt64.ofNat i) = if i < n then none else s.published[i]? := by
    intro i hi
    rw [hinv.cell i hi, List.getElem?_eq_getElem hi]
    simp only [hmem]
  have hcells : s.inCells = s.published.drop n := by
    obtain ⟨m, hm⟩ := Nat.exists_eq_add_of_le hn
    have hdrop := filterMap_range (s.published.drop n)
    rw [List.length_drop, hm, Nat.add_sub_cancel_left] at hdrop
    rw [inCells, hm, List.range_add, List.filterMap_append, List.filterMap_map, ← hdrop]
    have hread : (List.range n).filterMap (fun i => s.cells (UInt64.ofNat i)) = [] :=
      List.filterMap_eq_nil_iff.mpr fun i hi => by
        have hi := List.mem_range.mp hi
        rw [hcell i (by omega), if_pos hi]
    rw [hread, List.nil_append]
    refine List.filterMap_congr fun i hi => ?_
    have hi := List.mem_range.mp hi
    rw [Function.comp_apply, hcell (n + i) (by omega), if_neg (by omega), List.getElem?_drop]
  rw [htaken, hcells, List.take_append_drop]

omit [DecidableEq ι] in
theorem grows (h : s.Sole c) (hinv : s.Inv f) {s' : Producer α ι} (hgrows : s.Grows s') :
    s'.Sole c := by
  refine of_threads (congrFun hgrows.threads c) ?_ ?_
  · have htally := h.tally
    rcases hc : s.threads c with _ | _ | _ | _ | _ | _ | _ | _
    all_goals
      rw [hc] at htally
      simpa only [Tally, hgrows.headIndex, hgrows.dequeueOptimisticCount,
        hgrows.dequeueOvercommit] using htally
  · rw [hgrows.taken, hgrows.headIndex, h.taken]
    obtain ⟨xs, hxs⟩ := hgrows.published
    rw [← hxs, List.take_append_of_le_length (readCount_le hinv c)]

end Sole

/-- The consumer finds an element if it goes on from `d`: there was one when it looked. -/
def Finds (s : Producer α ι) : Dequeue → Prop
  | .start => s.headIndex.toNat < s.tailIndex.toNat
  | .loadedTail tail =>
    s.headIndex.toNat < tail.toNat ∧ tail.toNat ≤ s.tailIndex.toNat
  | .loadedOvercommit tail _ =>
    s.headIndex.toNat < tail.toNat ∧ tail.toNat ≤ s.tailIndex.toNat
  | .entered _ => s.headIndex.toNat < s.tailIndex.toNat
  | .ticket _ _ => s.headIndex.toNat < s.tailIndex.toNat
  | .granted _ => True
  | .refused _ => False
  | .indexed _ => True

namespace Finds

variable {s : Producer α ι} {f : Fates} {c : ι}

omit [DecidableEq ι] in
theorem grows {d : Dequeue} (h : s.Finds d) {s' : Producer α ι} (hgrows : s.Grows s') :
    s'.Finds d := by
  have htail := hgrows.tailIndex
  have hless (h : s.headIndex.toNat < s.tailIndex.toNat) :
      s'.headIndex.toNat < s'.tailIndex.toNat := by
    rw [hgrows.headIndex]
    exact h.trans_le htail
  cases d with
  | start => exact hless h
  | loadedTail tail => exact ⟨hgrows.headIndex ▸ h.1, h.2.trans htail⟩
  | loadedOvercommit tail oc => exact ⟨hgrows.headIndex ▸ h.1, h.2.trans htail⟩
  | entered oc => exact hless h
  | ticket oc k => exact hless h
  | granted k => trivial
  | refused k => exact h
  | indexed i => trivial

/-- The consumer goes on towards an element, or has one. -/
theorem dequeue (h : s.Finds (s.threads c)) (hsole : s.Sole c) (hinv : s.Inv f) (hb : s.Below) :
    ((s.dequeue c).2 = none ∧ (s.dequeue c).1.Finds ((s.dequeue c).1.threads c)) ∨
      ∃ x, (s.dequeue c).2 = some (some x) := by
  have htally := hsole.tally
  have hgo : ∀ (s' : Producer α ι) (d : Dequeue), s'.threads c = d → s'.Finds d →
      s'.Finds (s'.threads c) := fun s' d hd hf => hd ▸ hf
  rw [Producer.dequeue]
  rcases hc : s.threads c with _ | tail | ⟨tail, oc⟩ | oc | ⟨oc, k⟩ | k | k | i
  all_goals rw [hc] at h htally
  case start => exact .inl ⟨rfl, hgo _ _ (Function.update_self ..) ⟨h, le_rfl⟩⟩
  case loadedTail => exact .inl ⟨rfl, hgo _ _ (Function.update_self ..) h⟩
  case loadedOvercommit =>
    obtain ⟨rfl, hcount⟩ := htally
    obtain ⟨hlt, hle⟩ := h
    have hsub : (s.dequeueOptimisticCount - s.dequeueOvercommit).toNat = s.headIndex.toNat := by
      rw [UInt64.toNat_sub_of_le _ _ (UInt64.le_iff_toNat_le.mpr (by omega))]
      omega
    have hless : circularLessThan (s.dequeueOptimisticCount - s.dequeueOvercommit) tail := by
      have := hb.1
      rw [circularLessThan_iff (by omega) (by omega), hsub]
      exact hlt
    dsimp only
    rw [if_pos hless]
    exact .inl ⟨rfl, hgo _ _ (Function.update_self ..) (hlt.trans_le hle)⟩
  case entered => exact .inl ⟨rfl, hgo _ _ (Function.update_self ..) h⟩
  case ticket =>
    obtain ⟨rfl, hk, -⟩ := htally
    have hsub : (k - s.dequeueOvercommit).toNat = s.headIndex.toNat := by
      rw [UInt64.toNat_sub_of_le _ _ (UInt64.le_iff_toNat_le.mpr (by omega))]
      omega
    have hlt : s.headIndex.toNat < s.tailIndex.toNat := h
    have hless : circularLessThan (k - s.dequeueOvercommit) s.tailIndex := by
      have := hb.1
      rw [circularLessThan_iff (by omega) (by omega), hsub]
      exact hlt
    dsimp only
    rw [if_pos hless]
    exact .inl ⟨rfl, hgo _ _ (Function.update_self ..) trivial⟩
  case granted => exact .inl ⟨rfl, hgo _ _ (Function.update_self ..) trivial⟩
  case refused => exact absurd h id
  case indexed =>
    obtain ⟨hi, hcell⟩ := hinv.cell_of_indexed hc
    dsimp only
    rw [hcell]
    exact .inr ⟨_, rfl⟩

end Finds

/-- A producer appears empty just when it was when its counters were loaded. -/
theorem sizeApprox_pos_iff {tail head : UInt64} (htail : tail.toNat < 2 ^ 63)
    (hhead : head.toNat < 2 ^ 63) : sizeApprox tail head > 0 ↔ head.toNat < tail.toNat := by
  have hless := circularLessThan_iff hhead htail
  rw [sizeApprox, gt_iff_lt, UInt64.lt_iff_toNat_lt]
  split_ifs with hlt
  · have hlt := hless.mp hlt
    rw [UInt64.toNat_sub_of_le _ _ (UInt64.le_iff_toNat_le.mpr hlt.le)]
    exact iff_of_true (Nat.sub_pos_of_lt hlt) hlt
  · exact iff_of_false (Nat.lt_irrefl _) (mt hless.mpr hlt)

end Producer

namespace Queue

/-- The steps when only the thread `c` dequeues. -/
def Consumes (c : ι) (q : Queue α ι) (a : Action α ι) : Prop :=
  q.Below ∧ ∀ c', a = .tryDequeue c' → c' = c

structure SoleInv (q : Queue α ι) (c : ι) : Prop where
  inv : q.Inv
  sole : ∀ s ∈ q.producers, s.Sole c

namespace SoleInv

variable {q q' : Queue α ι} {c : ι}

theorem step (h : q.SoleInv c) {a : Action α ι} (ha : q.Consumes c a)
    (hst : (queue α ι).step q a = some q') : q'.SoleInv c where
  inv := h.inv.step ha.1 hst
  sole s' hs' := by
    by_cases hact : ∃ c', a = .tryDequeue c'
    · obtain ⟨c', rfl⟩ := hact
      obtain rfl := ha.2 c' rfl
      rcases (frame_of_tryDequeue hst).1 with heq | ⟨p, s, hs, heq⟩
      · exact h.sole s' (heq ▸ hs')
      · rw [heq] at hs'
        rcases List.mem_or_eq_of_mem_set hs' with hs' | rfl
        · exact h.sole s' hs'
        · have hmem := List.mem_of_getElem? hs
          obtain ⟨f, hf⟩ := h.inv.producer s hmem
          exact (h.sole s hmem).dequeue hf (ha.1 s hmem)
    · obtain ⟨-, -, -, hgrows⟩ := grows_of_step ha.1 (fun c' hc' => hact ⟨c', hc'⟩) hst
      rcases hgrows s' hs' with rfl | ⟨s, hs, hgrows⟩
      · exact .new
      · obtain ⟨f, hf⟩ := h.inv.producer s hs
        exact (h.sole s hs).grows hf hgrows

end SoleInv

theorem reachable_soleInv {q : Queue α ι} {c : ι} (h : (queue α ι).Reachable (Consumes c) q) :
    q.SoleInv c :=
  h.invariant (I := fun q => q.SoleInv c) (fun _ hs => hs ▸ ⟨.new, by simp⟩)
    fun _ _ _ hinv ha hst => hinv.step ha hst

/-- To a sole consumer, the elements of every producer come in the order in which they were
    enqueued, and none that was enqueued before is left out. -/
theorem queue_fifo {q : Queue α ι} {c : ι} (h : (queue α ι).Reachable (Consumes c) q) :
    ∀ s ∈ q.producers, s.taken.map Prod.snd ++ s.inCells = s.published ∧
      (s.taken.map Prod.snd).Sublist (q.results.filterMap Prod.snd) := by
  intro s hs
  have hinv := reachable_soleInv h
  obtain ⟨f, hf⟩ := hinv.inv.producer s hs
  refine ⟨(hinv.sole s hs).fifo hf, ?_⟩
  rw [← map_found]
  exact (hinv.inv.order s hs).map _

instance (q : Queue α Unit) (a : Action α Unit) : Decidable (Consumes () q a) :=
  decidable_of_iff q.Below ⟨fun hb => ⟨hb, fun _ _ => rfl⟩, And.left⟩

/-- Two threads have enqueued. -/
def twoProducers : List (Action ℕ Unit) :=
  [.join, .enqueue 0 10 true, .publish 0, .join, .enqueue 1 20 true, .publish 1,
    .enqueue 0 30 true, .publish 0]

theorem queue_fifo_twoProducers : ∃ q : Queue ℕ Unit,
    (queue ℕ Unit).Reachable (Consumes ()) q ∧ q.results = [((), some 10)] ∧
      ∀ s ∈ q.producers, s.taken.map Prod.snd ++ s.inCells = s.published ∧
        (s.taken.map Prod.snd).Sublist (q.results.filterMap Prod.snd) := by
  have hrun : ((queue ℕ Unit).execIf (Consumes ()) {}
      (twoProducers ++ List.replicate 13 (.tryDequeue ()))).map Queue.results =
        some [((), some 10)] := by
    decide +kernel
  obtain ⟨q, hq, hresults⟩ := Option.map_eq_some_iff.mp hrun
  have hreach := System.Reachable.execIf (.init rfl) hq
  exact ⟨q, hreach, hresults, queue_fifo hreach⟩

/-! ## Finding an element -/

/-- There is an element at the producer `p`. -/
def Stocked (q : Queue α ι) (p : ℕ) : Prop :=
  ∃ s ∈ q.producers[p]?, s.headIndex.toNat < s.tailIndex.toNat

/-- The sole consumer `c` will find an element if its call goes on at `d`. -/
def Finding (q : Queue α ι) (c : ι) (d : TryDequeue) : Prop :=
  match d with
  | .idle => ∃ p, q.Stocked p
  | .scan left n b _ => (n = 0 → ∃ p < left, q.Stocked p) ∧ ∀ p ∈ b, q.Stocked p
  | .scanned tail left n b _ => (∀ p ∈ b, q.Stocked p) ∧ ∃ s ∈ q.producers[left - 1]?,
      tail.toNat ≤ s.tailIndex.toNat ∧
        (n = 0 → s.headIndex.toNat < tail.toNat ∨ ∃ p < left - 1, q.Stocked p)
  | .best p => ∃ s ∈ q.producers[p]?, s.Finds (s.threads c)
  | .again _ => False
  | .rest _ _ => False

namespace Finding

variable {q q' : Queue α ι} {c : ι}

omit [DecidableEq ι] in
theorem stocked_mono (hgrows : ∀ p : ℕ, ∀ s ∈ q.producers[p]?, ∃ s' ∈ q'.producers[p]?, s.Grows s')
    {p : ℕ} (h : q.Stocked p) : q'.Stocked p := by
  obtain ⟨s, hs, hlt⟩ := h
  obtain ⟨s', hs', hgrows⟩ := hgrows p s hs
  refine ⟨s', hs', ?_⟩
  rw [hgrows.headIndex]
  exact hlt.trans_le hgrows.tailIndex

omit [DecidableEq ι] in
/-- The threads that enqueue do not get in the way. -/
theorem mono {d : TryDequeue} (h : q.Finding c d)
    (hgrows : ∀ p : ℕ, ∀ s ∈ q.producers[p]?, ∃ s' ∈ q'.producers[p]?, s.Grows s') :
    q'.Finding c d := by
  have hstocked {p : ℕ} (h : q.Stocked p) := stocked_mono hgrows h
  cases d with
  | idle => exact h.imp fun p hp => hstocked hp
  | scan left n b size =>
    exact ⟨fun hn => (h.1 hn).imp fun p hp => ⟨hp.1, hstocked hp.2⟩,
      fun p hp => hstocked (h.2 p hp)⟩
  | scanned tail left n b size =>
    obtain ⟨hb, s, hs, hle, hn⟩ := h
    obtain ⟨s', hs', hgrows⟩ := hgrows _ s hs
    refine ⟨fun p hp => hstocked (hb p hp), s', hs', hle.trans hgrows.tailIndex, fun hzero => ?_⟩
    rw [hgrows.headIndex]
    exact (hn hzero).imp_right fun ⟨p, hp, hp'⟩ => ⟨p, hp, hstocked hp'⟩
  | best p =>
    obtain ⟨s, hs, hfinds⟩ := h
    obtain ⟨s', hs', hgrows⟩ := hgrows _ s hs
    refine ⟨s', hs', ?_⟩
    rw [hgrows.threads]
    exact hfinds.grows hgrows
  | again p => exact h
  | rest p left => exact h

/-- A step of the consumer: it goes on towards an element, or its call returns one. -/
theorem tryDequeue (h : q.Finding c (q.calls c)) (hinv : q.SoleInv c) (hb : q.Below)
    (hst : q.tryDequeue c = some q') :
    (q'.results = q.results ∧ q'.Finding c (q'.calls c)) ∨
      ∃ x, q'.results = q.results ++ [(c, some x)] := by
  have hvalid := hinv.inv.valid c
  have hgo {d : TryDequeue} (hd : q.Finding c d) :
      (q.goTo c d).results = q.results ∧ (q.goTo c d).Finding c ((q.goTo c d).calls c) := by
    refine ⟨rfl, ?_⟩
    change (q.goTo c d).Finding c (Function.update q.calls c d c)
    rw [Function.update_self]
    exact hd
  have hstart : (q.calls c).producer? = none → ∀ p, q.Stocked p → q.Finding c (.best p) := by
    intro hcall p ⟨s, hs, hlt⟩
    refine ⟨s, hs, ?_⟩
    rw [hinv.inv.start p s hs c (by simp [hcall])]
    exact hlt
  rw [Queue.tryDequeue] at hst
  rcases hc : q.calls c with _ | ⟨left, n, b, size⟩ | ⟨tail, left, n, b, size⟩ | b | b | ⟨b, left⟩
  all_goals rw [hc] at h hvalid hst hstart
  case idle =>
    obtain rfl := Option.some.inj hst
    obtain ⟨p, s, hs, hlt⟩ := h
    exact .inl (hgo ⟨fun _ => ⟨p, (List.getElem?_eq_some_iff.mp hs).1, s, hs, hlt⟩,
      fun _ hp => by cases hp⟩)
  case scan =>
    obtain ⟨hstocked, hb'⟩ := h
    dsimp only at hst
    split_ifs at hst with hmore hpos
    · obtain ⟨s, hs, hst⟩ := Option.bind_eq_some_iff.mp hst
      obtain rfl := Option.some.inj hst
      refine .inl (hgo ⟨hb', s, hs, le_rfl, fun hn => ?_⟩)
      obtain ⟨p, hp, hstocked⟩ := hstocked hn
      by_cases hlast : p = left - 1
      · subst hlast
        obtain ⟨t, ht, hlt⟩ := hstocked
        obtain rfl := Option.some.inj (hs.symm.trans ht)
        exact .inl hlt
      · exact .inr ⟨p, by omega, hstocked⟩
    · cases b with
      | none => exact absurd (hvalid.2.1 rfl).1 (by omega)
      | some b =>
        obtain rfl := Option.some.inj hst
        exact .inl (hgo (hstart rfl b (hb' b rfl)))
    · obtain ⟨p, hp, -⟩ := hstocked (by omega)
      omega
  case scanned =>
    obtain ⟨hb', s, hs, hle, hn⟩ := h
    obtain ⟨hpos, -, -, -⟩ := hvalid
    have hmem := List.mem_of_getElem? hs
    obtain ⟨f, hf⟩ := hinv.inv.producer s hmem
    obtain ⟨htail, -⟩ := hb s hmem
    have hsize := Producer.sizeApprox_pos_iff (hle.trans_lt htail) (hf.head_le_tail.trans_lt htail)
    obtain ⟨t, ht, hst⟩ := Option.bind_eq_some_iff.mp hst
    obtain rfl := Option.some.inj (hs.symm.trans ht)
    dsimp only at hst
    split_ifs at hst with hgt hbest
    · obtain rfl := Option.some.inj hst
      refine .inl (hgo ⟨fun hn => by omega, fun p hp => ?_⟩)
      obtain rfl := Option.mem_some_iff.mp hp
      exact ⟨s, hs, (hsize.mp hgt).trans_le hle⟩
    · obtain rfl := Option.some.inj hst
      exact .inl (hgo ⟨fun hn => by omega, hb'⟩)
    · obtain rfl := Option.some.inj hst
      exact .inl (hgo ⟨fun hzero => (hn hzero).resolve_left (mt hsize.mpr hgt), hb'⟩)
  case best =>
    obtain ⟨s, hs, hfinds⟩ := h
    have hmem := List.mem_of_getElem? hs
    obtain ⟨f, hf⟩ := hinv.inv.producer s hmem
    obtain ⟨t, ht, hst⟩ := Option.bind_eq_some_iff.mp hst
    obtain rfl := Option.some.inj (hs.symm.trans ht)
    have hstep := hfinds.dequeue (hinv.sole s hmem) hf (hb s hmem)
    rcases hr : s.dequeue c with ⟨s', found⟩
    rw [hr] at hst hstep
    rcases hstep with ⟨hfound, hfinds'⟩ | ⟨x, hfound⟩
    · dsimp only at hfound
      subst hfound
      obtain rfl := Option.some.inj hst
      refine .inl ⟨rfl, ?_⟩
      rw [hc]
      refine ⟨s', ?_, hfinds'⟩
      exact List.getElem?_set_self (List.getElem?_eq_some_iff.mp hs).1
    · dsimp only at hfound
      subst hfound
      obtain rfl := Option.some.inj hst
      exact .inr ⟨x, rfl⟩
  case again => exact absurd h id
  case rest => exact absurd h id

end Finding

/-- In a run, the call of the sole consumer is still on its way, or has returned an element. -/
theorem exec_finding {c : ι} {q q' : Queue α ι} {as : List (Action α ι)} (h : q.SoleInv c)
    (hfinding : q.Finding c (q.calls c)) (has : (queue α ι).Along (Consumes c) q as)
    (hst : (queue α ι).exec q as = some q') :
    (q'.results = q.results ∧ q'.Finding c (q'.calls c)) ∨
      ∃ x, q.results ++ [(c, some x)] <+: q'.results := by
  induction as generalizing q with
  | nil =>
    obtain rfl := Option.some.inj hst
    exact .inl ⟨rfl, hfinding⟩
  | cons a as ih =>
    obtain ⟨t, ht, hst⟩ := Option.bind_eq_some_iff.mp hst
    obtain ⟨hb, hsole⟩ := has.1
    have hnext : (t.results = q.results ∧ t.Finding c (t.calls c)) ∨
        ∃ x, t.results = q.results ++ [(c, some x)] := by
      by_cases hact : ∃ c', a = .tryDequeue c'
      · obtain ⟨c', rfl⟩ := hact
        obtain rfl := hsole c' rfl
        exact hfinding.tryDequeue h hb ht
      · obtain ⟨hcalls, hresults, hgrows, -⟩ := grows_of_step hb (fun c' hc' => hact ⟨c', hc'⟩) ht
        exact .inl ⟨hresults, hcalls ▸ hfinding.mono hgrows⟩
    rcases hnext with ⟨hresults, hfinding'⟩ | ⟨x, hx⟩
    · have hrest := ih (h.step has.1 ht) hfinding' (has.2 t ht) hst
      rwa [hresults] at hrest
    · exact .inr ⟨x, hx ▸ results_of_exec (fun _ _ ha => ha.1) (has.2 t ht) hst⟩

/-- A call of the sole consumer that begins when some producer is not empty returns an element,
    whatever the threads that enqueue do in the meantime. -/
theorem queue_finds {c : ι} {q q' : Queue α ι} {as : List (Action α ι)}
    (h : (queue α ι).Reachable (Consumes c) q) (hidle : q.calls c = .idle)
    (hnonempty : ∃ s ∈ q.producers, s.headIndex ≠ s.tailIndex)
    (has : (queue α ι).Along (Consumes c) q as) (hst : (queue α ι).exec q as = some q') :
    q'.results = q.results ∨ ∃ x, q.results ++ [(c, some x)] <+: q'.results := by
  have hinv := reachable_soleInv h
  have hfinding : q.Finding c (q.calls c) := by
    obtain ⟨s, hs, hne⟩ := hnonempty
    obtain ⟨f, hf⟩ := hinv.inv.producer s hs
    obtain ⟨p, hp⟩ := List.mem_iff_getElem?.mp hs
    have hlt := hf.head_le_tail.lt_of_ne (mt UInt64.toNat_inj.mp hne)
    rw [hidle]
    exact ⟨p, s, hp, hlt⟩
  exact (exec_finding hinv hfinding has hst).imp_left And.left

/-- A call of the consumer, in the middle of which a thread enqueues. -/
def finding : List (Action ℕ Unit) :=
  List.replicate 5 (.tryDequeue ()) ++ [.enqueue 1 40 true, .publish 1] ++
    List.replicate 8 (.tryDequeue ())

theorem queue_finds_twoProducers : ∃ q q' : Queue ℕ Unit,
    (queue ℕ Unit).Reachable (Consumes ()) q ∧ q.results = [] ∧ q'.results = [((), some 10)] ∧
      (q'.results = q.results ∨ ∃ x, q.results ++ [((), some x)] <+: q'.results) := by
  have hrun : ((queue ℕ Unit).execIf (Consumes ()) {} twoProducers).bind (fun q =>
      ((queue ℕ Unit).exec q finding).map fun q' => (q.results, q'.results,
        decide (q.calls () = .idle), decide (∃ s ∈ q.producers, s.headIndex ≠ s.tailIndex),
        decide ((queue ℕ Unit).Along (Consumes ()) q finding))) =
      some ([], [((), some 10)], true, true, true) := by
    decide +kernel
  obtain ⟨q, hq, hrun⟩ := Option.bind_eq_some_iff.mp hrun
  obtain ⟨q', hq', hrun⟩ := Option.map_eq_some_iff.mp hrun
  simp only [Prod.mk.injEq, decide_eq_true_eq] at hrun
  obtain ⟨hresults, hresults', hidle, hnonempty, halong⟩ := hrun
  have hreach := System.Reachable.execIf (.init rfl) hq
  exact ⟨q, q', hreach, hresults, hresults', queue_finds hreach hidle hnonempty halong hq'⟩

end Queue

end BurstPoolNode.ConcurrentQueue

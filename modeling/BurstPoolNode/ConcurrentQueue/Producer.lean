import BurstPoolNode.ConcurrentQueue

/-!
# One producer

What holds of a producer in any interleaving, as long as the counters are below
2⁶³: the tickets are those of `Tickets`, the elements published being the
items, so that no index is handed out beyond the tail, and every cell that is
read holds the element that was put there.

* `Producer.Inv`: the invariant, given which tickets are granted and refused,
  which of them have already moved the counters, and which indexes are read.
* `Inv.conservation`: what is taken and what is still in the cells is what has
  been published.
-/

namespace BurstPoolNode.ConcurrentQueue

variable {α ι : Type*}

/-- Numbers below 2⁶³ are compared as they are. -/
theorem circularLessThan_iff {a b : UInt64} (ha : a.toNat < 2 ^ 63) (hb : b.toNat < 2 ^ 63) :
    circularLessThan a b ↔ a.toNat < b.toNat := by
  have hshift : ((1 : UInt64) <<< 63).toNat = 2 ^ 63 := rfl
  rw [circularLessThan, decide_eq_true_iff, gt_iff_lt, UInt64.lt_iff_toNat_lt, hshift,
    UInt64.toNat_sub]
  omega

theorem toNat_succ {a : UInt64} (h : a.toNat < 2 ^ 63) : (a + 1).toNat = a.toNat + 1 := by
  rw [UInt64.toNat_add, UInt64.toNat_one]
  omega

theorem filterMap_range (xs : List α) :
    (List.range xs.length).filterMap (fun i => xs[i]?) = xs := by
  induction xs with
  | nil => rfl
  | cons x xs ih =>
    rw [List.length_cons, List.range_succ_eq_map, List.filterMap_cons_some List.getElem?_cons_zero,
      List.filterMap_map]
    exact congrArg (x :: ·) ih

namespace Dequeue

/-- The ticket of a thread. -/
def ticket? : Dequeue → Option ℕ
  | .ticket _ k => some k.toNat
  | .granted k => some k.toNat
  | .refused k => some k.toNat
  | _ => none

/-- The index of a thread. -/
def index? : Dequeue → Option ℕ
  | .indexed i => some i.toNat
  | _ => none

end Dequeue

namespace Producer

/-- What has become of the tickets and of the indexes. -/
structure Fates where
  granted : Finset ℕ := ∅
  refused : Finset ℕ := ∅
  /-- Granted, and the head is moved. -/
  claimed : Finset ℕ := ∅
  /-- Refused, and counted as overcommitted. -/
  returned : Finset ℕ := ∅
  read : List ℕ := []

/-- What holds of a thread. -/
def ThreadInv (s : Producer α ι) (f : Fates) : Dequeue → Prop
  | .start => True
  | .loadedTail _ => True
  | .loadedOvercommit _ oc => oc.toNat ≤ s.dequeueOvercommit.toNat
  | .entered oc => oc.toNat ≤ s.dequeueOvercommit.toNat
  | .ticket oc k => k.toNat < s.dequeueOptimisticCount.toNat ∧ k.toNat ∉ f.granted ∧
      k.toNat ∉ f.refused ∧ oc.toNat ≤ Tickets.before f.refused k.toNat
  | .granted k => k.toNat ∈ f.granted ∧ k.toNat ∉ f.claimed
  | .refused k => k.toNat ∈ f.refused ∧ k.toNat ∉ f.returned
  | .indexed i => i.toNat < s.headIndex.toNat ∧ i.toNat ∉ f.read

structure Inv (s : Producer α ι) (f : Fates) : Prop where
  granted_lt : ∀ k ∈ f.granted, k < s.dequeueOptimisticCount.toNat
  refused_lt : ∀ k ∈ f.refused, k < s.dequeueOptimisticCount.toNat
  disjoint : Disjoint f.granted f.refused
  claimed_subset : f.claimed ⊆ f.granted
  returned_subset : f.returned ⊆ f.refused
  card_claimed : f.claimed.card = s.headIndex.toNat
  card_returned : f.returned.card = s.dequeueOvercommit.toNat
  length_published : s.published.length = s.tailIndex.toNat
  /-- A ticket is granted only when there is an element for it. -/
  granted : ∀ k ∈ f.granted, k < s.tailIndex.toNat + Tickets.before f.refused k
  thread : ∀ c, s.ThreadInv f (s.threads c)
  ticket_inj : ∀ c c', ∀ k ∈ (s.threads c).ticket?, k ∈ (s.threads c').ticket? → c = c'
  index_inj : ∀ c c', ∀ i ∈ (s.threads c).index?, i ∈ (s.threads c').index? → c = c'
  /-- The index of an element that is not read is at a thread or still to be handed out. -/
  covered : ∀ i < s.headIndex.toNat, i ∉ f.read → ∃ c, i ∈ (s.threads c).index?
  cell : ∀ i (h : i < s.published.length),
    s.cells (UInt64.ofNat i) = if i ∈ f.read then none else some s.published[i]
  enqueuing : ∀ x ∈ s.enqueuing, s.cells s.tailIndex = some x
  read_lt : ∀ i ∈ f.read, i < s.headIndex.toNat
  read_nodup : f.read.Nodup
  taken : s.taken.map (fun r => some r.2) = f.read.map fun i => s.published[i]?
  fault : s.fault = false

/-- What is published and still in its cell, oldest first. -/
def inCells (s : Producer α ι) : List α :=
  (List.range s.published.length).filterMap fun i => s.cells (UInt64.ofNat i)

/-- The counters are below 2⁶³. -/
def Below (s : Producer α ι) : Prop :=
  s.tailIndex.toNat < 2 ^ 63 ∧ s.dequeueOptimisticCount.toNat < 2 ^ 63

namespace Inv

variable {s : Producer α ι} {f : Fates}

theorem new : Inv ({} : Producer α ι) {} where
  granted_lt := by simp
  refused_lt := by simp
  disjoint := by simp
  claimed_subset := by simp
  returned_subset := by simp
  card_claimed := rfl
  card_returned := rfl
  length_published := rfl
  granted := by simp
  thread _ := trivial
  ticket_inj := by simp [Dequeue.ticket?]
  index_inj := by simp [Dequeue.index?]
  covered := by simp
  cell := by simp
  enqueuing := by simp
  read_lt := by simp
  read_nodup := by simp
  taken := rfl
  fault := rfl

/-- No index is handed out beyond the tail. -/
theorem head_le_tail (h : s.Inv f) : s.headIndex.toNat ≤ s.tailIndex.toNat := by
  rw [← h.card_claimed]
  exact (Finset.card_le_card h.claimed_subset).trans (Tickets.card_granted_le h.disjoint h.granted)

/-- A granted ticket that has not moved the head yet: there is an element for it. -/
theorem head_lt_tail (h : s.Inv f) {k : ℕ} (hk : k ∈ f.granted) (hk' : k ∉ f.claimed) :
    s.headIndex.toNat < s.tailIndex.toNat := by
  rw [← h.card_claimed]
  have hlt : f.claimed.card < f.granted.card :=
    Finset.card_lt_card ⟨h.claimed_subset, fun hsub => hk' (hsub hk)⟩
  exact hlt.trans_le (Tickets.card_granted_le h.disjoint h.granted)

theorem overcommit_le (h : s.Inv f) :
    s.dequeueOvercommit.toNat ≤ s.dequeueOptimisticCount.toNat := by
  rw [← h.card_returned]
  refine (Finset.card_le_card fun k hk => Finset.mem_range.mpr ?_).trans_eq (Finset.card_range _)
  exact h.refused_lt k (h.returned_subset hk)

/-! ## Threads -/

/-- A thread keeps what holds of it when the others go on. -/
theorem thread_mono {s s' : Producer α ι} {f f' : Fates} {d : Dequeue} (h : s.ThreadInv f d)
    (hovercommit : s.dequeueOvercommit.toNat ≤ s'.dequeueOvercommit.toNat)
    (hcount : s.dequeueOptimisticCount.toNat ≤ s'.dequeueOptimisticCount.toNat)
    (hhead : s.headIndex.toNat ≤ s'.headIndex.toNat) (hrefused : f.refused ⊆ f'.refused)
    (hticket : ∀ k ∈ d.ticket?, (k ∈ f'.granted ↔ k ∈ f.granted) ∧
      (k ∈ f'.refused ↔ k ∈ f.refused) ∧ (k ∈ f'.claimed ↔ k ∈ f.claimed) ∧
      (k ∈ f'.returned ↔ k ∈ f.returned))
    (hindex : ∀ i ∈ d.index?, i ∈ f'.read ↔ i ∈ f.read) : s'.ThreadInv f' d := by
  cases d with
  | start => trivial
  | loadedTail tail => trivial
  | loadedOvercommit tail oc => exact le_trans h hovercommit
  | entered oc => exact le_trans h hovercommit
  | ticket oc k =>
    obtain ⟨hg, hr, -, -⟩ := hticket k.toNat rfl
    exact ⟨h.1.trans_le hcount, mt hg.mp h.2.1, mt hr.mp h.2.2.1,
      h.2.2.2.trans (Tickets.before_mono hrefused _)⟩
  | granted k =>
    obtain ⟨hg, -, hc, -⟩ := hticket k.toNat rfl
    exact ⟨hg.mpr h.1, mt hc.mp h.2⟩
  | refused k =>
    obtain ⟨-, hr, -, hr'⟩ := hticket k.toNat rfl
    exact ⟨hr.mpr h.1, mt hr'.mp h.2⟩
  | indexed i => exact ⟨h.1.trans_le hhead, mt (hindex i.toNat rfl).mp h.2⟩

variable [DecidableEq ι]

theorem forall_update {P : Dequeue → Prop} {threads : ι → Dequeue} {c : ι} {d : Dequeue} (hd : P d)
    (h : ∀ c' ≠ c, P (threads c')) (c' : ι) : P (Function.update threads c d c') := by
  by_cases hc : c' = c
  · rw [hc, Function.update_self]
    exact hd
  · rw [Function.update_of_ne hc]
    exact h c' hc

/-- Numbers stay at one thread when the thread `c` has a new one, or the one it had. -/
theorem inj_update {g : Dequeue → Option ℕ} {threads : ι → Dequeue} {c : ι} {d : Dequeue}
    (h : ∀ c c', ∀ k ∈ g (threads c), k ∈ g (threads c') → c = c')
    (hd : ∀ k ∈ g d, ∀ c' ≠ c, k ∉ g (threads c')) :
    ∀ c₁ c₂, ∀ k ∈ g (Function.update threads c d c₁),
      k ∈ g (Function.update threads c d c₂) → c₁ = c₂ := by
  intro c₁ c₂ k h₁ h₂
  by_cases hc₁ : c₁ = c
  · by_cases hc₂ : c₂ = c
    · rw [hc₁, hc₂]
    · rw [hc₁, Function.update_self] at h₁
      rw [Function.update_of_ne hc₂] at h₂
      exact absurd h₂ (hd k h₁ c₂ hc₂)
  · rw [Function.update_of_ne hc₁] at h₁
    by_cases hc₂ : c₂ = c
    · rw [hc₂, Function.update_self] at h₂
      exact absurd h₁ (hd k h₂ c₁ hc₁)
    · rw [Function.update_of_ne hc₂] at h₂
      exact h c₁ c₂ k h₁ h₂

/-- What is covered stays so when the thread `c` keeps its index. -/
theorem exists_index_update {threads : ι → Dequeue} {c : ι} {d : Dequeue} {i : ℕ}
    (hd : i ∈ (threads c).index? → i ∈ d.index?) (h : ∃ c, i ∈ (threads c).index?) :
    ∃ c', i ∈ (Function.update threads c d c').index? := by
  obtain ⟨c', hc'⟩ := h
  by_cases hc : c' = c
  · exact ⟨c, by rw [Function.update_self]; exact hd (hc ▸ hc')⟩
  · exact ⟨c', by rwa [Function.update_of_ne hc]⟩

/-- A thread that goes on without a ticket or an index. -/
theorem goTo (h : s.Inv f) {c : ι} {d : Dequeue} (hd : s.ThreadInv f d) (hticket : d.ticket? = none)
    (hindex : (s.threads c).index? = none) (hindex' : d.index? = none) : (s.goTo c d).Inv f where
  __ := h
  thread := forall_update hd fun c' _ => h.thread c'
  ticket_inj := inj_update h.ticket_inj (by simp [hticket])
  index_inj := inj_update h.index_inj (by simp [hindex'])
  covered i hi hread := exists_index_update (by simp [hindex]) (h.covered i hi hread)

/-! ## Steps -/

/-- Drawing a ticket, whose number is that of the tickets drawn before. -/
theorem draw (h : s.Inv f) (hb : s.dequeueOptimisticCount.toNat < 2 ^ 63) {c : ι} {oc : UInt64}
    (hc : s.threads c = .entered oc) :
    Inv { s.goTo c (.ticket oc s.dequeueOptimisticCount) with
      dequeueOptimisticCount := s.dequeueOptimisticCount + 1 } f := by
  have hsucc := toNat_succ hb
  have hoc : oc.toNat ≤ s.dequeueOvercommit.toNat := by
    have := h.thread c
    rwa [hc] at this
  have hbefore : oc.toNat ≤ Tickets.before f.refused s.dequeueOptimisticCount.toNat := by
    rw [Tickets.before_of_forall_lt h.refused_lt]
    exact (hoc.trans_eq h.card_returned.symm).trans (Finset.card_le_card h.returned_subset)
  -- No thread has this ticket yet.
  have hfresh : ∀ c', s.dequeueOptimisticCount.toNat ∉ (s.threads c').ticket? := by
    intro c' hk
    have hinv := h.thread c'
    generalize s.threads c' = d at hk hinv
    cases d with
    | ticket oc k =>
      rw [Dequeue.ticket?, Option.mem_some_iff] at hk
      exact absurd hinv.1 (by omega)
    | granted k =>
      rw [Dequeue.ticket?, Option.mem_some_iff] at hk
      exact absurd (h.granted_lt _ hinv.1) (by omega)
    | refused k =>
      rw [Dequeue.ticket?, Option.mem_some_iff] at hk
      exact absurd (h.refused_lt _ hinv.1) (by omega)
    | _ => cases hk
  exact {
    h with
    granted_lt := fun k hk => (h.granted_lt k hk).trans (by dsimp only; omega)
    refused_lt := fun k hk => (h.refused_lt k hk).trans (by dsimp only; omega)
    thread := forall_update
      ⟨by dsimp only; omega, fun hk => absurd (h.granted_lt _ hk) (Nat.lt_irrefl _),
        fun hk => absurd (h.refused_lt _ hk) (Nat.lt_irrefl _), hbefore⟩
      fun c' _ => thread_mono (h.thread c') le_rfl (by dsimp only; omega) le_rfl subset_rfl
        (fun _ _ => ⟨Iff.rfl, Iff.rfl, Iff.rfl, Iff.rfl⟩) fun _ _ => Iff.rfl
    ticket_inj := inj_update h.ticket_inj fun k hk c' _ => by
      rw [Dequeue.ticket?, Option.mem_some_iff] at hk
      exact hk ▸ hfresh c'
    index_inj := inj_update h.index_inj fun _ hi => by cases hi
    covered := fun i hi hread =>
      exists_index_update (by simp [hc, Dequeue.index?]) (h.covered i hi hread) }

omit [DecidableEq ι] in
/-- The tickets of the other threads are not that of the thread `c`. -/
theorem ticket_ne (h : s.Inv f) {c c' : ι} {k : ℕ} (hc : k ∈ (s.threads c).ticket?) (hne : c' ≠ c)
    {j : ℕ} (hj : j ∈ (s.threads c').ticket?) : j ≠ k :=
  fun hjk => hne (h.ticket_inj c' c j hj (hjk ▸ hc))

/-- A ticket for which there is an element is granted. -/
theorem grant (h : s.Inv f) {c : ι} {oc k : UInt64} (hc : s.threads c = .ticket oc k)
    (hlt : k.toNat - oc.toNat < s.tailIndex.toNat) :
    (s.goTo c (.granted k)).Inv { f with granted := insert k.toNat f.granted } := by
  obtain ⟨hk, hg, hr, hoc⟩ : s.ThreadInv f (.ticket oc k) := hc ▸ h.thread c
  have hmem : k.toNat ∈ (s.threads c).ticket? := by rw [hc]; rfl
  exact {
    h with
    granted_lt := fun j hj => (Finset.mem_insert.mp hj).elim (· ▸ hk) (h.granted_lt j)
    disjoint := Finset.disjoint_insert_left.mpr ⟨hr, h.disjoint⟩
    claimed_subset := h.claimed_subset.trans (Finset.subset_insert _ _)
    granted := fun j hj => (Finset.mem_insert.mp hj).elim
      (fun hjk => by
        subst hjk
        change k.toNat < s.tailIndex.toNat + Tickets.before f.refused k.toNat
        omega)
      (h.granted j)
    thread := forall_update
      ⟨Finset.mem_insert_self _ _, fun hk => hg (h.claimed_subset hk)⟩
      fun c' hne => thread_mono (h.thread c') le_rfl le_rfl le_rfl subset_rfl
        (fun j hj => ⟨by simp [h.ticket_ne hmem hne hj], Iff.rfl, Iff.rfl, Iff.rfl⟩)
        fun _ _ => Iff.rfl
    ticket_inj := inj_update h.ticket_inj fun j hj c' hne hj' =>
      h.ticket_ne hmem hne hj' (Option.mem_some_iff.mp hj).symm
    index_inj := inj_update h.index_inj fun _ hi => by cases hi
    covered := fun i hi hread =>
      exists_index_update (by simp [hc, Dequeue.index?]) (h.covered i hi hread) }

/-- A ticket for which there is none is refused. -/
theorem refuse (h : s.Inv f) {c : ι} {oc k : UInt64} (hc : s.threads c = .ticket oc k) :
    (s.goTo c (.refused k)).Inv { f with refused := insert k.toNat f.refused } := by
  obtain ⟨hk, hg, hr, hoc⟩ : s.ThreadInv f (.ticket oc k) := hc ▸ h.thread c
  have hmem : k.toNat ∈ (s.threads c).ticket? := by rw [hc]; rfl
  exact {
    h with
    refused_lt := fun j hj => (Finset.mem_insert.mp hj).elim (· ▸ hk) (h.refused_lt j)
    disjoint := Finset.disjoint_insert_right.mpr ⟨hg, h.disjoint⟩
    returned_subset := h.returned_subset.trans (Finset.subset_insert _ _)
    granted := fun j hj => (h.granted j hj).trans_le
      (Nat.add_le_add_left (Tickets.before_mono (Finset.subset_insert _ _) j) _)
    thread := forall_update
      ⟨Finset.mem_insert_self _ _, fun hk => hr (h.returned_subset hk)⟩
      fun c' hne => thread_mono (h.thread c') le_rfl le_rfl le_rfl (Finset.subset_insert _ _)
        (fun j hj => ⟨Iff.rfl, by simp [h.ticket_ne hmem hne hj], Iff.rfl, Iff.rfl⟩)
        fun _ _ => Iff.rfl
    ticket_inj := inj_update h.ticket_inj fun j hj c' hne hj' =>
      h.ticket_ne hmem hne hj' (Option.mem_some_iff.mp hj).symm
    index_inj := inj_update h.index_inj fun _ hi => by cases hi
    covered := fun i hi hread =>
      exists_index_update (by simp [hc, Dequeue.index?]) (h.covered i hi hread) }

/-- Taking the next index, with a ticket that is granted. -/
theorem claim (h : s.Inv f) (hb : s.tailIndex.toNat < 2 ^ 63) {c : ι} {k : UInt64}
    (hc : s.threads c = .granted k) :
    Inv { s.goTo c (.indexed s.headIndex) with headIndex := s.headIndex + 1 }
      { f with claimed := insert k.toNat f.claimed } := by
  obtain ⟨hg, hcl⟩ : s.ThreadInv f (.granted k) := hc ▸ h.thread c
  have hmem : k.toNat ∈ (s.threads c).ticket? := by rw [hc]; rfl
  have hlt := h.head_lt_tail hg hcl
  have hsucc := toNat_succ (hlt.trans hb)
  have hread : s.headIndex.toNat ∉ f.read := fun hi => Nat.lt_irrefl _ (h.read_lt _ hi)
  -- No thread has this index yet.
  have hfresh : ∀ c', s.headIndex.toNat ∉ (s.threads c').index? := by
    intro c' hi
    have hinv := h.thread c'
    generalize s.threads c' = d at hi hinv
    cases d with
    | indexed i =>
      rw [Dequeue.index?, Option.mem_some_iff] at hi
      exact absurd hinv.1 (by omega)
    | _ => cases hi
  exact {
    h with
    claimed_subset := Finset.insert_subset hg h.claimed_subset
    card_claimed := by rw [Finset.card_insert_of_notMem hcl, h.card_claimed, hsucc]
    thread := forall_update ⟨by dsimp only; omega, hread⟩
      fun c' hne => thread_mono (h.thread c') le_rfl le_rfl (by dsimp only; omega) subset_rfl
        (fun j hj => ⟨Iff.rfl, Iff.rfl, by simp [h.ticket_ne hmem hne hj], Iff.rfl⟩)
        fun _ _ => Iff.rfl
    ticket_inj := inj_update h.ticket_inj fun _ hj => by cases hj
    index_inj := inj_update h.index_inj fun i hi c' _ => by
      rw [Dequeue.index?, Option.mem_some_iff] at hi
      exact hi ▸ hfresh c'
    covered := fun i hi hread => by
      rcases Nat.lt_succ_iff_lt_or_eq.mp (hsucc ▸ hi : i < s.headIndex.toNat + 1) with hi | rfl
      · exact exists_index_update (by simp [hc, Dequeue.index?]) (h.covered i hi hread)
      · refine ⟨c, ?_⟩
        change _ ∈ (Function.update s.threads c (.indexed s.headIndex) c).index?
        rw [Function.update_self]
        rfl
    read_lt := fun i hi => (h.read_lt i hi).trans (by dsimp only; omega) }

/-- Giving a refused ticket back. -/
theorem giveBack (h : s.Inv f) (hb : s.dequeueOptimisticCount.toNat < 2 ^ 63) {c : ι} {k : UInt64}
    (hc : s.threads c = .refused k) :
    Inv { s.goTo c .start with dequeueOvercommit := s.dequeueOvercommit + 1 }
      { f with returned := insert k.toNat f.returned } := by
  obtain ⟨hr, hret⟩ : s.ThreadInv f (.refused k) := hc ▸ h.thread c
  have hmem : k.toNat ∈ (s.threads c).ticket? := by rw [hc]; rfl
  have hsucc := toNat_succ (h.overcommit_le.trans_lt hb)
  exact {
    h with
    returned_subset := Finset.insert_subset hr h.returned_subset
    card_returned := by rw [Finset.card_insert_of_notMem hret, h.card_returned, hsucc]
    thread := forall_update trivial
      fun c' hne => thread_mono (h.thread c') (by dsimp only; omega) le_rfl le_rfl subset_rfl
        (fun j hj => ⟨Iff.rfl, Iff.rfl, Iff.rfl, by simp [h.ticket_ne hmem hne hj]⟩)
        fun _ _ => Iff.rfl
    ticket_inj := inj_update h.ticket_inj fun _ hj => by cases hj
    index_inj := inj_update h.index_inj fun _ hi => by cases hi
    covered := fun i hi hread =>
      exists_index_update (by simp [hc, Dequeue.index?]) (h.covered i hi hread) }

omit [DecidableEq ι] in
theorem toNat_ofNat (h : s.Inv f) (hb : s.tailIndex.toNat < 2 ^ 63) {j : ℕ}
    (hj : j < s.published.length) : (UInt64.ofNat j).toNat = j := by
  rw [h.length_published] at hj
  exact UInt64.toNat_ofNat_of_lt' (by change j < 2 ^ 64; omega)

omit [DecidableEq ι] in
/-- The cell of an index that a thread has holds the element that was put there. -/
theorem cell_of_indexed (h : s.Inv f) {c : ι} {i : UInt64} (hc : s.threads c = .indexed i) :
    ∃ hi : i.toNat < s.published.length, s.cells i = some s.published[i.toNat] := by
  obtain ⟨hlt, hread⟩ : s.ThreadInv f (.indexed i) := hc ▸ h.thread c
  have hi : i.toNat < s.published.length := by
    rw [h.length_published]
    exact hlt.trans_le h.head_le_tail
  have hcell := h.cell i.toNat hi
  rw [if_neg hread, UInt64.ofNat_toNat] at hcell
  exact ⟨hi, hcell⟩

/-- Moving the element out of its cell. -/
theorem moveOut (h : s.Inv f) {c : ι} {i : UInt64} (hc : s.threads c = .indexed i) {x : α}
    (hx : s.cells i = some x) (hb : s.tailIndex.toNat < 2 ^ 63) :
    Inv { s.goTo c .start with
      cells := Function.update s.cells i none
      taken := s.taken ++ [(c, x)] } { f with read := f.read ++ [i.toNat] } := by
  obtain ⟨hlt, hread⟩ : s.ThreadInv f (.indexed i) := hc ▸ h.thread c
  have hmem : i.toNat ∈ (s.threads c).index? := by rw [hc]; rfl
  obtain ⟨hi, hcell⟩ := h.cell_of_indexed hc
  exact {
    h with
    thread := forall_update trivial
      fun c' hne => thread_mono (h.thread c') le_rfl le_rfl le_rfl subset_rfl
        (fun _ _ => ⟨Iff.rfl, Iff.rfl, Iff.rfl, Iff.rfl⟩)
        fun j hj => by
          have hji : j ≠ i.toNat := fun hji => hne (h.index_inj c' c j hj (hji ▸ hmem))
          simp [hji]
    ticket_inj := inj_update h.ticket_inj fun _ hj => by cases hj
    index_inj := inj_update h.index_inj fun _ hj => by cases hj
    covered := fun j hj hjread => by
      rw [List.mem_append, not_or, List.mem_singleton] at hjread
      refine exists_index_update (fun hjc => ?_) (h.covered j hj hjread.1)
      rw [hc, Dequeue.index?, Option.mem_some_iff] at hjc
      exact absurd hjc.symm hjread.2
    cell := fun j hj => by
      by_cases hji : j = i.toNat
      · subst hji
        simp only [UInt64.ofNat_toNat, Function.update_self]
        rw [if_pos (by simp)]
      · have hne : UInt64.ofNat j ≠ i := fun hne => hji (by rw [← hne, h.toNat_ofNat hb hj])
        simp only [Function.update_of_ne hne, h.cell j hj, List.mem_append, List.mem_singleton, hji,
          or_false]
        rfl
    enqueuing := fun y hy => by
      have hne : s.tailIndex ≠ i := fun hne => by
        rw [← hne] at hi
        exact Nat.lt_irrefl _ (h.length_published ▸ hi)
      exact (Function.update_of_ne hne ..).trans (h.enqueuing y hy)
    read_lt := fun j hj => (List.mem_append.mp hj).elim (h.read_lt j)
      fun hj => List.mem_singleton.mp hj ▸ hlt
    read_nodup := h.read_nodup.append (List.nodup_singleton _) (by simpa using hread)
    taken := by
      have hlast : some x = s.published[i.toNat]? := by
        rw [List.getElem?_eq_getElem hi, ← hcell, hx]
      rw [List.map_append, List.map_append, h.taken, List.map_singleton, List.map_singleton]
      exact congrArg (_ ++ [·]) hlast }

omit [DecidableEq ι] in
/-- Putting an element into the cell of the tail. -/
theorem put (h : s.Inv f) (hb : s.tailIndex.toNat < 2 ^ 63) (x : α) :
    Inv { s with
      cells := Function.update s.cells s.tailIndex (some x)
      enqueuing := some x } f := by
  exact {
    h with
    cell := fun j hj => by
      have hne : UInt64.ofNat j ≠ s.tailIndex := fun hne => by
        have htail := h.length_published
        rw [← hne, h.toNat_ofNat hb hj] at htail
        exact Nat.lt_irrefl _ (htail ▸ hj)
      exact (Function.update_of_ne hne ..).trans (h.cell j hj)
    enqueuing := fun _ hy => (Function.update_self ..).trans hy }

omit [DecidableEq ι] in
theorem enqueue (h : s.Inv f) (hb : s.tailIndex.toNat < 2 ^ 63) {x : α} {memory : Bool}
    {s' : Producer α ι} (hs' : s.enqueue x memory = some s') : s'.Inv f := by
  rw [Producer.enqueue] at hs'
  split_ifs at hs'
  · exact Option.some.inj hs' ▸ h
  · exact Option.some.inj hs' ▸ h.put hb x

omit [DecidableEq ι] in
/-- Publishing the element in the cell of the tail. -/
theorem publish (h : s.Inv f) (hb : s.tailIndex.toNat < 2 ^ 63) {s' : Producer α ι}
    (hs' : s.publish = some s') : s'.Inv f := by
  obtain ⟨x, hx, rfl⟩ := Option.map_eq_some_iff.mp hs'
  have hcell := h.enqueuing x hx
  have hsucc : (1 + s.tailIndex).toNat = s.tailIndex.toNat + 1 := by
    rw [UInt64.add_comm, toNat_succ hb]
  have hread : s.tailIndex.toNat ∉ f.read := fun hi =>
    Nat.lt_irrefl _ ((h.read_lt _ hi).trans_le h.head_le_tail)
  exact {
    h with
    length_published := by rw [List.length_append, h.length_published, hsucc, List.length_singleton]
    granted := fun k hk => (h.granted k hk).trans (by dsimp only; omega)
    cell := fun j hj => by
      rw [List.length_append, List.length_singleton, Nat.lt_succ_iff_lt_or_eq] at hj
      rcases hj with hj | rfl
      · simp only [List.getElem_append_left hj]
        exact h.cell j hj
      · simp only [List.getElem_concat_length, h.length_published, UInt64.ofNat_toNat]
        rw [if_neg hread, hcell]
    enqueuing := by simp
    taken := by
      rw [h.taken]
      refine List.map_congr_left fun i hi => ?_
      rw [List.getElem?_append_left]
      rw [h.length_published]
      exact (h.read_lt i hi).trans_le h.head_le_tail }

/-! ## Dequeuing -/

/-- What a step of a thread in `dequeue` finds, and what it does not touch. -/
structure Found (s s' : Producer α ι) (c : ι) (found : Option (Option α)) : Prop where
  others : ∀ c' ≠ c, s'.threads c' = s.threads c'
  published : s'.published = s.published
  tailIndex : s'.tailIndex = s.tailIndex
  start : found.isSome → s'.threads c = .start
  taken : s'.taken = s.taken ++ (found.join.map (c, ·)).toList

theorem found_goTo (s : Producer α ι) (c : ι) (d : Dequeue) : Found s (s.goTo c d) c none where
  others _ hc := Function.update_of_ne hc ..
  published := rfl
  tailIndex := rfl
  start h := by cases h
  taken := (List.append_nil _).symm

theorem dequeue (h : s.Inv f) (hb : s.Below) (c : ι) :
    (∃ f', (s.dequeue c).1.Inv f') ∧ Found s (s.dequeue c).1 c (s.dequeue c).2 := by
  obtain ⟨htail, hcount⟩ := hb
  have hinv := h.thread c
  rw [Producer.dequeue]
  rcases hc : s.threads c with _ | tail | ⟨tail, oc⟩ | oc | ⟨oc, k⟩ | k | k | i
  all_goals rw [hc] at hinv
  case start => exact ⟨⟨f, h.goTo trivial rfl (by rw [hc]; rfl) rfl⟩, found_goTo ..⟩
  case loadedTail => exact ⟨⟨f, h.goTo (by exact le_rfl) rfl (by rw [hc]; rfl) rfl⟩, found_goTo ..⟩
  case loadedOvercommit =>
    dsimp only
    split_ifs
    · exact ⟨⟨f, h.goTo hinv rfl (by rw [hc]; rfl) rfl⟩, found_goTo ..⟩
    · exact ⟨⟨f, h.goTo trivial rfl (by rw [hc]; rfl) rfl⟩,
        { found_goTo s c .start with start := fun _ => Function.update_self .. }⟩
  case entered => exact ⟨⟨f, h.draw hcount hc⟩, { found_goTo s c _ with }⟩
  case ticket =>
    obtain ⟨hk, hg, hr, hoc⟩ := hinv
    dsimp only
    split_ifs with hlt
    · have hle : oc.toNat ≤ k.toNat := hoc.trans (Tickets.before_le ..)
      have hsub : (k - oc).toNat = k.toNat - oc.toNat :=
        UInt64.toNat_sub_of_le _ _ (UInt64.le_iff_toNat_le.mpr hle)
      rw [circularLessThan_iff (by omega) htail, hsub] at hlt
      exact ⟨⟨_, h.grant hc hlt⟩, found_goTo ..⟩
    · exact ⟨⟨_, h.refuse hc⟩, found_goTo ..⟩
  case granted => exact ⟨⟨_, h.claim htail hc⟩, { found_goTo s c _ with }⟩
  case refused =>
    exact ⟨⟨_, h.giveBack hcount hc⟩,
      { found_goTo s c .start with start := fun _ => Function.update_self .. }⟩
  case indexed =>
    obtain ⟨hi, hcell⟩ := h.cell_of_indexed hc
    dsimp only
    rw [hcell]
    exact ⟨⟨_, h.moveOut hc hcell htail⟩,
      { found_goTo s c .start with start := fun _ => Function.update_self .., taken := rfl }⟩

omit [DecidableEq ι] in
/-- What is taken and what is in the cells is what has been published. -/
theorem conservation (h : s.Inv f) :
    (s.taken.map Prod.snd ++ s.inCells).Perm s.published := by
  have htaken : s.taken.map Prod.snd = f.read.filterMap fun i => s.published[i]? := by
    have hjoin := congrArg (List.filterMap id) h.taken
    rw [List.filterMap_map, List.filterMap_map] at hjoin
    rw [← List.filterMap_eq_map]
    exact hjoin
  have hcells : s.inCells =
      ((List.range s.published.length).filter (· ∉ f.read)).filterMap
        fun i => s.published[i]? := by
    rw [inCells, List.filterMap_filter]
    refine List.filterMap_congr fun i hi => ?_
    have hi := List.mem_range.mp hi
    rw [h.cell i hi, List.getElem?_eq_getElem hi]
    by_cases hread : i ∈ f.read <;> simp [hread]
  have hrange : (f.read ++ (List.range s.published.length).filter (· ∉ f.read)).Perm
      (List.range s.published.length) := by
    refine (List.perm_ext_iff_of_nodup ?_ List.nodup_range).mpr fun i => ?_
    · refine List.Nodup.append h.read_nodup (List.nodup_range.filter _) fun i hi hi' => ?_
      exact of_decide_eq_true (List.mem_filter.mp hi').2 hi
    · have hlt := h.read_lt i
      have := h.head_le_tail
      rw [← h.length_published] at this
      simp only [List.mem_append, List.mem_filter, List.mem_range]
      by_cases hi : i ∈ f.read <;> simp [hi]
      exact (hlt hi).trans_le this
  rw [htaken, hcells, ← List.filterMap_append]
  exact (hrange.filterMap _).trans (.of_eq (filterMap_range _))

end Inv

end Producer

end BurstPoolNode.ConcurrentQueue

import BurstPoolNode.ConcurrentQueue.Calls

/-!
# Progress

No thread in `try_dequeue` waits for another to get its element: whatever the
others do, and however they are interleaved with it, its call has moved an
element out or found nothing after a number of its own steps that only the
number of producers bounds (`queue_decides`).

What comes after the move is not in the model and not counted: a call that has
emptied a block gives it back to the free list, and there it tries again as
often as another thread comes between. Nor is the lookup of the block, which is
a fixed number of loads.
-/

namespace BurstPoolNode.ConcurrentQueue

variable {α ι : Type*} [DecidableEq ι]

/-- How many steps there are in `dequeue` from here on, at most, until the element is moved
    out. -/
def Dequeue.remaining : Dequeue → ℕ
  | .start => 8
  | .loadedTail _ => 7
  | .loadedOvercommit _ _ => 6
  | .entered _ => 5
  | .ticket _ _ => 4
  | .granted _ => 3
  | .refused _ => 3
  | .indexed _ => 2

theorem Dequeue.remaining_pos (d : Dequeue) : 0 < d.remaining := by
  cases d <;> exact Nat.succ_pos _

theorem Dequeue.remaining_le (d : Dequeue) : d.remaining ≤ 8 := by
  cases d <;> simp [remaining]

namespace Producer

/-- A step in `dequeue` that is not the last one. -/
theorem remaining_dequeue {s : Producer α ι} {f : Fates} (hinv : s.Inv f) {c : ι}
    (h : (s.dequeue c).2 = none) :
    ((s.dequeue c).1.threads c).remaining < (s.threads c).remaining := by
  have hgo (s' : Producer α ι) (d : Dequeue) (hd : s'.threads c = d)
      (hlt : d.remaining < (s.threads c).remaining) :
      (s'.threads c).remaining < (s.threads c).remaining := hd ▸ hlt
  rw [Producer.dequeue] at h ⊢
  rcases hc : s.threads c with _ | tail | ⟨tail, oc⟩ | oc | ⟨oc, k⟩ | k | k | i
  all_goals rw [hc] at hgo h
  case start => exact hgo _ _ (Function.update_self ..) (Nat.lt_succ_self 7)
  case loadedTail => exact hgo _ _ (Function.update_self ..) (Nat.lt_succ_self 6)
  case loadedOvercommit =>
    dsimp only at h ⊢
    split_ifs at h ⊢
    exact hgo _ _ (Function.update_self ..) (Nat.lt_succ_self 5)
  case entered => exact hgo _ _ (Function.update_self ..) (Nat.lt_succ_self 4)
  case ticket =>
    dsimp only
    split_ifs
    · exact hgo _ _ (Function.update_self ..) (Nat.lt_succ_self 3)
    · exact hgo _ _ (Function.update_self ..) (Nat.lt_succ_self 3)
  case granted => exact hgo _ _ (Function.update_self ..) (Nat.lt_succ_self 2)
  case refused => cases h
  case indexed =>
    obtain ⟨hi, hcell⟩ := hinv.cell_of_indexed hc
    dsimp only at h
    rw [hcell] at h
    cases h

end Producer

namespace Queue

/-- How many steps a thread at `p` in the list has there, at most. -/
def ahead (q : Queue α ι) (c : ι) (p : ℕ) : ℕ :=
  (q.producers[p]?.map fun s => (s.threads c).remaining).getD 0

/-- How many steps there are in a call from `d` on, at most, with up to `n` producers. -/
def remaining (n : ℕ) (q : Queue α ι) (c : ι) : TryDequeue → ℕ
  | .idle => 11 * n + 12
  | .scan left _ _ _ => 9 * n + 11 + 2 * left
  | .scanned _ left _ _ _ => 9 * n + 10 + 2 * left
  | .best p => 9 * n + 2 + q.ahead c p
  | .again _ => 9 * n + 2
  | .rest _ 0 => 1
  | .rest _ (p + 1) => 9 * p + 1 + q.ahead c p

variable {n : ℕ} {q q' : Queue α ι} {c : ι}

omit [DecidableEq ι] in
theorem ahead_le (q : Queue α ι) (c : ι) (p : ℕ) : q.ahead c p ≤ 8 := by
  rw [ahead]
  cases q.producers[p]? with
  | none => exact Nat.zero_le _
  | some s => exact Dequeue.remaining_le _

omit [DecidableEq ι] in
theorem ahead_of_getElem? {p : ℕ} {s : Producer α ι} (hs : q.producers[p]? = some s) :
    q.ahead c p = (s.threads c).remaining := by
  rw [ahead, hs]
  rfl

omit [DecidableEq ι] in
theorem remaining_rest_le (p left : ℕ) : q.remaining n c (.rest p left) ≤ 9 * left + 1 := by
  cases left with
  | zero => exact le_rfl
  | succ left =>
    have := q.ahead_le c left
    simp only [remaining]
    omega

omit [DecidableEq ι] in
theorem remaining_le {d : TryDequeue} (hd : d.Valid n) : q.remaining n c d ≤ 11 * n + 12 := by
  cases d with
  | idle => exact le_rfl
  | scan left k b size =>
    have := hd.1
    simp only [remaining]
    omega
  | scanned tail left k b size =>
    have := hd.2.1
    simp only [remaining]
    omega
  | best p =>
    have := q.ahead_le c p
    simp only [remaining]
    omega
  | again p =>
    simp only [remaining]
    omega
  | rest p left =>
    have := hd.2
    exact (remaining_rest_le p left).trans (by omega)

/-- A step in `dequeue` of the producer `p`, after which the call goes on or is decided. -/
theorem remaining_dequeueFrom (hinv : q.Inv) {p : ℕ} {next : TryDequeue}
    (hst : q.dequeueFrom c p next = some q') :
    (q'.calls c = q.calls c ∧ q'.ahead c p < q.ahead c p) ∨ q'.calls c = next ∨
      ∃ found, q'.results = q.results ++ [(c, found)] := by
  obtain ⟨s, hs, hst⟩ := Option.bind_eq_some_iff.mp hst
  have hmem := List.mem_of_getElem? hs
  obtain ⟨f, hf⟩ := hinv.producer s hmem
  have hless := fun h => Producer.remaining_dequeue hf (c := c) h
  rcases hr : s.dequeue c with ⟨s', found⟩
  rw [hr] at hst hless
  rcases found with _ | _ | x
  · obtain rfl := Option.some.inj hst
    refine .inl ⟨rfl, ?_⟩
    rw [ahead_of_getElem? hs,
      ahead_of_getElem? (List.getElem?_set_self (List.getElem?_eq_some_iff.mp hs).1)]
    exact hless rfl
  · obtain rfl := Option.some.inj hst
    exact .inr (.inl (Function.update_self ..))
  · obtain rfl := Option.some.inj hst
    exact .inr (.inr ⟨some x, rfl⟩)

/-- A step of the thread `c`: there is one less to go, or its call is decided. -/
theorem remaining_tryDequeue (hinv : q.Inv) (hn : q.producers.length ≤ n)
    (hst : q.tryDequeue c = some q') :
    q'.remaining n c (q'.calls c) < q.remaining n c (q.calls c) ∨
      ∃ found, q'.results = q.results ++ [(c, found)] := by
  have hvalid := hinv.valid c
  have hgo {d : TryDequeue} (hd : q.remaining n c d < q.remaining n c (q.calls c)) :
      (q.goTo c d).remaining n c ((q.goTo c d).calls c) < q.remaining n c (q.calls c) := by
    change (q.goTo c d).remaining n c (Function.update q.calls c d c) < _
    rw [Function.update_self]
    exact hd
  rw [Queue.tryDequeue] at hst
  rcases hc : q.calls c with _ | ⟨left, k, b, size⟩ | ⟨tail, left, k, b, size⟩ | b | b | ⟨b, left⟩
  all_goals rw [hc] at hvalid hst hgo
  case idle =>
    obtain rfl := Option.some.inj hst
    exact .inl (hgo (by simp only [remaining]; omega))
  case scan =>
    dsimp only at hst
    split_ifs at hst with hmore hpos
    · obtain ⟨s, hs, hst⟩ := Option.bind_eq_some_iff.mp hst
      obtain rfl := Option.some.inj hst
      exact .inl (hgo (by simp only [remaining]; omega))
    · cases b with
      | none => exact absurd (hvalid.2.1 rfl).1 (by omega)
      | some b =>
        obtain rfl := Option.some.inj hst
        have := q.ahead_le c b
        exact .inl (hgo (by simp only [remaining]; omega))
    · obtain rfl := Option.some.inj hst
      exact .inr ⟨none, rfl⟩
  case scanned =>
    obtain ⟨hpos, -, -, -⟩ := hvalid
    obtain ⟨s, hs, hst⟩ := Option.bind_eq_some_iff.mp hst
    dsimp only at hst
    split_ifs at hst
    all_goals
      obtain rfl := Option.some.inj hst
      exact .inl (hgo (by simp only [remaining]; omega))
  case best =>
    rcases remaining_dequeueFrom hinv hst with ⟨hcalls, hless⟩ | hcalls | hfound
    · rw [hcalls, hc]
      exact .inl (Nat.add_lt_add_left hless _)
    · obtain ⟨s, hs, -⟩ := Option.bind_eq_some_iff.mp hst
      have := (s.threads c).remaining_pos
      rw [hcalls]
      refine .inl ?_
      simp only [remaining, ahead_of_getElem? hs]
      omega
    · exact .inr hfound
  case again =>
    obtain rfl := Option.some.inj hst
    have hrest := remaining_rest_le (n := n) (q := q) (c := c) b q.producers.length
    exact .inl (hgo (hrest.trans_lt (by simp only [remaining]; omega)))
  case rest =>
    cases left with
    | zero =>
      obtain rfl := Option.some.inj hst
      exact .inr ⟨none, rfl⟩
    | succ p =>
      have hlt : p < q.producers.length := hvalid.2
      have hpos := (q.producers[p].threads c).remaining_pos
      rw [← ahead_of_getElem? (List.getElem?_eq_getElem hlt)] at hpos
      dsimp only at hst
      rw [if_neg (Nat.succ_ne_zero p), Nat.add_sub_cancel] at hst
      split_ifs at hst with heq
      · obtain rfl := Option.some.inj hst
        have hrest := remaining_rest_le (n := n) (q := q) (c := c) b p
        exact .inl (hgo (hrest.trans_lt (by simp only [remaining]; omega)))
      · rcases remaining_dequeueFrom hinv hst with ⟨hcalls, hless⟩ | hcalls | hfound
        · rw [hcalls, hc]
          exact .inl (Nat.add_lt_add_left hless _)
        · have hrest := remaining_rest_le (n := n) (q := q') (c := c) b p
          rw [hcalls]
          refine .inl (hrest.trans_lt ?_)
          simp only [remaining]
          omega
        · exact .inr hfound

omit [DecidableEq ι] in
theorem remaining_congr {d : TryDequeue} (hd : d.Valid q.producers.length)
    (h : ∀ p < q.producers.length, q'.ahead c p = q.ahead c p) :
    q'.remaining n c d = q.remaining n c d := by
  cases d with
  | idle => rfl
  | scan left k b size => rfl
  | scanned tail left k b size => rfl
  | best p => exact congrArg (9 * n + 2 + ·) (h p hd)
  | again p => rfl
  | rest b left =>
    cases left with
    | zero => rfl
    | succ p => exact congrArg (9 * p + 1 + ·) (h p hd.2)

/-- The other threads do not bring the thread `c` back. -/
theorem remaining_of_other (hinv : q.Inv) (hb : q.Below) {a : Action α ι} (ha : a ≠ .tryDequeue c)
    (hst : (queue α ι).step q a = some q') :
    q'.remaining n c (q'.calls c) = q.remaining n c (q.calls c) := by
  by_cases hact : ∃ c', a = .tryDequeue c'
  · obtain ⟨c', rfl⟩ := hact
    have hne : c ≠ c' := fun hcc => ha (congrArg Action.tryDequeue hcc.symm)
    obtain ⟨hproducers, -, hcalls⟩ := frame_of_tryDequeue hst
    rw [hcalls c hne]
    refine remaining_congr (hinv.valid c) fun p _ => ?_
    rcases hproducers with heq | ⟨p', s, hs, heq⟩
    · rw [ahead, heq, ahead]
    · have hmem := List.mem_of_getElem? hs
      obtain ⟨f, hf⟩ := hinv.producer s hmem
      obtain ⟨-, hfound⟩ := hf.dequeue (hb s hmem) c'
      obtain ⟨hlt, -⟩ := List.getElem?_eq_some_iff.mp hs
      by_cases hp : p = p'
      · subst hp
        rw [ahead_of_getElem? hs, ahead, heq, List.getElem?_set_self hlt]
        exact congrArg Dequeue.remaining (hfound.others c hne)
      · rw [ahead, heq, List.getElem?_set_ne (Ne.symm hp), ahead]
  · obtain ⟨hcalls, -, hgrows, -⟩ := grows_of_step hb (fun c' hc' => hact ⟨c', hc'⟩) hst
    rw [hcalls]
    refine remaining_congr (hinv.valid c) fun p hp => ?_
    obtain ⟨s', hs', hgrows⟩ := hgrows p _ (List.getElem?_eq_getElem hp)
    rw [ahead_of_getElem? hs', ahead_of_getElem? (List.getElem?_eq_getElem hp), hgrows.threads]

/-- Between `q` and `q'`, a call of the thread `c` has moved an element out or found nothing. -/
def Decided (q q' : Queue α ι) (c : ι) : Prop :=
  ∃ results, q'.results = q.results ++ results ∧ ∃ found, (c, found) ∈ results

/-- A step of the thread `c`. -/
def own (c : ι) : Action α ι → Bool
  | .tryDequeue c' => c' = c
  | _ => false

theorem own_eq_true_iff {a : Action α ι} : own c a = true ↔ a = .tryDequeue c := by
  cases a with
  | tryDequeue c' => simp [own]
  | _ => simp [own]

/-- In a run, every step of the thread `c` is one less to go, until its call is decided. -/
theorem exec_remaining {as : List (Action α ι)} (hinv : q.Inv)
    (has : (queue α ι).Along (fun q _ => q.Below) q as) (hst : (queue α ι).exec q as = some q')
    (hn : q'.producers.length ≤ n) :
    q'.remaining n c (q'.calls c) + as.countP (own c) ≤ q.remaining n c (q.calls c) ∨
      Decided q q' c := by
  induction as generalizing q with
  | nil =>
    obtain rfl := Option.some.inj hst
    exact .inl le_rfl
  | cons a as ih =>
    obtain ⟨t, ht, hrun⟩ := Option.bind_eq_some_iff.mp hst
    have hb := has.1
    have hrest := ih (hinv.step hb ht) (has.2 t ht) hrun
    obtain ⟨later, hlater⟩ := results_of_exec (fun _ _ hb => hb) (has.2 t ht) hrun
    have hdecided (h : Decided t q' c) : Decided q q' c := by
      obtain ⟨results, hresults, hfound⟩ := h
      obtain ⟨now, hnow⟩ := results_of_step hb ht
      refine ⟨now ++ results, ?_, hfound.imp fun _ => List.mem_append_right _⟩
      rw [hresults, ← hnow, List.append_assoc]
    by_cases hact : a = .tryDequeue c
    · subst hact
      have hlen := (length_of_step hb ht).trans
        (length_of_exec (fun _ _ hb => hb) (has.2 t ht) hrun)
      rw [List.countP_cons_of_pos (own_eq_true_iff.mpr rfl)]
      rcases remaining_tryDequeue hinv (hlen.trans hn) ht with hless | ⟨found, hfound⟩
      · exact hrest.imp (fun hle => by omega) hdecided
      · refine .inr ⟨(c, found) :: later, ?_, found, List.mem_cons_self⟩
        rw [← hlater, hfound, List.append_assoc, List.singleton_append]
    · rw [List.countP_cons_of_neg (mt own_eq_true_iff.mp hact),
        ← remaining_of_other hinv hb hact ht]
      exact hrest.imp_right hdecided

/-- The call of a thread is decided within a number of its own steps, whatever the others
    do. -/
theorem queue_decides {as : List (Action α ι)} (h : (queue α ι).Reachable (fun q _ => q.Below) q)
    (has : (queue α ι).Along (fun q _ => q.Below) q as) (hst : (queue α ι).exec q as = some q')
    (hown : 11 * q'.producers.length + 12 < as.countP (own c)) : Decided q q' c := by
  have hinv := reachable_inv h
  have hlen := length_of_exec (fun _ _ hb => hb) has hst
  refine (exec_remaining hinv has hst le_rfl).resolve_left fun hle => ?_
  have hbound := remaining_le (q := q) (c := c) ((hinv.valid c).mono hlen)
  omega

def twoElements : List (Action ℕ Bool) :=
  [.join, .enqueue 0 10 true, .publish 0, .enqueue 0 20 true, .publish 0]

/-- Two threads dequeue in turn. -/
def inTurn : List (Action ℕ Bool) :=
  (List.replicate 24 [.tryDequeue true, .tryDequeue false]).flatten

theorem queue_decides_inTurn : ∃ q q' : Queue ℕ Bool, q.results = [] ∧
    q'.results.take 2 = [(true, some 10), (false, some 20)] ∧ Decided q q' false := by
  have hrun : ((queue ℕ Bool).execIf (fun q _ => q.Below) {} twoElements).bind (fun q =>
      ((queue ℕ Bool).exec q inTurn).map fun q' => (q.results, q'.results.take 2,
        decide (11 * q'.producers.length + 12 < inTurn.countP (own false)),
        decide ((queue ℕ Bool).Along (fun q _ => q.Below) q inTurn))) =
      some ([], [(true, some 10), (false, some 20)], true, true) := by
    decide +kernel
  obtain ⟨q, hq, hrun⟩ := Option.bind_eq_some_iff.mp hrun
  obtain ⟨q', hq', hrun⟩ := Option.map_eq_some_iff.mp hrun
  simp only [Prod.mk.injEq, decide_eq_true_eq] at hrun
  obtain ⟨hresults, hresults', hown, halong⟩ := hrun
  have hreach := System.Reachable.execIf (.init rfl) hq
  exact ⟨q, q', hresults, hresults', queue_decides hreach halong hq' hown⟩

end Queue

end BurstPoolNode.ConcurrentQueue

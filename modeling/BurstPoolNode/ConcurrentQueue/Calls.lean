import BurstPoolNode.ConcurrentQueue.Producer
import BurstPoolNode.Lists

/-!
# The whole queue

What holds of the queue in any interleaving of any number of threads, as long
as no counter reaches 2⁶³.

* `Queue.Inv`: every producer keeps its invariant, a thread is in `dequeue` of
  the producer only that its call is at, and what the calls have returned is
  what has been taken.
* `queue_conserves`: nothing that is enqueued is lost, returned twice or made
  up, and no thread is ever stuck.
-/

namespace BurstPoolNode.ConcurrentQueue

open scoped List

variable {α ι : Type*}

namespace TryDequeue

/-- The producer that a call is in `dequeue` of. -/
def producer? : TryDequeue → Option ℕ
  | .best p => some p
  | .rest b (p + 1) => if p = b then none else some p
  | _ => none

/-- The producers that a call is at are among the first `n`; there is a best one as soon as
    one is not empty. -/
def Valid (n : ℕ) : TryDequeue → Prop
  | .idle => True
  | .scan left nonEmptyCount b bestSize =>
    left ≤ n ∧ (b = none → nonEmptyCount = 0 ∧ bestSize = 0) ∧ ∀ p ∈ b, p < n
  | .scanned _ left nonEmptyCount b bestSize =>
    left ≠ 0 ∧ left ≤ n ∧ (b = none → nonEmptyCount = 0 ∧ bestSize = 0) ∧ ∀ p ∈ b, p < n
  | .best p => p < n
  | .again p => p < n
  | .rest p left => p < n ∧ left ≤ n

theorem Valid.mono {n n' : ℕ} {d : TryDequeue} (h : d.Valid n) (hn : n ≤ n') : d.Valid n' := by
  cases d with
  | idle => trivial
  | scan left nonEmptyCount b bestSize =>
    exact ⟨h.1.trans hn, h.2.1, fun p hp => (h.2.2 p hp).trans_le hn⟩
  | scanned tail left nonEmptyCount b bestSize =>
    exact ⟨h.1, h.2.1.trans hn, h.2.2.1, fun p hp => (h.2.2.2 p hp).trans_le hn⟩
  | best p => exact h.trans_le hn
  | again p => exact h.trans_le hn
  | rest p left => exact ⟨h.1.trans_le hn, h.2.trans hn⟩

end TryDequeue

namespace Producer

/-- What the thread that enqueues changes, and what it does not touch. -/
structure Grows (s s' : Producer α ι) : Prop where
  threads : s'.threads = s.threads
  taken : s'.taken = s.taken
  headIndex : s'.headIndex = s.headIndex
  dequeueOptimisticCount : s'.dequeueOptimisticCount = s.dequeueOptimisticCount
  dequeueOvercommit : s'.dequeueOvercommit = s.dequeueOvercommit
  published : s.published <+: s'.published
  tailIndex : s.tailIndex.toNat ≤ s'.tailIndex.toNat

theorem grows_enqueue {s s' : Producer α ι} {x : α} {memory : Bool}
    (h : s.enqueue x memory = some s') : Grows s s' := by
  rw [enqueue] at h
  split_ifs at h
  · exact Option.some.inj h ▸ ⟨rfl, rfl, rfl, rfl, rfl, List.prefix_rfl, le_rfl⟩
  · exact Option.some.inj h ▸ ⟨rfl, rfl, rfl, rfl, rfl, List.prefix_rfl, le_rfl⟩

theorem grows_publish {s s' : Producer α ι} (hb : s.Below) (h : s.publish = some s') :
    Grows s s' := by
  obtain ⟨x, -, rfl⟩ := Option.map_eq_some_iff.mp h
  refine ⟨rfl, rfl, rfl, rfl, rfl, List.prefix_append _ _, ?_⟩
  dsimp only
  rw [UInt64.add_comm, toNat_succ hb.1]
  exact Nat.le_succ _

end Producer

namespace Queue

/-- What the calls have found, each with its thread. -/
def found (q : Queue α ι) : List (ι × α) := q.results.filterMap fun r => r.2.map (r.1, ·)

theorem map_found (q : Queue α ι) : q.found.map Prod.snd = q.results.filterMap Prod.snd := by
  rw [found, List.map_filterMap]
  refine List.filterMap_congr fun r _ => ?_
  cases r.2 <;> rfl

theorem found_finish_none [DecidableEq ι] (q : Queue α ι) (c : ι) :
    (q.finish c none).found = q.found := by
  rw [found, finish, List.filterMap_append]
  exact List.append_nil _

structure Inv (q : Queue α ι) : Prop where
  producer : ∀ s ∈ q.producers, ∃ f, s.Inv f
  /-- A thread is in `dequeue` of the producer only that its call is at. -/
  start : ∀ p, ∀ s ∈ q.producers[p]?, ∀ c, (q.calls c).producer? ≠ some p → s.threads c = .start
  valid : ∀ c, (q.calls c).Valid q.producers.length
  found : q.found.Perm (q.producers.flatMap Producer.taken)
  order : ∀ s ∈ q.producers, s.taken.Sublist q.found
  fault : q.fault = false

/-- The counters of the producers are below 2⁶³. -/
def Below (q : Queue α ι) : Prop := ∀ s ∈ q.producers, s.Below

namespace Inv

variable {q : Queue α ι}

theorem new : Inv ({} : Queue α ι) where
  producer := by simp
  start := by simp
  valid _ := trivial
  found := .refl _
  order := by simp
  fault := rfl

theorem join (h : q.Inv) : Inv { q with producers := q.producers ++ [{}] } where
  producer s hs := by
    rw [List.mem_append, List.mem_singleton] at hs
    rcases hs with hs | rfl
    · exact h.producer s hs
    · exact ⟨_, .new⟩
  start p s hs c hc := by
    rw [Option.mem_def, List.getElem?_append] at hs
    split_ifs at hs
    · exact h.start p s hs c hc
    · rw [List.mem_singleton.mp (List.mem_of_getElem? hs)]
  valid c := (h.valid c).mono (by simp)
  found := by
    rw [List.flatMap_append, List.flatMap_singleton, List.append_nil]
    exact h.found
  order s hs := by
    rw [List.mem_append, List.mem_singleton] at hs
    rcases hs with hs | rfl
    · exact h.order s hs
    · exact List.nil_sublist _
  fault := h.fault

/-- A thread enqueues at its producer. -/
theorem produce (h : q.Inv) {p : ℕ} {s s' : Producer α ι} (hs : q.producers[p]? = some s)
    (hs' : ∃ f, s'.Inv f) (hgrows : s.Grows s') :
    Inv { q with producers := q.producers.set p s' } where
  producer t ht := (List.mem_or_eq_of_mem_set ht).elim (h.producer t) (· ▸ hs')
  start p' t ht c hc := by
    rw [Option.mem_def, List.getElem?_set] at ht
    split_ifs at ht with hp
    · obtain rfl := Option.some.inj ht
      rw [hgrows.threads]
      exact h.start p s hs c (hp ▸ hc)
    · exact h.start p' t ht c hc
  valid c := (h.valid c).mono (by simp)
  found := by
    refine h.found.trans (.of_eq ?_)
    have hmap : (q.producers.set p s').map Producer.taken = q.producers.map Producer.taken :=
      map_set_of_eq _ hs hgrows.taken
    rw [List.flatMap_def, List.flatMap_def]
    exact congrArg _ hmap.symm
  order t ht := (List.mem_or_eq_of_mem_set ht).elim (h.order t) fun ht => by
    rw [ht, hgrows.taken]
    exact h.order s (List.mem_of_getElem? hs)
  fault := h.fault

variable [DecidableEq ι]

/-- What holds of every call, when that of the thread `c` goes on at `d`. -/
theorem forall_calls {P : ι → TryDequeue → Prop} {calls : ι → TryDequeue} {c : ι} {d : TryDequeue}
    (hd : P c d) (h : ∀ c' ≠ c, P c' (calls c')) (c' : ι) :
    P c' (Function.update calls c d c') := by
  by_cases hc : c' = c
  · rw [hc, Function.update_self]
    exact hd
  · rw [Function.update_of_ne hc]
    exact h c' hc

/-- A call goes on that is in `dequeue` of no producer. -/
theorem goTo (h : q.Inv) {c : ι} {d : TryDequeue} (hc : (q.calls c).producer? = none)
    (hd : d.Valid q.producers.length) : (q.goTo c d).Inv where
  __ := h
  start p s hs := forall_calls (P := fun c d => d.producer? ≠ some p → s.threads c = .start)
    (fun _ => h.start p s hs c (by simp [hc])) fun c' _ => h.start p s hs c'
  valid := forall_calls hd fun c' _ => h.valid c'

/-- A call goes on that is in `dequeue` of the producer `p`, and so does the producer. -/
theorem move (h : q.Inv) {c : ι} {p : ℕ} {s s' : Producer α ι} (hs : q.producers[p]? = some s)
    (hs' : ∃ f, s'.Inv f) (hother : ∀ c' ≠ c, s'.threads c' = s.threads c')
    (hc : (q.calls c).producer? = some p) {d : TryDequeue} (hd : d.Valid q.producers.length)
    (hat : d.producer? ≠ some p → s'.threads c = .start) (results : List (ι × Option α))
    {new : List (ι × α)} (hfound : Queue.found { q with results } = q.found ++ new)
    (htaken : s'.taken = s.taken ++ new) :
    Inv { q with
      producers := q.producers.set p s'
      calls := Function.update q.calls c d
      results } where
  producer t ht := (List.mem_or_eq_of_mem_set ht).elim (h.producer t) (· ▸ hs')
  start p' t ht := by
    rw [Option.mem_def, List.getElem?_set] at ht
    split_ifs at ht with hp
    · obtain rfl := Option.some.inj ht
      subst hp
      refine forall_calls (P := fun c d => d.producer? ≠ some p → s'.threads c = .start) hat
        fun c' hc' hp => ?_
      rw [hother c' hc']
      exact h.start p s hs c' hp
    · exact forall_calls (P := fun c d => d.producer? ≠ some p' → t.threads c = .start)
        (fun _ => h.start p' t ht c (by simpa [hc] using hp)) fun c' _ => h.start p' t ht c'
  valid := by
    rw [List.length_set]
    exact forall_calls hd fun c' _ => h.valid c'
  found := by
    have hset := flatMap_set_perm Producer.taken hs s'
    rw [htaken, List.append_assoc] at hset
    calc Queue.found { q with results }
      _ = q.found ++ new := hfound
      _ ~ q.producers.flatMap Producer.taken ++ new := h.found.append_right _
      _ ~ new ++ q.producers.flatMap Producer.taken := List.perm_append_comm
      _ ~ (q.producers.set p s').flatMap Producer.taken :=
        ((List.perm_append_left_iff _).mp hset).symm
  order t ht := by
    change List.Sublist _ (Queue.found { q with results })
    rw [hfound]
    rcases List.mem_or_eq_of_mem_set ht with ht | rfl
    · exact (h.order t ht).trans (List.sublist_append_left _ _)
    · rw [htaken]
      exact (h.order s (List.mem_of_getElem? hs)).append (List.Sublist.refl _)
  fault := h.fault

theorem dequeueFrom (h : q.Inv) (hb : q.Below) {c : ι} {p : ℕ} (hp : p < q.producers.length)
    (hc : (q.calls c).producer? = some p) {next : TryDequeue}
    (hnext : next.Valid q.producers.length) : ∃ q' ∈ q.dequeueFrom c p next, q'.Inv := by
  have hs := List.getElem?_eq_getElem hp
  generalize q.producers[p] = s at hs
  have hmem := List.mem_of_getElem? hs
  obtain ⟨f, hf⟩ := h.producer s hmem
  obtain ⟨hs', hfound⟩ := hf.dequeue (hb s hmem) c
  rcases hr : s.dequeue c with ⟨s', found⟩
  rw [hr] at hs' hfound
  rcases found with _ | _ | x
  · refine ⟨{ q with producers := q.producers.set p s' }, ?_, ?_⟩
    · simp [Queue.dequeueFrom, hs, hr]
    · have hmove := h.move hs hs' hfound.others hc (h.valid c) (absurd hc) q.results
        (List.append_nil _).symm hfound.taken
      rwa [Function.update_eq_self] at hmove
  · refine ⟨Queue.goTo { q with producers := q.producers.set p s' } c next, ?_, ?_⟩
    · simp [Queue.dequeueFrom, hs, hr]
    · exact h.move hs hs' hfound.others hc hnext (fun _ => hfound.start rfl) q.results
        (List.append_nil _).symm hfound.taken
  · refine ⟨Queue.finish { q with producers := q.producers.set p s' } c (some x), ?_, ?_⟩
    · simp [Queue.dequeueFrom, hs, hr]
    · refine h.move hs hs' hfound.others hc (d := .idle) trivial (fun _ => hfound.start rfl)
        (q.results ++ [(c, some x)]) ?_ hfound.taken
      rw [Queue.found, List.filterMap_append]
      rfl

theorem finish (h : q.Inv) {c : ι} (hc : (q.calls c).producer? = none) : (q.finish c none).Inv where
  __ := h.goTo hc (d := .idle) trivial
  found := (List.Perm.of_eq (found_finish_none q c)).trans h.found
  order s hs := by
    rw [found_finish_none]
    exact h.order s hs

/-- A thread in `try_dequeue` can always go on. -/
theorem tryDequeue (h : q.Inv) (hb : q.Below) (c : ι) : ∃ q' ∈ q.tryDequeue c, q'.Inv := by
  have hvalid := h.valid c
  rw [Queue.tryDequeue]
  rcases hc : q.calls c with _ | ⟨left, n, b, size⟩ | ⟨tail, left, n, b, size⟩ | b | b | ⟨b, left⟩
  all_goals rw [hc] at hvalid
  case idle =>
    exact ⟨_, rfl, h.goTo (by rw [hc]; rfl) ⟨le_rfl, fun _ => ⟨rfl, rfl⟩, fun _ hp => by cases hp⟩⟩
  case scan =>
    obtain ⟨hleft, hnone, hlt⟩ := hvalid
    dsimp only
    split_ifs with hgo hpos
    · have hs := List.getElem?_eq_getElem (l := q.producers) (i := left - 1) (by omega)
      rw [hs]
      exact ⟨_, rfl, h.goTo (by rw [hc]; rfl) ⟨hgo.2, hleft, hnone, hlt⟩⟩
    · cases b with
      | none => exact absurd (hnone rfl).1 (by omega)
      | some b => exact ⟨_, rfl, h.goTo (by rw [hc]; rfl) (hlt b rfl)⟩
    · exact ⟨_, rfl, h.finish (by rw [hc]; rfl)⟩
  case scanned =>
    obtain ⟨hpos, hleft, hnone, hlt⟩ := hvalid
    have hs := List.getElem?_eq_getElem (l := q.producers) (i := left - 1) (by omega)
    dsimp only
    rw [hs, Option.bind_eq_bind, Option.bind_some]
    split_ifs with hsize hbest
    · refine ⟨_, rfl, h.goTo (by rw [hc]; rfl) ⟨by omega, fun hb => (by cases hb), fun p hp => ?_⟩⟩
      rw [← Option.mem_some_iff.mp hp]
      omega
    · refine ⟨_, rfl, h.goTo (by rw [hc]; rfl) ⟨by omega, fun hb => ?_, hlt⟩⟩
      rw [(hnone hb).2] at hbest
      exact absurd hsize hbest
    · exact ⟨_, rfl, h.goTo (by rw [hc]; rfl) ⟨by omega, hnone, hlt⟩⟩
  case best => exact h.dequeueFrom hb hvalid (by rw [hc]; rfl) hvalid
  case again => exact ⟨_, rfl, h.goTo (by rw [hc]; rfl) ⟨hvalid, le_rfl⟩⟩
  case rest =>
    obtain ⟨hb', hleft⟩ := hvalid
    dsimp only
    split_ifs with hzero heq
    · exact ⟨_, rfl, h.finish (by rw [hc, hzero]; rfl)⟩
    · subst heq
      obtain ⟨p, rfl⟩ := Nat.exists_eq_add_one_of_ne_zero hzero
      refine ⟨_, rfl, h.goTo ?_ ⟨hb', by omega⟩⟩
      rw [hc]
      exact if_pos rfl
    · obtain ⟨p, rfl⟩ := Nat.exists_eq_add_one_of_ne_zero hzero
      refine h.dequeueFrom hb (by omega) ?_ ⟨hb', by omega⟩
      rw [hc]
      exact if_neg heq

theorem step (h : q.Inv) (hb : q.Below) {a : Action α ι} {q' : Queue α ι}
    (hst : (queue α ι).step q a = some q') : q'.Inv := by
  cases a with
  | join => exact Option.some.inj hst ▸ h.join
  | enqueue p x memory =>
    obtain ⟨s, hs, hst⟩ := Option.bind_eq_some_iff.mp hst
    obtain ⟨s', hs', hst⟩ := Option.bind_eq_some_iff.mp hst
    have hmem := List.mem_of_getElem? hs
    obtain ⟨f, hf⟩ := h.producer s hmem
    exact Option.some.inj hst ▸
      h.produce hs ⟨f, hf.enqueue (hb s hmem).1 hs'⟩ (Producer.grows_enqueue hs')
  | publish p =>
    obtain ⟨s, hs, hst⟩ := Option.bind_eq_some_iff.mp hst
    obtain ⟨s', hs', hst⟩ := Option.bind_eq_some_iff.mp hst
    have hmem := List.mem_of_getElem? hs
    obtain ⟨f, hf⟩ := h.producer s hmem
    exact Option.some.inj hst ▸
      h.produce hs ⟨f, hf.publish (hb s hmem).1 hs'⟩ (Producer.grows_publish (hb s hmem) hs')
  | tryDequeue c =>
    obtain ⟨q'', hq'', hinv⟩ := h.tryDequeue hb c
    rwa [Option.some.inj (hst.symm.trans hq'')]

omit [DecidableEq ι] in
theorem conservation (h : q.Inv) :
    q.results.filterMap Prod.snd ++ q.producers.flatMap Producer.inCells ~
      q.producers.flatMap Producer.published := by
  have hflat : q.producers.flatMap (fun s => s.taken.map Prod.snd ++ s.inCells) ~
      q.producers.flatMap Producer.published := by
    refine List.Perm.flatMap_left _ fun s hs => ?_
    obtain ⟨f, hf⟩ := h.producer s hs
    exact hf.conservation
  rw [← map_found]
  calc q.found.map Prod.snd ++ q.producers.flatMap Producer.inCells
    _ ~ (q.producers.flatMap Producer.taken).map Prod.snd ++
          q.producers.flatMap Producer.inCells := (h.found.map _).append_right _
    _ ~ q.producers.flatMap fun s => s.taken.map Prod.snd ++ s.inCells := by
      rw [List.map_flatMap]
      exact (List.flatMap_append_perm _ _ _)
    _ ~ q.producers.flatMap Producer.published := hflat

end Inv

/-- What a step of a thread in `try_dequeue` does with the producers, the results and the
    other calls. -/
theorem frame_of_tryDequeue [DecidableEq ι] {c : ι} {q q' : Queue α ι}
    (hst : q.tryDequeue c = some q') :
    (q'.producers = q.producers ∨ ∃ p, ∃ s ∈ q.producers[p]?,
      q'.producers = q.producers.set p (s.dequeue c).1) ∧ q.results <+: q'.results ∧
      ∀ c' ≠ c, q'.calls c' = q.calls c' := by
  have hcalls (d : TryDequeue) : ∀ c' ≠ c, (q.goTo c d).calls c' = q.calls c' :=
    fun c' hc' => Function.update_of_ne hc' ..
  have hfrom {p : ℕ} {next : TryDequeue} (hst : q.dequeueFrom c p next = some q') :
      (∃ p, ∃ s ∈ q.producers[p]?, q'.producers = q.producers.set p (s.dequeue c).1) ∧
        q.results <+: q'.results ∧ ∀ c' ≠ c, q'.calls c' = q.calls c' := by
    obtain ⟨s, hs, hst⟩ := Option.bind_eq_some_iff.mp hst
    rcases hr : s.dequeue c with ⟨s', found⟩
    rw [hr] at hst
    rcases found with _ | _ | x
    · exact Option.some.inj hst ▸ ⟨⟨p, s, hs, by rw [hr]⟩, List.prefix_rfl, fun _ _ => rfl⟩
    · exact Option.some.inj hst ▸ ⟨⟨p, s, hs, by rw [hr]; rfl⟩, List.prefix_rfl, hcalls next⟩
    · exact Option.some.inj hst ▸
        ⟨⟨p, s, hs, by rw [hr]; rfl⟩, List.prefix_append _ _, hcalls .idle⟩
  have hgo (d : TryDequeue) (hst : q.goTo c d = q') :
      (q'.producers = q.producers ∨ ∃ p, ∃ s ∈ q.producers[p]?,
        q'.producers = q.producers.set p (s.dequeue c).1) ∧ q.results <+: q'.results ∧
        ∀ c' ≠ c, q'.calls c' = q.calls c' :=
    hst ▸ ⟨.inl rfl, List.prefix_rfl, hcalls d⟩
  have hfinish (hst : q.finish c none = q') :
      (q'.producers = q.producers ∨ ∃ p, ∃ s ∈ q.producers[p]?,
        q'.producers = q.producers.set p (s.dequeue c).1) ∧ q.results <+: q'.results ∧
        ∀ c' ≠ c, q'.calls c' = q.calls c' :=
    hst ▸ ⟨.inl rfl, List.prefix_append _ _, hcalls .idle⟩
  rw [Queue.tryDequeue] at hst
  split at hst
  · exact hgo _ (Option.some.inj hst)
  · split_ifs at hst
    · obtain ⟨s, -, hst⟩ := Option.bind_eq_some_iff.mp hst
      exact hgo _ (Option.some.inj hst)
    · split at hst
      · exact Option.some.inj hst ▸ ⟨.inl rfl, List.prefix_rfl, fun _ _ => rfl⟩
      · exact hgo _ (Option.some.inj hst)
    · exact hfinish (Option.some.inj hst)
  · obtain ⟨s, -, hst⟩ := Option.bind_eq_some_iff.mp hst
    dsimp only at hst
    split_ifs at hst <;> exact hgo _ (Option.some.inj hst)
  · exact (hfrom hst).imp_left .inr
  · exact hgo _ (Option.some.inj hst)
  · split_ifs at hst
    · exact hfinish (Option.some.inj hst)
    · exact hgo _ (Option.some.inj hst)
    · exact (hfrom hst).imp_left .inr

/-- What a step that is not in `try_dequeue` does with the producers. -/
theorem grows_of_step [DecidableEq ι] {q q' : Queue α ι} (hb : q.Below) {a : Action α ι}
    (ha : ∀ c, a ≠ .tryDequeue c) (hst : (queue α ι).step q a = some q') :
    q'.calls = q.calls ∧ q'.results = q.results ∧
      (∀ p : ℕ, ∀ s ∈ q.producers[p]?, ∃ s' ∈ q'.producers[p]?, s.Grows s') ∧
      ∀ s' ∈ q'.producers, s' = {} ∨ ∃ s ∈ q.producers, s.Grows s' := by
  have hrefl (s : Producer α ι) : s.Grows s := ⟨rfl, rfl, rfl, rfl, rfl, List.prefix_rfl, le_rfl⟩
  have hset {p : ℕ} {s s' : Producer α ι} (hs : q.producers[p]? = some s) (hgrows : s.Grows s') :
      (∀ p' : ℕ, ∀ t ∈ q.producers[p']?, ∃ t' ∈ (q.producers.set p s')[p']?, t.Grows t') ∧
        ∀ t' ∈ q.producers.set p s', t' = {} ∨ ∃ t ∈ q.producers, t.Grows t' := by
    refine ⟨fun p' t ht => ?_, fun t' ht' => .inr ?_⟩
    · rw [List.getElem?_set]
      split_ifs with hp hlt
      · subst hp
        obtain rfl := Option.some.inj (hs.symm.trans ht)
        exact ⟨s', rfl, hgrows⟩
      · subst hp
        exact absurd (List.getElem?_eq_some_iff.mp hs).1 hlt
      · exact ⟨t, ht, hrefl t⟩
    · rcases List.mem_or_eq_of_mem_set ht' with ht' | rfl
      · exact ⟨t', ht', hrefl t'⟩
      · exact ⟨s, List.mem_of_getElem? hs, hgrows⟩
  cases a with
  | join =>
    obtain rfl := Option.some.inj hst
    refine ⟨rfl, rfl, fun p s hs => ⟨s, ?_, hrefl s⟩, fun s' hs' => ?_⟩
    · obtain ⟨hp, -⟩ := List.getElem?_eq_some_iff.mp hs
      exact (List.getElem?_append_left hp).trans hs
    · rw [List.mem_append, List.mem_singleton] at hs'
      exact hs'.elim (fun hs' => .inr ⟨s', hs', hrefl s'⟩) .inl
  | enqueue p x memory =>
    obtain ⟨s, hs, hst⟩ := Option.bind_eq_some_iff.mp hst
    obtain ⟨s', hs', hst⟩ := Option.bind_eq_some_iff.mp hst
    obtain rfl := Option.some.inj hst
    exact ⟨rfl, rfl, hset hs (Producer.grows_enqueue hs')⟩
  | publish p =>
    obtain ⟨s, hs, hst⟩ := Option.bind_eq_some_iff.mp hst
    obtain ⟨s', hs', hst⟩ := Option.bind_eq_some_iff.mp hst
    obtain rfl := Option.some.inj hst
    exact ⟨rfl, rfl, hset hs (Producer.grows_publish (hb s (List.mem_of_getElem? hs)) hs')⟩
  | tryDequeue c => exact absurd rfl (ha c)

theorem results_of_step [DecidableEq ι] {q q' : Queue α ι} (hb : q.Below) {a : Action α ι}
    (hst : (queue α ι).step q a = some q') : q.results <+: q'.results := by
  by_cases hact : ∃ c, a = .tryDequeue c
  · obtain ⟨c, rfl⟩ := hact
    exact (frame_of_tryDequeue hst).2.1
  · obtain ⟨-, hresults, -, -⟩ := grows_of_step hb (fun c hc => hact ⟨c, hc⟩) hst
    exact hresults ▸ List.prefix_rfl

theorem results_of_exec [DecidableEq ι] {P : Queue α ι → Action α ι → Prop}
    (hP : ∀ q a, P q a → q.Below) {q q' : Queue α ι} {as : List (Action α ι)}
    (has : (queue α ι).Along P q as)
    (hst : (queue α ι).exec q as = some q') : q.results <+: q'.results := by
  induction as generalizing q with
  | nil => exact Option.some.inj hst ▸ List.prefix_rfl
  | cons a as ih =>
    obtain ⟨t, ht, hst⟩ := Option.bind_eq_some_iff.mp hst
    exact (results_of_step (hP _ _ has.1) ht).trans (ih (has.2 t ht) hst)

theorem length_of_step [DecidableEq ι] {q q' : Queue α ι} (hb : q.Below) {a : Action α ι}
    (hst : (queue α ι).step q a = some q') : q.producers.length ≤ q'.producers.length := by
  by_cases hact : ∃ c, a = .tryDequeue c
  · obtain ⟨c, rfl⟩ := hact
    rcases (frame_of_tryDequeue hst).1 with heq | ⟨p, s, -, heq⟩
    · rw [heq]
    · rw [heq, List.length_set]
  · obtain ⟨-, -, hgrows, -⟩ := grows_of_step hb (fun c hc => hact ⟨c, hc⟩) hst
    refine le_of_not_gt fun hlt => ?_
    obtain ⟨s, hs, -⟩ := hgrows q'.producers.length _ (List.getElem?_eq_getElem hlt)
    exact absurd (List.getElem?_eq_some_iff.mp hs).1 (Nat.lt_irrefl _)

theorem length_of_exec [DecidableEq ι] {P : Queue α ι → Action α ι → Prop}
    (hP : ∀ q a, P q a → q.Below) {q q' : Queue α ι} {as : List (Action α ι)}
    (has : (queue α ι).Along P q as) (hst : (queue α ι).exec q as = some q') :
    q.producers.length ≤ q'.producers.length := by
  induction as generalizing q with
  | nil => exact Option.some.inj hst ▸ le_rfl
  | cons a as ih =>
    obtain ⟨t, ht, hst⟩ := Option.bind_eq_some_iff.mp hst
    exact (length_of_step (hP _ _ has.1) ht).trans (ih (has.2 t ht) hst)

theorem reachable_inv [DecidableEq ι] {q : Queue α ι}
    (h : (queue α ι).Reachable (fun q _ => q.Below) q) : q.Inv :=
  h.invariant (fun _ hs => hs ▸ .new) fun _ _ _ hinv hb hst => hinv.step hb hst

/-- Nothing that is enqueued is lost, returned twice or made up; no element is moved out of an
    empty cell, no index is handed out beyond the tail, and every thread can go on. -/
theorem queue_conserves [DecidableEq ι] {q : Queue α ι}
    (h : (queue α ι).Reachable (fun q _ => q.Below) q) (hb : q.Below) :
    (q.results.filterMap Prod.snd ++ q.producers.flatMap Producer.inCells).Perm
        (q.producers.flatMap Producer.published) ∧
      q.fault = false ∧
      (∀ s ∈ q.producers, s.fault = false ∧ s.headIndex.toNat ≤ s.tailIndex.toNat) ∧
      ∀ c, ((queue α ι).step q (.tryDequeue c)).isSome := by
  have hinv := reachable_inv h
  refine ⟨hinv.conservation, hinv.fault, fun s hs => ?_, fun c => ?_⟩
  · obtain ⟨f, hf⟩ := hinv.producer s hs
    exact ⟨hf.fault, hf.head_le_tail⟩
  · obtain ⟨q', hq', -⟩ := hinv.tryDequeue hb c
    exact Option.isSome_of_eq_some hq'

instance (q : Queue α ι) : Decidable q.Below :=
  inferInstanceAs (Decidable (∀ s ∈ q.producers, _ ∧ _))

/-- Two threads race for one element: both draw a ticket, that of the second is refused. -/
def race : List (Action ℕ Bool) :=
  [.join, .enqueue 0 10 true, .publish 0] ++
    (List.replicate 8 [.tryDequeue true, .tryDequeue false]).flatten ++
    List.replicate 3 (.tryDequeue true) ++ List.replicate 5 (.tryDequeue false)

theorem queue_conserves_race : ∃ q : Queue ℕ Bool,
    (queue ℕ Bool).Reachable (fun q _ => q.Below) q ∧
      q.results = [(true, some 10), (false, none)] ∧
      (q.results.filterMap Prod.snd ++ q.producers.flatMap Producer.inCells).Perm
        (q.producers.flatMap Producer.published) := by
  have hrun : ((queue ℕ Bool).execIf (fun q _ => q.Below) {} race).map
      (fun q => (q.results, decide q.Below)) = some ([(true, some 10), (false, none)], true) := by
    decide +kernel
  obtain ⟨q, hq, hrun⟩ := Option.map_eq_some_iff.mp hrun
  obtain ⟨hresults, hb⟩ := Prod.mk.inj hrun
  have hreach := System.Reachable.execIf (.init rfl) hq
  exact ⟨q, hreach, hresults, (queue_conserves hreach (of_decide_eq_true hb)).1⟩

end Queue

end BurstPoolNode.ConcurrentQueue

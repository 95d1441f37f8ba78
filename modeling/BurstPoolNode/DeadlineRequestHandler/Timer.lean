import BurstPoolNode.DeadlineRequestHandler

/-!
# The timer of a batch

The loop of `distribute_deadline_reqs` for any pattern of polls, with the number
of polls that have failed since the first request of the batch came carried
beside it (`Timed`). The loop has one counter for this, `waited`, which counts
on while no request has come.

* `step_cases`: what each step does;
* `always_measures_iff`: the counter measures the batch (`Measures`) in all
  states of a run if and only if no poll of the run fails while no slot is
  taken.
-/

namespace BurstPoolNode.DeadlineRequestHandler

/-- The distributor with the number of polls that have failed since the first request of its
    batch came, and the batches posted, each with this number at its post. -/
structure Timed (n : ℕ) where
  d : Distributor n
  failed : ℕ := 0
  posted : List (Batch n × ℕ) := []

namespace Timed

variable {n : ℕ}

/-- The head of the loop, or a poll of the queue, with what it finds. -/
inductive Action
  | head
  | poll (found : Option CalcDeadlineReq)

/-- The head of the loop. -/
def head (t : Timed n) : Timed n :=
  match t.d.head with
  | (none, d) => { t with d := d }
  | (some batch, d) => { d := d, posted := t.posted ++ [(batch, t.failed)] }

/-- A poll that fails counts once the first request of the batch has come. -/
def notFound (t : Timed n) : Timed n :=
  { t with d := t.d.notFound, failed := if t.d.pending = 0 then 0 else t.failed + 1 }

/-- The first request of a batch starts the count. -/
def found (t : Timed n) (creq : CalcDeadlineReq) : Option (Timed n) :=
  (t.d.found creq).map fun d =>
    { t with d := d, failed := if t.d.pending = 0 then 0 else t.failed }

/-- The loop, from its start. -/
def distributing (b : Build) : System (Timed b.parallelValidations) Action where
  init := {t | ∃ reqs, Distributor.padding reqs ∧ t = { d := { reqs := reqs } }}
  step t
    | .head => if t.d.place = .head then some t.head else none
    | .poll none => if t.d.place = .poll then some t.notFound else none
    | .poll (some creq) => if t.d.place = .poll then t.found creq else none

/-- The counter measures the current batch: it is the number of polls that have failed since
    the first request of the batch came, none without a request. A batch that is not full has
    been posted after more than 50 of them, and the counter is small. -/
structure Measures (t : Timed n) : Prop where
  waited_eq : t.d.waited = t.failed
  failed_eq : t.d.pending = 0 → t.failed = 0
  posted : ∀ p ∈ t.posted, p.1.pending = n ∨ 50 < p.2
  waited_le : t.d.waited ≤ 51

/-- No poll fails while no slot is taken. -/
def Busy (t : Timed n) : Action → Prop
  | .poll none => t.d.place = .poll → t.d.pending ≠ 0
  | _ => True

instance (t : Timed n) : (a : Action) → Decidable (t.Busy a)
  | .poll none => inferInstanceAs (Decidable (t.d.place = .poll → t.d.pending ≠ 0))
  | .poll (some _) => .isTrue trivial
  | .head => .isTrue trivial

/-! ## What a step does -/

/-- A request is put into the next slot, if there is one. -/
theorem found_of_lt {t : Timed n} {creq : CalcDeadlineReq} (hlt : t.d.pending < n) :
    t.found creq = some { t with
      d := { t.d with
        reqs := t.d.reqs.set t.d.pending creq
        pending := t.d.pending + 1
        place := .head }
      failed := if t.d.pending = 0 then 0 else t.failed } := by
  rw [found, Distributor.found, dif_pos hlt]
  rfl

variable {b : Build} {t u : Timed b.parallelValidations} {a : Action}

/-- The invariant of the loop: there is a slot to poll into, few polls fail while a slot is
    taken, and none are counted before. -/
structure LoopInv (t : Timed n) : Prop where
  le : t.d.pending ≤ n
  lt : t.d.place = .poll → t.d.pending < n
  waited_le : t.d.place = .poll → 0 < t.d.pending → t.d.waited ≤ 50
  failed_eq : t.d.pending = 0 → t.failed = 0

/-- The steps of the loop, by what they do. -/
theorem step_cases (h : (distributing b).step t a = some u) :
    (a = .head ∧ t.d.place = .head ∧
      (t.d.pending = b.parallelValidations ∨ t.d.pending > 0 ∧ t.d.waited > 50) ∧
      u = { d := { t.d with pending := 0, waited := 0, place := .poll },
            posted := t.posted ++ [(⟨t.d.reqs, t.d.pending⟩, t.failed)] }) ∨
    (a = .head ∧ t.d.place = .head ∧
      ¬(t.d.pending = b.parallelValidations ∨ t.d.pending > 0 ∧ t.d.waited > 50) ∧
      u = { t with d := { t.d with place := .poll } }) ∨
    (a = .poll none ∧ t.d.place = .poll ∧ u = t.notFound) ∨
    ∃ creq, a = .poll (some creq) ∧ t.d.place = .poll ∧
      ∃ hlt : t.d.pending < b.parallelValidations,
        u = { t with
          d := { t.d with
            reqs := t.d.reqs.set t.d.pending creq
            pending := t.d.pending + 1
            place := .head }
          failed := if t.d.pending = 0 then 0 else t.failed } := by
  cases a with
  | head =>
    simp only [distributing, head, Distributor.head] at h
    split_ifs at h with hplace hpost
    · exact .inl ⟨rfl, hplace, hpost, (Option.some.inj h).symm⟩
    · exact .inr (.inl ⟨rfl, hplace, hpost, (Option.some.inj h).symm⟩)
  | poll found =>
    cases found with
    | none =>
      simp only [distributing] at h
      split_ifs at h with hplace
      exact .inr (.inr (.inl ⟨rfl, hplace, (Option.some.inj h).symm⟩))
    | some creq =>
      simp only [distributing] at h
      split_ifs at h with hplace
      have hlt : t.d.pending < b.parallelValidations := by
        by_contra hnot
        rw [found, Distributor.found, dif_neg hnot] at h
        cases h
      rw [found_of_lt hlt] at h
      exact .inr (.inr (.inr ⟨creq, rfl, hplace, hlt, (Option.some.inj h).symm⟩))

theorem step_loopInv (h : LoopInv t) (hst : (distributing b).step t a = some u) : LoopInv u := by
  rcases step_cases hst with ⟨-, -, -, rfl⟩ | ⟨-, hplace, hfull, rfl⟩ | ⟨-, hplace, rfl⟩ |
    ⟨creq, -, hplace, hlt, rfl⟩
  · refine ⟨Nat.zero_le _, fun _ => Nat.pos_of_neZero _, fun _ hpos => ?_, fun _ => rfl⟩
    exact absurd hpos (Nat.lt_irrefl 0)
  · rw [not_or] at hfull
    refine ⟨h.le, fun _ => lt_of_le_of_ne h.le hfull.1, fun _ hpos => ?_, h.failed_eq⟩
    exact not_lt.mp fun hwaited => hfull.2 ⟨hpos, hwaited⟩
  · exact ⟨h.le, nofun, nofun, fun hzero => if_pos hzero⟩
  · exact ⟨hlt, nofun, nofun, fun hzero => absurd hzero (Nat.succ_ne_zero _)⟩

theorem loopInv_init (h : t ∈ (distributing b).init) : LoopInv t := by
  obtain ⟨reqs, -, rfl⟩ := h
  exact ⟨Nat.zero_le _, nofun, nofun, fun _ => rfl⟩

theorem measures_init (h : t ∈ (distributing b).init) : Measures t := by
  obtain ⟨reqs, -, rfl⟩ := h
  exact ⟨rfl, fun _ => rfl, nofun, Nat.zero_le _⟩

/-! ## What the counter measures -/

/-- The counter goes on measuring the batch, unless a poll fails while no slot is taken. -/
theorem step_measures_iff (hinv : LoopInv t) (h : Measures t)
    (hst : (distributing b).step t a = some u) : Measures u ↔ Busy t a := by
  have hu := step_loopInv hinv hst
  rcases step_cases hst with ⟨rfl, hplace, hfull, rfl⟩ | ⟨rfl, hplace, hfull, rfl⟩ |
    ⟨rfl, hplace, rfl⟩ | ⟨creq, rfl, hplace, hlt, rfl⟩
  · -- The batch is full, or its requests have waited.
    refine iff_of_true ⟨rfl, fun _ => rfl, fun p hp => ?_, Nat.zero_le _⟩ trivial
    rcases List.mem_append.mp hp with hp | hp
    · exact h.posted p hp
    · rw [List.mem_singleton.mp hp, ← h.waited_eq]
      exact hfull.imp_right And.right
  · exact iff_of_true ⟨h.waited_eq, h.failed_eq, h.posted, h.waited_le⟩ trivial
  · constructor
    · -- With no slot taken, the poll is counted, but not for a batch.
      intro hm _ hzero
      have hwaited := hm.waited_eq
      rw [hm.failed_eq hzero] at hwaited
      exact absurd hwaited (Nat.succ_ne_zero _)
    · intro hbusy
      have hpending := hbusy hplace
      refine ⟨?_, hu.failed_eq, h.posted, ?_⟩
      · simp only [notFound, Distributor.notFound, if_neg hpending, h.waited_eq]
      · exact Nat.succ_le_succ (hinv.waited_le hplace (Nat.pos_of_ne_zero hpending))
  · refine iff_of_true ⟨?_, hu.failed_eq, h.posted, h.waited_le⟩ trivial
    dsimp only
    split_ifs with hzero
    · rw [h.waited_eq, h.failed_eq hzero]
    · exact h.waited_eq

theorem busy_of_step_eq_none (hst : (distributing b).step t a = none) : Busy t a := by
  cases a with
  | head => trivial
  | poll found =>
    cases found with
    | none =>
      intro hplace
      simp only [distributing, if_pos hplace] at hst
      cases hst
    | some creq => trivial

/-- **The batching timer measures the current batch** just as long as no poll fails while no
    slot is taken: in every state of a run of the loop the counter is the number of polls that
    have failed since the first request of the batch came, batches that are not full have been
    posted after more than 50 of them, and the counter is 51 at most, if and only if all failed
    polls of the run come while a slot is taken. -/
theorem always_measures_iff (ht : t ∈ (distributing b).init) (as : List Action) :
    (distributing b).Always Measures t as ↔ (distributing b).Along Busy t as :=
  System.always_iff_along (fun _ _ _ => step_loopInv) (fun _ _ _ => step_measures_iff)
    (fun _ _ => busy_of_step_eq_none) (loopInv_init ht) (measures_init ht)

/-- The loop at its start. -/
def fresh : Timed Build.sse4.parallelValidations :=
  { d := { reqs := Vector.replicate 4 ⟨0, 0, 0, 0, 1, 0, Vector.replicate 32 0, none⟩ } }

theorem fresh_mem : fresh ∈ (distributing .sse4).init := by
  refine ⟨_, fun creq hcreq => ?_, rfl⟩
  rw [(Vector.mem_replicate.mp hcreq).2]
  exact ⟨rfl, rfl⟩

/-- `k` polls that fail. -/
def failing (k : ℕ) : List Action := (List.replicate k [.head, .poll none]).flatten

/-- A request comes. -/
def arrival : List Action :=
  [.head, .poll (some ⟨7, 1, 5, 0, 100, 9, Vector.replicate 32 0,
    some ⟨0, "192.0.2.1", "203.0.113.7", "/burst?requestType=submitNonce", 11⟩⟩)]

/-- A request comes, 51 polls fail, and another request comes: the first has been posted alone,
    after 51 failed polls. -/
theorem always_measures_arrival :
    (distributing .sse4).Always Measures fresh (arrival ++ failing 51 ++ arrival) :=
  (always_measures_iff fresh_mem _).mpr (by decide +kernel)

/-- After 51 polls without a request, the next one is posted alone and at once. -/
theorem not_always_measures : ¬∀ t ∈ (distributing .sse4).init, ∀ as,
    (distributing .sse4).Always Measures t as := by
  intro h
  have hrun : ((distributing .sse4).exec fresh (failing 51 ++ arrival ++ [.head])).map
      (fun t => t.posted.map fun p => (p.1.pending, p.2)) = some [(1, 0)] := by
    decide +kernel
  obtain ⟨t, ht, hposted⟩ := Option.map_eq_some_iff.mp hrun
  obtain ⟨p, hp, hpair⟩ := List.map_eq_singleton_iff.mp hposted
  obtain ⟨hpending, hfailed⟩ := Prod.mk.inj hpair
  have hmeasures := (h fresh fresh_mem _).of_exec ht
  rcases hmeasures.posted p (hp ▸ List.mem_singleton_self p) with hfull | hlong
  · rw [hpending] at hfull
    cases hfull
  · rw [hfailed] at hlong
    cases hlong

end Timed

end BurstPoolNode.DeadlineRequestHandler

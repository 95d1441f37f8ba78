import BurstPoolNode.DeadlineRequestHandler

/-!
# Validations at the same time

What any number of validations do to the rounds of the miners, whatever the
order of their steps.

* `Inv`: the lock of a round is held by the validation that is between its
  `try_lock` and its `unlock`; and the deadline of a round is the last one
  passed on for its account, except between the call of `do_submit_nonce` and
  the assignment that follows it;
* `step_inv`: every step keeps it (`Next` says what a step can do);
* `exec_alone`: a validation that no other interferes with does what
  `validateDeadline` does;
* `Validation.exists_next`, `Validation.Next.toDone_lt`: a validation is never
  stuck, and comes closer to its end with every step.
-/

namespace BurstPoolNode.DeadlineRequestHandler

variable {deadlineLimit : UInt64}

/-! ## What a step does -/

/-- The steps of the validation number `i`, by what they do. -/
inductive Validation.Next (deadlineLimit : UInt64) (i : ℕ) (v : Validation) (sh : Shared) :
    Pc → Shared → Prop
  | aboveLimit : v.pc = .start → deadlineLimit < v.deadline →
      Next deadlineLimit i v sh .writeError sh
  | belowLimit : v.pc = .start → ¬deadlineLimit < v.deadline →
      Next deadlineLimit i v sh .getMinerRound sh
  | unknown : v.pc = .getMinerRound → sh.miners.table v.creq.accountId = none →
      Next deadlineLimit i v sh .writeOk sh
  | known {p : ℕ} : v.pc = .getMinerRound → sh.miners.table v.creq.accountId = some p →
      Next deadlineLimit i v sh (.tryLock p) sh
  | lock {p : ℕ} : v.pc = .tryLock p → (sh.miners.rounds p).mu = none →
      Next deadlineLimit i v sh (.compare p)
        (sh.setRound p { sh.miners.rounds p with mu := some i })
  | contended {p : ℕ} : v.pc = .tryLock p → (sh.miners.rounds p).mu ≠ none →
      Next deadlineLimit i v sh .writeOk sh
  | better {p : ℕ} : v.pc = .compare p → (sh.miners.rounds p).height = v.creq.height →
      v.deadline < (sh.miners.rounds p).deadline → Next deadlineLimit i v sh (.forward p) sh
  | worse {p : ℕ} : v.pc = .compare p →
      ¬((sh.miners.rounds p).height = v.creq.height ∧
        v.deadline < (sh.miners.rounds p).deadline) →
      Next deadlineLimit i v sh (.unlock p) sh
  | forward {p : ℕ} : v.pc = .forward p →
      Next deadlineLimit i v sh (.store p) (sh.submitNonce v.creq v.deadline)
  | store {p : ℕ} : v.pc = .store p →
      Next deadlineLimit i v sh (.unlock p)
        (sh.setRound p { sh.miners.rounds p with deadline := v.deadline })
  | unlock {p : ℕ} : v.pc = .unlock p →
      Next deadlineLimit i v sh .writeOk (sh.setRound p { sh.miners.rounds p with mu := none })
  | writeError {s : Session} : v.pc = .writeError → v.creq.session = some s →
      Next deadlineLimit i v sh (.done false)
        { sh with writes := sh.writes ++ [(s.id, limitError s)] }
  | writeOk {s : Session} : v.pc = .writeOk → v.creq.session = some s →
      Next deadlineLimit i v sh (.done true)
        { sh with writes := sh.writes ++ [(s.id, success v.deadline s)] }

theorem Validation.next_cases {i : ℕ} {v : Validation} {sh : Shared} {r : Pc × Shared}
    (h : v.next deadlineLimit i sh = some r) : v.Next deadlineLimit i sh r.1 r.2 := by
  obtain ⟨creq, deadline, pc⟩ := v
  cases pc with
  | start =>
    simp only [next] at h
    split_ifs at h with hlimit
    · cases h
      exact .aboveLimit rfl hlimit
    · cases h
      exact .belowLimit rfl hlimit
  | getMinerRound =>
    simp only [next, Miners.getMinerRound] at h
    split at h
    · next ht =>
      cases h
      exact .unknown rfl ht
    · next p ht =>
      cases h
      exact .known rfl ht
  | tryLock p =>
    simp only [next] at h
    split_ifs at h with hmu
    · cases h
      exact .lock rfl hmu
    · cases h
      exact .contended rfl hmu
  | compare p =>
    simp only [next] at h
    split_ifs at h with hcmp
    · cases h
      exact .better rfl hcmp.1 hcmp.2
    · cases h
      exact .worse rfl hcmp
  | forward p =>
    cases h
    exact .forward rfl
  | store p =>
    cases h
    exact .store rfl
  | unlock p =>
    cases h
    exact .unlock rfl
  | writeError =>
    simp only [next, Shared.write, Option.map_map, Option.map_eq_some_iff] at h
    obtain ⟨s, hs, rfl⟩ := h
    exact .writeError rfl hs
  | writeOk =>
    simp only [next, Shared.write, Option.map_map, Option.map_eq_some_iff] at h
    obtain ⟨s, hs, rfl⟩ := h
    exact .writeOk rfl hs
  | done ok => cases h

theorem step_cases {s t : Validations} {a : Action}
    (h : (validations deadlineLimit).step s a = some t) :
    (∃ creq deadline, a = .start creq deadline ∧
      t = { s with calls := s.calls ++ [⟨creq, deadline, .start⟩] }) ∨
      ∃ i v pc sh, a = .run i ∧ s.calls[i]? = some v ∧ v.Next deadlineLimit i s.shared pc sh ∧
        t = ⟨sh, s.calls.set i { v with pc := pc }⟩ := by
  cases a with
  | start creq deadline => exact .inl ⟨creq, deadline, rfl, (Option.some.inj h).symm⟩
  | run i =>
    simp only [validations, bind, Option.bind_eq_some_iff] at h
    obtain ⟨v, hv, r, hr, h⟩ := h
    exact .inr ⟨i, v, r.1, r.2, rfl, hv, Validation.next_cases hr, (Option.some.inj h).symm⟩

/-! ## The end of a validation -/

/-- A bound on the number of steps to the end. -/
def Pc.toDone : Pc → ℕ
  | .start => 8
  | .getMinerRound => 7
  | .tryLock _ => 6
  | .compare _ => 5
  | .forward _ => 4
  | .store _ => 3
  | .unlock _ => 2
  | .writeError | .writeOk => 1
  | .done _ => 0

namespace Validation

variable {i : ℕ} {v : Validation} {sh sh' : Shared} {pc : Pc}

/-- The last step writes the response, those before it write nothing. -/
theorem Next.writes_cases (h : v.Next deadlineLimit i sh pc sh') : v.pc.isDone = false ∧
    (pc.isDone = false ∧ sh'.writes = sh.writes ∨
      pc.isDone = true ∧ ∃ s res, v.creq.session = some s ∧
        sh'.writes = sh.writes ++ [(s.id, res)]) := by
  cases h with
  | writeError hpc hs => exact ⟨congrArg Pc.isDone hpc, .inr ⟨rfl, _, _, hs, rfl⟩⟩
  | writeOk hpc hs => exact ⟨congrArg Pc.isDone hpc, .inr ⟨rfl, _, _, hs, rfl⟩⟩
  | _ hpc => exact ⟨congrArg Pc.isDone hpc, .inl ⟨rfl, rfl⟩⟩

/-- Every step comes closer to the end. -/
theorem Next.toDone_lt (h : v.Next deadlineLimit i sh pc sh') : pc.toDone < v.pc.toDone := by
  cases h with
  | _ hpc =>
    rw [hpc]
    simp [Pc.toDone]

/-- A validation that has a session to answer is never stuck. -/
theorem exists_next (v : Validation) {s : Session} (hs : v.creq.session = some s)
    (hdone : v.pc.isDone = false) (deadlineLimit : UInt64) (i : ℕ) (sh : Shared) :
    ∃ r, v.next deadlineLimit i sh = some r := by
  obtain ⟨creq, deadline, pc⟩ := v
  dsimp only at hs
  cases pc with
  | start =>
    simp only [next]
    split_ifs <;> exact ⟨_, rfl⟩
  | getMinerRound =>
    simp only [next]
    split <;> exact ⟨_, rfl⟩
  | tryLock p =>
    simp only [next]
    split_ifs <;> exact ⟨_, rfl⟩
  | compare p =>
    simp only [next]
    split_ifs <;> exact ⟨_, rfl⟩
  | forward p => exact ⟨_, rfl⟩
  | store p => exact ⟨_, rfl⟩
  | unlock p => exact ⟨_, rfl⟩
  | writeError =>
    simp only [next, Shared.write, hs]
    exact ⟨_, rfl⟩
  | writeOk =>
    simp only [next, Shared.write, hs]
    exact ⟨_, rfl⟩
  | done ok => cases hdone

end Validation

/-! ## A validation alone -/

/-- Steps of the validation number `i` take it from `pc` to its end, leaving `sh'`. -/
def Finishes (deadlineLimit : UInt64) (calls : List Validation) (i : ℕ) (creq : CalcDeadlineReq)
    (deadline : UInt64) (sh' : Shared) (pc : Pc) (sh : Shared) : Prop :=
  ∃ n ok, (validations deadlineLimit).exec ⟨sh, calls.set i ⟨creq, deadline, pc⟩⟩
    (List.replicate n (.run i)) = some ⟨sh', calls.set i ⟨creq, deadline, .done ok⟩⟩

theorem Finishes.step {calls : List Validation} {i : ℕ} (hi : i < calls.length)
    {creq : CalcDeadlineReq} {deadline : UInt64} {sh sh₁ sh' : Shared} {pc pc₁ : Pc}
    (hnext : Validation.next deadlineLimit i ⟨creq, deadline, pc⟩ sh = some (pc₁, sh₁))
    (h : Finishes deadlineLimit calls i creq deadline sh' pc₁ sh₁) :
    Finishes deadlineLimit calls i creq deadline sh' pc sh := by
  obtain ⟨n, ok, h⟩ := h
  have hstep : (validations deadlineLimit).step ⟨sh, calls.set i ⟨creq, deadline, pc⟩⟩ (.run i) =
      some ⟨sh₁, calls.set i ⟨creq, deadline, pc₁⟩⟩ := by
    simp [validations, hi, hnext]
  refine ⟨n + 1, ok, ?_⟩
  rw [List.replicate_succ, System.exec_cons, hstep]
  exact h

theorem Shared.setRound_unlock {sh : Shared} {p i : ℕ} (h : (sh.miners.rounds p).mu = none) :
    let locked := sh.setRound p { sh.miners.rounds p with mu := some i }
    locked.setRound p { locked.miners.rounds p with mu := none } = sh := by
  have hround : { sh.miners.rounds p with mu := none } = sh.miners.rounds p := by rw [← h]
  simp only [setRound, Function.update_self, Function.update_idem, hround, Function.update_eq_self]

/-- A validation that no other interferes with does what `validateDeadline` does. -/
theorem exec_alone {sh sh' : Shared} {calls : List Validation} {i : ℕ} (hi : i < calls.length)
    {creq : CalcDeadlineReq} {deadline : UInt64}
    (h : validateDeadline deadlineLimit creq deadline sh = some sh') :
    Finishes deadlineLimit calls i creq deadline sh' .start sh := by
  have write : ∀ {sh : Shared}, sh.write creq (success deadline) = some sh' →
      Finishes deadlineLimit calls i creq deadline sh' .writeOk sh := fun h =>
    .step hi (Option.map_eq_some_iff.mpr ⟨_, h, rfl⟩) ⟨0, true, rfl⟩
  rw [validateDeadline] at h
  by_cases hlimit : deadline > deadlineLimit
  · rw [if_pos hlimit] at h
    refine .step hi (if_pos hlimit) (.step hi ?_ ⟨0, false, rfl⟩)
    exact Option.map_eq_some_iff.mpr ⟨_, h, rfl⟩
  · rw [if_neg hlimit] at h
    refine .step hi (if_neg hlimit) ?_
    cases ht : sh.miners.getMinerRound creq.accountId with
    | none =>
      rw [ht] at h
      have hget : Validation.next deadlineLimit i ⟨creq, deadline, .getMinerRound⟩ sh =
          some (.writeOk, sh) := by
        simp only [Validation.next, ht]
      exact .step hi hget (write h)
    | some p =>
      rw [ht] at h
      have hget : Validation.next deadlineLimit i ⟨creq, deadline, .getMinerRound⟩ sh =
          some (.tryLock p, sh) := by
        simp only [Validation.next, ht]
      refine .step hi hget ?_
      dsimp only at h
      split_ifs at h with hmu hbetter
      · -- The lock is taken, the nonce passed on, its deadline stored, the lock released.
        refine .step hi (if_pos hmu) (.step hi (if_pos ?_) (.step hi rfl (.step hi rfl
          (.step hi rfl (write ?_)))))
        · simpa [Shared.setRound] using hbetter
        · rw [← h]
          simp [Shared.setRound, Shared.submitNonce, hmu]
      · -- The lock is taken and released.
        refine .step hi (if_pos hmu) (.step hi (if_neg ?_) (.step hi rfl (write ?_)))
        · simpa [Shared.setRound] using hbetter
        · rw [← h]
          exact congrArg (Shared.write · _ _) (Shared.setRound_unlock hmu)
      · exact .step hi (if_neg hmu) (write h)

/-! ## What is passed on -/

/-- The deadlines passed on for an account and a height, in their order. -/
def Shared.submitted (sh : Shared) (accountId height : UInt64) : List UInt64 :=
  (sh.forwarded.filter fun f => f.2.accountId = accountId ∧ f.2.blockHeight = height).map
    fun f => f.2.deadline

/-- The last deadline passed on for an account and a height. -/
def Shared.lastSubmitted (sh : Shared) (accountId height : UInt64) : UInt64 :=
  (sh.submitted accountId height).getLast?.getD 0xFFFFFFFFFFFFFFFF

theorem Shared.submitted_submitNonce (sh : Shared) (creq : CalcDeadlineReq)
    (deadline accountId height : UInt64) :
    (sh.submitNonce creq deadline).submitted accountId height =
      if creq.accountId = accountId ∧ creq.height = height then
        sh.submitted accountId height ++ [deadline]
      else
        sh.submitted accountId height := by
  rw [submitted, submitNonce, List.filter_append, List.map_append]
  split_ifs with h
  · rw [List.filter_cons_of_pos (by simpa using h)]
    rfl
  · rw [List.filter_cons_of_neg (by simpa using h), List.filter_nil, List.map_nil, List.append_nil]
    rfl

theorem Shared.lastSubmitted_submitNonce (sh : Shared) (creq : CalcDeadlineReq)
    (deadline accountId height : UInt64) :
    (sh.submitNonce creq deadline).lastSubmitted accountId height =
      if creq.accountId = accountId ∧ creq.height = height then deadline
      else sh.lastSubmitted accountId height := by
  rw [lastSubmitted, submitted_submitNonce]
  split_ifs
  · simp
  · rfl

/-- The last of the deadlines passed on is the least, if each is less than the one before. -/
theorem Shared.lastSubmitted_le {sh : Shared} {accountId height : UInt64}
    (h : (sh.submitted accountId height).Pairwise (· > ·)) {d : UInt64}
    (hd : d ∈ sh.submitted accountId height) : sh.lastSubmitted accountId height ≤ d := by
  rw [lastSubmitted]
  generalize sh.submitted accountId height = ds at h hd
  induction ds using List.reverseRecOn with
  | nil => cases hd
  | append_singleton ds e _ =>
    rw [List.getLast?_concat, Option.getD_some]
    rcases List.mem_append.mp hd with hd | hd
    · exact UInt64.le_of_lt ((List.pairwise_append.mp h).2.2 d hd e (List.mem_singleton_self e))
    · rw [List.mem_singleton.mp hd]
      exact UInt64.le_refl e

/-! ## The lock of a round -/

/-- The round whose lock is held. -/
def Pc.holds : Pc → Option ℕ
  | .compare p | .forward p | .store p | .unlock p => some p
  | _ => none

@[simp] theorem Shared.setRound_submitted (sh : Shared) (p : ℕ) (round : MinerRound) :
    (sh.setRound p round).submitted = sh.submitted := rfl

namespace Validation.Next

variable {i : ℕ} {v : Validation} {sh sh' : Shared} {pc : Pc}

/-- No step changes the table, or the height or the recipient of a round. -/
theorem table_eq (h : v.Next deadlineLimit i sh pc sh') :
    sh'.miners.table = sh.miners.table := by
  cases h <;> rfl

theorem fixed_eq (h : v.Next deadlineLimit i sh pc sh') (q : ℕ) :
    (sh'.miners.rounds q).height = (sh.miners.rounds q).height ∧
      (sh'.miners.rounds q).recipId = (sh.miners.rounds q).recipId := by
  cases h with
  | lock | store | unlock =>
    rw [Shared.setRound_rounds]
    split_ifs with hq
    · rw [hq]
      exact ⟨rfl, rfl⟩
    · exact ⟨rfl, rfl⟩
  | _ => exact ⟨rfl, rfl⟩

theorem height_eq (h : v.Next deadlineLimit i sh pc sh') (q : ℕ) :
    (sh'.miners.rounds q).height = (sh.miners.rounds q).height :=
  (h.fixed_eq q).1

/-- The deadline of a round is changed by the assignment only. -/
theorem deadline_eq (h : v.Next deadlineLimit i sh pc sh') {q : ℕ} (hq : v.pc ≠ .store q) :
    (sh'.miners.rounds q).deadline = (sh.miners.rounds q).deadline := by
  cases h with
  | lock | unlock =>
    rw [Shared.setRound_rounds]
    split_ifs with hqp
    · rw [hqp]
    · rfl
  | store hpc =>
    rw [Shared.setRound_rounds, if_neg]
    rintro rfl
    exact hq hpc
  | _ => rfl

/-- Something is passed on by the call of `do_submit_nonce` only. -/
theorem forwarded_eq (h : v.Next deadlineLimit i sh pc sh') (hv : ∀ q, v.pc ≠ .forward q) :
    sh'.forwarded = sh.forwarded := by
  cases h with
  | forward hpc => exact absurd hpc (hv _)
  | _ => rfl

theorem submitted_eq (h : v.Next deadlineLimit i sh pc sh') {a : UInt64}
    (ha : (∃ q, v.pc = .forward q) → a ≠ v.creq.accountId) (height : UInt64) :
    sh'.submitted a height = sh.submitted a height := by
  cases h with
  | forward hpc =>
    rw [Shared.submitted_submitNonce, if_neg]
    rintro ⟨rfl, -⟩
    exact ha ⟨_, hpc⟩ rfl
  | _ => rfl

/-- The lock of a round passes between the validation that steps and nobody. -/
theorem mu_iff (h : v.Next deadlineLimit i sh pc sh')
    (hv : ∀ q, (sh.miners.rounds q).mu = some i ↔ v.pc.holds = some q) (q j : ℕ) :
    (sh'.miners.rounds q).mu = some j ↔
      (j = i ∧ pc.holds = some q) ∨ (j ≠ i ∧ (sh.miners.rounds q).mu = some j) := by
  have hq := hv q
  cases h <;> simp_all only [Pc.holds, Shared.setRound_rounds, Shared.submitNonce] <;> grind

end Validation.Next

/-! ## The invariant -/

/-- What a validation knows where it is. -/
def Validation.Sound (deadlineLimit : UInt64) (sh : Shared) (v : Validation) : Prop :=
  match v.pc with
  | .getMinerRound => v.deadline ≤ deadlineLimit
  | .tryLock p | .compare p | .unlock p =>
    v.deadline ≤ deadlineLimit ∧ sh.miners.table v.creq.accountId = some p
  | .forward p =>
    v.deadline ≤ deadlineLimit ∧ sh.miners.table v.creq.accountId = some p ∧
      (sh.miners.rounds p).height = v.creq.height ∧ v.deadline < (sh.miners.rounds p).deadline
  | .store p =>
    v.deadline ≤ deadlineLimit ∧ sh.miners.table v.creq.accountId = some p ∧
      (sh.miners.rounds p).height = v.creq.height ∧
      sh.lastSubmitted v.creq.accountId v.creq.height = v.deadline
  | _ => True

/-- What is passed on is a nonce that was validated for the block of its account's round. -/
def Validation.Backs (deadlineLimit : UInt64) (sh : Shared) (f : UInt64 × SubmitNonceRequest)
    (v : Validation) : Prop :=
  f = (v.creq.recipId, ⟨v.creq.accountId, v.creq.nonce, v.deadline, v.creq.height⟩) ∧
    v.deadline ≤ deadlineLimit ∧
    ∃ p, sh.miners.table v.creq.accountId = some p ∧ (sh.miners.rounds p).height = v.creq.height

/-- The invariant of the validations. -/
structure Inv (deadlineLimit : UInt64) (s : Validations) : Prop where
  held : ∀ p i, (s.shared.miners.rounds p).mu = some i ↔
    ∃ v, s.calls[i]? = some v ∧ v.pc.holds = some p
  sound : ∀ (i : ℕ) (v : Validation), s.calls[i]? = some v → v.Sound deadlineLimit s.shared
  stored : ∀ a p, s.shared.miners.table a = some p →
    (∀ (i : ℕ) (v : Validation), s.calls[i]? = some v → v.pc ≠ .store p) →
      (s.shared.miners.rounds p).deadline =
        s.shared.lastSubmitted a (s.shared.miners.rounds p).height
  decreasing : ∀ a h, (s.shared.submitted a h).Pairwise (· > ·)
  backed : ∀ f ∈ s.shared.forwarded, ∃ (i : ℕ) (v : Validation),
    s.calls[i]? = some v ∧ v.Backs deadlineLimit s.shared f
  injective : ∀ a b p, s.shared.miners.table a = some p → s.shared.miners.table b = some p → a = b

theorem inv_init {s : Validations} (h : s ∈ (validations deadlineLimit).init) :
    Inv deadlineLimit s := by
  obtain ⟨height, res, miners, hcache, rfl⟩ := h
  have hcached := Miners.cached_cacheMiners hcache
  refine ⟨fun p i => ?_, ?_, fun a p ha _ => ?_, fun a h => ?_, ?_, hcached.injective⟩
  · simp [hcached.free p]
  · simp
  · exact hcached.deadline_eq a p ha
  · exact List.Pairwise.nil
  · simp

/-- The round of a validation that holds a lock is that of its account. -/
theorem Validation.Sound.table_of_holds {sh : Shared} {v : Validation}
    (h : v.Sound deadlineLimit sh) {p : ℕ} (hp : v.pc.holds = some p) :
    v.deadline ≤ deadlineLimit ∧ sh.miners.table v.creq.accountId = some p := by
  rw [Sound] at h
  cases hpc : v.pc <;> rw [hpc] at h hp <;> cases hp
  · exact h
  · exact ⟨h.1, h.2.1⟩
  · exact ⟨h.1, h.2.1⟩
  · exact h

namespace Inv

variable {s : Validations} {i : ℕ} {v : Validation} {pc : Pc} {sh : Shared}

theorem mu_iff_holds (h : Inv deadlineLimit s) (hv : s.calls[i]? = some v) (q : ℕ) :
    (s.shared.miners.rounds q).mu = some i ↔ v.pc.holds = some q := by
  rw [h.held]
  constructor
  · rintro ⟨w, hw, hq⟩
    rw [hv] at hw
    cases hw
    exact hq
  · intro hq
    exact ⟨v, hv, hq⟩

/-- Two validations do not hold the same lock. -/
theorem holds_unique (h : Inv deadlineLimit s) (hv : s.calls[i]? = some v) {j : ℕ}
    {w : Validation} (hw : s.calls[j]? = some w) {q : ℕ} (hvq : v.pc.holds = some q)
    (hwq : w.pc.holds = some q) : i = j := by
  have hi := (h.mu_iff_holds hv q).mpr hvq
  have hj := (h.mu_iff_holds hw q).mpr hwq
  exact Option.some.inj (hi.symm.trans hj)

/-- The validations that do not step know the same as before. -/
theorem sound_other (h : Inv deadlineLimit s) (hv : s.calls[i]? = some v)
    (hnext : v.Next deadlineLimit i s.shared pc sh) {j : ℕ} (hij : i ≠ j) {w : Validation}
    (hw : s.calls[j]? = some w) : w.Sound deadlineLimit sh := by
  have hws := h.sound j w hw
  have hvs := h.sound i v hv
  rw [Validation.Sound] at hws ⊢
  rw [hnext.table_eq]
  cases hpc : w.pc with
  | forward p =>
    rw [hpc] at hws
    dsimp only at hws ⊢
    rw [hnext.height_eq, hnext.deadline_eq]
    · exact hws
    · intro hvpc
      exact hij (h.holds_unique hv hw (q := p) (by rw [hvpc, Pc.holds]) (by rw [hpc, Pc.holds]))
  | store p =>
    rw [hpc] at hws
    dsimp only at hws ⊢
    rw [hnext.height_eq, Shared.lastSubmitted, hnext.submitted_eq]
    · exact hws
    · rintro ⟨q, hvpc⟩ ha
      have hvq : v.pc.holds = some q := by rw [hvpc, Pc.holds]
      have hqp : some q = some p := by rw [← (hvs.table_of_holds hvq).2, ← ha, hws.2.1]
      exact hij (h.holds_unique hv hw (hvq.trans hqp) (by rw [hpc, Pc.holds]))
  | _ =>
    rw [hpc] at hws
    exact hws

/-- The validation that steps knows what its place requires. -/
theorem sound_self (h : Inv deadlineLimit s) (hv : s.calls[i]? = some v)
    (hnext : v.Next deadlineLimit i s.shared pc sh) :
    ({ v with pc := pc } : Validation).Sound deadlineLimit sh := by
  have hvs := h.sound i v hv
  rw [Validation.Sound] at hvs
  cases hnext with
  | belowLimit hpc hlimit => exact UInt64.not_lt.mp hlimit
  | known hpc ht =>
    rw [hpc] at hvs
    exact ⟨hvs, ht⟩
  | lock hpc =>
    rw [hpc] at hvs
    exact hvs
  | better hpc hheight hlt =>
    rw [hpc] at hvs
    exact ⟨hvs.1, hvs.2, hheight, hlt⟩
  | worse hpc =>
    rw [hpc] at hvs
    exact hvs
  | forward hpc =>
    rw [hpc] at hvs
    refine ⟨hvs.1, hvs.2.1, hvs.2.2.1, ?_⟩
    rw [Shared.lastSubmitted_submitNonce, if_pos ⟨rfl, rfl⟩]
  | store hpc =>
    rw [hpc] at hvs
    exact ⟨hvs.1, hvs.2.1⟩
  | _ => trivial

theorem getElem?_set_self (hv : s.calls[i]? = some v) (w : Validation) :
    (s.calls.set i w)[i]? = some w := by
  obtain ⟨hi, -⟩ := List.getElem?_eq_some_iff.mp hv
  exact List.getElem?_set_self hi

/-- Between the steps of a validation, the deadline of a round is the last one passed on. -/
theorem stored_next (h : Inv deadlineLimit s) (hv : s.calls[i]? = some v)
    (hnext : v.Next deadlineLimit i s.shared pc sh) {a : UInt64} {q : ℕ}
    (ha : s.shared.miners.table a = some q)
    (hq : ∀ (j : ℕ) (w : Validation),
      (s.calls.set i { v with pc := pc })[j]? = some w → w.pc ≠ .store q) :
    (sh.miners.rounds q).deadline = sh.lastSubmitted a (sh.miners.rounds q).height := by
  have hvs := h.sound i v hv
  rw [hnext.height_eq]
  by_cases hstore : v.pc = .store q
  · -- The assignment: what is stored is what the validation passed on before.
    rw [Validation.Sound, hstore] at hvs
    obtain ⟨-, htable, hheight, hlast⟩ := hvs
    obtain rfl := h.injective _ _ _ ha htable
    cases hnext <;> simp_all [Shared.setRound_rounds, Shared.lastSubmitted]
  · have hforward : (∃ p, v.pc = .forward p) → a ≠ v.creq.accountId := by
      rintro ⟨p, hpc⟩ rfl
      have hvp := (hvs.table_of_holds (p := p) (by rw [hpc, Pc.holds])).2
      obtain rfl : p = q := Option.some.inj (hvp.symm.trans ha)
      -- After the call, the validation is at the assignment.
      have hpc' : pc = .store p := by cases hnext <;> simp_all
      exact hq i _ (getElem?_set_self hv _) hpc'
    rw [hnext.deadline_eq hstore, Shared.lastSubmitted, hnext.submitted_eq hforward]
    refine h.stored a q ha fun j w hw hwq => ?_
    rcases eq_or_ne i j with rfl | hij
    · rw [hv] at hw
      cases hw
      exact hstore hwq
    · exact hq j w ((List.getElem?_set_ne hij).trans hw) hwq

/-- What is passed on is less than what was passed on before. -/
theorem decreasing_next (h : Inv deadlineLimit s) (hv : s.calls[i]? = some v)
    (hnext : v.Next deadlineLimit i s.shared pc sh) (a height : UInt64) :
    (sh.submitted a height).Pairwise (· > ·) := by
  cases hnext with
  | forward hpc =>
    rename_i p
    have hvs := h.sound i v hv
    rw [Validation.Sound, hpc] at hvs
    obtain ⟨-, htable, hheight, hlt⟩ := hvs
    have hstored := h.stored _ p htable fun j w hw hwp => by
      have hij := h.holds_unique hv hw (q := p) (by rw [hpc, Pc.holds]) (by rw [hwp, Pc.holds])
      subst hij
      rw [hv] at hw
      cases hw
      rw [hpc] at hwp
      cases hwp
    rw [Shared.submitted_submitNonce]
    split_ifs with hah
    · obtain ⟨rfl, rfl⟩ := hah
      refine List.pairwise_append.mpr ⟨h.decreasing _ _, List.pairwise_singleton _ _, ?_⟩
      intro d hd e he
      rw [List.mem_singleton.mp he]
      rw [hstored, hheight] at hlt
      exact UInt64.lt_of_lt_of_le hlt (Shared.lastSubmitted_le (h.decreasing _ _) hd)
    · exact h.decreasing a height
  | _ => exact h.decreasing a height

/-- A validation backs what it passes on, and goes on backing it. -/
theorem backed_next (h : Inv deadlineLimit s) (hv : s.calls[i]? = some v)
    (hnext : v.Next deadlineLimit i s.shared pc sh) {f : UInt64 × SubmitNonceRequest}
    (hf : f ∈ sh.forwarded) : ∃ (j : ℕ) (w : Validation),
      (s.calls.set i { v with pc := pc })[j]? = some w ∧ w.Backs deadlineLimit sh f := by
  have hold : f ∈ s.shared.forwarded → ∃ (j : ℕ) (w : Validation),
      (s.calls.set i { v with pc := pc })[j]? = some w ∧ w.Backs deadlineLimit sh f := by
    intro hf
    obtain ⟨j, w, hw, heq, hlimit, p, htable, hheight⟩ := h.backed f hf
    rcases eq_or_ne i j with rfl | hij
    · rw [hv] at hw
      cases hw
      exact ⟨i, _, getElem?_set_self hv _, heq, hlimit, p, by rwa [hnext.table_eq],
        by rwa [hnext.height_eq]⟩
    · exact ⟨j, w, (List.getElem?_set_ne hij).trans hw, heq, hlimit, p, by rwa [hnext.table_eq],
        by rwa [hnext.height_eq]⟩
  cases hnext with
  | forward hpc =>
    rcases List.mem_append.mp hf with hf | hf
    · exact hold hf
    · have hvs := h.sound i v hv
      rw [Validation.Sound, hpc] at hvs
      exact ⟨i, _, getElem?_set_self hv _, List.mem_singleton.mp hf, hvs.1, _, hvs.2.1, hvs.2.2.1⟩
  | _ => exact hold hf

end Inv

theorem step_inv {s t : Validations} {a : Action} (h : Inv deadlineLimit s)
    (hst : (validations deadlineLimit).step s a = some t) : Inv deadlineLimit t := by
  rcases step_cases hst with ⟨creq, deadline, -, rfl⟩ | ⟨i, v, pc, sh, -, hv, hnext, rfl⟩
  · -- A new validation holds nothing and knows nothing.
    have hcalls : ∀ (j : ℕ) (w : Validation),
        (s.calls ++ [⟨creq, deadline, .start⟩])[j]? = some w →
          s.calls[j]? = some w ∨ w = ⟨creq, deadline, .start⟩ := by
      intro j w hw
      rw [List.getElem?_append] at hw
      split_ifs at hw with hj
      · exact .inl hw
      · exact .inr (List.mem_singleton.mp (List.mem_of_getElem? hw))
    have hold : ∀ (j : ℕ) (w : Validation), s.calls[j]? = some w →
        (s.calls ++ [⟨creq, deadline, .start⟩])[j]? = some w := by
      intro j w hw
      rw [List.getElem?_append_left (List.getElem?_eq_some_iff.mp hw).1, hw]
    refine ⟨fun p i => ?_, ?_, ?_, h.decreasing, ?_, h.injective⟩
    · rw [h.held]
      constructor
      · rintro ⟨w, hw, hp⟩
        exact ⟨w, hold i w hw, hp⟩
      · rintro ⟨w, hw, hp⟩
        rcases hcalls i w hw with hw | rfl
        · exact ⟨w, hw, hp⟩
        · cases hp
    · intro i w hw
      rcases hcalls i w hw with hw | rfl
      · exact h.sound i w hw
      · trivial
    · intro a p ha hp
      exact h.stored a p ha fun i w hw => hp i w (hold i w hw)
    · intro f hf
      obtain ⟨i, w, hw, hback⟩ := h.backed f hf
      exact ⟨i, w, hold i w hw, hback⟩
  · refine ⟨fun p j => ?_, ?_, ?_, h.decreasing_next hv hnext, fun f => h.backed_next hv hnext, ?_⟩
    · rw [hnext.mu_iff (h.mu_iff_holds hv), h.held]
      rcases eq_or_ne i j with rfl | hij
      · simp [Inv.getElem?_set_self hv]
      · simp [List.getElem?_set_ne hij, hij.symm]
    · intro j w hw
      rcases eq_or_ne i j with rfl | hij
      · rw [Inv.getElem?_set_self hv] at hw
        cases hw
        exact h.sound_self hv hnext
      · rw [List.getElem?_set_ne hij] at hw
        exact h.sound_other hv hnext hij hw
    · intro a q ha hq
      rw [hnext.table_eq] at ha
      exact h.stored_next hv hnext ha hq
    · rw [hnext.table_eq]
      exact h.injective

theorem reachable_inv {s : Validations}
    (h : (validations deadlineLimit).Reachable System.Any s) : Inv deadlineLimit s :=
  h.invariant (fun _ => inv_init) fun _ _ _ hs _ => step_inv hs

/-- The validations that are done have answered: with success, or with the error for
    deadlines above the limit. -/
def Answered (s : Validations) : Prop :=
  ∀ v ∈ s.calls, ∀ ok, v.pc = .done ok → ∃ ss, v.creq.session = some ss ∧
    (ss.id, if ok then success v.deadline ss else limitError ss) ∈ s.shared.writes

theorem answered {s : Validations} (h : (validations deadlineLimit).Reachable System.Any s) :
    Answered s := by
  refine h.invariant ?_ ?_
  · rintro s ⟨height, res, miners, -, rfl⟩ v hv
    cases hv
  · rintro s a t hs - hst
    rcases step_cases hst with ⟨creq, deadline, -, rfl⟩ | ⟨i, v, pc, sh, -, hv, hnext, rfl⟩
    · intro w hw ok hdone
      rcases List.mem_append.mp hw with hw | hw
      · exact hs w hw ok hdone
      · rw [List.mem_singleton.mp hw] at hdone
        cases hdone
    · intro w hw ok hdone
      have hmono : ∀ {r}, r ∈ s.shared.writes → r ∈ sh.writes := by
        intro r hr
        cases hnext with
        | writeError | writeOk => exact List.mem_append_left _ hr
        | _ => exact hr
      rcases List.mem_or_eq_of_mem_set hw with hw | rfl
      · obtain ⟨ss, hss, hmem⟩ := hs w hw ok hdone
        exact ⟨ss, hss, hmono hmem⟩
      · cases hnext with
        | writeError _ hss =>
          cases hdone
          exact ⟨_, hss, List.mem_append_right _ (List.mem_singleton_self _)⟩
        | writeOk _ hss =>
          cases hdone
          exact ⟨_, hss, List.mem_append_right _ (List.mem_singleton_self _)⟩
        | _ => cases hdone

/-! ## Improvements -/

/-- The steps left before the lock is released. -/
def Pc.toUnlock : Pc → ℕ
  | .compare _ => 3
  | .forward _ => 2
  | .store _ => 1
  | _ => 0

/-- A validation that holds a lock goes on, and comes closer to releasing it, or does. -/
theorem next_of_holds {i : ℕ} {v : Validation} {sh : Shared} {p : ℕ}
    (h : v.pc.holds = some p) :
    ∃ pc sh', v.next deadlineLimit i sh = some (pc, sh') ∧
      (pc.holds = some p ∧ pc.toUnlock < v.pc.toUnlock ∨
        pc.holds = none ∧ (sh'.miners.rounds p).mu = none) := by
  obtain ⟨creq, deadline, pc⟩ := v
  cases pc with
  | compare q =>
    cases h
    by_cases hcmp : (sh.miners.rounds p).height = creq.height ∧
        (sh.miners.rounds p).deadline > deadline
    · exact ⟨_, _, if_pos hcmp, .inl ⟨rfl, by simp [Pc.toUnlock]⟩⟩
    · exact ⟨_, _, if_neg hcmp, .inl ⟨rfl, by simp [Pc.toUnlock]⟩⟩
  | forward q =>
    cases h
    exact ⟨_, _, rfl, .inl ⟨rfl, by simp [Pc.toUnlock]⟩⟩
  | store q =>
    cases h
    exact ⟨_, _, rfl, .inl ⟨rfl, by simp [Pc.toUnlock]⟩⟩
  | unlock q =>
    cases h
    refine ⟨_, _, rfl, .inr ⟨rfl, ?_⟩⟩
    rw [Shared.setRound_rounds, if_pos rfl]
  | _ => cases h

/-- **Only strict improvements are passed on.** In every state that validations reach:
    the deadlines passed on for an account and a height decrease strictly; each was
    validated, is within the limit and is for the block of its account's round; a lock has
    one holder, which is between its `try_lock` and its `unlock`, is never stuck there and
    comes closer to the release with each of its steps; and while the lock of a round is
    free, its deadline is the last one passed on. -/
theorem forwarded_improves {s : Validations}
    (h : (validations deadlineLimit).Reachable System.Any s) :
    (∀ a height, (s.shared.submitted a height).Pairwise (· > ·)) ∧
    (∀ f ∈ s.shared.forwarded, ∃ v ∈ s.calls,
      f = (v.creq.recipId, ⟨v.creq.accountId, v.creq.nonce, v.deadline, v.creq.height⟩) ∧
      v.deadline ≤ deadlineLimit ∧ ∃ p, s.shared.miners.getMinerRound v.creq.accountId = some p ∧
        (s.shared.miners.rounds p).height = v.creq.height) ∧
    (∀ (p i j : ℕ) (v w : Validation), s.calls[i]? = some v → s.calls[j]? = some w →
      v.pc.holds = some p → w.pc.holds = some p → i = j) ∧
    (∀ p i, (s.shared.miners.rounds p).mu = some i ↔
      ∃ v, s.calls[i]? = some v ∧ v.pc.holds = some p) ∧
    (∀ (p i : ℕ) (v : Validation), s.calls[i]? = some v → v.pc.holds = some p →
      ∃ pc sh, v.next deadlineLimit i s.shared = some (pc, sh) ∧
        (pc.holds = some p ∧ pc.toUnlock < v.pc.toUnlock ∨
          pc.holds = none ∧ (sh.miners.rounds p).mu = none)) ∧
    (∀ a p, s.shared.miners.getMinerRound a = some p → (s.shared.miners.rounds p).mu = none →
      (s.shared.miners.rounds p).deadline =
        (s.shared.submitted a (s.shared.miners.rounds p).height).getLast?.getD
          0xFFFFFFFFFFFFFFFF) := by
  have hinv := reachable_inv h
  refine ⟨hinv.decreasing, ?_, ?_, hinv.held, fun _ _ _ _ => next_of_holds, ?_⟩
  · intro f hf
    obtain ⟨i, v, hv, hback⟩ := hinv.backed f hf
    exact ⟨v, List.mem_of_getElem? hv, hback⟩
  · intro p i j v w hv hw hvp hwp
    exact hinv.holds_unique hv hw hvp hwp
  · intro a p ha hfree
    refine hinv.stored a p ha fun i v hv hpc => ?_
    have hheld := (hinv.held p i).mpr ⟨v, hv, by rw [hpc, Pc.holds]⟩
    rw [hfree] at hheld
    cases hheld

/-- A request of the account 7, whose round is for the block of height 5. -/
def someRequest (nonce : UInt64) (id : ℕ) : CalcDeadlineReq :=
  ⟨7, nonce, 5, 0, 1, 9, Vector.replicate 32 0,
    some ⟨id, "192.0.2.1", "203.0.113.7", "/burst?requestType=submitNonce", 11⟩⟩

/-- The account 7 alone, as `cache_miners` leaves it. -/
def oneMiner : Validations :=
  { shared := { miners := (Miners.cacheMiners {} 5 (some ⟨[(7, 9)], false⟩)).2 } }

theorem oneMiner_mem : oneMiner ∈ (validations deadlineLimit).init :=
  ⟨5, some ⟨[(7, 9)], false⟩, _, rfl, rfl⟩

/-- Two nonces of an account, the better one started first but compared last. -/
theorem forwarded_improves_two : ∃ s, (validations 1000).Reachable System.Any s ∧
    s.shared.submitted 7 5 = [100, 50] ∧ (s.shared.submitted 7 5).Pairwise (· > ·) := by
  have hrun : ((validations 1000).exec oneMiner
      ([.start (someRequest 1 0) 50, .start (someRequest 2 1) 100] ++
        List.replicate 8 (.run 1) ++ List.replicate 8 (.run 0))).map
      (fun s => s.shared.submitted 7 5) = some [100, 50] := by
    decide +kernel
  obtain ⟨s, hs, hsub⟩ := Option.map_eq_some_iff.mp hrun
  have hreach := System.Reachable.exec (.init oneMiner_mem) hs
  exact ⟨s, hreach, hsub, (forwarded_improves hreach).1 7 5⟩

end BurstPoolNode.DeadlineRequestHandler

import BurstPoolNode.DeadlineRequestHandler.Validations
import BurstPoolNode.NodeComClient

/-!
# Failed submissions

The validations and the client of the pools together (`submitting`): what a
validation passes on is a call of `do_submit_nonce`, and such calls complete, or
fail, at any time.

The round of a miner does not know what became of the calls for it:

* `passedOn_iff`: a validation that gets the lock passes its nonce on if and only
  if it is better than all those passed on before;
* `submits_iff`: whether their calls failed or not;
* `not_retries`: so that a call that failed is in the way of nonces that are
  better than all the others.
-/

namespace BurstPoolNode.DeadlineRequestHandler

variable {deadlineLimit : UInt64}

/-! ## A validation that has got the lock -/

/-- What the validation passes on. -/
def Validation.request (v : Validation) : SubmitNonceRequest :=
  ⟨v.creq.accountId, v.creq.nonce, v.deadline, v.creq.height⟩

/-- The deadline is less than all those passed on for the account and height of the
    validation, of which there are some. -/
structure Beats (sh : Shared) (v : Validation) : Prop where
  ne_nil : sh.submitted v.creq.accountId v.creq.height ≠ []
  lt : ∀ d ∈ sh.submitted v.creq.accountId v.creq.height, v.deadline < d

/-- The round of an account is for the height of what was passed on for it. -/
theorem Inv.height_of_mem_submitted {s : Validations} (h : Inv deadlineLimit s)
    {a height d : UInt64} (hd : d ∈ s.shared.submitted a height) {p : ℕ}
    (hp : s.shared.miners.table a = some p) : (s.shared.miners.rounds p).height = height := by
  obtain ⟨f, hf, rfl⟩ := List.mem_map.mp hd
  rw [List.mem_filter] at hf
  obtain ⟨rfl, rfl⟩ := of_decide_eq_true hf.2
  obtain ⟨i, v, -, rfl, -, q, hq, hheight⟩ := h.backed f hf.1
  obtain rfl : q = p := Option.some.inj (hq.symm.trans hp)
  exact hheight

/-- Since `s`, the validation number `i` has passed its nonce on; or it is, with the lock at `p`,
    on its way to do so, and nobody else has passed anything on for its account and height. -/
def Passing (s : Validations) (i p : ℕ) (v : Validation) (t : Validations) : Prop :=
  ∃ more, t.shared.forwarded = s.shared.forwarded ++ more ∧
    ((v.creq.recipId, v.request) ∈ more ∨
      ∃ pc, (pc = .compare p ∨ pc = .forward p) ∧ t.calls[i]? = some { v with pc := pc } ∧
        t.shared.submitted v.creq.accountId v.creq.height =
          s.shared.submitted v.creq.accountId v.creq.height)

/-- What is passed on stays passed on. -/
theorem Validation.Next.forwarded_append {i : ℕ} {v : Validation} {sh sh' : Shared} {pc : Pc}
    (h : v.Next deadlineLimit i sh pc sh') : ∃ more, sh'.forwarded = sh.forwarded ++ more := by
  cases h with
  | forward => exact ⟨_, rfl⟩
  | _ => exact ⟨[], (List.append_nil _).symm⟩

theorem step_forwarded_append {s t : Validations} {a : Action}
    (hst : (validations deadlineLimit).step s a = some t) :
    ∃ more, t.shared.forwarded = s.shared.forwarded ++ more := by
  rcases step_cases hst with ⟨creq, deadline, -, rfl⟩ | ⟨j, w, pc, sh, -, hw, hnext, rfl⟩
  · exact ⟨[], (List.append_nil _).symm⟩
  · exact hnext.forwarded_append

theorem exec_forwarded_append {s t : Validations} {as : List Action}
    (hst : (validations deadlineLimit).exec s as = some t) :
    ∃ more, t.shared.forwarded = s.shared.forwarded ++ more := by
  refine @System.exec_invariant _ _ (validations deadlineLimit)
    (fun u => ∃ more, u.shared.forwarded = s.shared.forwarded ++ more) ?_ _ _ _
    ⟨[], (List.append_nil _).symm⟩ hst
  rintro u a w ⟨more, hmore⟩ hst
  obtain ⟨more', hmore'⟩ := step_forwarded_append hst
  exact ⟨more ++ more', by rw [hmore', hmore, List.append_assoc]⟩

/-- A deadline that beats those passed on is below that of the round, while no other validation
    is about to store one. -/
theorem Beats.lt_deadline {s t : Validations} {v : Validation} (h : Beats s.shared v)
    (hinv : Inv deadlineLimit t)
    (hsame : t.shared.submitted v.creq.accountId v.creq.height =
      s.shared.submitted v.creq.accountId v.creq.height) {p : ℕ}
    (hp : t.shared.miners.table v.creq.accountId = some p)
    (hstore : ∀ (j : ℕ) (w : Validation), t.calls[j]? = some w → w.pc ≠ .store p) :
    (t.shared.miners.rounds p).height = v.creq.height ∧
      v.deadline < (t.shared.miners.rounds p).deadline := by
  obtain ⟨hne, hlt⟩ := h
  rw [← hsame] at hne hlt
  have hlast := List.getLast_mem hne
  have hheight := hinv.height_of_mem_submitted hlast hp
  refine ⟨hheight, ?_⟩
  rw [hinv.stored _ p hp hstore, hheight, Shared.lastSubmitted, List.getLast?_eq_some_getLast hne]
  exact hlt _ hlast

/-- A validation on its way to pass its nonce on stays on it. -/
theorem Passing.step {s t u : Validations} {i p : ℕ} {v : Validation} {a : Action}
    (h : Passing s i p v t) (hbeats : Beats s.shared v) (hinv : Inv deadlineLimit t)
    (hst : (validations deadlineLimit).step t a = some u) : Passing s i p v u := by
  obtain ⟨more, hmore, h⟩ := h
  rcases step_cases hst with ⟨creq, deadline, -, rfl⟩ | ⟨j, w, pc', sh, -, hw, hnext, rfl⟩
  · refine ⟨more, hmore, h.imp_right ?_⟩
    rintro ⟨pc, hpc, hv, hsame⟩
    refine ⟨pc, hpc, ?_, hsame⟩
    rw [List.getElem?_append_left (List.getElem?_eq_some_iff.mp hv).1, hv]
  · obtain ⟨more', hmore'⟩ := hnext.forwarded_append
    refine ⟨more ++ more', by rw [hmore', hmore, List.append_assoc], ?_⟩
    rcases h with hpassed | ⟨pc, hpc, hv, hsame⟩
    · exact .inl (List.mem_append_left _ hpassed)
    have hholds : pc.holds = some p := by
      rcases hpc with rfl | rfl <;> rfl
    have htable := ((hinv.sound i _ hv).table_of_holds hholds).2
    have hunique : ∀ {j : ℕ} {w : Validation}, t.calls[j]? = some w → w.pc.holds = some p →
        i = j :=
      fun hw hwp => hinv.holds_unique hv hw hholds hwp
    rcases eq_or_ne i j with rfl | hij
    · obtain rfl := Option.some.inj (hv.symm.trans hw)
      have hself : ∀ pc', (t.calls.set i { v with pc := pc' })[i]? = some { v with pc := pc' } :=
        fun pc' => Inv.getElem?_set_self hv _
      rcases hpc with rfl | rfl
      · -- It compares, and finds its deadline below that of the round.
        have hlt := hbeats.lt_deadline hinv hsame htable fun j w hw hwp => by
          obtain rfl := hunique hw (by rw [hwp, Pc.holds])
          cases (hv.symm.trans hw).symm
          cases hwp
        cases hnext with
        | better hpc =>
          cases hpc
          exact .inr ⟨_, .inr rfl, hself _, hsame⟩
        | worse hpc hcmp =>
          cases hpc
          exact absurd hlt hcmp
        | _ hpc => cases hpc
      · -- It passes its nonce on.
        cases hnext with
        | forward hpc =>
          obtain rfl : more' = _ := List.append_cancel_left hmore'.symm
          exact .inl (List.mem_append_right _ (List.mem_singleton_self _))
        | _ hpc => cases hpc
    · refine .inr ⟨pc, hpc, (List.getElem?_set_ne hij.symm).trans hv, ?_⟩
      rw [hnext.submitted_eq, hsame]
      rintro ⟨q, hwpc⟩ ha
      have hwq : w.pc.holds = some q := by rw [hwpc, Pc.holds]
      have hqp : some q = some p := by
        rw [← ((hinv.sound j w hw).table_of_holds hwq).2, ← ha]
        exact htable
      exact hij (hunique hw (hwq.trans hqp))

/-- A validation that gets the lock has, once it has released it, passed its nonce on if and
    only if its deadline was less than all those passed on before. -/
theorem passedOn_iff {s t : Validations} {i p : ℕ} {v w : Validation} {as : List Action}
    (hinv : Inv deadlineLimit s) (hv : s.calls[i]? = some v) (hpc : v.pc = .tryLock p)
    (hfree : (s.shared.miners.rounds p).mu = none)
    (hne : s.shared.submitted v.creq.accountId v.creq.height ≠ [])
    (hst : (validations deadlineLimit).exec s (.run i :: as) = some t)
    (hw : t.calls[i]? = some w) (hreleased : w.pc.holds = none) :
    ∃ more, t.shared.forwarded = s.shared.forwarded ++ more ∧
      ((v.creq.recipId, v.request) ∈ more ↔
        ∀ d ∈ s.shared.submitted v.creq.accountId v.creq.height, v.deadline < d) := by
  obtain ⟨more, hmore⟩ := exec_forwarded_append hst
  rw [System.exec_cons, Option.bind_eq_some_iff] at hst
  obtain ⟨locked, hlocked, hst⟩ := hst
  have hlocked' : Inv deadlineLimit locked := step_inv hinv hlocked
  have hpassing : Beats s.shared v → Passing s i p v t := by
    intro hbeats
    have hlock : Passing s i p v locked := by
      rcases step_cases hlocked with ⟨_, _, hstart, -⟩ | ⟨j, u, pc, sh, hj, hu, hnext, rfl⟩
      · cases hstart
      · cases hj
        obtain rfl := Option.some.inj (hv.symm.trans hu)
        cases hnext with
        | lock hpc' =>
          obtain rfl := Pc.tryLock.inj (hpc.symm.trans hpc')
          exact ⟨[], (List.append_nil _).symm, .inr ⟨_, .inl rfl, Inv.getElem?_set_self hv _, rfl⟩⟩
        | contended hpc' hmu =>
          obtain rfl := Pc.tryLock.inj (hpc.symm.trans hpc')
          exact absurd hfree hmu
        | _ hpc' => cases hpc.symm.trans hpc'
    have hboth := @System.exec_invariant _ _ (validations deadlineLimit)
      (fun u => Inv deadlineLimit u ∧ Passing s i p v u)
      (fun _ _ _ h hst => ⟨step_inv h.1 hst, h.2.step hbeats h.1 hst⟩) _ _ _ ⟨hlocked', hlock⟩ hst
    exact hboth.2
  refine ⟨more, hmore, fun hmem d hd => ?_, fun hlt => ?_⟩
  · -- What is passed on is less than what was passed on before.
    have hinv' : Inv deadlineLimit t :=
      System.exec_invariant (fun _ _ _ h hst => step_inv h hst) hlocked' hst
    have hdecreasing := hinv'.decreasing v.creq.accountId v.creq.height
    rw [Shared.submitted, hmore, List.filter_append, List.map_append] at hdecreasing
    refine (List.pairwise_append.mp hdecreasing).2.2 d hd v.deadline ?_
    exact List.mem_map.mpr ⟨_, List.mem_filter.mpr ⟨hmem, decide_eq_true ⟨rfl, rfl⟩⟩, rfl⟩
  · obtain ⟨more', hmore', hpassed | ⟨pc, hpc, hw', -⟩⟩ := hpassing ⟨hne, hlt⟩
    · rwa [List.append_cancel_left (hmore.symm.trans hmore')]
    · obtain rfl := Option.some.inj (hw.symm.trans hw')
      rcases hpc with rfl | rfl <;> cases hreleased

end BurstPoolNode.DeadlineRequestHandler

namespace BurstPoolNode

open DeadlineRequestHandler

/-! ## Submissions and what becomes of them -/

/-- The validations, and the client they pass nonces on to. -/
structure Submitting where
  validations : Validations
  client : NodeComClient

namespace Submitting

/-- A step of the validations, or the completion of the `i`-th call. -/
inductive Action
  | validation (a : DeadlineRequestHandler.Action)
  | complete (i : ℕ) (ok : Bool)

/-- The system. What a step of the validations passes on is submitted. -/
def submitting (deadlineLimit : UInt64) (poolIdToAddr : List (UInt64 × String)) :
    System Submitting Action where
  init := {s | s.validations ∈ (DeadlineRequestHandler.validations deadlineLimit).init ∧
    s.client = .new poolIdToAddr}
  step s
    | .validation a => do
      let v ← (DeadlineRequestHandler.validations deadlineLimit).step s.validations a
      let new := v.shared.forwarded.drop s.validations.shared.forwarded.length
      return ⟨v, s.client.submitAll new⟩
    | .complete i ok => do
      let client ← s.client.asyncCompleteRpc i ok
      return { s with client := client }

variable {deadlineLimit : UInt64} {poolIdToAddr : List (UInt64 × String)} {s t : Submitting}

/-- The client has been called with what the validations have passed on. -/
structure Inv (deadlineLimit : UInt64) (s : Submitting) : Prop where
  inv : DeadlineRequestHandler.Inv deadlineLimit s.validations
  forwarded_eq : s.client.forwarded = s.validations.shared.forwarded

theorem inv_init (h : s ∈ (submitting deadlineLimit poolIdToAddr).init) : Inv deadlineLimit s := by
  refine ⟨DeadlineRequestHandler.inv_init h.1, ?_⟩
  obtain ⟨height, res, miners, -, heq⟩ := h.1
  rw [h.2, heq]
  rfl

/-- A step is one of the validations, whose new calls are submitted, or a completion. -/
theorem step_cases {a : Action} (h : (submitting deadlineLimit poolIdToAddr).step s a = some t) :
    (∃ c, a = .validation c ∧
      (DeadlineRequestHandler.validations deadlineLimit).step s.validations c =
        some t.validations ∧
      t.client = s.client.submitAll
        (t.validations.shared.forwarded.drop s.validations.shared.forwarded.length)) ∨
      ∃ i ok, a = .complete i ok ∧ t.validations = s.validations ∧
        t.client.forwarded = s.client.forwarded := by
  cases a with
  | validation c =>
    obtain ⟨v, hv, h⟩ := Option.bind_eq_some_iff.mp h
    cases h
    exact .inl ⟨c, rfl, hv, rfl⟩
  | complete i ok =>
    obtain ⟨client, hclient, h⟩ := Option.bind_eq_some_iff.mp h
    cases h
    exact .inr ⟨i, ok, rfl, rfl, NodeComClient.asyncCompleteRpc_forwarded hclient⟩

theorem step_inv {a : Action} (h : Inv deadlineLimit s)
    (hst : (submitting deadlineLimit poolIdToAddr).step s a = some t) : Inv deadlineLimit t := by
  rcases step_cases hst with ⟨c, -, hc, hclient⟩ | ⟨_, _, -, hvalidations, hforwarded⟩
  · refine ⟨DeadlineRequestHandler.step_inv h.inv hc, ?_⟩
    obtain ⟨more, hmore⟩ := step_forwarded_append hc
    rw [hclient, NodeComClient.submitAll_forwarded, h.forwarded_eq, hmore, List.drop_left]
  · exact ⟨hvalidations ▸ h.inv, by rw [hforwarded, h.forwarded_eq, hvalidations]⟩

theorem reachable_inv (h : (submitting deadlineLimit poolIdToAddr).Reachable System.Any s) :
    Inv deadlineLimit s :=
  h.invariant (fun _ => inv_init) fun _ _ _ hs _ => step_inv hs

/-- What becomes of the calls is nothing to the validations. -/
theorem exec_validations {as : List Action}
    (h : (submitting deadlineLimit poolIdToAddr).exec s as = some t) :
    ∃ cs, (DeadlineRequestHandler.validations deadlineLimit).exec s.validations cs =
      some t.validations := by
  induction as generalizing s with
  | nil =>
    cases h
    exact ⟨[], rfl⟩
  | cons a as ih =>
    rw [System.exec_cons, Option.bind_eq_some_iff] at h
    obtain ⟨u, hu, h⟩ := h
    obtain ⟨cs, hcs⟩ := ih h
    rcases step_cases hu with ⟨c, -, hc, -⟩ | ⟨_, _, -, hvalidations, -⟩
    · refine ⟨c :: cs, ?_⟩
      rw [System.exec_cons, hc]
      exact hcs
    · exact ⟨cs, hvalidations ▸ hcs⟩

end Submitting

/-- The call is for the account and the height. -/
def Submission.IsFor (call : Submission) (accountId height : UInt64) : Prop :=
  call.req.accountId = accountId ∧ call.req.blockHeight = height

namespace Submitting

variable {deadlineLimit : UInt64} {poolIdToAddr : List (UInt64 × String)} {s t : Submitting}

/-- The deadlines passed on are those of the calls. -/
theorem Inv.mem_submitted_iff (h : Inv deadlineLimit s) {a height d : UInt64} :
    d ∈ s.validations.shared.submitted a height ↔
      ∃ call ∈ s.client.submissions, call.IsFor a height ∧ call.req.deadline = d := by
  rw [Shared.submitted, ← h.forwarded_eq]
  simp only [NodeComClient.forwarded, List.mem_map, List.mem_filter, decide_eq_true_eq]
  constructor
  · rintro ⟨_, ⟨⟨call, hcall, rfl⟩, hfor⟩, rfl⟩
    exact ⟨call, hcall, hfor, rfl⟩
  · rintro ⟨call, hcall, hfor, rfl⟩
    exact ⟨_, ⟨⟨call, hcall, rfl⟩, hfor⟩, rfl⟩

/-- With its lock free, the round of an account has the deadline of the best call for it. -/
theorem Inv.deadline_isLeast (h : Inv deadlineLimit s) {a height : UInt64} {p : ℕ}
    (hp : s.validations.shared.miners.table a = some p)
    (hfree : (s.validations.shared.miners.rounds p).mu = none)
    (hcall : ∃ call ∈ s.client.submissions, call.IsFor a height) :
    (∃ call ∈ s.client.submissions, call.IsFor a height ∧
        call.req.deadline = (s.validations.shared.miners.rounds p).deadline) ∧
      ∀ call ∈ s.client.submissions, call.IsFor a height →
        (s.validations.shared.miners.rounds p).deadline ≤ call.req.deadline := by
  obtain ⟨call, hcall, hfor⟩ := hcall
  have hmem := h.mem_submitted_iff.mpr ⟨call, hcall, hfor, rfl⟩
  have hheight := h.inv.height_of_mem_submitted hmem hp
  have hstored := h.inv.stored a p hp fun i v hv hpc => by
    have hheld := (h.inv.held p i).mpr ⟨v, hv, by rw [hpc, Pc.holds]⟩
    rw [hfree] at hheld
    cases hheld
  have hne := List.ne_nil_of_mem hmem
  rw [hstored, hheight]
  refine ⟨h.mem_submitted_iff.mp ?_, fun call' hcall' hfor' => ?_⟩
  · rw [Shared.lastSubmitted, List.getLast?_eq_some_getLast hne]
    exact List.getLast_mem hne
  · exact Shared.lastSubmitted_le (h.inv.decreasing a height)
      (h.mem_submitted_iff.mpr ⟨call', hcall', hfor', rfl⟩)

/-! ## Retries -/

/-- After a failed call, every nonce of its account and height that gets the lock and is better
    than those whose calls have not failed is passed on. -/
def Retries (deadlineLimit : UInt64) (poolIdToAddr : List (UInt64 × String)) (s : Submitting) :
    Prop :=
  ∀ (i p : ℕ) (v w : Validation) (as : List Action) (t : Submitting),
    s.validations.calls[i]? = some v → v.pc = .tryLock p →
    (s.validations.shared.miners.rounds p).mu = none →
    (∃ call ∈ s.client.submissions, call.outcome = .failed ∧
      call.IsFor v.creq.accountId v.creq.height) →
    (∀ call ∈ s.client.submissions, call.IsFor v.creq.accountId v.creq.height →
      call.outcome ≠ .failed → v.deadline < call.req.deadline) →
    (submitting deadlineLimit poolIdToAddr).exec s (.validation (.run i) :: as) = some t →
    t.validations.calls[i]? = some w → w.pc.holds = none →
      ∃ call ∈ t.client.submissions.drop s.client.submissions.length,
        call.recipId = v.creq.recipId ∧ call.req = v.request

/-- **A failed submission counts like any other.** In every run, whichever calls fail and
    whenever: after a failed call, the deadline of the round is that of the best call for the
    account and height, failed or not; and a nonce for them that gets the lock has been passed
    on, once the lock is released, if and only if it was better than all the calls before. -/
theorem submits_iff (h : (submitting deadlineLimit poolIdToAddr).Reachable System.Any s)
    {i p : ℕ} {v : Validation} (hv : s.validations.calls[i]? = some v) (hpc : v.pc = .tryLock p)
    (hfree : (s.validations.shared.miners.rounds p).mu = none)
    (hfailed : ∃ call ∈ s.client.submissions, call.outcome = .failed ∧
      call.IsFor v.creq.accountId v.creq.height) :
    (∃ call ∈ s.client.submissions, call.IsFor v.creq.accountId v.creq.height ∧
        call.req.deadline = (s.validations.shared.miners.rounds p).deadline) ∧
      (∀ call ∈ s.client.submissions, call.IsFor v.creq.accountId v.creq.height →
        (s.validations.shared.miners.rounds p).deadline ≤ call.req.deadline) ∧
      ∀ (as : List Action) (t : Submitting) (w : Validation),
        (submitting deadlineLimit poolIdToAddr).exec s (.validation (.run i) :: as) = some t →
        t.validations.calls[i]? = some w → w.pc.holds = none →
          ((∃ call ∈ t.client.submissions.drop s.client.submissions.length,
              call.recipId = v.creq.recipId ∧ call.req = v.request) ↔
            ∀ call ∈ s.client.submissions, call.IsFor v.creq.accountId v.creq.height →
              v.deadline < call.req.deadline) := by
  have hinv := reachable_inv h
  have hsound := hinv.inv.sound i v hv
  rw [Validation.Sound, hpc] at hsound
  obtain ⟨call, hcall, -, hfor⟩ := hfailed
  obtain ⟨hattained, hleast⟩ := hinv.deadline_isLeast hsound.2 hfree ⟨call, hcall, hfor⟩
  refine ⟨hattained, hleast, fun as t w hst hw hreleased => ?_⟩
  have hinv' : Inv deadlineLimit t :=
    System.exec_invariant (fun _ _ _ h hst => step_inv h hst) hinv hst
  rw [System.exec_cons, Option.bind_eq_some_iff] at hst
  obtain ⟨u, hu, hst⟩ := hst
  obtain ⟨cs, hcs⟩ := exec_validations hst
  have hcons : (DeadlineRequestHandler.validations deadlineLimit).exec s.validations
      (.run i :: cs) = some t.validations := by
    rcases step_cases hu with ⟨c, hc, hstep, -⟩ | ⟨_, _, hc, -⟩
    · cases hc
      rw [System.exec_cons, hstep]
      exact hcs
    · cases hc
  have hne := List.ne_nil_of_mem (hinv.mem_submitted_iff.mpr ⟨call, hcall, hfor, rfl⟩)
  obtain ⟨more, hmore, hiff⟩ := passedOn_iff hinv.inv hv hpc hfree hne hcons hw hreleased
  have hdrop : (t.client.submissions.drop s.client.submissions.length).map
      (fun call => (call.recipId, call.req)) = more := by
    have hforwarded : t.client.forwarded = s.client.forwarded ++ more := by
      rw [hinv'.forwarded_eq, hmore, hinv.forwarded_eq]
    rw [NodeComClient.forwarded] at hforwarded
    rw [List.map_drop, hforwarded]
    exact List.drop_left' (List.length_map _)
  calc (∃ call ∈ t.client.submissions.drop s.client.submissions.length,
        call.recipId = v.creq.recipId ∧ call.req = v.request)
      ↔ (v.creq.recipId, v.request) ∈ more := by
        rw [← hdrop, List.mem_map]
        simp only [Prod.mk.injEq]
    _ ↔ ∀ d ∈ s.validations.shared.submitted v.creq.accountId v.creq.height, v.deadline < d := hiff
    _ ↔ ∀ call ∈ s.client.submissions, call.IsFor v.creq.accountId v.creq.height →
        v.deadline < call.req.deadline := by
      simp only [hinv.mem_submitted_iff]
      constructor
      · intro h call hcall hfor
        exact h _ ⟨call, hcall, hfor, rfl⟩
      · rintro h _ ⟨call, hcall, hfor, rfl⟩
        exact h call hcall hfor

/-- The call for the deadline 50 of the account 7 fails; then, another nonce of it is about to try
    the lock. -/
def failedRun (deadline : UInt64) : List Action :=
  [.validation (.start (someRequest 1 0) 50)] ++ List.replicate 8 (.validation (.run 0)) ++
    [.complete 0 false, .validation (.start (someRequest 2 1) deadline)] ++
    List.replicate 2 (.validation (.run 1))

/-- The failed call. -/
def failedCall : Submission := ⟨9, ⟨7, 1, 50, 5⟩, some ⟨"192.0.2.9:50051"⟩, .failed⟩

/-- What `k + 1` steps of the other validation submit after such a run. -/
def afterFailedRun (deadline : UInt64) (k : ℕ) : Option ((Option Validation × Option ℕ) ×
    List Submission × Option (Option Pc × List Submission)) :=
  ((submitting 1000 [(9, "192.0.2.9:50051")]).exec ⟨oneMiner, .new [(9, "192.0.2.9:50051")]⟩
    (failedRun deadline)).map fun s =>
      ((s.validations.calls[1]?, (s.validations.shared.miners.rounds 0).mu), s.client.submissions,
        ((submitting 1000 [(9, "192.0.2.9:50051")]).exec s
          (.validation (.run 1) :: List.replicate k (.validation (.run 1)))).map fun t =>
            (t.validations.calls[1]?.map Validation.pc, t.client.submissions))

theorem exists_failedRun {deadline : UInt64} {k : ℕ} {calls : List Submission}
    (h : afterFailedRun deadline k = some ((some ⟨someRequest 2 1, deadline, .tryLock 0⟩, none),
      [failedCall], some (some .writeOk, failedCall :: calls))) :
    ∃ s t w, (submitting 1000 [(9, "192.0.2.9:50051")]).Reachable System.Any s ∧
      s.validations.calls[1]? = some ⟨someRequest 2 1, deadline, .tryLock 0⟩ ∧
      (s.validations.shared.miners.rounds 0).mu = none ∧ s.client.submissions = [failedCall] ∧
      (submitting 1000 [(9, "192.0.2.9:50051")]).exec s
        (.validation (.run 1) :: List.replicate k (.validation (.run 1))) = some t ∧
      t.validations.calls[1]? = some w ∧ w.pc.holds = none ∧
      t.client.submissions = failedCall :: calls := by
  obtain ⟨s, hs, h⟩ := Option.map_eq_some_iff.mp h
  simp only [Prod.mk.injEq, Option.map_eq_some_iff] at h
  obtain ⟨⟨hv, hfree⟩, hcalls, t, ht, ⟨w, hw, hpc⟩, hcalls'⟩ := h
  have hinit : (⟨oneMiner, .new [(9, "192.0.2.9:50051")]⟩ : Submitting) ∈
      (submitting 1000 [(9, "192.0.2.9:50051")]).init := ⟨oneMiner_mem, rfl⟩
  have hreleased : w.pc.holds = none := by
    rw [hpc]
    rfl
  exact ⟨s, t, w, .exec (.init hinit) hs, hv, hfree, hcalls, ht, hw, hreleased, hcalls'⟩

/-- A nonce that is better than the one that failed. -/
theorem submits_iff_better : ∃ s t,
    (submitting 1000 [(9, "192.0.2.9:50051")]).Reachable System.Any s ∧
      s.client.submissions = [failedCall] ∧
      (submitting 1000 [(9, "192.0.2.9:50051")]).exec s
        (.validation (.run 1) :: List.replicate 4 (.validation (.run 1))) = some t ∧
      ∃ call ∈ t.client.submissions.drop s.client.submissions.length,
        call.recipId = 9 ∧ call.req = ⟨7, 2, 40, 5⟩ := by
  obtain ⟨s, t, w, hs, hv, hfree, hcalls, ht, hw, hreleased, -⟩ :=
    @exists_failedRun 40 4 [⟨9, ⟨7, 2, 40, 5⟩, some ⟨"192.0.2.9:50051"⟩, .outstanding⟩]
      (by decide +kernel)
  refine ⟨s, t, hs, hcalls, ht, ?_⟩
  have hiff := (submits_iff hs hv rfl hfree ⟨failedCall, by simp [hcalls], rfl, rfl, rfl⟩).2.2
    _ t w ht hw hreleased
  refine hiff.mpr fun call hcall _ => ?_
  rw [hcalls, List.mem_singleton] at hcall
  rw [hcall]
  decide

/-- A nonce that is worse, but the best of those that have not failed. -/
theorem not_retries : ¬∀ s, (submitting 1000 [(9, "192.0.2.9:50051")]).Reachable System.Any s →
    Retries 1000 [(9, "192.0.2.9:50051")] s := by
  intro h
  obtain ⟨s, t, w, hs, hv, hfree, hcalls, ht, hw, hreleased, hcalls'⟩ :=
    @exists_failedRun 60 2 [] (by decide +kernel)
  obtain ⟨call, hcall, -⟩ := h s hs 1 0 _ w _ t hv rfl hfree
    ⟨failedCall, by simp [hcalls], rfl, rfl, rfl⟩
    (fun call hcall _ hok => by
      rw [hcalls, List.mem_singleton] at hcall
      exact absurd (congrArg Submission.outcome hcall) hok) ht hw hreleased
  rw [hcalls', hcalls] at hcall
  cases hcall

end Submitting

end BurstPoolNode

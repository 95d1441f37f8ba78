import BurstPoolNode.Node.Posting

/-!
# Divisors

`calculate_deadlines_sse4` and `calculate_deadlines_avx2` divide by the base
target of every lane of a batch, those that only fill it up included.

A base target is that of the current block at the time of the request. It is
zero until a refresh finds a block, and after one that found a base target of
zero; the miners are known from the start.

* `handleRequest_enque_iff`: which requests are enqueued (`Accepts`);
* `baseTarget_ne_zero`: if none of them comes while the base target is zero,
  no lane of a batch has a base target of zero.
-/

namespace BurstPoolNode.Node

open DeadlineRequestHandler (Batch Distributor)

variable {F : Type} {b : Build} [Zero F] [One F] [Sub F] [Mul F] [Div F] [LT F] [DecidableLT F]

/-! ## Enqueued requests -/

/-- The limiter lets the request through, and it is one for a nonce, with parameters that
    parse, of an account that is known. -/
def Accepts (n : Node F b) (now : F) (req : Request) : Prop :=
  parseUrl req.target "requestType" = some "submitNonce" ∧
    (n.limiter.aquire now (req.localAddress ++ "submitNonce")).1 = true ∧
    (stoull ((parseUrl req.target "nonce").getD "")).isSome ∧
    ∃ accountId ∈ stoull ((parseUrl req.target "accountId").getD ""),
      n.wallet.miners.getRewardRecipient accountId ≠ 0

theorem processSubmitNonceReq_enque_iff {s : Session} {w : Wallet} {params : Params} :
    (∃ creq, s.processSubmitNonceReq w params = .enque creq) ↔
      (stoull ((params "nonce").getD "")).isSome ∧
        ∃ accountId ∈ stoull ((params "accountId").getD ""),
          w.miners.getRewardRecipient accountId ≠ 0 := by
  rw [Session.processSubmitNonceReq]
  cases stoull ((params "accountId").getD "") with
  | none => simp
  | some accountId =>
    cases stoull ((params "nonce").getD "") with
    | none => simp
    | some nonce =>
      dsimp only
      split_ifs with hrecip
      · simp [hrecip]
      · simp [hrecip]

/-- The requests that are enqueued. -/
theorem handleRequest_enque_iff (n : Node F b) (now : F) (req : Request) :
    (∃ creq, (Session.handleRequest ⟨n.sessions, req⟩ n.wallet n.limiter now).1 = .enque creq) ↔
      n.Accepts now req := by
  rw [Session.handleRequest, Accepts]
  cases parseUrl req.target "requestType" with
  | none => simp
  | some reqType =>
    dsimp only
    by_cases htype : reqType = "submitNonce"
    · subst htype
      cases hlimit : (n.limiter.aquire now (req.localAddress ++ "submitNonce")).1 with
      | false => simp
      | true => simpa [hlimit] using processSubmitNonceReq_enque_iff
    · split_ifs <;> simp [htype]

/-! ## Base targets -/

/-- A request that is enqueued does not come while the base target is zero. -/
def HasTarget (n : Node F b) : Action F → Prop
  | .request now req => n.Accepts now req → n.wallet.currentBlock.baseTarget ≠ 0
  | _ => True

instance (n : Node F b) (now : F) (req : Request) : Decidable (n.Accepts now req) :=
  inferInstanceAs (Decidable (_ ∧ _ ∧ _ ∧ _))

instance (n : Node F b) : (a : Action F) → Decidable (HasTarget n a)
  | .request now req =>
    inferInstanceAs (Decidable (n.Accepts now req → n.wallet.currentBlock.baseTarget ≠ 0))
  | .refresh _ _ | .head | .poll _ | .compute _ | .validate _ | .run _ => .isTrue trivial

/-- Every lane of the batch has a base target that is not zero. -/
def Divides {k : ℕ} (batch : Batch k) : Prop :=
  ∀ creq ∈ batch.creqs, creq.baseTarget ≠ 0

instance {k : ℕ} (batch : Batch k) : Decidable (Divides batch) :=
  decidable_of_iff (∀ creq ∈ batch.creqs.toList, creq.baseTarget ≠ 0) (by simp [Divides])

/-- The base targets on their way to a batch. -/
structure TargetInv (n : Node F b) : Prop where
  q : ∀ creq ∈ n.q, creq.baseTarget ≠ 0
  slots : ∀ creq ∈ n.distributor.reqs, creq.baseTarget ≠ 0
  lanes : ∀ batch ∈ n.batches, Divides batch

variable {e : Environment F b} {n m : Node F b} {a : Action F}

theorem targetInv_init (h : n ∈ (node e).init) : TargetInv n := by
  obtain ⟨mem, t, w, reqs, -, hreqs, rfl⟩ := init_eq h
  refine ⟨nofun, fun creq hcreq => ?_, nofun⟩
  rw [(hreqs creq hcreq).1]
  decide

theorem step_targetInv (h : TargetInv n) (ha : HasTarget n a) (hst : (node e).step n a = some m) :
    TargetInv m := by
  -- A batch is a copy of the slots, whatever is in those that are not taken.
  have hlanes := forall_batches_step h.lanes (fun _ => h.slots) hst
  cases step_cases hst with
  | enque henque =>
    refine ⟨fun creq hcreq => ?_, h.slots, hlanes⟩
    rcases List.mem_append.mp hcreq with hcreq | hcreq
    · exact h.q creq hcreq
    · obtain rfl := List.mem_singleton.mp hcreq
      have htarget := Session.processSubmitNonceReq_enque (Session.handleRequest_enque henque)
      rw [htarget.2.2.2.1]
      exact ha ((handleRequest_enque_iff ..).mp ⟨_, henque⟩)
  | found hplace hcreq hlt =>
    refine ⟨fun creq hcreq => h.q creq (List.mem_of_mem_eraseIdx hcreq), fun creq hmem => ?_,
      hlanes⟩
    rcases @Vector.mem_or_eq_of_mem_set _ _ _ _ _ _ hlt hmem with hmem | rfl
    · exact h.slots creq hmem
    · exact h.q _ (List.mem_of_getElem? hcreq)
  | _ => exact ⟨h.q, h.slots, hlanes⟩

theorem reachable_targetInv (h : (node e).Reachable HasTarget n) : TargetInv n :=
  h.invariant (fun _ => targetInv_init) fun _ _ _ h ha hst => step_targetInv h ha hst

/-- A request that is enqueued while the base target is zero can reach a batch. -/
theorem exists_batch_of_not_hasTarget (h : (node e).Reachable System.Any n) (ha : ¬HasTarget n a)
    (hst : (node e).step n a = some m) :
    ∃ as t, (node e).exec m as = some t ∧ ∃ batch ∈ t.batches, ¬Divides batch := by
  have hm := h.step trivial hst
  have halive := alive_of_step hst
  cases a with
  | request now req =>
    rw [HasTarget, Classical.not_imp, not_not] at ha
    obtain ⟨creq, hcreq⟩ := (handleRequest_enque_iff n now req).mpr ha.1
    cases step_cases hst with
    | answer hanswer => cases hanswer.symm.trans hcreq
    | enque henque =>
      have hsnapshot := Session.processSubmitNonceReq_enque (Session.handleRequest_enque henque)
      have htarget := hsnapshot.2.2.2.1
      -- Nothing else needs to come in for the request to reach a batch.
      obtain ⟨as, t, ht, batch, hbatch, hlane⟩ :=
        exists_posted hm halive (List.mem_append_right _ (List.mem_singleton_self _))
      exact ⟨as, t, ht, batch, hbatch, fun hdiv => hdiv _ hlane (htarget.trans ha.2)⟩
  | _ => exact absurd trivial ha

/-- **No division by zero**, as long as no request is enqueued while the base target is zero,
    and no longer. In every state reached by such steps, every lane of every batch has a base
    target that is not zero; from every other step, a run leads to a batch with a lane whose
    base target is zero. -/
theorem baseTarget_ne_zero (e : Environment F b) :
    (∀ n, (node e).Reachable HasTarget n → ∀ batch ∈ n.batches, Divides batch) ∧
      ∀ n a m, (node e).Reachable System.Any n → ¬HasTarget n a → (node e).step n a = some m →
        ∃ as t, (node e).exec m as = some t ∧ ∃ batch ∈ t.batches, ¬Divides batch := by
  refine ⟨fun n h => (reachable_targetInv h).lanes, fun n a m h ha hst => ?_⟩
  exact exists_batch_of_not_hasTarget h ha hst

/-! ## A single nonce -/

/-- A nonce comes in, is found in the queue, and posted after 51 polls that find nothing. -/
def singleNonce : List (Action ℚ) :=
  [.request 100 ⟨"192.0.2.1", "203.0.113.7",
      "/burst?requestType=submitNonce&accountId=7&nonce=1", 11⟩, .head, .poll (some 0)] ++
    (List.replicate 51 [.head, .poll none]).flatten ++ [.head]

/-- The base targets of the batches. -/
def divisors (n : Node ℚ .sse4) : List (List UInt64) :=
  n.batches.map fun batch => batch.creqs.toList.map CalcDeadlineReq.baseTarget

/-- The node is started at a block. -/
theorem baseTarget_ne_zero_singleNonce : ∃ n : Node ℚ .sse4,
    (node oneAccount).Reachable HasTarget n ∧ divisors n = [[100, 1, 1, 1]] ∧
      ∀ batch ∈ n.batches, Divides batch := by
  have hrun : ((oneAccountStart ⟨[Mining.infoText "5"], true⟩).bind fun n =>
      ((node oneAccount).execIf HasTarget n singleNonce).map divisors) =
        some [[100, 1, 1, 1]] := by
    decide +kernel
  obtain ⟨n, hn, hrun⟩ := Option.bind_eq_some_iff.mp hrun
  obtain ⟨m, hm, hdiv⟩ := Option.map_eq_some_iff.mp hrun
  have hreach := System.Reachable.execIf (.init (oneAccountStart_mem hn)) hm
  exact ⟨m, hreach, hdiv, (baseTarget_ne_zero oneAccount).1 m hreach⟩

/-- The transfer of the start fails. -/
theorem baseTarget_eq_zero_singleNonce : ¬∀ n : Node ℚ .sse4,
    (node oneAccount).Reachable System.Any n → ∀ batch ∈ n.batches, Divides batch := by
  intro h
  have hrun : ((oneAccountStart ⟨[], false⟩).bind fun n =>
      ((node oneAccount).exec n singleNonce).map fun n => decide
        (∀ batch ∈ n.batches, Divides batch)) = some false := by
    decide +kernel
  obtain ⟨n, hn, hrun⟩ := Option.bind_eq_some_iff.mp hrun
  obtain ⟨m, hm, hdiv⟩ := Option.map_eq_some_iff.mp hrun
  have hreach := System.Reachable.exec (.init (oneAccountStart_mem hn)) hm
  exact of_decide_eq_false hdiv (h m hreach)

end BurstPoolNode.Node

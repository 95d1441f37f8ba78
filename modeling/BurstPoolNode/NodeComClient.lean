import BurstPoolNode.DeadlineRequestHandler
import BurstPoolNode.Lists

/-!
# The client of the pools

`NodeComClient.hpp`: a server for each pool of the configuration, and the calls
of `do_submit_nonce`. Such a call fails at once if no server is found for the
recipient; otherwise a remote call is outstanding until the completion queue
hands it out with its status. Neither is reported to the caller, but logged.

The remote calls themselves are left out.
-/

namespace BurstPoolNode

open DeadlineRequestHandler

/-- The server of a pool, with the address its channel was created for. -/
structure Server where
  address : String
  deriving DecidableEq

/-- What became of a call of `do_submit_nonce`. -/
inductive SubmitOutcome
  | failed
  | outstanding
  | succeeded
  deriving DecidableEq

/-- A call of `do_submit_nonce`, with the server found for it. -/
structure Submission where
  recipId : UInt64
  req : SubmitNonceRequest
  server : Option Server
  outcome : SubmitOutcome
  deriving DecidableEq

/-- The client: `pool_id_to_server_`, and the calls in their order. -/
structure NodeComClient where
  poolIdToServer : UInt64 → Option Server := fun _ => none
  submissions : List Submission := []

namespace NodeComClient

/-- The constructor. -/
def new (poolIdToAddr : List (UInt64 × String)) : NodeComClient :=
  { poolIdToServer := poolIdToAddr.foldl
      (fun servers pool => Function.update servers pool.1 (some ⟨pool.2⟩)) fun _ => none }

/-- `do_submit_nonce`. -/
def doSubmitNonce (c : NodeComClient) (recipId : UInt64) (req : SubmitNonceRequest) :
    NodeComClient :=
  match c.poolIdToServer recipId with
  | none => { c with submissions := c.submissions ++ [⟨recipId, req, none, .failed⟩] }
  | some server =>
    { c with submissions := c.submissions ++ [⟨recipId, req, some server, .outstanding⟩] }

/-- A round of the loop of `async_complete_rpc`, with the status of the `i`-th call, which is
    outstanding until then. -/
def asyncCompleteRpc (c : NodeComClient) (i : ℕ) (ok : Bool) : Option NodeComClient := do
  let call ← c.submissions[i]?
  if call.outcome = .outstanding then
    some { c with
      submissions := c.submissions.set i
        { call with outcome := if ok then .succeeded else .failed } }
  else
    none

/-- The calls of `do_submit_nonce`, without what became of them. -/
def forwarded (c : NodeComClient) : List (UInt64 × SubmitNonceRequest) :=
  c.submissions.map fun call => (call.recipId, call.req)

variable {c c' : NodeComClient}

theorem doSubmitNonce_poolIdToServer (recipId : UInt64) (req : SubmitNonceRequest) :
    (c.doSubmitNonce recipId req).poolIdToServer = c.poolIdToServer := by
  rw [doSubmitNonce]
  split <;> rfl

theorem doSubmitNonce_forwarded (recipId : UInt64) (req : SubmitNonceRequest) :
    (c.doSubmitNonce recipId req).forwarded = c.forwarded ++ [(recipId, req)] := by
  rw [doSubmitNonce]
  split <;> exact List.map_append

/-- The calls passed on, in turn. -/
def submitAll (c : NodeComClient) (fs : List (UInt64 × SubmitNonceRequest)) : NodeComClient :=
  fs.foldl (fun c f => c.doSubmitNonce f.1 f.2) c

theorem submitAll_forwarded (fs : List (UInt64 × SubmitNonceRequest)) :
    (c.submitAll fs).forwarded = c.forwarded ++ fs := by
  induction fs generalizing c with
  | nil => exact (List.append_nil _).symm
  | cons f fs ih =>
    rw [submitAll, List.foldl_cons]
    refine ih.trans ?_
    rw [doSubmitNonce_forwarded, List.append_assoc, List.singleton_append]

/-- With one address for each pool, its server has that address. -/
theorem new_poolIdToServer {pools : List (UInt64 × String)}
    (h : pools.Pairwise fun p q => p.1 ≠ q.1) {pool : UInt64 × String} (hmem : pool ∈ pools) :
    (new pools).poolIdToServer pool.1 = some ⟨pool.2⟩ := by
  induction pools using List.reverseRecOn with
  | nil => cases hmem
  | append_singleton pools p ih =>
    obtain ⟨hpools, -, hne⟩ := List.pairwise_append.mp h
    rw [new, List.foldl_append, List.foldl_cons, List.foldl_nil]
    dsimp only
    rw [Function.update_apply]
    rcases List.mem_append.mp hmem with hmem | hmem
    · rw [if_neg (hne pool hmem p (List.mem_singleton_self p))]
      exact ih hpools hmem
    · rw [List.mem_singleton.mp hmem, if_pos rfl]

/-- The calls that are new go to the servers of their recipients. -/
theorem mem_submitAll {fs : List (UInt64 × SubmitNonceRequest)} {call : Submission}
    (h : call ∈ (c.submitAll fs).submissions) : call ∈ c.submissions ∨
      (call.recipId, call.req) ∈ fs ∧ call.server = c.poolIdToServer call.recipId := by
  induction fs generalizing c with
  | nil => exact .inl h
  | cons f fs ih =>
    rw [submitAll, List.foldl_cons] at h
    rcases ih h with hmem | ⟨hmem, hserver⟩
    · have hnew : call ∈ c.submissions ∨
          call.recipId = f.1 ∧ call.req = f.2 ∧ call.server = c.poolIdToServer f.1 := by
        rw [doSubmitNonce] at hmem
        split at hmem
        · next hnone =>
          refine (List.mem_append.mp hmem).imp_right fun hcall => ?_
          rw [List.mem_singleton.mp hcall, hnone]
          exact ⟨rfl, rfl, rfl⟩
        · next hsome =>
          refine (List.mem_append.mp hmem).imp_right fun hcall => ?_
          rw [List.mem_singleton.mp hcall, hsome]
          exact ⟨rfl, rfl, rfl⟩
      refine hnew.imp_right fun ⟨hrecip, hreq, hserver⟩ => ?_
      rw [hrecip, hreq]
      exact ⟨List.mem_cons_self, hserver⟩
    · rw [doSubmitNonce_poolIdToServer] at hserver
      exact .inr ⟨List.mem_cons_of_mem _ hmem, hserver⟩

/-- The completion of a call changes what became of it only. -/
theorem asyncCompleteRpc_forwarded {i : ℕ} {ok : Bool} (h : c.asyncCompleteRpc i ok = some c') :
    c'.forwarded = c.forwarded := by
  obtain ⟨call, hcall, h⟩ := Option.bind_eq_some_iff.mp h
  by_cases houtcome : call.outcome = .outstanding
  · rw [if_pos houtcome] at h
    cases h
    exact map_set_of_eq _ hcall rfl
  · rw [if_neg houtcome] at h
    cases h

end NodeComClient

end BurstPoolNode

import BurstPoolNode.Config
import BurstPoolNode.Node.Answers
import BurstPoolNode.NodeComClient
import BurstPoolNode.Wallet.Recipients

/-!
# Routes

A recipient passes through four hands: the configuration has it as a number, the
query as a text, the table of the database as a signed number, and the miners of
the wallet have it again as it was; with it a nonce is passed on to the client,
which has a server for each pool.

* `RecipientInv`: what holds of the accounts and recipients of the miners, holds
  of those of the requests;
* `routed`: what is enqueued, and all that is passed on, has a server.
-/

namespace BurstPoolNode

open DeadlineRequestHandler (Validation)

/-- The recipient is the current one of the account, it is a pool of the configuration, and the
    client has a server for it, with the address configured. -/
structure Routable (cfg : Config) (table : List RecipAssign) (accountId recipId : UInt64) :
    Prop where
  recipient : IsRecipient table accountId recipId
  server : ∃ addr, (recipId, addr) ∈ cfg.poolIdToAddr ∧
    (NodeComClient.new cfg.poolIdToAddr).poolIdToServer recipId = some ⟨addr⟩

/-- The pools of the configuration have servers. -/
theorem Config.Admitted.routable {cfg : Config} (h : cfg.Admitted) {table : List RecipAssign}
    {accountId recipId : UInt64} (hrecip : IsRecipient table accountId recipId)
    (hpool : recipId ∈ cfg.poolIdToAddr.map Prod.fst) :
    Routable cfg table accountId recipId := by
  obtain ⟨⟨_, addr⟩, hmem, rfl⟩ := List.mem_map.mp hpool
  exact ⟨hrecip, addr, hmem, NodeComClient.new_poolIdToServer (h.ordered.imp UInt64.ne_of_lt) hmem⟩

/-- A request that is enqueued has the recipient of the round of its account. -/
theorem Session.processSubmitNonceReq_table {s : Session} {w : Wallet} {params : Params}
    {creq : CalcDeadlineReq} (h : s.processSubmitNonceReq w params = .enque creq) :
    ∃ p, w.miners.table creq.accountId = some p ∧ creq.recipId = (w.miners.rounds p).recipId := by
  obtain ⟨-, -, -, -, -, hne, hrecip⟩ := processSubmitNonceReq_enque h
  rw [Miners.getRewardRecipient] at hrecip
  cases ht : w.miners.table creq.accountId with
  | none =>
    rw [ht] at hrecip
    exact absurd hrecip hne
  | some p =>
    rw [ht] at hrecip
    exact ⟨p, rfl, hrecip⟩

namespace Node

variable {F : Type} {b : Build} [Zero F] [One F] [Sub F] [Mul F] [Div F] [LT F] [DecidableLT F]
  {e : Environment F b} {n m : Node F b} {a : Action F} {P : UInt64 → UInt64 → Prop}

/-! ## Recipients -/

/-- No step changes the accounts of the miners, or a recipient. -/
theorem step_miners (hst : (node e).step n a = some m) :
    m.wallet.miners.table = n.wallet.miners.table ∧
      ∀ p, (m.wallet.miners.rounds p).recipId = (n.wallet.miners.rounds p).recipId := by
  rcases (step_cases hst).validations_eq with heq | ⟨c, hc⟩
  · have hminers : m.wallet.miners = n.wallet.miners := congrArg (·.shared.miners) heq
    rw [hminers]
    exact ⟨rfl, fun _ => rfl⟩
  · obtain ⟨_, _, _, heq⟩ | ⟨_, _, _, _, _, _, hnext, heq⟩ := DeadlineRequestHandler.step_cases hc
    · have hminers : m.wallet.miners = n.wallet.miners := congrArg (·.shared.miners) heq
      rw [hminers]
      exact ⟨rfl, fun _ => rfl⟩
    · have hminers := congrArg (·.shared.miners) heq
      dsimp only [validations] at hminers hnext
      rw [hminers]
      exact ⟨hnext.table_eq, fun p => (hnext.fixed_eq p).2⟩

/-- What holds of the accounts and recipients of the miners, and of the requests on their way to
    a validation. -/
structure RecipientInv (P : UInt64 → UInt64 → Prop) (n : Node F b) : Prop where
  miners : ∀ a p, n.wallet.miners.table a = some p → P a (n.wallet.miners.rounds p).recipId
  requests : RequestInv (fun creq => P creq.accountId creq.recipId) n

omit [Zero F] [One F] [Sub F] [Mul F] [Div F] [LT F] [DecidableLT F] in
/-- It holds of what is enqueued. -/
theorem RecipientInv.enque (h : RecipientInv P n) {s : Session} {params : Params}
    {creq : CalcDeadlineReq} (henque : s.processSubmitNonceReq n.wallet params = .enque creq) :
    P creq.accountId creq.recipId := by
  obtain ⟨p, ht, hrecip⟩ := Session.processSubmitNonceReq_table henque
  rw [hrecip]
  exact h.miners _ p ht

theorem step_recipientInv (h : RecipientInv P n) (hst : (node e).step n a = some m) :
    RecipientInv P m := by
  obtain ⟨htable, hrecip⟩ := step_miners hst
  refine ⟨fun a p hp => ?_, step_requestInv h.requests (fun _ _ _ henque => h.enque henque) hst⟩
  rw [htable] at hp
  rw [hrecip]
  exact h.miners a p hp

/-- What holds of the miners at the start holds of all requests. -/
theorem reachable_recipientInv
    (hinit : ∀ mem t w, Wallet.construct e.parse e.H mem e.db e.cfg t = some w →
      ∀ a p, w.miners.table a = some p → P a (w.miners.rounds p).recipId)
    (h : (node e).Reachable System.Any n) : RecipientInv P n := by
  refine h.invariant (fun s hs => ⟨?_, requestInv_init hs⟩) fun _ _ _ h _ hst =>
    step_recipientInv h hst
  obtain ⟨mem, t, w, reqs, hw, -, rfl⟩ := init_eq hs
  exact hinit mem t w hw

/-- Then it holds of what is passed on. -/
theorem RecipientInv.forwarded (h : RecipientInv P n) (hn : (node e).Reachable System.Any n)
    {f : UInt64 × DeadlineRequestHandler.SubmitNonceRequest} (hf : f ∈ n.forwarded) :
    P f.2.accountId f.1 := by
  obtain ⟨i, v, hv, rfl, -⟩ :=
    (DeadlineRequestHandler.reachable_inv (reachable_validations hn)).backed f hf
  have hcreq : v.creq ∈ n.tasks.flatMap Task.validated :=
    (reachable_taskInv hn).calls_perm.subset (List.mem_map_of_mem (List.mem_of_getElem? hv))
  obtain ⟨task, htask, hcreq⟩ := List.mem_flatMap.mp hcreq
  exact h.requests.lanes _ (List.mem_map_of_mem htask) _ (List.mem_of_mem_take hcreq)

/-! ## Servers -/

/-- What the node enqueues and passes on is routable. -/
structure Routed (e : Environment F b) (table : List RecipAssign) (n : Node F b) : Prop where
  /-- A request that is enqueued has a server. -/
  enque : ∀ (s : Session) (params : Params) (creq : CalcDeadlineReq),
    s.processSubmitNonceReq n.wallet params = .enque creq →
      Routable e.cfg table creq.accountId creq.recipId
  /-- A call of `do_submit_nonce` finds the server with the address of the pool. -/
  submit : ∀ call ∈ ((NodeComClient.new e.cfg.poolIdToAddr).submitAll n.forwarded).submissions,
    Routable e.cfg table call.req.accountId call.recipId ∧
      ∃ addr, (call.recipId, addr) ∈ e.cfg.poolIdToAddr ∧ call.server = some ⟨addr⟩

/-- **Every accepted nonce is routable** to the pool its account pays: in every state that the
    node reaches, what it enqueues has the current recipient of the account, for which the
    client has a server; no call of `do_submit_nonce` finds none. -/
theorem routed (hcfg : e.cfg.Admitted) {table : List RecipAssign} (hdb : Evaluates e.db table)
    (h : (node e).Reachable System.Any n) : Routed e table n := by
  have hinv : RecipientInv (Routable e.cfg table) n := by
    refine reachable_recipientInv (fun mem t w hw a p hp => ?_) h
    obtain ⟨hrecip, hpool⟩ := Wallet.construct_recipients hw hdb hp
    exact hcfg.routable hrecip hpool
  refine ⟨fun _ _ _ henque => hinv.enque henque, fun call hcall => ?_⟩
  rcases NodeComClient.mem_submitAll hcall with hnil | ⟨hforwarded, hserver⟩
  · cases hnil
  · have hroutable := hinv.forwarded h hforwarded
    obtain ⟨addr, hmem, haddr⟩ := hroutable.server
    exact ⟨hroutable, addr, hmem, hserver.trans haddr⟩

/-! ## Two pools -/

/-- Two accounts and two pools, the second of which has the largest number. -/
def twoPools : Environment ℚ .sse4 :=
  { oneAccount with
    db := answerQuery [⟨7, -1, 1⟩, ⟨8, -1, 0⟩, ⟨8, 9, 1⟩]
    cfg := ⟨1000, [(9, "192.0.2.9:50051"), (0xFFFFFFFFFFFFFFFF, "192.0.2.20:50051")], 0⟩ }

omit [Zero F] [One F] [Sub F] [Mul F] [Div F] [LT F] [DecidableLT F] in
/-- The start asks the database nothing but the query of the wallet. -/
theorem start_congr {e : Environment F b} {db : String → Option ResultSet}
    (hdb : e.db (Wallet.makeRecipQuery e.cfg.poolIdToAddr) =
      db (Wallet.makeRecipQuery e.cfg.poolIdToAddr)) (mem : Memory) (t : Transfer)
    (reqs : Vector CalcDeadlineReq b.parallelValidations) :
    start e mem t reqs = start { e with db := db } mem t reqs := by
  simp only [start, Wallet.construct, Wallet.refreshBlock_recipQuery, hdb]

/-- A nonce for each of the accounts. -/
def twoNonces : List (Action ℚ) :=
  [.request 100 ⟨"192.0.2.1", "203.0.113.7",
      "/burst?requestType=submitNonce&accountId=7&nonce=1", 11⟩,
    .request 110 ⟨"192.0.2.1", "203.0.113.7",
      "/burst?requestType=submitNonce&accountId=8&nonce=1", 11⟩]

theorem routed_twoNonces : ∃ n : Node ℚ .sse4, (node twoPools).Reachable System.Any n ∧
    (n.q.map fun creq => (creq.accountId, creq.recipId)) = [(7, 0xFFFFFFFFFFFFFFFF), (8, 9)] ∧
      Routed twoPools [⟨7, -1, 1⟩, ⟨8, -1, 0⟩, ⟨8, 9, 1⟩] n := by
  have hrows : ((Wallet.recipSelect (twoPools.cfg.poolIdToAddr.map Prod.fst)).rows
      ([⟨7, -1, 1⟩, ⟨8, -1, 0⟩, ⟨8, 9, 1⟩].map RecipAssign.get)).filterMap ofRow =
        [(7, 0xFFFFFFFFFFFFFFFF), (8, 9)] := by
    decide +kernel
  have hdb : twoPools.db (Wallet.makeRecipQuery twoPools.cfg.poolIdToAddr) =
      some ⟨[(7, 0xFFFFFFFFFFFFFFFF), (8, 9)], false⟩ := by
    have hanswer : twoPools.db = answerQuery [⟨7, -1, 1⟩, ⟨8, -1, 0⟩, ⟨8, 9, 1⟩] := rfl
    have hne : twoPools.cfg.poolIdToAddr ≠ [] := List.cons_ne_nil _ _
    rw [hanswer, Wallet.answerQuery_makeRecipQuery hne, hrows]
  have hstart := @start_congr ℚ .sse4 twoPools
    (fun _ => some ⟨[(7, 0xFFFFFFFFFFFFFFFF), (8, 9)], false⟩) hdb
    ⟨Vector.replicate 32 0, []⟩ ⟨[Mining.infoText "5"], true⟩ paddingReqs
  have hrun : ((start twoPools ⟨Vector.replicate 32 0, []⟩ ⟨[Mining.infoText "5"], true⟩
      paddingReqs).bind fun n => ((node twoPools).exec n twoNonces).map fun n =>
        n.q.map fun creq => (creq.accountId, creq.recipId)) =
          some [(7, 0xFFFFFFFFFFFFFFFF), (8, 9)] := by
    rw [hstart]
    decide +kernel
  obtain ⟨n, hn, hrun⟩ := Option.bind_eq_some_iff.mp hrun
  obtain ⟨m, hm, hq⟩ := Option.map_eq_some_iff.mp hrun
  have hreach := System.Reachable.exec
    (.init ⟨_, _, paddingReqs, padding_paddingReqs, hn⟩ : (node twoPools).Reachable _ n) hm
  have hcfg : twoPools.cfg.Admitted := by
    refine Config.admitted_of_ordered ?_ ?_
    · simp only [Config.Ordered, twoPools]
      decide
    · simp only [twoPools]
      decide +kernel
  exact ⟨m, hreach, hq, routed hcfg (evaluates_answerQuery _) hreach⟩

end Node

end BurstPoolNode

import BurstPoolNode.DeadlineRequestHandler.Validations
import BurstPoolNode.Rounds

/-!
# The node

The whole node as a system (`node`): requests come in, the wallet is refreshed,
the distributor collects what is enqueued into batches, and the threads of the
pool compute and validate them, in any interleaving.

The queue hands out its elements in any order, and may be found empty at any
time. A thread takes up any of the posted batches, and validates its lanes one
after the other (`Task`); the validations of different batches interleave step
by step, as `validations` has them (`reachable_validations`).

A computation that divides by zero, or reads outside of the array of a plot, is
the end of the process (`crashed`), and nothing happens after it. The other
steps that the code could not survive, a slot outside of the array of slots and
a response without a session, are not enabled; no run comes to them.

* `step_cases`: what each step does (`Step`), in a process that is alive;
* `reachable_validations`: the validations of the node are those studied apart.
-/

namespace BurstPoolNode

open DeadlineRequestHandler

/-- A posted batch: its deadlines, once they are computed, the lane that is validated next, and
    the validation of the lane before. -/
structure Task (n : ℕ) where
  batch : Batch n
  deadlines : Option (Vector UInt64 n) := none
  next : ℕ := 0
  running : Option ℕ := none
  deriving DecidableEq

/-- The node: the wallet, the limiter, the number of requests that came in, the queue, the
    distributor, the posted batches, the validations with the calls of `do_submit_nonce` and
    `do_write` they made, the calls of `do_write` made otherwise, and whether the process has
    crashed. -/
structure Node (F : Type) (b : Build) where
  wallet : Wallet
  limiter : RateLimiter F
  sessions : ℕ := 0
  q : List CalcDeadlineReq := []
  distributor : Distributor b.parallelValidations
  tasks : List (Task b.parallelValidations) := []
  calls : List Validation := []
  forwarded : List (UInt64 × SubmitNonceRequest) := []
  written : List (ℕ × Response) := []
  answers : List (ℕ × Response) := []
  crashed : Bool := false

/-- What the node is run with. -/
structure Environment (F : Type) (b : Build) where
  parse : String → Option Json
  H : List UInt8 → Vector UInt8 32
  shabal : MShabal H b.parallelValidations
  db : String → Option ResultSet
  cfg : Config
  rate : F
  burstSize : F

namespace Node

variable {F : Type} {b : Build}

/-- A request, a refresh of the wallet; the distributor at the head of its loop, or polling the
    queue (and finding its `i`-th element); a thread computing the deadlines of the `k`-th
    batch, or going on to its next lane; and a step of the `i`-th validation. -/
inductive Action (F : Type)
  | request (now : F) (req : Request)
  | refresh (mem : Memory) (t : Transfer)
  | head
  | poll (i : Option ℕ)
  | compute (k : ℕ)
  | validate (k : ℕ)
  | run (i : ℕ)

/-- The validations of the node. -/
def validations (n : Node F b) : Validations := ⟨⟨n.wallet.miners, n.forwarded, n.written⟩, n.calls⟩

/-- The node with its validations as `v`. -/
def setValidations (n : Node F b) (v : Validations) : Node F b :=
  { n with
    wallet := { n.wallet with miners := v.shared.miners }
    forwarded := v.shared.forwarded
    written := v.shared.writes
    calls := v.calls }

@[simp] theorem validations_setValidations (n : Node F b) (v : Validations) :
    (n.setValidations v).validations = v := rfl

/-- The validation of the lane before is done. -/
def idle (n : Node F b) (task : Task b.parallelValidations) : Bool :=
  match task.running with
  | none => true
  | some i => n.calls[i]?.any fun v => v.pc.isDone

variable [Zero F] [One F] [Sub F] [Mul F] [Div F] [LT F] [DecidableLT F]

/-- The node once it is started, with the slots `reqs`. -/
def start (e : Environment F b) (mem : Memory) (t : Transfer)
    (reqs : Vector CalcDeadlineReq b.parallelValidations) : Option (Node F b) := do
  let w ← Wallet.construct e.parse e.H mem e.db e.cfg t
  return { wallet := w, limiter := .new e.rate e.burstSize, distributor := { reqs := reqs } }

/-- What an action does, as long as the process is alive. -/
def act (e : Environment F b) (n : Node F b) : Action F → Option (Node F b)
  | .request now req =>
    let s : Session := ⟨n.sessions, req⟩
    let (outcome, limiter) := s.handleRequest n.wallet n.limiter now
    let n := { n with sessions := n.sessions + 1, limiter := limiter }
    match outcome with
    | .write res => some { n with answers := n.answers ++ [(s.id, res)] }
    | .enque creq => some { n with q := n.q ++ [creq] }
  | .refresh mem t => some { n with wallet := (n.wallet.refreshBlock e.parse e.H mem t).2 }
  | .head =>
    if n.distributor.place = .head then
      let (post, distributor) := n.distributor.head
      some { n with
        distributor := distributor
        tasks := n.tasks ++ post.toList.map fun batch => { batch := batch } }
    else
      none
  | .poll none =>
    if n.distributor.place = .poll then
      some { n with distributor := n.distributor.notFound }
    else
      none
  | .poll (some i) =>
    if n.distributor.place = .poll then do
      let creq ← n.q[i]?
      let distributor ← n.distributor.found creq
      return { n with distributor := distributor, q := n.q.eraseIdx i }
    else
      none
  | .compute k => do
    let task ← n.tasks[k]?
    if task.deadlines = none then
      match deadlines b e.shabal e.cfg.poc2StartHeight task.batch.creqs with
      | some v => some { n with tasks := n.tasks.set k { task with deadlines := some v } }
      | none => some { n with crashed := true }
    else
      none
  | .validate k => do
    let task ← n.tasks[k]?
    let ds ← task.deadlines
    if task.next < task.batch.pending ∧ n.idle task then
      let creq ← task.batch.creqs[task.next]?
      let deadline ← ds[task.next]?
      let v ← (DeadlineRequestHandler.validations e.cfg.deadlineLimit).step n.validations
        (.start creq deadline)
      return { n.setValidations v with
        tasks := n.tasks.set k
          { task with next := task.next + 1, running := some n.calls.length } }
    else
      none
  | .run i => do
    let v ← (DeadlineRequestHandler.validations e.cfg.deadlineLimit).step n.validations (.run i)
    return n.setValidations v

/-- The node in an environment. -/
def node (e : Environment F b) : System (Node F b) (Action F) where
  init := {n | ∃ mem t reqs, Distributor.padding reqs ∧ start e mem t reqs = some n}
  step n a := if n.crashed then none else n.act e a

theorem init_eq {e : Environment F b} {n : Node F b} (h : n ∈ (node e).init) :
    ∃ mem t w reqs, Wallet.construct e.parse e.H mem e.db e.cfg t = some w ∧
      Distributor.padding reqs ∧
      n = { wallet := w, limiter := .new e.rate e.burstSize, distributor := { reqs := reqs } } := by
  obtain ⟨mem, t, reqs, hreqs, h⟩ := h
  obtain ⟨w, hw, h⟩ := Option.bind_eq_some_iff.mp h
  exact ⟨mem, t, w, reqs, hw, hreqs, (Option.some.inj h).symm⟩

/-! ## What a step does -/

variable {e : Environment F b} {n m : Node F b} {a : Action F}

/-- The steps of the node, by what they do. -/
inductive Step (e : Environment F b) (n : Node F b) : Action F → Node F b → Prop
  | answer {now : F} {req : Request} {res : Response} :
      (Session.handleRequest ⟨n.sessions, req⟩ n.wallet n.limiter now).1 = .write res →
      Step e n (.request now req) { n with
        sessions := n.sessions + 1
        limiter := (Session.handleRequest ⟨n.sessions, req⟩ n.wallet n.limiter now).2
        answers := n.answers ++ [(n.sessions, res)] }
  | enque {now : F} {req : Request} {creq : CalcDeadlineReq} :
      (Session.handleRequest ⟨n.sessions, req⟩ n.wallet n.limiter now).1 = .enque creq →
      Step e n (.request now req) { n with
        sessions := n.sessions + 1
        limiter := (Session.handleRequest ⟨n.sessions, req⟩ n.wallet n.limiter now).2
        q := n.q ++ [creq] }
  | refresh {mem : Memory} {t : Transfer} :
      Step e n (.refresh mem t) { n with wallet := (n.wallet.refreshBlock e.parse e.H mem t).2 }
  | post : n.distributor.place = .head →
      n.distributor.pending = b.parallelValidations ∨
        n.distributor.pending > 0 ∧ n.distributor.waited > 50 →
      Step e n .head { n with
        distributor := { n.distributor with pending := 0, waited := 0, place := .poll }
        tasks := n.tasks ++ [{ batch := ⟨n.distributor.reqs, n.distributor.pending⟩ }] }
  | pass : n.distributor.place = .head →
      ¬(n.distributor.pending = b.parallelValidations ∨
        n.distributor.pending > 0 ∧ n.distributor.waited > 50) →
      Step e n .head { n with distributor := { n.distributor with place := .poll } }
  | notFound : n.distributor.place = .poll →
      Step e n (.poll none) { n with distributor := n.distributor.notFound }
  | found {i : ℕ} {creq : CalcDeadlineReq} : n.distributor.place = .poll →
      n.q[i]? = some creq → (hlt : n.distributor.pending < b.parallelValidations) →
      Step e n (.poll (some i)) { n with
        distributor := { n.distributor with
          reqs := n.distributor.reqs.set n.distributor.pending creq
          pending := n.distributor.pending + 1
          place := .head }
        q := n.q.eraseIdx i }
  | compute {k : ℕ} {task : Task b.parallelValidations}
      {ds : Vector UInt64 b.parallelValidations} :
      n.tasks[k]? = some task → task.deadlines = none →
      deadlines b e.shabal e.cfg.poc2StartHeight task.batch.creqs = some ds →
      Step e n (.compute k) { n with tasks := n.tasks.set k { task with deadlines := some ds } }
  | crash {k : ℕ} {task : Task b.parallelValidations} :
      n.tasks[k]? = some task → task.deadlines = none →
      deadlines b e.shabal e.cfg.poc2StartHeight task.batch.creqs = none →
      Step e n (.compute k) { n with crashed := true }
  | validate {k : ℕ} {task : Task b.parallelValidations}
      {ds : Vector UInt64 b.parallelValidations} {creq : CalcDeadlineReq} {deadline : UInt64} :
      n.tasks[k]? = some task → task.deadlines = some ds → task.next < task.batch.pending →
      n.idle task → task.batch.creqs[task.next]? = some creq → ds[task.next]? = some deadline →
      Step e n (.validate k) { n with
        calls := n.calls ++ [⟨creq, deadline, .start⟩]
        tasks := n.tasks.set k
          { task with next := task.next + 1, running := some n.calls.length } }
  | run {i : ℕ} {v : Validations} :
      (DeadlineRequestHandler.validations e.cfg.deadlineLimit).step n.validations (.run i) =
        some v →
      Step e n (.run i) (n.setValidations v)

/-- In a process that is alive, an action does what it does. -/
theorem step_of_alive (halive : n.crashed = false) : (node e).step n a = n.act e a :=
  if_neg (ne_true_of_eq_false halive)

/-- In a crashed one, nothing does anything. -/
theorem step_of_crashed (hcrashed : n.crashed = true) : (node e).step n a = none :=
  if_pos hcrashed

theorem alive_of_step (h : (node e).step n a = some m) : n.crashed = false := by
  simp only [node] at h
  split_ifs at h with hcrashed
  exact eq_false_of_ne_true hcrashed

theorem step_cases (h : (node e).step n a = some m) : Step e n a m := by
  rw [step_of_alive (alive_of_step h)] at h
  cases a with
  | request now req =>
    have hanswer := @Step.answer F b _ _ _ _ _ _ _ e n now req
    have henque := @Step.enque F b _ _ _ _ _ _ _ e n now req
    simp only [act] at h
    generalize Session.handleRequest ⟨n.sessions, req⟩ n.wallet n.limiter now = r
      at h hanswer henque
    obtain ⟨outcome, limiter⟩ := r
    cases outcome with
    | write res => exact Option.some.inj h ▸ hanswer rfl
    | enque creq => exact Option.some.inj h ▸ henque rfl
  | refresh mem t => exact Option.some.inj h ▸ .refresh
  | head =>
    simp only [act, Distributor.head] at h
    split_ifs at h with hplace hpost
    · exact Option.some.inj h ▸ .post hplace hpost
    · simp only [Option.toList_none, List.map_nil, List.append_nil] at h
      exact Option.some.inj h ▸ .pass hplace hpost
  | poll i =>
    cases i with
    | none =>
      simp only [act] at h
      split_ifs at h with hplace
      exact Option.some.inj h ▸ .notFound hplace
    | some i =>
      simp only [act] at h
      split_ifs at h with hplace
      obtain ⟨creq, hcreq, h⟩ := Option.bind_eq_some_iff.mp h
      rw [Distributor.found] at h
      split_ifs at h with hlt
      · exact Option.some.inj h ▸ .found hplace hcreq hlt
      · cases h
  | compute k =>
    obtain ⟨task, htask, h⟩ := Option.bind_eq_some_iff.mp h
    split_ifs at h with hnone
    cases hds : deadlines b e.shabal e.cfg.poc2StartHeight task.batch.creqs with
    | some ds =>
      simp only [hds] at h
      exact Option.some.inj h ▸ .compute htask hnone hds
    | none =>
      simp only [hds] at h
      exact Option.some.inj h ▸ .crash htask hnone hds
  | validate k =>
    obtain ⟨task, htask, h⟩ := Option.bind_eq_some_iff.mp h
    obtain ⟨ds, hds, h⟩ := Option.bind_eq_some_iff.mp h
    split_ifs at h with hnext
    obtain ⟨creq, hcreq, h⟩ := Option.bind_eq_some_iff.mp h
    obtain ⟨deadline, hdeadline, h⟩ := Option.bind_eq_some_iff.mp h
    exact Option.some.inj h ▸ .validate htask hds hnext.1 hnext.2 hcreq hdeadline
  | run i =>
    obtain ⟨v, hv, h⟩ := Option.bind_eq_some_iff.mp h
    exact Option.some.inj h ▸ .run hv

/-! ## The validations of the node -/

/-- A step of the node is one of its validations, or none. -/
theorem Step.validations_eq (h : Step e n a m) : m.validations = n.validations ∨
    ∃ c, (DeadlineRequestHandler.validations e.cfg.deadlineLimit).step n.validations c =
      some m.validations := by
  cases h with
  | refresh =>
    refine .inl ?_
    simp [validations]
  | validate => exact .inr ⟨.start _ _, rfl⟩
  | run hv => exact .inr ⟨_, hv⟩
  | _ => exact .inl rfl

/-- The validations of the node are those studied apart. -/
theorem reachable_validations (h : (node e).Reachable System.Any n) :
    (DeadlineRequestHandler.validations e.cfg.deadlineLimit).Reachable System.Any
      n.validations := by
  induction h with
  | init hs =>
    obtain ⟨mem, t, w, reqs, hw, -, rfl⟩ := init_eq hs
    exact .init ⟨_, _, _, Wallet.construct_cacheMiners hw, rfl⟩
  | step _ _ hst ih =>
    rcases (step_cases hst).validations_eq with heq | ⟨c, hc⟩
    · rwa [heq]
    · exact .step ih trivial hc

/-! ## A node with one account -/

/-- A node with the account 7. All digests start with the number 10000. -/
def oneAccount : Environment ℚ .sse4 where
  parse := Json.parse
  H := fun _ => .ofFn fun i => [0x10, 0x27].getD i 0
  shabal := .recording _ 4
  db := fun _ => some ⟨[(7, 9)], false⟩
  cfg := ⟨1000, [(9, "192.0.2.9:50051")], 0⟩
  rate := 1
  burstSize := 1

/-- Its slots at the start. -/
def paddingReqs : Vector CalcDeadlineReq 4 :=
  Vector.replicate 4 ⟨0, 0, 0, 0, 1, 0, Vector.replicate 32 0, none⟩

theorem padding_paddingReqs : Distributor.padding paddingReqs := by
  intro creq hcreq
  rw [Vector.mem_replicate.mp hcreq |>.2]
  exact ⟨rfl, rfl⟩

/-- The node with the account 7, after the transfer `t`. -/
def oneAccountStart (t : Transfer) : Option (Node ℚ .sse4) :=
  start oneAccount ⟨Vector.replicate 32 0, []⟩ t paddingReqs

theorem oneAccountStart_mem {t : Transfer} {n : Node ℚ .sse4} (h : oneAccountStart t = some n) :
    n ∈ (node oneAccount).init :=
  ⟨_, t, paddingReqs, padding_paddingReqs, h⟩

end Node

end BurstPoolNode

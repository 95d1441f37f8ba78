import BurstPoolNode.Burstmath.Lanes
import BurstPoolNode.Session
import BurstPoolNode.System

/-!
# The deadline request handler

`DeadlineRequestHandler.cpp`. A thread collects requests for deadlines in an
array of slots and posts copies of it, the batches (`Distributor`). The threads
of a pool take the batches, compute the deadlines of all lanes together
(`deadlines`) and validate those of the lanes that hold a request
(`validateDeadline`).

Validations run concurrently and share the rounds of the miners. `Validation.next`
is `validate_deadline` cut into its accesses to what is shared, and
`validations` the system in which any number of them take these steps in any
order. A validation that no other interferes with does what `validateDeadline`
does (`exec_alone`).
-/

namespace BurstPoolNode

/-! ## Builds -/

/-- Whether the macro `USE_AVX2` is defined. -/
inductive Build
  | avx2
  | sse4
  deriving DecidableEq

/-- `PARALLEL_VALIDATIONS`. -/
def Build.parallelValidations : Build → ℕ
  | .avx2 => 8
  | .sse4 => 4

instance (b : Build) : NeZero b.parallelValidations :=
  ⟨by cases b <;> decide⟩

namespace DeadlineRequestHandler

open Burstmath

variable {H : List UInt8 → Vector UInt8 32}

/-! ## Batches -/

/-- A copy of the slots, the first `pending` of which hold a request. -/
structure Batch (n : ℕ) where
  creqs : Vector CalcDeadlineReq n
  pending : ℕ
  deriving DecidableEq

/-- The requests in the lanes below `pending`. -/
def Batch.lanes {n : ℕ} (batch : Batch n) : List CalcDeadlineReq :=
  batch.creqs.toList.take batch.pending

/-- The call of `calculate_deadlines_sse4` in `validate_deadlines`. -/
def deadlinesSse4 (x : MShabal H 4) (poc2StartHeight : UInt64) (creqs : Vector CalcDeadlineReq 4) :
    Option (Vector UInt64 4) :=
  calculateDeadlinesSse4 x (creqs[0].height ≥ poc2StartHeight)
    creqs[0].baseTarget creqs[1].baseTarget creqs[2].baseTarget creqs[3].baseTarget
    creqs[0].scoopNr creqs[1].scoopNr creqs[2].scoopNr creqs[3].scoopNr
    creqs[0].gensig creqs[1].gensig creqs[2].gensig creqs[3].gensig
    creqs[0].accountId creqs[1].accountId creqs[2].accountId creqs[3].accountId
    creqs[0].nonce creqs[1].nonce creqs[2].nonce creqs[3].nonce

/-- The call of `calculate_deadlines_avx2` in `validate_deadlines`. -/
def deadlinesAvx2 (x : MShabal H 8) (poc2StartHeight : UInt64) (creqs : Vector CalcDeadlineReq 8) :
    Option (Vector UInt64 8) :=
  calculateDeadlinesAvx2 x (creqs[0].height ≥ poc2StartHeight)
    creqs[0].baseTarget creqs[1].baseTarget creqs[2].baseTarget creqs[3].baseTarget
    creqs[4].baseTarget creqs[5].baseTarget creqs[6].baseTarget creqs[7].baseTarget
    creqs[0].scoopNr creqs[1].scoopNr creqs[2].scoopNr creqs[3].scoopNr
    creqs[4].scoopNr creqs[5].scoopNr creqs[6].scoopNr creqs[7].scoopNr
    creqs[0].gensig creqs[1].gensig creqs[2].gensig creqs[3].gensig
    creqs[4].gensig creqs[5].gensig creqs[6].gensig creqs[7].gensig
    creqs[0].accountId creqs[1].accountId creqs[2].accountId creqs[3].accountId
    creqs[4].accountId creqs[5].accountId creqs[6].accountId creqs[7].accountId
    creqs[0].nonce creqs[1].nonce creqs[2].nonce creqs[3].nonce
    creqs[4].nonce creqs[5].nonce creqs[6].nonce creqs[7].nonce

/-- The deadlines `validate_deadlines` computes of a batch, in a build. -/
def deadlines : (b : Build) → MShabal H b.parallelValidations → UInt64 →
    Vector CalcDeadlineReq b.parallelValidations → Option (Vector UInt64 b.parallelValidations)
  | .avx2 => deadlinesAvx2
  | .sse4 => deadlinesSse4

/-! ## The distributor -/

/-- Whether the loop is at its head or about to poll the queue. -/
inductive Place
  | head
  | poll
  deriving DecidableEq

/-- The local variables of `distribute_deadline_reqs`. -/
structure Distributor (n : ℕ) where
  reqs : Vector CalcDeadlineReq n
  pending : ℕ := 0
  waited : ℕ := 0
  place : Place := .head
  deriving DecidableEq

namespace Distributor

variable {n : ℕ}

/-- The requests that fill up the first batches have a base target and no session; what
    else is in them is not written. -/
def padding (reqs : Vector CalcDeadlineReq n) : Prop :=
  ∀ creq ∈ reqs, creq.baseTarget = 1 ∧ creq.session = none

/-- The head of the loop: the batch it posts, if it posts one. -/
def head (d : Distributor n) : Option (Batch n) × Distributor n :=
  if d.pending = n ∨ (d.pending > 0 ∧ d.waited > 50) then
    (some ⟨d.reqs, d.pending⟩, { d with pending := 0, waited := 0, place := .poll })
  else
    (none, { d with place := .poll })

/-- A request is found in the queue. A slot outside the array cannot be written. -/
def found (d : Distributor n) (creq : CalcDeadlineReq) : Option (Distributor n) :=
  if h : d.pending < n then
    some { d with reqs := d.reqs.set d.pending creq, pending := d.pending + 1, place := .head }
  else
    none

/-- Nothing is found in the queue. -/
def notFound (d : Distributor n) : Distributor n :=
  { d with waited := d.waited + 1, place := .head }

end Distributor

/-! ## Validating a deadline -/

/-- What is passed on to a pool. -/
structure SubmitNonceRequest where
  accountId : UInt64
  nonce : UInt64
  deadline : UInt64
  blockHeight : UInt64
  deriving DecidableEq

/-- What validations share: the miners, the calls of `do_submit_nonce` and those of
    `do_write`, with the number of the session. -/
structure Shared where
  miners : Miners
  forwarded : List (UInt64 × SubmitNonceRequest) := []
  writes : List (ℕ × Response) := []

namespace Shared

/-- The session of `creq` writes a response. Without a session, there is none to write it. -/
def write (sh : Shared) (creq : CalcDeadlineReq) (res : Session → Response) : Option Shared :=
  creq.session.map fun s => { sh with writes := sh.writes ++ [(s.id, res s)] }

/-- `do_submit_nonce`. -/
def submitNonce (sh : Shared) (creq : CalcDeadlineReq) (deadline : UInt64) : Shared :=
  { sh with
    forwarded := sh.forwarded ++ [(creq.recipId,
      { accountId := creq.accountId, nonce := creq.nonce, deadline := deadline,
        blockHeight := creq.height })] }

/-- The round at `p` is changed. -/
def setRound (sh : Shared) (p : ℕ) (round : MinerRound) : Shared :=
  { sh with miners := { sh.miners with rounds := Function.update sh.miners.rounds p round } }

@[simp] theorem setRound_table (sh : Shared) (p : ℕ) (round : MinerRound) :
    (sh.setRound p round).miners.table = sh.miners.table := rfl

@[simp] theorem setRound_forwarded (sh : Shared) (p : ℕ) (round : MinerRound) :
    (sh.setRound p round).forwarded = sh.forwarded := rfl

theorem setRound_rounds (sh : Shared) (p : ℕ) (round : MinerRound) (q : ℕ) :
    (sh.setRound p round).miners.rounds q = if q = p then round else sh.miners.rounds q :=
  Function.update_apply ..

end Shared

/-- The response to a deadline above the limit. -/
def limitError (s : Session) : Response :=
  s.jsonError 1008 "Deadline exceeds deadline limit of the pool"

/-- The response to a deadline that is fine. -/
def success (deadline : UInt64) (s : Session) : Response :=
  s.okResponse ("\x7b\"result\":\"success\",\"deadline\":" ++ toDecimal deadline ++ "\x7d")

/-- `validate_deadline`, with nobody else around: the lock is taken and released. -/
def validateDeadline (deadlineLimit : UInt64) (creq : CalcDeadlineReq) (deadline : UInt64)
    (sh : Shared) : Option Shared :=
  if deadline > deadlineLimit then
    sh.write creq limitError
  else
    let sh := match sh.miners.getMinerRound creq.accountId with
      | none => sh
      | some p =>
        let round := sh.miners.rounds p
        if round.mu = none then
          if round.height = creq.height ∧ round.deadline > deadline then
            (sh.submitNonce creq deadline).setRound p { round with deadline := deadline }
          else
            sh
        else
          sh
    sh.write creq (success deadline)

/-- `validate_deadlines`, with nobody else around. -/
def validateDeadlines (b : Build) (x : MShabal H b.parallelValidations)
    (poc2StartHeight deadlineLimit : UInt64) (batch : Batch b.parallelValidations) (sh : Shared) :
    Option Shared := do
  let ds ← deadlines b x poc2StartHeight batch.creqs
  ((batch.creqs.zip ds).toList.take batch.pending).foldlM
    (fun sh r => validateDeadline deadlineLimit r.1 r.2 sh) sh

/-! ## Validating deadlines concurrently -/

/-- Where a validation is. From `compare` to `unlock` it holds the lock of the round at `p`. -/
inductive Pc
  | start
  | getMinerRound
  | tryLock (p : ℕ)
  | compare (p : ℕ)
  | forward (p : ℕ)
  | store (p : ℕ)
  | unlock (p : ℕ)
  | writeError
  | writeOk
  | done (ok : Bool)
  deriving DecidableEq

/-- The validation is done. -/
def Pc.isDone : Pc → Bool
  | .done _ => true
  | _ => false

/-- A call of `validate_deadline`. -/
structure Validation where
  creq : CalcDeadlineReq
  deadline : UInt64
  pc : Pc
  deriving DecidableEq

/-- The step of the validation number `i`: where it is after it, and what is shared. -/
def Validation.next (deadlineLimit : UInt64) (i : ℕ) (v : Validation) (sh : Shared) :
    Option (Pc × Shared) :=
  match v.pc with
  | .start =>
    if v.deadline > deadlineLimit then some (.writeError, sh) else some (.getMinerRound, sh)
  | .getMinerRound =>
    match sh.miners.getMinerRound v.creq.accountId with
    | none => some (.writeOk, sh)
    | some p => some (.tryLock p, sh)
  | .tryLock p =>
    if (sh.miners.rounds p).mu = none then
      some (.compare p, sh.setRound p { sh.miners.rounds p with mu := some i })
    else
      some (.writeOk, sh)
  | .compare p =>
    if (sh.miners.rounds p).height = v.creq.height ∧ (sh.miners.rounds p).deadline > v.deadline then
      some (.forward p, sh)
    else
      some (.unlock p, sh)
  | .forward p => some (.store p, sh.submitNonce v.creq v.deadline)
  | .store p => some (.unlock p, sh.setRound p { sh.miners.rounds p with deadline := v.deadline })
  | .unlock p => some (.writeOk, sh.setRound p { sh.miners.rounds p with mu := none })
  | .writeError => (sh.write v.creq limitError).map fun sh => (.done false, sh)
  | .writeOk => (sh.write v.creq (success v.deadline)).map fun sh => (.done true, sh)
  | .done _ => none

/-- What is shared, and the validations, in the order of their start. -/
structure Validations where
  shared : Shared
  calls : List Validation := []

/-- A new validation, or a step of the `i`-th. -/
inductive Action
  | start (creq : CalcDeadlineReq) (deadline : UInt64)
  | run (i : ℕ)

/-- The validations, from miners as `cache_miners` leaves them. -/
def validations (deadlineLimit : UInt64) : System Validations Action where
  init := {s | ∃ height res miners,
    Miners.cacheMiners {} height res = (some (), miners) ∧ s = { shared := { miners := miners } }}
  step s
    | .start creq deadline => some { s with calls := s.calls ++ [⟨creq, deadline, .start⟩] }
    | .run i => do
      let v ← s.calls[i]?
      let r ← v.next deadlineLimit i s.shared
      return ⟨r.2, s.calls.set i { v with pc := r.1 }⟩

end DeadlineRequestHandler

end BurstPoolNode

import BurstPoolNode.RateLimiter
import BurstPoolNode.Wallet

/-!
# Sessions

`Session.cpp`: a session reads one request and hands it to `handleRequest`,
which answers it or, for a nonce, puts it in the queue of the validations.
`parseUrl` is the iteration over the matches of `([\w+%]+)=([^&]*)` in the
target of a request.

Reading from and writing to the socket are left out; a session is the request
it has read, under a number of its own.
-/

namespace BurstPoolNode

/-! ## Requests and responses -/

/-- A request: the address of the node it was sent to, that of the client it came from, its
    target and its version. -/
structure Request where
  localAddress : String
  remoteAddress : String
  target : String
  version : ℕ
  deriving DecidableEq

inductive Status
  | ok
  | badRequest
  | serviceUnavailable
  deriving DecidableEq

structure Response where
  status : Status
  version : ℕ
  body : String
  deriving DecidableEq

/-- A session that has read its request. -/
structure Session where
  id : ℕ
  req : Request
  deriving DecidableEq

/-- A request for a deadline. Those that fill up a batch have no session. -/
structure CalcDeadlineReq where
  accountId : UInt64
  nonce : UInt64
  height : UInt64
  scoopNr : UInt32
  baseTarget : UInt64
  recipId : UInt64
  gensig : Vector UInt8 32
  session : Option Session
  deriving DecidableEq

/-! ## Targets -/

/-- `[\w+%]`. -/
def isKeyChar (c : Char) : Bool :=
  ('a' ≤ c ∧ c ≤ 'z') || ('A' ≤ c ∧ c ≤ 'Z') || c.isDigit || c = '_' || c = '+' || c = '%'

/-- A match of the pattern at the start of `cs`: the key, the value and what follows. A key
    shorter than the run of key characters would be followed by another of them, not by `=`. -/
def matchParam (cs : List Char) : Option (List Char × List Char × List Char) :=
  match cs.takeWhile isKeyChar, cs.dropWhile isKeyChar with
  | key@(_ :: _), '=' :: rest => some (key, rest.takeWhile (· ≠ '&'), rest.dropWhile (· ≠ '&'))
  | _, _ => none

/-- The first match of the pattern in `cs`. -/
def searchParam : List Char → Option (List Char × List Char × List Char)
  | [] => none
  | c :: cs => (matchParam (c :: cs)).or (searchParam cs)

/-- The `std::map` of the parameters. -/
abbrev Params := String → Option String

/-- The loop over the matches in `cs`, of which there are at most `n`. -/
def paramsLoop : ℕ → List Char → Params → Params
  | 0, _, params => params
  | n + 1, cs, params =>
    match searchParam cs with
    | none => params
    | some (key, value, rest) =>
      paramsLoop n rest (Function.update params (String.ofList key) (some (String.ofList value)))

/-- `parse_url`. A match is two characters long at least. -/
def parseUrl (query : String) : Params :=
  paramsLoop query.toList.length query.toList fun _ => none

namespace Session

/-! ## Handling a request -/

/-- `writeJSONError`. -/
def jsonError (s : Session) (errorCode : ℕ) (errorMsg : String) : Response :=
  { status := .badRequest
    version := s.req.version
    body := "\x7b\"errorCode\":" ++ toString errorCode ++ ",\"errorDescription\":\"" ++ errorMsg ++
      "\"\x7d" }

/-- `write_ok`. -/
def okResponse (s : Session) (msg : String) : Response :=
  { status := .ok, version := s.req.version, body := msg }

/-- How `handle_request` ends: with a call of `do_write`, or of `enque_req`. -/
inductive Outcome
  | write (res : Response)
  | enque (creq : CalcDeadlineReq)
  deriving DecidableEq

/-- `process_submit_nonce_req`. -/
def processSubmitNonceReq (s : Session) (w : Wallet) (params : Params) : Outcome :=
  match stoull ((params "accountId").getD "") with
  | none => .write (s.jsonError 1013 "sumitNonce request has bad 'accountId' parameter")
  | some accountId =>
    match stoull ((params "nonce").getD "") with
    | none => .write (s.jsonError 1012 "sumitNonce request has bad 'nonce' parameter")
    | some nonce =>
      let recipId := w.miners.getRewardRecipient accountId
      if recipId = 0 then
        .write (s.jsonError 1004 "Account's reward recipient doesn't match the pool's")
      else
        let currentBlock := w.getCurrentBlock
        .enque
          { accountId := accountId
            nonce := nonce
            height := currentBlock.height
            scoopNr := currentBlock.scoop
            baseTarget := currentBlock.baseTarget
            gensig := currentBlock.gensig
            session := some s
            recipId := recipId }

variable {F : Type*} [Zero F] [One F] [Sub F] [Mul F] [Div F] [LT F] [DecidableLT F]

/-- `handle_request`, with the limiter reading the clock at `now`. -/
def handleRequest (s : Session) (w : Wallet) (rl : RateLimiter F) (now : F) :
    Outcome × RateLimiter F :=
  let params := parseUrl s.req.target
  match params "requestType" with
  | none => (.write { status := .badRequest, version := s.req.version, body := "" }, rl)
  | some reqType =>
    let limiterKey := s.req.localAddress ++ reqType
    let (admitted, rl) := rl.aquire now limiterKey
    if admitted then
      if reqType = "getMiningInfo" then
        (.write (s.okResponse w.getCachedMiningInfo), rl)
      else if reqType = "submitNonce" then
        (s.processSubmitNonceReq w params, rl)
      else
        (.write { status := .badRequest, version := s.req.version, body := "" }, rl)
    else
      (.write { status := .serviceUnavailable, version := s.req.version, body := "" }, rl)

/-! ## What handling a request does -/

/-- The key of a request in the limiter, if it is asked. -/
def limiterKey (req : Request) : Option String :=
  (parseUrl req.target "requestType").map (req.localAddress ++ ·)

/-- A request that is enqueued carries the current block and the recipient of its account. -/
theorem processSubmitNonceReq_enque {s : Session} {w : Wallet} {params : Params}
    {creq : CalcDeadlineReq} (h : s.processSubmitNonceReq w params = .enque creq) :
    creq.session = some s ∧ creq.height = w.currentBlock.height ∧
      creq.scoopNr = w.currentBlock.scoop ∧ creq.baseTarget = w.currentBlock.baseTarget ∧
      creq.gensig = w.currentBlock.gensig ∧ creq.recipId ≠ 0 ∧
      creq.recipId = w.miners.getRewardRecipient creq.accountId := by
  rw [processSubmitNonceReq] at h
  split at h
  · cases h
  · split at h
    · cases h
    · dsimp only at h
      split_ifs at h with hrecip
      cases h
      exact ⟨rfl, rfl, rfl, rfl, rfl, hrecip, rfl⟩

/-- A request enqueued by `handle_request` is one of `process_submit_nonce_req`. -/
theorem handleRequest_enque {s : Session} {w : Wallet} {rl : RateLimiter F} {now : F}
    {creq : CalcDeadlineReq} (h : (s.handleRequest w rl now).1 = .enque creq) :
    s.processSubmitNonceReq w (parseUrl s.req.target) = .enque creq := by
  rw [handleRequest] at h
  split at h
  · cases h
  · dsimp only at h
    split_ifs at h
    exact h

end Session

end BurstPoolNode

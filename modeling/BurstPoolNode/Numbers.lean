import BurstPoolNode.Config
import BurstPoolNode.Session
import BurstPoolNode.Text.Numerals
import BurstPoolNode.Wallet.Signatures

/-!
# Numbers from outside

The numbers that the code takes out of texts it is given: the account and the
nonce of a request, the height and the base target of a response of the wallet,
and the numbers of the pools. At each of these places (`NumberSite`) it reads
the text with `std::stoull`, and goes on with the number or takes the error path.

* `NumberSite.takes_iff`, `NumberSite.fails_iff`: which texts it takes, and
  which it does not;
* `Number.exact_iff`: these are the numerals below `2 ^ 64`, and the others, if
  and only if the text is not decorated.
-/

namespace BurstPoolNode

/-! ## Places -/

/-- A place where a number is read: the text that is read, what the code does, how it goes on
    with a number, and its error path. -/
structure NumberSite where
  Input : Type
  Result : Type
  text : Input → String
  code : Input → Result
  value : Input → UInt64 → Result
  error : Input → Result
  code_eq : ∀ x, code x = match stoull (text x) with
    | none => error x
    | some v => value x v
  /-- Any text can come here, and in a way that shows what was read. -/
  exists_input : ∀ s, ∃ x, text x = s ∧ Function.Injective (value x) ∧ ∀ v, value x v ≠ error x

namespace NumberSite

variable (site : NumberSite) {s t : String} {v : UInt64}

/-- The code takes the number `v` from the text. -/
def Takes (s : String) (v : UInt64) : Prop :=
  ∀ x, site.text x = s → site.code x = site.value x v

/-- The code takes its error path. -/
def Fails (s : String) : Prop := ∀ x, site.text x = s → site.code x = site.error x

/-- The code takes the number of a numeral below `2 ^ 64`, and fails on any other text. -/
def Exact (s : String) : Prop :=
  (∀ v, site.Takes s v ↔ Decimal s v) ∧ (site.Fails s ↔ ∀ v, ¬Decimal s v)

theorem takes_iff : site.Takes s v ↔ stoull s = some v := by
  constructor
  · intro h
    obtain ⟨x, rfl, hinj, hne⟩ := site.exists_input s
    have hcode := (site.code_eq x).symm.trans (h x rfl)
    cases hread : stoull (site.text x) with
    | none =>
      rw [hread] at hcode
      exact absurd hcode.symm (hne v)
    | some u =>
      rw [hread] at hcode
      rw [hinj hcode]
  · rintro h x rfl
    rw [site.code_eq, h]

theorem fails_iff : site.Fails s ↔ stoull s = none := by
  constructor
  · intro h
    obtain ⟨x, rfl, -, hne⟩ := site.exists_input s
    have hcode := (site.code_eq x).symm.trans (h x rfl)
    cases hread : stoull (site.text x) with
    | none => rfl
    | some v =>
      rw [hread] at hcode
      exact absurd hcode (hne v)
  · rintro h x rfl
    rw [site.code_eq, h]

theorem exact_iff_not_decorated (s : String) : site.Exact s ↔ ¬Decorated s := by
  rw [Exact, ← readsDecimals_iff, site.fails_iff]
  simp only [site.takes_iff]

/-- A text of digits that is taken has the number that is taken. -/
theorem Takes.decimal {site : NumberSite} (h : site.Takes s v)
    (hdigits : ∀ c ∈ s.toList, c.isDigit = true) : Decimal s v := by
  rcases decimal_or_decorated (site.takes_iff.mp h) with hdecimal | hdecorated
  · exact hdecimal
  · exact absurd hdigits hdecorated.not_forall_isDigit

/-- No two numerals without leading zeros stand for one number. -/
theorem Takes.eq {site : NumberSite} (hs : site.Takes s v) (ht : site.Takes t v) (hsc : Canonical s)
    (htc : Canonical t) : s = t :=
  hsc.eq htc ((hs.decimal hsc.2.1).2.2.trans (ht.decimal htc.2.1).2.2.symm)

end NumberSite

theorem stoull_zero : stoull "0" = some 0 := by decide +kernel

/-! ## Requests -/

namespace Session

/-- A call of `process_submit_nonce_req`. -/
structure SubmitNonceReq where
  s : Session
  w : Wallet
  params : Params

/-- A call in which an account has been read. -/
structure SubmitNonceReqOf extends SubmitNonceReq where
  accountId : UInt64
  accountId_eq : stoull ((params "accountId").getD "") = some accountId

/-- `process_submit_nonce_req`, once it has the account and the nonce. -/
def submit (s : Session) (w : Wallet) (accountId nonce : UInt64) : Outcome :=
  let recipId := w.miners.getRewardRecipient accountId
  if recipId = 0 then
    .write (s.jsonError 1004 "Account's reward recipient doesn't match the pool's")
  else
    let currentBlock := w.getCurrentBlock
    .enque
      { accountId := accountId
        nonce := nonce
        height := currentBlock.height
        scoopNr := currentBlock.scoop
        baseTarget := currentBlock.baseTarget
        gensig := currentBlock.gensig
        session := some s
        recipId := recipId }

/-- `process_submit_nonce_req`, once it has the account. -/
def submitOf (s : Session) (w : Wallet) (params : Params) (accountId : UInt64) : Outcome :=
  match stoull ((params "nonce").getD "") with
  | none => .write (s.jsonError 1012 "sumitNonce request has bad 'nonce' parameter")
  | some nonce => s.submit w accountId nonce

theorem processSubmitNonceReq_eq (s : Session) (w : Wallet) (params : Params) :
    s.processSubmitNonceReq w params = match stoull ((params "accountId").getD "") with
      | none => .write (s.jsonError 1013 "sumitNonce request has bad 'accountId' parameter")
      | some accountId => s.submitOf w params accountId := rfl

/-- A wallet where every account has the recipient 1. -/
def openWallet : Wallet where
  recipQuery := ""
  miners := { table := fun _ => some 0, rounds := fun _ => ⟨none, 0, 0, 1⟩, next := 1 }
  deadlineLimit := 0

/-- With a recipient, a request says which account and which nonce were read. -/
theorem submit_openWallet (s : Session) (accountId nonce : UInt64) :
    s.submit openWallet accountId nonce = .enque
      { accountId := accountId, nonce := nonce, height := 0, scoopNr := 0, baseTarget := 0
        gensig := Vector.replicate 32 0, session := some s, recipId := 1 } := rfl

/-- The parameters of a request for an account and a nonce. -/
def paramsOf (accountId nonce : String) : Params := fun key =>
  if key = "accountId" then some accountId else if key = "nonce" then some nonce else none

theorem nonce_code_eq (x : SubmitNonceReqOf) : x.s.processSubmitNonceReq x.w x.params =
    match stoull ((x.params "nonce").getD "") with
    | none => .write (x.s.jsonError 1012 "sumitNonce request has bad 'nonce' parameter")
    | some nonce => x.s.submit x.w x.accountId nonce := by
  rw [processSubmitNonceReq_eq, x.accountId_eq]
  rfl

/-- Any text can come as the account, next to the nonce 0. -/
theorem exists_accountId (s : String) : ∃ x : SubmitNonceReq,
    (x.params "accountId").getD "" = s ∧
      Function.Injective (x.s.submitOf x.w x.params) ∧
      ∀ accountId, x.s.submitOf x.w x.params accountId ≠
        .write (x.s.jsonError 1013 "sumitNonce request has bad 'accountId' parameter") := by
  let req : SubmitNonceReq := ⟨⟨0, ⟨"", "", "", 11⟩⟩, openWallet, paramsOf s "0"⟩
  have hsubmit : ∀ accountId, req.s.submitOf req.w req.params accountId =
      req.s.submit openWallet accountId 0 := by
    intro accountId
    have hzero : stoull ((req.params "nonce").getD "") = some 0 := stoull_zero
    rw [submitOf, hzero]
  simp only [submit_openWallet] at hsubmit
  refine ⟨req, rfl, fun a b hab => ?_, fun accountId h => ?_⟩
  · rw [hsubmit, hsubmit, Outcome.enque.injEq, CalcDeadlineReq.mk.injEq] at hab
    exact hab.1
  · rw [hsubmit] at h
    cases h

/-- Any text can come as the nonce, for the account 0. -/
theorem exists_nonce (s : String) : ∃ x : SubmitNonceReqOf,
    (x.params "nonce").getD "" = s ∧
      Function.Injective (x.s.submit x.w x.accountId) ∧
      ∀ nonce, x.s.submit x.w x.accountId nonce ≠
        .write (x.s.jsonError 1012 "sumitNonce request has bad 'nonce' parameter") := by
  refine ⟨⟨⟨⟨0, ⟨"", "", "", 11⟩⟩, openWallet, paramsOf "0" s⟩, 0, stoull_zero⟩, rfl,
    fun a b hab => ?_, fun nonce h => ?_⟩
  · rw [submit_openWallet, submit_openWallet, Outcome.enque.injEq, CalcDeadlineReq.mk.injEq] at hab
    exact hab.2.1
  · rw [submit_openWallet] at h
    cases h

end Session

namespace NumberSite

/-- The account of a request. -/
def accountId : NumberSite where
  Input := Session.SubmitNonceReq
  Result := Session.Outcome
  text x := (x.params "accountId").getD ""
  code x := x.s.processSubmitNonceReq x.w x.params
  value x := x.s.submitOf x.w x.params
  error x := .write (x.s.jsonError 1013 "sumitNonce request has bad 'accountId' parameter")
  code_eq x := Session.processSubmitNonceReq_eq x.s x.w x.params
  exists_input := Session.exists_accountId

/-- The nonce of a request, whose account has been read. -/
def nonce : NumberSite where
  Input := Session.SubmitNonceReqOf
  Result := Session.Outcome
  text x := (x.params "nonce").getD ""
  code x := x.s.processSubmitNonceReq x.w x.params
  value x := x.s.submit x.w x.accountId
  error x := .write (x.s.jsonError 1012 "sumitNonce request has bad 'nonce' parameter")
  code_eq := Session.nonce_code_eq
  exists_input := Session.exists_nonce

end NumberSite

/-! ## Responses -/

namespace Wallet

/-- A response that passes the checks of members and types, and what it meets. -/
structure MiningResponse where
  parse : String → Option Json
  H : List UInt8 → Vector UInt8 32
  mem : Memory
  w : Wallet
  t : Transfer
  gensig : String
  height : String
  baseTarget : String
  hasStrings : MiningInfo.HasStrings parse (w.getMiningInfo t).1 gensig height baseTarget

namespace MiningResponse

/-- The mining info of the response, or what is logged, and what `refresh_block` does. -/
def refresh (x : MiningResponse) : Except String MiningInfo × Bool × Wallet :=
  (MiningInfo.ofResponse x.parse (x.w.getMiningInfo x.t).1,
    x.w.refreshBlock x.parse x.H x.mem x.t)

/-- `std::stoull` has raised an exception. -/
def refused (x : MiningResponse) : Except String MiningInfo × Bool × Wallet :=
  (.error "parsing mining info: stoull", false, (x.w.getMiningInfo x.t).2)

/-- Both numbers have been read. -/
def taken (x : MiningResponse) (height baseTarget : UInt64) :
    Except String MiningInfo × Bool × Wallet :=
  let info : MiningInfo := ⟨height, baseTarget, cString x.gensig⟩
  let w := (x.w.getMiningInfo x.t).2
  (.ok info, if w.currentBlock.height < height then (true, w.newBlock x.H x.mem info)
    else (false, w))

/-- The height has been read. -/
def ofHeight (x : MiningResponse) (height : UInt64) : Except String MiningInfo × Bool × Wallet :=
  match stoull x.baseTarget with
  | none => x.refused
  | some baseTarget => x.taken height baseTarget

/-- The base target can be read. -/
def ofBaseTarget (x : MiningResponse) (baseTarget : UInt64) :
    Except String MiningInfo × Bool × Wallet :=
  match stoull x.height with
  | none => x.refused
  | some height => x.taken height baseTarget

theorem refresh_eq (x : MiningResponse) : x.refresh = match stoull x.height with
    | none => x.refused
    | some height => x.ofHeight height := by
  rw [refresh, refreshBlock]
  dsimp only
  rw [MiningInfo.ofResponse_of_hasStrings x.hasStrings, MiningInfo.asNumber, MiningInfo.asNumber,
    stoull_cString, stoull_cString]
  cases stoull x.height with
  | none => rfl
  | some height =>
    dsimp only [ofHeight]
    cases stoull x.baseTarget with
    | none => rfl
    | some baseTarget => rfl

theorem refresh_eq_ofBaseTarget (x : MiningResponse) : x.refresh = match stoull x.baseTarget with
    | none => x.refused
    | some baseTarget => x.ofBaseTarget baseTarget := by
  rw [refresh_eq]
  simp only [ofHeight, ofBaseTarget]
  cases stoull x.height with
  | none =>
    cases stoull x.baseTarget with
    | none => rfl
    | some baseTarget => rfl
  | some height => rfl

theorem taken_inj {x : MiningResponse} {height height' baseTarget baseTarget' : UInt64}
    (h : x.taken height baseTarget = x.taken height' baseTarget') :
    height = height' ∧ baseTarget = baseTarget' := by
  have hinfo := Except.ok.inj (congrArg Prod.fst h)
  rw [MiningInfo.mk.injEq] at hinfo
  exact ⟨hinfo.1, hinfo.2.1⟩

theorem taken_ne (x : MiningResponse) (height baseTarget : UInt64) :
    x.taken height baseTarget ≠ x.refused := by
  intro h
  cases congrArg Prod.fst h

/-- A response with any two texts, to a new wallet. -/
def ofTexts (height baseTarget : String) : MiningResponse where
  parse _ := some (.object [("generationSignature", .string ""), ("height", .string height),
    ("baseTarget", .string baseTarget)])
  H _ := Vector.replicate 32 0
  mem := ⟨Vector.replicate 32 0, []⟩
  w := { recipQuery := "", deadlineLimit := 0 }
  t := ⟨[], true⟩
  gensig := ""
  height := height
  baseTarget := baseTarget
  hasStrings := ⟨rfl, rfl, rfl⟩

/-- Any text can come as the height, next to the base target 0. -/
theorem exists_height (s : String) : ∃ x : MiningResponse, x.height = s ∧
    Function.Injective x.ofHeight ∧ ∀ height, x.ofHeight height ≠ x.refused := by
  have htaken : ∀ height, (ofTexts s "0").ofHeight height = (ofTexts s "0").taken height 0 := by
    intro height
    have hzero : stoull (ofTexts s "0").baseTarget = some 0 := stoull_zero
    rw [ofHeight, hzero]
  refine ⟨ofTexts s "0", rfl, fun n n' h => ?_, fun n => ?_⟩
  · rw [htaken, htaken] at h
    exact (taken_inj h).1
  · rw [htaken]
    exact taken_ne _ _ _

/-- Any text can come as the base target, next to the height 0. -/
theorem exists_baseTarget (s : String) : ∃ x : MiningResponse, x.baseTarget = s ∧
    Function.Injective x.ofBaseTarget ∧ ∀ baseTarget, x.ofBaseTarget baseTarget ≠ x.refused := by
  have htaken : ∀ baseTarget,
      (ofTexts "0" s).ofBaseTarget baseTarget = (ofTexts "0" s).taken 0 baseTarget := by
    intro baseTarget
    have hzero : stoull (ofTexts "0" s).height = some 0 := stoull_zero
    rw [ofBaseTarget, hzero]
  refine ⟨ofTexts "0" s, rfl, fun n n' h => ?_, fun n => ?_⟩
  · rw [htaken, htaken] at h
    exact (taken_inj h).2
  · rw [htaken]
    exact taken_ne _ _ _

end MiningResponse

end Wallet

namespace NumberSite

/-- The height in a response. -/
def height : NumberSite where
  Input := Wallet.MiningResponse
  Result := Except String MiningInfo × Bool × Wallet
  text x := x.height
  code x := x.refresh
  value x := x.ofHeight
  error x := x.refused
  code_eq := Wallet.MiningResponse.refresh_eq
  exists_input := Wallet.MiningResponse.exists_height

/-- The base target in a response. -/
def baseTarget : NumberSite where
  Input := Wallet.MiningResponse
  Result := Except String MiningInfo × Bool × Wallet
  text x := x.baseTarget
  code x := x.refresh
  value x := x.ofBaseTarget
  error x := x.refused
  code_eq := Wallet.MiningResponse.refresh_eq_ofBaseTarget
  exists_input := Wallet.MiningResponse.exists_baseTarget

end NumberSite

/-! ## Pools -/

namespace Config

/-- A member of `poolIdToAddress` in a document, and the pools that come before it. -/
structure PoolMember where
  document : List (String × Json)
  before : List (String × Json)
  name : String
  addr : String
  after : List (String × Json)
  pools : List (UInt64 × String)
  lookup_eq : document.lookup "poolIdToAddress" =
    some (.object (before ++ (name, .string addr) :: after))
  pools_eq : readPools before [] = some pools

theorem readPools_append (before after : List (String × Json)) (pools : List (UInt64 × String)) :
    readPools (before ++ after) pools = (readPools before pools).bind (readPools after) := by
  induction before generalizing pools with
  | nil => rfl
  | cons member before ih =>
    obtain ⟨name, value⟩ := member
    cases value with
    | string addr =>
      rw [List.cons_append, readPools, readPools]
      cases stoull (cString name) with
      | none => rfl
      | some poolId => exact ih _
    | _ => rfl

theorem PoolMember.poolIdToAddress_eq (x : PoolMember) :
    poolIdToAddress (some (.object x.document)) = match stoull x.name with
      | none => none
      | some poolId => readPools x.after (setAddr poolId (cString x.addr) x.pools) := by
  rw [poolIdToAddress, x.lookup_eq]
  dsimp only
  rw [readPools_append, x.pools_eq, Option.bind_some, readPools, stoull_cString]
  cases stoull x.name with
  | none => rfl
  | some poolId => rfl

/-- Any text can come as the name of a member, alone in its document. -/
theorem PoolMember.exists_name (s : String) : ∃ x : PoolMember, x.name = s ∧
    Function.Injective
      (fun poolId => readPools x.after (setAddr poolId (cString x.addr) x.pools)) ∧
    ∀ poolId, readPools x.after (setAddr poolId (cString x.addr) x.pools) ≠ none := by
  refine ⟨⟨[("poolIdToAddress", .object [(s, .string "")])], [], s, "", [], [], rfl, rfl⟩, rfl,
    fun a b hab => ?_, fun poolId => Option.some_ne_none _⟩
  have hpools := Option.some.inj hab
  exact congrArg Prod.fst (List.cons.inj hpools).1

end Config

/-- The number of a pool. -/
def NumberSite.poolId : NumberSite where
  Input := Config.PoolMember
  Result := Option (List (UInt64 × String))
  text x := x.name
  code x := Config.poolIdToAddress (some (.object x.document))
  value x poolId := Config.readPools x.after (Config.setAddr poolId (cString x.addr) x.pools)
  error _ := none
  code_eq := Config.PoolMember.poolIdToAddress_eq
  exists_input := Config.PoolMember.exists_name

/-! ## All places -/

/-- The numbers that come from outside. -/
inductive Number
  | accountId
  | nonce
  | height
  | baseTarget
  | poolId
  deriving DecidableEq

namespace Number

/-- Where the number is read. -/
def site : Number → NumberSite
  | accountId => .accountId
  | nonce => .nonce
  | height => .height
  | baseTarget => .baseTarget
  | poolId => .poolId

/-- **Numbers are taken from numerals below `2 ^ 64`, and from no other text**, if and only if
    the text is not such a numeral with blanks or a sign before it or anything after it; and no
    two numerals without leading zeros are ever taken for one number. -/
theorem exact_iff (n : Number) :
    (∀ s, n.site.Exact s ↔ ¬Decorated s) ∧
      ∀ s t v, Canonical s → Canonical t → n.site.Takes s v → n.site.Takes t v → s = t :=
  ⟨n.site.exact_iff_not_decorated, fun _ _ _ hsc htc hs ht => hs.eq ht hsc htc⟩

/-- The account `12` is taken as 12. -/
theorem exact_twelve : accountId.site.Exact "12" := by
  have hdigits : ∀ c ∈ "12".toList, c.isDigit = true := by
    simp [Char.isDigit]
  exact ((exact_iff accountId).1 "12").mpr fun h => h.not_forall_isDigit hdigits

/-- The account `-1` is taken, as 18446744073709551615. -/
theorem not_exact : ¬∀ n : Number, ∀ s, n.site.Exact s := by
  intro h
  have hread : stoull "-1" = some 18446744073709551615 := by decide +kernel
  have hdecimal := ((h accountId "-1").1 _).mp (accountId.site.takes_iff.mpr hread)
  exact absurd (hdecimal.2.1 '-' (by simp)) (by decide)

end Number

end BurstPoolNode

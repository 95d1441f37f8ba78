import BurstPoolNode.Burstmath
import BurstPoolNode.Json

/-!
# The wallet

`Wallet.cpp` and `Wallet.hpp`: the current block and the mining info built from
it, refreshed from the responses of the wallet's HTTP interface
(`Wallet.refreshBlock`), and the miners whose reward recipient is one of the
node's pools, read from the wallet's database (`Wallet.cacheMiners`).

Outside of it are the JSON parser (`parse`), the Shabal hash (`H`), the
transfers of curl (`Transfer`), the result sets of the database (`ResultSet`)
and what memory holds where the code reads before writing (`Memory`). Log
lines, sleeping and the connection to the database are left out.
-/

namespace BurstPoolNode

/-! ## Mining info -/

/-- What `refresh_block` takes out of a response. -/
structure MiningInfo where
  height : UInt64
  baseTarget : UInt64
  generationSignature : String
  deriving DecidableEq

namespace MiningInfo

/-- `document.IsObject()`. -/
def asObject (document : Option Json) : Except String (List (String × Json)) :=
  match document with
  | some (.object members) => return members
  | _ => throw "parsing mining info: is not an object"

/-- `document.HasMember(name)`, the first member of the name. -/
def member (members : List (String × Json)) (name missing : String) : Except String Json :=
  match members.lookup name with
  | some value => return value
  | none => throw missing

/-- `document[..].IsString()` and `GetString()`. -/
def asString (value : Json) (notString : String) : Except String String :=
  match value with
  | .string s => return cString s
  | _ => throw notString

/-- `std::stoull`, whose exceptions say no more than its name. -/
def asNumber (s : String) : Except String UInt64 :=
  match stoull s with
  | some n => return n
  | none => throw "parsing mining info: stoull"

/-- The first half of `refresh_block`: the mining info of a response, or what is
    logged. -/
def ofResponse (parse : String → Option Json) (miningInfo : String) : Except String MiningInfo := do
  let members ← asObject (parse (cString miningInfo))
  let gensig ← member members "generationSignature"
    "parsing mining info: missing generation signature"
  let height ← member members "height" "parsing mining info: missing height"
  let baseTarget ← member members "baseTarget" "parsing mining info: base target"
  let gensig ← asString gensig "parsing mining info: generation signature is not a string"
  let height ← asString height "parsing mining info: height is not a string"
  let baseTarget ← asString baseTarget "parsing mining info: base target is not a string"
  return ⟨← asNumber height, ← asNumber baseTarget, gensig⟩

end MiningInfo

/-! ## State -/

/-- A block. As members of a static object, `scoop` and `gensig` start as zeros too. -/
structure Block where
  height : UInt64 := 0
  baseTarget : UInt64 := 0
  scoop : UInt32 := 0
  gensig : Vector UInt8 32 := Vector.replicate 32 0
  deriving DecidableEq

/-- The round of a miner. `mu` is the validation that holds its lock. -/
structure MinerRound where
  mu : Option ℕ := none
  deadline : UInt64
  height : UInt64
  recipId : UInt64
  deriving DecidableEq

/-- `miners_`: the address of the round of each account, and the rounds at the
    addresses up to `next`. -/
structure Miners where
  table : UInt64 → Option ℕ := fun _ => none
  rounds : ℕ → MinerRound := fun _ => ⟨none, 0, 0, 0⟩
  next : ℕ := 0

/-- The wallet. -/
structure Wallet where
  currentBlock : Block := {}
  cacheIdx : ℕ := 0
  miningInfo0 : String := ""
  miningInfo1 : String := ""
  recipQuery : String
  miners : Miners := {}
  miningInfoRes : String := ""
  deadlineLimit : UInt64

/-- The settings of the node used here; `poolIdToAddr` is in the order of its keys. -/
structure Config where
  deadlineLimit : UInt64
  poolIdToAddr : List (UInt64 × String)
  poc2StartHeight : UInt64

/-- What `curl_easy_perform` does: the chunks it passes to `write_cb`, and whether it
    succeeds. -/
structure Transfer where
  chunks : List String
  ok : Bool

/-- What memory holds that `refresh_block` has not written: the local array for the
    generation signature, and what follows the terminator of its text. -/
structure Memory where
  gensig : Vector UInt8 32
  past : List Char

/-- What executing a query gives: the rows of account and recipient, and whether an
    exception is raised after them. -/
structure ResultSet where
  rows : List (UInt64 × UInt64)
  raises : Bool

/-! ## Miners -/

namespace Miners

/-- `get_reward_recipient`. -/
def getRewardRecipient (m : Miners) (accountId : UInt64) : UInt64 :=
  match m.table accountId with
  | none => 0
  | some p => (m.rounds p).recipId

/-- `get_miner_round`. -/
def getMinerRound (m : Miners) (accountId : UInt64) : Option ℕ := m.table accountId

/-- The round of an account that is in the table, reset (with its lock held), or a new
    one, for a row of the result set. -/
def cacheRow (m : Miners) (height accountId recipId : UInt64) : ℕ × Miners :=
  match m.table accountId with
  | none =>
    (m.next, { m with
      rounds := Function.update m.rounds m.next
        { deadline := 0xFFFFFFFFFFFFFFFF, height := height, recipId := recipId }
      next := m.next + 1 })
  | some p =>
    (p, { m with
      rounds := Function.update m.rounds p
        { m.rounds p with deadline := 0xFFFFFFFFFFFFFFFF, height := height, recipId := recipId } })

/-- The loop of `cache_miners` over the rows. -/
def cacheRows (height : UInt64) :
    List (UInt64 × UInt64) → (UInt64 → Option ℕ) → Miners → Miners
  | [], _, m => m
  | (accountId, recipId) :: rows, newMiners, m =>
    let (p, m) := m.cacheRow height accountId recipId
    let newMiners := Function.update newMiners accountId (some p)
    -- The table is replaced at every row, not after the last one.
    cacheRows height rows newMiners { m with table := newMiners }

/-- `cache_miners`, and whether it returns (or raises an exception). -/
def cacheMiners (m : Miners) (height : UInt64) (res : Option ResultSet) : Option Unit × Miners :=
  match res with
  | none => (none, m)
  | some res =>
    (if res.raises then none else some (), cacheRows height res.rows (fun _ => none) m)

/-! ### What caching the miners leaves -/

/-- Every account has a round of its own, at the start of a block of the height `height`,
    and no lock is held. -/
structure Cached (height : UInt64) (m : Miners) : Prop where
  free : ∀ p, (m.rounds p).mu = none
  deadline_eq : ∀ a p, m.table a = some p → (m.rounds p).deadline = 0xFFFFFFFFFFFFFFFF
  height_eq : ∀ a p, m.table a = some p → (m.rounds p).height = height
  lt_next : ∀ a p, m.table a = some p → p < m.next
  injective : ∀ a b p, m.table a = some p → m.table b = some p → a = b

theorem cached_empty (height : UInt64) : Cached height {} := by
  refine ⟨fun p => rfl, ?_, ?_, ?_, ?_⟩
  all_goals
    intro a
    simp

/-- A row gives its account a round of its own. -/
theorem Cached.cacheRow {height : UInt64} {m : Miners} (h : Cached height m)
    (accountId recipId : UInt64) :
    Cached height
      { (m.cacheRow height accountId recipId).2 with
        table := Function.update m.table accountId
          (some (m.cacheRow height accountId recipId).1) } := by
  obtain ⟨hfree, hdeadline, hheight, hlt, hinj⟩ := h
  rw [Miners.cacheRow]
  cases ht : m.table accountId with
  | none => constructor <;> grind [Function.update_apply]
  | some q => constructor <;> grind [Function.update_apply]

theorem Cached.cacheRows {height : UInt64} {m : Miners} (h : Cached height m)
    (rows : List (UInt64 × UInt64)) : Cached height (Miners.cacheRows height rows m.table m) := by
  induction rows generalizing m with
  | nil => exact h
  | cons row rows ih => exact ih (h.cacheRow row.1 row.2)

/-- What the constructor's call of `cache_miners` leaves. -/
theorem cached_cacheMiners {height : UInt64} {res : Option ResultSet} {m : Miners}
    (h : cacheMiners {} height res = (some (), m)) : Cached height m := by
  cases res with
  | none => cases h
  | some res =>
    rw [cacheMiners, Prod.mk.injEq] at h
    rw [← h.2]
    exact (cached_empty height).cacheRows res.rows

end Miners

/-! ## The wallet -/

namespace Wallet

/-- `get_mining_info`: the response, which is empty when the transfer fails. -/
def getMiningInfo (w : Wallet) (t : Transfer) : String × Wallet :=
  let miningInfoRes := w.miningInfoRes ++ String.join t.chunks
  if t.ok then
    (miningInfoRes, { w with miningInfoRes := "" })
  else
    ("", { w with miningInfoRes := miningInfoRes })

/-- The loop of `sscanf`s over the text of a generation signature. -/
def decodeGensig (mem : Memory) (gensigStr : String) : Vector UInt8 32 :=
  Vector.ofFn fun i =>
    (scanHex2 ((gensigStr.toList ++ nul :: mem.past).drop (2 * i))).getD mem.gensig[i]

/-- The mining info for the miners. -/
def adaptedMiningInfo (deadlineLimit : UInt64) (info : MiningInfo) : String :=
  "\x7b\"generationSignature\":\"" ++ info.generationSignature ++ "\"," ++
    "\"baseTarget\":\"" ++ toDecimal info.baseTarget ++ "\"," ++
    "\"height\":\"" ++ toDecimal info.height ++ "\"," ++
    "\"targetDeadline\":\"" ++ toDecimal deadlineLimit ++ "\"\x7d"

/-- The second half of `refresh_block`: a new block. -/
def newBlock (H : List UInt8 → Vector UInt8 32) (mem : Memory) (w : Wallet) (info : MiningInfo) :
    Wallet :=
  let gensig := decodeGensig mem info.generationSignature
  let currentBlock : Block :=
    { height := info.height
      baseTarget := info.baseTarget
      gensig := gensig
      scoop := Burstmath.calculateScoop H info.height gensig }
  let adapted := adaptedMiningInfo w.deadlineLimit info
  if w.cacheIdx = 0 then
    { w with currentBlock := currentBlock, miningInfo1 := adapted, cacheIdx := 1 }
  else
    { w with currentBlock := currentBlock, miningInfo0 := adapted, cacheIdx := 0 }

/-- `refresh_block`: whether there is a new block. -/
def refreshBlock (parse : String → Option Json) (H : List UInt8 → Vector UInt8 32) (mem : Memory)
    (w : Wallet) (t : Transfer) : Bool × Wallet :=
  let (miningInfo, w) := w.getMiningInfo t
  match MiningInfo.ofResponse parse miningInfo with
  | .error _ => (false, w)
  | .ok info =>
    if w.currentBlock.height < info.height then
      (true, w.newBlock H mem info)
    else
      (false, w)

/-- `get_current_block`. -/
def getCurrentBlock (w : Wallet) : Block := w.currentBlock

/-- `get_cached_mining_info`. -/
def getCachedMiningInfo (w : Wallet) : String :=
  if w.cacheIdx = 0 then w.miningInfo0 else w.miningInfo1

/-- The query for the miners of the pools. -/
def makeRecipQuery (poolIdToAddr : List (UInt64 × String)) : String :=
  let query := poolIdToAddr.foldl (fun q pool => q ++ "CAST(" ++ toDecimal pool.1 ++ " AS SIGNED),")
    ("SELECT CAST(account_id AS UNSIGNED), CAST(recip_id AS UNSIGNED) " ++
      "FROM reward_recip_assign WHERE recip_id IN (")
  -- The trailing comma is replaced.
  String.ofList (query.toList.dropLast ++ [')']) ++ " AND latest = 1"

/-- The constructor. An exception out of `cache_miners` leaves no wallet. -/
def construct (parse : String → Option Json) (H : List UInt8 → Vector UInt8 32) (mem : Memory)
    (db : String → Option ResultSet) (cfg : Config) (t : Transfer) : Option Wallet :=
  let w : Wallet :=
    { recipQuery := makeRecipQuery cfg.poolIdToAddr, deadlineLimit := cfg.deadlineLimit }
  let (_, w) := w.refreshBlock parse H mem t
  match w.miners.cacheMiners w.currentBlock.height (db w.recipQuery) with
  | (none, _) => none
  | (some (), miners) => some { w with miners := miners }

/-! ## What a refresh does -/

variable {parse : String → Option Json} {H : List UInt8 → Vector UInt8 32} {mem : Memory}
  {w : Wallet} {t : Transfer}

/-- The mining info of a new block in the response to a transfer, if it has one. -/
def newInfo (parse : String → Option Json) (w : Wallet) (t : Transfer) : Option MiningInfo :=
  match MiningInfo.ofResponse parse (w.getMiningInfo t).1 with
  | .error _ => none
  | .ok info => if w.currentBlock.height < info.height then some info else none

theorem getMiningInfo_snd : ∃ res, (w.getMiningInfo t).2 = { w with miningInfoRes := res } := by
  rw [getMiningInfo]
  split_ifs
  · exact ⟨_, rfl⟩
  · exact ⟨_, rfl⟩

/-- A refresh installs the new block of the response, or changes nothing but the receive
    buffer. -/
theorem refreshBlock_eq : w.refreshBlock parse H mem t =
    match w.newInfo parse t with
    | none => (false, (w.getMiningInfo t).2)
    | some info => (true, (w.getMiningInfo t).2.newBlock H mem info) := by
  obtain ⟨res, hres⟩ := getMiningInfo_snd (w := w) (t := t)
  rw [refreshBlock, newInfo]
  generalize w.getMiningInfo t = r at hres ⊢
  obtain ⟨miningInfo, _⟩ := r
  cases hres
  dsimp only
  cases MiningInfo.ofResponse parse miningInfo with
  | error e => rfl
  | ok info =>
    dsimp only
    split_ifs with h
    · rfl
    · rfl

theorem newBlock_eq (info : MiningInfo) :
    (w.newBlock H mem info).currentBlock.height = info.height ∧
      (w.newBlock H mem info).currentBlock.baseTarget = info.baseTarget ∧
      (w.newBlock H mem info).miners = w.miners ∧
      (w.newBlock H mem info).deadlineLimit = w.deadlineLimit ∧
      (w.newBlock H mem info).recipQuery = w.recipQuery := by
  rw [newBlock]
  split_ifs
  · exact ⟨rfl, rfl, rfl, rfl, rfl⟩
  · exact ⟨rfl, rfl, rfl, rfl, rfl⟩

/-- A refresh leaves the miners alone. -/
@[simp] theorem refreshBlock_miners : (w.refreshBlock parse H mem t).2.miners = w.miners := by
  obtain ⟨res, hres⟩ := getMiningInfo_snd (w := w) (t := t)
  rw [refreshBlock_eq]
  cases w.newInfo parse t with
  | none => rw [hres]
  | some info => exact (newBlock_eq info).2.2.1.trans (by rw [hres])

@[simp] theorem refreshBlock_deadlineLimit :
    (w.refreshBlock parse H mem t).2.deadlineLimit = w.deadlineLimit := by
  obtain ⟨res, hres⟩ := getMiningInfo_snd (w := w) (t := t)
  rw [refreshBlock_eq]
  cases w.newInfo parse t with
  | none => rw [hres]
  | some info => exact (newBlock_eq info).2.2.2.1.trans (by rw [hres])

@[simp] theorem refreshBlock_recipQuery :
    (w.refreshBlock parse H mem t).2.recipQuery = w.recipQuery := by
  obtain ⟨res, hres⟩ := getMiningInfo_snd (w := w) (t := t)
  rw [refreshBlock_eq]
  cases w.newInfo parse t with
  | none => rw [hres]
  | some info => exact (newBlock_eq info).2.2.2.2.trans (by rw [hres])

theorem refreshBlock_of_none (h : w.newInfo parse t = none) :
    (w.refreshBlock parse H mem t).2.currentBlock = w.currentBlock := by
  obtain ⟨res, hres⟩ := getMiningInfo_snd (w := w) (t := t)
  rw [refreshBlock_eq, h, hres]

theorem refreshBlock_of_some {info : MiningInfo} (h : w.newInfo parse t = some info) :
    (w.refreshBlock parse H mem t).2.currentBlock.height = info.height ∧
      (w.refreshBlock parse H mem t).2.currentBlock.baseTarget = info.baseTarget ∧
      w.currentBlock.height < info.height := by
  rw [refreshBlock_eq, h]
  refine ⟨(newBlock_eq info).1, (newBlock_eq info).2.1, ?_⟩
  rw [newInfo] at h
  split at h
  · cases h
  · split_ifs at h with hlt
    cases h
    exact hlt

/-- The constructor caches the miners for the block it starts with. -/
theorem construct_cacheMiners {db : String → Option ResultSet} {cfg : Config}
    (h : construct parse H mem db cfg t = some w) :
    Miners.cacheMiners {} w.currentBlock.height (db (makeRecipQuery cfg.poolIdToAddr)) =
      (some (), w.miners) := by
  rw [construct] at h
  have hminers := @refreshBlock_miners parse H mem
    { recipQuery := makeRecipQuery cfg.poolIdToAddr, deadlineLimit := cfg.deadlineLimit } t
  have hquery := @refreshBlock_recipQuery parse H mem
    { recipQuery := makeRecipQuery cfg.poolIdToAddr, deadlineLimit := cfg.deadlineLimit } t
  generalize refreshBlock parse H mem _ t = r at h hminers hquery
  obtain ⟨_, w'⟩ := r
  dsimp only at h hminers hquery
  rw [hminers, hquery] at h
  split at h
  · cases h
  · next hcache =>
    cases h
    exact hcache

theorem construct_cached {db : String → Option ResultSet} {cfg : Config}
    (h : construct parse H mem db cfg t = some w) : w.miners.Cached w.currentBlock.height :=
  Miners.cached_cacheMiners (construct_cacheMiners h)

end Wallet

end BurstPoolNode

import BurstPoolNode.System
import BurstPoolNode.Wallet

/-!
# Polling

The runs of the wallet: one refresh after the other, from the memory that a
static object starts with (`polling`). The constructor makes the first of them
(`construct_reachable`).

The receive buffer is shared by all polls, and emptied by those that succeed
only:

* `along_ownResponse_iff`: the polls of a run get their own responses, and
  leave the buffer empty, if and only if no transfer that fails has delivered
  anything.
-/

namespace BurstPoolNode.Wallet

/-- A refresh: what memory holds, and what the transfer does. -/
structure Poll where
  mem : Memory
  transfer : Transfer

/-- Nothing has been refreshed. -/
structure Fresh (w : Wallet) : Prop where
  currentBlock : w.currentBlock = {}
  cacheIdx : w.cacheIdx = 0
  miningInfo0 : w.miningInfo0 = ""
  miningInfo1 : w.miningInfo1 = ""
  miningInfoRes : w.miningInfoRes = ""

variable (parse : String → Option Json) (H : List UInt8 → Vector UInt8 32)

/-- The refreshes of the wallet. -/
def polling : System Wallet Poll where
  init := {w | w.Fresh}
  step w p := some (w.refreshBlock parse H p.mem p.transfer).2

variable {parse H} {w : Wallet} {p : Poll}

theorem step_polling : (polling parse H).step w p =
    some (w.refreshBlock parse H p.mem p.transfer).2 := rfl

/-- Every sequence of polls is a run. -/
theorem exists_exec_polling (w : Wallet) (ps : List Poll) :
    ∃ w', (polling parse H).exec w ps = some w' := by
  induction ps generalizing w with
  | nil => exact ⟨w, rfl⟩
  | cons p ps ih =>
    rw [System.exec_cons, step_polling, Option.bind_some]
    exact ih _

theorem newBlock_setMiners (mem : Memory) (info : MiningInfo) (miners : Miners) :
    { w.newBlock H mem info with miners := miners } =
      { w with miners := miners }.newBlock H mem info := by
  simp only [newBlock]
  split_ifs
  · rfl
  · rfl

theorem refreshBlock_setMiners (mem : Memory) (t : Transfer) (miners : Miners) :
    { (w.refreshBlock parse H mem t).2 with miners := miners } =
      ({ w with miners := miners }.refreshBlock parse H mem t).2 := by
  simp only [refreshBlock, getMiningInfo]
  split_ifs
  all_goals
    dsimp only
    cases MiningInfo.ofResponse parse _ with
    | error e => rfl
    | ok info =>
      dsimp only
      split_ifs
      · exact newBlock_setMiners ..
      · rfl

/-- The constructor makes the first refresh. -/
theorem construct_reachable {mem : Memory} {db : String → Option ResultSet} {cfg : Config}
    {t : Transfer} (h : construct parse H mem db cfg t = some w) :
    ∃ w₀, w₀.Fresh ∧ (polling parse H).step w₀ ⟨mem, t⟩ = some w := by
  rw [construct] at h
  dsimp only at h
  split at h
  · cases h
  · next miners hcache =>
    cases h
    let blank : Wallet :=
      { recipQuery := makeRecipQuery cfg.poolIdToAddr, deadlineLimit := cfg.deadlineLimit }
    refine ⟨{ blank with miners := miners }, ⟨rfl, rfl, rfl, rfl, rfl⟩, ?_⟩
    exact congrArg some (refreshBlock_setMiners (w := blank) mem t miners).symm

/-! ## The receive buffer -/

/-- A poll that succeeds returns the chunks of its own transfer; one that fails returns nothing,
    and leaves the receive buffer empty. -/
def OwnResponse (w : Wallet) (p : Poll) : Prop :=
  if p.transfer.ok then (w.getMiningInfo p.transfer).1 = String.join p.transfer.chunks
  else (w.getMiningInfo p.transfer).1 = "" ∧ (w.getMiningInfo p.transfer).2.miningInfoRes = ""

instance (w : Wallet) (p : Poll) : Decidable (w.OwnResponse p) :=
  inferInstanceAs (Decidable (if p.transfer.ok then
    (w.getMiningInfo p.transfer).1 = String.join p.transfer.chunks
  else (w.getMiningInfo p.transfer).1 = "" ∧ (w.getMiningInfo p.transfer).2.miningInfoRes = ""))

/-- The refresh touches the receive buffer in `get_mining_info` only. -/
theorem refreshBlock_miningInfoRes (mem : Memory) (t : Transfer) :
    (w.refreshBlock parse H mem t).2.miningInfoRes = (w.getMiningInfo t).2.miningInfoRes := by
  rw [refreshBlock_eq]
  cases w.newInfo parse t with
  | none => rfl
  | some info =>
    dsimp only
    rw [newBlock]
    split_ifs
    · rfl
    · rfl

theorem getMiningInfo_miningInfoRes (t : Transfer) : (w.getMiningInfo t).2.miningInfoRes =
    if t.ok then "" else w.miningInfoRes ++ String.join t.chunks := by
  rw [getMiningInfo]
  split_ifs
  · rfl
  · rfl

/-- With an empty buffer, a poll gets its own response unless it fails midway. -/
theorem ownResponse_iff (hw : w.miningInfoRes = "") :
    w.OwnResponse p ↔ (p.transfer.ok = false → String.join p.transfer.chunks = "") := by
  rw [OwnResponse, getMiningInfo, hw, String.empty_append]
  cases p.transfer.ok with
  | true => simp
  | false => simp

/-- **A poll sees only its own response** just as long as no transfer delivers something and
    fails: along a run from a wallet not refreshed before, every poll that succeeds returns the
    chunks of its own transfer, and every one that fails returns nothing and leaves the buffer
    empty, if and only if no transfer that fails has delivered anything. -/
theorem along_ownResponse_iff (hw : w ∈ (polling parse H).init) (ps : List Poll) :
    (polling parse H).Along OwnResponse w ps ↔
      ∀ p ∈ ps, p.transfer.ok = false → String.join p.transfer.chunks = "" := by
  have hbuffer : ∀ {w : Wallet}, w.miningInfoRes = "" →
      ((polling parse H).Along OwnResponse w ps ↔
        ∀ p ∈ ps, p.transfer.ok = false → String.join p.transfer.chunks = "") := by
    intro w hw
    induction ps generalizing w with
    | nil => simp [System.Along]
    | cons p ps ih =>
      rw [System.Along, ownResponse_iff hw, List.forall_mem_cons]
      refine and_congr_right fun hp => ?_
      -- The poll leaves the buffer empty.
      have hres : (w.refreshBlock parse H p.mem p.transfer).2.miningInfoRes = "" := by
        rw [refreshBlock_miningInfoRes, getMiningInfo_miningInfoRes, hw, String.empty_append]
        split_ifs with hok
        · rfl
        · exact hp (Bool.eq_false_iff.mpr hok)
      simp only [step_polling, Option.some.injEq, forall_eq']
      exact ih hres
  exact hbuffer hw.miningInfoRes

/-- A wallet not refreshed before. -/
def blank : Wallet := { recipQuery := "", deadlineLimit := 1000 }

theorem fresh_blank : blank.Fresh := ⟨rfl, rfl, rfl, rfl, rfl⟩

/-- A poll whose transfer delivers `chunks`. -/
def pollOf (chunks : List String) (ok : Bool) : Poll :=
  ⟨⟨Vector.replicate 32 0, []⟩, ⟨chunks, ok⟩⟩

/-- The mining info of the block 5, in two chunks. -/
def twoChunks : List String :=
  ["\x7b\"generationSignature\":\"" ++ String.ofList (List.replicate 64 'a') ++ "\",\"hei",
    "ght\":\"5\",\"baseTarget\":\"100\"\x7d"]

/-- A transfer that fails before it delivers anything, and one in two chunks. -/
theorem along_ownResponse_two :
    (polling Json.parse fun _ => Vector.replicate 32 0).Along OwnResponse blank
      [pollOf [] false, pollOf twoChunks true] ∧
    ((polling Json.parse fun _ => Vector.replicate 32 0).exec blank
      [pollOf [] false, pollOf twoChunks true]).map (fun w => w.currentBlock.height) = some 5 :=
  ⟨(along_ownResponse_iff fresh_blank _).mpr (by decide +kernel), by decide +kernel⟩

/-- A transfer that breaks midway, and a complete one after it. -/
theorem not_along_ownResponse :
    ¬∀ w ∈ (polling Json.parse fun _ => Vector.replicate 32 0).init, ∀ ps,
      (polling Json.parse fun _ => Vector.replicate 32 0).Along OwnResponse w ps := by
  intro h
  have hbroken := h blank fresh_blank [pollOf (twoChunks.take 1) false, pollOf twoChunks true]
  exact absurd (hbroken.2 _ rfl).1 (by decide +kernel)

end BurstPoolNode.Wallet

import BurstPoolNode.Wallet.Served

/-!
# Publishing a block

`refresh_block` as its accesses to what it shares with the sessions: it stores
the block (with the lock held), loads the index, assigns the string that the
index does not point at, and stores the other index. `get_cached_mining_info`
loads the index and copies a string, and takes no lock; `get_current_block`
copies the block with the lock held. One refresher and any number of readers
take these steps in any order (`publishing`); a refresher alone does what
`newBlock` does (`exec_refresh_alone`), and a reader alone what
`getCachedMiningInfo` does (`exec_read_alone`).

Blocks are numbered as they are accepted, and 0 is that none is.

* `Inv`: the strings hold the mining info of accepted blocks, the one that the
  index points at that of the last one published;
* `step_inv`: every step keeps it, since the string that a slow reader is about
  to copy can only be overwritten with that of a later block;
* `published_agree`: what readers and snapshots get.

In the code the lock is held until the refresher is done; here, it is released
after the block is stored, so that snapshots may come in between.
-/

namespace BurstPoolNode.Wallet

/-! ## Steps -/

/-- A response that is accepted, and what memory held then. -/
structure Accepted where
  mem : Memory
  info : MiningInfo

/-- Where `refresh_block` is after its check of the height, with its local variables. -/
inductive RefreshPc
  | idle
  | load (adapted : String)
  | assign (adapted : String) (i : ℕ)
  | store (i : ℕ)
  deriving DecidableEq

/-- Where a call of `get_cached_mining_info` is. When it has returned, `installed` is the
    number of the current block. -/
inductive ReadPc
  | load
  | copy (i : ℕ)
  | returned (result : String) (installed : ℕ)
  deriving DecidableEq

/-- A call of `get_cached_mining_info`. When it began, `began` was the number of the block that
    the index pointed at. -/
structure Reader where
  began : ℕ
  pc : ReadPc
  deriving DecidableEq

/-- The wallet, its refresher and its readers, with the blocks accepted, the number of those
    that have been published, and the snapshots taken. -/
structure Publishing where
  wallet : Wallet
  accepted : List Accepted := []
  published : ℕ := 0
  refresher : RefreshPc := .idle
  readers : List Reader := []
  snapshots : List Block := []

/-- The refresher accepts a response, or goes on; a new reader, or a step of the `i`-th; and a
    snapshot of the current block. -/
inductive Move
  | accept (a : Accepted)
  | refresh
  | call
  | read (i : ℕ)
  | snapshot

/-- The string that the index `i` stands for. -/
def miningInfo (w : Wallet) (i : ℕ) : String := if i = 0 then w.miningInfo0 else w.miningInfo1

/-- The block of an accepted response. -/
def Accepted.block (H : List UInt8 → Vector UInt8 32) (a : Accepted) : Block :=
  let gensig := decodeGensig a.mem a.info.generationSignature
  { height := a.info.height
    baseTarget := a.info.baseTarget
    gensig := gensig
    scoop := Burstmath.calculateScoop H a.info.height gensig }

/-- A step of the refresher. -/
def Publishing.refresh (s : Publishing) : Option Publishing :=
  match s.refresher with
  | .idle => none
  | .load adapted => some { s with refresher := .assign adapted s.wallet.cacheIdx }
  | .assign adapted i =>
    if i = 0 then
      some { s with wallet := { s.wallet with miningInfo1 := adapted }, refresher := .store 1 }
    else
      some { s with wallet := { s.wallet with miningInfo0 := adapted }, refresher := .store 0 }
  | .store i =>
    some { s with
      wallet := { s.wallet with cacheIdx := i }
      published := s.accepted.length
      refresher := .idle }

/-- A step of a reader: where it is after it. -/
def Reader.next (r : Reader) (w : Wallet) (installed : ℕ) : Option ReadPc :=
  match r.pc with
  | .load => some (.copy w.cacheIdx)
  | .copy i => some (.returned (w.miningInfo i) installed)
  | .returned _ _ => none

/-- Publishing blocks, from a wallet not refreshed before. -/
def publishing (H : List UInt8 → Vector UInt8 32) : System Publishing Move where
  init := {s | ∃ w, w.Fresh ∧ s = { wallet := w }}
  step s
    | .accept a =>
      if s.refresher = .idle ∧ s.wallet.currentBlock.height < a.info.height then
        some { s with
          wallet := { s.wallet with currentBlock := a.block H }
          accepted := s.accepted ++ [a]
          refresher := .load (adaptedMiningInfo s.wallet.deadlineLimit a.info) }
      else
        none
    | .refresh => s.refresh
    | .call => some { s with readers := s.readers ++ [⟨s.published, .load⟩] }
    | .read i => do
      let r ← s.readers[i]?
      let pc ← r.next s.wallet s.accepted.length
      return { s with readers := s.readers.set i { r with pc := pc } }
    | .snapshot => some { s with snapshots := s.snapshots ++ [s.wallet.getCurrentBlock] }

variable {H : List UInt8 → Vector UInt8 32} {s t : Publishing} {m : Move}

/-- The steps, by what they do. -/
inductive Publishing.Step (H : List UInt8 → Vector UInt8 32) (s : Publishing) :
    Move → Publishing → Prop
  | accept {a : Accepted} : s.refresher = .idle →
      s.wallet.currentBlock.height < a.info.height →
      Step H s (.accept a) { s with
        wallet := { s.wallet with currentBlock := a.block H }
        accepted := s.accepted ++ [a]
        refresher := .load (adaptedMiningInfo s.wallet.deadlineLimit a.info) }
  | load {adapted : String} : s.refresher = .load adapted →
      Step H s .refresh { s with refresher := .assign adapted s.wallet.cacheIdx }
  | assign1 {adapted : String} {i : ℕ} : s.refresher = .assign adapted i → i = 0 →
      Step H s .refresh { s with
        wallet := { s.wallet with miningInfo1 := adapted }
        refresher := .store 1 }
  | assign0 {adapted : String} {i : ℕ} : s.refresher = .assign adapted i → i ≠ 0 →
      Step H s .refresh { s with
        wallet := { s.wallet with miningInfo0 := adapted }
        refresher := .store 0 }
  | store {i : ℕ} : s.refresher = .store i →
      Step H s .refresh { s with
        wallet := { s.wallet with cacheIdx := i }
        published := s.accepted.length
        refresher := .idle }
  | call : Step H s .call { s with readers := s.readers ++ [⟨s.published, .load⟩] }
  | read {i : ℕ} {r : Reader} {pc : ReadPc} : s.readers[i]? = some r →
      r.next s.wallet s.accepted.length = some pc →
      Step H s (.read i) { s with readers := s.readers.set i { r with pc := pc } }
  | snapshot : Step H s .snapshot { s with snapshots := s.snapshots ++ [s.wallet.getCurrentBlock] }

theorem Publishing.step_cases (h : (publishing H).step s m = some t) : Publishing.Step H s m t := by
  cases m with
  | accept a =>
    simp only [publishing] at h
    split_ifs at h with haccept
    exact Option.some.inj h ▸ .accept haccept.1 haccept.2
  | refresh =>
    simp only [publishing, refresh] at h
    split at h
    · cases h
    · next hpc => exact Option.some.inj h ▸ .load hpc
    · next hpc =>
      split_ifs at h with hi
      · exact Option.some.inj h ▸ .assign1 hpc hi
      · exact Option.some.inj h ▸ .assign0 hpc hi
    · next hpc => exact Option.some.inj h ▸ .store hpc
  | call => exact Option.some.inj h ▸ .call
  | read i =>
    simp only [publishing, bind, Option.bind_eq_some_iff] at h
    obtain ⟨r, hr, pc, hpc, h⟩ := h
    exact Option.some.inj h ▸ .read hr hpc
  | snapshot => exact Option.some.inj h ▸ .snapshot

/-! ## The blocks by their numbers -/

/-- The block number `k`. -/
def blockAt (H : List UInt8 → Vector UInt8 32) (accepted : List Accepted) : ℕ → Block
  | 0 => {}
  | k + 1 => (accepted[k]?).elim {} (Accepted.block H)

/-- The mining info for the miners of the block number `k`. -/
def servedAt (deadlineLimit : UInt64) (accepted : List Accepted) : ℕ → String
  | 0 => ""
  | k + 1 => (accepted[k]?).elim "" fun a => adaptedMiningInfo deadlineLimit a.info

section Numbers

variable {accepted : List Accepted} {a : Accepted} {deadlineLimit : UInt64} {k : ℕ}

theorem blockAt_append (hk : k ≤ accepted.length) :
    blockAt H (accepted ++ [a]) k = blockAt H accepted k := by
  cases k with
  | zero => rfl
  | succ k => rw [blockAt, blockAt, List.getElem?_append_left hk]

theorem servedAt_append (hk : k ≤ accepted.length) :
    servedAt deadlineLimit (accepted ++ [a]) k = servedAt deadlineLimit accepted k := by
  cases k with
  | zero => rfl
  | succ k => rw [servedAt, servedAt, List.getElem?_append_left hk]

@[simp] theorem blockAt_last :
    blockAt H (accepted ++ [a]) (accepted.length + 1) = a.block H := by
  simp [blockAt]

@[simp] theorem servedAt_last : servedAt deadlineLimit (accepted ++ [a]) (accepted.length + 1) =
    adaptedMiningInfo deadlineLimit a.info := by
  simp [servedAt]

end Numbers

/-! ## The invariant -/

/-- What a reader has seen is the mining info of a block that was published when it began, or
    of one accepted since. -/
def Reader.Inv (r : Reader) (s : Publishing) : Prop :=
  r.began ≤ s.published ∧
  match r.pc with
  | .load => True
  | .copy i => ∃ k, r.began ≤ k ∧ k ≤ s.accepted.length ∧
      s.wallet.miningInfo i = servedAt s.wallet.deadlineLimit s.accepted k
  | .returned result installed => installed ≤ s.accepted.length ∧ ∃ k, r.began ≤ k ∧
      k ≤ installed ∧ result = servedAt s.wallet.deadlineLimit s.accepted k

/-- The refresher holds the mining info of the last block, or has assigned it to the string
    that the index does not point at. -/
def RefreshPc.Inv (pc : RefreshPc) (s : Publishing) : Prop :=
  match pc with
  | .idle => True
  | .load adapted => adapted = servedAt s.wallet.deadlineLimit s.accepted s.accepted.length
  | .assign adapted i => i = s.wallet.cacheIdx ∧
      adapted = servedAt s.wallet.deadlineLimit s.accepted s.accepted.length
  | .store i =>
      s.wallet.miningInfo i = servedAt s.wallet.deadlineLimit s.accepted s.accepted.length

/-- The invariant. -/
structure Publishing.Inv (H : List UInt8 → Vector UInt8 32) (s : Publishing) : Prop where
  currentBlock : s.wallet.currentBlock = blockAt H s.accepted s.accepted.length
  height_le : ∀ k ≤ s.accepted.length,
    (blockAt H s.accepted k).height ≤ s.wallet.currentBlock.height
  published_le : s.published ≤ s.accepted.length
  served : s.wallet.miningInfo s.wallet.cacheIdx =
    servedAt s.wallet.deadlineLimit s.accepted s.published
  refresher : s.refresher.Inv s
  readers : ∀ r ∈ s.readers, r.Inv s
  snapshots : ∀ block ∈ s.snapshots, ∃ k ≤ s.accepted.length, block = blockAt H s.accepted k

theorem Publishing.init_inv (h : s ∈ (publishing H).init) : s.Inv H := by
  obtain ⟨w, hw, rfl⟩ := h
  refine ⟨hw.currentBlock, fun k hk => ?_, le_rfl, ?_, trivial, nofun, nofun⟩
  · obtain rfl := Nat.le_zero.mp hk
    rw [hw.currentBlock]
    exact UInt64.le_refl _
  · dsimp only
    rw [miningInfo, hw.cacheIdx, if_pos rfl, hw.miningInfo0]
    rfl

/-- What a reader is about to copy may change to the mining info of the last block. -/
theorem Reader.Inv.mono {r : Reader} (h : r.Inv s) (hpublished : s.published ≤ t.published)
    (hlimit : t.wallet.deadlineLimit = s.wallet.deadlineLimit)
    (haccepted : t.accepted = s.accepted)
    (hcopy : ∀ i, t.wallet.miningInfo i = s.wallet.miningInfo i ∨
      t.wallet.miningInfo i = servedAt s.wallet.deadlineLimit s.accepted s.accepted.length)
    (hle : s.published ≤ s.accepted.length) : r.Inv t := by
  obtain ⟨hbegan, hpc⟩ := h
  refine ⟨hbegan.trans hpublished, ?_⟩
  cases hr : r.pc with
  | load => trivial
  | copy i =>
    rw [hr] at hpc
    obtain ⟨k, hk, hkle, hinfo⟩ := hpc
    simp only [haccepted, hlimit]
    rcases hcopy i with heq | heq
    · exact ⟨k, hk, hkle, heq.trans hinfo⟩
    · exact ⟨_, hbegan.trans hle, le_rfl, heq⟩
  | returned result installed =>
    rw [hr] at hpc
    simpa only [haccepted, hlimit] using hpc

/-- The blocks keep their numbers when another one is accepted. -/
theorem Reader.Inv.accept {r : Reader} (h : r.Inv s) {a : Accepted} {b : Block} {pc : RefreshPc} :
    r.Inv { s with
      wallet := { s.wallet with currentBlock := b }
      accepted := s.accepted ++ [a]
      refresher := pc } := by
  obtain ⟨hbegan, hpc⟩ := h
  refine ⟨hbegan, ?_⟩
  dsimp only
  rw [List.length_append, List.length_singleton]
  cases hr : r.pc with
  | load => trivial
  | copy i =>
    rw [hr] at hpc
    obtain ⟨k, hk, hkle, hinfo⟩ := hpc
    exact ⟨k, hk, hkle.trans (Nat.le_succ _), hinfo.trans (servedAt_append hkle).symm⟩
  | returned result installed =>
    rw [hr] at hpc
    obtain ⟨hle, k, hk, hki, hresult⟩ := hpc
    exact ⟨hle.trans (Nat.le_succ _), k, hk, hki,
      hresult.trans (servedAt_append (hki.trans hle)).symm⟩

theorem Publishing.step_inv (h : s.Inv H) (hst : (publishing H).step s m = some t) : t.Inv H := by
  obtain ⟨hblock, hheight, hpublished, hserved, hrefresher, hreaders, hsnapshots⟩ := h
  cases step_cases hst with
  | accept hidle hlt =>
    rename_i a
    have hlen : (s.accepted ++ [a]).length = s.accepted.length + 1 := List.length_append
    refine ⟨?_, fun k hk => ?_, ?_, ?_, ?_, fun r hr => (hreaders r hr).accept, fun b hb => ?_⟩
    · rw [hlen, blockAt_last]
    · rw [hlen] at hk
      rcases Nat.lt_succ_iff_lt_or_eq.mp (Nat.lt_succ_of_le hk) with hk | rfl
      · rw [blockAt_append (Nat.lt_succ_iff.mp hk)]
        exact UInt64.le_of_lt (UInt64.lt_of_le_of_lt (hheight k (Nat.lt_succ_iff.mp hk)) hlt)
      · rw [blockAt_last]
        exact UInt64.le_refl _
    · exact hpublished.trans (hlen ▸ Nat.le_succ _)
    · exact hserved.trans (servedAt_append hpublished).symm
    · dsimp only [RefreshPc.Inv]
      rw [hlen, servedAt_last]
    · obtain ⟨k, hk, hb⟩ := hsnapshots b hb
      exact ⟨k, hk.trans (hlen ▸ Nat.le_succ _), hb.trans (blockAt_append hk).symm⟩
  | load hpc =>
    rw [hpc] at hrefresher
    exact ⟨hblock, hheight, hpublished, hserved, ⟨rfl, hrefresher⟩, hreaders, hsnapshots⟩
  | assign1 hpc hi =>
    rw [hpc] at hrefresher
    obtain ⟨hidx, hadapted⟩ := hrefresher
    rw [miningInfo, ← hidx, if_pos hi] at hserved
    refine ⟨hblock, hheight, hpublished, ?_, hadapted, fun r hr => ?_, hsnapshots⟩
    · rw [miningInfo, ← hidx, if_pos hi]
      exact hserved
    · refine (hreaders r hr).mono le_rfl rfl rfl (fun j => ?_) hpublished
      simp only [miningInfo]
      split_ifs with hj
      · exact .inl rfl
      · exact .inr hadapted
  | assign0 hpc hi =>
    rw [hpc] at hrefresher
    obtain ⟨hidx, hadapted⟩ := hrefresher
    rw [miningInfo, ← hidx, if_neg hi] at hserved
    refine ⟨hblock, hheight, hpublished, ?_, hadapted, fun r hr => ?_, hsnapshots⟩
    · rw [miningInfo, ← hidx, if_neg hi]
      exact hserved
    · refine (hreaders r hr).mono le_rfl rfl rfl (fun j => ?_) hpublished
      simp only [miningInfo]
      split_ifs with hj
      · exact .inr hadapted
      · exact .inl rfl
  | store hpc =>
    rw [hpc] at hrefresher
    refine ⟨hblock, hheight, le_rfl, hrefresher, trivial, fun r hr => ?_, hsnapshots⟩
    exact (hreaders r hr).mono hpublished rfl rfl (fun j => .inl rfl) hpublished
  | call =>
    refine ⟨hblock, hheight, hpublished, hserved, hrefresher, fun r hr => ?_, hsnapshots⟩
    rcases List.mem_append.mp hr with hr | hr
    · exact hreaders r hr
    · obtain rfl := List.mem_singleton.mp hr
      exact ⟨le_rfl, trivial⟩
  | @read i r pc hr hnext =>
    have hr' := hreaders r (List.mem_of_getElem? hr)
    refine ⟨hblock, hheight, hpublished, hserved, hrefresher, fun r' hmem => ?_, hsnapshots⟩
    rcases List.mem_or_eq_of_mem_set hmem with hmem | rfl
    · exact hreaders r' hmem
    · obtain ⟨hbegan, hpc⟩ := hr'
      refine ⟨hbegan, ?_⟩
      rw [Reader.next] at hnext
      split at hnext
      · -- The index points at the block that was published last.
        obtain rfl := Option.some.inj hnext
        exact ⟨s.published, hbegan, hpublished, hserved⟩
      · next hcopy =>
        rw [hcopy] at hpc
        obtain rfl := Option.some.inj hnext
        exact ⟨le_rfl, hpc⟩
      · cases hnext
  | snapshot =>
    refine ⟨hblock, hheight, hpublished, hserved, hrefresher, hreaders, fun b hb => ?_⟩
    rcases List.mem_append.mp hb with hb | hb
    · exact hsnapshots b hb
    · exact ⟨_, le_rfl, (List.mem_singleton.mp hb).trans hblock⟩

theorem Publishing.reachable_inv (h : (publishing H).Reachable System.Any s) : s.Inv H :=
  h.invariant (fun _ => init_inv) fun _ _ _ h _ hst => step_inv h hst

/-! ## Readers and snapshots -/

/-- The mining info of a block has its height. -/
theorem height_of_servedAt {deadlineLimit : UInt64} {accepted : List Accepted} {k : ℕ}
    {info : MiningInfo} (hk : k ≤ accepted.length)
    (h : servedAt deadlineLimit accepted k = adaptedMiningInfo deadlineLimit info) :
    (blockAt H accepted k).height = info.height := by
  cases k with
  | zero =>
    have hlist := congrArg String.toList h
    rw [toList_adaptedMiningInfo] at hlist
    cases hlist
  | succ k =>
    rw [servedAt, List.getElem?_eq_getElem hk] at h
    rw [blockAt, List.getElem?_eq_getElem hk, ← adaptedMiningInfo_injective deadlineLimit h]
    rfl

theorem Publishing.step_snapshots (hst : (publishing H).step s m = some t) :
    s.wallet.currentBlock.height ≤ t.wallet.currentBlock.height ∧
      ∃ more, t.snapshots = s.snapshots ++ more ∧
        ∀ block ∈ more, s.wallet.currentBlock.height ≤ block.height := by
  cases step_cases hst with
  | accept _ hlt => exact ⟨UInt64.le_of_lt hlt, [], (List.append_nil _).symm, nofun⟩
  | snapshot =>
    refine ⟨UInt64.le_refl _, _, rfl, fun block hblock => ?_⟩
    rw [List.mem_singleton.mp hblock]
    exact UInt64.le_refl _
  | _ => exact ⟨UInt64.le_refl _, [], (List.append_nil _).symm, nofun⟩

/-- Later snapshots are of the current block or a higher one. -/
theorem Publishing.exec_snapshots {as : List Move} (hst : (publishing H).exec s as = some t) :
    ∃ more, t.snapshots = s.snapshots ++ more ∧
      ∀ block ∈ more, s.wallet.currentBlock.height ≤ block.height := by
  induction as generalizing s with
  | nil =>
    obtain rfl := Option.some.inj hst
    exact ⟨[], (List.append_nil _).symm, nofun⟩
  | cons a as ih =>
    rw [System.exec_cons, Option.bind_eq_some_iff] at hst
    obtain ⟨u, hu, hst⟩ := hst
    obtain ⟨hle, more₁, h₁, hmore₁⟩ := step_snapshots hu
    obtain ⟨more₂, h₂, hmore₂⟩ := ih hst
    refine ⟨more₁ ++ more₂, by rw [h₂, h₁, List.append_assoc], fun block hblock => ?_⟩
    rcases List.mem_append.mp hblock with hblock | hblock
    · exact hmore₁ block hblock
    · exact UInt64.le_trans hle (hmore₂ block hblock)

/-- **Mining info and validation agree across races.** In every state that one refresher and any
    number of readers and snapshots can reach, the current block and the string that the index
    points at are those of the last block accepted and of the last one published, and
    * a reader that has returned got the mining info of a block not older than the one published
      when it began, and not newer than the current one when it returned;
    * after it got that of a block, no snapshot is of a lower block;
    * every snapshot is of one accepted block, or of the initial one. -/
theorem published_agree (h : (publishing H).Reachable System.Any s) :
    (s.wallet.getCurrentBlock = blockAt H s.accepted s.accepted.length ∧
      s.wallet.getCachedMiningInfo = servedAt s.wallet.deadlineLimit s.accepted s.published) ∧
    (∀ r ∈ s.readers, ∀ result installed, r.pc = .returned result installed →
      ∃ k, r.began ≤ k ∧ k ≤ installed ∧
        result = servedAt s.wallet.deadlineLimit s.accepted k) ∧
    (∀ r ∈ s.readers, ∀ result installed info, r.pc = .returned result installed →
      result = adaptedMiningInfo s.wallet.deadlineLimit info →
      ∀ as t, (publishing H).exec s as = some t →
        ∀ block ∈ t.snapshots.drop s.snapshots.length, info.height ≤ block.height) ∧
    ∀ block ∈ s.snapshots, ∃ k ≤ s.accepted.length, block = blockAt H s.accepted k := by
  have hinv := Publishing.reachable_inv h
  have hreturned : ∀ r ∈ s.readers, ∀ result installed, r.pc = .returned result installed →
      installed ≤ s.accepted.length ∧ ∃ k, r.began ≤ k ∧ k ≤ installed ∧
        result = servedAt s.wallet.deadlineLimit s.accepted k := by
    intro r hr result installed hpc
    have hreader := (hinv.readers r hr).2
    rwa [hpc] at hreader
  refine ⟨⟨hinv.currentBlock, hinv.served⟩, fun r hr result installed hpc => ?_,
    fun r hr result installed info hpc hresult as t hst block hblock => ?_, hinv.snapshots⟩
  · exact (hreturned r hr result installed hpc).2
  · obtain ⟨hle, k, -, hk, hserved⟩ := hreturned r hr result installed hpc
    have hheight := height_of_servedAt (H := H) (hk.trans hle) (hserved.symm.trans hresult)
    obtain ⟨more, hsnapshots, hmore⟩ := Publishing.exec_snapshots hst
    rw [hsnapshots, List.drop_left] at hblock
    rw [← hheight]
    exact UInt64.le_trans (hinv.height_le k (hk.trans hle)) (hmore block hblock)

/-- A reader loads the index, and three blocks are accepted before it copies the string, so that
    the one it is about to copy is written again. -/
def overtaken : List Move :=
  let accept : UInt64 → List Move := fun height =>
    [.accept ⟨⟨Vector.replicate 32 0, []⟩, ⟨height, 100, "00"⟩⟩, .refresh, .refresh, .refresh]
  accept 1 ++ [.call, .read 0] ++ accept 2 ++ accept 3 ++ [.read 0]

theorem published_agree_overtaken : ∃ s, (publishing fun _ => Vector.replicate 32 0).Reachable
    System.Any s ∧ ∃ r ∈ s.readers, ∃ result, r = ⟨1, .returned result 3⟩ ∧ ∃ k, 1 ≤ k ∧ k ≤ 3 ∧
      result = servedAt s.wallet.deadlineLimit s.accepted k := by
  have hrun : ((publishing fun _ => Vector.replicate 32 0).exec { wallet := blank } overtaken).map
      (fun s => s.readers.map fun r => (r.began, match r.pc with
        | .returned _ installed => some installed
        | _ => none)) = some [(1, some 3)] := by
    decide +kernel
  obtain ⟨s, hs, hreaders⟩ := Option.map_eq_some_iff.mp hrun
  have hreach : (publishing fun _ => Vector.replicate 32 0).Reachable System.Any s :=
    System.Reachable.exec (.init ⟨blank, fresh_blank, rfl⟩) hs
  obtain ⟨⟨began, pc⟩, hr, hrest⟩ := List.map_eq_singleton_iff.mp hreaders
  simp only [Prod.mk.injEq] at hrest
  obtain ⟨rfl, hpc⟩ := hrest
  split at hpc
  · next result _ =>
    obtain rfl := Option.some.inj hpc
    have hmem : (⟨1, .returned result 3⟩ : Reader) ∈ s.readers := by simp [hr]
    exact ⟨s, hreach, _, hmem, result, rfl, (published_agree hreach).2.1 _ hmem result 3 rfl⟩
  · cases hpc

/-! ## Alone -/

/-- A refresher that nobody interferes with does what `newBlock` does. -/
theorem exec_refresh_alone (hidle : s.refresher = .idle) (a : Accepted)
    (hlt : s.wallet.currentBlock.height < a.info.height) :
    (publishing H).exec s [.accept a, .refresh, .refresh, .refresh] =
      some { s with
        wallet := s.wallet.newBlock H a.mem a.info
        accepted := s.accepted ++ [a]
        published := (s.accepted ++ [a]).length } := by
  rw [System.exec_cons, publishing]
  dsimp only
  rw [if_pos ⟨hidle, hlt⟩, newBlock]
  -- The index is not touched before the last step.
  by_cases hidx : s.wallet.cacheIdx = 0
  · simp [System.exec_cons, Publishing.refresh, hidx, hidle, Accepted.block]
  · simp [System.exec_cons, Publishing.refresh, hidx, hidle, Accepted.block]

/-- A reader that nobody interferes with returns what `getCachedMiningInfo` does. -/
theorem exec_read_alone :
    (publishing H).exec s [.call, .read s.readers.length, .read s.readers.length] =
      some { s with readers := s.readers ++
        [⟨s.published, .returned s.wallet.getCachedMiningInfo s.accepted.length⟩] } := by
  simp [publishing, System.exec_cons, Reader.next, miningInfo, getCachedMiningInfo]

end BurstPoolNode.Wallet

import BurstPoolNode.Wallet.Signatures

/-!
# The tip

Which block the wallet is at. All that is kept of a block, in four fields, two
buffers and an index, is of one response (`Describes`).

* `coherent`: after any polls, this is the first response of the greatest
  height among those that parse, or none if that height is 0;
* `followsTip`: a response of a greater height is taken up, and one of the
  same height or a smaller one is not, whatever its signature is.
-/

namespace BurstPoolNode.Wallet

variable {parse : String → Option Json} {H : List UInt8 → Vector UInt8 32} {mem : Memory}
  {w : Wallet} {t : Transfer}

/-- The wallet is at the block of `info`. -/
structure Describes (H : List UInt8 → Vector UInt8 32) (info : MiningInfo) (w : Wallet) : Prop where
  height : w.currentBlock.height = info.height
  baseTarget : w.currentBlock.baseTarget = info.baseTarget
  gensig : ∀ i : Fin 32, hexByte info.generationSignature i = some (w.currentBlock.gensig.get i)
  scoop : w.currentBlock.scoop =
    Burstmath.calculateScoop H w.currentBlock.height w.currentBlock.gensig
  scoop_lt : w.currentBlock.scoop < 4096
  cached : w.getCachedMiningInfo = adaptedMiningInfo w.deadlineLimit info

theorem newBlock_describes {info : MiningInfo} (h : IsHex 64 info.generationSignature) :
    Describes H info (w.newBlock H mem info) := by
  simp only [newBlock, decodeGensig_of_isHex h]
  split_ifs
  · exact ⟨rfl, rfl, hexByte_gensigOf h, rfl, Burstmath.calculateScoop_lt .., rfl⟩
  · exact ⟨rfl, rfl, hexByte_gensigOf h, rfl, Burstmath.calculateScoop_lt .., rfl⟩

theorem Kept.getCachedMiningInfo {w' : Wallet} (h : Kept w w') :
    w'.getCachedMiningInfo = w.getCachedMiningInfo := by
  rw [Wallet.getCachedMiningInfo, Wallet.getCachedMiningInfo, h.cacheIdx, h.miningInfo0,
    h.miningInfo1]

theorem Describes.kept {info : MiningInfo} {w' : Wallet} (h : Describes H info w)
    (hkept : Kept w w') (hlimit : w'.deadlineLimit = w.deadlineLimit) : Describes H info w' := by
  obtain ⟨hheight, hbaseTarget, hgensig, hscoop, hlt, hcached⟩ := h
  rw [← hkept.currentBlock] at hheight hbaseTarget hgensig hscoop hlt
  refine ⟨hheight, hbaseTarget, hgensig, hscoop, hlt, ?_⟩
  rw [hkept.getCachedMiningInfo, hcached, hlimit]

/-! ## One refresh -/

/-- A refresh reports a new block just when the height increases, and changes nothing else. -/
theorem refreshBlock_reports : ((w.refreshBlock parse H mem t).1 = true ↔
      w.currentBlock.height < (w.refreshBlock parse H mem t).2.currentBlock.height) ∧
    ((w.refreshBlock parse H mem t).1 = false → Kept w (w.refreshBlock parse H mem t).2) := by
  cases hinfo : w.newInfo parse t with
  | none =>
    obtain ⟨hfalse, hkept⟩ := @refreshBlock_kept parse H mem w t hinfo
    refine ⟨iff_of_false (by rw [hfalse]; exact nofun) ?_, fun _ => hkept⟩
    rw [hkept.currentBlock]
    exact UInt64.lt_irrefl _
  | some info =>
    obtain ⟨htrue, -⟩ := @refreshBlock_installs parse H mem w t info hinfo
    obtain ⟨hheight, -, hlt⟩ := @refreshBlock_of_some parse H mem w t info hinfo
    exact ⟨iff_of_true htrue (hheight ▸ hlt), fun hfalse => absurd (htrue.symm.trans hfalse) nofun⟩

theorem refreshBlock_describes {info : MiningInfo} (h : w.newInfo parse t = some info)
    (hhex : IsHex 64 info.generationSignature) :
    Describes H info (w.refreshBlock parse H mem t).2 := by
  rw [refreshBlock_eq, h]
  exact newBlock_describes hhex

/-! ## Any number of refreshes -/

/-- The responses of a run, and whether `refresh_block` reported a new block for them. -/
def results (parse : String → Option Json) (H : List UInt8 → Vector UInt8 32) :
    Wallet → List Poll → List (String × Bool)
  | _, [] => []
  | w, p :: ps =>
    ((w.getMiningInfo p.transfer).1, (w.refreshBlock parse H p.mem p.transfer).1) ::
      results parse H (w.refreshBlock parse H p.mem p.transfer).2 ps

theorem results_concat {ps : List Poll} {w' : Wallet}
    (h : (polling parse H).exec w ps = some w') (p : Poll) : results parse H w (ps ++ [p]) =
      results parse H w ps ++
        [((w'.getMiningInfo p.transfer).1, (w'.refreshBlock parse H p.mem p.transfer).1)] := by
  induction ps generalizing w with
  | nil =>
    obtain rfl := Option.some.inj h
    rfl
  | cons q ps ih =>
    rw [List.cons_append, results, results, ih h]
    rfl

/-- The signatures in a response are 64 hexadecimal digits, if they are strings. -/
def WellSigned (parse : String → Option Json) (response : String) : Prop :=
  ∀ gensig, MiningInfo.stringMember (parse (cString response)) "generationSignature" = some gensig →
    IsHex 64 gensig

/-- The wallet is at the first response of the greatest height among those that parse, the
    one that was reported last, or at none, if that height is 0. -/
inductive Coherent (parse : String → Option Json) (H : List UInt8 → Vector UInt8 32)
    (results : List (String × Bool)) (w : Wallet) : Prop
  | initial :
      (∀ r ∈ results, r.2 = false ∧
        ∀ info, MiningInfo.ofResponse parse r.1 = .ok info → info.height = 0) →
      w.currentBlock.height = 0 → w.getCachedMiningInfo = "" → Coherent parse H results w
  | block (before after : List (String × Bool)) (response : String) (info : MiningInfo) :
      results = before ++ (response, true) :: after →
      MiningInfo.ofResponse parse response = .ok info →
      (∀ r ∈ before, ∀ i, MiningInfo.ofResponse parse r.1 = .ok i → i.height < info.height) →
      (∀ r ∈ after, r.2 = false ∧
        ∀ i, MiningInfo.ofResponse parse r.1 = .ok i → i.height ≤ info.height) →
      Describes H info w → Coherent parse H results w

theorem WellSigned.isHex {response : String} {info : MiningInfo} (h : WellSigned parse response)
    (hinfo : MiningInfo.ofResponse parse response = .ok info) :
    IsHex 64 info.generationSignature := by
  obtain ⟨gensig, _, _, ⟨hgensig, -, -⟩, -, -, hinfo⟩ := MiningInfo.ofResponse_eq_ok_iff.mp hinfo
  have hhex := h gensig hgensig
  rwa [← hinfo, cString_of_isHex hhex]

/-- No response so far has a greater height than the current block. -/
theorem Coherent.height_le {rs : List (String × Bool)} (h : Coherent parse H rs w)
    {r : String × Bool} (hr : r ∈ rs) {i : MiningInfo}
    (hi : MiningInfo.ofResponse parse r.1 = .ok i) : i.height ≤ w.currentBlock.height := by
  cases h with
  | initial hnone hheight =>
    rw [hheight, (hnone r hr).2 i hi]
    exact UInt64.le_refl _
  | block before after response info hrs hinfo hbefore hafter hdescribes =>
    rw [hdescribes.height]
    rw [hrs, List.mem_append, List.mem_cons] at hr
    rcases hr with hr | rfl | hr
    · exact UInt64.le_of_lt (hbefore r hr i hi)
    · obtain rfl := Except.ok.inj (hinfo.symm.trans hi)
      exact UInt64.le_refl _
    · exact (hafter r hr).2 i hi

theorem Coherent.refreshBlock {rs : List (String × Bool)} (h : Coherent parse H rs w)
    (hsigned : WellSigned parse (w.getMiningInfo t).1) :
    Coherent parse H (rs ++ [((w.getMiningInfo t).1, (w.refreshBlock parse H mem t).1)])
      (w.refreshBlock parse H mem t).2 := by
  cases hnew : w.newInfo parse t with
  | some info =>
    -- The response has the greatest height so far.
    obtain ⟨hinfo, hlt⟩ := newInfo_eq_some_iff.mp hnew
    rw [(refreshBlock_installs hnew).1]
    refine .block rs [] _ info rfl hinfo (fun r hr i hi => ?_) nofun
      (refreshBlock_describes hnew (hsigned.isHex hinfo))
    exact UInt64.lt_of_le_of_lt (h.height_le hr hi) hlt
  | none =>
    obtain ⟨hfalse, hkept⟩ := @refreshBlock_kept parse H mem w t hnew
    have hle : ∀ i, MiningInfo.ofResponse parse (w.getMiningInfo t).1 = .ok i →
        i.height ≤ w.currentBlock.height := by
      intro i hi
      by_contra hlt
      have hsome := newInfo_eq_some_iff.mpr ⟨hi, UInt64.not_le.mp hlt⟩
      rw [hnew] at hsome
      cases hsome
    rw [hfalse]
    cases h with
    | initial hnone hheight hcached =>
      refine .initial (fun r hr => ?_) ?_ ?_
      · rcases List.mem_append.mp hr with hr | hr
        · exact hnone r hr
        · obtain rfl := List.mem_singleton.mp hr
          refine ⟨rfl, fun i hi => ?_⟩
          have hzero := hle i hi
          rw [hheight] at hzero
          exact UInt64.le_antisymm hzero UInt64.zero_le
      · rw [hkept.currentBlock, hheight]
      · rw [hkept.getCachedMiningInfo, hcached]
    | block before after response info hrs hinfo hbefore hafter hdescribes =>
      refine .block before (after ++ [((w.getMiningInfo t).1, false)]) response info ?_ hinfo
        hbefore (fun r hr => ?_) (hdescribes.kept hkept refreshBlock_deadlineLimit)
      · rw [hrs, List.append_assoc, List.cons_append]
      · rcases List.mem_append.mp hr with hr | hr
        · exact hafter r hr
        · obtain rfl := List.mem_singleton.mp hr
          exact ⟨rfl, fun i hi => hdescribes.height ▸ hle i hi⟩

theorem coherent_of_exec {w₀ : Wallet} {ps : List Poll} (hw₀ : w₀.Fresh)
    (hrun : (polling parse H).exec w₀ ps = some w)
    (hsigned : ∀ r ∈ results parse H w₀ ps, WellSigned parse r.1) :
    Coherent parse H (results parse H w₀ ps) w := by
  induction ps using List.reverseRecOn generalizing w with
  | nil =>
    obtain rfl := Option.some.inj hrun
    refine .initial nofun (by rw [hw₀.currentBlock]) ?_
    rw [getCachedMiningInfo, hw₀.cacheIdx, if_pos rfl, hw₀.miningInfo0]
  | append_singleton ps p ih =>
    rw [System.exec_concat, Option.bind_eq_some_iff] at hrun
    obtain ⟨v, hv, hstep⟩ := hrun
    rw [step_polling, Option.some.injEq] at hstep
    subst hstep
    rw [results_concat hv] at hsigned ⊢
    have hprev := ih hv fun r hr => hsigned r (List.mem_append_left _ hr)
    have hlast := hsigned
      ((v.getMiningInfo p.transfer).1, (v.refreshBlock parse H p.mem p.transfer).1)
      (List.mem_append_right _ (List.mem_singleton_self _))
    exact hprev.refreshBlock hlast

/-- **The wallet is coherent** after any polls: the current block and the mining info for the
    miners are both of the first response of the greatest height, if the signatures of all
    responses are well-formed. And a refresh reports a new block just when the height increases,
    and changes nothing otherwise. -/
theorem coherent {w₀ : Wallet} {ps : List Poll} (hw₀ : w₀ ∈ (polling parse H).init)
    (hrun : (polling parse H).exec w₀ ps = some w)
    (hsigned : ∀ r ∈ results parse H w₀ ps, WellSigned parse r.1) :
    Coherent parse H (results parse H w₀ ps) w ∧
      ∀ (v : Wallet) (p : Poll),
        ((v.refreshBlock parse H p.mem p.transfer).1 = true ↔ v.currentBlock.height <
          (v.refreshBlock parse H p.mem p.transfer).2.currentBlock.height) ∧
        ((v.refreshBlock parse H p.mem p.transfer).1 = false →
          Kept v (v.refreshBlock parse H p.mem p.transfer).2) :=
  ⟨coherent_of_exec hw₀ hrun hsigned, fun _ _ => refreshBlock_reports⟩

/-- A poll for a block of the height 5. -/
def pollFive (digit : Char) : Poll := pollOf [responseText (signature digit) "5" "100"] true

theorem hasStrings_pollFive {digit : Char} (h : Json.Plain digit) (hw : w.miningInfoRes = "") :
    MiningInfo.HasStrings Json.parse (w.getMiningInfo (pollFive digit).transfer).1
      (signature digit) "5" "100" :=
  hasStrings_pollOf (plain_signature h) (by decide) (by decide) hw

theorem wellSigned_pollFive {digit : Char} (h : Json.Plain digit)
    (hdigit : (hexDigit digit).isSome) (hw : w.miningInfoRes = "") :
    WellSigned Json.parse (w.getMiningInfo (pollFive digit).transfer).1 := by
  intro gensig hgensig
  obtain rfl := Option.some.inj ((hasStrings_pollFive h hw).1.symm.trans hgensig)
  exact isHex_signature hdigit

theorem refreshBlock_pollFive (digit : Char) : (w.refreshBlock parse H (pollFive digit).mem
    (pollFive digit).transfer).2.miningInfoRes = "" := by
  rw [refreshBlock_miningInfoRes, getMiningInfo_miningInfoRes]
  rfl

/-- The block 5, and another one of the same height. -/
theorem coherent_fork :
    ∃ w, (polling Json.parse fun _ => Vector.replicate 32 0).exec blank
        [pollFive 'A', pollFive 'B'] = some w ∧
      Coherent Json.parse (fun _ => Vector.replicate 32 0)
        (results Json.parse (fun _ => Vector.replicate 32 0) blank
          [pollFive 'A', pollFive 'B']) w := by
  obtain ⟨w, hw⟩ := @exists_exec_polling Json.parse (fun _ => Vector.replicate 32 0) blank
    [pollFive 'A', pollFive 'B']
  refine ⟨w, hw, (coherent fresh_blank hw ?_).1⟩
  rw [results, results, results, List.forall_mem_cons, List.forall_mem_singleton]
  refine ⟨@wellSigned_pollFive blank 'A' (by decide) (by decide) rfl, ?_⟩
  dsimp only
  exact wellSigned_pollFive (by decide) (by decide) (refreshBlock_pollFive 'A')

/-! ## Following the tip -/

section Following

variable {p : Poll} {gensig height baseTarget : String} {n b : UInt64}

theorem newInfo_of_wellFormed
    (h : MiningInfo.HasStrings parse (w.getMiningInfo p.transfer).1 gensig height baseTarget)
    (hhex : IsHex 64 gensig) (hn : stoull (cString height) = some n)
    (hb : stoull (cString baseTarget) = some b) :
    w.newInfo parse p.transfer =
      if w.currentBlock.height < n then some ⟨n, b, gensig⟩ else none := by
  have hinfo : MiningInfo.ofResponse parse (w.getMiningInfo p.transfer).1 = .ok ⟨n, b, gensig⟩ :=
    MiningInfo.ofResponse_eq_ok_iff.mpr
      ⟨gensig, height, baseTarget, h, hn, hb, cString_of_isHex hhex⟩
  rw [newInfo, hinfo]

/-- **A new tip is followed**, and only a new one: a well-formed response of a greater height is
    taken up, and one of the same height or a smaller one changes nothing. -/
theorem followsTip
    (h : MiningInfo.HasStrings parse (w.getMiningInfo p.transfer).1 gensig height baseTarget)
    (hhex : IsHex 64 gensig) (hn : stoull (cString height) = some n)
    (hb : stoull (cString baseTarget) = some b) :
    (w.currentBlock.height < n → (w.refreshBlock parse H p.mem p.transfer).1 = true ∧
      Describes H ⟨n, b, gensig⟩ (w.refreshBlock parse H p.mem p.transfer).2) ∧
    (n ≤ w.currentBlock.height → (w.refreshBlock parse H p.mem p.transfer).1 = false ∧
      Kept w (w.refreshBlock parse H p.mem p.transfer).2) := by
  have hnew := newInfo_of_wellFormed h hhex hn hb
  refine ⟨fun hlt => ?_, fun hle => ?_⟩
  · rw [if_pos hlt] at hnew
    exact ⟨(refreshBlock_installs hnew).1, refreshBlock_describes hnew hhex⟩
  · rw [if_neg (UInt64.not_lt.mpr hle)] at hnew
    exact refreshBlock_kept hnew

end Following

theorem followsTip_five : Describes (fun _ => Vector.replicate 32 0) ⟨5, 100, signature 'A'⟩
    (blank.refreshBlock Json.parse (fun _ => Vector.replicate 32 0) (pollFive 'A').mem
      (pollFive 'A').transfer).2 :=
  ((followsTip (hasStrings_pollFive (by decide) rfl) (isHex_signature (by decide))
    (by decide +kernel) (by decide +kernel)).1 (by decide)).2

/-- The block 5 is replaced by another one. -/
theorem not_followsTip : ¬∀ (w : Wallet) (p : Poll) (gensig height baseTarget : String)
    (n b : UInt64),
    MiningInfo.HasStrings Json.parse (w.getMiningInfo p.transfer).1 gensig height baseTarget →
      IsHex 64 gensig → stoull (cString height) = some n → stoull (cString baseTarget) = some b →
      0 < n → w.currentBlock.height ≤ n → Describes (fun _ => Vector.replicate 32 0) ⟨n, b, gensig⟩
        (w.refreshBlock Json.parse (fun _ => Vector.replicate 32 0) p.mem p.transfer).2 := by
  intro h
  have hheight : stoull (cString "5") = some 5 := by decide +kernel
  have hbaseTarget : stoull (cString "100") = some 100 := by decide +kernel
  have hA : IsHex 64 (signature 'A') := isHex_signature (by decide)
  have hB : IsHex 64 (signature 'B') := isHex_signature (by decide)
  -- The wallet takes up the first block, and then keeps it.
  have hnew := newInfo_of_wellFormed (@hasStrings_pollFive blank 'A' (by decide) rfl) hA hheight
    hbaseTarget
  rw [if_pos (by decide)] at hnew
  have hdescribes := @refreshBlock_describes _ (fun _ => Vector.replicate 32 0) (pollFive 'A').mem
    _ _ _ hnew hA
  generalize hw : (blank.refreshBlock Json.parse (fun _ => Vector.replicate 32 0)
    (pollFive 'A').mem (pollFive 'A').transfer).2 = w at hdescribes
  have hstrings := @hasStrings_pollFive w 'B' (by decide) (hw ▸ refreshBlock_pollFive 'A')
  have hold := newInfo_of_wellFormed hstrings hB hheight hbaseTarget
  rw [hdescribes.height, if_neg (by decide)] at hold
  have hkept := (@refreshBlock_kept _ (fun _ => Vector.replicate 32 0) (pollFive 'B').mem _ _
    hold).2
  have hfork := h w (pollFive 'B') _ _ _ 5 100 hstrings hB hheight hbaseTarget (by decide)
    (by rw [hdescribes.height]; exact UInt64.le_refl _)
  have hbyte := hfork.gensig 0
  rw [hkept.currentBlock, ← hdescribes.gensig 0] at hbyte
  exact absurd hbyte (by decide +kernel)

end BurstPoolNode.Wallet

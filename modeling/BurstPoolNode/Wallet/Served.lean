import BurstPoolNode.Wallet.Signatures

/-!
# The mining info for the miners

What the wallet has accepted is written into a JSON object for the miners, by
concatenation. A generation signature that is not of digits can be any text;
it is not escaped.

* `toList_adaptedMiningInfo`: the object as it is meant;
* `adaptedMiningInfo_injective`: its text tells the block;
* `readsBack_iff`: a second node reads the same block back if and only if the
  text of the generation signature has no quote, no backslash and no control
  character.
-/

namespace BurstPoolNode.Wallet

/-- The members of the mining info for the miners. -/
def servedMembers (deadlineLimit : UInt64) (info : MiningInfo) : List (String × String) :=
  [("generationSignature", info.generationSignature), ("baseTarget", toDecimal info.baseTarget),
    ("height", toDecimal info.height), ("targetDeadline", toDecimal deadlineLimit)]

theorem toList_adaptedMiningInfo (deadlineLimit : UInt64) (info : MiningInfo) :
    (adaptedMiningInfo deadlineLimit info).toList =
      '{' :: Json.membersText (servedMembers deadlineLimit info) := by
  unfold adaptedMiningInfo
  simp only [String.toList_append, servedMembers, Json.membersText]
  simp

variable {H : List UInt8 → Vector UInt8 32} {mem : Memory} {w : Wallet} {t : Transfer}
  {deadlineLimit : UInt64} {info : MiningInfo}

/-- A text that ends in digits after another character tells the digits. -/
theorem append_digits_inj {xs xs' ds ds' : List Char} {c : Char} (hc : c.isDigit = false)
    (hds : ∀ d ∈ ds, d.isDigit = true) (hds' : ∀ d ∈ ds', d.isDigit = true)
    (h : xs ++ [c] ++ ds = xs' ++ [c] ++ ds') : xs = xs' ∧ ds = ds' := by
  rw [List.append_assoc, List.append_assoc, List.singleton_append, List.singleton_append] at h
  have hnot : ∀ {ds : List Char}, (∀ d ∈ ds, d.isDigit = true) → c ∉ ds := by
    intro ds hds hmem
    rw [hds c hmem] at hc
    cases hc
  rcases List.append_eq_append_iff.mp h with ⟨ys, rfl, hys⟩ | ⟨ys, rfl, hys⟩
  · cases ys with
    | nil => exact ⟨(List.append_nil xs).symm, (List.cons.inj hys).2⟩
    | cons y ys =>
      refine absurd ?_ (hnot hds)
      rw [(List.cons.inj hys).2]
      exact List.mem_append_right _ List.mem_cons_self
  · cases ys with
    | nil => exact ⟨List.append_nil xs', ((List.cons.inj hys).2).symm⟩
    | cons y ys =>
      refine absurd ?_ (hnot hds')
      rw [(List.cons.inj hys).2]
      exact List.mem_append_right _ List.mem_cons_self

theorem toDecimal_injective : Function.Injective toDecimal := by
  intro n m h
  have hn := stoull_toDecimal n
  rw [h, stoull_toDecimal] at hn
  exact (Option.some.inj hn).symm

/-- The mining info for the miners tells the block, whatever its signature is. -/
theorem adaptedMiningInfo_injective (deadlineLimit : UInt64) :
    Function.Injective (adaptedMiningInfo deadlineLimit) := by
  rintro ⟨n, b, g⟩ ⟨n', b', g'⟩ h
  have hlist := congrArg String.toList h
  unfold adaptedMiningInfo at hlist
  have hheight : "\"height\":\"".toList = "\"height\":".toList ++ ['"'] := by decide +kernel
  have hbaseTarget : "\"baseTarget\":\"".toList = "\"baseTarget\":".toList ++ ['"'] := by
    decide +kernel
  simp only [String.toList_append, List.append_cancel_right_eq, hheight, hbaseTarget,
    ← List.append_assoc] at hlist
  -- From the end, the digits of the height and then those of the base target.
  obtain ⟨hrest, hn⟩ := append_digits_inj (by decide) (fun _ => isDigit_of_mem_toDecimal)
    (fun _ => isDigit_of_mem_toDecimal) hlist
  rw [List.append_cancel_right_eq, List.append_cancel_right_eq] at hrest
  obtain ⟨hg, hb⟩ := append_digits_inj (by decide) (fun _ => isDigit_of_mem_toDecimal)
    (fun _ => isDigit_of_mem_toDecimal) hrest
  rw [List.append_cancel_right_eq, List.append_cancel_right_eq, List.append_cancel_left_eq] at hg
  rw [toDecimal_injective (String.toList_injective hn),
    toDecimal_injective (String.toList_injective hb), String.toList_injective hg]

theorem plain_toDecimal (n : UInt64) : ∀ c ∈ (toDecimal n).toList, Json.Plain c := by
  intro c hc
  have hdigit := isDigit_of_mem_toDecimal hc
  have hle : 48 ≤ c.toNat := by
    have h : 48 ≤ c.toNat ∧ c.toNat ≤ 57 := by
      simpa [Char.isDigit, UInt32.le_iff_toNat_le] using hdigit
    exact h.1
  refine ⟨?_, ?_, by omega⟩
  · rintro rfl
    exact absurd hdigit (by decide)
  · rintro rfl
    exact absurd hdigit (by decide)

theorem nul_notMem_cString (s : String) : nul ∉ (cString s).toList := by
  rw [cString, String.toList_ofList]
  intro h
  simpa using List.mem_takeWhile_imp h

theorem plain_servedMembers_fst {m : String × String} (hm : m ∈ servedMembers deadlineLimit info) :
    ∀ c ∈ m.1.toList, Json.Plain c := by
  have hnames : ∀ name ∈ ["generationSignature", "baseTarget", "height", "targetDeadline"],
      ∀ c ∈ name.toList, Json.Plain c := by
    decide +kernel
  exact hnames m.1 (List.mem_map_of_mem hm)

/-- All but the generation signature is plain. -/
theorem plain_servedMembers_snd {m : String × String} (hm : m ∈ servedMembers deadlineLimit info) :
    m.2 = info.generationSignature ∨ ∀ c ∈ m.2.toList, Json.Plain c := by
  simp only [servedMembers, List.mem_cons, List.not_mem_nil, or_false] at hm
  rcases hm with rfl | rfl | rfl | rfl
  · exact .inl rfl
  · exact .inr (plain_toDecimal _)
  · exact .inr (plain_toDecimal _)
  · exact .inr (plain_toDecimal _)

/-- Written without a NUL, the mining info is passed on as a whole. -/
theorem cString_adaptedMiningInfo (h : nul ∉ info.generationSignature.toList) :
    cString (adaptedMiningInfo deadlineLimit info) = adaptedMiningInfo deadlineLimit info := by
  refine cString_of_forall_ne fun c hc => ?_
  rw [toList_adaptedMiningInfo, List.mem_cons] at hc
  rintro rfl
  refine hc.elim (by decide) (Json.nul_notMem_membersText fun m hm => ⟨?_, ?_⟩)
  · exact fun hnul => (plain_servedMembers_fst hm _ hnul).ne_nul rfl
  · rcases plain_servedMembers_snd hm with heq | hplain
    · rwa [heq]
    · exact fun hnul => (hplain _ hnul).ne_nul rfl

theorem getCachedMiningInfo_newBlock :
    (w.newBlock H mem info).getCachedMiningInfo = adaptedMiningInfo w.deadlineLimit info := by
  rw [newBlock]
  split_ifs
  · rfl
  · rfl

/-- What the wallet serves after it has accepted a block. -/
theorem refreshBlock_getCachedMiningInfo {parse : String → Option Json}
    (h : w.newInfo parse t = some info) :
    (w.refreshBlock parse H mem t).2.getCachedMiningInfo =
      adaptedMiningInfo w.deadlineLimit info := by
  obtain ⟨res, hres⟩ := getMiningInfo_snd (w := w) (t := t)
  rw [refreshBlock_eq, h]
  dsimp only
  rw [getCachedMiningInfo_newBlock, hres]

/-! ## Reading it back -/

/-- What is served is an object with the text, the height and the base target of `info` for a
    second node, which takes it up at any lower height, and with the limit. -/
structure ReadsBack (parse : String → Option Json) (H : List UInt8 → Vector UInt8 32)
    (served : String) (deadlineLimit : UInt64) (info : MiningInfo) : Prop where
  accepted : ∀ (v : Wallet) (p : Poll), (v.getMiningInfo p.transfer).1 = served →
    v.currentBlock.height < info.height →
      (v.refreshBlock parse H p.mem p.transfer).1 = true ∧
        v.newInfo parse p.transfer = some info
  targetDeadline : MiningInfo.stringMember (parse (cString served)) "targetDeadline" =
    some (toDecimal deadlineLimit)

variable {served : String}

/-- A plain text is read back. -/
theorem readsBack_of_plain (hplain : ∀ c ∈ info.generationSignature.toList, Json.Plain c) :
    ReadsBack Json.parse H (adaptedMiningInfo deadlineLimit info) deadlineLimit info := by
  have hparse : Json.parse (cString (adaptedMiningInfo deadlineLimit info)) =
      some (.object ((servedMembers deadlineLimit info).map fun m => (m.1, .string m.2))) := by
    rw [cString_adaptedMiningInfo fun h => (hplain _ h).ne_nul rfl]
    refine Json.parse_membersText (List.cons_ne_nil _ _) (fun m hm => ⟨?_, ?_⟩)
      (toList_adaptedMiningInfo ..)
    · exact plain_servedMembers_fst hm
    · rcases plain_servedMembers_snd hm with heq | h
      · rwa [heq]
      · exact h
  have hstrings : MiningInfo.HasStrings Json.parse (adaptedMiningInfo deadlineLimit info)
      info.generationSignature (toDecimal info.height) (toDecimal info.baseTarget) := by
    rw [MiningInfo.HasStrings, hparse]
    exact ⟨rfl, rfl, rfl⟩
  have hcString : ∀ {s : String}, (∀ c ∈ s.toList, Json.Plain c) → cString s = s :=
    fun h => cString_of_forall_ne fun c hc => (h c hc).ne_nul
  refine ⟨fun v p hserved hlt => ?_, by rw [hparse]; rfl⟩
  have hinfo : v.newInfo Json.parse p.transfer = some info := by
    rw [← hserved] at hstrings
    rw [newInfo_of_hasStrings hstrings (n := info.height) ?_ hlt]
    · rw [hcString (plain_toDecimal _), stoull_toDecimal, hcString hplain]
      rfl
    · rw [hcString (plain_toDecimal _), stoull_toDecimal]
  exact ⟨(refreshBlock_installs hinfo).1, hinfo⟩

/-- What is read back is plain. -/
theorem plain_of_readsBack (hnul : nul ∉ info.generationSignature.toList)
    (hpos : 0 < info.height)
    (h : ReadsBack Json.parse H (adaptedMiningInfo deadlineLimit info) deadlineLimit info) :
    ∀ c ∈ info.generationSignature.toList, Json.Plain c := by
  let p : Poll := pollOf [adaptedMiningInfo deadlineLimit info] true
  have hresponse : (blank.getMiningInfo p.transfer).1 = adaptedMiningInfo deadlineLimit info := by
    simp [p, getMiningInfo, pollOf, blank, String.join]
  obtain ⟨-, hnew⟩ := h.accepted blank p hresponse hpos
  obtain ⟨hinfo, -⟩ := newInfo_eq_some_iff.mp hnew
  rw [hresponse] at hinfo
  obtain ⟨g, _, _, ⟨hg, -, -⟩, -, -, hcut⟩ := MiningInfo.ofResponse_eq_ok_iff.mp hinfo
  rw [cString_adaptedMiningInfo hnul, MiningInfo.stringMember_eq_some_iff] at hg
  obtain ⟨members, hparse, hlookup⟩ := hg
  -- The first member is the one that is looked up.
  obtain ⟨d, rest, hobject, hplain⟩ := Json.parse_membersText_cons (by decide +kernel)
    (toList_adaptedMiningInfo deadlineLimit info) hparse
  obtain rfl := Json.object.inj hobject
  rw [List.lookup_cons_self] at hlookup
  obtain rfl := Json.string.inj (Option.some.inj hlookup)
  refine hplain ?_
  rw [← hcut, cString, String.toList_ofList, String.toList_ofList]
  exact List.takeWhile_prefix _

/-- **Served mining info reads back as the same block** if and only if the text of the generation
    signature has no quote, no backslash and no control character, for every response that the
    wallet accepts. -/
theorem readsBack_iff {gensig height baseTarget : String} {n b : UInt64}
    (h : MiningInfo.HasStrings Json.parse (w.getMiningInfo t).1 gensig height baseTarget)
    (hn : stoull (cString height) = some n) (hb : stoull (cString baseTarget) = some b)
    (hlt : w.currentBlock.height < n) :
    ReadsBack Json.parse H (w.refreshBlock Json.parse H mem t).2.getCachedMiningInfo
        w.deadlineLimit ⟨n, b, cString gensig⟩ ↔
      ∀ c ∈ (cString gensig).toList, Json.Plain c := by
  have hinfo := newInfo_of_hasStrings h hn hlt
  rw [hb, Option.map_some] at hinfo
  rw [refreshBlock_getCachedMiningInfo hinfo]
  have hpos : 0 < n := UInt64.lt_of_le_of_lt UInt64.zero_le hlt
  exact ⟨@plain_of_readsBack H w.deadlineLimit ⟨n, b, cString gensig⟩ (nul_notMem_cString _) hpos,
    @readsBack_of_plain H w.deadlineLimit ⟨n, b, cString gensig⟩⟩

/-- A signature of 64 digits. -/
theorem readsBack_iff_five : ReadsBack Json.parse (fun _ => Vector.replicate 32 0)
    (blank.refreshBlock Json.parse (fun _ => Vector.replicate 32 0) ⟨Vector.replicate 32 0, []⟩
      (pollOf [responseText (signature 'A') "5" "100"] true).transfer).2.getCachedMiningInfo
    1000 ⟨5, 100, cString (signature 'A')⟩ := by
  have hstrings := @hasStrings_pollOf blank (signature 'A') "5" "100" (plain_signature (by decide))
    (by decide) (by decide) rfl
  refine (readsBack_iff hstrings (by decide +kernel) (by decide +kernel) (by decide)).mpr ?_
  rw [cString_of_isHex (isHex_signature (by decide))]
  exact plain_signature (by decide)

/-- A signature with a quote in it. -/
theorem not_readsBack : ¬∀ (w : Wallet) (t : Transfer) (gensig height baseTarget : String)
    (n b : UInt64),
    MiningInfo.HasStrings Json.parse (w.getMiningInfo t).1 gensig height baseTarget →
      stoull (cString height) = some n → stoull (cString baseTarget) = some b →
      w.currentBlock.height < n → ReadsBack Json.parse (fun _ => Vector.replicate 32 0)
        (w.refreshBlock Json.parse (fun _ => Vector.replicate 32 0) ⟨Vector.replicate 32 0, []⟩
          t).2.getCachedMiningInfo w.deadlineLimit ⟨n, b, cString gensig⟩ := by
  intro h
  have hstrings : MiningInfo.HasStrings Json.parse (blank.getMiningInfo (pollOf
      ["\x7b\"generationSignature\":\"a\\\"b\",\"height\":\"5\",\"baseTarget\":\"100\"\x7d"]
      true).transfer).1 "a\"b" "5" "100" := by
    decide +kernel
  have hheight : stoull (cString "5") = some 5 := by decide +kernel
  have hbaseTarget : stoull (cString "100") = some 100 := by decide +kernel
  have hback := h _ _ _ _ _ _ _ hstrings hheight hbaseTarget (by decide)
  have hinfo := newInfo_of_hasStrings hstrings hheight (by decide)
  rw [hbaseTarget, Option.map_some] at hinfo
  rw [refreshBlock_getCachedMiningInfo hinfo] at hback
  have hplain := @plain_of_readsBack _ 1000 ⟨5, 100, cString "a\"b"⟩ (nul_notMem_cString _)
    (by decide) hback
  exact absurd hplain (by decide +kernel)

end BurstPoolNode.Wallet

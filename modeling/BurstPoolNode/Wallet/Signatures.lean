import BurstPoolNode.Text.Digits
import BurstPoolNode.Wallet.Polling

/-!
# Generation signatures

The text of a generation signature is decoded by 32 `sscanf`s of `%2hhx`, two
characters apart, whose results are not looked at.

* `MiningInfo.ofResponse_eq_ok_iff`: which responses have a mining info
  (`MiningInfo.HasStrings`), of whose signature nothing is asked;
* `decodeGensig_of_isHex`: what a text of 64 hexadecimal digits is decoded to;
* `decodedOrRefused_iff`: a signature is decoded exactly or refused if and only
  if it is such a text, or the base target does not parse.
-/

namespace BurstPoolNode

/-! ## Responses -/

theorem bind_eq_ok_iff {ε α β : Type} {x : Except ε α} {f : α → Except ε β} {b : β} :
    x >>= f = .ok b ↔ ∃ a, x = .ok a ∧ f a = .ok b := by
  cases x with
  | error e => exact ⟨nofun, nofun⟩
  | ok a => simp [bind, Except.bind]

namespace MiningInfo

/-- The member `name` of an object, if it is a string. -/
def stringMember (document : Option Json) (name : String) : Option String :=
  match document with
  | some (.object members) =>
    match members.lookup name with
    | some (.string s) => some s
    | _ => none
  | _ => none

/-- The response passes the checks of members and types, with the strings `gensig`, `height`
    and `baseTarget`. -/
def HasStrings (parse : String → Option Json) (miningInfo gensig height baseTarget : String) :
    Prop :=
  stringMember (parse (cString miningInfo)) "generationSignature" = some gensig ∧
    stringMember (parse (cString miningInfo)) "height" = some height ∧
    stringMember (parse (cString miningInfo)) "baseTarget" = some baseTarget

instance (parse : String → Option Json) (miningInfo gensig height baseTarget : String) :
    Decidable (HasStrings parse miningInfo gensig height baseTarget) :=
  inferInstanceAs (Decidable (_ ∧ _ ∧ _))

variable {parse : String → Option Json} {miningInfo gensig height baseTarget : String}

theorem stringMember_eq_some_iff {document : Option Json} {name s : String} :
    stringMember document name = some s ↔
      ∃ members, document = some (.object members) ∧ members.lookup name = some (.string s) := by
  rw [stringMember.eq_def]
  split
  · next members =>
    split
    · next h => simp [h]
    · next h =>
      refine ⟨nofun, ?_⟩
      rintro ⟨_, ⟨⟩, hlookup⟩
      exact (h s hlookup).elim
  · next h =>
    refine ⟨nofun, ?_⟩
    rintro ⟨members, rfl, -⟩
    exact (h members rfl).elim

/-- Past the checks of members and types, the numbers decide. -/
theorem ofResponse_of_hasStrings (h : HasStrings parse miningInfo gensig height baseTarget) :
    ofResponse parse miningInfo = do
      return ⟨← asNumber (cString height), ← asNumber (cString baseTarget), cString gensig⟩ := by
  simp only [HasStrings, stringMember_eq_some_iff] at h
  obtain ⟨⟨members, hparse, hgensig⟩, ⟨_, hparse', hheight⟩, ⟨_, hparse'', hbaseTarget⟩⟩ := h
  obtain rfl := Json.object.inj (Option.some.inj (hparse.symm.trans hparse'))
  obtain rfl := Json.object.inj (Option.some.inj (hparse.symm.trans hparse''))
  simp only [ofResponse, hparse, asObject, member, hgensig, hheight, hbaseTarget, asString,
    pure_bind]

theorem asNumber_eq_ok_iff {s : String} {n : UInt64} :
    asNumber s = .ok n ↔ stoull s = some n := by
  rw [asNumber]
  cases stoull s with
  | none => exact ⟨nofun, nofun⟩
  | some m =>
    exact ⟨fun h => congrArg some (Except.ok.inj h), fun h => congrArg _ (Option.some.inj h)⟩

theorem asObject_eq_ok_iff {document : Option Json} {members : List (String × Json)} :
    asObject document = .ok members ↔ document = some (.object members) := by
  rw [asObject.eq_def]
  split
  · simp [pure, Except.pure]
  · next h => exact ⟨nofun, fun heq => (h _ heq).elim⟩

theorem member_eq_ok_iff {members : List (String × Json)} {name missing : String} {value : Json} :
    member members name missing = .ok value ↔ members.lookup name = some value := by
  rw [member]
  cases members.lookup name with
  | none => exact ⟨nofun, nofun⟩
  | some value => simp [pure, Except.pure]

theorem asString_eq_ok_iff {value : Json} {notString s : String} :
    asString value notString = .ok s ↔ ∃ t, value = .string t ∧ cString t = s := by
  rw [asString.eq_def]
  split
  · simp [pure, Except.pure]
  · next h => exact ⟨nofun, fun ⟨t, heq, _⟩ => (h t heq).elim⟩

/-- The responses that have a mining info. -/
theorem ofResponse_eq_ok_iff {info : MiningInfo} : ofResponse parse miningInfo = .ok info ↔
    ∃ gensig height baseTarget, HasStrings parse miningInfo gensig height baseTarget ∧
      stoull (cString height) = some info.height ∧
      stoull (cString baseTarget) = some info.baseTarget ∧
      cString gensig = info.generationSignature := by
  constructor
  · intro h
    simp only [ofResponse, bind_eq_ok_iff, asObject_eq_ok_iff, member_eq_ok_iff,
      asString_eq_ok_iff, asNumber_eq_ok_iff] at h
    obtain ⟨members, hparse, _, hgensig, _, hheight, _, hbaseTarget, _, ⟨gensig, rfl, rfl⟩,
      _, ⟨height, rfl, rfl⟩, _, ⟨baseTarget, rfl, rfl⟩, _, hh, _, hb, h⟩ := h
    cases h
    refine ⟨gensig, height, baseTarget, ?_, hh, hb, rfl⟩
    simp only [HasStrings, stringMember_eq_some_iff]
    exact ⟨⟨members, hparse, hgensig⟩, ⟨members, hparse, hheight⟩, ⟨members, hparse, hbaseTarget⟩⟩
  · rintro ⟨gensig, height, baseTarget, h, hheight, hbaseTarget, hgensig⟩
    rw [ofResponse_of_hasStrings h, asNumber_eq_ok_iff.mpr hheight,
      asNumber_eq_ok_iff.mpr hbaseTarget, hgensig]
    rfl

end MiningInfo

namespace Wallet

/-! ## Decoding -/

/-- The bytes that a text of pairs of digits writes. -/
def gensigOf (gensigStr : String) : Vector UInt8 32 :=
  Vector.ofFn fun i => (hexByte gensigStr i).getD 0

/-- The `sscanf`s start inside of the text, and so end at its terminator at the latest. -/
def StartInside (gensigStr : String) : Prop := ∀ i < 32, 2 * i ≤ gensigStr.toList.length

section Decoding

variable {gensigStr : String}

theorem hexByte_gensigOf (h : IsHex 64 gensigStr) (i : Fin 32) :
    hexByte gensigStr i = some ((gensigOf gensigStr).get i) := by
  obtain ⟨_, _, _, _, -, -, -, hbyte⟩ := IsHex.pair (n := 32) h i.isLt
  have hget : (gensigOf gensigStr).get i = (hexByte gensigStr i).getD 0 :=
    Vector.getElem_ofFn i.isLt
  rw [hget, hbyte]
  rfl

/-- The bytes are the same whatever memory holds. -/
theorem decodeGensig_of_isHex (h : IsHex 64 gensigStr) (mem : Memory) :
    decodeGensig mem gensigStr = gensigOf gensigStr := by
  rw [decodeGensig, gensigOf]
  congr 1
  funext i
  obtain ⟨c, c', d, d', hdrop, hd, hd', hbyte⟩ := IsHex.pair (n := 32) h i.isLt
  have hle : 2 * i.val ≤ gensigStr.toList.length := by
    rw [h.1]
    omega
  rw [List.drop_append_of_le_length hle, hdrop, List.cons_append, List.cons_append,
    scanHex2_cons_cons hd hd', hbyte]
  rfl

theorem encodeHex_gensigOf (h : IsHex 64 gensigStr) :
    (encodeHex (gensigOf gensigStr).toList).toList = gensigStr.toList.map Char.toLower := by
  rw [encodeHex, String.toList_ofList, gensigOf, Vector.toList_ofFn]
  refine flatMap_hexPair (n := 32) h.1 _ fun i => ?_
  obtain ⟨c, c', d, d', hdrop, hd, hd', hbyte⟩ := IsHex.pair (n := 32) h i.isLt
  exact ⟨c, c', d, d', hdrop, hd, hd', by rw [hbyte]; rfl⟩

end Decoding

/-! ## Refreshing -/

/-- What a refresh leaves that finds no new block. -/
structure Kept (w w' : Wallet) : Prop where
  currentBlock : w'.currentBlock = w.currentBlock
  cacheIdx : w'.cacheIdx = w.cacheIdx
  miningInfo0 : w'.miningInfo0 = w.miningInfo0
  miningInfo1 : w'.miningInfo1 = w.miningInfo1

variable {parse : String → Option Json} {H : List UInt8 → Vector UInt8 32} {mem : Memory}
  {w : Wallet} {t : Transfer}

theorem refreshBlock_kept (h : w.newInfo parse t = none) :
    (w.refreshBlock parse H mem t).1 = false ∧ Kept w (w.refreshBlock parse H mem t).2 := by
  obtain ⟨res, hres⟩ := getMiningInfo_snd (w := w) (t := t)
  rw [refreshBlock_eq, h, hres]
  exact ⟨rfl, rfl, rfl, rfl, rfl⟩

theorem refreshBlock_installs {info : MiningInfo} (h : w.newInfo parse t = some info) :
    (w.refreshBlock parse H mem t).1 = true ∧
      (w.refreshBlock parse H mem t).2.currentBlock =
        { height := info.height
          baseTarget := info.baseTarget
          gensig := decodeGensig mem info.generationSignature
          scoop := Burstmath.calculateScoop H info.height
            (decodeGensig mem info.generationSignature) } := by
  rw [refreshBlock_eq, h]
  refine ⟨rfl, ?_⟩
  dsimp only
  rw [newBlock]
  split_ifs
  · rfl
  · rfl

theorem newInfo_eq_some_iff {info : MiningInfo} : w.newInfo parse t = some info ↔
    MiningInfo.ofResponse parse (w.getMiningInfo t).1 = .ok info ∧
      w.currentBlock.height < info.height := by
  rw [newInfo]
  cases MiningInfo.ofResponse parse (w.getMiningInfo t).1 with
  | error e => simp
  | ok info' =>
    rw [Except.ok.injEq]
    dsimp only
    split_ifs with hlt
    · rw [Option.some.injEq]
      exact ⟨fun h => ⟨h, h ▸ hlt⟩, fun h => h.1⟩
    · refine iff_of_false id fun h => hlt ?_
      rw [h.1]
      exact h.2

/-- In a response for a higher block, only the base target can still be wrong. -/
theorem newInfo_of_hasStrings {gensig height baseTarget : String} {n : UInt64}
    (h : MiningInfo.HasStrings parse (w.getMiningInfo t).1 gensig height baseTarget)
    (hn : stoull (cString height) = some n) (hlt : w.currentBlock.height < n) :
    w.newInfo parse t =
      (stoull (cString baseTarget)).map fun b => ⟨n, b, cString gensig⟩ := by
  rw [newInfo, MiningInfo.ofResponse_of_hasStrings h, MiningInfo.asNumber_eq_ok_iff.mpr hn]
  cases hb : stoull (cString baseTarget) with
  | none =>
    rw [MiningInfo.asNumber, hb]
    rfl
  | some b =>
    rw [MiningInfo.asNumber_eq_ok_iff.mpr hb]
    exact if_pos hlt

/-- The signature in a response is decoded exactly, or the response is refused. -/
structure DecodedOrRefused (parse : String → Option Json) (H : List UInt8 → Vector UInt8 32)
    (w : Wallet) (p : Poll) (gensig : String) (height : UInt64) (baseTarget : String) : Prop where
  /-- Of 64 hexadecimal digits, every pair is a byte of the signature of the new block. -/
  decoded : IsHex 64 gensig → (w.refreshBlock parse H p.mem p.transfer).1 = true ∧
    ∃ block : Block, (w.refreshBlock parse H p.mem p.transfer).2.currentBlock = block ∧
      block.height = height ∧ stoull (cString baseTarget) = some block.baseTarget ∧
      (∀ i : Fin 32, hexByte gensig i = some (block.gensig.get i)) ∧
      (encodeHex block.gensig.toList).toList = gensig.toList.map Char.toLower
  /-- With any other signature there is no new block. -/
  refused : ¬IsHex 64 gensig → (w.refreshBlock parse H p.mem p.transfer).1 = false ∧
    Kept w (w.refreshBlock parse H p.mem p.transfer).2
  /-- What is decoded is read no further than its terminator. -/
  inside : (w.refreshBlock parse H p.mem p.transfer).1 = true → StartInside (cString gensig)

/-- **Signatures are decoded exactly or refused** if and only if they are 64 hexadecimal digits
    just when the base target parses, for every response that passes the checks of members and
    types and has a height above the current one. -/
theorem decodedOrRefused_iff {p : Poll} {gensig height baseTarget : String} {n : UInt64}
    (h : MiningInfo.HasStrings parse (w.getMiningInfo p.transfer).1 gensig height baseTarget)
    (hn : stoull (cString height) = some n) (hlt : w.currentBlock.height < n) :
    DecodedOrRefused parse H w p gensig n baseTarget ↔
      (IsHex 64 gensig ↔ (stoull (cString baseTarget)).isSome) := by
  have hinfo := newInfo_of_hasStrings h hn hlt
  cases hb : stoull (cString baseTarget) with
  | none =>
    -- The response is refused.
    rw [hb, Option.map_none] at hinfo
    obtain ⟨hfalse, hkept⟩ := @refreshBlock_kept parse H p.mem w p.transfer hinfo
    refine ⟨fun hprop => iff_of_false (fun hhex => ?_) nofun, fun hiff => ?_⟩
    · exact absurd ((hprop.decoded hhex).1.symm.trans hfalse) nofun
    · exact ⟨fun hhex => absurd (hiff.mp hhex) nofun, fun _ => ⟨hfalse, hkept⟩,
        fun htrue => absurd (htrue.symm.trans hfalse) nofun⟩
  | some b =>
    -- The response is taken up, whatever its signature is.
    rw [hb, Option.map_some] at hinfo
    obtain ⟨htrue, hblock⟩ := @refreshBlock_installs parse H p.mem w p.transfer _ hinfo
    refine ⟨fun hprop => iff_of_true ?_ rfl, fun hiff => ?_⟩
    · by_contra hhex
      exact absurd (htrue.symm.trans (hprop.refused hhex).1) nofun
    · have hhex : IsHex 64 gensig := hiff.mpr rfl
      rw [cString_of_isHex hhex, decodeGensig_of_isHex hhex] at hblock
      refine ⟨fun _ => ⟨htrue, _, hblock, rfl, hb, hexByte_gensigOf hhex, encodeHex_gensigOf hhex⟩,
        fun hne => absurd hhex hne, fun _ i hi => ?_⟩
      rw [cString_of_isHex hhex, hhex.1]
      omega

/-- A response of the wallet. -/
def responseText (gensig height baseTarget : String) : String :=
  String.ofList ('{' :: Json.membersText
    [("generationSignature", gensig), ("height", height), ("baseTarget", baseTarget)])

theorem hasStrings_responseText {gensig height baseTarget : String}
    (hgensig : ∀ c ∈ gensig.toList, Json.Plain c) (hheight : ∀ c ∈ height.toList, Json.Plain c)
    (hbaseTarget : ∀ c ∈ baseTarget.toList, Json.Plain c) :
    MiningInfo.HasStrings Json.parse (responseText gensig height baseTarget) gensig height
      baseTarget := by
  have htext : (responseText gensig height baseTarget).toList = '{' :: Json.membersText
      [("generationSignature", gensig), ("height", height), ("baseTarget", baseTarget)] :=
    String.toList_ofList
  have hplain : ∀ m ∈ [("generationSignature", gensig), ("height", height),
      ("baseTarget", baseTarget)],
      (∀ c ∈ m.1.toList, Json.Plain c) ∧ ∀ c ∈ m.2.toList, Json.Plain c := by
    simp only [List.forall_mem_cons]
    exact ⟨⟨by decide +kernel, hgensig⟩, ⟨by decide +kernel, hheight⟩,
      ⟨by decide +kernel, hbaseTarget⟩, nofun⟩
  have hnul : ∀ c ∈ (responseText gensig height baseTarget).toList, c ≠ nul := by
    rw [htext, List.forall_mem_cons]
    refine ⟨by decide, fun c hc => ?_⟩
    rintro rfl
    refine Json.nul_notMem_membersText (fun m hm => ⟨?_, ?_⟩) hc
    · exact fun h => ((hplain m hm).1 _ h).ne_nul rfl
    · exact fun h => ((hplain m hm).2 _ h).ne_nul rfl
  have hparse := Json.parse_membersText (List.cons_ne_nil _ _) hplain htext
  rw [MiningInfo.HasStrings, cString_of_forall_ne hnul, hparse]
  exact ⟨rfl, rfl, rfl⟩

/-- A signature with all digits the same. -/
def signature (digit : Char) : String := String.ofList (List.replicate 64 digit)

theorem plain_signature {digit : Char} (h : Json.Plain digit) :
    ∀ c ∈ (signature digit).toList, Json.Plain c := by
  rw [signature, String.toList_ofList]
  intro c hc
  rwa [List.eq_of_mem_replicate hc]

theorem isHex_signature {digit : Char} (h : (hexDigit digit).isSome) :
    IsHex 64 (signature digit) := by
  rw [IsHex, signature, String.toList_ofList]
  refine ⟨List.length_replicate, fun c hc => ?_⟩
  rwa [List.eq_of_mem_replicate hc]

/-- A poll for a response of plain strings. -/
theorem hasStrings_pollOf {gensig height baseTarget : String}
    (hgensig : ∀ c ∈ gensig.toList, Json.Plain c) (hheight : ∀ c ∈ height.toList, Json.Plain c)
    (hbaseTarget : ∀ c ∈ baseTarget.toList, Json.Plain c) (hw : w.miningInfoRes = "") :
    MiningInfo.HasStrings Json.parse
      (w.getMiningInfo (pollOf [responseText gensig height baseTarget] true).transfer).1
      gensig height baseTarget := by
  have hresponse : (w.getMiningInfo
      (pollOf [responseText gensig height baseTarget] true).transfer).1 =
        responseText gensig height baseTarget := by
    simp [getMiningInfo, pollOf, hw, String.join]
  rw [hresponse]
  exact hasStrings_responseText hgensig hheight hbaseTarget

theorem decodedOrRefused_iff_capitals :
    DecodedOrRefused Json.parse (fun _ => Vector.replicate 32 0) blank
      (pollOf [responseText (signature 'A') "5" "100"] true) (signature 'A') 5 "100" := by
  have hstrings := @hasStrings_pollOf blank (signature 'A') "5" "100" (plain_signature (by decide))
    (by decide) (by decide) rfl
  exact (decodedOrRefused_iff hstrings (by decide +kernel) (by decide)).mpr
    (iff_of_true (isHex_signature (by decide)) (by decide +kernel))

/-- A signature of two characters, of which none is a digit. -/
theorem not_decodedOrRefused : ¬∀ (w : Wallet) (p : Poll) (gensig height baseTarget : String)
    (n : UInt64),
    MiningInfo.HasStrings Json.parse (w.getMiningInfo p.transfer).1 gensig height baseTarget →
      stoull (cString height) = some n → w.currentBlock.height < n →
      DecodedOrRefused Json.parse (fun _ => Vector.replicate 32 0) w p gensig n baseTarget := by
  intro h
  have hstrings := @hasStrings_pollOf blank "-z" "5" "100" (by decide) (by decide) (by decide) rfl
  have hheight : stoull (cString "5") = some 5 := by decide +kernel
  have hbaseTarget : stoull (cString "100") = some 100 := by decide +kernel
  have hinfo := newInfo_of_hasStrings hstrings hheight (by decide)
  rw [hbaseTarget] at hinfo
  have hshort := h _ _ _ _ _ _ hstrings hheight (by decide)
  exact absurd ((refreshBlock_installs hinfo).1.symm.trans (hshort.refused (by decide)).1) nofun

end Wallet

end BurstPoolNode

import BurstPoolNode.Sql
import BurstPoolNode.Wallet

/-!
# Recipients

The query for the miners of the pools, its meaning, and what it leaves in the
wallet.

The database is a parameter, of which it is assumed that it answers a query with
rows that the query selects, and no text that is no query (`Evaluates`).

* `parse_makeRecipQuery`: with a pool configured, the text of the wallet is the
  query for the recipients cast to signed numbers;
* `construct_recipients`: the recipients of the miners are pools of the
  configuration, and current ones in the table.
-/

namespace BurstPoolNode

open Sql

/-! ## The table -/

/-- The columns of the table `reward_recip_assign` that the node reads. -/
inductive RecipColumn
  | accountId
  | recipId
  | latest
  deriving DecidableEq

/-- A row of the table. -/
structure RecipAssign where
  accountId : Int64
  recipId : Int64
  latest : Int64

namespace RecipColumn

/-- The names of the columns. -/
def ofName : String → Option RecipColumn
  | "account_id" => some .accountId
  | "recip_id" => some .recipId
  | "latest" => some .latest
  | _ => none

end RecipColumn

/-- The values of a row. -/
def RecipAssign.get (row : RecipAssign) : RecipColumn → ℤ
  | .accountId => row.accountId.toInt
  | .recipId => row.recipId.toInt
  | .latest => row.latest.toInt

/-- What is assumed of the database that holds the table. -/
structure Evaluates (db : String → Option ResultSet) (table : List RecipAssign) : Prop where
  /-- A query on the table gives rows that it selects, as numbers of 64 bits. -/
  select : ∀ text q res, parse RecipColumn.ofName text = some q →
    q.table = "reward_recip_assign" → db text = some res →
      ∀ row ∈ res.rows, [(row.1.toNat : ℤ), (row.2.toNat : ℤ)] ∈ q.rows (table.map RecipAssign.get)
  /-- A text of words, blanks, parentheses, commas and equals signs is malformed if there are
      more parentheses of one kind, which raises an exception. -/
  malformed : ∀ text : String, (∀ c ∈ text.toList, isWordChar c ∨ c ∈ [' ', '(', ')', ',', '=']) →
    text.toList.count '(' ≠ text.toList.count ')' → db text = none

/-- The table has `recipId` for the current recipient of the account. -/
def IsRecipient (table : List RecipAssign) (accountId recipId : UInt64) : Prop :=
  ∃ row ∈ table, row.latest = 1 ∧ row.accountId.toUInt64 = accountId ∧
    row.recipId.toUInt64 = recipId

/-- The numbers of 64 bits in a row. -/
def ofRow : List ℤ → Option (UInt64 × UInt64)
  | [a, r] =>
    let row := (UInt64.ofNat a.toNat, UInt64.ofNat r.toNat)
    if [(row.1.toNat : ℤ), (row.2.toNat : ℤ)] = [a, r] then some row else none
  | _ => none

/-- A database that does what is assumed. -/
def answerQuery (table : List RecipAssign) (text : String) : Option ResultSet :=
  if text.toList.count '(' = text.toList.count ')' then do
    let q ← parse RecipColumn.ofName text
    if q.table = "reward_recip_assign" then
      some ⟨(q.rows (table.map RecipAssign.get)).filterMap ofRow, false⟩
    else
      none
  else
    none

theorem eq_of_ofRow {xs : List ℤ} {row : UInt64 × UInt64} (h : ofRow xs = some row) :
    xs = [(row.1.toNat : ℤ), (row.2.toNat : ℤ)] := by
  unfold ofRow at h
  split at h
  · dsimp only at h
    split_ifs at h with heq
    cases h
    exact heq.symm
  · cases h

theorem evaluates_answerQuery (table : List RecipAssign) :
    Evaluates (answerQuery table) table where
  select text q res hq htable hres row hrow := by
    rw [answerQuery, hq] at hres
    split_ifs at hres
    rw [Option.bind_eq_bind, Option.bind_some, if_pos htable] at hres
    cases hres
    obtain ⟨xs, hxs, hof⟩ := List.mem_filterMap.mp hrow
    rwa [← eq_of_ofRow hof]
  malformed text _ hcount := if_neg hcount

namespace Wallet

/-! ## The text of the query -/

/-- The expression for a pool. -/
def recipExpr (id : UInt64) : Expr RecipColumn := .castSigned (.number id.toNat)

/-- The query of the wallet. -/
def recipSelect (ids : List UInt64) : Select RecipColumn where
  columns := [.castUnsigned (.column .accountId), .castUnsigned (.column .recipId)]
  table := "reward_recip_assign"
  member := .column .recipId
  set := ids.map recipExpr
  left := .column .latest
  right := .number 1

/-- The text for a pool. -/
def recipText (id : UInt64) : List Char :=
  "CAST(".toList ++ (toDecimal id).toList ++ " AS SIGNED)".toList

/-- The texts for the pools, with commas between them, and what follows the last one. -/
def recipTexts : List UInt64 → List Char → List Char
  | [], cs => cs
  | [id], cs => recipText id ++ cs
  | id :: ids, cs => recipText id ++ ',' :: recipTexts ids cs

/-- What stands before the texts for the pools. -/
def recipHead : String :=
  "SELECT CAST(account_id AS UNSIGNED), CAST(recip_id AS UNSIGNED) " ++
    "FROM reward_recip_assign WHERE recip_id IN ("

/-- The head ends with a parenthesis, the only one that is not closed in it. -/
theorem recipHead_spec : recipHead.toList = recipHead.toList.dropLast ++ ['('] ∧
    recipHead.toList.count '(' = recipHead.toList.count ')' + 1 ∧
    recipHead.toList.all (fun c => isWordChar c || [' ', '(', ')', ',', '='].contains c) = true ∧
    lex [] recipHead.toList = ["SELECT", "CAST", "(", "account_id", "AS", "UNSIGNED", ")", ",",
      "CAST", "(", "recip_id", "AS", "UNSIGNED", ")", "FROM", "reward_recip_assign", "WHERE",
      "recip_id", "IN", "("] := by
  -- Its characters are written out here, since decoding the text is slow.
  have hchars : recipHead.toList = _ := String.toList_append.trans
    (congrArg₂ (· ++ ·) String.toList_ofList String.toList_ofList)
  rw [hchars]
  exact ⟨rfl, by decide +kernel, by decide +kernel, by decide +kernel⟩

/-- What follows the pools closes the parenthesis. -/
theorem recipTail_spec : " AND latest = 1".toList.count '(' = 0 ∧
    " AND latest = 1".toList.count ')' = 0 ∧
    " AND latest = 1".toList.all (fun c => isWordChar c || [' ', '(', ')', ',', '='].contains c) =
      true ∧
    lex [] " AND latest = 1".toList = ["AND", "latest", "=", "1"] := by
  rw [String.toList_ofList]
  exact ⟨by decide +kernel, by decide +kernel, by decide +kernel, by decide +kernel⟩

theorem lex_recipText (id : UInt64) {c : Char} (hc : isWordChar c = false) (cs : List Char) :
    lex [] (recipText id ++ c :: cs) =
      "CAST" :: "(" :: toDecimal id :: "AS" :: "SIGNED" :: ")" :: (symbol c ++ lex [] cs) := by
  have hcast : lex [] ("CAST".toList ++ ['(']) = ["CAST", "("] := by decide +kernel
  have has : lex [] ("AS SIGNED".toList ++ [')']) = ["AS", "SIGNED", ")"] := by decide +kernel
  calc lex [] (recipText id ++ c :: cs)
      = lex [] ("CAST".toList ++ '(' ::
          ((toDecimal id).toList ++ ' ' :: ("AS SIGNED".toList ++ ')' :: c :: cs))) := by
        delta recipText
        simp
    _ = ["CAST", "("] ++ (toDecimal id :: (["AS", "SIGNED", ")"] ++ lex [] (c :: cs))) := by
        rw [lex_append rfl, hcast, lex_word (toDecimal_ne_nil id)
          (fun _ => isWordChar_of_mem_toDecimal) rfl, lex_append rfl, has, String.ofList_toList]
        rfl
    _ = _ := by
        rw [lex, if_neg (by simp [hc])]
        rfl

/-- The casts of the pools. -/
theorem casts_recipTexts {ids : List UInt64} (hne : ids ≠ []) (cs : List Char) :
    casts RecipColumn.ofName (lex [] (recipTexts ids (')' :: cs))) =
      some (ids.map recipExpr, ")" :: lex [] cs) := by
  have hexpr : ∀ id, (operand RecipColumn.ofName (toDecimal id)).bind (castTo · "SIGNED") =
      some (recipExpr id) := by
    intro id
    rw [operand_toDecimal]
    rfl
  induction ids with
  | nil => exact absurd rfl hne
  | cons id ids ih =>
    cases ids with
    | nil =>
      rw [recipTexts, lex_recipText id rfl]
      exact casts_last (hexpr id) fun _ h => absurd (List.cons.inj h).1 (by decide)
    | cons id' ids =>
      rw [recipTexts, lex_recipText id rfl]
      · exact casts_more (hexpr id) (ih (List.cons_ne_nil _ _))
      · exact List.cons_ne_nil _ _

/-- The text that the loop over the pools makes. -/
theorem toList_foldl_recipText (pools : List (UInt64 × String)) (q : String) :
    (pools.foldl (fun q pool => q ++ "CAST(" ++ toDecimal pool.1 ++ " AS SIGNED),") q).toList =
      q.toList ++ pools.flatMap fun pool => recipText pool.1 ++ [','] := by
  induction pools generalizing q with
  | nil => simp
  | cons pool pools ih =>
    rw [List.foldl_cons, ih, List.flatMap_cons]
    delta recipText
    simp

/-- The last comma is replaced. -/
theorem dropLast_recipTexts {pools : List (UInt64 × String)} (hne : pools ≠ [])
    (cs ds : List Char) :
    (cs ++ pools.flatMap fun pool => recipText pool.1 ++ [',']).dropLast ++ ds =
      cs ++ recipTexts (pools.map Prod.fst) ds := by
  induction pools generalizing cs with
  | nil => exact absurd rfl hne
  | cons pool pools ih =>
    cases pools with
    | nil =>
      rw [List.flatMap_singleton, ← List.append_assoc, List.dropLast_concat]
      simp [recipTexts]
    | cons pool' pools =>
      have hcons := ih (List.cons_ne_nil _ _) (cs ++ (recipText pool.1 ++ [',']))
      rw [List.flatMap_cons, ← List.append_assoc, hcons]
      simp [recipTexts]

theorem toList_makeRecipQuery {pools : List (UInt64 × String)} (hne : pools ≠ []) :
    (makeRecipQuery pools).toList =
      recipHead.toList ++ recipTexts (pools.map Prod.fst) (')' :: " AND latest = 1".toList) := by
  unfold makeRecipQuery
  dsimp only
  rw [String.toList_append, String.toList_ofList, List.append_assoc, toList_foldl_recipText,
    dropLast_recipTexts hne]
  rfl

/-- **The text is the query**, with a pool in the configuration. -/
theorem parse_makeRecipQuery {pools : List (UInt64 × String)} (hne : pools ≠ []) :
    parse RecipColumn.ofName (makeRecipQuery pools) = some (recipSelect (pools.map Prod.fst)) := by
  obtain ⟨hsplit, -, -, hhead⟩ := recipHead_spec
  obtain ⟨-, -, -, htail⟩ := recipTail_spec
  have hcolumns : ∀ ws, casts RecipColumn.ofName ("CAST" :: "(" :: "account_id" :: "AS" ::
      "UNSIGNED" :: ")" :: "," :: "CAST" :: "(" :: "recip_id" :: "AS" :: "UNSIGNED" :: ")" ::
      "FROM" :: ws) = some ((recipSelect (pools.map Prod.fst)).columns, "FROM" :: ws) := fun ws =>
    casts_more rfl (casts_last rfl fun _ h => absurd (List.cons.inj h).1 (by decide))
  have hids : pools.map Prod.fst ≠ [] := by simpa using hne
  have hset := casts_recipTexts hids " AND latest = 1".toList
  rw [htail] at hset
  have hlex : lex [] (makeRecipQuery pools).toList = lex [] recipHead.toList ++
      lex [] (recipTexts (pools.map Prod.fst) (')' :: " AND latest = 1".toList)) := by
    rw [toList_makeRecipQuery hne, hsplit, List.append_assoc, List.singleton_append, lex_append rfl]
  rw [parse, hlex, hhead]
  simp only [List.cons_append, List.nil_append, hcolumns, hset, Option.bind_eq_bind,
    Option.bind_some]
  rfl

/-- The parentheses around the numbers match. -/
theorem count_recipTexts (ids : List UInt64) (cs : List Char) :
    (recipTexts ids cs).count '(' + cs.count ')' =
      (recipTexts ids cs).count ')' + cs.count '(' := by
  have hdigits : ∀ (id : UInt64) (c : Char), c.isDigit = false →
      (toDecimal id).toList.count c = 0 := fun id c hc =>
    List.count_eq_zero.mpr fun hmem => by simp [isDigit_of_mem_toDecimal hmem] at hc
  have hone : ∀ id, (recipText id).count '(' = 1 ∧ (recipText id).count ')' = 1 := by
    intro id
    delta recipText
    simp only [List.count_append, hdigits id '(' rfl, hdigits id ')' rfl]
    decide +kernel
  induction ids with
  | nil => exact Nat.add_comm _ _
  | cons id ids ih =>
    cases ids with
    | nil =>
      rw [recipTexts, List.count_append, List.count_append, (hone id).1, (hone id).2]
      omega
    | cons id' ids =>
      rw [recipTexts]
      · simp only [List.count_append, List.count_cons, (hone id).1, (hone id).2]
        simp
        omega
      · exact List.cons_ne_nil _ _

/-- The database answers the query of the wallet with the rows that it selects. -/
theorem answerQuery_makeRecipQuery {pools : List (UInt64 × String)} (hne : pools ≠ [])
    (table : List RecipAssign) : answerQuery table (makeRecipQuery pools) =
      some ⟨((recipSelect (pools.map Prod.fst)).rows (table.map RecipAssign.get)).filterMap ofRow,
        false⟩ := by
  obtain ⟨-, hhead, -, -⟩ := recipHead_spec
  obtain ⟨htail, htail', -, -⟩ := recipTail_spec
  have htexts := count_recipTexts (pools.map Prod.fst) (')' :: " AND latest = 1".toList)
  rw [List.count_cons_self, List.count_cons_of_ne (by decide), htail, htail'] at htexts
  rw [answerQuery, if_pos, parse_makeRecipQuery hne]
  · rfl
  · rw [toList_makeRecipQuery hne, List.count_append, List.count_append]
    omega

/-! ## What the query selects -/

theorem toInt_emod (x : Int64) : x.toInt % 2 ^ 64 = x.toUInt64.toNat := by
  have hx : x.toInt = Int.bmod x.toUInt64.toNat (2 ^ 64) := x.toBitVec.toInt_eq_toNat_bmod
  rw [hx, bmod_emod_of_toNat]

theorem natCast_toNat_inj {a b : UInt64} (h : (a.toNat : ℤ) = b.toNat) : a = b :=
  UInt64.toNat_inj.mp (Int.ofNat_inj.mp h)

/-- The rows selected have current recipients that are in the list. -/
theorem mem_rows_recipSelect {ids : List UInt64} {table : List RecipAssign} {a r : UInt64}
    (h : [(a.toNat : ℤ), (r.toNat : ℤ)] ∈ (recipSelect ids).rows (table.map RecipAssign.get)) :
    IsRecipient table a r ∧ r ∈ ids := by
  simp only [Select.rows, List.mem_map, List.mem_filter, decide_eq_true_eq] at h
  obtain ⟨_, ⟨⟨row, hrow, rfl⟩, hmember, hlatest⟩, hcolumns⟩ := h
  obtain ⟨_, hexpr, hid⟩ := List.mem_map.mp hmember
  obtain ⟨id, hmem, rfl⟩ := List.mem_map.mp hexpr
  have hid : Int.bmod id.toNat (2 ^ 64) = row.recipId.toInt := hid
  have haccount : row.accountId.toInt % 2 ^ 64 = a.toNat := (List.cons.inj hcolumns).1
  have hrecip : row.recipId.toInt % 2 ^ 64 = r.toNat :=
    (List.cons.inj (List.cons.inj hcolumns).2).1
  have hr : r = id := by
    rw [← hid, bmod_emod_of_toNat] at hrecip
    exact (natCast_toNat_inj hrecip).symm
  rw [toInt_emod] at haccount hrecip
  refine ⟨⟨row, hrow, Int64.toInt_inj.mp hlatest, natCast_toNat_inj haccount,
    natCast_toNat_inj hrecip⟩, hr ▸ hmem⟩

/-- Without a pool, the parentheses of the text do not match. -/
theorem raises_makeRecipQuery_nil {db : String → Option ResultSet} {table : List RecipAssign}
    (h : Evaluates db table) : db (makeRecipQuery []) = none := by
  have hquery : (makeRecipQuery []).toList =
      recipHead.toList.dropLast ++ ')' :: " AND latest = 1".toList := by
    unfold makeRecipQuery
    dsimp only [List.foldl_nil]
    rw [String.toList_append, String.toList_ofList, List.append_assoc]
    rfl
  obtain ⟨hsplit, hcount, hall, -⟩ := recipHead_spec
  obtain ⟨htail, htail', hall', -⟩ := recipTail_spec
  rw [hsplit, List.count_append, List.count_append] at hcount
  rw [hsplit, List.all_append, Bool.and_eq_true] at hall
  refine h.malformed _ (fun c hc => ?_) ?_
  · have hchar : (isWordChar c || [' ', '(', ')', ',', '='].contains c) = true := by
      rw [hquery, List.mem_append, List.mem_cons] at hc
      rcases hc with hc | rfl | hc
      · exact List.all_eq_true.mp hall.1 c hc
      · rfl
      · exact List.all_eq_true.mp hall' c hc
    rwa [Bool.or_eq_true, List.contains_iff_mem] at hchar
  · rw [hquery, List.count_append, List.count_append, List.count_cons_self,
      List.count_cons_of_ne (by decide), htail, htail']
    simp at hcount
    omega

/-- What the query of the wallet gives are current recipients that are pools. -/
theorem mem_rows_makeRecipQuery {db : String → Option ResultSet} {table : List RecipAssign}
    (h : Evaluates db table) {pools : List (UInt64 × String)} {res : ResultSet}
    (hres : db (makeRecipQuery pools) = some res) {row : UInt64 × UInt64} (hrow : row ∈ res.rows) :
    IsRecipient table row.1 row.2 ∧ row.2 ∈ pools.map Prod.fst := by
  by_cases hne : pools = []
  · rw [hne, raises_makeRecipQuery_nil h] at hres
    cases hres
  · exact mem_rows_recipSelect (h.select _ _ res (parse_makeRecipQuery hne) rfl hres row hrow)

end Wallet

/-! ## The recipients of the miners -/

namespace Miners

/-- What holds of the miners and of the rows holds of the miners cached. -/
theorem recipId_cacheRows {height : UInt64} {P : UInt64 → UInt64 → Prop} {m : Miners}
    (h : m.Cached height) (hm : ∀ a p, m.table a = some p → P a (m.rounds p).recipId)
    {rows : List (UInt64 × UInt64)} (hrows : ∀ row ∈ rows, P row.1 row.2) :
    ∀ a p, (cacheRows height rows m.table m).table a = some p →
      P a ((cacheRows height rows m.table m).rounds p).recipId := by
  induction rows generalizing m with
  | nil => exact hm
  | cons row rows ih =>
    rw [List.forall_mem_cons] at hrows
    refine ih (h.cacheRow row.1 row.2) ?_ hrows.2
    obtain ⟨-, -, -, hlt, hinj⟩ := h
    rw [Miners.cacheRow]
    cases ht : m.table row.1 with
    | none => grind [Function.update_apply]
    | some q => grind [Function.update_apply]

end Miners

/-- The recipients of the miners of a wallet are current ones, and pools. -/
theorem Wallet.construct_recipients {parse : String → Option Json}
    {H : List UInt8 → Vector UInt8 32} {mem : Memory} {db : String → Option ResultSet}
    {cfg : Config} {t : Transfer} {w : Wallet} (h : construct parse H mem db cfg t = some w)
    {table : List RecipAssign} (hdb : Evaluates db table) {a : UInt64} {p : ℕ}
    (hp : w.miners.table a = some p) :
    IsRecipient table a (w.miners.rounds p).recipId ∧
      (w.miners.rounds p).recipId ∈ cfg.poolIdToAddr.map Prod.fst := by
  have hcache := construct_cacheMiners h
  cases hres : db (makeRecipQuery cfg.poolIdToAddr) with
  | none =>
    rw [hres] at hcache
    cases hcache
  | some res =>
    rw [hres, Miners.cacheMiners, Prod.mk.injEq] at hcache
    rw [← hcache.2] at hp ⊢
    -- No account is known before the first row.
    have hnone : ∀ a p, ({} : Miners).table a = some p → IsRecipient table a
        (({} : Miners).rounds p).recipId ∧ (({} : Miners).rounds p).recipId ∈
          cfg.poolIdToAddr.map Prod.fst := by
      intro a p hp
      cases hp
    exact @Miners.recipId_cacheRows w.currentBlock.height
      (fun a r => IsRecipient table a r ∧ r ∈ cfg.poolIdToAddr.map Prod.fst) {}
      (Miners.cached_empty _) hnone res.rows (fun _ => mem_rows_makeRecipQuery hdb hres) a p hp

end BurstPoolNode

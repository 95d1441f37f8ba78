import BurstPoolNode.Lists
import BurstPoolNode.Wallet

/-!
# Caching the miners

What `cache_miners` makes of any table of miners it finds. Its loop puts the
accounts of the rows into a new table, and takes the rounds it keeps from the
table in use; but it replaces this table at every row, not after the last one.

* `allocated_cacheMiners`: it only puts rounds into its tables that it has made
  (`Allocated`);
* `entry_cacheRows`: with a row, what is known of the accounts are the last
  rows of each;
* `replaces_iff`: the rounds of known accounts are kept if and only if none but
  that of the first row has a row, and the table is replaced without a row if it
  was empty;
* `unchanged_iff`: an exception leaves the miners as they were if it comes
  before the first row is complete, or if the rows say what was known already.
-/

namespace BurstPoolNode.Miners

/-- The rounds of the table have been made. -/
def Allocated (m : Miners) : Prop := ∀ a p, m.table a = some p → p < m.next

/-- What is known of an account: the deadline, the height and the recipient of its round. -/
def entry (m : Miners) (a : UInt64) : Option (UInt64 × UInt64 × UInt64) :=
  (m.table a).map fun p => ((m.rounds p).deadline, (m.rounds p).height, (m.rounds p).recipId)

/-- The recipient in the last row of an account. -/
def lastRecip (rows : List (UInt64 × UInt64)) (a : UInt64) : Option UInt64 := rows.reverse.lookup a

/-- The accounts as a result set has them, in rounds that start at `height`. -/
def ofRows (height : UInt64) (rows : List (UInt64 × UInt64)) (a : UInt64) :
    Option (UInt64 × UInt64 × UInt64) :=
  (lastRecip rows a).map fun recipId => (0xFFFFFFFFFFFFFFFF, height, recipId)

/-- The miners after a row, with its account put into `newMiners`. -/
def afterRow (m : Miners) (height : UInt64) (newMiners : UInt64 → Option ℕ)
    (row : UInt64 × UInt64) : Miners :=
  { (m.cacheRow height row.1 row.2).2 with
    table := Function.update newMiners row.1 (some (m.cacheRow height row.1 row.2).1) }

variable {m : Miners} {height : UInt64} {newMiners : UInt64 → Option ℕ} {row : UInt64 × UInt64}

theorem cacheRows_cons (rows : List (UInt64 × UInt64)) :
    cacheRows height (row :: rows) newMiners m =
      cacheRows height rows (m.afterRow height newMiners row).table
        (m.afterRow height newMiners row) := rfl

/-! ## A row -/

/-- What a row does: its account has a round for the row, its own one if it is known, or one
    that is new, and the other rounds are left alone. -/
structure RowCached (m : Miners) (height : UInt64) (newMiners : UInt64 → Option ℕ)
    (row : UInt64 × UInt64) (p : ℕ) (m' : Miners) : Prop where
  table_eq : m'.table = Function.update newMiners row.1 (some p)
  deadline_eq : (m'.rounds p).deadline = 0xFFFFFFFFFFFFFFFF
  height_eq : (m'.rounds p).height = height
  recipId_eq : (m'.rounds p).recipId = row.2
  rounds_eq : ∀ q, q ≠ p → m'.rounds q = m.rounds q
  next_le : m.next ≤ m'.next
  lt_next : p < m'.next
  round : m.table row.1 = some p ∨ m.table row.1 = none ∧ m.next ≤ p

theorem exists_rowCached (hm : m.Allocated) (height : UInt64) (newMiners : UInt64 → Option ℕ)
    (row : UInt64 × UInt64) :
    ∃ p, RowCached m height newMiners row p (m.afterRow height newMiners row) := by
  unfold afterRow cacheRow
  cases ht : m.table row.1 with
  | none =>
    refine ⟨m.next, rfl, ?_, ?_, ?_, fun q hq => ?_, Nat.le_succ _, Nat.lt_succ_self _,
      .inr ⟨ht, le_rfl⟩⟩
    · simp
    · simp
    · simp
    · exact Function.update_of_ne hq _ _
  | some p =>
    refine ⟨p, rfl, ?_, ?_, ?_, fun q hq => ?_, le_rfl, hm _ p ht, .inl ht⟩
    · simp
    · simp
    · simp
    · exact Function.update_of_ne hq _ _

theorem RowCached.allocated {p : ℕ} {m' : Miners} (h : RowCached m height newMiners row p m')
    (hnew : ∀ a q, newMiners a = some q → q < m.next) : m'.Allocated := by
  intro a q hq
  rw [h.table_eq, Function.update_apply] at hq
  split_ifs at hq
  · exact Option.some.inj hq ▸ h.lt_next
  · exact (hnew a q hq).trans_le h.next_le

/-- What is known after a row: its own account as the row has it, and the others of the new
    table as before, if their rounds are others. -/
theorem RowCached.entry_eq {p : ℕ} {m' : Miners} (h : RowCached m height newMiners row p m')
    (hne : ∀ a, a ≠ row.1 → newMiners a ≠ some p) (a : UInt64) :
    m'.entry a = if a = row.1 then some (0xFFFFFFFFFFFFFFFF, height, row.2)
      else entry { m with table := newMiners } a := by
  rw [entry, h.table_eq, Function.update_apply]
  split_ifs with ha
  · rw [Option.map_some, h.deadline_eq, h.height_eq, h.recipId_eq]
  · refine Option.map_congr fun q hq => ?_
    have hqp : q ≠ p := by
      rintro rfl
      exact hne a ha hq
    rw [h.rounds_eq q hqp]

/-- The accounts have rounds of their own. -/
def Separate (m : Miners) : Prop := ∀ a b p, m.table a = some p → m.table b = some p → a = b

/-- The round of a row is none of another account. -/
theorem RowCached.ne_some {p : ℕ} {m' : Miners} (h : RowCached m height newMiners row p m')
    (hm : m.Allocated) (hs : m.Separate) {a : UInt64} (ha : a ≠ row.1) : m.table a ≠ some p := by
  intro hp
  rcases h.round with hrow | ⟨-, hle⟩
  · exact ha (hs _ _ _ hp hrow)
  · exact Nat.lt_irrefl _ (hle.trans_lt (hm a p hp))

theorem RowCached.separate {p : ℕ} {m' : Miners} (h : RowCached m height m.table row p m')
    (hm : m.Allocated) (hs : m.Separate) : m'.Separate := by
  intro a b q ha hb
  rw [h.table_eq, Function.update_apply] at ha hb
  split_ifs at ha hb with harow hbrow hbrow
  · rw [harow, hbrow]
  · obtain rfl := Option.some.inj ha
    exact absurd hb (h.ne_some hm hs hbrow)
  · obtain rfl := Option.some.inj hb
    exact absurd ha (h.ne_some hm hs harow)
  · exact hs a b q ha hb

theorem allocated_empty : ({} : Miners).Allocated := by
  intro a p hp
  cases hp

/-- `cache_miners` makes the rounds of its tables, whether or not it returns. -/
theorem allocated_cacheMiners (hm : m.Allocated) (height : UInt64) (res : Option ResultSet) :
    (m.cacheMiners height res).2.Allocated := by
  have hrows : ∀ (rows : List (UInt64 × UInt64)) (newMiners : UInt64 → Option ℕ) (m : Miners),
      m.Allocated → (∀ a q, newMiners a = some q → q < m.next) →
        (cacheRows height rows newMiners m).Allocated := by
    intro rows
    induction rows with
    | nil => exact fun _ _ hm _ => hm
    | cons row rows ih =>
      intro newMiners m hm hnew
      obtain ⟨p, h⟩ := exists_rowCached hm height newMiners row
      exact ih _ _ (h.allocated hnew) (h.allocated hnew)
  cases res with
  | none => exact hm
  | some res =>
    refine hrows res.rows _ m hm fun a q hq => ?_
    cases hq

/-! ## The loop -/

theorem ofRows_cons (rows : List (UInt64 × UInt64)) (a : UInt64) :
    ofRows height (row :: rows) a = (ofRows height rows a).or
      (if a = row.1 then some (0xFFFFFFFFFFFFFFFF, height, row.2) else none) := by
  rw [ofRows, ofRows, lastRecip, lastRecip, lookup_reverse_cons, Option.map_or]
  split_ifs
  · rfl
  · rfl

/-- Rows taken into the table in use, as all but the first are, take the place of what was
    known of their accounts. -/
theorem entry_loop (hm : m.Allocated) (hs : m.Separate) (rows : List (UInt64 × UInt64))
    (a : UInt64) :
    (cacheRows height rows m.table m).entry a = (ofRows height rows a).or (m.entry a) := by
  induction rows generalizing m with
  | nil => exact (Option.none_or).symm
  | cons row rows ih =>
    obtain ⟨p, h⟩ := exists_rowCached hm height m.table row
    rw [cacheRows_cons, ih (h.allocated hm) (h.separate hm hs),
      h.entry_eq fun _ ha => h.ne_some hm hs ha, ofRows_cons, Option.or_assoc]
    split_ifs
    · rw [Option.some_or]
    · rw [Option.none_or]

/-- They leave known accounts their rounds. -/
theorem table_loop_of_some (hm : m.Allocated) {a : UInt64} {p : ℕ} (hp : m.table a = some p)
    (rows : List (UInt64 × UInt64)) : (cacheRows height rows m.table m).table a = some p := by
  induction rows generalizing m with
  | nil => exact hp
  | cons row rows ih =>
    obtain ⟨q, h⟩ := exists_rowCached hm height m.table row
    refine ih (h.allocated hm) ?_
    rw [h.table_eq, Function.update_apply]
    split_ifs with ha
    · rcases h.round with hround | ⟨hround, -⟩
      · rw [← hround, ← ha, hp]
      · rw [← ha, hp] at hround
        cases hround
    · exact hp

/-- They give other accounts new rounds. -/
theorem next_le_loop (hm : m.Allocated) {a : UInt64} {p : ℕ} (hnone : m.table a = none)
    {rows : List (UInt64 × UInt64)} (hp : (cacheRows height rows m.table m).table a = some p) :
    m.next ≤ p := by
  induction rows generalizing m with
  | nil =>
    rw [show m.table a = some p from hp] at hnone
    cases hnone
  | cons row rows ih =>
    obtain ⟨q, h⟩ := exists_rowCached hm height m.table row
    rw [cacheRows_cons] at hp
    have hm' := h.allocated hm
    have htable := congrFun h.table_eq a
    rw [Function.update_apply] at htable
    split_ifs at htable with ha
    · obtain rfl := Option.some.inj ((table_loop_of_some hm' htable rows).symm.trans hp)
      rcases h.round with hround | ⟨-, hle⟩
      · rw [← ha, hnone] at hround
        cases hround
      · exact hle
    · exact h.next_le.trans (ih hm' (htable.trans hnone) hp)

/-! ## The first row -/

/-- The first row leaves its own account only. -/
theorem exists_firstRow (hm : m.Allocated) (height : UInt64) (row : UInt64 × UInt64) :
    ∃ p m', RowCached m height (fun _ => none) row p m' ∧ m'.Allocated ∧ m'.Separate ∧
      ∀ rows, cacheRows height (row :: rows) (fun _ => none) m =
        cacheRows height rows m'.table m' := by
  obtain ⟨p, h⟩ := exists_rowCached hm height (fun _ => none) row
  refine ⟨p, _, h, h.allocated fun _ _ hq => ?_, ?_, cacheRows_cons⟩
  · cases hq
  · intro a b q ha hb
    rw [h.table_eq, Function.update_apply] at ha hb
    split_ifs at ha hb with harow hbrow
    rw [harow, hbrow]

/-- With a row, what is known of the accounts are the last rows of each. -/
theorem entry_cacheRows (hm : m.Allocated) {rows : List (UInt64 × UInt64)} (hne : rows ≠ [])
    (a : UInt64) : (cacheRows height rows (fun _ => none) m).entry a = ofRows height rows a := by
  cases rows with
  | nil => exact absurd rfl hne
  | cons row rows =>
    obtain ⟨p, m', h, hm', hs', heq⟩ := exists_firstRow hm height row
    rw [heq, entry_loop hm' hs', h.entry_eq fun _ _ => nofun, ofRows_cons]
    rfl

/-! ## Replacing the table -/

/-- The table `m'` is that of the result set: it has the accounts of the rows, with the
    recipients of their last rows, in rounds that have just started at `height`, and those that
    were known in the same rounds as before. -/
structure Replaces (m : Miners) (height : UInt64) (rows : List (UInt64 × UInt64)) (m' : Miners) :
    Prop where
  accounts : ∀ a, (m'.getMinerRound a).isSome ↔ a ∈ rows.map Prod.fst
  recipient : ∀ a, m'.getRewardRecipient a = (lastRecip rows a).getD 0
  started : ∀ a p, m'.getMinerRound a = some p →
    (m'.rounds p).deadline = 0xFFFFFFFFFFFFFFFF ∧ (m'.rounds p).height = height
  same : ∀ a p, m.getMinerRound a = some p → a ∈ rows.map Prod.fst → m'.getMinerRound a = some p

/-- No known account but that of the first row has a row, and without a row none is known. -/
def FirstOnly (m : Miners) : List (UInt64 × UInt64) → Prop
  | [] => ∀ a, m.table a = none
  | row :: rows => ∀ r ∈ rows, r.1 ≠ row.1 → m.table r.1 = none

theorem ofRows_isSome {rows : List (UInt64 × UInt64)} {a : UInt64} :
    (ofRows height rows a).isSome ↔ a ∈ rows.map Prod.fst := by
  simp only [ofRows, lastRecip, Option.isSome_map, List.lookup_isSome_iff, List.mem_reverse,
    beq_iff_eq, List.mem_map]
  exact exists_congr fun _ => and_congr_right fun _ => eq_comm

theorem getRewardRecipient_eq (m : Miners) (a : UInt64) :
    m.getRewardRecipient a = (m.entry a).elim 0 fun e => e.2.2 := by
  rw [getRewardRecipient, entry]
  cases m.table a <;> rfl

/-- The table of a result set is known by its entries, up to the rounds that hold them. -/
theorem replaces_iff_entry {rows : List (UInt64 × UInt64)} {m' : Miners} :
    Replaces m height rows m' ↔ (∀ a, m'.entry a = ofRows height rows a) ∧
      ∀ a p, m.table a = some p → a ∈ rows.map Prod.fst → m'.table a = some p := by
  constructor
  · intro h
    refine ⟨fun a => ?_, h.same⟩
    have haccounts := h.accounts a
    have hrecip := h.recipient a
    rw [← @ofRows_isSome height, getMinerRound] at haccounts
    rw [getRewardRecipient_eq] at hrecip
    cases ht : m'.table a with
    | none =>
      rw [ht] at haccounts
      have hnone : ofRows height rows a = none := by simpa using haccounts
      rw [hnone, entry, ht, Option.map_none]
    | some p =>
      rw [ht] at haccounts
      obtain ⟨hdeadline, hheight⟩ := h.started a p ht
      obtain ⟨e, he⟩ := Option.isSome_iff_exists.mp (haccounts.mp rfl)
      obtain ⟨recipId, hlast, rfl⟩ := Option.map_eq_some_iff.mp he
      rw [entry, ht, hlast, Option.map_some, Option.elim_some, Option.getD_some] at hrecip
      dsimp only at hrecip
      rw [he, entry, ht, Option.map_some, hdeadline, hheight, hrecip]
  · rintro ⟨hentry, hsame⟩
    refine ⟨fun a => ?_, fun a => ?_, fun a p hp => ?_, hsame⟩
    · rw [← @ofRows_isSome height, ← hentry, entry, Option.isSome_map, getMinerRound]
    · rw [getRewardRecipient_eq, hentry, ofRows]
      cases lastRecip rows a <;> rfl
    · have he := hentry a
      rw [getMinerRound] at hp
      rw [entry, hp, Option.map_some] at he
      obtain ⟨recipId, -, he⟩ := Option.map_eq_some_iff.mp he.symm
      exact ⟨(Prod.mk.inj he).1.symm, (Prod.mk.inj (Prod.mk.inj he).2).1.symm⟩

/-- Without a row, nothing happens. -/
theorem replaces_nil_iff : Replaces m height [] m ↔ m.FirstOnly [] := by
  rw [replaces_iff_entry]
  refine ⟨fun h a => ?_, fun h => ⟨fun a => ?_, nofun⟩⟩
  · exact Option.map_eq_none_iff.mp (h.1 a)
  · rw [entry, h a]
    rfl

/-- The round of an account is kept if its row is the first one, or if it has none. -/
theorem replaces_cons_iff (hm : m.Allocated) (rows : List (UInt64 × UInt64)) :
    Replaces m height (row :: rows) (cacheRows height (row :: rows) (fun _ => none) m) ↔
      m.FirstOnly (row :: rows) := by
  rw [replaces_iff_entry, and_iff_right (entry_cacheRows hm (List.cons_ne_nil row rows))]
  obtain ⟨p, m', h, hm', hs', heq⟩ := exists_firstRow hm height row
  rw [heq]
  constructor
  · intro hsame r hr hne
    cases hp : m.table r.1 with
    | none => rfl
    | some q =>
      -- It would be in the table in use only if it were the first account.
      have hnone : m'.table r.1 = none := by rw [h.table_eq, Function.update_of_ne hne]
      have hmem : r.1 ∈ (row :: rows).map Prod.fst :=
        List.mem_map_of_mem (List.mem_cons_of_mem row hr)
      have hle := next_le_loop hm' hnone (hsame r.1 q hp hmem)
      exact absurd (hm r.1 q hp) (Nat.not_lt.mpr (h.next_le.trans hle))
  · intro hfirst a q hq hmem
    obtain rfl : a = row.1 := by
      rw [List.map_cons, List.mem_cons, List.mem_map] at hmem
      rcases hmem with rfl | ⟨r, hr, rfl⟩
      · rfl
      · by_contra hne
        rw [hfirst r hr hne] at hq
        cases hq
    rcases h.round with hround | ⟨hround, -⟩
    · obtain rfl := Option.some.inj (hq.symm.trans hround)
      exact table_loop_of_some hm' (by rw [h.table_eq, Function.update_self]) rows
    · rw [hround] at hq
      cases hq

/-- **`cache_miners` replaces the table by the query result** just when no known account but
    that of the first row has a row, and, if there is no row, no account is known. -/
theorem replaces_iff (hm : m.Allocated) (height : UInt64) (rows : List (UInt64 × UInt64)) :
    (m.cacheMiners height (some ⟨rows, false⟩)).1 = some () ∧
      (Replaces m height rows (m.cacheMiners height (some ⟨rows, false⟩)).2 ↔
        m.FirstOnly rows) := by
  refine ⟨rfl, ?_⟩
  cases rows with
  | nil => exact replaces_nil_iff
  | cons row rows => exact replaces_cons_iff hm rows

/-- Two known accounts, 7 and 8. -/
def twoKnown : Miners where
  table := Function.update (Function.update (fun _ => none) 7 (some 0)) 8 (some 1)
  rounds := fun _ => ⟨none, 50, 5, 9⟩
  next := 2

theorem allocated_twoKnown : twoKnown.Allocated := by
  intro a p hp
  simp only [twoKnown, Function.update_apply] at hp
  split_ifs at hp
  · exact Option.some.inj hp ▸ Nat.lt_succ_self 1
  · exact Option.some.inj hp ▸ Nat.zero_lt_two

/-- The account 7 has the first row and another one, the account 10 is new. -/
theorem replaces_twoKnown : Replaces twoKnown 6 [(7, 9), (10, 9), (7, 4)]
    (twoKnown.cacheMiners 6 (some ⟨[(7, 9), (10, 9), (7, 4)], false⟩)).2 :=
  (replaces_iff allocated_twoKnown 6 [(7, 9), (10, 9), (7, 4)]).2.mpr (by
    intro r hr hne
    rcases List.mem_pair.mp hr with rfl | rfl
    · rfl
    · exact absurd rfl hne)

/-- The account 8 does not keep its round if its row is the second one. -/
theorem not_replaces : ¬∀ (m : Miners) (height : UInt64) (rows : List (UInt64 × UInt64)),
    m.Allocated → Replaces m height rows (m.cacheMiners height (some ⟨rows, false⟩)).2 := by
  intro h
  have hsame := (h twoKnown 6 [(7, 9), (8, 9)] allocated_twoKnown).same 8 1 (by decide +kernel)
    (by decide +kernel)
  have hround : (twoKnown.cacheMiners 6 (some ⟨[(7, 9), (8, 9)], false⟩)).2.getMinerRound 8 =
      some 2 := by
    decide +kernel
  rw [hround] at hsame
  cases hsame

/-! ## Exceptions -/

/-- **`cache_miners` is all or nothing** just when the exception comes before the first row is
    complete, or the rows that are say of all accounts what was known of them. -/
theorem unchanged_iff (hm : m.Allocated) (height : UInt64) (rows : List (UInt64 × UInt64)) :
    (m.cacheMiners height (some ⟨rows, true⟩)).1 = none ∧
      ((∀ a, (m.cacheMiners height (some ⟨rows, true⟩)).2.entry a = m.entry a) ↔
        rows = [] ∨ ∀ a, m.entry a = ofRows height rows a) := by
  refine ⟨rfl, ?_⟩
  by_cases hne : rows = []
  · subst hne
    exact iff_of_true (fun _ => rfl) (.inl rfl)
  · rw [or_iff_right hne]
    refine forall_congr' fun a => ?_
    rw [show (m.cacheMiners height (some ⟨rows, true⟩)).2.entry a = ofRows height rows a from
      entry_cacheRows hm hne a]
    exact eq_comm

/-- The accounts 7 and 8, as they are cached at the height 5. -/
def twoCached : Miners := (({} : Miners).cacheMiners 5 (some ⟨[(7, 9), (8, 4)], false⟩)).2

/-- An exception on the first row; and one after rows that say, in the end, what is known. -/
theorem unchanged_twoCached : ((twoCached.cacheMiners 6 (some ⟨[], true⟩)).1 = none ∧
      ∀ a, (twoCached.cacheMiners 6 (some ⟨[], true⟩)).2.entry a = twoCached.entry a) ∧
    (twoCached.cacheMiners 5 (some ⟨[(8, 1), (7, 9), (8, 4)], true⟩)).1 = none ∧
      ∀ a, (twoCached.cacheMiners 5 (some ⟨[(8, 1), (7, 9), (8, 4)], true⟩)).2.entry a =
        twoCached.entry a := by
  have hm : twoCached.Allocated := allocated_cacheMiners allocated_empty 5 _
  have hentry : ∀ a, twoCached.entry a = ofRows 5 [(8, 1), (7, 9), (8, 4)] a := by
    intro a
    have hlast : lastRecip [(7, 9), (8, 4)] a = lastRecip [(8, 1), (7, 9), (8, 4)] a := by
      simp only [lastRecip, lookup_reverse_cons, List.reverse_nil, List.lookup_nil, Option.none_or]
      by_cases h8 : a = 8
      · simp [h8]
      · simp [h8]
    have hcached : (cacheRows 5 [(7, 9), (8, 4)] (fun _ => none) {}).entry a =
        ofRows 5 [(7, 9), (8, 4)] a :=
      entry_cacheRows allocated_empty (List.cons_ne_nil _ _) a
    rw [ofRows, ← hlast]
    exact hcached
  exact ⟨(unchanged_iff hm 6 []).imp_right fun h => h.mpr (.inl rfl),
    (unchanged_iff hm 5 [(8, 1), (7, 9), (8, 4)]).imp_right fun h => h.mpr (.inr hentry)⟩

/-- After a row, the account 8 is no longer known. -/
theorem not_unchanged : ¬∀ (m : Miners) (height : UInt64) (rows : List (UInt64 × UInt64)),
    m.Allocated → ∀ a, (m.cacheMiners height (some ⟨rows, true⟩)).2.entry a = m.entry a := by
  intro h
  have hentry := h twoKnown 6 [(7, 9)] allocated_twoKnown 8
  have hnone : (twoKnown.cacheMiners 6 (some ⟨[(7, 9)], true⟩)).2.entry 8 = none := by
    decide +kernel
  rw [hnone] at hentry
  cases hentry

end BurstPoolNode.Miners

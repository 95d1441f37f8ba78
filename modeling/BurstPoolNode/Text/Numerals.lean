import BurstPoolNode.Text.Digits

/-!
# Numerals

Which texts `std::stoull` reads, and which of them are numerals: not empty, and
made of decimal digits only.

* `Begins.stoull_eq`, `exists_begins`: the texts it reads are those that begin
  with a numeral below `2 ^ 64`, after blanks and a sign (`Begins`);
* `readsDecimals_iff`: it tells numerals below `2 ^ 64` from other texts, unless
  there are blanks, a sign, or characters after the digits (`Decorated`);
* `Canonical.eq`: numerals without leading zeros are equal if their numbers are.
-/

namespace BurstPoolNode

/-- Decimal digits that denote `v`. -/
def Decimal (s : String) (v : UInt64) : Prop :=
  s.toList ≠ [] ∧ (∀ c ∈ s.toList, c.isDigit = true) ∧ digitsValue s.toList = v.toNat

/-- The text begins with a numeral below `2 ^ 64` that is not followed by a digit, after blanks
    and a sign. -/
structure Begins (s : String) (blanks sgn digits rest : List Char) : Prop where
  toList_eq : s.toList = blanks ++ (sgn ++ (digits ++ rest))
  blank : ∀ c ∈ blanks, isSpace c = true
  sgn_cases : sgn = [] ∨ sgn = ['+'] ∨ sgn = ['-']
  ne_nil : digits ≠ []
  digit : ∀ c ∈ digits, c.isDigit = true
  lt : digitsValue digits < UInt64.size
  ends : ∀ c ∈ rest.head?, c.isDigit = false

/-- The text begins so, but is not that numeral. -/
def Decorated (s : String) : Prop :=
  ∃ blanks sgn digits rest, Begins s blanks sgn digits rest ∧ (blanks ≠ [] ∨ sgn ≠ [] ∨ rest ≠ [])

/-! ## What is read -/

/-- A text that begins with a numeral is read. -/
theorem Begins.stoull_eq {s : String} {blanks sgn digits rest : List Char}
    (h : Begins s blanks sgn digits rest) :
    stoull s = some (if sgn = ['-'] then -UInt64.ofNat (digitsValue digits)
      else UInt64.ofNat (digitsValue digits)) := by
  obtain ⟨hs, hblanks, hsgn, hne, hdigits, hlt, hrest⟩ := h
  obtain ⟨c, cs, rfl⟩ := List.exists_cons_of_ne_nil hne
  obtain ⟨hspace, hminus, hplus⟩ := not_isSpace_of_isDigit (hdigits c List.mem_cons_self)
  have htake : (c :: cs ++ rest).takeWhile Char.isDigit = c :: cs := by
    rw [List.takeWhile_append_of_pos hdigits]
    cases rest with
    | nil => rw [List.takeWhile_nil, List.append_nil]
    | cons d rest => rw [List.takeWhile_cons_of_neg (by simp [hrest d rfl]), List.append_nil]
  have hdrop : s.toList.dropWhile isSpace = sgn ++ (c :: cs ++ rest) := by
    rw [hs, List.dropWhile_append_of_pos hblanks]
    rcases hsgn with rfl | rfl | rfl
    · exact List.dropWhile_cons_of_neg (by simp [hspace])
    · rfl
    · rfl
  have hsign : sign (sgn ++ (c :: cs ++ rest)) = (decide (sgn = ['-']), c :: cs ++ rest) := by
    rcases hsgn with rfl | rfl | rfl
    · rw [List.nil_append, List.cons_append, sign]
      · rfl
      · exact fun _ h => hminus (List.cons.inj h).1
      · exact fun _ h => hplus (List.cons.inj h).1
    · rfl
    · rfl
  rw [stoull, hdrop, hsign]
  dsimp only
  rw [htake, if_neg (by simp), if_neg (Nat.not_le.mpr hlt)]
  simp only [decide_eq_true_eq]
  split_ifs
  · rfl
  · rfl

/-- What follows a sign, if there is one. -/
theorem sign_cases (cs : List Char) : ∃ sgn, (sgn = [] ∨ sgn = ['+'] ∨ sgn = ['-']) ∧
    cs = sgn ++ (sign cs).2 := by
  unfold sign
  split
  · exact ⟨['-'], .inr (.inr rfl), rfl⟩
  · exact ⟨['+'], .inr (.inl rfl), rfl⟩
  · exact ⟨[], .inl rfl, rfl⟩

/-- A text that is read begins with a numeral. -/
theorem exists_begins {s : String} {v : UInt64} (h : stoull s = some v) :
    ∃ blanks sgn digits rest, Begins s blanks sgn digits rest := by
  obtain ⟨sgn, hsgn, hsign⟩ := sign_cases (s.toList.dropWhile isSpace)
  rw [stoull] at h
  dsimp only at h
  generalize (sign (s.toList.dropWhile isSpace)).2 = cs at h hsign
  split at h
  · cases h
  · next hempty =>
    split at h
    · cases h
    · next hsize =>
      refine ⟨s.toList.takeWhile isSpace, sgn, cs.takeWhile Char.isDigit,
        cs.dropWhile Char.isDigit, ?_, fun c hc => List.mem_takeWhile_imp hc, hsgn,
        fun hnil => hempty (List.isEmpty_iff.mpr hnil), fun c hc => List.mem_takeWhile_imp hc,
        Nat.not_le.mp hsize, fun c hc => ?_⟩
      · rw [List.takeWhile_append_dropWhile, ← hsign, List.takeWhile_append_dropWhile]
      · have hnot := List.head?_dropWhile_not Char.isDigit cs
        rw [Option.mem_def.mp hc] at hnot
        exact hnot

/-! ## Numerals among the texts -/

theorem Decimal.stoull_eq {s : String} {v : UInt64} (h : Decimal s v) : stoull s = some v := by
  obtain ⟨hne, hdigits, hvalue⟩ := h
  rw [stoull_of_digits hne hdigits (hvalue ▸ v.toNat_lt), hvalue, UInt64.ofNat_toNat]

/-- A text that is read is a numeral, or decorated. -/
theorem decimal_or_decorated {s : String} {v : UInt64} (h : stoull s = some v) :
    Decimal s v ∨ Decorated s := by
  obtain ⟨blanks, sgn, digits, rest, hbegins⟩ := exists_begins h
  by_cases hplain : blanks = [] ∧ sgn = [] ∧ rest = []
  · obtain ⟨rfl, rfl, rfl⟩ := hplain
    have hs : s.toList = digits := by
      rw [hbegins.toList_eq, List.nil_append, List.nil_append, List.append_nil]
    have hv := hbegins.stoull_eq.symm.trans h
    rw [if_neg (by simp), Option.some.injEq] at hv
    refine .inl ⟨hs ▸ hbegins.ne_nil, hs ▸ hbegins.digit, ?_⟩
    rw [hs, ← hv, UInt64.toNat_ofNat_of_lt' hbegins.lt]
  · refine .inr ⟨blanks, sgn, digits, rest, hbegins, ?_⟩
    by_contra hnone
    push Not at hnone
    exact hplain hnone

/-- A decorated text is not one of digits. -/
theorem Decorated.not_forall_isDigit {s : String} (h : Decorated s) :
    ¬∀ c ∈ s.toList, c.isDigit = true := by
  intro hdigits
  obtain ⟨blanks, sgn, digits, rest, hbegins, hdecorated⟩ := h
  rw [hbegins.toList_eq] at hdigits
  rcases hdecorated with hne | hne | hne
  · obtain ⟨c, cs, rfl⟩ := List.exists_cons_of_ne_nil hne
    have hspace := hbegins.blank c List.mem_cons_self
    have hdigit := hdigits c (List.mem_append_left _ List.mem_cons_self)
    rw [(not_isSpace_of_isDigit hdigit).1] at hspace
    cases hspace
  · rcases hbegins.sgn_cases with rfl | rfl | rfl
    · exact hne rfl
    · exact absurd (hdigits '+' (by simp)) (by decide)
    · exact absurd (hdigits '-' (by simp)) (by decide)
  · obtain ⟨c, cs, rfl⟩ := List.exists_cons_of_ne_nil hne
    have hnot := hbegins.ends c rfl
    rw [hdigits c (by simp)] at hnot
    cases hnot

/-- A decorated text is read. -/
theorem Decorated.exists_stoull_eq {s : String} (h : Decorated s) : ∃ v, stoull s = some v := by
  obtain ⟨_, _, _, _, hbegins, -⟩ := h
  exact ⟨_, hbegins.stoull_eq⟩

/-- What reads a text as `std::stoull` does reads the numerals below `2 ^ 64`, and no other
    text, unless the text is decorated. -/
theorem readsDecimals_iff (s : String) :
    ((∀ v, stoull s = some v ↔ Decimal s v) ∧ (stoull s = none ↔ ∀ v, ¬Decimal s v)) ↔
      ¬Decorated s := by
  constructor
  · rintro ⟨hreads, -⟩ hdecorated
    obtain ⟨v, hv⟩ := hdecorated.exists_stoull_eq
    exact hdecorated.not_forall_isDigit ((hreads v).mp hv).2.1
  · intro hplain
    have hreads : ∀ v, stoull s = some v ↔ Decimal s v := fun v =>
      ⟨fun hv => (decimal_or_decorated hv).resolve_right hplain, Decimal.stoull_eq⟩
    refine ⟨hreads, ?_⟩
    rw [Option.eq_none_iff_forall_ne_some]
    exact forall_congr' fun v => not_congr (hreads v)

theorem dropWhile_append_cons {p : Char → Bool} {c : Char} (hc : p c = false) (cs ds : List Char) :
    (cs ++ c :: ds).dropWhile p = cs.dropWhile p ++ c :: ds := by
  rw [List.dropWhile_append]
  split_ifs with h
  · rw [List.isEmpty_iff.mp h, List.dropWhile_cons_of_neg (by simp [hc]), List.nil_append]
  · rfl

theorem takeWhile_append_cons {p : Char → Bool} {c : Char} (hc : p c = false) (cs ds : List Char) :
    (cs ++ c :: ds).takeWhile p = cs.takeWhile p := by
  rw [List.takeWhile_append]
  split_ifs with h
  · rw [List.takeWhile_cons_of_neg (by simp [hc]), List.append_nil,
      List.Sublist.eq_of_length (List.takeWhile_sublist p) h]
  · rfl

theorem sign_append_cons {c : Char} (hminus : c ≠ '-') (hplus : c ≠ '+') (cs ds : List Char) :
    sign (cs ++ c :: ds) = ((sign cs).1, (sign cs).2 ++ c :: ds) := by
  cases cs with
  | nil =>
    rw [List.nil_append, sign]
    · rfl
    · exact fun _ h => hminus (List.cons.inj h).1
    · exact fun _ h => hplus (List.cons.inj h).1
  | cons d cs =>
    by_cases hd : d = '-' ∨ d = '+'
    · rcases hd with rfl | rfl <;> rfl
    · rw [not_or] at hd
      have hsign : ∀ cs, sign (d :: cs) = (false, d :: cs) := by
        intro cs
        rw [sign]
        · exact fun _ h => hd.1 (List.cons.inj h).1
        · exact fun _ h => hd.2 (List.cons.inj h).1
      rw [List.cons_append, hsign, hsign, List.cons_append]

/-- The text up to its first NUL is read as all of it. -/
theorem stoull_cString (s : String) : stoull (cString s) = stoull s := by
  by_cases hnul : nul ∈ s.toList
  · obtain ⟨cs, ds, hs, hcs⟩ := List.eq_append_cons_of_mem hnul
    have htake : (cString s).toList = cs := by
      rw [cString, String.toList_ofList, hs, takeWhile_append_cons (by simp)]
      exact List.takeWhile_eq_self_iff.mpr fun c hc => decide_eq_true fun h => hcs (h ▸ hc)
    rw [stoull, stoull, htake, hs, dropWhile_append_cons (by decide),
      sign_append_cons (by decide) (by decide)]
    dsimp only
    rw [takeWhile_append_cons (by decide)]
  · rw [cString_of_forall_ne fun c hc h => hnul (h ▸ hc)]

/-! ## Numerals without leading zeros -/

/-- A numeral without leading zeros. -/
def Canonical (s : String) : Prop :=
  s.toList ≠ [] ∧ (∀ c ∈ s.toList, c.isDigit = true) ∧
    (s.toList = ['0'] ∨ s.toList.head? ≠ some '0')

/-- The value of a digit. -/
def digitValue (c : Char) : ℕ := c.toNat - '0'.toNat

theorem digitValue_lt {c : Char} (h : c.isDigit = true) : digitValue c < 10 := by
  have hle := toNat_of_isDigit h
  rw [digitValue, show '0'.toNat = 48 from rfl]
  omega

theorem digitValue_inj {c d : Char} (hc : c.isDigit = true) (hd : d.isDigit = true)
    (h : digitValue c = digitValue d) : c = d := by
  have hcle := toNat_of_isDigit hc
  have hdle := toNat_of_isDigit hd
  rw [digitValue, digitValue, show '0'.toNat = 48 from rfl] at h
  exact Char.toNat_inj.mp (by omega)

/-- Digits with the same values are the same. -/
theorem map_digitValue_inj {cs ds : List Char} (hcs : ∀ c ∈ cs, c.isDigit = true)
    (hds : ∀ d ∈ ds, d.isDigit = true) (h : cs.map digitValue = ds.map digitValue) : cs = ds := by
  induction cs generalizing ds with
  | nil => exact (List.map_eq_nil_iff.mp h.symm).symm
  | cons c cs ih =>
    cases ds with
    | nil => cases h
    | cons d ds =>
      rw [List.map_cons, List.map_cons, List.cons.injEq] at h
      rw [digitValue_inj (hcs c List.mem_cons_self) (hds d List.mem_cons_self) h.1,
        ih (fun c hc => hcs c (List.mem_cons_of_mem _ hc))
          (fun d hd => hds d (List.mem_cons_of_mem _ hd)) h.2]

theorem digitsValue_eq_ofDigits (cs : List Char) :
    digitsValue cs = Nat.ofDigits 10 (cs.reverse.map digitValue) := by
  induction cs using List.reverseRecOn with
  | nil => rfl
  | append_singleton cs c ih =>
    rw [List.reverse_concat, List.map_cons, Nat.ofDigits_cons, ← ih, digitsValue, List.foldl_append,
      List.foldl_cons, List.foldl_nil, ← digitsValue, ← digitValue, Nat.add_comm]

/-- The digits of the number are those of the numeral, if it is not `0`. -/
theorem Canonical.digits_eq {s : String} (h : Canonical s) (hzero : s.toList ≠ ['0']) :
    Nat.digits 10 (digitsValue s.toList) = s.toList.reverse.map digitValue := by
  obtain ⟨hne, hdigits, hlead⟩ := h
  rw [digitsValue_eq_ofDigits]
  refine Nat.digits_ofDigits 10 (by decide) _ (fun d hd => ?_) fun hlast => ?_
  · obtain ⟨c, hc, rfl⟩ := List.mem_map.mp hd
    exact digitValue_lt (hdigits c (List.mem_reverse.mp hc))
  · -- The last digit of the number is the first one of the numeral.
    obtain ⟨c, cs, hcs⟩ := List.exists_cons_of_ne_nil hne
    have hc : c ≠ '0' := by
      rintro rfl
      exact (hlead.resolve_left hzero) (by rw [hcs]; rfl)
    simp only [hcs, List.reverse_cons, List.map_append, List.map_cons, List.map_nil,
      List.getLast_append_singleton]
    intro hvalue
    refine hc (digitValue_inj (hdigits c ?_) (by decide) hvalue)
    rw [hcs]
    exact List.mem_cons_self

/-- A numeral without leading zeros for 0 is `0`. -/
theorem Canonical.eq_zero {s : String} (h : Canonical s) (hvalue : digitsValue s.toList = 0) :
    s.toList = ['0'] := by
  by_contra hzero
  have hdigits := h.digits_eq hzero
  rw [hvalue, Nat.digits_zero] at hdigits
  exact h.1 (List.reverse_eq_nil_iff.mp (List.map_eq_nil_iff.mp hdigits.symm))

/-- Numerals without leading zeros are equal if their numbers are. -/
theorem Canonical.eq {s t : String} (hs : Canonical s) (ht : Canonical t)
    (h : digitsValue s.toList = digitsValue t.toList) : s = t := by
  rw [← String.toList_inj]
  by_cases hszero : s.toList = ['0']
  · rw [hszero] at h ⊢
    exact (ht.eq_zero h.symm).symm
  · by_cases htzero : t.toList = ['0']
    · rw [htzero] at h
      exact absurd (hs.eq_zero h) hszero
    · have hmap : s.toList.reverse.map digitValue = t.toList.reverse.map digitValue := by
        rw [← hs.digits_eq hszero, ← ht.digits_eq htzero, h]
      exact List.reverse_inj.mp (map_digitValue_inj (fun c hc => hs.2.1 c (List.mem_reverse.mp hc))
        (fun c hc => ht.2.1 c (List.mem_reverse.mp hc)) hmap)

end BurstPoolNode

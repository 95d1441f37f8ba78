import Mathlib
import BurstPoolNode.Text

/-!
# Digits

Numbers and bytes as text, read back: `std::stoull` of `std::to_string` is the
number (`stoull_toDecimal`), and `sscanf` with `%2hhx` gives the byte that two
hexadecimal digits write (`scanHex2_cons_cons`). `hexByte` is that byte, taken
out of a text of such pairs, and `encodeHex` writes bytes as pairs again.
-/

namespace BurstPoolNode

/-! ## C strings -/

theorem cString_of_forall_ne {s : String} (h : ∀ c ∈ s.toList, c ≠ nul) : cString s = s := by
  have htake : s.toList.takeWhile (· ≠ nul) = s.toList :=
    List.takeWhile_eq_self_iff.mpr fun c hc => by simpa using h c hc
  rw [cString, htake, String.ofList_toList]

/-! ## Decimal numbers -/

theorem toList_toDecimal (n : UInt64) : (toDecimal n).toList = Nat.toDigits 10 n.toNat := by
  rw [toDecimal, Nat.toString_eq_ofList_toDigits, String.toList_ofList]

theorem isDigit_of_mem_toDecimal {n : UInt64} {c : Char} (h : c ∈ (toDecimal n).toList) :
    c.isDigit = true := by
  rw [toList_toDecimal] at h
  exact Nat.isDigit_of_mem_toDigits (by decide) (by decide) h

theorem toNat_of_isDigit {c : Char} (h : c.isDigit = true) : 48 ≤ c.toNat ∧ c.toNat ≤ 57 := by
  simpa [Char.isDigit, UInt32.le_iff_toNat_le] using h

/-- A digit is neither a blank nor a sign. -/
theorem not_isSpace_of_isDigit {c : Char} (h : c.isDigit = true) :
    isSpace c = false ∧ c ≠ '-' ∧ c ≠ '+' := by
  have hle := toNat_of_isDigit h
  refine ⟨?_, ?_, ?_⟩
  · have hne : c ≠ ' ' := by
      rintro rfl
      exact absurd hle.1 (by decide)
    simp [isSpace, hne]
    omega
  · rintro rfl
    exact absurd hle.1 (by decide)
  · rintro rfl
    exact absurd hle.1 (by decide)

/-- A sequence of digits is read as the number it writes. -/
theorem stoull_of_digits {s : String} (hne : s.toList ≠ [])
    (hdigits : ∀ c ∈ s.toList, c.isDigit = true) (hlt : digitsValue s.toList < UInt64.size) :
    stoull s = some (UInt64.ofNat (digitsValue s.toList)) := by
  cases hs : s.toList with
  | nil => exact absurd hs hne
  | cons c cs =>
    rw [hs] at hdigits hlt
    obtain ⟨hspace, hminus, hplus⟩ := not_isSpace_of_isDigit (hdigits c List.mem_cons_self)
    have hdrop : (c :: cs).dropWhile isSpace = c :: cs := by
      rw [List.dropWhile_cons, if_neg (by simp [hspace])]
    have hsign : sign (c :: cs) = (false, c :: cs) := by
      rw [sign]
      · rintro _ ⟨⟩
        exact hminus rfl
      · rintro _ ⟨⟩
        exact hplus rfl
    have htake : (c :: cs).takeWhile Char.isDigit = c :: cs :=
      List.takeWhile_eq_self_iff.mpr hdigits
    rw [stoull, hs, hdrop, hsign]
    dsimp only
    rw [htake, if_neg (by simp), if_neg (Nat.not_le.mpr hlt), if_neg Bool.false_ne_true]

theorem toDecimal_ne_nil (n : UInt64) : (toDecimal n).toList ≠ [] := by
  rw [toList_toDecimal]
  exact Nat.toDigits_ne_nil

theorem digitsValue_toDecimal (n : UInt64) : digitsValue (toDecimal n).toList = n.toNat := by
  rw [toList_toDecimal, digitsValue, ← Nat.ofDigitChars_eq_foldl]
  exact Nat.ofDigitChars_ten_toDigits

@[simp] theorem stoull_toDecimal (n : UInt64) : stoull (toDecimal n) = some n := by
  have hvalue := digitsValue_toDecimal n
  rw [stoull_of_digits (toDecimal_ne_nil n) (fun c => isDigit_of_mem_toDecimal)
    (hvalue ▸ n.toNat_lt), hvalue, UInt64.ofNat_toNat]

/-! ## Hexadecimal bytes -/

/-- `n` hexadecimal digits, and nothing else. -/
def IsHex (n : ℕ) (s : String) : Prop :=
  s.toList.length = n ∧ ∀ c ∈ s.toList, (hexDigit c).isSome

instance (n : ℕ) (s : String) : Decidable (IsHex n s) :=
  decidable_of_iff (s.toList.length = n ∧ s.toList.all (fun c => (hexDigit c).isSome) = true)
    (by rw [IsHex, List.all_eq_true])

/-- The byte that the `i`-th pair of characters writes. -/
def hexByte (s : String) (i : ℕ) : Option UInt8 := do
  let d ← hexDigit (← s.toList[2 * i]?)
  let d' ← hexDigit (← s.toList[2 * i + 1]?)
  return UInt8.ofNat (16 * d + d')

/-- The two digits of a byte, in lower case. -/
def hexPair (b : UInt8) : List Char := [(b.toNat / 16).digitChar, (b.toNat % 16).digitChar]

/-- Bytes as pairs of digits, in lower case. -/
def encodeHex (bs : List UInt8) : String := String.ofList (bs.flatMap hexPair)

/-- A hexadecimal digit is the digit of its value, up to its case, and neither a blank nor
    the end of a text. -/
theorem hexDigit_spec {c : Char} {d : ℕ} (h : hexDigit c = some d) :
    d < 16 ∧ d.digitChar = c.toLower ∧ isSpace c = false ∧ c ≠ nul := by
  have hc : c.toNat < 128 := by
    by_contra hc
    rw [hexDigit] at h
    split_ifs at h with h₁ h₂ h₃
    all_goals
      simp only [Char.le_def, UInt32.le_iff_toNat_le] at *
      simp at *
      omega
  have hall : ∀ n : Fin 128, ∀ d ∈ hexDigit (Char.ofNat n), d < 16 ∧
      d.digitChar = (Char.ofNat n).toLower ∧ isSpace (Char.ofNat n) = false ∧
        Char.ofNat n ≠ nul := by
    decide +kernel
  simpa using hall ⟨c.toNat, hc⟩ d (by simpa using h)

theorem cString_of_isHex {n : ℕ} {s : String} (h : IsHex n s) : cString s = s := by
  refine cString_of_forall_ne fun c hc => ?_
  obtain ⟨d, hd⟩ := Option.isSome_iff_exists.mp (h.2 c hc)
  exact (hexDigit_spec hd).2.2.2

theorem scanHex2_cons_cons {c c' : Char} {d d' : ℕ} (h : hexDigit c = some d)
    (h' : hexDigit c' = some d') (cs : List Char) :
    scanHex2 (c :: c' :: cs) = some (UInt8.ofNat (16 * d + d')) := by
  obtain ⟨-, -, hspace, hnul⟩ := hexDigit_spec h
  obtain ⟨-, -, -, hnul'⟩ := hexDigit_spec h'
  rw [scanHex2, List.takeWhile_cons_of_pos (by simpa using hnul),
    List.takeWhile_cons_of_pos (by simpa using hnul'),
    List.dropWhile_cons_of_neg (by simp [hspace])]
  simp only [h, h']

theorem hexByte_of_getElem? {s : String} {i : ℕ} {c c' : Char} {d d' : ℕ}
    (hc : s.toList[2 * i]? = some c) (hc' : s.toList[2 * i + 1]? = some c')
    (h : hexDigit c = some d) (h' : hexDigit c' = some d') :
    hexByte s i = some (UInt8.ofNat (16 * d + d')) := by
  simp [hexByte, hc, hc', h, h']

/-- A text of pairs of digits, as the digits of each pair. -/
theorem IsHex.pair {n : ℕ} {s : String} (h : IsHex (2 * n) s) {i : ℕ} (hi : i < n) :
    ∃ c c' d d', s.toList.drop (2 * i) = c :: c' :: s.toList.drop (2 * i + 2) ∧
      hexDigit c = some d ∧ hexDigit c' = some d' ∧
      hexByte s i = some (UInt8.ofNat (16 * d + d')) := by
  obtain ⟨hlen, hdigits⟩ := h
  have hlt : 2 * i < s.toList.length := by omega
  have hlt' : 2 * i + 1 < s.toList.length := by omega
  obtain ⟨d, hd⟩ := Option.isSome_iff_exists.mp (hdigits _ (List.getElem_mem hlt))
  obtain ⟨d', hd'⟩ := Option.isSome_iff_exists.mp (hdigits _ (List.getElem_mem hlt'))
  refine ⟨_, _, d, d', ?_, hd, hd', hexByte_of_getElem? (List.getElem?_eq_getElem hlt)
    (List.getElem?_eq_getElem hlt') hd hd'⟩
  rw [List.drop_eq_getElem_cons hlt, List.drop_eq_getElem_cons hlt']

/-- Bytes read from pairs of digits are written as the same digits, up to their case. -/
theorem flatMap_hexPair {n : ℕ} {cs : List Char} (hlen : cs.length = 2 * n)
    (bs : Fin n → UInt8) (h : ∀ i : Fin n, ∃ c c' d d',
      cs.drop (2 * i) = c :: c' :: cs.drop (2 * i + 2) ∧
      hexDigit c = some d ∧ hexDigit c' = some d' ∧ bs i = UInt8.ofNat (16 * d + d')) :
    (List.ofFn bs).flatMap hexPair = cs.map Char.toLower := by
  induction n generalizing cs with
  | zero =>
    obtain rfl := List.length_eq_zero_iff.mp hlen
    rfl
  | succ n ih =>
    obtain ⟨c, c', d, d', hcs, hd, hd', hb⟩ := h 0
    obtain ⟨hlt, hlower, -, -⟩ := hexDigit_spec hd
    obtain ⟨hlt', hlower', -, -⟩ := hexDigit_spec hd'
    have hpair : hexPair (bs 0) = [c.toLower, c'.toLower] := by
      have hnat : (bs 0).toNat = 16 * d + d' := by
        rw [hb, UInt8.toNat_ofNat']
        omega
      rw [hexPair, hnat, ← hlower, ← hlower', show (16 * d + d') / 16 = d by omega,
        show (16 * d + d') % 16 = d' by omega]
    have htail : ∀ i : Fin n, cs.drop (2 * i.succ) = (cs.drop 2).drop (2 * i) := fun i => by
      rw [List.drop_drop, Fin.val_succ, Nat.mul_succ, Nat.add_comm]
    have hrest := @ih (cs.drop 2) (by rw [List.length_drop]; omega) (fun i => bs i.succ)
      fun i => by
        obtain ⟨c, c', d, d', hcs, h⟩ := h i.succ
        refine ⟨c, c', d, d', ?_, h⟩
        rw [← htail, hcs, List.drop_drop, Fin.val_succ]
        congr 3
        omega
    rw [List.ofFn_succ, List.flatMap_cons, hrest, hpair]
    simp only [Fin.val_zero, Nat.mul_zero, List.drop_zero] at hcs
    conv_rhs => rw [hcs]
    rfl

end BurstPoolNode

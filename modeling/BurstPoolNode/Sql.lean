import BurstPoolNode.Text.Digits

/-!
# Queries

The queries of SQL of the form

  `SELECT casts FROM table WHERE operand IN (casts) AND operand = operand`,

on integers of 64 bits: their text as a sequence of words and symbols (`lex`),
what it says (`parse`), and the rows it selects (`Select.rows`). The names of
the columns are a parameter, as the table is.
-/

namespace BurstPoolNode.Sql

/-! ## Words -/

/-- The characters of names, keywords and numbers. -/
def isWordChar (c : Char) : Bool := c.isAlphanum || c = '_'

/-- A word, if it has characters. -/
def word (w : List Char) : List String := if w.isEmpty then [] else [String.ofList w]

/-- A character outside of words: a blank, or a symbol. -/
def symbol (c : Char) : List String := if c = ' ' then [] else [String.singleton c]

/-- The words and symbols of a text that follows the characters `w` of a word. -/
def lex (w : List Char) : List Char → List String
  | [] => word w
  | c :: cs => if isWordChar c then lex (w ++ [c]) cs else word w ++ symbol c ++ lex [] cs

/-- A text after a character outside of words has words of its own. -/
theorem lex_append {c : Char} (hc : isWordChar c = false) (w cs ds : List Char) :
    lex w (cs ++ c :: ds) = lex w (cs ++ [c]) ++ lex [] ds := by
  induction cs generalizing w with
  | nil => simp [lex, hc, word]
  | cons d cs ih =>
    rw [List.cons_append, List.cons_append, lex, lex]
    split_ifs
    · exact ih _
    · rw [ih, ← List.append_assoc]

/-- A word in front. -/
theorem lex_word {u : List Char} (hne : u ≠ []) (hu : ∀ c ∈ u, isWordChar c = true) {c : Char}
    (hc : isWordChar c = false) (ds : List Char) :
    lex [] (u ++ c :: ds) = String.ofList u :: symbol c ++ lex [] ds := by
  have hword : ∀ (w u : List Char), (∀ c ∈ u, isWordChar c = true) →
      lex w (u ++ c :: ds) = word (w ++ u) ++ symbol c ++ lex [] ds := by
    intro w u hu
    induction u generalizing w with
    | nil => rw [List.nil_append, lex, if_neg (by simp [hc]), List.append_nil]
    | cons d u ih =>
      rw [List.forall_mem_cons] at hu
      rw [List.cons_append, lex, if_pos hu.1, ih _ hu.2, List.append_assoc w,
        List.singleton_append]
  rw [hword [] u hu, List.nil_append, word, if_neg (by simpa using hne)]
  rfl

/-! ## Expressions -/

variable {κ : Type*}

/-- An expression on the columns `κ`. -/
inductive Expr (κ : Type*)
  | column (c : κ)
  | number (n : ℕ)
  | castSigned (e : Expr κ)
  | castUnsigned (e : Expr κ)

/-- The value of an expression in a row. Casts are those of the two's complement. -/
def Expr.eval (row : κ → ℤ) : Expr κ → ℤ
  | .column c => row c
  | .number n => n
  | .castSigned e => (e.eval row).bmod (2 ^ 64)
  | .castUnsigned e => e.eval row % 2 ^ 64

/-- A number of 64 bits survives its cast to a signed one and back. -/
theorem bmod_emod_of_toNat (n : UInt64) : Int.bmod n.toNat (2 ^ 64) % 2 ^ 64 = n.toNat := by
  have hlt := n.toNat_lt
  rw [show (2 ^ 64 : ℤ) = ((2 ^ 64 : ℕ) : ℤ) from rfl, Int.bmod_emod]
  exact Int.emod_eq_of_lt (by omega) (by omega)

/-- A query. -/
structure Select (κ : Type*) where
  columns : List (Expr κ)
  table : String
  member : Expr κ
  set : List (Expr κ)
  left : Expr κ
  right : Expr κ

namespace Select

/-- The condition of the query. -/
def Holds (q : Select κ) (row : κ → ℤ) : Prop :=
  q.member.eval row ∈ q.set.map (Expr.eval row) ∧ q.left.eval row = q.right.eval row

instance (q : Select κ) (row : κ → ℤ) : Decidable (q.Holds row) :=
  inferInstanceAs (Decidable (_ ∧ _))

/-- The rows the query selects from a table. -/
def rows (q : Select κ) (table : List (κ → ℤ)) : List (List ℤ) :=
  (table.filter fun row => q.Holds row).map fun row => q.columns.map (Expr.eval row)

end Select

/-! ## Parsing -/

variable (names : String → Option κ)

/-- A number, or the name of a column. -/
def operand (w : String) : Option (Expr κ) :=
  if !w.toList.isEmpty && w.toList.all Char.isDigit then some (.number (digitsValue w.toList))
  else (names w).map .column

/-- A cast to a type. -/
def castTo (e : Expr κ) : String → Option (Expr κ)
  | "SIGNED" => some (.castSigned e)
  | "UNSIGNED" => some (.castUnsigned e)
  | _ => none

/-- Casts with commas between them, and what follows them. -/
def casts : List String → Option (List (Expr κ) × List String)
  | "CAST" :: "(" :: w :: "AS" :: type :: ")" :: "," :: ws => do
    let e ← castTo (← operand names w) type
    let (es, ws) ← casts ws
    return (e :: es, ws)
  | "CAST" :: "(" :: w :: "AS" :: type :: ")" :: ws => do
    let e ← castTo (← operand names w) type
    return ([e], ws)
  | _ => none

/-- The query that a text is. -/
def parse (text : String) : Option (Select κ) :=
  match lex [] text.toList with
  | "SELECT" :: ws => do
    let (columns, ws) ← casts names ws
    match ws with
    | "FROM" :: table :: "WHERE" :: member :: "IN" :: "(" :: ws => do
      let member ← operand names member
      let (set, ws) ← casts names ws
      match ws with
      | [")", "AND", left, "=", right] => do
        let left ← operand names left
        let right ← operand names right
        return ⟨columns, table, member, set, left, right⟩
      | _ => none
    | _ => none
  | _ => none

variable {names}

theorem operand_toDecimal (n : UInt64) :
    operand names (toDecimal n) = some (.number n.toNat) := by
  have hdigits : (toDecimal n).toList.all Char.isDigit = true :=
    List.all_eq_true.mpr fun _ => isDigit_of_mem_toDecimal
  have hne : (toDecimal n).toList.isEmpty = false := by
    rw [List.isEmpty_eq_false_iff]
    exact toDecimal_ne_nil n
  rw [operand, hdigits, hne, digitsValue_toDecimal]
  rfl

theorem isWordChar_of_mem_toDecimal {n : UInt64} {c : Char} (h : c ∈ (toDecimal n).toList) :
    isWordChar c = true := by
  rw [isWordChar, Char.isAlphanum, isDigit_of_mem_toDecimal h, Bool.or_true, Bool.true_or]

theorem casts_more {w type : String} {e : Expr κ} {ws ws' : List String} {es : List (Expr κ)}
    (he : (operand names w).bind (castTo · type) = some e) (hes : casts names ws = some (es, ws')) :
    casts names ("CAST" :: "(" :: w :: "AS" :: type :: ")" :: "," :: ws) = some (e :: es, ws') := by
  obtain ⟨o, ho, he⟩ := Option.bind_eq_some_iff.mp he
  rw [casts, ho, Option.bind_eq_bind, Option.bind_some, he, hes]
  rfl

theorem casts_last {w type : String} {e : Expr κ} {ws : List String}
    (he : (operand names w).bind (castTo · type) = some e) (hws : ∀ ws', ws ≠ "," :: ws') :
    casts names ("CAST" :: "(" :: w :: "AS" :: type :: ")" :: ws) = some ([e], ws) := by
  obtain ⟨o, ho, he⟩ := Option.bind_eq_some_iff.mp he
  rw [casts, ho, Option.bind_eq_bind, Option.bind_some, he]
  · rfl
  · exact hws

end BurstPoolNode.Sql

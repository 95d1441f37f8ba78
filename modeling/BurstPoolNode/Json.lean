import BurstPoolNode.Text

/-!
# JSON

JSON texts, with one character for a byte: `Json.parse` parses one, as RFC 8259
has it. Of a number its text is kept, and what is escaped as `\u` is decoded to
UTF-8.

A parser takes what it parses off the front of the text, with a bound on the
number of steps (`fuel`). It takes no more steps than characters
(`takes_parse`), so that the bound never matters (`parse_eq_some_iff`).
-/

namespace BurstPoolNode

/-- A parsed JSON document. The text of a number is kept. -/
inductive Json
  | null
  | bool (b : Bool)
  | number (text : String)
  | string (s : String)
  | array (items : List Json)
  | object (members : List (String × Json))

namespace Json

/-! ## Strings -/

/-- The bytes of a code point in UTF-8. -/
def utf8 (n : ℕ) : List Char :=
  if n < 0x80 then
    [Char.ofNat n]
  else if n < 0x800 then
    [Char.ofNat (0xC0 + n / 0x40), Char.ofNat (0x80 + n % 0x40)]
  else if n < 0x10000 then
    [Char.ofNat (0xE0 + n / 0x1000), Char.ofNat (0x80 + n / 0x40 % 0x40),
      Char.ofNat (0x80 + n % 0x40)]
  else
    [Char.ofNat (0xF0 + n / 0x40000), Char.ofNat (0x80 + n / 0x1000 % 0x40),
      Char.ofNat (0x80 + n / 0x40 % 0x40), Char.ofNat (0x80 + n % 0x40)]

/-- Four hexadecimal digits. -/
def hex4 : List Char → Option (ℕ × List Char)
  | a :: b :: c :: d :: cs => do
    return (4096 * (← hexDigit a) + 256 * (← hexDigit b) + 16 * (← hexDigit c) + (← hexDigit d), cs)
  | _ => none

/-- The character that a letter stands for after a backslash. -/
def escaped (c : Char) : Option Char :=
  if c = '"' ∨ c = '\\' ∨ c = '/' then some c
  else if c = 'b' then some (Char.ofNat 8)
  else if c = 'f' then some (Char.ofNat 12)
  else if c = 'n' then some '\n'
  else if c = 'r' then some '\r'
  else if c = 't' then some '\t'
  else none

/-- What follows `\u`: a code unit of four digits, or the two of a surrogate pair. -/
def unicode (cs : List Char) : Option (List Char × List Char) := do
  let (n, cs) ← hex4 cs
  if 0xD800 ≤ n ∧ n < 0xDC00 then
    match cs with
    | '\\' :: 'u' :: cs => do
      let (m, cs) ← hex4 cs
      if 0xDC00 ≤ m ∧ m < 0xE000 then
        some (utf8 (0x10000 + 0x400 * (n - 0xD800) + (m - 0xDC00)), cs)
      else
        none
    | _ => none
  else if 0xDC00 ≤ n ∧ n < 0xE000 then
    none
  else
    some (utf8 n, cs)

/-- What follows a backslash. -/
def escape : List Char → Option (List Char × List Char)
  | [] => none
  | 'u' :: cs => unicode cs
  | c :: cs => (escaped c).map fun c => ([c], cs)

/-- A string after its opening quote, up to its closing quote. -/
def stringBody : ℕ → List Char → Option (List Char × List Char)
  | 0, _ | _, [] => none
  | fuel + 1, c :: cs =>
    if c = '"' then
      some ([], cs)
    else if c = '\\' then do
      let (e, cs) ← escape cs
      let (d, cs) ← stringBody fuel cs
      return (e ++ d, cs)
    else if c.toNat < 0x20 then
      none
    else do
      let (d, cs) ← stringBody fuel cs
      return (c :: d, cs)

/-! ## Numbers and literal names -/

/-- One digit or more. -/
def digits (cs : List Char) : Option (List Char × List Char) :=
  if (cs.takeWhile Char.isDigit).isEmpty then none
  else some (cs.takeWhile Char.isDigit, cs.dropWhile Char.isDigit)

/-- The digits before the point: a zero, or no zero in front. -/
def integer : List Char → Option (List Char × List Char)
  | '0' :: cs => some (['0'], cs)
  | cs => digits cs

/-- The point and the digits after it, if there is one. -/
def fraction : List Char → Option (List Char × List Char)
  | '.' :: cs => (digits cs).map fun r => ('.' :: r.1, r.2)
  | cs => some ([], cs)

/-- The exponent, if there is one. -/
def exponent : List Char → Option (List Char × List Char)
  | c :: cs =>
    if c = 'e' ∨ c = 'E' then
      match cs with
      | '+' :: cs => (digits cs).map fun r => (c :: '+' :: r.1, r.2)
      | '-' :: cs => (digits cs).map fun r => (c :: '-' :: r.1, r.2)
      | cs => (digits cs).map fun r => (c :: r.1, r.2)
    else
      some ([], c :: cs)
  | [] => some ([], [])

/-- A number without its sign. -/
def unsigned (cs : List Char) : Option (List Char × List Char) := do
  let (i, cs) ← integer cs
  let (f, cs) ← fraction cs
  let (x, cs) ← exponent cs
  return (i ++ f ++ x, cs)

/-- The text of a number. -/
def numeral : List Char → Option (List Char × List Char)
  | '-' :: cs => (unsigned cs).map fun r => ('-' :: r.1, r.2)
  | cs => unsigned cs

/-- A literal name, or a number. -/
def scalar : List Char → Option (Json × List Char)
  | 't' :: 'r' :: 'u' :: 'e' :: cs => some (.bool true, cs)
  | 'f' :: 'a' :: 'l' :: 's' :: 'e' :: cs => some (.bool false, cs)
  | 'n' :: 'u' :: 'l' :: 'l' :: cs => some (.null, cs)
  | cs => (numeral cs).map fun r => (.number (String.ofList r.1), r.2)

/-! ## Values -/

/-- What may stand between the tokens. -/
def isBlank (c : Char) : Bool := c = ' ' || c = '\t' || c = '\n' || c = '\r'

/-- The character `c`, after blanks. -/
def token (c : Char) (cs : List Char) : Option (List Char) :=
  match cs.dropWhile isBlank with
  | [] => none
  | c' :: cs => if c' = c then some cs else none

mutual

/-- A value, after blanks. -/
def parseValue : ℕ → List Char → Option (Json × List Char)
  | 0, _ => none
  | fuel + 1, cs =>
    match cs.dropWhile isBlank with
    | '"' :: cs => (stringBody fuel cs).map fun r => (.string (String.ofList r.1), r.2)
    | '[' :: cs =>
      match token ']' cs with
      | some cs => some (.array [], cs)
      | none => (parseItems fuel cs).map fun r => (.array r.1, r.2)
    | '{' :: cs =>
      match token '}' cs with
      | some cs => some (.object [], cs)
      | none => (parseMembers fuel cs).map fun r => (.object r.1, r.2)
    | cs => scalar cs

/-- The items of an array up to its closing bracket, one at least. -/
def parseItems : ℕ → List Char → Option (List Json × List Char)
  | 0, _ => none
  | fuel + 1, cs => do
    let (v, cs) ← parseValue fuel cs
    match token ',' cs with
    | some cs => (parseItems fuel cs).map fun r => (v :: r.1, r.2)
    | none => (token ']' cs).map fun cs => ([v], cs)

/-- The members of an object up to its closing brace, one at least. -/
def parseMembers : ℕ → List Char → Option (List (String × Json) × List Char)
  | 0, _ => none
  | fuel + 1, cs => do
    let cs ← token '"' cs
    let (name, cs) ← stringBody fuel cs
    let cs ← token ':' cs
    let (v, cs) ← parseValue fuel cs
    match token ',' cs with
    | some cs => (parseMembers fuel cs).map fun r => ((String.ofList name, v) :: r.1, r.2)
    | none => (token '}' cs).map fun cs => ([(String.ofList name, v)], cs)

end

/-- A JSON text: a value, and blanks. -/
def parse (text : String) : Option Json :=
  match parseValue (text.toList.length + 1) text.toList with
  | some (v, rest) => if rest.all isBlank then some v else none
  | none => none

/-! ## What the parsers take off -/

theorem length_dropWhile_le (p : Char → Bool) (cs : List Char) :
    (cs.dropWhile p).length ≤ cs.length :=
  (List.dropWhile_sublist p).length_le

theorem hex4_eq_some {cs rest : List Char} {n : ℕ} (h : hex4 cs = some (n, rest)) :
    ∃ w, cs = w ++ rest ∧ w.length = 4 ∧ '"' ∉ w := by
  match cs with
  | a :: b :: c :: d :: cs =>
    simp only [hex4, bind, Option.bind_eq_some_iff] at h
    obtain ⟨i, hi, j, hj, k, hk, l, hl, h⟩ := h
    cases h
    refine ⟨[a, b, c, d], rfl, rfl, ?_⟩
    -- A quote is no digit.
    simp only [List.mem_cons, List.not_mem_nil, or_false, not_or]
    refine ⟨?_, ?_, ?_, ?_⟩
    all_goals
      rintro rfl
      simp [hexDigit] at hi hj hk hl
  | [] | [_] | [_, _] | [_, _, _] => cases h

theorem length_utf8_le (n : ℕ) : (utf8 n).length ≤ 4 := by
  rw [utf8]
  split_ifs
  all_goals simp

theorem unicode_eq_some {cs e rest : List Char} (h : unicode cs = some (e, rest)) :
    ∃ w, cs = w ++ rest ∧ e.length ≤ w.length ∧ '"' ∉ w := by
  simp only [unicode, bind, Option.bind_eq_some_iff] at h
  obtain ⟨⟨n, cs'⟩, hn, h⟩ := h
  obtain ⟨w, rfl, hw, hquote⟩ := hex4_eq_some hn
  dsimp only at h
  split_ifs at h with hhigh hlow
  · split at h
    · -- A surrogate pair.
      simp only [Option.bind_eq_some_iff] at h
      obtain ⟨⟨m, cs''⟩, hm, h⟩ := h
      obtain ⟨w', rfl, hw', hquote'⟩ := hex4_eq_some hm
      dsimp only at h
      split_ifs at h
      simp only [Option.some.injEq, Prod.mk.injEq] at h
      obtain ⟨rfl, rfl⟩ := h
      refine ⟨w ++ '\\' :: 'u' :: w', by simp, (length_utf8_le _).trans ?_, ?_⟩
      · rw [List.length_append]
        omega
      · simp [hquote, hquote']
    · cases h
  · cases h
    exact ⟨w, rfl, (length_utf8_le _).trans hw.ge, hquote⟩

/-- An escape is no shorter than what it stands for; and a quote is escaped as itself. -/
theorem escape_eq_some {cs e rest : List Char} (h : escape cs = some (e, rest)) :
    ∃ w, cs = w ++ rest ∧ w ≠ [] ∧ e.length ≤ w.length ∧ ('"' ∈ w → w = ['"'] ∧ e = ['"']) := by
  rw [escape.eq_def] at h
  split at h
  · cases h
  · obtain ⟨w, rfl, hlen, hquote⟩ := unicode_eq_some h
    refine ⟨'u' :: w, rfl, List.cons_ne_nil _ _, hlen.trans (Nat.le_succ _), ?_⟩
    simp [hquote]
  · next c cs _ =>
    obtain ⟨c', hc, h⟩ := Option.map_eq_some_iff.mp h
    cases h
    refine ⟨[c], rfl, List.cons_ne_nil _ _, le_rfl, fun hquote => ?_⟩
    obtain rfl := List.mem_singleton.mp hquote
    cases hc
    exact ⟨rfl, rfl⟩

theorem digits_eq_some {cs ds rest : List Char} (h : digits cs = some (ds, rest)) :
    rest.length < cs.length := by
  rw [digits] at h
  split_ifs at h with hne
  cases h
  have hlen := congrArg List.length (List.takeWhile_append_dropWhile (p := Char.isDigit) (l := cs))
  have hpos := List.length_pos_iff.mpr (mt List.isEmpty_iff.mpr hne)
  rw [List.length_append] at hlen
  omega

theorem integer_eq_some {cs ds rest : List Char} (h : integer cs = some (ds, rest)) :
    rest.length < cs.length := by
  rw [integer.eq_def] at h
  split at h
  · cases h
    exact Nat.lt_succ_self _
  · exact digits_eq_some h

theorem fraction_eq_some {cs ds rest : List Char} (h : fraction cs = some (ds, rest)) :
    rest.length ≤ cs.length := by
  rw [fraction.eq_def] at h
  split at h
  · obtain ⟨⟨_, _⟩, hr, h⟩ := Option.map_eq_some_iff.mp h
    cases h
    exact (digits_eq_some hr).le.trans (Nat.le_succ _)
  · cases h
    exact le_rfl

theorem exponent_eq_some {cs ds rest : List Char} (h : exponent cs = some (ds, rest)) :
    rest.length ≤ cs.length := by
  rw [exponent.eq_def] at h
  split at h
  · split_ifs at h
    · split at h
      all_goals
        obtain ⟨⟨_, _⟩, hr, h⟩ := Option.map_eq_some_iff.mp h
        cases h
        have hlt := digits_eq_some hr
        simp only [List.length_cons]
        omega
    · cases h
      exact le_rfl
  · cases h
    exact le_rfl

theorem unsigned_eq_some {cs ds rest : List Char} (h : unsigned cs = some (ds, rest)) :
    rest.length < cs.length := by
  simp only [unsigned, bind, Option.bind_eq_some_iff] at h
  obtain ⟨⟨i, _⟩, hi, ⟨f, _⟩, hf, ⟨x, _⟩, hx, h⟩ := h
  cases h
  exact ((exponent_eq_some hx).trans (fraction_eq_some hf)).trans_lt (integer_eq_some hi)

theorem scalar_eq_some {cs rest : List Char} {v : Json} (h : scalar cs = some (v, rest)) :
    rest.length < cs.length := by
  rw [scalar.eq_def] at h
  split at h
  · cases h
    simp only [List.length_cons]
    omega
  · cases h
    simp only [List.length_cons]
    omega
  · cases h
    simp only [List.length_cons]
    omega
  · obtain ⟨⟨ds, _⟩, hr, h⟩ := Option.map_eq_some_iff.mp h
    cases h
    rw [numeral.eq_def] at hr
    split at hr
    · obtain ⟨⟨_, _⟩, hu, hr⟩ := Option.map_eq_some_iff.mp hr
      cases hr
      exact (unsigned_eq_some hu).trans (Nat.lt_succ_self _)
    · exact unsigned_eq_some hr

theorem token_eq_some {c : Char} {cs rest : List Char} (h : token c cs = some rest) :
    rest.length < cs.length := by
  have hle := length_dropWhile_le isBlank cs
  rw [token] at h
  split at h
  · cases h
  · next heq =>
    split_ifs at h
    cases h
    rw [heq] at hle
    exact hle

/-! ## The bound on the steps -/

/-- The parser takes `v` off the text, in no more steps than characters. -/
def Takes {α : Type} (parser : ℕ → List Char → Option (α × List Char)) (cs : List Char) (v : α)
    (rest : List Char) : Prop :=
  rest.length < cs.length ∧ ∀ m, cs.length ≤ m + rest.length → parser m cs = some (v, rest)

theorem Takes.of_succ {α : Type} {parser : ℕ → List Char → Option (α × List Char)}
    {cs rest : List Char} {v : α} (hlt : rest.length < cs.length)
    (h : ∀ m, cs.length ≤ m + 1 + rest.length → parser (m + 1) cs = some (v, rest)) :
    Takes parser cs v rest := by
  refine ⟨hlt, fun m hm => ?_⟩
  cases m with
  | zero => omega
  | succ m => exact h m hm

theorem takes_stringBody {n : ℕ} {cs d rest : List Char} (h : stringBody n cs = some (d, rest)) :
    Takes stringBody cs d rest := by
  induction n generalizing cs d with
  | zero => cases h
  | succ n ih =>
    cases cs with
    | nil => cases h
    | cons c cs =>
      rw [stringBody] at h
      split_ifs at h with hquote hback hcontrol
      · cases h
        refine .of_succ (Nat.lt_succ_self _) fun m _ => ?_
        rw [stringBody, if_pos hquote]
      · simp only [Option.bind_eq_bind, Option.bind_eq_some_iff, Prod.exists, Option.pure_def,
          Option.some.injEq, Prod.mk.injEq] at h
        obtain ⟨e, cs', he, d', _, hd, rfl, rfl⟩ := h
        obtain ⟨w, rfl, -⟩ := escape_eq_some he
        obtain ⟨hlt, hfuel⟩ := ih hd
        refine .of_succ ?_ fun m hm => ?_
        · simp only [List.length_cons, List.length_append]
          omega
        · simp only [List.length_cons, List.length_append] at hm
          rw [stringBody, if_neg hquote, if_pos hback, he]
          simp [hfuel m (by omega)]
      · simp only [Option.bind_eq_bind, Option.bind_eq_some_iff, Prod.exists, Option.pure_def,
          Option.some.injEq, Prod.mk.injEq] at h
        obtain ⟨d', _, hd, rfl, rfl⟩ := h
        obtain ⟨hlt, hfuel⟩ := ih hd
        refine .of_succ (hlt.trans (Nat.lt_succ_self _)) fun m hm => ?_
        rw [List.length_cons] at hm
        rw [stringBody, if_neg hquote, if_neg hback, if_neg hcontrol]
        simp [hfuel m (by omega)]

theorem parseValue_quote {cs cs' : List Char} (h : cs.dropWhile isBlank = '"' :: cs') (n : ℕ) :
    parseValue (n + 1) cs =
      (stringBody n cs').map fun r => (.string (String.ofList r.1), r.2) := by
  simp only [parseValue, h]

theorem parseValue_bracket {cs cs' : List Char} (h : cs.dropWhile isBlank = '[' :: cs') (n : ℕ) :
    parseValue (n + 1) cs =
      match token ']' cs' with
      | some cs => some (.array [], cs)
      | none => (parseItems n cs').map fun r => (.array r.1, r.2) := by
  simp only [parseValue, h]

theorem parseValue_brace {cs cs' : List Char} (h : cs.dropWhile isBlank = '{' :: cs') (n : ℕ) :
    parseValue (n + 1) cs =
      match token '}' cs' with
      | some cs => some (.object [], cs)
      | none => (parseMembers n cs').map fun r => (.object r.1, r.2) := by
  simp only [parseValue, h]

theorem takes_parse (n : ℕ) :
    (∀ cs v rest, parseValue n cs = some (v, rest) → Takes parseValue cs v rest) ∧
    (∀ cs vs rest, parseItems n cs = some (vs, rest) → Takes parseItems cs vs rest) ∧
    (∀ cs ms rest, parseMembers n cs = some (ms, rest) → Takes parseMembers cs ms rest) := by
  induction n with
  | zero => exact ⟨nofun, nofun, nofun⟩
  | succ n ih =>
    obtain ⟨ihValue, ihItems, ihMembers⟩ := ih
    refine ⟨fun cs v rest h => ?_, fun cs vs rest h => ?_, fun cs ms rest h => ?_⟩
    · have hle := length_dropWhile_le isBlank cs
      rw [parseValue] at h
      split at h
      · next cs' heq =>
        simp only [Option.map_eq_some_iff, Prod.exists, Prod.mk.injEq] at h
        obtain ⟨d, _, hd, rfl, rfl⟩ := h
        obtain ⟨hlt, hfuel⟩ := takes_stringBody hd
        rw [heq, List.length_cons] at hle
        refine .of_succ (by omega) fun m hm => ?_
        rw [parseValue_quote heq, hfuel m (by omega)]
        rfl
      · next cs' heq =>
        rw [heq, List.length_cons] at hle
        split at h
        · next htoken =>
          cases h
          have hlt := token_eq_some htoken
          refine .of_succ (by omega) fun m hm => ?_
          rw [parseValue_bracket heq, htoken]
        · next htoken =>
          simp only [Option.map_eq_some_iff, Prod.exists, Prod.mk.injEq] at h
          obtain ⟨vs, _, hvs, rfl, rfl⟩ := h
          obtain ⟨hlt, hfuel⟩ := ihItems _ _ _ hvs
          refine .of_succ (by omega) fun m hm => ?_
          rw [parseValue_bracket heq, htoken, hfuel m (by omega)]
          rfl
      · next cs' heq =>
        rw [heq, List.length_cons] at hle
        split at h
        · next htoken =>
          cases h
          have hlt := token_eq_some htoken
          refine .of_succ (by omega) fun m hm => ?_
          rw [parseValue_brace heq, htoken]
        · next htoken =>
          simp only [Option.map_eq_some_iff, Prod.exists, Prod.mk.injEq] at h
          obtain ⟨ms, _, hms, rfl, rfl⟩ := h
          obtain ⟨hlt, hfuel⟩ := ihMembers _ _ _ hms
          refine .of_succ (by omega) fun m hm => ?_
          rw [parseValue_brace heq, htoken, hfuel m (by omega)]
          rfl
      · next hquote hbracket hbrace =>
        have hlt := scalar_eq_some h
        refine .of_succ (by omega) fun m _ => ?_
        rw [parseValue]
        split
        · next heq => exact (hquote _ heq).elim
        · next heq => exact (hbracket _ heq).elim
        · next heq => exact (hbrace _ heq).elim
        · exact h
    · simp only [parseItems, Option.bind_eq_bind, Option.bind_eq_some_iff, Prod.exists] at h
      obtain ⟨v, cs', hv, h⟩ := h
      obtain ⟨hlt, hfuel⟩ := ihValue _ _ _ hv
      split at h
      · next htoken =>
        simp only [Option.map_eq_some_iff, Prod.exists, Prod.mk.injEq] at h
        obtain ⟨vs, _, hvs, rfl, rfl⟩ := h
        have hlt' := token_eq_some htoken
        obtain ⟨hlt'', hfuel'⟩ := ihItems _ _ _ hvs
        refine .of_succ (by omega) fun m hm => ?_
        simp [parseItems, hfuel m (by omega), htoken, hfuel' m (by omega)]
      · next htoken =>
        obtain ⟨_, hclose, h⟩ := Option.map_eq_some_iff.mp h
        cases h
        have hlt' := token_eq_some hclose
        refine .of_succ (by omega) fun m hm => ?_
        simp [parseItems, hfuel m (by omega), htoken, hclose]
    · simp only [parseMembers, Option.bind_eq_bind, Option.bind_eq_some_iff, Prod.exists] at h
      obtain ⟨cs₁, hquote, name, cs₂, hname, cs₃, hcolon, v, cs₄, hv, h⟩ := h
      have hlt₁ := token_eq_some hquote
      obtain ⟨hlt₂, hfuel₂⟩ := takes_stringBody hname
      have hlt₃ := token_eq_some hcolon
      obtain ⟨hlt₄, hfuel₄⟩ := ihValue _ _ _ hv
      split at h
      · next htoken =>
        simp only [Option.map_eq_some_iff, Prod.exists, Prod.mk.injEq] at h
        obtain ⟨ms, _, hms, rfl, rfl⟩ := h
        have hlt₅ := token_eq_some htoken
        obtain ⟨hlt₆, hfuel₆⟩ := ihMembers _ _ _ hms
        refine .of_succ (by omega) fun m hm => ?_
        simp [parseMembers, hquote, hfuel₂ m (by omega), hcolon, hfuel₄ m (by omega), htoken,
          hfuel₆ m (by omega)]
      · next htoken =>
        obtain ⟨_, hclose, h⟩ := Option.map_eq_some_iff.mp h
        cases h
        have hlt₅ := token_eq_some hclose
        refine .of_succ (by omega) fun m hm => ?_
        simp [parseMembers, hquote, hfuel₂ m (by omega), hcolon, hfuel₄ m (by omega), htoken,
          hclose]

/-- The bound on the steps does not matter. -/
theorem parse_eq_some_iff {text : String} {v : Json} : parse text = some v ↔
    ∃ n rest, parseValue n text.toList = some (v, rest) ∧ rest.all isBlank := by
  rw [parse]
  constructor
  · intro h
    split at h
    · next v' rest hv =>
      split_ifs at h with hblank
      cases h
      exact ⟨_, rest, hv, hblank⟩
    · cases h
  · rintro ⟨n, rest, hv, hblank⟩
    rw [((takes_parse n).1 _ _ _ hv).2 _ (by omega)]
    exact if_pos hblank

/-! ## Strings written as they are -/

/-- The character stands for itself in a string. -/
def Plain (c : Char) : Prop := c ≠ '"' ∧ c ≠ '\\' ∧ 0x20 ≤ c.toNat

instance (c : Char) : Decidable (Plain c) := inferInstanceAs (Decidable (_ ∧ _ ∧ _))

instance (cs : List Char) : Decidable (∀ c ∈ cs, Plain c) :=
  decidable_of_iff (cs.all fun c => decide (Plain c)) (by simp)

theorem stringBody_of_plain {u v : List Char} (hu : ∀ c ∈ u, Plain c) {n : ℕ} (hn : u.length < n) :
    stringBody n (u ++ '"' :: v) = some (u, v) := by
  induction u generalizing n with
  | nil =>
    cases n with
    | zero => cases hn
    | succ n => rfl
  | cons c u ih =>
    obtain ⟨⟨hquote, hback, hcontrol⟩, hu⟩ := List.forall_mem_cons.mp hu
    cases n with
    | zero => cases hn
    | succ n =>
      rw [List.cons_append, stringBody, if_neg hquote, if_neg hback, if_neg (by omega),
        ih hu (Nat.lt_of_succ_lt_succ hn)]
      rfl

/-- A text with a quote after it, read as a string: either it is read as it is, or what is read
    is shorter, or some quotes of the text are escaped, and the one after it too. -/
theorem stringBody_append_quote {n : ℕ} {u v d rest : List Char}
    (h : stringBody n (u ++ '"' :: v) = some (d, rest)) :
    (d = u ∧ rest = v ∧ ∀ c ∈ u, Plain c) ∨ d.length < u.length ∨
      ∃ d₁, d₁ <+: d ∧ d₁.length ≤ u.length ∧ u.count '"' < d₁.count '"' := by
  induction n generalizing u d with
  | zero => cases h
  | succ n ih =>
    cases u with
    | nil =>
      cases h
      exact .inl ⟨rfl, rfl, nofun⟩
    | cons c u =>
      rw [List.cons_append, stringBody] at h
      split_ifs at h with hquote hback hcontrol
      · cases h
        exact .inr (.inl (Nat.succ_pos _))
      · simp only [Option.bind_eq_bind, Option.bind_eq_some_iff, Prod.exists, Option.pure_def,
          Option.some.injEq, Prod.mk.injEq] at h
        obtain ⟨e, cs', he, d, _, hd, rfl, rfl⟩ := h
        obtain ⟨w, hw, hne, hlen, hquote'⟩ := escape_eq_some he
        have hcase : (∃ u', u = w ++ u' ∧ cs' = u' ++ '"' :: v) ∨
            u = [] ∧ w = ['"'] ∧ e = ['"'] := by
          rcases List.append_eq_append_iff.mp hw with ⟨x, hx, hcs⟩ | ⟨x, hx, hcs⟩
          · cases x with
            | nil => exact .inl ⟨[], by simpa using hx.symm, hcs.symm⟩
            | cons c' x =>
              obtain ⟨rfl, -⟩ := List.cons.inj hcs
              have hword := hquote' (hx ▸ List.mem_append_right _ List.mem_cons_self)
              rw [hword.1] at hx
              exact .inr ⟨(List.append_eq_singleton_iff.mp hx.symm).elim (·.1) nofun, hword⟩
          · exact .inl ⟨x, hx, hcs⟩
        rcases hcase with ⟨u, rfl, rfl⟩ | ⟨rfl, rfl, rfl⟩
        · -- The escape ends within the text.
          have hcount : w.count '"' ≤ e.count '"' := by
            by_cases hmem : '"' ∈ w
            · rw [(hquote' hmem).1, (hquote' hmem).2]
            · rw [List.count_eq_zero.mpr hmem]
              exact Nat.zero_le _
          simp only [List.length_cons, List.length_append, List.count_append,
            List.count_cons_of_ne hquote]
          rcases ih hd with ⟨rfl, rfl, -⟩ | hlt | ⟨d₁, hd₁, hlen₁, hcount₁⟩
          · exact .inr (.inl (by omega))
          · exact .inr (.inl (by omega))
          · refine .inr (.inr ⟨e ++ d₁, (List.prefix_append_right_inj e).mpr hd₁, ?_, ?_⟩)
            · rw [List.length_append]
              omega
            · rw [List.count_append]
              omega
        · -- The quote after the text is escaped.
          refine .inr (.inr ⟨['"'], List.prefix_append _ _, le_rfl, ?_⟩)
          rw [hback]
          decide
      · simp only [Option.bind_eq_bind, Option.bind_eq_some_iff, Prod.exists, Option.pure_def,
          Option.some.injEq, Prod.mk.injEq] at h
        obtain ⟨d, _, hd, rfl, rfl⟩ := h
        rcases ih hd with ⟨rfl, rfl, hu⟩ | hlt | ⟨d₁, hd₁, hlen, hcount⟩
        · exact .inl ⟨rfl, rfl, List.forall_mem_cons.mpr ⟨⟨hquote, hback, by omega⟩, hu⟩⟩
        · exact .inr (.inl (Nat.succ_lt_succ hlt))
        · refine .inr (.inr
            ⟨c :: d₁, List.cons_prefix_cons.mpr ⟨rfl, hd₁⟩, Nat.succ_le_succ hlen, ?_⟩)
          rwa [List.count_cons_of_ne hquote, List.count_cons_of_ne hquote]

/-- A text with a quote after it that is read as itself, and possibly more, is plain. -/
theorem plain_of_stringBody {n : ℕ} {u v d rest : List Char}
    (h : stringBody n (u ++ '"' :: v) = some (d, rest)) (hu : u <+: d) :
    d = u ∧ rest = v ∧ ∀ c ∈ u, Plain c := by
  rcases stringBody_append_quote h with hplain | hlt | ⟨d₁, hd₁, hlen, hcount⟩
  · exact hplain
  · exact absurd hu.length_le (Nat.not_le.mpr hlt)
  · -- There are not enough quotes in the text.
    have hd₁u := List.prefix_of_prefix_length_le hd₁ hu hlen
    exact absurd (hd₁u.sublist.count_le _) (Nat.not_le.mpr hcount)

/-! ## Objects of strings -/

/-- What follows the opening brace of an object of strings, written without blanks. -/
def membersText : List (String × String) → List Char
  | [] => ['}']
  | [(name, s)] => '"' :: (name.toList ++ '"' :: ':' :: '"' :: (s.toList ++ ['"', '}']))
  | (name, s) :: ms =>
    '"' :: (name.toList ++ '"' :: ':' :: '"' :: (s.toList ++ '"' :: ',' :: membersText ms))

theorem membersText_cons {name s : String} {ms : List (String × String)} (hne : ms ≠ []) :
    membersText ((name, s) :: ms) =
      '"' :: (name.toList ++ '"' :: ':' :: '"' :: (s.toList ++ '"' :: ',' :: membersText ms)) := by
  cases ms with
  | nil => exact absurd rfl hne
  | cons m ms => rfl

theorem nul_notMem_membersText {ms : List (String × String)}
    (hms : ∀ m ∈ ms, nul ∉ m.1.toList ∧ nul ∉ m.2.toList) : nul ∉ membersText ms := by
  induction ms with
  | nil => decide
  | cons m ms ih =>
    obtain ⟨name, s⟩ := m
    obtain ⟨⟨hname, hs⟩, hms⟩ := List.forall_mem_cons.mp hms
    have hsigns : nul ≠ '"' ∧ nul ≠ ':' ∧ nul ≠ ',' ∧ nul ≠ '}' := by decide
    rcases eq_or_ne ms [] with rfl | hne
    · simp [membersText, hname, hs, hsigns]
    · simp [membersText_cons hne, hname, hs, hsigns, ih hms]

theorem Plain.ne_nul {c : Char} (h : Plain c) : c ≠ nul := by
  rintro rfl
  exact absurd h.2.2 (by decide)

/-- Parsing a member whose value is a string. -/
theorem parseMembers_string {name : List Char} (hname : ∀ c ∈ name, Plain c) {n : ℕ}
    (hn : name.length ≤ n) (cs : List Char) :
    parseMembers (n + 2) ('"' :: (name ++ '"' :: ':' :: '"' :: cs)) =
      (stringBody n cs).bind fun r =>
        match token ',' r.2 with
        | some cs => (parseMembers (n + 1) cs).map fun q =>
            ((String.ofList name, .string (String.ofList r.1)) :: q.1, q.2)
        | none => (token '}' r.2).map fun cs =>
            ([(String.ofList name, .string (String.ofList r.1))], cs) := by
  have hbody := stringBody_of_plain (v := ':' :: '"' :: cs) hname (Nat.lt_succ_of_le hn)
  have hquote : ('"' :: cs).dropWhile isBlank = '"' :: cs := rfl
  have hopen : token '"' ('"' :: (name ++ '"' :: ':' :: '"' :: cs)) =
      some (name ++ '"' :: ':' :: '"' :: cs) := rfl
  have hcolon : token ':' (':' :: '"' :: cs) = some ('"' :: cs) := rfl
  rw [parseMembers]
  simp only [Option.bind_eq_bind, hopen, Option.bind_some, hbody, hcolon, parseValue_quote hquote]
  cases stringBody n cs with
  | none => rfl
  | some r => rfl

theorem parseMembers_membersText {ms : List (String × String)} (hne : ms ≠ [])
    (hms : ∀ m ∈ ms, (∀ c ∈ m.1.toList, Plain c) ∧ ∀ c ∈ m.2.toList, Plain c) {n : ℕ}
    (hn : (membersText ms).length ≤ n) :
    parseMembers n (membersText ms) = some (ms.map fun m => (m.1, .string m.2), []) := by
  induction ms generalizing n with
  | nil => exact absurd rfl hne
  | cons m ms ih =>
    obtain ⟨name, s⟩ := m
    obtain ⟨⟨hname, hs⟩, hms⟩ := List.forall_mem_cons.mp hms
    dsimp only at hname hs
    cases ms with
    | nil =>
      simp only [membersText, List.length_cons, List.length_append] at hn
      obtain ⟨n, rfl⟩ := Nat.exists_eq_add_of_le' (show 2 ≤ n by omega)
      rw [membersText, parseMembers_string hname (by omega), stringBody_of_plain hs (by omega)]
      simp [token, isBlank]
    | cons m' ms =>
      simp only [membersText, List.length_cons, List.length_append] at hn
      obtain ⟨n, rfl⟩ := Nat.exists_eq_add_of_le' (show 2 ≤ n by omega)
      have hrest := ih (List.cons_ne_nil _ _) hms (n := n + 1) (by omega)
      rw [membersText_cons (List.cons_ne_nil _ _), parseMembers_string hname (by omega),
        stringBody_of_plain hs (by omega)]
      simp [token, isBlank, hrest]

theorem parse_membersText_eq {ms : List (String × String)} (hne : ms ≠ []) {text : String}
    (htext : text.toList = '{' :: membersText ms) :
    parseValue (text.toList.length + 1) text.toList =
      (parseMembers ((membersText ms).length + 1) (membersText ms)).map fun r =>
        (.object r.1, r.2) := by
  have hbrace : text.toList.dropWhile isBlank = '{' :: membersText ms := by
    rw [htext]
    rfl
  have hopen : token '}' (membersText ms) = none := by
    match ms with
    | [] => exact absurd rfl hne
    | [_] | _ :: _ :: _ => rfl
  rw [parseValue_brace hbrace, hopen, htext, List.length_cons]

/-- An object of plain strings is read back. -/
theorem parse_membersText {ms : List (String × String)} (hne : ms ≠ [])
    (hms : ∀ m ∈ ms, (∀ c ∈ m.1.toList, Plain c) ∧ ∀ c ∈ m.2.toList, Plain c) {text : String}
    (htext : text.toList = '{' :: membersText ms) :
    parse text = some (.object (ms.map fun m => (m.1, .string m.2))) := by
  rw [parse, parse_membersText_eq hne htext, parseMembers_membersText hne hms (Nat.le_succ _)]
  rfl

/-- The first string of an object of strings is plain if it is read back. -/
theorem parse_membersText_cons {name s : String} {ms : List (String × String)}
    (hname : ∀ c ∈ name.toList, Plain c) {text : String}
    (htext : text.toList = '{' :: membersText ((name, s) :: ms)) {v : Json}
    (h : parse text = some v) :
    ∃ d members, v = .object ((name, .string (String.ofList d)) :: members) ∧
      (s.toList <+: d → ∀ c ∈ s.toList, Plain c) := by
  obtain ⟨k, tail, hk, htail⟩ : ∃ k tail, (membersText ((name, s) :: ms)).length + 1 = k + 2 ∧
      name.toList.length ≤ k ∧ membersText ((name, s) :: ms) =
        '"' :: (name.toList ++ '"' :: ':' :: '"' :: (s.toList ++ '"' :: tail)) := by
    rcases eq_or_ne ms [] with rfl | hne
    · refine ⟨(membersText [(name, s)]).length - 1, ['}'], ?_⟩
      simp only [membersText, List.length_cons, List.length_append]
      exact ⟨by omega, by omega, trivial⟩
    · refine ⟨(membersText ((name, s) :: ms)).length - 1, ',' :: membersText ms, ?_⟩
      simp only [membersText_cons hne, List.length_cons, List.length_append]
      exact ⟨by omega, by omega, trivial⟩
  -- The members begin with this one.
  have hmembers : ∀ {r : List Char × List Char} {q : List (String × Json) × List Char},
      (match token ',' r.2 with
        | some cs => (parseMembers (k + 1) cs).map fun q =>
            ((String.ofList name.toList, Json.string (String.ofList r.1)) :: q.1, q.2)
        | none => (token '}' r.2).map fun cs =>
            ([(String.ofList name.toList, Json.string (String.ofList r.1))], cs)) = some q →
        ∃ members, q.1 = (name, .string (String.ofList r.1)) :: members := by
    intro r q hq
    rw [String.ofList_toList] at hq
    split at hq
    · obtain ⟨_, -, rfl⟩ := Option.map_eq_some_iff.mp hq
      exact ⟨_, rfl⟩
    · obtain ⟨_, -, rfl⟩ := Option.map_eq_some_iff.mp hq
      exact ⟨_, rfl⟩
  rw [parse, parse_membersText_eq (List.cons_ne_nil _ _) htext, hk, htail.2,
    parseMembers_string hname htail.1] at h
  split at h
  · next v' rest hv =>
    split_ifs at h
    obtain rfl := Option.some.inj h
    obtain ⟨q, hq, hv⟩ := Option.map_eq_some_iff.mp hv
    obtain ⟨⟨d, _⟩, hd, hq⟩ := Option.bind_eq_some_iff.mp hq
    obtain ⟨members, hmembers⟩ := hmembers hq
    obtain ⟨rfl, -⟩ := Prod.mk.inj hv
    exact ⟨d, members, congrArg _ hmembers, fun hsd => (plain_of_stringBody hd hsd).2.2⟩
  · cases h

end Json

end BurstPoolNode

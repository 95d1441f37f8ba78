import BurstPoolNode.Lists
import BurstPoolNode.Session

/-!
# Targets and their segments

`parse_url` searches the whole target for matches of its pattern, one after the
other. What it finds is what a splitter finds that cuts the target at every `&`
and each of the segments at its first `=` that follows a key (`splitUrl`).

* `searchParam_segment`: the search finds the parameter of the first segment
  that has one;
* `paramsLoop_eq`: so that the loop goes through the segments;
* `parseUrl_eq`: and a target made of pairs gives the last value of each key.
-/

namespace BurstPoolNode

/-! ## The splitter -/

/-- The first `=` in `cs` that follows a character of a key directly: what stands before it,
    last character first, and what follows it; `before` stands before `cs`. -/
def firstEquals (before : List Char) : List Char → Option (List Char × List Char)
  | [] => none
  | c :: cs =>
    if c = '=' ∧ before.head?.any isKeyChar then some (before, cs) else firstEquals (c :: before) cs

/-- The parameter of a segment: the key is the run of its characters that ends at the first `=`
    that follows one, the value is the rest. -/
def segmentParam (segment : List Char) : Option (List Char × List Char) :=
  (firstEquals [] segment).map fun (before, value) => ((before.takeWhile isKeyChar).reverse, value)

/-- The parameters, with that of a segment. -/
def addSegment (params : Params) (segment : List Char) : Params :=
  match segmentParam segment with
  | none => params
  | some (key, value) =>
    Function.update params (String.ofList key) (some (String.ofList value))

/-- The parameters of the segments between the `&`s. -/
def splitUrl (query : String) : Params :=
  (query.toList.splitOn '&').foldl addSegment fun _ => none

/-! ## The search -/

theorem matchParam_of_ne {cs : List Char} (hkey : cs.takeWhile isKeyChar = []) :
    matchParam cs = none := by
  rw [matchParam, hkey]

theorem not_isKeyChar_of_eq_equals {c : Char} (h : isKeyChar c = true) : c ≠ '=' := by
  rintro rfl
  exact absurd h (by decide)

/-- The end of a run of key characters: there is a match only if an `=` follows. -/
theorem matchParam_run {key : List Char} (hkey : ∀ c ∈ key, isKeyChar c = true) {cs : List Char}
    (hcs : cs.takeWhile isKeyChar = []) (heq : cs.head? ≠ some '=') :
    matchParam (key ++ cs) = none := by
  have hdrop : (key ++ cs).dropWhile isKeyChar = cs := by
    rw [List.dropWhile_append_of_pos hkey]
    cases cs with
    | nil => rfl
    | cons c cs =>
      rw [List.takeWhile_cons] at hcs
      split_ifs at hcs with hc
      rw [List.dropWhile_cons_of_neg hc]
  rw [matchParam, hdrop]
  split
  · exact absurd rfl heq
  · rfl

/-- The search goes on after a run of key characters that no `=` follows. -/
theorem searchParam_run {key : List Char} (hkey : ∀ c ∈ key, isKeyChar c = true) {cs : List Char}
    (hcs : cs.takeWhile isKeyChar = []) (heq : cs.head? ≠ some '=') :
    searchParam (key ++ cs) = searchParam cs := by
  induction key with
  | nil => rfl
  | cons c key ih =>
    have hnone : matchParam (c :: key ++ cs) = none := matchParam_run hkey hcs heq
    rw [List.cons_append, searchParam, ← List.cons_append, hnone, Option.none_or]
    exact ih fun d hd => hkey d (List.mem_cons_of_mem c hd)

/-- It goes on after a character that is none of a key. -/
theorem searchParam_cons {c : Char} (hc : isKeyChar c = false) (cs : List Char) :
    searchParam (c :: cs) = searchParam cs := by
  rw [searchParam, matchParam_of_ne (List.takeWhile_cons_of_neg (by simp [hc])), Option.none_or]

/-- A key, an `=` and what follows up to the next `&` or the end are a match. -/
theorem searchParam_match {key : List Char} (hne : key ≠ [])
    (hkey : ∀ c ∈ key, isKeyChar c = true) {value rest : List Char} (hvalue : '&' ∉ value)
    (hrest : ∀ c ∈ rest.head?, c = '&') :
    searchParam (key ++ '=' :: (value ++ rest)) = some (key, value, rest) := by
  obtain ⟨c, key, rfl⟩ := List.exists_cons_of_ne_nil hne
  have htake : (c :: key ++ '=' :: (value ++ rest)).takeWhile isKeyChar = c :: key := by
    rw [List.takeWhile_append_of_pos hkey, List.takeWhile_cons_of_neg (by decide), List.append_nil]
  have hdrop : (c :: key ++ '=' :: (value ++ rest)).dropWhile isKeyChar =
      '=' :: (value ++ rest) := by
    rw [List.dropWhile_append_of_pos hkey, List.dropWhile_cons_of_neg (by decide)]
  have hvalue' : ∀ d ∈ value, decide (d ≠ '&') = true := fun d hd =>
    decide_eq_true fun h => hvalue (h ▸ hd)
  have hend : rest.takeWhile (· ≠ '&') = [] ∧ rest.dropWhile (· ≠ '&') = rest := by
    cases rest with
    | nil => exact ⟨rfl, rfl⟩
    | cons d rest =>
      obtain rfl := hrest d rfl
      exact ⟨List.takeWhile_cons_of_neg (by simp), List.dropWhile_cons_of_neg (by simp)⟩
  rw [List.cons_append] at htake hdrop ⊢
  have hmatch : matchParam (c :: (key ++ '=' :: (value ++ rest))) =
      some (c :: key, (value ++ rest).takeWhile (· ≠ '&'),
        (value ++ rest).dropWhile (· ≠ '&')) := by
    rw [matchParam, htake, hdrop]
    rfl
  rw [searchParam, hmatch, List.takeWhile_append_of_pos hvalue',
    List.dropWhile_append_of_pos hvalue', hend.1, hend.2, List.append_nil, Option.some_or]

/-- From the run of key characters in front on, the search finds what follows the first `=` of
    the segment, or goes on after the segment. -/
theorem searchParam_firstEquals (before : List Char) {segment rest : List Char}
    (hsegment : '&' ∉ segment) (hrest : ∀ c ∈ rest.head?, c = '&') :
    searchParam ((before.takeWhile isKeyChar).reverse ++ (segment ++ rest)) =
      ((firstEquals before segment).map fun (before, value) =>
        ((before.takeWhile isKeyChar).reverse, value, rest)).or (searchParam rest) := by
  have hrun : ∀ before : List Char, ∀ c ∈ (before.takeWhile isKeyChar).reverse,
      isKeyChar c = true := fun before c hc => List.mem_takeWhile_imp (List.mem_reverse.mp hc)
  induction segment generalizing before with
  | nil =>
    rw [List.nil_append, firstEquals, Option.map_none, Option.none_or]
    cases rest with
    | nil => exact searchParam_run (hrun before) rfl nofun
    | cons d rest =>
      obtain rfl := hrest d rfl
      exact searchParam_run (hrun before) rfl (by simp)
  | cons c segment ih =>
    rw [List.mem_cons, not_or] at hsegment
    rw [firstEquals]
    split_ifs with heq
    · obtain ⟨rfl, hkey⟩ := heq
      refine searchParam_match ?_ (hrun before) hsegment.2 hrest
      cases before with
      | nil => cases hkey
      | cons d before =>
        have hd : isKeyChar d = true := hkey
        simp [List.takeWhile_cons_of_pos hd]
    · rw [← ih (c :: before) hsegment.2]
      by_cases hc : isKeyChar c = true
      · -- The run goes on.
        rw [List.takeWhile_cons_of_pos hc, List.reverse_cons, List.append_assoc]
        rfl
      · -- The run ends, without a match.
        rw [List.takeWhile_cons_of_neg hc, List.reverse_nil, List.nil_append]
        have hcons := searchParam_cons (Bool.eq_false_iff.mpr hc) (segment ++ rest)
        refine Eq.trans ?_ hcons
        by_cases hce : c = '='
        · have hbefore : before.takeWhile isKeyChar = [] := by
            cases before with
            | nil => rfl
            | cons d before => exact List.takeWhile_cons_of_neg fun hd => heq ⟨hce, hd⟩
          rw [hbefore]
          rfl
        · refine searchParam_run (hrun before) (List.takeWhile_cons_of_neg hc) ?_
          exact fun h => hce (Option.some.inj h)

/-- The search finds the parameter of the first segment, or goes on after it. -/
theorem searchParam_segment {segment rest : List Char} (hsegment : '&' ∉ segment)
    (hrest : ∀ c ∈ rest.head?, c = '&') :
    searchParam (segment ++ rest) =
      ((segmentParam segment).map fun (key, value) => (key, value, rest)).or
        (searchParam rest) := by
  have h := searchParam_firstEquals [] hsegment hrest
  rw [List.takeWhile_nil, List.reverse_nil, List.nil_append] at h
  rw [h, segmentParam, Option.map_map]
  rfl

/-! ## The loop -/

theorem paramsLoop_congr {cs ds : List Char} (h : searchParam cs = searchParam ds) (n : ℕ)
    (params : Params) : paramsLoop n cs params = paramsLoop n ds params := by
  cases n with
  | zero => rfl
  | succ n => rw [paramsLoop, paramsLoop, h]

theorem paramsLoop_nil (n : ℕ) (params : Params) : paramsLoop n [] params = params := by
  cases n <;> rfl

theorem searchParam_amp (cs : List Char) : searchParam ('&' :: cs) = searchParam cs :=
  searchParam_cons (by decide) cs

/-- The loop goes through the segments. -/
theorem paramsLoop_eq {n : ℕ} {cs : List Char} (hn : cs.length ≤ n) (params : Params) :
    paramsLoop n cs params = (cs.splitOn '&').foldl addSegment params := by
  induction hlen : cs.length using Nat.strong_induction_on generalizing n cs params with
  | _ k ih =>
    by_cases hamp : '&' ∈ cs
    · obtain ⟨segment, rest, rfl, hsegment⟩ := List.eq_append_cons_of_mem hamp
      rw [List.length_append, List.length_cons] at hn hlen
      have hsearch := @searchParam_segment segment ('&' :: rest) hsegment (by simp)
      rw [searchParam_amp] at hsearch
      rw [List.splitOn_append_cons_self_of_not_mem hsegment, List.foldl_cons, addSegment]
      obtain ⟨n, rfl⟩ : ∃ m, n = m + 1 := ⟨n - 1, by omega⟩
      cases hparam : segmentParam segment with
      | none =>
        rw [hparam, Option.map_none, Option.none_or] at hsearch
        rw [paramsLoop_congr hsearch]
        exact ih rest.length (by omega) (by omega) params rfl
      | some p =>
        rw [hparam, Option.map_some, Option.some_or] at hsearch
        rw [paramsLoop, hsearch]
        dsimp only
        rw [paramsLoop_congr (searchParam_amp rest)]
        exact ih rest.length (by omega) (by omega) _ rfl
    · -- This is the last segment.
      have hsearch := @searchParam_segment cs [] hamp nofun
      rw [List.append_nil] at hsearch
      rw [List.splitOn_eq_singleton hamp, List.foldl_cons, List.foldl_nil, addSegment]
      cases n with
      | zero =>
        obtain rfl := List.length_eq_zero_iff.mp (Nat.le_zero.mp hn)
        rfl
      | succ n =>
        rw [paramsLoop, hsearch]
        cases segmentParam cs with
        | none => rfl
        | some p => exact paramsLoop_nil n _

/-! ## Targets made of pairs -/

/-- A key is not empty and has characters of keys only, a value has no `&`. -/
def IsPair (p : String × String) : Prop :=
  (p.1.toList ≠ [] ∧ ∀ c ∈ p.1.toList, isKeyChar c = true) ∧ '&' ∉ p.2.toList

instance (p : String × String) : Decidable (IsPair p) :=
  decidable_of_iff ((p.1.toList ≠ [] ∧ p.1.toList.all isKeyChar = true) ∧ '&' ∉ p.2.toList)
    (by rw [IsPair, List.all_eq_true])

/-- A key and its value. -/
def pairText (p : String × String) : List Char := p.1.toList ++ '=' :: p.2.toList

/-- The pairs, with `&`s between them. -/
def joinPairs (pairs : List (String × String)) : String :=
  String.ofList (['&'].intercalate (pairs.map pairText))

theorem firstEquals_append {cs : List Char} (hcs : '=' ∉ cs) (before ds : List Char) :
    firstEquals before (cs ++ ds) = firstEquals (cs.reverse ++ before) ds := by
  induction cs generalizing before with
  | nil => rfl
  | cons c cs ih =>
    rw [List.mem_cons, not_or] at hcs
    rw [List.cons_append, firstEquals, if_neg fun h => hcs.1 h.1.symm, ih hcs.2,
      List.reverse_cons, List.append_assoc, List.singleton_append]

/-- A pair is the parameter of its segment, whatever stands before it without an `=`, if its
    last character is none of a key. -/
theorem segmentParam_pair {before : List Char} (hbefore : '=' ∉ before)
    (hlast : before.reverse.takeWhile isKeyChar = []) {p : String × String} (hp : IsPair p) :
    segmentParam (before ++ pairText p) = some (p.1.toList, p.2.toList) := by
  obtain ⟨⟨hne, hkey⟩, -⟩ := hp
  have hkey' : ∀ c ∈ p.1.toList.reverse, isKeyChar c = true := fun c hc =>
    hkey c (List.mem_reverse.mp hc)
  have hnone : '=' ∉ before ++ p.1.toList := by
    rw [List.mem_append, not_or]
    exact ⟨hbefore, fun h => not_isKeyChar_of_eq_equals (hkey _ h) rfl⟩
  have hfollows : (p.1.toList.reverse ++ before.reverse).head?.any isKeyChar = true := by
    obtain ⟨c, cs, hcs⟩ := List.exists_cons_of_ne_nil (List.reverse_ne_nil_iff.mpr hne)
    rw [hcs] at hkey' ⊢
    exact hkey' c List.mem_cons_self
  have hfirst : firstEquals [] (before ++ pairText p) =
      some (p.1.toList.reverse ++ before.reverse, p.2.toList) := by
    rw [pairText, ← List.append_assoc, firstEquals_append hnone, List.append_nil,
      List.reverse_append, firstEquals, if_pos ⟨rfl, hfollows⟩]
  rw [segmentParam, hfirst, Option.map_some]
  dsimp only
  rw [List.takeWhile_append_of_pos hkey', hlast, List.append_nil, List.reverse_reverse]

theorem IsPair.not_mem {p : String × String} (hp : IsPair p) : '&' ∉ pairText p := by
  rw [pairText, List.mem_append, List.mem_cons, not_or, not_or]
  refine ⟨fun h => ?_, by decide, hp.2⟩
  exact absurd (hp.1.2 _ h) (by decide)

theorem segmentParam_eq_none {segment : List Char} (h : '=' ∉ segment) :
    segmentParam segment = none := by
  have hfirst := firstEquals_append h [] []
  rw [List.append_nil] at hfirst
  rw [segmentParam, hfirst]
  rfl

/-- Segments that are pairs leave the last value of each key. -/
theorem foldl_addSegment {pairs : List (String × String)} (h : ∀ p ∈ pairs, IsPair p)
    (params : Params) :
    (pairs.map pairText).foldl addSegment params =
      fun key => (pairs.reverse.lookup key).or (params key) := by
  induction pairs generalizing params with
  | nil => rfl
  | cons p pairs ih =>
    rw [List.forall_mem_cons] at h
    have hparam := @segmentParam_pair [] List.not_mem_nil rfl p h.1
    rw [List.nil_append] at hparam
    rw [List.map_cons, List.foldl_cons, ih h.2, addSegment, hparam]
    funext key
    dsimp only
    rw [lookup_reverse_cons, Option.or_assoc, Function.update_apply, String.ofList_toList,
      String.ofList_toList]
    split_ifs
    · rfl
    · rfl

/-- What stands before the first pair is not separated from it by an `&`. -/
theorem intercalate_append (cs ds : List Char) (segments : List (List Char)) :
    ['&'].intercalate ((cs ++ ds) :: segments) = cs ++ ['&'].intercalate (ds :: segments) := by
  cases segments with
  | nil => simp
  | cons e segments => simp

/-- **`parse_url` is a splitter**: it finds the parameters of the segments between the `&`s, in
    their order; and in a target made of a path and pairs, the last value of each key. -/
theorem parseUrl_eq : (∀ query, parseUrl query = splitUrl query) ∧
    ∀ (path : String) (pairs : List (String × String)),
      '=' ∉ path.toList → '&' ∉ path.toList → (∀ p ∈ pairs, IsPair p) →
        parseUrl (path ++ "?" ++ joinPairs pairs) = fun key => pairs.reverse.lookup key := by
  have hsplit : ∀ query, parseUrl query = splitUrl query := fun query =>
    paramsLoop_eq le_rfl _
  refine ⟨hsplit, fun path pairs hequals hamp hpairs => ?_⟩
  have hpath : '=' ∉ path.toList ++ ['?'] ∧ '&' ∉ path.toList ++ ['?'] := by
    simp [hequals, hamp]
  have htarget : (path ++ "?" ++ joinPairs pairs).toList =
      (path.toList ++ ['?']) ++ ['&'].intercalate (pairs.map pairText) := by
    simp only [String.toList_append, joinPairs, String.toList_ofList]
    rfl
  rw [hsplit, splitUrl, htarget]
  cases pairs with
  | nil =>
    rw [List.map_nil, List.intercalate_nil, List.append_nil,
      List.splitOn_eq_singleton hpath.2, List.foldl_cons, List.foldl_nil, addSegment,
      segmentParam_eq_none hpath.1]
    rfl
  | cons p pairs =>
    rw [List.forall_mem_cons] at hpairs
    -- The path is in the segment of the first pair, and leaves it its parameter.
    have hsegments : ∀ segment ∈ (path.toList ++ ['?'] ++ pairText p) :: pairs.map pairText,
        '&' ∉ segment := by
      rw [List.forall_mem_cons, List.forall_mem_map]
      refine ⟨?_, fun q hq => (hpairs.2 q hq).not_mem⟩
      rw [List.mem_append, not_or]
      exact ⟨hpath.2, hpairs.1.not_mem⟩
    have hfirst : segmentParam (path.toList ++ ['?'] ++ pairText p) =
        some (p.1.toList, p.2.toList) :=
      segmentParam_pair hpath.1 (by rw [List.reverse_concat]; rfl) hpairs.1
    have hparam := @segmentParam_pair [] List.not_mem_nil rfl p hpairs.1
    rw [List.nil_append] at hparam
    have hsame : ∀ params, addSegment params (path.toList ++ ['?'] ++ pairText p) =
        addSegment params (pairText p) := by
      intro params
      rw [addSegment, addSegment, hfirst, hparam]
    have hfold := foldl_addSegment (List.forall_mem_cons.mpr hpairs) fun _ => none
    rw [List.map_cons, List.foldl_cons] at hfold
    rw [List.map_cons, ← intercalate_append, List.splitOn_intercalate '&' hsegments
      (List.cons_ne_nil _ _), List.foldl_cons, hsame, hfold]
    funext key
    exact Option.or_none

/-- A value with an `=`, an empty value and a key that comes again. -/
def threePairs : List (String × String) := [("nonce", "1=2"), ("accountId", ""), ("nonce", "7")]

theorem parseUrl_threePairs :
    parseUrl ("/burst" ++ "?" ++ joinPairs threePairs) = fun key =>
      threePairs.reverse.lookup key := by
  have hpairs : ∀ p ∈ threePairs, IsPair p := by
    rw [threePairs]
    simp only [List.forall_mem_cons]
    exact ⟨by decide +kernel, by decide +kernel, by decide +kernel, nofun⟩
  exact parseUrl_eq.2 "/burst" threePairs (by decide +kernel) (by decide +kernel) hpairs

end BurstPoolNode

import Mathlib.Data.Rat.Floor
import BurstPoolNode.RateLimiter
import BurstPoolNode.ZeroTime

/-!
# The calls let through in a time window

With exact arithmetic, a token bucket lets at most `burstSize + rate * T` calls
through in a time window of length `T`. The first call for a key makes the
bucket of the key and is let through without a token, so that a window with
this call in it may see one call more:

* `grants_of_some`: once the key has a bucket, the calls let through are the
  grants of a zero time (`ZeroTime.Grants`);
* `granted_new`: from an empty table, they are the first call for the key,
  followed by the grants of a zero time that starts at `0`;
* `letThrough_bound`: the bound holds in every window without the first call,
  and in those starting a token's worth of time before it; in the others it
  can be broken (for a burst size that is a whole number, and a key first used
  when its bucket is full).
-/

namespace BurstPoolNode

variable {F : Type*} [Field F] [LinearOrder F] [IsStrictOrderedRing F]

omit [Field F] [IsStrictOrderedRing F] in
theorem stdMin_eq_min (a b : F) : stdMin a b = min a b := by
  rw [stdMin, min_def]
  split_ifs with h h' h'
  · exact absurd h (not_lt.2 h')
  · rfl
  · rfl
  · exact le_antisymm (not_lt.1 h) (not_le.1 h').le

namespace Bucket

/-- A bucket that gives tokens moves its zero time by a grant. -/
theorem grant_of_aquire {b : Bucket F} {now rate burstSize consume : F} (hr : 0 < rate)
    (h : (b.aquire now rate burstSize consume).1 = true) :
    ZeroTime.Grant (consume / rate) ((burstSize - consume) / rate) b.zeroTime now
      (b.aquire now rate burstSize consume).2.zeroTime := by
  rw [aquire] at h ⊢
  split_ifs at h ⊢ with hlt
  simp only [zeroTimeNew, tokens, stdMin_eq_min] at hlt ⊢
  exact ZeroTime.grant_of_tokens hr (not_lt.1 hlt)

omit [IsStrictOrderedRing F] in
/-- A bucket that gives no tokens keeps its zero time. -/
theorem aquire_of_false {b : Bucket F} {now rate burstSize consume : F}
    (h : (b.aquire now rate burstSize consume).1 = false) :
    (b.aquire now rate burstSize consume).2 = b := by
  rw [aquire] at h ⊢
  split_ifs at h ⊢
  rfl

end Bucket

namespace RateLimiter

variable (rl : RateLimiter F) (key : String)

/-- The times at which calls for `key` are let through. -/
def granted (cs : List (Call F)) : List F :=
  ((rl.outcomes cs).filter fun p => p.1.key = key ∧ p.2 = true).map fun p => p.1.now

/-- The number of calls for `key` let through in the window `[lo, hi]`. -/
def letThrough (lo hi : F) (cs : List (Call F)) : ℕ :=
  (rl.outcomes cs).countP fun p => p.1.key = key ∧ p.2 = true ∧ lo ≤ p.1.now ∧ p.1.now ≤ hi

variable {rl key}

omit [IsStrictOrderedRing F] in
theorem letThrough_eq (lo hi : F) (cs : List (Call F)) :
    rl.letThrough key lo hi cs = ZeroTime.Grants.inWindow lo hi (rl.granted key cs) := by
  rw [ZeroTime.Grants.inWindow, granted, List.countP_map, List.countP_filter, letThrough]
  refine List.countP_congr fun p _ => ?_
  simp
  tauto

omit [IsStrictOrderedRing F] in
theorem granted_cons (c : Call F) (cs : List (Call F)) :
    rl.granted key (c :: cs) =
      (if c.key = key ∧ (rl.aquire c.now c.key).1 = true then [c.now] else []) ++
        (rl.aquire c.now c.key).2.granted key cs := by
  rw [granted, outcomes_cons, List.filter_cons]
  by_cases h : c.key = key ∧ (rl.aquire c.now c.key).1 = true
  · rw [if_pos (by simpa using h), if_pos h]
    rfl
  · rw [if_neg (by simpa using h), if_neg h]
    rfl

omit [IsStrictOrderedRing F] in
/-- The times of the calls let through are times of calls, in the same order. -/
theorem granted_sublist (cs : List (Call F)) :
    (rl.granted key cs).Sublist (cs.map Call.now) := by
  induction cs generalizing rl with
  | nil => exact .slnil
  | cons c cs ih =>
    rw [granted_cons, List.map_cons]
    split_ifs
    · exact ih.cons_cons _
    · exact ih.cons _

/-- Once the key has a bucket, the calls for it that are let through are the
    grants of its zero time. -/
theorem grants_of_some (hr : 0 < rl.rate) {b : Bucket F} (hb : rl.keyToBucket key = some b)
    (cs : List (Call F)) :
    ∃ z, ZeroTime.Grants (1 / rl.rate) ((rl.burstSize - 1) / rl.rate) b.zeroTime
      (rl.granted key cs) z := by
  induction cs generalizing rl b with
  | nil => exact ⟨_, .nil⟩
  | cons c cs ih =>
    rw [granted_cons]
    by_cases hc : c.key = key
    · subst hc
      rw [aquire_of_some hb]
      obtain ⟨z, hz⟩ := @ih
        { rl with
          keyToBucket := Function.update rl.keyToBucket c.key
            (some (b.aquire c.now rl.rate rl.burstSize 1).2) } hr _ (Function.update_self ..)
      cases hok : (b.aquire c.now rl.rate rl.burstSize 1).1 with
      | true =>
        rw [if_pos ⟨rfl, rfl⟩]
        exact ⟨z, .cons (b.grant_of_aquire hr hok) hz⟩
      | false =>
        rw [if_neg (by simp)]
        rw [Bucket.aquire_of_false hok] at hz ⊢
        exact ⟨z, hz⟩
    · have hb' : (rl.aquire c.now c.key).2.keyToBucket key = some b := by
        rw [aquire_keyToBucket_of_ne (Ne.symm hc), hb]
      obtain ⟨z, hz⟩ := @ih (rl.aquire c.now c.key).2 (by rwa [aquire_rate]) b hb'
      rw [aquire_rate, aquire_burstSize] at hz
      exact ⟨z, by simpa [hc] using hz⟩

variable (rl key) in
/-- From an empty table, the calls for a key that are let through are the first
    one, and then the grants of a zero time starting at `0`. -/
theorem granted_new (hr : 0 < rl.rate) (hb : rl.keyToBucket key = none) (cs : List (Call F)) :
    (cs.find? fun c => c.key = key) = none ∧ rl.granted key cs = [] ∨
      ∃ c ts z, (cs.find? fun c => c.key = key) = some c ∧ rl.granted key cs = c.now :: ts ∧
        ZeroTime.Grants (1 / rl.rate) ((rl.burstSize - 1) / rl.rate) 0 ts z := by
  induction cs generalizing rl with
  | nil => exact .inl ⟨rfl, rfl⟩
  | cons c cs ih =>
    rw [granted_cons]
    by_cases hc : c.key = key
    · subst hc
      refine .inr ⟨c, (rl.aquire c.now c.key).2.granted c.key cs, ?_⟩
      rw [aquire_of_none hb]
      obtain ⟨z, hz⟩ := @grants_of_some F _ _ _
        { rl with keyToBucket := Function.update rl.keyToBucket c.key (some ⟨0⟩) } c.key hr _
        (Function.update_self ..) cs
      exact ⟨z, by simp, by simp, hz⟩
    · have hb' : (rl.aquire c.now c.key).2.keyToBucket key = none := by
        rw [aquire_keyToBucket_of_ne (Ne.symm hc), hb]
      have := @ih (rl.aquire c.now c.key).2 (by rwa [aquire_rate]) hb'
      rw [aquire_rate, aquire_burstSize] at this
      simpa [hc] using this

variable {rate burstSize : F}

/-- With a clock that does not run backwards, the bound holds in a window that
    does not have the first call of the key in it, or starts a token's worth of
    time before it. -/
theorem letThrough_le (hr : 0 < rate) (hb : 0 ≤ burstSize) {cs : List (Call F)}
    (hclock : (cs.map Call.now).Pairwise (· ≤ ·)) {lo hi : F} (hlh : lo ≤ hi)
    (hfirst : ∀ c, (cs.find? fun c => c.key = key) = some c →
      c.now < lo ∨ hi < c.now ∨ 1 ≤ rate * (c.now - lo)) :
    ((new rate burstSize).letThrough key lo hi cs : F) ≤ burstSize + rate * (hi - lo) := by
  rw [letThrough_eq]
  rcases granted_new (new rate burstSize) key hr rfl cs with
    ⟨-, hg⟩ | ⟨c, ts, z, hc, hg, hts⟩
  · rw [hg]
    simpa [ZeroTime.Grants.inWindow] using
      add_nonneg hb (mul_nonneg hr.le (sub_nonneg.2 hlh))
  have htokens : ∀ lo ≤ hi,
      (ZeroTime.Grants.inWindow lo hi ts : F) ≤ burstSize + rate * (hi - lo) := fun lo hlh => by
    have h := hts.tokens_le hr hb zero_le_one hlh
    rwa [mul_one] at h
  rw [hg]
  by_cases hw : lo ≤ c.now ∧ c.now ≤ hi
  · have hpay : 1 ≤ rate * (c.now - lo) := by
      rcases hfirst c hc with h | h | h
      · exact absurd hw.1 (not_le.2 h)
      · exact absurd hw.2 (not_le.2 h)
      · exact h
    -- All calls come after the first, so that the grants are in `[c.now, hi]`.
    have hafter : ∀ t ∈ ts, c.now ≤ t :=
      (List.pairwise_cons.1 (hg ▸ hclock.sublist (granted_sublist cs))).1
    have hcount : ZeroTime.Grants.inWindow lo hi (c.now :: ts) =
        ZeroTime.Grants.inWindow c.now hi ts + 1 := by
      have : ZeroTime.Grants.inWindow lo hi ts = ZeroTime.Grants.inWindow c.now hi ts :=
        List.countP_congr fun t ht => by simp [hafter t ht, hw.1.trans (hafter t ht)]
      rw [← this]
      simp [ZeroTime.Grants.inWindow, hw]
    rw [hcount, Nat.cast_succ]
    linarith [htokens c.now hw.2]
  · have hcount : ZeroTime.Grants.inWindow lo hi (c.now :: ts) =
        ZeroTime.Grants.inWindow lo hi ts := by
      simp [ZeroTime.Grants.inWindow, hw]
    rw [hcount]
    exact htokens lo hlh

/-- A bucket holding `k` tokens lets `k` calls through at once. -/
theorem granted_replicate (hr : 0 < rl.rate) {b : Bucket F} (hb : rl.keyToBucket key = some b)
    {k : ℕ} {t : F} (hk : (k : F) ≤ Bucket.tokens b.zeroTime t rl.rate rl.burstSize) :
    rl.granted key (List.replicate k ⟨t, key⟩) = List.replicate k t := by
  induction k generalizing rl b with
  | zero => rfl
  | succ k ih =>
    rw [Nat.cast_succ] at hk
    have hk0 : (0 : F) ≤ k := Nat.cast_nonneg k
    have hok : ¬Bucket.tokens b.zeroTime t rl.rate rl.burstSize < 1 := by
      linarith
    have hle : Bucket.tokens b.zeroTime t rl.rate rl.burstSize ≤ rl.burstSize := by
      rw [Bucket.tokens, stdMin_eq_min]
      exact min_le_right _ _
    -- One token less is left.
    have hnew : Bucket.tokens (b.aquire t rl.rate rl.burstSize 1).2.zeroTime t rl.rate
        rl.burstSize = Bucket.tokens b.zeroTime t rl.rate rl.burstSize - 1 := by
      rw [Bucket.aquire, if_neg hok, Bucket.tokens, stdMin_eq_min, Bucket.zeroTimeNew,
        sub_sub_cancel, div_mul_cancel₀ _ hr.ne', min_eq_left (by linarith)]
    have hgrant : (b.aquire t rl.rate rl.burstSize 1).1 = true := by
      rw [Bucket.aquire, if_neg hok]
    rw [List.replicate_succ, granted_cons, aquire_of_some hb, if_pos ⟨rfl, hgrant⟩,
      List.replicate_succ, List.singleton_append]
    refine congrArg _ (@ih { rl with
      keyToBucket :=
        Function.update rl.keyToBucket key (some (b.aquire t rl.rate rl.burstSize 1).2) }
      hr _ (Function.update_self ..) ?_)
    rw [hnew]
    linarith

/-- A key first used when its bucket is full lets a whole bucket and one call
    more through at once. -/
theorem letThrough_replicate (hr : 0 < rate) (key : String) {n : ℕ} {lo f : F} (hlo : lo ≤ f)
    (hfull : (n : F) ≤ rate * f) :
    (new rate (n : F)).letThrough key lo f (List.replicate (n + 1) ⟨f, key⟩) = n + 1 := by
  have hgranted : (new rate (n : F)).granted key (List.replicate (n + 1) ⟨f, key⟩) =
      List.replicate (n + 1) f := by
    rw [List.replicate_succ, granted_cons, aquire_of_none rfl, if_pos ⟨rfl, rfl⟩,
      List.replicate_succ, List.singleton_append]
    refine congrArg _ (granted_replicate (b := ⟨0⟩) hr (Function.update_self ..) ?_)
    rw [Bucket.tokens, stdMin_eq_min, sub_zero, mul_comm]
    exact le_min hfull le_rfl
  rw [letThrough_eq, hgranted, ZeroTime.Grants.inWindow, List.countP_replicate,
    if_pos (by simp [hlo])]

/-- **The limiter's bound.** The calls for a key let through in `[lo, hi]` are
    at most `burstSize + rate * (hi - lo)` if the first call of the key is not
    among them, or comes a token's worth of time after `lo`. Otherwise they
    need not be: for a burst size that is a whole number and a key first used
    at a time `f` when its bucket is full, some calls at `f` break the bound. -/
theorem letThrough_bound {rate burstSize : ℚ} (hr : 0 < rate) (hb : 0 ≤ burstSize)
    (key : String) :
    (∀ cs : List (Call ℚ), (cs.map Call.now).Pairwise (· ≤ ·) → ∀ lo hi, lo ≤ hi →
      (∀ c, (cs.find? fun c => c.key = key) = some c →
        c.now < lo ∨ hi < c.now ∨ 1 ≤ rate * (c.now - lo)) →
      ((new rate burstSize).letThrough key lo hi cs : ℚ) ≤ burstSize + rate * (hi - lo)) ∧
    (∀ lo f, lo ≤ f → rate * (f - lo) < 1 → ∀ n : ℕ, burstSize = n → burstSize ≤ rate * f →
      ∃ cs : List (Call ℚ), (cs.map Call.now).Pairwise (· ≤ ·) ∧
        (∃ c, (cs.find? fun c => c.key = key) = some c ∧ c.now = f) ∧
        burstSize + rate * (f - lo) < (new rate burstSize).letThrough key lo f cs) := by
  refine ⟨fun cs hclock lo hi hlh hfirst => letThrough_le hr hb hclock hlh hfirst, ?_⟩
  rintro lo f hlo hpay n rfl hfull
  refine ⟨List.replicate (n + 1) ⟨f, key⟩, by simp [List.pairwise_replicate],
    ⟨⟨f, key⟩, by simp [List.replicate_succ]⟩, ?_⟩
  rw [letThrough_replicate hr key hlo hfull, Nat.cast_succ]
  linarith

/-- Three calls at once, the first of them free, and one a second later. -/
def fourCalls : List (Call ℚ) :=
  [⟨10, "127.0.0.1submitNonce"⟩, ⟨10, "127.0.0.1submitNonce"⟩, ⟨10, "127.0.0.1submitNonce"⟩,
    ⟨11, "127.0.0.1submitNonce"⟩]

/-- With a burst size of two, all are let through; a burst size of one can be exceeded. -/
theorem letThrough_bound_four :
    ((new (1 : ℚ) 2).letThrough "127.0.0.1submitNonce" 9 11 fourCalls = 4 ∧
      ((new (1 : ℚ) 2).letThrough "127.0.0.1submitNonce" 9 11 fourCalls : ℚ) ≤
        2 + 1 * (11 - 9)) ∧
    ∃ cs : List (Call ℚ), (cs.map Call.now).Pairwise (· ≤ ·) ∧
      (∃ c, (cs.find? fun c => c.key = "127.0.0.1submitNonce") = some c ∧ c.now = 10) ∧
      (1 + 1 * (10 - 10) : ℚ) < (new 1 1).letThrough "127.0.0.1submitNonce" 10 10 cs := by
  refine ⟨⟨by decide +kernel, ?_⟩, ?_⟩
  · refine (letThrough_bound one_pos zero_le_two "127.0.0.1submitNonce").1 fourCalls
      (by norm_num [fourCalls]) 9 11 (by norm_num) fun c hc => .inr (.inr ?_)
    -- The first call comes at the time 10.
    obtain rfl := Option.some.inj hc
    norm_num
  · exact (letThrough_bound one_pos zero_le_one "127.0.0.1submitNonce").2 10 10 le_rfl
      (by norm_num) 1 Nat.cast_one.symm (by norm_num)

/-- Two calls at the same time, both let through with a burst size of one: the
    first one is not charged. -/
theorem letThrough_first_call_free :
    ¬((new (1 : ℚ) 1).letThrough "127.0.0.1submitNonce" 10 10
      [⟨10, "127.0.0.1submitNonce"⟩, ⟨10, "127.0.0.1submitNonce"⟩] : ℚ) ≤ 1 + 1 * (10 - 10) := by
  have h : (new (1 : ℚ) 1).letThrough "127.0.0.1submitNonce" 10 10
      [⟨10, "127.0.0.1submitNonce"⟩, ⟨10, "127.0.0.1submitNonce"⟩] = 2 := by decide +kernel
  rw [h]
  norm_num

end RateLimiter

end BurstPoolNode

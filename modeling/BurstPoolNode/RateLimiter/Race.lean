import Mathlib.Data.Rat.Floor
import BurstPoolNode.RateLimiter.Window
import BurstPoolNode.System

/-!
# Racing for a bucket

`Bucket.aquire` as its atomic steps: load the zero time, compute the new one,
compare and exchange, and start over from the zero time found when the exchange
fails. Any number of callers take these steps in any order, each with the time
it read before its first step. A caller alone does what `Bucket.aquire` does in
one step (`exec_alone`).

* `Inv`: the zero time has moved by one grant for each caller let through, and
  a caller about to exchange would move the zero time it loaded by a grant;
* `step_inv`: every step keeps it, a successful exchange because the zero time
  is the one loaded;
* `race_bound`: so many callers let through fit into the window of their times,
  whatever their order.
-/

namespace BurstPoolNode.Bucket

/-- Where a caller of `Bucket.aquire` is, with its local variables. -/
inductive Pc (F : Type*)
  | load
  | compute (zeroTimeOld : F)
  | exchange (zeroTimeOld zeroTimeNew : F)
  | returned (granted : Bool)
  deriving DecidableEq

/-- A caller: the time it passed, and where it is. -/
structure Caller (F : Type*) where
  now : F
  pc : Pc F
  deriving DecidableEq

/-- A bucket and its callers. -/
structure Race (F : Type*) where
  bucket : Bucket F
  callers : List (Caller F)
  deriving DecidableEq

/-- A new call, a step of the `i`-th caller, or its exchange failing for no
    reason, as a weak one may. -/
inductive Move (F : Type*)
  | call (now : F)
  | step (i : ℕ)
  | spurious (i : ℕ)

/-- The callers' times stay the same when one of them moves on. -/
theorem exists_now_set {F : Type*} {cs : List (Caller F)} {i : ℕ} {c : Caller F} {pc : Pc F}
    (hc : cs[i]? = some c) {time : F} (h : ∃ c' ∈ cs, c'.now = time) :
    ∃ c' ∈ cs.set i { c with pc := pc }, c'.now = time := by
  obtain ⟨hi, rfl⟩ := List.getElem?_eq_some_iff.1 hc
  obtain ⟨c', hc', rfl⟩ := h
  obtain ⟨j, hj⟩ := List.mem_iff_getElem?.1 hc'
  by_cases hij : i = j
  · subst hij
    refine ⟨_, List.mem_set hi _, ?_⟩
    rw [hc] at hj
    rw [← Option.some.inj hj]
  · exact ⟨c', List.mem_of_getElem? (i := j) (by rw [List.getElem?_set_ne hij, hj]), rfl⟩

section Steps

variable {F : Type*} [Sub F] [Mul F] [Div F] [LT F] [DecidableLT F] [DecidableEq F]
  (rate burstSize consume : F)

/-- A step of a caller at a bucket: the bucket and the place after it. -/
def Caller.step (c : Caller F) (b : Bucket F) : Option (Bucket F × Pc F) :=
  match c.pc with
  | .load => some (b, .compute b.zeroTime)
  | .compute old =>
    if tokens old c.now rate burstSize < consume then
      some (b, .returned false)
    else
      some (b, .exchange old (zeroTimeNew old c.now rate burstSize consume))
  | .exchange old new =>
    if b.zeroTime = old then some (⟨new⟩, .returned true) else some (b, .compute b.zeroTime)
  | .returned _ => none

/-- The race for a bucket of the zero time `z`. -/
def race (z : F) : System (Race F) (Move F) where
  init := {⟨⟨z⟩, []⟩}
  step s
    | .call now => some { s with callers := s.callers ++ [⟨now, .load⟩] }
    | .step i => do
      let c ← s.callers[i]?
      let r ← c.step rate burstSize consume s.bucket
      return ⟨r.1, s.callers.set i { c with pc := r.2 }⟩
    | .spurious i => do
      let c ← s.callers[i]?
      match c.pc with
      | .exchange _ _ =>
        return { s with callers := s.callers.set i { c with pc := .compute s.bucket.zeroTime } }
      | _ => none

/-- A caller has got its tokens. -/
def Caller.granted (c : Caller F) : Bool := c.pc = .returned true

variable {rate burstSize consume} {z : F}

theorem step_call {s t : Race F} {now : F}
    (h : (race rate burstSize consume z).step s (.call now) = some t) :
    t = { s with callers := s.callers ++ [⟨now, .load⟩] } :=
  (Option.some.inj h).symm

theorem step_step {s t : Race F} {i : ℕ} :
    (race rate burstSize consume z).step s (.step i) = some t ↔
      ∃ c b pc, s.callers[i]? = some c ∧ c.step rate burstSize consume s.bucket = some (b, pc) ∧
        ⟨b, s.callers.set i { c with pc := pc }⟩ = t := by
  simp only [race, bind, Option.bind_eq_some_iff, pure, Option.some.injEq, Prod.exists]
  grind

theorem step_spurious {s t : Race F} {i : ℕ}
    (h : (race rate burstSize consume z).step s (.spurious i) = some t) :
    ∃ c old new, s.callers[i]? = some c ∧ c.pc = .exchange old new ∧
      t = { s with callers := s.callers.set i { c with pc := .compute s.bucket.zeroTime } } := by
  simp only [race, bind, Option.bind_eq_some_iff] at h
  obtain ⟨c, hc, h⟩ := h
  split at h
  · next old new hpc => exact ⟨c, old, new, hc, hpc, (Option.some.inj h).symm⟩
  · cases h

variable (rate burstSize consume z) in
theorem step_set {b b' : Bucket F} {cs : List (Caller F)} {i : ℕ} (hi : i < cs.length)
    {c : Caller F} {pc : Pc F} (h : c.step rate burstSize consume b = some (b', pc)) :
    (race rate burstSize consume z).step ⟨b, cs.set i c⟩ (.step i) =
      some ⟨b', cs.set i { c with pc := pc }⟩ :=
  step_step.2 ⟨c, b', pc, by simp [hi], h, by simp⟩

/-- A caller that no other interferes with, its exchange succeeding, returns
    what `Bucket.aquire` returns and leaves the bucket it leaves. -/
theorem exec_alone {b : Bucket F} {cs : List (Caller F)} {i : ℕ} (hi : i < cs.length) (now : F) :
    ∃ n, (race rate burstSize consume z).exec ⟨b, cs.set i ⟨now, .load⟩⟩
      (List.replicate n (.step i)) =
        some ⟨(b.aquire now rate burstSize consume).2,
          cs.set i ⟨now, .returned (b.aquire now rate burstSize consume).1⟩⟩ := by
  have hload := step_set rate burstSize consume z hi
    (c := ⟨now, .load⟩) (b := b) rfl
  by_cases hlt : tokens b.zeroTime now rate burstSize < consume
  · -- Too few tokens: the call returns without an exchange.
    have hcompute := step_set rate burstSize consume z (b := b) hi
      (c := ⟨now, .compute b.zeroTime⟩) (if_pos hlt)
    refine ⟨2, ?_⟩
    rw [aquire, if_pos hlt]
    simp only [List.replicate, System.exec, hload, hcompute, Option.bind_some]
  · -- The exchange succeeds: nobody has changed the zero time since it was loaded.
    have hcompute := step_set rate burstSize consume z (b := b) hi
      (c := ⟨now, .compute b.zeroTime⟩) (if_neg hlt)
    have hexchange := step_set rate burstSize consume z (b := b) hi
      (c := ⟨now, .exchange b.zeroTime (zeroTimeNew b.zeroTime now rate burstSize consume)⟩)
      (if_pos (c := b.zeroTime = b.zeroTime) rfl)
    refine ⟨3, ?_⟩
    rw [aquire, if_neg hlt]
    simp only [List.replicate, System.exec, hload, hcompute, hexchange, Option.bind_some]

end Steps

/-! ## The invariant -/

section Bound

variable {F : Type*} [Field F] [LinearOrder F] [IsStrictOrderedRing F]
  {rate burstSize consume z : F} {s t : Race F}

variable (rate burstSize consume z) in
/-- The invariant of the race. -/
structure Inv (s : Race F) : Prop where
  /-- The zero time has moved by one grant for each caller let through. -/
  grants : ∃ ts, ZeroTime.Grants (consume / rate) ((burstSize - consume) / rate) z ts
    s.bucket.zeroTime ∧ ts.length = s.callers.countP Caller.granted ∧
      ∀ t ∈ ts, ∃ c ∈ s.callers, c.now = t
  /-- A caller about to exchange would move the zero time it loaded by a grant. -/
  exchange : ∀ c ∈ s.callers, ∀ old new, c.pc = .exchange old new →
    ZeroTime.Grant (consume / rate) ((burstSize - consume) / rate) old c.now new

omit [IsStrictOrderedRing F] in
theorem inv_init (hs : s ∈ (race rate burstSize consume z).init) :
    Inv rate burstSize consume z s := by
  cases Set.mem_singleton_iff.1 hs
  exact ⟨⟨[], .nil, rfl, by simp⟩, by simp⟩

/-- A step of a caller: a successful exchange moves the zero time by a grant,
    and nothing else does. -/
theorem Caller.step_cases {c : Caller F} {b b' : Bucket F} {pc : Pc F} (hr : 0 < rate)
    (hex : ∀ old new, c.pc = .exchange old new →
      ZeroTime.Grant (consume / rate) ((burstSize - consume) / rate) old c.now new)
    (h : c.step rate burstSize consume b = some (b', pc)) :
    (pc = .returned true ∧ c.granted = false ∧
      ZeroTime.Grant (consume / rate) ((burstSize - consume) / rate) b.zeroTime c.now
        b'.zeroTime) ∨
    (pc ≠ .returned true ∧ c.granted = false ∧ b' = b ∧ ∀ old new, pc = .exchange old new →
      ZeroTime.Grant (consume / rate) ((burstSize - consume) / rate) old c.now new) := by
  obtain ⟨now, place⟩ := c
  cases place with
  | load =>
    cases h
    exact .inr ⟨by simp, by simp [granted], rfl, by simp⟩
  | compute old =>
    simp only [step] at h
    split_ifs at h with hlt
    · cases h
      exact .inr ⟨by simp, by simp [granted], rfl, by simp⟩
    · cases h
      refine .inr ⟨by simp, by simp [granted], rfl, ?_⟩
      rintro _ _ ⟨⟩
      rw [tokens, stdMin_eq_min] at hlt
      simpa only [zeroTimeNew, tokens, stdMin_eq_min] using
        ZeroTime.grant_of_tokens hr (not_lt.1 hlt)
  | exchange old new =>
    simp only [step] at h
    split_ifs at h with heq
    · -- The new zero time was computed from the one that is there.
      cases h
      exact .inl ⟨rfl, by simp [granted], heq ▸ hex old new rfl⟩
    · cases h
      exact .inr ⟨by simp, by simp [granted], rfl, by simp⟩
  | returned granted => cases h

omit [IsStrictOrderedRing F] in
/-- Moving a caller that is not let through keeps the invariant. -/
theorem Inv.set {i : ℕ} {c : Caller F} {pc : Pc F} (h : Inv rate burstSize consume z s)
    (hc : s.callers[i]? = some c) (hg : c.granted = false) (hpc : pc ≠ .returned true)
    (hex : ∀ old new, pc = .exchange old new →
      ZeroTime.Grant (consume / rate) ((burstSize - consume) / rate) old c.now new) :
    Inv rate burstSize consume z { s with callers := s.callers.set i { c with pc := pc } } := by
  obtain ⟨hi, rfl⟩ := List.getElem?_eq_some_iff.1 hc
  obtain ⟨ts, hts, hlen, hnow⟩ := h.grants
  refine ⟨⟨ts, hts, ?_, fun t ht => exists_now_set hc (hnow t ht)⟩, fun c' hc' old new hpc' => ?_⟩
  · rw [hlen, List.countP_set hi, hg]
    simp [Caller.granted, hpc]
  · rcases List.mem_or_eq_of_mem_set hc' with hc' | rfl
    · exact h.exchange c' hc' old new hpc'
    · exact hex old new hpc'

theorem step_inv {a : Move F} (hr : 0 < rate) (h : Inv rate burstSize consume z s)
    (hst : (race rate burstSize consume z).step s a = some t) :
    Inv rate burstSize consume z t := by
  cases a with
  | call now =>
    cases step_call hst
    obtain ⟨ts, hts, hlen, hnow⟩ := h.grants
    refine ⟨⟨ts, hts, by simp [hlen, Caller.granted], fun t ht => ?_⟩, fun c hc => ?_⟩
    · obtain ⟨c, hc, rfl⟩ := hnow t ht
      exact ⟨c, List.mem_append_left _ hc, rfl⟩
    · rcases List.mem_append.1 hc with hc | hc
      · exact h.exchange c hc
      · cases List.mem_singleton.1 hc
        simp
  | spurious i =>
    obtain ⟨c, old, new, hc, hpc, rfl⟩ := step_spurious hst
    exact h.set hc (by simp [Caller.granted, hpc]) (by simp) (by simp)
  | step i =>
    obtain ⟨c, b, pc, hc, hstep, rfl⟩ := step_step.1 hst
    have hmem := List.mem_of_getElem? hc
    rcases Caller.step_cases hr (h.exchange c hmem) hstep with
      ⟨rfl, hg, hgrant⟩ | ⟨hpc, hg, rfl, hex⟩
    · -- A successful exchange: one more grant, one more caller let through.
      obtain ⟨ts, hts, hlen, hnow⟩ := h.grants
      obtain ⟨hi, rfl⟩ := List.getElem?_eq_some_iff.1 hc
      refine ⟨⟨_, hts.concat hgrant, ?_, fun t ht => exists_now_set hc ?_⟩,
        fun c' hc' old new hpc' => ?_⟩
      · rw [List.length_append, hlen, List.countP_set hi, hg]
        simp [Caller.granted]
      · rcases List.mem_append.1 ht with ht | ht
        · exact hnow t ht
        · exact ⟨_, hmem, (List.mem_singleton.1 ht).symm⟩
      · rcases List.mem_or_eq_of_mem_set hc' with hc' | rfl
        · exact h.exchange c' hc' old new hpc'
        · cases hpc'
    · exact h.set hc hg hpc hex

/-- Every reachable state of the race satisfies the invariant. -/
theorem reachable_inv (hr : 0 < rate) (h : (race rate burstSize consume z).Reachable System.Any s) :
    Inv rate burstSize consume z s :=
  h.invariant (fun _ => inv_init) fun _ _ _ hs _ hst => step_inv hr hs hst

end Bound

/-- **No over-drawing.** Callers racing for a bucket, all with times in
    `[lo, hi]`, get at most `burstSize + rate * (hi - lo)` tokens; and every
    successful exchange moves the zero time by `1 / rate` at least, to the time
    of its caller at most. -/
theorem race_bound {rate burstSize z : ℚ} (hr : 0 < rate) (hb : 0 ≤ burstSize) {s : Race ℚ}
    (h : (race rate burstSize 1 z).Reachable System.Any s) :
    (∀ lo hi, lo ≤ hi → (∀ c ∈ s.callers, lo ≤ c.now ∧ c.now ≤ hi) →
      (s.callers.countP (fun c => c.pc = .returned true) : ℚ) ≤ burstSize + rate * (hi - lo)) ∧
    (∀ i c old new t, s.callers[i]? = some c → c.pc = .exchange old new →
      s.bucket.zeroTime = old → (race rate burstSize 1 z).step s (.step i) = some t →
      s.bucket.zeroTime + 1 / rate ≤ t.bucket.zeroTime ∧ t.bucket.zeroTime ≤ c.now) := by
  have hinv := reachable_inv hr h
  refine ⟨fun lo hi hlh hwin => ?_, ?_⟩
  · obtain ⟨ts, hts, hlen, hnow⟩ := hinv.grants
    have hall : ZeroTime.Grants.inWindow lo hi ts = ts.length :=
      List.countP_eq_length.2 fun t ht => by
        obtain ⟨c, hc, rfl⟩ := hnow t ht
        simpa using hwin c hc
    have hle := hts.tokens_le hr hb zero_le_one hlh
    rwa [hall, hlen, mul_one] at hle
  · rintro i c old new t hc hpc rfl hst
    obtain ⟨c', b, pc, hc', hstep, rfl⟩ := step_step.1 hst
    cases hc.symm.trans hc'
    simp only [Caller.step, hpc, if_true] at hstep
    cases hstep
    have hgrant := hinv.exchange c (List.mem_of_getElem? hc) _ _ hpc
    exact ⟨hgrant.advance, hgrant.le_time⟩

/-- Two callers, the second with the earlier time. The exchange of the first fails for no reason,
    that of the second because the first has moved the zero time; both start over. -/
def twoCallers : List (Move ℚ) :=
  [.call 13, .call 12, .step 0, .step 1, .step 0, .step 1, .spurious 0, .step 0, .step 0, .step 1,
    .step 1]

theorem race_bound_retry : ∃ s t : Race ℚ, (race (1 : ℚ) 3 1 0).Reachable System.Any s ∧
    s = ⟨⟨11⟩, [⟨13, .returned true⟩, ⟨12, .exchange 11 12⟩]⟩ ∧
    (race (1 : ℚ) 3 1 0).step s (.step 1) = some t ∧
    t = ⟨⟨12⟩, [⟨13, .returned true⟩, ⟨12, .returned true⟩]⟩ ∧
    (t.callers.countP (fun c => c.pc = .returned true) : ℚ) ≤ 3 + 1 * (13 - 12) ∧
    s.bucket.zeroTime + 1 / 1 ≤ t.bucket.zeroTime ∧ t.bucket.zeroTime ≤ 12 := by
  have hrun : (race (1 : ℚ) 3 1 0).exec ⟨⟨0⟩, []⟩ twoCallers =
      some ⟨⟨11⟩, [⟨13, .returned true⟩, ⟨12, .exchange 11 12⟩]⟩ := by
    decide +kernel
  have hstep : (race (1 : ℚ) 3 1 0).step ⟨⟨11⟩, [⟨13, .returned true⟩, ⟨12, .exchange 11 12⟩]⟩
      (.step 1) = some ⟨⟨12⟩, [⟨13, .returned true⟩, ⟨12, .returned true⟩]⟩ := by
    decide +kernel
  have hreach := System.Reachable.exec (.init rfl) hrun
  have hadvance := (race_bound one_pos (by norm_num) hreach).2 1 _ _ _ _ rfl rfl rfl hstep
  refine ⟨_, _, hreach, rfl, hstep, rfl, ?_, hadvance⟩
  refine (race_bound one_pos (by norm_num) (hreach.step trivial hstep)).1 12 13 (by norm_num) ?_
  simp only [List.forall_mem_cons]
  norm_num

end BurstPoolNode.Bucket

import BurstPoolNode.RateLimiter.Window
import BurstPoolNode.TokenBucket

/-!
# The classical token bucket

With exact arithmetic, a `Bucket` is the token bucket that stores its tokens and
the time of the last call, as far as the answers to its callers are concerned,
although it writes nothing when it denies a call:

* `simulates_aquire`: its zero time stands for these tokens, before and after
  every call;
* `refines`: so that all sequences of calls get the same answers.
-/

namespace BurstPoolNode.Bucket

variable {F : Type*} [Field F] [LinearOrder F]

/-- Calls of `aquire` at the rate `rate` and with the burst size `burstSize`. -/
def machine (rate burstSize : F) : Machine (Bucket F) (Take F) Bool :=
  ⟨fun b c => b.aquire c.now rate burstSize c.consume⟩

/-- The simulation relation. -/
def Simulates (rate burstSize : F) (b : Bucket F) (s : TokenBucket F) : Prop :=
  s.Represents rate burstSize b.zeroTime

/-- Without a rate, there is never a token to take. -/
theorem rate_ne_zero {zeroTime now rate burstSize consume : F} (hconsume : 0 < consume)
    (htokens : ¬tokens zeroTime now rate burstSize < consume) : rate ≠ 0 := by
  rintro rfl
  refine htokens (lt_of_le_of_lt ?_ hconsume)
  rw [tokens, stdMin_eq_min, mul_zero]
  exact min_le_left 0 burstSize

variable [IsStrictOrderedRing F] {rate burstSize : F}

/-- A call is answered as the token bucket answers it, and the zero time stands for the tokens
    that are left. -/
theorem simulates_aquire (hr : 0 < rate) :
    (machine rate burstSize).Simulates (TokenBucket.machine rate burstSize)
      (Simulates rate burstSize) TokenBucket.Timely := by
  intro b s c h hc
  have htokens : tokens b.zeroTime c.now rate burstSize =
      min ((c.now - b.zeroTime) * rate) burstSize := stdMin_eq_min _ _
  have hrefill : s.refill rate burstSize c.now = tokens b.zeroTime c.now rate burstSize :=
    (h.refill_eq hr.le hc.1).trans htokens.symm
  simp only [machine, TokenBucket.machine, aquire, TokenBucket.take, hrefill]
  by_cases hlt : tokens b.zeroTime c.now rate burstSize < c.consume
  · rw [if_pos hlt, if_neg (not_le.mpr hlt), ← hrefill]
    exact ⟨rfl, h.denied hr.le hc.1⟩
  · rw [if_neg hlt, if_pos (not_lt.mp hlt), zeroTimeNew, ← hrefill]
    exact ⟨rfl, TokenBucket.represents_granted hr.ne' hc.2.le⟩

/-- **The bucket refines the classical one.** In the relation with a bucket that stores its
    tokens, as it is with one that was empty at its zero time, calls that ask for tokens, with a
    clock that does not run backwards, get the answers of that bucket, granted and denied ones
    alike, and leave the two in the relation. At whatever rate, and whatever zero time was
    loaded, there is no division by a rate of zero. -/
theorem refines (b : Bucket F) (cs : List (Take F)) (hconsume : ∀ c ∈ cs, 0 < c.consume) :
    (∀ (rate burstSize : F), 0 < rate → 0 ≤ burstSize →
      Simulates rate burstSize b ⟨0, b.zeroTime⟩ ∧
      ∀ s, Simulates rate burstSize b s → (s.last :: cs.map Take.now).Pairwise (· ≤ ·) →
        (machine rate burstSize).outputs b cs =
            (TokenBucket.machine rate burstSize).outputs s cs ∧
          Simulates rate burstSize ((machine rate burstSize).final b cs)
            ((TokenBucket.machine rate burstSize).final s cs)) ∧
      ∀ (rate burstSize zeroTime : F), ∀ c ∈ cs,
        ¬tokens zeroTime c.now rate burstSize < c.consume → rate ≠ 0 := by
  refine ⟨fun rate burstSize hr hb => ⟨TokenBucket.represents_empty hb, fun s h hclock => ?_⟩,
    fun rate burstSize zeroTime c hc => rate_ne_zero (hconsume c hc)⟩
  exact (simulates_aquire hr).run h (TokenBucket.along_timely hconsume hclock)

/-- A call that is granted, one that is denied, and one after a long time. -/
def threeTakes : List (Take ℚ) := [⟨10, 3⟩, ⟨10, 2⟩, ⟨100, 4⟩]

theorem refines_threeTakes :
    (machine (1 : ℚ) 4).outputs ⟨0⟩ threeTakes = [true, false, true] ∧
      (TokenBucket.machine (1 : ℚ) 4).outputs ⟨0, 0⟩ threeTakes = [true, false, true] ∧
      Simulates (1 : ℚ) 4 ((machine 1 4).final ⟨0⟩ threeTakes)
        ((TokenBucket.machine 1 4).final ⟨0, 0⟩ threeTakes) := by
  have hconsume : ∀ c ∈ threeTakes, 0 < c.consume := by
    simp [threeTakes]
  have hclock : ((0 : ℚ) :: threeTakes.map Take.now).Pairwise (· ≤ ·) := by
    norm_num [threeTakes]
  obtain ⟨hempty, hrun⟩ := (refines ⟨0⟩ threeTakes hconsume).1 1 4 one_pos (by norm_num)
  obtain ⟨houtputs, hfinal⟩ := hrun ⟨0, 0⟩ hempty hclock
  have hgranted : (machine (1 : ℚ) 4).outputs ⟨0⟩ threeTakes = [true, false, true] := by
    decide +kernel
  exact ⟨hgranted, houtputs ▸ hgranted, hfinal⟩

end BurstPoolNode.Bucket

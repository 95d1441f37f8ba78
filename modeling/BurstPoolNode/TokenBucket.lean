import BurstPoolNode.Machine
import BurstPoolNode.ZeroTime

/-!
# Token buckets

The token bucket that stores its tokens: every call refills it at its rate for
the time since the last call, up to its size, and takes tokens out of it if
there are enough.

* `Represents r b z s`: the zero time `z` stands for the bucket, if it has been
  empty then;
* `Represents.denied`, `represents_granted`: a call at a time that is not before
  the last one keeps the zero time if it is denied, and moves it if it is
  granted.
-/

namespace BurstPoolNode

variable {F : Type*} [Field F] [LinearOrder F]

/-- A token bucket: its tokens, and the time of the last call. -/
structure TokenBucket (F : Type*) where
  tokens : F
  last : F
  deriving DecidableEq

/-- A call that asks for `consume` tokens at the time `now`. -/
structure Take (F : Type*) where
  now : F
  consume : F

namespace TokenBucket

/-- The tokens at the time `now`, at the rate `r` and with the size `b`. -/
def refill (r b : F) (s : TokenBucket F) (now : F) : F :=
  min (s.tokens + (now - s.last) * r) b

/-- Whether a call gets its tokens, and the bucket after it. -/
def take (r b : F) (s : TokenBucket F) (c : Take F) : Bool × TokenBucket F :=
  if c.consume ≤ s.refill r b c.now then (true, ⟨s.refill r b c.now - c.consume, c.now⟩)
  else (false, ⟨s.refill r b c.now, c.now⟩)

/-- The bucket as a machine. -/
def machine (r b : F) : Machine (TokenBucket F) (Take F) Bool := ⟨take r b⟩

/-- The call asks for tokens, and its clock does not run backwards. -/
def Timely (s : TokenBucket F) (c : Take F) : Prop := s.last ≤ c.now ∧ 0 < c.consume

/-- The tokens are those refilled since the zero time `z`. -/
def Represents (r b z : F) (s : TokenBucket F) : Prop := s.tokens = min ((s.last - z) * r) b

variable {r b z : F} {s : TokenBucket F} {c : Take F}

theorem take_last : (s.take r b c).2.last = c.now := by
  rw [take]
  split_ifs <;> rfl

/-- Calls in the order of their times are timely. -/
theorem along_timely {cs : List (Take F)} (hconsume : ∀ c ∈ cs, 0 < c.consume)
    (hclock : (s.last :: cs.map Take.now).Pairwise (· ≤ ·)) :
    (machine r b).Along Timely s cs := by
  induction cs generalizing s with
  | nil => trivial
  | cons c cs ih =>
    rw [List.forall_mem_cons] at hconsume
    rw [List.map_cons, List.pairwise_cons] at hclock
    refine ⟨⟨hclock.1 _ List.mem_cons_self, hconsume.1⟩, ih hconsume.2 ?_⟩
    rw [machine, take_last]
    exact hclock.2

/-- An empty bucket is its own zero time. -/
theorem represents_empty (hb : 0 ≤ b) : Represents r b z ⟨0, z⟩ := by
  rw [Represents, sub_self, zero_mul, min_eq_left hb]

variable [IsStrictOrderedRing F]

/-- Refilling since the last call is refilling since the zero time. -/
theorem Represents.refill_eq (h : Represents r b z s) (hr : 0 ≤ r) {now : F} (hnow : s.last ≤ now) :
    s.refill r b now = min ((now - z) * r) b := by
  have hrefilled : 0 ≤ (now - s.last) * r := mul_nonneg (sub_nonneg.mpr hnow) hr
  calc s.refill r b now
      = min (min ((s.last - z) * r) b + (now - s.last) * r) b := by rw [refill, h]
    _ = min ((s.last - z) * r + (now - s.last) * r) (min (b + (now - s.last) * r) b) := by
        rw [min_add, min_assoc]
    _ = min ((now - z) * r) b := by
        rw [min_eq_right (le_add_of_nonneg_right hrefilled), ← add_mul, sub_add_sub_cancel']

/-- A call that is denied keeps the zero time. -/
theorem Represents.denied (h : Represents r b z s) (hr : 0 ≤ r) {now : F} (hnow : s.last ≤ now) :
    Represents r b z ⟨s.refill r b now, now⟩ := h.refill_eq hr hnow

/-- A call that is granted moves it, so that the tokens left have been refilled since. -/
theorem represents_granted (hr : r ≠ 0) {now consume : F} (hconsume : 0 ≤ consume) :
    Represents r b (now - (s.refill r b now - consume) / r) ⟨s.refill r b now - consume, now⟩ := by
  have hsize : s.refill r b now - consume ≤ b := (sub_le_self _ hconsume).trans (min_le_right _ _)
  rw [Represents, sub_sub_cancel, div_mul_cancel₀ _ hr, min_eq_left hsize]

end TokenBucket

end BurstPoolNode

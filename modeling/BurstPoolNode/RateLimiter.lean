import Mathlib.Data.Rat.Defs
import Mathlib.Logic.Function.Basic

/-!
# The rate limiter

`Bucket` and `RateLimiter` as `RateLimiter.hpp` has them. A bucket stores its
zero time; `Bucket.aquire` refills it up to the time of the call and takes
`consume` tokens out of it if it holds that many. The limiter keeps a bucket
for each key, made (with the zero time `0`) by the first call for the key,
which is let through.

Doubles are a type `F` with the operations used; nothing is assumed of them
here. The compare-exchange loop of `Bucket.aquire` retries with the same
values when no other thread moves the zero time, so that alone it is one step;
`BurstPoolNode.RateLimiter.Race` interleaves it. `RateLimiter.aquire` holds the
exclusive upgrade lock of its table from its first statement to its last: its
calls, clock reading included, take place one after the other.
-/

namespace BurstPoolNode

/-- `std::min`. -/
def stdMin {F : Type*} [LT F] [DecidableLT F] (a b : F) : F := if b < a then b else a

/-- A bucket: its `_zero_time`. -/
structure Bucket (F : Type*) where
  zeroTime : F
  deriving DecidableEq

variable {F : Type*} [Zero F] [One F] [Sub F] [Mul F] [Div F] [LT F] [DecidableLT F]

namespace Bucket

/-- The tokens in a bucket of the zero time `zeroTime` at the time `now`. -/
def tokens (zeroTime now rate burstSize : F) : F := stdMin ((now - zeroTime) * rate) burstSize

/-- The zero time once `consume` of the tokens are taken. -/
def zeroTimeNew (zeroTimeOld now rate burstSize consume : F) : F :=
  now - (tokens zeroTimeOld now rate burstSize - consume) / rate

/-- Whether the call gets its tokens, and the bucket after it. -/
def aquire (b : Bucket F) (now rate burstSize consume : F) : Bool × Bucket F :=
  if tokens b.zeroTime now rate burstSize < consume then
    (false, b)
  else
    (true, ⟨zeroTimeNew b.zeroTime now rate burstSize consume⟩)

end Bucket

/-- The limiter: the rate and the burst size it was made with, and its table
    of buckets. -/
structure RateLimiter (F : Type*) where
  rate : F
  burstSize : F
  keyToBucket : String → Option (Bucket F)

namespace RateLimiter

/-- A limiter before its first call. -/
def new (rate burstSize : F) : RateLimiter F := ⟨rate, burstSize, fun _ => none⟩

/-- Whether a call for `key`, reading the clock at `now`, is let through, and
    the limiter after it. -/
def aquire (rl : RateLimiter F) (now : F) (key : String) : Bool × RateLimiter F :=
  match rl.keyToBucket key with
  | none =>
    -- The bucket is made, but the call takes nothing out of it.
    (true, { rl with keyToBucket := Function.update rl.keyToBucket key (some ⟨0⟩) })
  | some bucket =>
    let r := bucket.aquire now rl.rate rl.burstSize 1
    (r.1, { rl with keyToBucket := Function.update rl.keyToBucket key (some r.2) })

/-- A call of `aquire`. -/
structure Call (F : Type*) where
  now : F
  key : String

/-- The results of the calls `cs`, made one after the other. -/
def run (rl : RateLimiter F) : List (Call F) → List Bool
  | [] => []
  | c :: cs => (rl.aquire c.now c.key).1 :: run (rl.aquire c.now c.key).2 cs

/-- The calls with their results. -/
def outcomes (rl : RateLimiter F) (cs : List (Call F)) : List (Call F × Bool) :=
  cs.zip (rl.run cs)

@[simp] theorem outcomes_nil (rl : RateLimiter F) : rl.outcomes [] = [] := rfl

@[simp] theorem outcomes_cons (rl : RateLimiter F) (c : Call F) (cs : List (Call F)) :
    rl.outcomes (c :: cs) =
      (c, (rl.aquire c.now c.key).1) :: (rl.aquire c.now c.key).2.outcomes cs := rfl

/-! ## What a call does -/

variable {rl : RateLimiter F} {now : F} {key : String}

theorem aquire_of_none (h : rl.keyToBucket key = none) :
    rl.aquire now key =
      (true, { rl with keyToBucket := Function.update rl.keyToBucket key (some ⟨0⟩) }) := by
  simp [aquire, h]

theorem aquire_of_some {bucket : Bucket F} (h : rl.keyToBucket key = some bucket) :
    rl.aquire now key =
      ((bucket.aquire now rl.rate rl.burstSize 1).1,
        { rl with
          keyToBucket := Function.update rl.keyToBucket key
            (some (bucket.aquire now rl.rate rl.burstSize 1).2) }) := by
  simp [aquire, h]

@[simp] theorem aquire_rate : (rl.aquire now key).2.rate = rl.rate := by
  cases h : rl.keyToBucket key <;> simp [aquire, h]

@[simp] theorem aquire_burstSize : (rl.aquire now key).2.burstSize = rl.burstSize := by
  cases h : rl.keyToBucket key <;> simp [aquire, h]

/-- A call leaves the buckets of the other keys alone. -/
theorem aquire_keyToBucket_of_ne {key' : String} (h : key' ≠ key) :
    (rl.aquire now key).2.keyToBucket key' = rl.keyToBucket key' := by
  cases hb : rl.keyToBucket key <;> simp [aquire, hb, h]

/-- A call reads nothing of the limiter but its parameters and the bucket of
    its key. -/
theorem aquire_congr {rl' : RateLimiter F} (hr : rl'.rate = rl.rate)
    (hb : rl'.burstSize = rl.burstSize) (hk : rl'.keyToBucket key = rl.keyToBucket key) :
    (rl'.aquire now key).1 = (rl.aquire now key).1 ∧
      (rl'.aquire now key).2.keyToBucket key = (rl.aquire now key).2.keyToBucket key := by
  cases h : rl.keyToBucket key <;> simp [aquire, hk, h, hr, hb]

end RateLimiter

end BurstPoolNode

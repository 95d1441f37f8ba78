import BurstPoolNode.Session

/-!
# Clients and the limiter

A history is a list of requests with the times at which they are handled. What
the requests of a client get from the limiter (`admittedOf`) is compared
between histories that have the same requests of that client, the others
differing (`Isolated`).

The limiter key is the address of the node, not that of the client, followed by
the request type. A request of another client moves the bucket of `c` when it
has the same key, and only then:

* `isolated_of_keysApart`: without a key in common, the client is isolated,
  whatever the arithmetic;
* `isolated_iff`: with one in common it is not, for any rate and burst size.
-/

namespace BurstPoolNode.Session

variable {F : Type*} [Zero F] [One F] [Sub F] [Mul F] [Div F] [LT F] [DecidableLT F]

/-! ## Histories -/

/-- A request, when it is handled, and the wallet at that time. -/
structure Arrival (F : Type*) where
  now : F
  session : Session
  wallet : Wallet

/-- The limiter has let the request through (or was not asked). -/
def Outcome.admitted : Outcome → Bool
  | .write res => res.status ≠ .serviceUnavailable
  | .enque _ => true

/-- The outcomes of the requests of a history, handled one after the other. -/
def run (rl : RateLimiter F) : List (Arrival F) → List (Arrival F × Outcome)
  | [] => []
  | a :: as =>
    let r := a.session.handleRequest a.wallet rl a.now
    (a, r.1) :: run r.2 as

/-- Which of the requests of the client `c` are admitted. -/
def admittedOf (c : String) (rl : RateLimiter F) (as : List (Arrival F)) : List Bool :=
  ((run rl as).filter fun r => r.1.session.req.remoteAddress = c).map fun r => r.2.admitted

/-- The requests of the client `c`, with their times. -/
def requestsOf (c : String) (as : List (Arrival F)) : List (F × Request) :=
  (as.filter fun a => a.session.req.remoteAddress = c).map fun a => (a.now, a.session.req)

/-- In histories made of the requests `S`, what the client `c` gets does not depend on the
    requests of the others. -/
def Isolated [LE F] (c : String) (S : Set Request) (rate burstSize : F) : Prop :=
  ∀ as bs : List (Arrival F),
    (as.map Arrival.now).Pairwise (· ≤ ·) → (bs.map Arrival.now).Pairwise (· ≤ ·) →
    (∀ a ∈ as, a.session.req ∈ S) → (∀ b ∈ bs, b.session.req ∈ S) →
    requestsOf c as = requestsOf c bs →
      admittedOf c (.new rate burstSize) as = admittedOf c (.new rate burstSize) bs

/-- No request of another client has the limiter key of a request of `c`. -/
def KeysApart (c : String) (S : Set Request) : Prop :=
  ∀ a ∈ S, a.remoteAddress = c → ∀ b ∈ S, b.remoteAddress ≠ c →
    ∀ key, limiterKey a = some key → limiterKey b ≠ some key

/-! ## The limiter's part of handling a request -/

/-- Whether a request is admitted, and the limiter after it. -/
def admission (rl : RateLimiter F) (now : F) (req : Request) : Bool × RateLimiter F :=
  match limiterKey req with
  | none => (true, rl)
  | some key => rl.aquire now key

theorem processSubmitNonceReq_admitted {s : Session} {w : Wallet} {params : Params} :
    (s.processSubmitNonceReq w params).admitted = true := by
  rw [processSubmitNonceReq]
  split
  · rfl
  · split
    · rfl
    · dsimp only
      split_ifs
      · rfl
      · rfl

/-- The wallet has no part in it. -/
theorem handleRequest_admission (s : Session) (w : Wallet) (rl : RateLimiter F) (now : F) :
    (s.handleRequest w rl now).1.admitted = (admission rl now s.req).1 ∧
      (s.handleRequest w rl now).2 = (admission rl now s.req).2 := by
  rw [handleRequest, admission, limiterKey]
  cases parseUrl s.req.target "requestType" with
  | none => exact ⟨rfl, rfl⟩
  | some reqType =>
    simp only [Option.map_some]
    obtain ⟨admitted, rl'⟩ := rl.aquire now (s.req.localAddress ++ reqType)
    cases admitted with
    | false => exact ⟨rfl, rfl⟩
    | true =>
      dsimp only
      rw [if_pos rfl]
      split_ifs
      · exact ⟨rfl, rfl⟩
      · dsimp only
        rw [processSubmitNonceReq_admitted]
        exact ⟨rfl, rfl⟩
      · exact ⟨rfl, rfl⟩

/-- The requests of one client alone. -/
def admissions (rl : RateLimiter F) : List (F × Request) → List Bool
  | [] => []
  | (now, req) :: rs => (admission rl now req).1 :: admissions (admission rl now req).2 rs

theorem admittedOf_cons (c : String) (rl : RateLimiter F) (a : Arrival F) (as : List (Arrival F)) :
    admittedOf c rl (a :: as) =
      if a.session.req.remoteAddress = c then
        (admission rl a.now a.session.req).1 :: admittedOf c (admission rl a.now a.session.req).2 as
      else
        admittedOf c (admission rl a.now a.session.req).2 as := by
  obtain ⟨hfst, hsnd⟩ := handleRequest_admission a.session a.wallet rl a.now
  rw [← hfst, ← hsnd, admittedOf, run, List.filter_cons]
  split_ifs with h₁ h₂ h₂
  · rfl
  · exact absurd (of_decide_eq_true h₁) h₂
  · exact absurd (decide_eq_true h₂) h₁
  · rfl

/-! ## Isolation -/

/-- The limiters agree on the keys of `K`. -/
structure Agree (K : Set String) (rl rl' : RateLimiter F) : Prop where
  rate : rl'.rate = rl.rate
  burstSize : rl'.burstSize = rl.burstSize
  bucket : ∀ key ∈ K, rl'.keyToBucket key = rl.keyToBucket key

variable {K : Set String} {rl rl' : RateLimiter F}

/-- A request with a key of `K` is treated alike, and the limiters go on agreeing. -/
theorem Agree.admission_same (h : Agree K rl rl') (now : F) {req : Request}
    (hreq : ∀ key, limiterKey req = some key → key ∈ K) :
    (admission rl' now req).1 = (admission rl now req).1 ∧
      Agree K (admission rl now req).2 (admission rl' now req).2 := by
  rw [admission, admission]
  cases hk : limiterKey req with
  | none => exact ⟨rfl, h⟩
  | some key =>
    obtain ⟨hfst, hself⟩ : (rl'.aquire now key).1 = (rl.aquire now key).1 ∧ _ :=
      RateLimiter.aquire_congr h.rate h.burstSize (h.bucket key (hreq key hk))
    refine ⟨hfst, by simpa using h.rate, by simpa using h.burstSize, fun key' hkey' => ?_⟩
    rcases eq_or_ne key' key with rfl | hne
    · exact hself
    · dsimp only
      rw [RateLimiter.aquire_keyToBucket_of_ne hne, RateLimiter.aquire_keyToBucket_of_ne hne]
      exact h.bucket key' hkey'

/-- A request with another key than those of `K` does not change what they agree on. -/
theorem Agree.admission_other (h : Agree K rl rl') (now : F) (req : Request)
    (hreq : ∀ key, limiterKey req = some key → key ∉ K) :
    Agree K (admission rl now req).2 rl' := by
  rw [admission]
  cases hk : limiterKey req with
  | none => exact h
  | some key =>
    refine ⟨by simpa using h.rate, by simpa using h.burstSize, fun key' hkey' => ?_⟩
    have hne : key' ≠ key := fun heq => hreq key hk (heq ▸ hkey')
    dsimp only
    rw [RateLimiter.aquire_keyToBucket_of_ne hne]
    exact h.bucket key' hkey'

/-- What the client gets is what it would get alone. -/
theorem admittedOf_eq {c : String} {S : Set Request} (hS : KeysApart c S)
    {as : List (Arrival F)} (has : ∀ a ∈ as, a.session.req ∈ S)
    (h : Agree {key | ∃ a ∈ S, a.remoteAddress = c ∧ limiterKey a = some key} rl rl') :
    admittedOf c rl as = admissions rl' (requestsOf c as) := by
  induction as generalizing rl rl' with
  | nil => rfl
  | cons a as ih =>
    rw [List.forall_mem_cons] at has
    obtain ⟨ha, has⟩ := has
    rw [admittedOf_cons, requestsOf, List.filter_cons]
    by_cases hc : a.session.req.remoteAddress = c
    · obtain ⟨hfst, hsnd⟩ := h.admission_same a.now fun key hkey => ⟨_, ha, hc, hkey⟩
      rw [if_pos hc, if_pos (decide_eq_true hc), List.map_cons, admissions, hfst, ih has hsnd]
      rfl
    · have hother := h.admission_other a.now a.session.req fun key hkey hK => by
        obtain ⟨b, hb, hbc, hbkey⟩ := hK
        exact hS b hb hbc _ ha hc key hbkey hkey
      rw [if_neg hc, if_neg (by simpa using hc), ih has hother]
      rfl

/-- A client that shares no key is isolated, whatever the arithmetic. -/
theorem isolated_of_keysApart [LE F] {c : String} {S : Set Request} (hS : KeysApart c S)
    (rate burstSize : F) : Isolated c S rate burstSize := by
  intro as bs _ _ has hbs hreqs
  rw [admittedOf_eq hS has ⟨rfl, rfl, fun _ _ => rfl⟩, hreqs,
    ← admittedOf_eq hS hbs ⟨rfl, rfl, fun _ _ => rfl⟩]

/-! ## Sharing a key -/

/-- A wallet that knows nobody. -/
def emptyWallet : Wallet := { recipQuery := "", deadlineLimit := 0 }

/-- At the time zero, a second request for a key is turned away. -/
theorem not_isolated_of_key {c key : String} {S : Set Request} {a b : Request} (ha : a ∈ S)
    (hac : a.remoteAddress = c) (hb : b ∈ S) (hbc : b.remoteAddress ≠ c)
    (hakey : limiterKey a = some key) (hbkey : limiterKey b = some key) (rate burstSize : ℚ) :
    ¬Isolated c S rate burstSize := by
  intro hiso
  have h := hiso [⟨0, ⟨0, a⟩, emptyWallet⟩] [⟨0, ⟨0, b⟩, emptyWallet⟩, ⟨0, ⟨1, a⟩, emptyWallet⟩]
    (by simp) (by simp) (by simpa using ha) (by simpa using ⟨hb, ha⟩)
    (by simp [requestsOf, hac, hbc])
  have hempty : Bucket.tokens (0 : ℚ) 0 rate burstSize < 1 := by
    rw [Bucket.tokens, stdMin, sub_zero, zero_mul]
    split_ifs with hneg
    · exact hneg.trans one_pos
    · exact one_pos
  have hfirst : ((RateLimiter.new rate burstSize).aquire 0 key).1 = true := rfl
  have hsecond : (((RateLimiter.new rate burstSize).aquire 0 key).2.aquire 0 key).1 = false := by
    have hnew : (RateLimiter.new rate burstSize).aquire 0 key = _ := RateLimiter.aquire_of_none rfl
    rw [hnew, RateLimiter.aquire_of_some (Function.update_self ..)]
    exact congrArg Prod.fst (if_pos hempty)
  rw [admittedOf_cons, admittedOf_cons, admittedOf_cons, if_pos hac, if_neg hbc, if_pos hac] at h
  simp only [admission, hakey, hbkey, hfirst, hsecond] at h
  cases h

/-- A client is isolated from the others if and only if none of them has a limiter key in
    common with it. -/
theorem isolated_iff (c : String) (S : Set Request) (rate burstSize : ℚ) :
    Isolated c S rate burstSize ↔ KeysApart c S := by
  constructor
  · intro hiso a ha hac b hb hbc key hakey hbkey
    exact not_isolated_of_key ha hac hb hbc hakey hbkey rate burstSize hiso
  · intro hS
    exact isolated_of_keysApart hS rate burstSize

/-- Two requests for mining info from one client, and that of another is turned away. -/
theorem not_isolated_getMiningInfo : ¬Isolated "203.0.113.7" Set.univ (1 : ℚ) 1 := by
  intro hiso
  have h := hiso
    [⟨100, ⟨0, "192.0.2.1", "203.0.113.7", "/burst?requestType=getMiningInfo", 11⟩, emptyWallet⟩]
    [⟨100, ⟨0, "192.0.2.1", "198.51.100.2", "/burst?requestType=getMiningInfo", 11⟩, emptyWallet⟩,
      ⟨100, ⟨1, "192.0.2.1", "198.51.100.2", "/burst?requestType=getMiningInfo", 11⟩, emptyWallet⟩,
      ⟨100, ⟨2, "192.0.2.1", "203.0.113.7", "/burst?requestType=getMiningInfo", 11⟩, emptyWallet⟩]
    (by decide) (by decide) (fun _ _ => trivial) (fun _ _ => trivial) rfl
  revert h
  decide +kernel

end BurstPoolNode.Session

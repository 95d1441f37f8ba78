import BurstPoolNode.DeadlineRequestHandler

/-!
# Rounds and blocks

The node as far as the rounds of the miners are concerned: refreshes of the
wallet, requests for a nonce, and their validations, one at a time, after the
constructor of the wallet (`mining`).

The rounds are set up by `cache_miners`, which the constructor calls for the
block it starts with, and nobody after it:

* `along_calm_iff`: the rounds follow the blocks (`RoundsFollow`, `Restarts`)
  as long as there is no new block, and, with any miner known, no longer;
* `CalmInv.forwardsFirst`: until then, the first nonce of a miner validated for
  the block is passed on.
-/

namespace BurstPoolNode

open DeadlineRequestHandler

/-- The wallet, the calls of `do_submit_nonce` and `do_write`, the requests in the queue and
    those validated, with their deadlines. -/
structure Mining where
  wallet : Wallet
  forwarded : List (UInt64 × SubmitNonceRequest) := []
  writes : List (ℕ × Response) := []
  taken : List CalcDeadlineReq := []
  validated : List (CalcDeadlineReq × UInt64) := []

namespace Mining

/-- A refresh, a request for a nonce, or the validation of the `i`-th request taken. -/
inductive Action
  | refresh (mem : Memory) (t : Transfer)
  | submit (s : Session)
  | validate (i : ℕ) (deadline : UInt64)

/-- What the validations share. -/
def shared (s : Mining) : Shared := ⟨s.wallet.miners, s.forwarded, s.writes⟩

variable (parse : String → Option Json) (H : List UInt8 → Vector UInt8 32)
  (db : String → Option ResultSet) (cfg : Config)

/-- The system. -/
def mining : System Mining Action where
  init := {s | ∃ mem t w, Wallet.construct parse H mem db cfg t = some w ∧ s = { wallet := w }}
  step s
    | .refresh mem t => some { s with wallet := (s.wallet.refreshBlock parse H mem t).2 }
    | .submit ss =>
      match ss.processSubmitNonceReq s.wallet (parseUrl ss.req.target) with
      | .write res => some { s with writes := s.writes ++ [(ss.id, res)] }
      | .enque creq => some { s with taken := s.taken ++ [creq] }
    | .validate i deadline => do
      let creq ← s.taken[i]?
      let sh ← validateDeadline cfg.deadlineLimit creq deadline s.shared
      return { s with
        wallet := { s.wallet with miners := sh.miners }
        forwarded := sh.forwarded
        writes := sh.writes
        taken := s.taken.eraseIdx i
        validated := s.validated ++ [(creq, deadline)] }

/-! ## The rounds and the current block -/

/-- The rounds of the known accounts are for the current block. -/
def RoundsFollow (s : Mining) : Prop :=
  ∀ a p, s.wallet.miners.getMinerRound a = some p →
    (s.wallet.miners.rounds p).height = s.wallet.currentBlock.height

/-- A refresh that finds a new block starts the rounds for it. -/
def Restarts (s : Mining) (a : Action) : Prop :=
  ∀ mem t, a = .refresh mem t → (s.wallet.refreshBlock parse H mem t).1 = true →
    let w := (s.wallet.refreshBlock parse H mem t).2
    ∀ a p, w.miners.getMinerRound a = some p →
      (w.miners.rounds p).height = w.currentBlock.height ∧
        (w.miners.rounds p).deadline = 0xFFFFFFFFFFFFFFFF

/-- The step is no refresh whose response has a new block: it does not parse, or its height
    is not above that of the current block. -/
def Calm (s : Mining) : Action → Prop
  | .refresh _ t => s.wallet.newInfo parse t = none
  | _ => True

instance (s : Mining) : (a : Action) → Decidable (Calm parse s a)
  | .refresh _ t => inferInstanceAs (Decidable (s.wallet.newInfo parse t = none))
  | .submit _ => .isTrue trivial
  | .validate _ _ => .isTrue trivial

/-- The first nonce of a known account that is validated for the current block, with a
    deadline within the limit, is passed on. -/
def ForwardsFirst (s : Mining) : Prop :=
  ∀ (i : ℕ) (creq : CalcDeadlineReq) (deadline : UInt64) (p : ℕ), s.taken[i]? = some creq →
    s.wallet.miners.getMinerRound creq.accountId = some p →
    creq.height = s.wallet.currentBlock.height →
    (∀ v ∈ s.validated, ¬(v.1.accountId = creq.accountId ∧ v.1.height = creq.height)) →
    deadline ≤ cfg.deadlineLimit → deadline < 0xFFFFFFFFFFFFFFFF →
      ∃ t, (mining parse H db cfg).step s (.validate i deadline) = some t ∧
        t.forwarded = s.forwarded ++
          [(creq.recipId, ⟨creq.accountId, creq.nonce, deadline, creq.height⟩)]

/-! ## Validations -/

/-- A validation changes the deadline of the round of its account, or no round. -/
theorem validateDeadline_miners {deadlineLimit : UInt64} {creq : CalcDeadlineReq}
    {deadline : UInt64} {sh sh' : Shared}
    (h : validateDeadline deadlineLimit creq deadline sh = some sh') :
    sh'.miners = sh.miners ∨ ∃ p, sh.miners.getMinerRound creq.accountId = some p ∧
      (sh.miners.rounds p).height = creq.height ∧
      sh'.miners = (sh.setRound p { sh.miners.rounds p with deadline := deadline }).miners := by
  have hwrite : ∀ {sh : Shared} {res : Session → Response}, sh.write creq res = some sh' →
      sh'.miners = sh.miners := by
    intro sh res h
    obtain ⟨ss, -, rfl⟩ := Option.map_eq_some_iff.mp h
    rfl
  rw [validateDeadline] at h
  split_ifs at h
  · exact .inl (hwrite h)
  · cases ht : sh.miners.getMinerRound creq.accountId with
    | none =>
      rw [ht] at h
      exact .inl (hwrite h)
    | some p =>
      rw [ht] at h
      dsimp only at h
      split_ifs at h with hmu hbetter
      · have hminers := hwrite h
        exact .inr ⟨p, rfl, hbetter.1, hminers⟩
      · exact .inl (hwrite h)
      · exact .inl (hwrite h)

/-- A validation that improves on a round that is for its block passes its nonce on. -/
theorem validateDeadline_improves {deadlineLimit : UInt64} {creq : CalcDeadlineReq}
    {deadline : UInt64} {sh : Shared} {p : ℕ} {ss : Session} (hss : creq.session = some ss)
    (hp : sh.miners.getMinerRound creq.accountId = some p)
    (hfree : (sh.miners.rounds p).mu = none) (hheight : (sh.miners.rounds p).height = creq.height)
    (hlimit : deadline ≤ deadlineLimit) (hlt : deadline < (sh.miners.rounds p).deadline) :
    ∃ sh', validateDeadline deadlineLimit creq deadline sh = some sh' ∧
      sh'.forwarded = sh.forwarded ++
        [(creq.recipId, ⟨creq.accountId, creq.nonce, deadline, creq.height⟩)] := by
  have hvalidate : validateDeadline deadlineLimit creq deadline sh =
      ((sh.submitNonce creq deadline).setRound p
        { sh.miners.rounds p with deadline := deadline }).write creq (success deadline) := by
    rw [validateDeadline, if_neg (UInt64.not_lt.mpr hlimit), hp]
    dsimp only
    rw [if_pos hfree, if_pos ⟨hheight, hlt⟩]
  rw [Shared.write, hss, Option.map_some] at hvalidate
  exact ⟨_, hvalidate, rfl⟩

/-! ## What a step does -/

variable {parse H db cfg} {s t : Mining} {a : Action}

/-- The steps of the system, by what they do. -/
theorem step_cases (h : (mining parse H db cfg).step s a = some t) :
    (∃ mem tr, a = .refresh mem tr ∧
      t = { s with wallet := (s.wallet.refreshBlock parse H mem tr).2 }) ∨
    (∃ ss res, a = .submit ss ∧ t = { s with writes := s.writes ++ [(ss.id, res)] }) ∨
    (∃ ss creq, a = .submit ss ∧ creq.session = some ss ∧
      t = { s with taken := s.taken ++ [creq] }) ∨
    ∃ i deadline creq sh, a = .validate i deadline ∧ s.taken[i]? = some creq ∧
      validateDeadline cfg.deadlineLimit creq deadline s.shared = some sh ∧
      t = { s with
        wallet := { s.wallet with miners := sh.miners }
        forwarded := sh.forwarded
        writes := sh.writes
        taken := s.taken.eraseIdx i
        validated := s.validated ++ [(creq, deadline)] } := by
  cases a with
  | refresh mem tr => exact .inl ⟨mem, tr, rfl, (Option.some.inj h).symm⟩
  | submit ss =>
    simp only [mining] at h
    split at h
    · next res _ => exact .inr (.inl ⟨ss, res, rfl, (Option.some.inj h).symm⟩)
    · next creq hcreq =>
      have hsession := (Session.processSubmitNonceReq_enque hcreq).1
      exact .inr (.inr (.inl ⟨ss, creq, rfl, hsession, (Option.some.inj h).symm⟩))
  | validate i deadline =>
    simp only [mining, bind, Option.bind_eq_some_iff] at h
    obtain ⟨creq, hcreq, sh, hsh, h⟩ := h
    exact .inr (.inr (.inr ⟨i, deadline, creq, sh, rfl, hcreq, hsh, (Option.some.inj h).symm⟩))

/-- No step knows an account more or less, changes the height of a round or leaves a lock
    held. -/
theorem step_rounds (h : (mining parse H db cfg).step s a = some t) :
    t.wallet.miners.table = s.wallet.miners.table ∧
      ∀ p, (t.wallet.miners.rounds p).height = (s.wallet.miners.rounds p).height ∧
        (t.wallet.miners.rounds p).mu = (s.wallet.miners.rounds p).mu := by
  rcases step_cases h with ⟨mem, tr, -, rfl⟩ | ⟨ss, res, -, rfl⟩ | ⟨ss, creq, -, -, rfl⟩ |
    ⟨i, deadline, creq, sh, -, hcreq, hsh, rfl⟩
  · simp
  · simp
  · simp
  · rcases validateDeadline_miners hsh with heq | ⟨p, -, -, heq⟩
    · simp [heq, shared]
    · refine ⟨by rw [heq, Shared.setRound_table, shared], fun q => ?_⟩
      rw [heq, Shared.setRound_rounds]
      split_ifs with hq
      · rw [hq, shared]
        exact ⟨rfl, rfl⟩
      · exact ⟨rfl, rfl⟩

/-- A calm step leaves the current block alone. -/
theorem step_currentBlock (h : (mining parse H db cfg).step s a = some t)
    (hcalm : Calm parse s a) : t.wallet.currentBlock = s.wallet.currentBlock := by
  rcases step_cases h with ⟨mem, tr, rfl, rfl⟩ | ⟨ss, res, -, rfl⟩ | ⟨ss, creq, -, -, rfl⟩ |
    ⟨i, deadline, creq, sh, -, -, -, rfl⟩
  · exact Wallet.refreshBlock_of_none hcalm
  · rfl
  · rfl
  · rfl

/-! ## Rounds follow as long as all is calm -/

/-- Calm steps leave the rounds at the current block. -/
theorem roundsFollow_of_calm (h : RoundsFollow s) (hcalm : Calm parse s a)
    (hst : (mining parse H db cfg).step s a = some t) : RoundsFollow t := by
  obtain ⟨htable, hrounds⟩ := step_rounds hst
  intro b p hp
  rw [Miners.getMinerRound, htable] at hp
  rw [(hrounds p).1, step_currentBlock hst hcalm]
  exact h b p hp

/-- A calm refresh does not find a new block. -/
theorem restarts_of_calm (hcalm : Calm parse s a) : Restarts parse H s a := by
  rintro mem tr rfl hnew
  rw [Wallet.refreshBlock_eq, show s.wallet.newInfo parse tr = none from hcalm] at hnew
  cases hnew

/-- With an account known, a refresh that finds a new block leaves the round behind. -/
theorem calm_of_roundsFollow (hs : RoundsFollow s) {b : UInt64} {p : ℕ}
    (hp : s.wallet.miners.getMinerRound b = some p)
    (ht : ∀ t, (mining parse H db cfg).step s a = some t → RoundsFollow t) : Calm parse s a := by
  cases a with
  | refresh mem tr =>
    rw [Calm]
    cases hinfo : s.wallet.newInfo parse tr with
    | none => rfl
    | some info =>
      -- The block is above the round, which the refresh leaves alone.
      obtain ⟨hheight, -, hlt⟩ := @Wallet.refreshBlock_of_some parse H mem _ _ _ hinfo
      have hfollow := ht _ rfl b p (by simpa using hp)
      simp only [Wallet.refreshBlock_miners, hheight, hs b p hp] at hfollow
      rw [hfollow] at hlt
      exact absurd hlt (UInt64.lt_irrefl _)
  | submit ss => trivial
  | validate i deadline => trivial

/-- With no account known, the rounds follow in every run. -/
theorem always_of_unknown (as : List Action) (hs : s.wallet.miners.table = fun _ => none) :
    (mining parse H db cfg).Always RoundsFollow s as ∧
      (mining parse H db cfg).Along (Restarts parse H) s as := by
  have hfollow : ∀ s : Mining, s.wallet.miners.table = (fun _ => none) → RoundsFollow s := by
    intro s hs b p hp
    rw [Miners.getMinerRound, hs] at hp
    cases hp
  induction as generalizing s with
  | nil => exact ⟨hfollow s hs, trivial⟩
  | cons a as ih =>
    refine ⟨⟨hfollow s hs, fun t ht => (ih ((step_rounds ht).1.trans hs)).1⟩, ?_,
      fun t ht => (ih ((step_rounds ht).1.trans hs)).2⟩
    intro mem tr _ _ w b p hp
    rw [Wallet.refreshBlock_miners, Miners.getMinerRound, hs] at hp
    cases hp

/-- In a calm run, the rounds follow. -/
theorem always_of_calm {as : List Action} (hs : RoundsFollow s)
    (hcalm : (mining parse H db cfg).Along (Calm parse) s as) :
    (mining parse H db cfg).Always RoundsFollow s as ∧
      (mining parse H db cfg).Along (Restarts parse H) s as := by
  induction as generalizing s with
  | nil => exact ⟨hs, trivial⟩
  | cons a as ih =>
    have htail := fun t ht => ih (roundsFollow_of_calm hs hcalm.1 ht) (hcalm.2 t ht)
    exact ⟨⟨hs, fun t ht => (htail t ht).1⟩, restarts_of_calm hcalm.1, fun t ht => (htail t ht).2⟩

/-- With an account known, every step of a run in which the rounds follow is calm. -/
theorem calm_of_always {as : List Action}
    (hs : (mining parse H db cfg).Always RoundsFollow s as) {b : UInt64} {p : ℕ}
    (hp : s.wallet.miners.getMinerRound b = some p) :
    (mining parse H db cfg).Along (Calm parse) s as := by
  induction as generalizing s with
  | nil => trivial
  | cons a as ih =>
    -- The account stays known, and the first step is calm because the rounds follow after it.
    have hfirst : ∀ t, (mining parse H db cfg).step s a = some t → RoundsFollow t := by
      intro t ht
      have htail := hs.2 t ht
      cases as with
      | nil => exact htail
      | cons => exact htail.1
    refine ⟨calm_of_roundsFollow hs.1 hp hfirst, fun t ht => ih (hs.2 t ht) ?_⟩
    rw [Miners.getMinerRound, (step_rounds ht).1]
    exact hp

/-! ## First nonces -/

/-- The invariant of calm runs. -/
structure CalmInv (s : Mining) : Prop where
  follow : RoundsFollow s
  free : ∀ p, (s.wallet.miners.rounds p).mu = none
  injective : ∀ a b p, s.wallet.miners.table a = some p → s.wallet.miners.table b = some p → a = b
  /-- A round has its first deadline until a nonce of its account and height is validated. -/
  untouched : ∀ a p, s.wallet.miners.table a = some p →
    (∀ v ∈ s.validated, ¬(v.1.accountId = a ∧ v.1.height = (s.wallet.miners.rounds p).height)) →
      (s.wallet.miners.rounds p).deadline = 0xFFFFFFFFFFFFFFFF
  session : ∀ creq ∈ s.taken, ∃ ss, creq.session = some ss

theorem calmInv_init (h : s ∈ (mining parse H db cfg).init) : CalmInv s := by
  obtain ⟨mem, tr, w, hw, rfl⟩ := h
  have hcached := Wallet.construct_cached hw
  refine ⟨hcached.height_eq, hcached.free, hcached.injective, fun a p ha _ => ?_, ?_⟩
  · exact hcached.deadline_eq a p ha
  · simp

theorem step_calmInv (h : CalmInv s) (hcalm : Calm parse s a)
    (hst : (mining parse H db cfg).step s a = some t) : CalmInv t := by
  obtain ⟨htable, hrounds⟩ := step_rounds hst
  refine ⟨roundsFollow_of_calm h.follow hcalm hst, fun p => (hrounds p).2.trans (h.free p), ?_,
    ?_, ?_⟩
  · rw [htable]
    exact h.injective
  · intro b p hb huntouched
    rw [htable] at hb
    rw [(hrounds p).1] at huntouched
    rcases step_cases hst with ⟨mem, tr, -, rfl⟩ | ⟨ss, res, -, rfl⟩ | ⟨ss, creq, -, -, rfl⟩ |
      ⟨i, deadline, creq, sh, -, hcreq, hsh, rfl⟩
    · rw [Wallet.refreshBlock_miners]
      exact h.untouched b p hb huntouched
    · exact h.untouched b p hb huntouched
    · exact h.untouched b p hb huntouched
    · have hold := h.untouched b p hb fun v hv => huntouched v (List.mem_append_left _ hv)
      rcases validateDeadline_miners hsh with heq | ⟨q, hq, hheight, heq⟩
      · rw [heq]
        exact hold
      · rw [heq, Shared.setRound_rounds]
        split_ifs with hpq
        · -- The round of the account that was just validated.
          subst hpq
          obtain rfl := h.injective _ _ _ hb hq
          exact absurd ⟨rfl, hheight.symm⟩ (huntouched (creq, deadline) (by simp))
        · exact hold
  · rcases step_cases hst with ⟨mem, tr, -, rfl⟩ | ⟨ss, res, -, rfl⟩ | ⟨ss, creq, -, hss, rfl⟩ |
      ⟨i, deadline, creq, sh, -, -, -, rfl⟩
    · exact h.session
    · exact h.session
    · intro c hc
      rcases List.mem_append.mp hc with hc | hc
      · exact h.session c hc
      · exact ⟨ss, List.mem_singleton.mp hc ▸ hss⟩
    · intro c hc
      exact h.session c (List.mem_of_mem_eraseIdx hc)

theorem CalmInv.forwardsFirst (h : CalmInv s) : ForwardsFirst parse H db cfg s := by
  intro i creq deadline p hcreq hp hheight hfirst hlimit hlt
  obtain ⟨ss, hss⟩ := h.session creq (List.mem_of_getElem? hcreq)
  have hround : (s.wallet.miners.rounds p).height = creq.height :=
    (h.follow _ p hp).trans hheight.symm
  have hdeadline := h.untouched _ p hp fun v hv hv' => hfirst v hv (hround ▸ hv')
  have hlt' : deadline < (s.shared.miners.rounds p).deadline := by rwa [shared, hdeadline]
  obtain ⟨sh, hsh, hforwarded⟩ := validateDeadline_improves hss hp (h.free p) hround hlimit hlt'
  exact ⟨_, by simp only [mining, bind, hcreq, hsh, Option.bind_some]; rfl, hforwarded⟩

/-! ## A node with one miner -/

/-- The mining info of a block of the height `height`. -/
def infoText (height : String) (baseTarget : String := "100") : String :=
  "\x7b\"generationSignature\":\"" ++ String.ofList (List.replicate 64 'a') ++
    "\",\"height\":\"" ++ height ++ "\",\"baseTarget\":\"" ++ baseTarget ++ "\"\x7d"

/-- A node with the account 7. -/
def oneMinerNode : System Mining Action :=
  mining Json.parse (fun _ => Vector.replicate 32 0) (fun _ => some ⟨[(7, 9)], false⟩)
    ⟨1000, [(9, "192.0.2.9:50051")], 0⟩

/-- The block 5 again, and a nonce of the account. -/
def sameBlock : List Action :=
  [.refresh ⟨Vector.replicate 32 0, []⟩ ⟨[infoText "5"], true⟩,
    .submit ⟨0, "192.0.2.1", "203.0.113.7",
      "/burst?requestType=submitNonce&accountId=7&nonce=1", 11⟩,
    .validate 0 20]

/-- It starts at the block 5; the block 6 is new to it, the block 5 is not. -/
theorem exists_oneMinerNode : ∃ s ∈ oneMinerNode.init,
    s.wallet.miners.getMinerRound 7 = some 0 ∧
      s.wallet.newInfo Json.parse ⟨[infoText "5"], true⟩ = none ∧
      s.wallet.newInfo Json.parse ⟨[infoText "6"], true⟩ ≠ none ∧
      (oneMinerNode.exec s sameBlock).map Mining.forwarded = some [(9, ⟨7, 1, 20, 5⟩)] := by
  have hrun : (Wallet.construct Json.parse (fun _ => Vector.replicate 32 0)
      ⟨Vector.replicate 32 0, []⟩ (fun _ => some ⟨[(7, 9)], false⟩)
      ⟨1000, [(9, "192.0.2.9:50051")], 0⟩ ⟨[infoText "5"], true⟩).map (fun w => decide
        (w.miners.getMinerRound 7 = some 0 ∧ w.newInfo Json.parse ⟨[infoText "5"], true⟩ = none ∧
          w.newInfo Json.parse ⟨[infoText "6"], true⟩ ≠ none ∧
          (oneMinerNode.exec { wallet := w } sameBlock).map Mining.forwarded =
            some [(9, ⟨7, 1, 20, 5⟩)])) = some true := by
    decide +kernel
  obtain ⟨w, hw, heq⟩ := Option.map_eq_some_iff.mp hrun
  exact ⟨{ wallet := w }, ⟨_, _, w, hw, rfl⟩, of_decide_eq_true heq⟩

/-- **Mining rounds follow the chain** just as long as the chain stands still. Along a run,
    the rounds of the known accounts are for the current block, and started anew by each
    refresh that finds one, if and only if no account is known or no refresh after the
    constructor finds a new block; and in every state of such a run, the first nonce of an
    account that is validated for the current block is passed on. -/
theorem along_calm_iff {s : Mining} (hs : s ∈ (mining parse H db cfg).init) (as : List Action) :
    ((mining parse H db cfg).Always RoundsFollow s as ∧
        (mining parse H db cfg).Along (Restarts parse H) s as ↔
      s.wallet.miners.getMinerRound = (fun _ => none) ∨
        (mining parse H db cfg).Along (Calm parse) s as) ∧
    ((mining parse H db cfg).Along (Calm parse) s as →
      (mining parse H db cfg).Always (ForwardsFirst parse H db cfg) s as) := by
  have hinv := calmInv_init hs
  refine ⟨⟨fun h => ?_, ?_⟩, fun hcalm => ?_⟩
  · by_cases hknown : ∃ b p, s.wallet.miners.getMinerRound b = some p
    · obtain ⟨b, p, hp⟩ := hknown
      exact .inr (calm_of_always h.1 hp)
    · refine .inl (funext fun b => ?_)
      rw [← Option.not_isSome_iff_eq_none, Option.isSome_iff_exists]
      exact fun ⟨p, hp⟩ => hknown ⟨b, p, hp⟩
  · rintro (hnone | hcalm)
    · exact always_of_unknown as hnone
    · exact always_of_calm hinv.follow hcalm
  · refine System.Reachable.always (fun t ht => ?_) (.init hs) hcalm
    exact (ht.invariant (fun _ => calmInv_init) fun _ _ _ h hP hst =>
      step_calmInv h hP hst).forwardsFirst

/-- The nonce is passed on. -/
theorem along_calm_iff_same : ∃ s ∈ oneMinerNode.init,
    s.wallet.miners.getMinerRound 7 = some 0 ∧
      (oneMinerNode.exec s sameBlock).map Mining.forwarded = some [(9, ⟨7, 1, 20, 5⟩)] ∧
      (oneMinerNode.Always RoundsFollow s sameBlock ∧
        oneMinerNode.Along (Restarts Json.parse fun _ => Vector.replicate 32 0) s sameBlock) ∧
      oneMinerNode.Always (ForwardsFirst Json.parse (fun _ => Vector.replicate 32 0)
        (fun _ => some ⟨[(7, 9)], false⟩) ⟨1000, [(9, "192.0.2.9:50051")], 0⟩) s sameBlock := by
  obtain ⟨s, hs, hminer, hold, -, hforwarded⟩ := exists_oneMinerNode
  have hcalm : oneMinerNode.Along (Calm Json.parse) s sameBlock :=
    ⟨hold, fun _ _ => ⟨trivial, fun _ _ => ⟨trivial, fun _ _ => trivial⟩⟩⟩
  exact ⟨s, hs, hminer, hforwarded, (along_calm_iff hs sameBlock).1.mpr (.inr hcalm),
    (along_calm_iff hs sameBlock).2 hcalm⟩

/-- After the block 6, the round is still for the block 5. -/
theorem round_left_behind : ¬∀ s ∈ oneMinerNode.init, ∀ as,
    oneMinerNode.Always RoundsFollow s as ∧
      oneMinerNode.Along (Restarts Json.parse fun _ => Vector.replicate 32 0) s as := by
  intro h
  obtain ⟨s, hs, hminer, -, hnew, -⟩ := exists_oneMinerNode
  have hcalm := calm_of_always
    (h s hs [.refresh ⟨Vector.replicate 32 0, []⟩ ⟨[infoText "6"], true⟩]).1 hminer
  exact hnew hcalm.1

end Mining

end BurstPoolNode

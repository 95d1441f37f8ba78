import BurstPoolNode.DeadlineRequestHandler.Validations

/-!
# Validations that find the lock taken

A validation whose `try_lock` fails passes nothing on and answers with success
all the same. Its nonce is lost if no other of the account and height, at least
as good, is passed on (`NothingLost`).

* `Harmless`: a step that is no failing `try_lock`, or one that loses nothing,
  because the round or the validation holding the lock has a deadline at least
  as good already;
* `nothingLost`: after runs of such steps, nothing is lost;
* `nonce_lost`: otherwise, it may be.
-/

namespace BurstPoolNode.DeadlineRequestHandler

variable {deadlineLimit : UInt64}

/-- Every validation has answered. -/
def Finished (s : Validations) : Prop := ∀ v ∈ s.calls, ∃ ok, v.pc = .done ok

/-- For every deadline that was answered with success, below the one a round starts with,
    and for the block of its account's round, one at least as good has been passed on. -/
def NothingLost (s : Validations) : Prop :=
  ∀ v ∈ s.calls, v.pc = .done true → v.deadline < 0xFFFFFFFFFFFFFFFF →
    ∀ p, s.shared.miners.getMinerRound v.creq.accountId = some p →
      (s.shared.miners.rounds p).height = v.creq.height →
      ∃ f ∈ s.shared.forwarded, f.2.accountId = v.creq.accountId ∧
        f.2.blockHeight = v.creq.height ∧ f.2.deadline ≤ v.deadline

/-- The round whose lock is to be tried. -/
def Pc.tries : Pc → Option ℕ
  | .tryLock p => some p
  | _ => none

/-- When the step is a `try_lock` for the block of the round and another validation holds
    the lock, the deadline of the round or that of the other (for the same block) is at least
    as good. -/
def Harmless (s : Validations) : Action → Prop
  | .start _ _ => True
  | .run i =>
    ∀ v ∈ s.calls[i]?, ∀ p ∈ v.pc.tries, (s.shared.miners.rounds p).height = v.creq.height →
      ∀ j ∈ (s.shared.miners.rounds p).mu,
        (s.shared.miners.rounds p).deadline ≤ v.deadline ∨
          ∃ w ∈ s.calls[j]?, w.creq.height = v.creq.height ∧ w.deadline ≤ v.deadline

instance (s : Validations) : (a : Action) → Decidable (Harmless s a)
  | .start _ _ => .isTrue trivial
  | .run i => inferInstanceAs (Decidable (∀ v ∈ s.calls[i]?, _))

/-! ## Deadlines that are covered -/

/-- A deadline at least as good is passed on, or about to be compared or passed on by the
    validation that holds the lock. -/
def Covered (s : Validations) (p : ℕ) (v : Validation) : Prop :=
  (∃ d ∈ s.shared.submitted v.creq.accountId v.creq.height, d ≤ v.deadline) ∨
    ∃ (j : ℕ) (w : Validation), s.calls[j]? = some w ∧ (w.pc = .compare p ∨ w.pc = .forward p) ∧
      w.creq.height = v.creq.height ∧ w.deadline ≤ v.deadline

/-- The validation is done with its round. -/
def Pc.past : Pc → Bool
  | .unlock _ | .writeOk | .done true => true
  | _ => false

/-- The invariant of runs of harmless steps. -/
structure CoverInv (deadlineLimit : UInt64) (s : Validations) : Prop where
  inv : Inv deadlineLimit s
  /-- The deadline of a round is one that was passed on, also before the assignment. -/
  mem : ∀ a p, s.shared.miners.table a = some p →
    (s.shared.miners.rounds p).deadline = 0xFFFFFFFFFFFFFFFF ∨
      (s.shared.miners.rounds p).deadline ∈
        s.shared.submitted a (s.shared.miners.rounds p).height
  covered : ∀ (i : ℕ) (v : Validation) (p : ℕ), s.calls[i]? = some v → v.pc.past = true →
    v.deadline < 0xFFFFFFFFFFFFFFFF → s.shared.miners.table v.creq.accountId = some p →
      (s.shared.miners.rounds p).height = v.creq.height → Covered s p v

theorem Shared.lastSubmitted_mem {sh : Shared} {a height : UInt64}
    (h : sh.lastSubmitted a height ≠ 0xFFFFFFFFFFFFFFFF) :
    sh.lastSubmitted a height ∈ sh.submitted a height := by
  rw [lastSubmitted] at h ⊢
  cases hlast : (sh.submitted a height).getLast? with
  | none =>
    rw [hlast] at h
    exact absurd rfl h
  | some d => exact List.mem_of_getLast? hlast

namespace CoverInv

variable {s : Validations} {i : ℕ} {v : Validation} {pc : Pc} {sh : Shared} {p : ℕ}

/-- A deadline of the round that is at least as good covers. -/
theorem covered_of_deadline_le (h : CoverInv deadlineLimit s)
    (hlt : v.deadline < 0xFFFFFFFFFFFFFFFF)
    (htable : s.shared.miners.table v.creq.accountId = some p)
    (hheight : (s.shared.miners.rounds p).height = v.creq.height)
    (hle : (s.shared.miners.rounds p).deadline ≤ v.deadline) :
    ∃ d ∈ s.shared.submitted v.creq.accountId v.creq.height, d ≤ v.deadline := by
  rcases h.mem _ p htable with hmax | hmem
  · rw [hmax] at hle
    exact absurd (UInt64.lt_of_lt_of_le hlt hle) (UInt64.lt_irrefl _)
  · rw [hheight] at hmem
    exact ⟨_, hmem, hle⟩

theorem submitted_mono (hnext : v.Next deadlineLimit i s.shared pc sh) {a height d : UInt64}
    (hd : d ∈ s.shared.submitted a height) : d ∈ sh.submitted a height := by
  cases hnext with
  | forward =>
    rw [Shared.submitted_submitNonce]
    split_ifs
    · exact List.mem_append_left _ hd
    · exact hd
  | _ => exact hd

/-- A step of a validation that compares or passes on keeps covering what it covers. -/
theorem covered_next (h : CoverInv deadlineLimit s) (hv : s.calls[i]? = some v)
    (hnext : v.Next deadlineLimit i s.shared pc sh) {u : Validation}
    (hlt : u.deadline < 0xFFFFFFFFFFFFFFFF)
    (htable : s.shared.miners.table u.creq.accountId = some p)
    (hheight : (s.shared.miners.rounds p).height = u.creq.height) (hu : Covered s p u) :
    Covered ⟨sh, s.calls.set i { v with pc := pc }⟩ p u := by
  rcases hu with ⟨d, hd, hle⟩ | ⟨j, w, hw, hpc, hwheight, hle⟩
  · exact .inl ⟨d, submitted_mono hnext hd, hle⟩
  · rcases eq_or_ne i j with rfl | hij
    · rw [hv] at hw
      cases hw
      have hself := Inv.getElem?_set_self hv { v with pc := pc }
      have hholds : v.pc.holds = some p := by
        rcases hpc with hpc | hpc <;> rw [hpc, Pc.holds]
      have hacc : v.creq.accountId = u.creq.accountId :=
        h.inv.injective _ _ _ ((h.inv.sound i v hv).table_of_holds hholds).2 htable
      cases hnext with
      | better hpc' =>
        -- It is about to pass its deadline on.
        refine .inr ⟨i, _, hself, .inr ?_, hwheight, hle⟩
        rw [hpc', Pc.holds] at hholds
        cases hholds
        rfl
      | worse hpc' hcmp =>
        rw [hpc', Pc.holds] at hholds
        cases hholds
        -- The deadline of the round is not above that of the validation.
        have hle' : (s.shared.miners.rounds p).deadline ≤ u.deadline := by
          refine UInt64.le_trans (UInt64.not_lt.mp fun hlt' => ?_) hle
          exact hcmp ⟨hheight.trans hwheight.symm, hlt'⟩
        exact .inl (h.covered_of_deadline_le hlt htable hheight hle')
      | forward =>
        -- Its deadline has been passed on.
        refine .inl ⟨v.deadline, ?_, hle⟩
        rw [Shared.submitted_submitNonce, if_pos ⟨hacc, hwheight⟩]
        exact List.mem_append_right _ (List.mem_singleton_self _)
      | _ => simp_all
    · exact .inr ⟨j, w, (List.getElem?_set_ne hij).trans hw, hpc, hwheight, hle⟩

/-- A validation that gets past its round is covered. -/
theorem covered_self (h : CoverInv deadlineLimit s) (hv : s.calls[i]? = some v)
    (hharmless : Harmless s (.run i)) (hnext : v.Next deadlineLimit i s.shared pc sh)
    (hpast : pc.past = true) (hlt : v.deadline < 0xFFFFFFFFFFFFFFFF)
    (htable : s.shared.miners.table v.creq.accountId = some p)
    (hheight : (s.shared.miners.rounds p).height = v.creq.height) :
    Covered ⟨sh, s.calls.set i { v with pc := pc }⟩ p { v with pc := pc } := by
  have hsound := h.inv.sound i v hv
  -- What covered the validation before its step covers it after.
  have hbefore : v.pc.past = true →
      Covered ⟨sh, s.calls.set i { v with pc := pc }⟩ p { v with pc := pc } := fun hvpast =>
    h.covered_next hv hnext hlt htable hheight (h.covered i v p hv hvpast hlt htable hheight)
  cases hnext with
  | unknown _ hnone =>
    rw [htable] at hnone
    cases hnone
  | contended hpc hmu =>
    rename_i q
    rw [Validation.Sound, hpc] at hsound
    obtain rfl : q = p := Option.some.inj (hsound.2.symm.trans htable)
    obtain ⟨j, hj⟩ := Option.ne_none_iff_exists'.mp hmu
    have htries : q ∈ v.pc.tries := by rw [hpc, Pc.tries, Option.mem_some]
    rcases hharmless v hv q htries hheight j hj with hle | ⟨w, hw, hwheight, hle⟩
    · exact .inl (h.covered_of_deadline_le hlt htable hheight hle)
    · have hij : i ≠ j := by
        rintro rfl
        have hholds := (h.inv.mu_iff_holds hv q).mp hj
        rw [hpc] at hholds
        cases hholds
      have hwlt : w.deadline < 0xFFFFFFFFFFFFFFFF := UInt64.lt_of_le_of_lt hle hlt
      have hholds := (h.inv.mu_iff_holds hw q).mp hj
      have hwsound := h.inv.sound j w hw
      have hwtable := (hwsound.table_of_holds hholds).2
      have hacc : w.creq.accountId = v.creq.accountId := h.inv.injective _ _ _ hwtable htable
      have hw' := (List.getElem?_set_ne (a := { v with pc := Pc.writeOk }) hij).trans hw
      -- The other validation covers this one, wherever it is.
      cases hwpc : w.pc with
      | compare q' =>
        rw [hwpc] at hholds
        cases hholds
        exact .inr ⟨j, w, hw', .inl hwpc, hwheight, hle⟩
      | forward q' =>
        rw [hwpc] at hholds
        cases hholds
        exact .inr ⟨j, w, hw', .inr hwpc, hwheight, hle⟩
      | store q' =>
        -- It has passed its deadline on.
        rw [Validation.Sound, hwpc] at hwsound
        obtain ⟨-, -, -, hlast⟩ := hwsound
        refine .inl ⟨w.deadline, ?_, hle⟩
        rw [← hlast, hacc, hwheight]
        refine Shared.lastSubmitted_mem fun hmax => ?_
        rw [← hwheight, ← hacc, hlast] at hmax
        rw [hmax] at hwlt
        exact UInt64.lt_irrefl _ hwlt
      | unlock q' =>
        -- It is covered itself, and by no validation that holds the lock, as it does.
        have hwcov := h.covered j w q hw (by rw [hwpc, Pc.past]) hwlt hwtable
          (hheight.trans hwheight.symm)
        rcases hwcov with ⟨d, hd, hdle⟩ | ⟨k, u, hu, hupc, huheight, hule⟩
        · rw [hacc, hwheight] at hd
          exact .inl ⟨d, hd, UInt64.le_trans hdle hle⟩
        · have hjk : k = j := h.inv.holds_unique hu hw (q := q)
            (by rcases hupc with hupc | hupc <;> rw [hupc, Pc.holds]) hholds
          subst hjk
          rw [hw] at hu
          cases hu
          rw [hwpc] at hupc
          rcases hupc with hupc | hupc <;> cases hupc
      | _ =>
        rw [hwpc] at hholds
        cases hholds
  | worse hpc hcmp =>
    rename_i q
    rw [Validation.Sound, hpc] at hsound
    obtain rfl : q = p := Option.some.inj (hsound.2.symm.trans htable)
    have hle := UInt64.not_lt.mp fun hlt' => hcmp ⟨hheight, hlt'⟩
    exact .inl (h.covered_of_deadline_le hlt htable hheight hle)
  | store hpc =>
    rw [Validation.Sound, hpc] at hsound
    obtain ⟨-, -, -, hlast⟩ := hsound
    refine .inl ⟨v.deadline, ?_, UInt64.le_refl _⟩
    have hne : s.shared.lastSubmitted v.creq.accountId v.creq.height ≠ 0xFFFFFFFFFFFFFFFF := by
      rw [hlast]
      exact UInt64.ne_of_lt hlt
    have hmem := Shared.lastSubmitted_mem hne
    rw [hlast] at hmem
    exact hmem
  | unlock hpc => exact hbefore (by rw [hpc, Pc.past])
  | writeOk hpc => exact hbefore (by rw [hpc, Pc.past])
  | _ => cases hpast

/-- The deadline of a round stays one that was passed on. -/
theorem mem_next (h : CoverInv deadlineLimit s) (hv : s.calls[i]? = some v)
    (hnext : v.Next deadlineLimit i s.shared pc sh) {a : UInt64}
    (ha : s.shared.miners.table a = some p) :
    (sh.miners.rounds p).deadline = 0xFFFFFFFFFFFFFFFF ∨
      (sh.miners.rounds p).deadline ∈ sh.submitted a (sh.miners.rounds p).height := by
  rw [hnext.height_eq]
  by_cases hstore : v.pc = .store p
  · have hsound := h.inv.sound i v hv
    rw [Validation.Sound, hstore] at hsound
    obtain ⟨-, htable, hheight, hlast⟩ := hsound
    obtain rfl := h.inv.injective _ _ _ ha htable
    have hdeadline : (sh.miners.rounds p).deadline = v.deadline := by
      cases hnext <;> simp_all [Shared.setRound_rounds]
    rw [hdeadline, hheight, ← hlast]
    by_cases hmax : s.shared.lastSubmitted v.creq.accountId v.creq.height = 0xFFFFFFFFFFFFFFFF
    · exact .inl hmax
    · exact .inr (submitted_mono hnext (Shared.lastSubmitted_mem hmax))
  · rw [hnext.deadline_eq hstore]
    rcases h.mem a p ha with hmax | hmem
    · exact .inl hmax
    · exact .inr (submitted_mono hnext hmem)

end CoverInv

theorem coverInv_init {s : Validations} (h : s ∈ (validations deadlineLimit).init) :
    CoverInv deadlineLimit s := by
  refine ⟨inv_init h, ?_, ?_⟩
  · obtain ⟨height, res, miners, hcache, rfl⟩ := h
    intro a p ha
    exact .inl ((Miners.cached_cacheMiners hcache).deadline_eq a p ha)
  · obtain ⟨height, res, miners, hcache, rfl⟩ := h
    simp

/-- Harmless steps keep the invariant. -/
theorem step_coverInv {s t : Validations} {a : Action} (h : CoverInv deadlineLimit s)
    (hharmless : Harmless s a) (hst : (validations deadlineLimit).step s a = some t) :
    CoverInv deadlineLimit t := by
  have hinv := step_inv h.inv hst
  rcases step_cases hst with ⟨creq, deadline, -, rfl⟩ | ⟨i, v, pc, sh, rfl, hv, hnext, rfl⟩
  · refine ⟨hinv, h.mem, fun i v p hv hpast hlt htable hheight => ?_⟩
    rw [List.getElem?_append] at hv
    split_ifs at hv with hi
    · rcases h.covered i v p hv hpast hlt htable hheight with hd | ⟨j, w, hw, hcov⟩
      · exact .inl hd
      · have hj := (List.getElem?_eq_some_iff.mp hw).1
        exact .inr ⟨j, w, (List.getElem?_append_left hj).trans hw, hcov⟩
    · obtain rfl := List.mem_singleton.mp (List.mem_of_getElem? hv)
      cases hpast
  · refine ⟨hinv, fun a p ha => ?_, fun j w p hw hpast hlt htable hheight => ?_⟩
    · rw [hnext.table_eq] at ha
      exact h.mem_next hv hnext ha
    · rw [hnext.table_eq] at htable
      rw [hnext.height_eq] at hheight
      rcases eq_or_ne i j with rfl | hij
      · rw [Inv.getElem?_set_self hv] at hw
        cases hw
        exact h.covered_self hv hharmless hnext hpast hlt htable hheight
      · rw [List.getElem?_set_ne hij] at hw
        exact h.covered_next hv hnext hlt htable hheight
          (h.covered j w p hw hpast hlt htable hheight)

/-! ## Lost nonces -/

/-- Two validations, the second finding the lock taken by the first. -/
def contendedRun (first second : UInt64) : List Action :=
  [.start (someRequest 1 0) first, .start (someRequest 2 1) second] ++
    List.replicate 3 (.run 0) ++ List.replicate 4 (.run 1) ++ List.replicate 5 (.run 0)

/-- **A success reply is no lost nonce**, when every `try_lock` that fails is harmless: in
    the states in which all validations have answered, nothing is lost. -/
theorem nothingLost {s : Validations} (h : (validations deadlineLimit).Reachable Harmless s)
    (hfinished : Finished s) : NothingLost s := by
  have hinv := h.invariant (fun _ => coverInv_init) fun _ _ _ hs hP hst => step_coverInv hs hP hst
  intro v hv hdone hlt p hp hheight
  obtain ⟨i, hi⟩ := List.mem_iff_getElem?.mp hv
  rcases hinv.covered i v p hi (by rw [hdone, Pc.past]) hlt hp hheight with
    ⟨d, hd, hle⟩ | ⟨j, w, hw, hpc, -⟩
  · obtain ⟨f, hf, rfl⟩ := List.mem_map.mp hd
    rw [List.mem_filter] at hf
    obtain ⟨hacc, hblock⟩ := of_decide_eq_true hf.2
    exact ⟨f, hf.1, hacc, hblock, hle⟩
  · -- No validation is comparing or passing on any more.
    obtain ⟨ok, hwdone⟩ := hfinished w (List.mem_of_getElem? hw)
    rw [hwdone] at hpc
    rcases hpc with hpc | hpc <;> cases hpc

theorem nothingLost_worse : ∃ s, (validations 1000).Reachable Harmless s ∧
    s.calls = [⟨someRequest 1 0, 50, .done true⟩, ⟨someRequest 2 1, 100, .done true⟩] ∧
    NothingLost s := by
  have hrun : ((validations 1000).execIf Harmless oneMiner (contendedRun 50 100)).map
      Validations.calls =
        some [⟨someRequest 1 0, 50, .done true⟩, ⟨someRequest 2 1, 100, .done true⟩] := by
    decide +kernel
  obtain ⟨s, hs, hcalls⟩ := Option.map_eq_some_iff.mp hrun
  have hreach := System.Reachable.execIf (.init oneMiner_mem) hs
  refine ⟨s, hreach, hcalls, nothingLost hreach ?_⟩
  rw [Finished, hcalls]
  decide +kernel

/-- The better of two nonces, its `try_lock` failing while the other is compared. -/
theorem nonce_lost : ¬∀ s, (validations 1000).Reachable System.Any s → Finished s →
    NothingLost s := by
  intro h
  have hrun : ((validations 1000).exec oneMiner (contendedRun 100 50)).map
      (fun s => (s.calls, s.shared.forwarded,
        (s.shared.miners.getMinerRound 7).map fun p => (s.shared.miners.rounds p).height)) =
      some ([⟨someRequest 1 0, 100, .done true⟩, ⟨someRequest 2 1, 50, .done true⟩],
        [(9, ⟨7, 1, 100, 5⟩)], some 5) := by
    decide +kernel
  obtain ⟨s, hs, heq⟩ := Option.map_eq_some_iff.mp hrun
  obtain ⟨hcalls, hforwarded, hround⟩ : _ ∧ _ ∧ _ := by simpa only [Prod.mk.injEq] using heq
  obtain ⟨p, hp, hheight⟩ := Option.map_eq_some_iff.mp hround
  have hfinished : Finished s := by
    rw [Finished, hcalls]
    decide +kernel
  obtain ⟨f, hf, -, -, hle⟩ := h s (.exec (.init oneMiner_mem) hs) hfinished
    ⟨someRequest 2 1, 50, .done true⟩ (by simp [hcalls]) rfl (by decide) p hp hheight
  rw [hforwarded, List.mem_singleton] at hf
  subst hf
  revert hle
  decide

end BurstPoolNode.DeadlineRequestHandler

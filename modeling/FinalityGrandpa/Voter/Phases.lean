import FinalityGrandpa.Voter.Run

/-!
# The phases of a round

`State` moves along `Start → Proposed → Prevoted → Precommitted`; `Poisoned` is the sentinel of
the swap at the top of a pass. For every pass from a state other than `Poisoned`
(`iterate_phase`): a pass that stays in the loop ends in a state other than `Poisoned`, never
goes back, and enters a phase only after the call that decides it answered `true`
(`PhaseStep`); a break happens only out of `Precommitted` with the round completable; and no
pass stops on `unreachable!()`. Over whole runs of a new voter this gives `run_phases`, and
over every run that stays in the loop, that the phase never goes back (`run_rank_le`).

The precommit timer is fused: once it has fired, the timer event can no longer win the
`select!`, so `handle_inputs!` answers `false` on every later pass and `precommit` needs the
round to be completable (`precommitted_after_timer`). A concrete run where the fired deadline is
forgotten: `precommit_timer_forgotten`. The prevote timer is not forgotten: the pass that takes it
prevotes, since `prevote` needs nothing but the timer, so a run that has taken a timer event is
past the prevote phase (`run_prevote_timer`).
-/

namespace FinalityGrandpa

namespace VotingRound

/-- The phases along `Start → Proposed → Prevoted → Precommitted`, `Poisoned` past them all. -/
def State.rank : State → Nat
  | .start _ _ => 0
  | .proposed _ _ => 1
  | .prevoted _ => 2
  | .precommitted => 3
  | .poisoned => 4

variable {R H E Id Sig : Type} {w : Nat} [DecidableEq H] [DecidableEq Id]
  (ops : RoundOps R H (BitVec w) E Id Sig) (env : EnvAnswers H (BitVec w) E)
  (ev : Event H (BitVec w) E Id Sig)

/-- What a pass from `s` that stays in the loop does to the phase: it ends in a state other than
`Poisoned`, never goes back, and enters `Proposed` only from `Start` after `primary_propose`
answered `true`, `Prevoted` only after `prevote` answered `true` on what `handle_inputs!` left,
and `Precommitted` only from `Prevoted` after `precommit` did. -/
structure PhaseStep (s s' : VotingRound R H w) : Prop where
  notPoisoned : s'.state ≠ .poisoned
  rank_le : s.state.rank ≤ s'.state.rank
  proposed : ∀ {p c p' c'}, s.state = .start p c → s'.state = .proposed p' c' →
    ∃ s₁, (primaryPropose env).run { s with state := .poisoned } = .ok true s₁
  prevoted : ∀ {c'}, s'.state = .prevoted c' → s.state.rank < 2 →
    ∃ t r s₂ s₃,
      (s.state.rank = 0 → ∃ b, (primaryPropose env).run { s with state := .poisoned } = .ok b t) ∧
      (s.state.rank = 1 → t = { s with state := .poisoned }) ∧
      (handleInputs ops env s.state.timer ev).run t = .ok r s₂ ∧
      (prevote ops env r.1).run s₂ = .ok true s₃ ∧ s' = { s₃ with state := s'.state }
  precommitted : s'.state = .precommitted → s.state.rank < 3 →
    s.state.rank = 2 ∧ ∃ r s₂ s₃,
      (handleInputs ops env s.state.timer ev).run { s with state := .poisoned } = .ok r s₂ ∧
      (precommit ops env r.1).run s₂ = .ok true s₃ ∧ s' = { s₃ with state := s'.state }

/-- What a pass from `s` ends in: a `PhaseStep` when it stays in the loop, a break only out of
`Precommitted` with the round completable after the pass's input, and a stop other than
`unreachable!()`; the voting flag changes only on the pass into `Prevoted`, where
`best_chain_containing` answered `None` for the block `find_descendent_of` picked. -/
def PassPhase (s : VotingRound R H w) : EStateM.Result (Exit E) (VotingRound R H w) Bool → Prop
  | .ok false s' => PhaseStep ops env ev s s' ∧
      (s'.voting = s.voting ∨ s.state.rank < 2 ∧ s'.state.rank = 2 ∧ ∃ h, findDescendentOf
        env.ancestry s'.primaryBlock s'.previousRoundState = some h ∧
        env.bestChainContaining h = .ok none)
  | .ok true s' => s.state = .precommitted ∧ isCompletable ops s' = true ∧
      (∃ r, (handleInputs ops env { terminated := true } ev).run { s with state := .poisoned } =
        .ok r s') ∧ s'.voting = s.voting
  | .error e _ => e ≠ .unreachable

section Pass

variable {s : VotingRound R H w}

theorem iterate_phase_start {p c : Timer} (hst : s.state = .start p c) :
    PassPhase ops env ev s ((iterate ops env ev).run s) := by
  rw [iterate_start ops env ev hst]
  cases h₁ : (primaryPropose env).run { s with state := .poisoned } with
  | error e s₁ => exact (primaryPropose_error env h₁).2.2.2.2
  | ok proposed s₁ =>
    dsimp only
    have hv₁ := (primaryPropose_ok env h₁).1
    have hk₂ := handleInputs_keeps ops env p ev s₁
    cases h₂ : (handleInputs ops env p ev).run s₁ with
    | error e s₂ => exact handleInputs_error_ne ops env h₂
    | ok r s₂ =>
      obtain ⟨ready, p'⟩ := r
      dsimp only
      rw [h₂, resultState_ok] at hk₂
      cases h₃ : (prevote ops env ready).run s₂ with
      | error e s₃ => exact (prevote_error ops env h₃).2.2.2
      | ok prevoted s₃ =>
        dsimp only
        have hrank : s.state.rank = 0 := by rw [hst]; rfl
        refine ⟨⟨by cases prevoted <;> cases proposed <;> nofun, by omega, ?_, ?_, ?_⟩, ?_⟩
        · intro _ _ _ _ _ h
          cases prevoted <;> cases proposed <;> cases h
          exact ⟨s₁, h₁⟩
        · intro _ h _
          cases prevoted
          · cases proposed <;> cases h
          · exact ⟨s₁, (ready, p'), s₂, s₃, fun _ => ⟨proposed, h₁⟩, by omega,
              by rw [hst]; exact h₂, h₃, rfl⟩
        · intro h _
          cases prevoted <;> cases proposed <;> cases h
        · rcases (prevote_ok ops env h₃).2.2.2 with hv₃ | ⟨rfl, -, hn⟩
          · exact .inl (by rw [hv₃, hk₂.2.1, hv₁])
          · exact .inr ⟨by omega, rfl, hn⟩

theorem iterate_phase_proposed {p c : Timer} (hst : s.state = .proposed p c) :
    PassPhase ops env ev s ((iterate ops env ev).run s) := by
  rw [iterate_proposed ops env ev hst]
  have hk₂ := handleInputs_keeps ops env p ev { s with state := .poisoned }
  cases h₂ : (handleInputs ops env p ev).run { s with state := .poisoned } with
  | error e s₂ => exact handleInputs_error_ne ops env h₂
  | ok r s₂ =>
    obtain ⟨ready, p'⟩ := r
    dsimp only
    rw [h₂, resultState_ok] at hk₂
    cases h₃ : (prevote ops env ready).run s₂ with
    | error e s₃ => exact (prevote_error ops env h₃).2.2.2
    | ok prevoted s₃ =>
      dsimp only
      have hrank : s.state.rank = 1 := by rw [hst]; rfl
      refine ⟨⟨by cases prevoted <;> nofun, by rw [hrank]; cases prevoted <;> simp [State.rank],
        ?_, ?_, ?_⟩, ?_⟩
      · intro _ _ _ _ h; rw [hst] at h; cases h
      · intro _ h _
        cases prevoted
        · cases h
        · exact ⟨_, (ready, p'), s₂, s₃, by omega, fun _ => rfl, by rw [hst]; exact h₂, h₃, rfl⟩
      · intro h _
        cases prevoted <;> cases h
      · rcases (prevote_ok ops env h₃).2.2.2 with hv₃ | ⟨rfl, -, hn⟩
        · exact .inl (by rw [hv₃, hk₂.2.1])
        · exact .inr ⟨by omega, rfl, hn⟩

theorem iterate_phase_prevoted {c : Timer} (hst : s.state = .prevoted c) :
    PassPhase ops env ev s ((iterate ops env ev).run s) := by
  rw [iterate_prevoted ops env ev hst]
  have hk₂ := handleInputs_keeps ops env c ev { s with state := .poisoned }
  cases h₂ : (handleInputs ops env c ev).run { s with state := .poisoned } with
  | error e s₂ => exact handleInputs_error_ne ops env h₂
  | ok r s₂ =>
    obtain ⟨ready, c'⟩ := r
    dsimp only
    rw [h₂, resultState_ok] at hk₂
    cases h₃ : (precommit ops env ready).run s₂ with
    | error e s₃ => exact (precommit_error ops env h₃).2.2.2
    | ok precommitted s₃ =>
      dsimp only
      have hrank : s.state.rank = 2 := by rw [hst]; rfl
      refine ⟨⟨by cases precommitted <;> nofun,
        by rw [hrank]; cases precommitted <;> simp [State.rank], ?_, fun _ h => by omega, ?_⟩,
        .inl (by rw [(precommit_ok ops env h₃).2.1, hk₂.2.1])⟩
      · intro _ _ _ _ h; rw [hst] at h; cases h
      · intro h _
        cases precommitted
        · cases h
        · exact ⟨hrank, (ready, c'), s₂, s₃, by rw [hst]; exact h₂, h₃, rfl⟩

theorem iterate_phase_precommitted (hst : s.state = .precommitted) :
    PassPhase ops env ev s ((iterate ops env ev).run s) := by
  rw [iterate_precommitted ops env ev hst]
  have hk₂ := handleInputs_keeps ops env { terminated := true } ev { s with state := .poisoned }
  cases h₂ : (handleInputs ops env { terminated := true } ev).run
      { s with state := .poisoned } with
  | error e s₂ => exact handleInputs_error_ne ops env h₂
  | ok r s₂ =>
    dsimp only
    rw [h₂, resultState_ok] at hk₂
    have hrank : s.state.rank = 3 := by rw [hst]; rfl
    split
    · exact ⟨hst, ‹_›, ⟨r, h₂⟩, hk₂.2.1⟩
    · refine ⟨⟨nofun, by rw [hrank]; rfl, ?_, nofun, fun _ h => by omega⟩, .inl hk₂.2.1⟩
      intro _ _ _ _ h; rw [hst] at h; cases h

/-- Every pass from a state other than `Poisoned` ends as `PassPhase` says. -/
theorem iterate_phase (hs : s.state ≠ .poisoned) :
    PassPhase ops env ev s ((iterate ops env ev).run s) := by
  cases hst : s.state with
  | start p c => exact iterate_phase_start ops env ev hst
  | proposed p c => exact iterate_phase_proposed ops env ev hst
  | prevoted c => exact iterate_phase_prevoted ops env ev hst
  | precommitted => exact iterate_phase_precommitted ops env ev hst
  | poisoned => exact absurd hst hs

end Pass

/-! ## Whole runs -/

/-- Where a run stands: never in `Poisoned` at the top of a pass, never stopped by
`unreachable!()`. -/
def RunPhase : Outcome R H E w → Prop
  | .running vr => vr.state ≠ .poisoned
  | .ok _ => True
  | .exit e _ => e ≠ .unreachable

omit [DecidableEq H] in
theorem runPhase_new (round : R) (voterId : Option Id) (prs : RoundState H (BitVec w)) :
    RunPhase (.running (new ops round voterId prs) : Outcome R H E w) :=
  nofun

theorem runPhase_ofPass {vr : VotingRound R H w} (h : vr.state ≠ .poisoned) :
    RunPhase (Outcome.ofPass ((iterate ops env ev).run vr)) := by
  have := iterate_phase ops env ev h
  revert this
  rcases (iterate ops env ev).run vr with ⟨_ | _, vr'⟩ | ⟨e, vr'⟩
  · exact fun h => h.1.notPoisoned
  · exact fun _ => trivial
  · exact id

/-- Over every run of a new voter: at the top of every pass the state is not `Poisoned`, and
every pass from there that stays in the loop is a `PhaseStep`; `unreachable!()` never runs; and
`run` returns `Ok` only by breaking out of `Precommitted` at a pass after which the round is
completable. -/
theorem run_phases (round : R) (voterId : Option Id) (prs : RoundState H (BitVec w))
    (inputs : List (EnvAnswers H (BitVec w) E × Event H (BitVec w) E Id Sig)) :
    (∀ s, run ops inputs (new ops round voterId prs) = some (.running s) →
      s.state ≠ .poisoned ∧ ∀ env ev s', (iterate ops env ev).run s = .ok false s' →
        PhaseStep ops env ev s s') ∧
    (∀ e s, run ops inputs (new ops round voterId prs) = some (.exit e s) → e ≠ .unreachable) ∧
    (∀ s', run ops inputs (new ops round voterId prs) = some (.ok s') →
      ∃ pre env ev s, pre ++ [(env, ev)] <+: inputs ∧
        run ops pre (new ops round voterId prs) = some (.running s) ∧
        s.state = .precommitted ∧ (iterate ops env ev).run s = .ok true s' ∧
        isCompletable ops s' = true) := by
  have hinv : ∀ {pre o}, run ops pre (new ops round voterId prs) = some o → RunPhase o :=
    run_invariant ops RunPhase (fun x _ _ hq _ => runPhase_ofPass ops x.1 x.2 hq)
      (runPhase_new ops round voterId prs)
  refine ⟨fun s h => ⟨hinv h, fun env ev s' h' => ?_⟩, fun e s h => hinv h, fun s' h => ?_⟩
  · have hp := iterate_phase ops env ev (hinv h)
    rw [h'] at hp
    exact hp.1
  · obtain ⟨pre, ⟨env, ev⟩, s, hpre, hrun, -, hx⟩ :=
      run_stop ops h fun _ h => Outcome.noConfusion h
    have hp := iterate_phase ops env ev (hinv hrun)
    revert hx hp
    rcases hr : (iterate ops env ev).run s with ⟨_ | _, s''⟩ | ⟨e, s''⟩ <;> intro hx hp <;>
      cases hx
    exact ⟨pre, env, ev, s, hpre, hrun, hp.1, hr, hp.2.1⟩

/-! ## The fused precommit timer -/

/-- Once the precommit timer has fired, a pass in `Prevoted` enters `Precommitted` only if the
round is completable after the pass's input: the timer can no longer win the `select!`, so
`handle_inputs!` answers `false` and the expired deadline no longer counts. -/
theorem precommitted_after_timer {s s' : VotingRound R H w} {c : Timer}
    (hst : s.state = .prevoted c) (hc : c.terminated = true) (hen : ev.Enabled c = true)
    (h : (iterate ops env ev).run s = .ok false s') (hs' : s'.state = .precommitted) :
    ∃ r s₂, (handleInputs ops env c ev).run { s with state := .poisoned } = .ok r s₂ ∧
      ops.completable s₂.round = true := by
  have hp := iterate_phase ops env ev (show s.state ≠ .poisoned by rw [hst]; nofun)
  rw [h] at hp
  obtain ⟨-, ⟨ready, c'⟩, s₂, s₃, h₂, h₃, -⟩ := hp.1.precommitted hs' (by simp [hst, State.rank])
  rw [hst] at h₂
  obtain ⟨-, -, -, hgate⟩ := (precommit_ok ops env h₃).2.2.2 rfl
  refine ⟨(ready, c'), s₂, h₂, ?_⟩
  rcases handleInputs_ok ops env h₂ with ⟨rfl, -, -⟩ | ⟨-, rfl, -⟩
  · simp [Event.Enabled, hc] at hen
  · simpa using hgate

/-- A round that keeps the target of the last prevote it imported as its prevote-GHOST and as
its finalized block, and is completable exactly when `completable` says; `0` is the primary and
every other id a voter. -/
def lastPrevote (completable : Bool) :
    RoundOps (Option (Nat × BitVec 8)) Nat (BitVec 8) Unit Nat Unit where
  importPrevote _ prevote _ _ := .ok (some (prevote.targetHash, prevote.targetNumber))
  importPrecommit round _ _ _ := .ok round
  completable _ := completable
  finalized round := round
  prevoteGhost round := round
  base _ := (0, 0)
  primaryVoter _ := 0
  isVoter _ _ := true
  setPrevotedIndex round := round
  setPrecommittedIndex round := round

/-- Answers where every block is at or above every other, `ancestry` fails, the best chain
containing a block ends at it at height `1`, and every send succeeds. -/
def tipAnswers : EnvAnswers Nat (BitVec 8) Unit where
  isEqualOrDescendentOf _ _ := true
  ancestry _ _ := none
  bestChainContaining h := .ok (some (h, 1))
  send _ := .ok ()

/-- The previous round's state of the runs below: estimate, prevote-GHOST and finalized block
at block `1`. -/
def estimateOne : RoundState Nat (BitVec 8) :=
  { prevoteGhost := some (1, 1), finalized := some (1, 1), estimate := some (1, 1) }

/-- A prevote for block `1` from voter `2`. -/
def voteOne : SignedMessage Nat (BitVec 8) Unit Nat :=
  { message := .prevote { targetHash := 1, targetNumber := 1 }, signature := (), id := 2 }

/-- The voter `2` of `lastPrevote completable` after both timers fired: it prevoted for block `1`
and its round has imported no prevote yet. -/
def firedVoter : VotingRound (Option (Nat × BitVec 8)) Nat 8 :=
  { voting := .yes, outgoing := [.prevote { targetHash := 1, targetNumber := 1 }], round := none,
    state := .prevoted { terminated := true }, primaryBlock := none,
    previousRoundState := estimateOne }

theorem precommitted_after_timer_vote :
    (firedVoter.state = .prevoted { terminated := true } ∧
      ({ terminated := true } : Timer).terminated = true ∧
      (Event.incoming (.ok voteOne) : Event Nat (BitVec 8) Unit Nat Unit).Enabled
        { terminated := true } = true ∧
      (iterate (lastPrevote true) tipAnswers (.incoming (.ok voteOne))).run firedVoter =
        .ok false { firedVoter with
          round := some (1, 1), state := .precommitted,
          outgoing :=
            firedVoter.outgoing ++ [.precommit { targetHash := 1, targetNumber := 1 }] }) ∧
    ∃ r s₂, (handleInputs (lastPrevote true) tipAnswers { terminated := true }
      (.incoming (.ok voteOne))).run { firedVoter with state := .poisoned } = .ok r s₂ ∧
      (lastPrevote true).completable s₂.round = true :=
  ⟨⟨rfl, rfl, rfl, rfl⟩, @precommitted_after_timer _ _ _ _ _ _ _ _ (lastPrevote true) tipAnswers
    (.incoming (.ok voteOne)) firedVoter { firedVoter with
      round := some (1, 1), state := .precommitted,
      outgoing :=
        firedVoter.outgoing ++ [.precommit { targetHash := 1, targetNumber := 1 }] }
    _ rfl rfl rfl rfl rfl⟩

/-- The precommit timer fires on the second pass, before the round has a prevote-GHOST; the
third pass imports a prevote that puts the GHOST at the estimate, and the voter, whose round is
not completable, stays in `Prevoted`. -/
theorem precommit_timer_forgotten :
    run (lastPrevote false) [(tipAnswers, .timer), (tipAnswers, .timer)]
        (new (lastPrevote false) none (some 2) estimateOne) = some (.running firedVoter) ∧
      run (lastPrevote false)
        [(tipAnswers, .timer), (tipAnswers, .timer), (tipAnswers, .incoming (.ok voteOne))]
        (new (lastPrevote false) none (some 2) estimateOne) =
          some (.running { firedVoter with round := some (1, 1) }) ∧
      (lastPrevote false).prevoteGhost (some (1, 1)) = estimateOne.estimate :=
  ⟨rfl, rfl, rfl⟩

/-! ## The prevote timer -/

theorem run_notPoisoned (round : R) (voterId : Option Id) (prs : RoundState H (BitVec w))
    {inputs : List (EnvAnswers H (BitVec w) E × Event H (BitVec w) E Id Sig)}
    {s : VotingRound R H w} (h : run ops inputs (new ops round voterId prs) = some (.running s)) :
    s.state ≠ .poisoned :=
  run_invariant ops RunPhase (fun x _ _ hq _ => runPhase_ofPass ops x.1 x.2 hq)
    (runPhase_new ops round voterId prs) h

/-- A pass from `Start` or `Proposed` that takes the prevote timer prevotes: `handle_inputs!`
answers `true`, so `prevote` does, and the pass ends in `Prevoted` unless it stops. -/
theorem iterate_timer_prevoted {s s' : VotingRound R H w} (hst : s.state.rank < 2)
    (h : (iterate ops env .timer).run s = .ok false s') : s'.state.rank = 2 := by
  have hprevoted : ∀ {t t' : VotingRound R H w} {b : Bool},
      (prevote ops env true).run t = .ok b t' → b = true := fun h₃ => by
    simpa using (prevote_ok ops env h₃).1
  cases hs : s.state with
  | start p c =>
    rw [iterate_start ops env .timer hs] at h
    cases h₁ : (primaryPropose env).run { s with state := .poisoned } with
    | error e s₁ => rw [h₁] at h; cases h
    | ok proposed s₁ =>
      rw [h₁] at h
      dsimp only at h
      rw [show (handleInputs ops env p .timer).run s₁ = .ok (true, ⟨true⟩) s₁ from rfl] at h
      dsimp only at h
      cases h₃ : (prevote ops env true).run s₁ with
      | error e s₃ => rw [h₃] at h; cases h
      | ok b s₃ => rw [h₃, hprevoted h₃] at h; cases h; rfl
  | proposed p c =>
    rw [iterate_proposed ops env .timer hs] at h
    rw [show (handleInputs ops env p .timer).run { s with state := .poisoned } =
      .ok (true, ⟨true⟩) { s with state := .poisoned } from rfl] at h
    dsimp only at h
    cases h₃ : (prevote ops env true).run { s with state := .poisoned } with
    | error e s₃ => rw [h₃] at h; cases h
    | ok b s₃ => rw [h₃, hprevoted h₃] at h; cases h; rfl
  | prevoted _ | precommitted | poisoned => rw [hs] at hst; simp [State.rank] at hst

/-- Over a run from a voter in the loop that stays in the loop, the phase never goes back and
never becomes `Poisoned`. -/
theorem run_rank_le {inputs : List (EnvAnswers H (BitVec w) E × Event H (BitVec w) E Id Sig)}
    {vr s : VotingRound R H w} (hv : vr.state ≠ .poisoned)
    (h : run ops inputs vr = some (.running s)) :
    vr.state.rank ≤ s.state.rank ∧ s.state ≠ .poisoned := by
  refine run_invariant ops
    (fun o => ∀ v, o = .running v → vr.state.rank ≤ v.state.rank ∧ v.state ≠ .poisoned)
    (fun x _ v hq _ v' hv' => ?_) (fun v hv' => by cases hv'; exact ⟨le_rfl, hv⟩) h s rfl
  obtain ⟨hrank, hnp⟩ := hq v rfl
  have hp := iterate_phase ops x.1 x.2 hnp
  revert hp hv'
  rcases (iterate ops x.1 x.2).run v with ⟨_ | _, v₁⟩ | ⟨e, v₁⟩ <;> intro hv' hp <;> cases hv'
  exact ⟨hrank.trans hp.1.rank_le, hp.1.notPoisoned⟩

end VotingRound

end FinalityGrandpa

import FinalityGrandpa.Voter.Provenance

/-!
# Where the voter panics

A pass panics in two places. `construct_prevote` and `precommit` `expect` the previous round's
estimate, and `construct_prevote` its prevote-GHOST once the voter holds a primary block: "Rounds
only started when prior round completable; qed". And the `select!` of `handle_inputs!` has no
`complete` branch, so it panics once both input streams have ended and its timer has fired
(`Event.allTerminated`). Every other stop of a pass is the `?` of an error of the incoming stream,
the round or the environment, or the `unreachable!()` of `Poisoned`.

`iterate_panic` says so of one pass. Over whole runs from any voter, a run panics only where the
voter it leaves lacks what the `expect`s read, or on `allTerminated` after the timer of the pass
fired (`run_panic`). In `Start` and `Proposed` the prevote timer has not fired
(`run_prevoteTimer`): the pass that takes it prevotes. So a new voter whose previous round's
states, the first and every update, hold an estimate and a prevote-GHOST stops on the `?` of an
error, or panics in `select!` in `Prevoted` after its precommit timer fired or in `Precommitted`
(`run_exit_error`).
-/

namespace FinalityGrandpa

namespace VotingRound

variable {R H E Id Sig : Type} {w : Nat} [DecidableEq H] [DecidableEq Id]
  (ops : RoundOps R H (BitVec w) E Id Sig) (env : EnvAnswers H (BitVec w) E)
  (ev : Event H (BitVec w) E Id Sig)

omit [DecidableEq Id] in
/-- `find_descendent_of` finds no block exactly where an `expect` of `construct_prevote` fails. -/
theorem findDescendentOf_eq_none {ancestry : H → H → Option (List H)}
    {primaryBlock : Option (H × BitVec w)} {prs : RoundState H (BitVec w)} :
    findDescendentOf ancestry primaryBlock prs = none ↔
      prs.estimate = none ∨ (primaryBlock.isSome = true ∧ prs.prevoteGhost = none) := by
  rcases prs with ⟨ghost, fin, _ | est⟩
  · simp [findDescendentOf]
  cases primaryBlock with
  | none => simp [findDescendentOf]
  | some pb =>
    cases ghost with
    | none => simp [findDescendentOf]
    | some pg =>
      -- past both `expect`s every branch answers a block
      simp only [findDescendentOf, Option.bind_eq_bind, Option.some_bind, Option.pure_def,
        reduceCtorEq, Option.isSome_some, and_false, or_false, iff_false]
      split_ifs <;> (try split) <;> (try split_ifs) <;> simp

omit [DecidableEq H] in
/-- A pass out of `Start`, `Proposed` or `Prevoted` that stops, stops in `handle_inputs!` (on
the `?` of an error, or in a `select!` with every branch terminated, with the voter as it was),
or in the call after it, with the voter that call stopped with. -/
theorem passTail_error {t v : VotingRound R H w} {timer : Timer}
    {call : Bool → VoterM R H E w Bool} {next : Bool → Timer → State} {e : Exit E}
    (h : (match (handleInputs ops env timer ev).run t with
      | .error e s₂ => .error e s₂
      | .ok (ready, timer') s₂ =>
        match (call ready).run s₂ with
        | .error e s₃ => .error e s₃
        | .ok b s₃ => .ok false { s₃ with state := next b timer' } :
          EStateM.Result (Exit E) (VotingRound R H w) Bool) = .error e v) :
    (∃ e', e = .error e') ∨ (ev = .allTerminated ∧ e = .panic ∧ v = t) ∨
      ∃ ready t₂, (call ready).run t₂ = .error e v := by
  rcases h₂ : (handleInputs ops env timer ev).run t with ⟨⟨ready, timer'⟩, s₂⟩ | ⟨e₂, s₂⟩ <;>
    rw [h₂] at h <;> dsimp only at h
  · rcases h₃ : (call ready).run s₂ with ⟨b, s₃⟩ | ⟨e₃, s₃⟩ <;> rw [h₃] at h <;> cases h
    exact .inr (.inr ⟨ready, s₂, h₃⟩)
  · cases h
    exact (handleInputs_error ops env h₂).imp_right .inl

omit [DecidableEq H] in
/-- A pass out of `Start`, `Proposed` or `Prevoted` that stays in the loop ran `handle_inputs!`,
then the call after it, and wrote back the state those answers pick. -/
theorem passTail_ok {t s' : VotingRound R H w} {timer : Timer}
    {call : Bool → VoterM R H E w Bool} {next : Bool → Timer → State}
    (h : (match (handleInputs ops env timer ev).run t with
      | .error e s₂ => .error e s₂
      | .ok (ready, timer') s₂ =>
        match (call ready).run s₂ with
        | .error e s₃ => .error e s₃
        | .ok b s₃ => .ok false { s₃ with state := next b timer' } :
          EStateM.Result (Exit E) (VotingRound R H w) Bool) = .ok false s') :
    ∃ ready timer' t₂ b s₃, (handleInputs ops env timer ev).run t = .ok (ready, timer') t₂ ∧
      (call ready).run t₂ = .ok b s₃ ∧ s' = { s₃ with state := next b timer' } := by
  rcases h₂ : (handleInputs ops env timer ev).run t with ⟨⟨ready, timer'⟩, s₂⟩ | ⟨e₂, s₂⟩ <;>
    rw [h₂] at h <;> dsimp only at h
  · rcases h₃ : (call ready).run s₂ with ⟨b, s₃⟩ | ⟨e₃, s₃⟩ <;> rw [h₃] at h <;> cases h
    exact ⟨ready, timer', s₂, b, s₃, rfl, h₃, rfl⟩
  · cases h

/-- A pass panics only where an `expect` on the previous round's state fails, in the voter it
stops with (no previous estimate, or a primary block held and no previous prevote-GHOST), or in
the `select!` of `handle_inputs!`, on `allTerminated`. -/
theorem iterate_panic {s v : VotingRound R H w} (h : (iterate ops env ev).run s = .error .panic v) :
    v.previousRoundState.estimate = none ∨
      (v.primaryBlock.isSome = true ∧ v.previousRoundState.prevoteGhost = none) ∨
      ev = .allTerminated := by
  have hprevote : ∀ {ready t}, (prevote ops env ready).run t = .error .panic v →
      v.previousRoundState.estimate = none ∨
        (v.primaryBlock.isSome = true ∧ v.previousRoundState.prevoteGhost = none) := fun h₃ => by
    obtain ⟨rfl, hf⟩ := prevote_panic ops env h₃
    exact findDescendentOf_eq_none.1 hf
  cases hst : s.state with
  | start p c =>
    rw [iterate_start ops env ev hst] at h
    rcases h₁ : (primaryPropose env).run { s with state := .poisoned } with
      ⟨proposed, s₁⟩ | ⟨e, s₁⟩ <;> rw [h₁] at h <;> dsimp only at h
    · rcases passTail_error ops env ev h with ⟨_, he⟩ | ⟨hev, -⟩ | ⟨_, _, h₃⟩
      · exact nomatch he
      · exact .inr (.inr hev)
      · exact (hprevote h₃).imp_right .inl
    · cases h
      rcases primaryPropose_cases env { s with state := .poisoned } with
        h' | ⟨-, m, -, h' | ⟨e, h'⟩⟩ <;> rw [h'] at h₁ <;> cases h₁
  | proposed p c =>
    rw [iterate_proposed ops env ev hst] at h
    rcases passTail_error ops env ev h with ⟨_, he⟩ | ⟨hev, -⟩ | ⟨_, _, h₃⟩
    · exact nomatch he
    · exact .inr (.inr hev)
    · exact (hprevote h₃).imp_right .inl
  | prevoted c =>
    rw [iterate_prevoted ops env ev hst] at h
    rcases passTail_error ops env ev h with ⟨_, he⟩ | ⟨hev, -⟩ | ⟨_, _, h₃⟩
    · exact nomatch he
    · exact .inr (.inr hev)
    · obtain ⟨rfl, hest⟩ := precommit_panic ops env h₃
      exact .inl hest
  | precommitted =>
    rw [iterate_precommitted ops env ev hst] at h
    rcases h₂ : (handleInputs ops env { terminated := true } ev).run { s with state := .poisoned }
      with ⟨_, s₂⟩ | ⟨e, s₂⟩ <;> rw [h₂] at h <;> dsimp only at h
    · split at h <;> cases h
    · cases h
      rcases handleInputs_error ops env h₂ with ⟨_, he⟩ | ⟨hev, -⟩
      · exact nomatch he
      · exact .inr (.inr hev)
  | poisoned => rw [iterate_poisoned ops env ev hst] at h; cases h

/-- A pass from `Start` or `Proposed` that stays before `Prevoted` keeps its prevote timer: on
the timer event `handle_inputs!` answers `true`, so `prevote` does, and the pass prevotes. -/
theorem iterate_prevoteTimer {s s' : VotingRound R H w} (hs : s.state.rank < 2)
    (h : (iterate ops env ev).run s = .ok false s') (hs' : s'.state.rank < 2) :
    s'.state.timer = s.state.timer := by
  have hkeep : ∀ {ready b : Bool} {p p' : Timer} {t t₂ s₃ : VotingRound R H w},
      (handleInputs ops env p ev).run t = .ok (ready, p') t₂ →
      (prevote ops env ready).run t₂ = .ok b s₃ → b = false → p' = p := fun h₂ h₃ hb => by
    have hr := (prevote_ok ops env h₃).1
    rcases handleInputs_ok ops env h₂ with ⟨-, rfl, -⟩ | ⟨-, -, rfl⟩
    · simp [hb] at hr
    · rfl
  cases hst : s.state with
  | start p c =>
    rw [iterate_start ops env ev hst] at h
    rcases h₁ : (primaryPropose env).run { s with state := .poisoned } with
      ⟨proposed, s₁⟩ | ⟨e, s₁⟩ <;> rw [h₁] at h <;> dsimp only at h
    · obtain ⟨ready, p', t₂, b, s₃, h₂, h₃, rfl⟩ := passTail_ok ops env ev h
      cases b
      · rw [hkeep h₂ h₃ rfl]
        cases proposed <;> rfl
      · simp [State.rank] at hs'
    · cases h
  | proposed p c =>
    rw [iterate_proposed ops env ev hst] at h
    obtain ⟨ready, p', t₂, b, s₃, h₂, h₃, rfl⟩ := passTail_ok ops env ev h
    cases b
    · rw [hkeep h₂ h₃ rfl]
      rfl
    · simp [State.rank] at hs'
  | prevoted _ | precommitted | poisoned => simp [hst, State.rank] at hs

/-- Over every run of a new voter, the prevote timer of `Start` and `Proposed` has not fired. -/
theorem run_prevoteTimer (round : R) (voterId : Option Id) (prs : RoundState H (BitVec w))
    {inputs : List (EnvAnswers H (BitVec w) E × Event H (BitVec w) E Id Sig)}
    {s : VotingRound R H w} (h : run ops inputs (new ops round voterId prs) = some (.running s))
    (hs : s.state.rank < 2) : s.state.timer = { terminated := false } := by
  refine (run_invariant ops (fun o => ∀ v, o = .running v → v.state ≠ .poisoned ∧
      (v.state.rank < 2 → v.state.timer = { terminated := false }))
    (fun x _ v hq _ v' hv' => ?_) (fun v hv => by cases hv; exact ⟨nofun, fun _ => rfl⟩)
    h s rfl).2 hs
  obtain ⟨hnp, htimer⟩ := hq v rfl
  have hp := iterate_phase ops x.1 x.2 hnp
  revert hp hv'
  rcases hr : (iterate ops x.1 x.2).run v with ⟨_ | _, v₁⟩ | ⟨e, v₁⟩ <;> intro hv' hp <;> cases hv'
  refine ⟨hp.1.notPoisoned, fun hlt => ?_⟩
  have hlt₀ : v.state.rank < 2 := lt_of_le_of_lt hp.1.rank_le hlt
  rw [iterate_prevoteTimer ops x.1 x.2 hlt₀ hr hlt, htimer hlt₀]

/-- From `Prevoted` or `Precommitted` with its timer fired, a pass on `allTerminated` panics in
`select!` before it does anything else. -/
theorem iterate_allTerminated {s : VotingRound R H w} (hs : 2 ≤ s.state.rank)
    (hnp : s.state ≠ .poisoned) (hterm : s.state.timer.terminated = true) :
    (s.state = .prevoted { terminated := true } ∨ s.state = .precommitted) ∧
      (iterate ops env .allTerminated).run s = .error .panic { s with state := .poisoned } := by
  cases hst : s.state with
  | start _ _ | proposed _ _ => simp [hst, State.rank] at hs
  | prevoted c =>
    obtain ⟨_ | _⟩ := c
    · rw [hst] at hterm; cases hterm
    · exact ⟨.inl rfl, by rw [iterate_prevoted ops env _ hst]; rfl⟩
  | precommitted => exact ⟨.inr rfl, by rw [iterate_precommitted ops env _ hst]; rfl⟩
  | poisoned => exact absurd hst hnp

/-- Over every run from any voter, the voter panics only where an `expect` on the previous
round's state fails, in the voter it stops with (there is no previous estimate, or the voter
holds a primary block and there is no previous prevote-GHOST), or in the `select!` of a pass that
takes `allTerminated`, from a voter whose timer has fired. -/
theorem run_panic {inputs : List (EnvAnswers H (BitVec w) E × Event H (BitVec w) E Id Sig)}
    {vr v : VotingRound R H w} (h : run ops inputs vr = some (.exit .panic v)) :
    v.previousRoundState.estimate = none ∨
      (v.primaryBlock.isSome = true ∧ v.previousRoundState.prevoteGhost = none) ∨
      ∃ pre env s, pre ++ [(env, .allTerminated)] <+: inputs ∧
        run ops pre vr = some (.running s) ∧ s.state.timer.terminated = true := by
  obtain ⟨pre, ⟨env, ev⟩, s, hpre, hrun, hen, hx⟩ := run_exit ops h
  rcases iterate_panic ops env ev hx with hest | hghost | rfl
  · exact .inl hest
  · exact .inr (.inl hghost)
  · exact .inr (.inr ⟨pre, env, s, hpre, hrun, hen⟩)

/-- The previous round's state of `estimateOne` without its prevote-GHOST. -/
def ghostlessState : RoundState Nat (BitVec 8) := { estimateOne with prevoteGhost := none }

/-- Voter `2` of `lastPrevote true` from `ghostlessState`, stopped by the panic of
`construct_prevote` after taking `proposeOne`. -/
def ghostlessVoter : VotingRound (Option (Nat × BitVec 8)) Nat 8 :=
  { voting := .yes, outgoing := [], round := none, state := .poisoned,
    primaryBlock := some (1, 1), previousRoundState := ghostlessState }

theorem run_panic_ghostless :
    run (lastPrevote true) proposalInputs (new (lastPrevote true) none (some 2) ghostlessState) =
      some (.exit .panic ghostlessVoter) ∧
    (ghostlessVoter.previousRoundState.estimate = none ∨
      (ghostlessVoter.primaryBlock.isSome = true ∧
        ghostlessVoter.previousRoundState.prevoteGhost = none) ∨
      ∃ pre env s, pre ++ [(env, .allTerminated)] <+: proposalInputs ∧
        run (lastPrevote true) pre (new (lastPrevote true) none (some 2) ghostlessState) =
          some (.running s) ∧ s.state.timer.terminated = true) := by
  have h : run (lastPrevote true) proposalInputs
      (new (lastPrevote true) none (some 2) ghostlessState) =
        some (.exit .panic ghostlessVoter) := by rfl
  exact ⟨h, run_panic (lastPrevote true) h⟩

/-- A new voter whose previous round's states, the one it is created with and every update
among its inputs, hold an estimate and a prevote-GHOST, as "Rounds only started when prior round
completable" has them, never panics in an `expect` and never reaches `unreachable!()`. Wherever
its run stops, it stops on the `?` of an error of the incoming stream, the round or the
environment, or it panics in the `select!` of a pass that takes `allTerminated` from `Prevoted`
after the precommit timer fired or from `Precommitted`, with nothing else done in that pass. -/
theorem run_exit_error (round : R) (voterId : Option Id) (prs : RoundState H (BitVec w))
    {inputs : List (EnvAnswers H (BitVec w) E × Event H (BitVec w) E Id Sig)}
    (hprs : prs.estimate.isSome = true ∧ prs.prevoteGhost.isSome = true)
    (hupd : ∀ env rs, (env, .roundState rs) ∈ inputs →
      rs.estimate.isSome = true ∧ rs.prevoteGhost.isSome = true)
    {e : Exit E} {v : VotingRound R H w}
    (h : run ops inputs (new ops round voterId prs) = some (.exit e v)) :
    (∃ err, e = .error err) ∨ (e = .panic ∧ ∃ pre env s,
      pre ++ [(env, .allTerminated)] <+: inputs ∧
      run ops pre (new ops round voterId prs) = some (.running s) ∧
      (s.state = .prevoted { terminated := true } ∨ s.state = .precommitted) ∧
      v = { s with state := .poisoned }) := by
  obtain ⟨pre, ⟨env, ev⟩, s, hpre, hrun, hen, hx⟩ := run_exit ops h
  have hnp := run_notPoisoned ops round voterId prs hrun
  -- the previous round's state `v` holds is the first one or an update among the inputs
  have hv : v.previousRoundState.estimate.isSome = true ∧
      v.previousRoundState.prevoteGhost.isSome = true := by
    rcases run_field ops VotingRound.previousRoundState (fun _ _ ev v => ev = .roundState v)
      (fun vr env ev => (iterate_effect ops env ev vr).previousRoundState) h with
      h' | ⟨pre', ⟨env, ev⟩, s', hpre', -, -, rfl⟩
    · exact h' ▸ hprs
    · exact hupd env _ (hpre'.subset (List.mem_concat_self _ _))
  cases e with
  | error err => exact .inl ⟨err, rfl⟩
  | panic =>
    rcases iterate_panic ops env ev hx with hest | ⟨-, hghost⟩ | rfl
    · simp [hest] at hv
    · simp [hghost] at hv
    -- `select!` panics only after the timer fired, which in `Start` and `Proposed` it has not
    have hrank : 2 ≤ s.state.rank := not_lt.1 fun hlt => by
      have hfresh := run_prevoteTimer ops round voterId prs hrun hlt
      simp [Event.Enabled, hfresh] at hen
    obtain ⟨hst, hpass⟩ := iterate_allTerminated ops env hrank hnp hen
    rw [hpass] at hx
    cases hx
    exact .inr ⟨rfl, pre, env, s, hpre, hrun, hst, rfl⟩
  | unreachable => exact absurd rfl (hx ▸ iterate_phase ops env ev hnp)

/-- Prevote timer, precommit timer, then the end of both input streams. -/
def expiredInputs :
    List (EnvAnswers Nat (BitVec 8) Unit × Event Nat (BitVec 8) Unit Nat Unit) :=
  [(tipAnswers, .timer), (tipAnswers, .timer), (tipAnswers, .allTerminated)]

theorem run_exit_error_expired :
    (estimateOne.estimate.isSome = true ∧ estimateOne.prevoteGhost.isSome = true) ∧
    (∀ env rs, (env, .roundState rs) ∈ expiredInputs →
      rs.estimate.isSome = true ∧ rs.prevoteGhost.isSome = true) ∧
    run (lastPrevote false) expiredInputs (new (lastPrevote false) none (some 2) estimateOne) =
      some (.exit .panic { firedVoter with state := .poisoned }) ∧
    ((∃ err, (Exit.panic : Exit Unit) = .error err) ∨ ((Exit.panic : Exit Unit) = .panic ∧
      ∃ pre env s,
      pre ++ [(env, .allTerminated)] <+: expiredInputs ∧
      run (lastPrevote false) pre (new (lastPrevote false) none (some 2) estimateOne) =
        some (.running s) ∧
      (s.state = .prevoted { terminated := true } ∨ s.state = .precommitted) ∧
      ({ firedVoter with state := .poisoned } : VotingRound (Option (Nat × BitVec 8)) Nat 8) =
        { s with state := .poisoned })) := by
  have hprs : estimateOne.estimate.isSome = true ∧ estimateOne.prevoteGhost.isSome = true :=
    ⟨rfl, rfl⟩
  have hupd : ∀ env rs, (env, .roundState rs) ∈ expiredInputs →
      rs.estimate.isSome = true ∧ rs.prevoteGhost.isSome = true := by
    simp [expiredInputs]
  have h : run (lastPrevote false) expiredInputs
      (new (lastPrevote false) none (some 2) estimateOne) =
        some (.exit .panic { firedVoter with state := .poisoned }) := by rfl
  exact ⟨hprs, hupd, h, run_exit_error (lastPrevote false) none (some 2) estimateOne hprs hupd h⟩

end VotingRound

end FinalityGrandpa

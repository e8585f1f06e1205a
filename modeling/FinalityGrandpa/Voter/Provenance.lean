import FinalityGrandpa.Voter.Targets

/-!
# Where what the voter sends and holds comes from

Each call of a pass is described once by what it may do to the voter (`InputStep`,
`primaryPropose_step`, `prevote_step`, `precommit_step`); `iterate_effect` chains them into
`PassEffect`, which holds of every pass whether it stays in the loop, breaks out of it or stops.
`run_sent`, `run_field` and `run_invariant` carry it over whole runs:

* a prevote targets the block `best_chain_containing` answered for the block `findDescendentOf`
  picks from what the voter held after the pass that sent it (`run_prevotes`);
* only the round's primary voter proposes, from `Start`, the previous round's estimate above
  the previous round's finalized block (`run_proposals`);
* the primary block comes from a proposal signed by the primary and placed at or above the
  round's base, and the previous round's state from creation or an update (`run_inputs`);
* the round moves only by imports of incoming messages at or above its base and by the
  prevoted and precommitted marks (`run_round`);
* a voter that does not vote sends nothing for the rest of the round (`run_silent`).
-/

namespace FinalityGrandpa

namespace VotingRound

variable {R H E Id Sig : Type} {w : Nat} [DecidableEq H] [DecidableEq Id]
  (ops : RoundOps R H (BitVec w) E Id Sig) (env : EnvAnswers H (BitVec w) E)
  (ev : Event H (BitVec w) E Id Sig)

/-! ## What the calls of a pass do -/

/-- One thing a pass may do to the voter's `Round`: import the pass's incoming prevote or
precommit, whose target `is_equal_or_descendent_of` placed at or above the round's base, or mark
the round prevoted or precommitted. -/
inductive RoundMove : R → R → Prop
  | importPrevote {r r' : R} {m : SignedMessage H (BitVec w) Sig Id} {v : Prevote H (BitVec w)} :
      ev = .incoming (.ok m) → m.message = .prevote v →
      env.isEqualOrDescendentOf (ops.base r).1 v.targetHash = true →
      ops.importPrevote r v m.id m.signature = .ok r' → RoundMove r r'
  | importPrecommit {r r' : R} {m : SignedMessage H (BitVec w) Sig Id}
      {v : Precommit H (BitVec w)} :
      ev = .incoming (.ok m) → m.message = .precommit v →
      env.isEqualOrDescendentOf (ops.base r).1 v.targetHash = true →
      ops.importPrecommit r v m.id m.signature = .ok r' → RoundMove r r'
  | prevoted (r : R) : RoundMove r (ops.setPrevotedIndex r)
  | precommitted (r : R) : RoundMove r (ops.setPrecommittedIndex r)

/-- The pass's incoming message proposes `pb` and `handle_incoming_message` keeps it for the
round `r`: the proposal is signed by the round's primary voter and its target is at or above
the round's base by `is_equal_or_descendent_of`. -/
def ProposalAccepted (r : R) (pb : H × BitVec w) : Prop :=
  ∃ m pp, ev = .incoming (.ok m) ∧ m.message = .primaryPropose pp ∧ m.id = ops.primaryVoter r ∧
    env.isEqualOrDescendentOf (ops.base r).1 pp.targetHash = true ∧
    pb = (pp.targetHash, pp.targetNumber)

/-- What `handle_inputs!` may do to the voter: nothing, one import into the round, keep the
primary's proposal, or take an update of the previous round's state. -/
def InputStep (s s' : VotingRound R H w) : Prop :=
  s' = s ∨ (∃ r, RoundMove ops env ev s.round r ∧ s' = { s with round := r }) ∨
    (∃ pb, ProposalAccepted ops env ev s.round pb ∧ s' = { s with primaryBlock := some pb }) ∨
    ∃ prs, ev = .roundState prs ∧ s' = { s with previousRoundState := prs }

omit [DecidableEq H] in
theorem handleIncomingMessage_step (m : SignedMessage H (BitVec w) Sig Id)
    (s : VotingRound R H w) :
    InputStep ops env (.incoming (.ok m)) s
      (resultState ((handleIncomingMessage ops env m).run s)) := by
  unfold handleIncomingMessage
  simp only [bind_run, get_run, ite_run]
  split
  · exact .inl rfl
  rename_i hbase
  simp only [Bool.not_eq_true', Bool.not_eq_false] at hbase
  rcases hm : m.message with v | v | v <;> simp only [bind_run, pure_run, liftE_run]
  · rcases hi : ops.importPrevote s.round v m.id m.signature with e | r
    · exact .inl rfl
    · exact .inr (.inl ⟨r,
        .importPrevote rfl hm (by simpa [hm, Message.target] using hbase) hi, rfl⟩)
  · rcases hi : ops.importPrecommit s.round v m.id m.signature with e | r
    · exact .inl rfl
    · exact .inr (.inl ⟨r,
        .importPrecommit rfl hm (by simpa [hm, Message.target] using hbase) hi, rfl⟩)
  · split
    · exact .inr (.inr (.inl
        ⟨_, ⟨m, v, rfl, hm, ‹_›, by simpa [hm, Message.target] using hbase, rfl⟩, rfl⟩))
    · exact .inl rfl

omit [DecidableEq H] in
theorem handleInputs_step (t : Timer) (s : VotingRound R H w) :
    InputStep ops env ev s (resultState ((handleInputs ops env t ev).run s)) := by
  cases ev with
  | incoming message =>
    cases message with
    | error e => exact .inl rfl
    | ok m =>
      have := handleIncomingMessage_step ops env m s
      simp only [handleInputs, bind_run, liftE_run]
      revert this
      cases (handleIncomingMessage ops env m).run s <;> exact id
  | roundState prs => exact .inr (.inr (.inr ⟨prs, rfl, rfl⟩))
  | timer | allTerminated => exact .inl rfl

/-- The proposal `pp` as `primary_propose` sends it from `s`: `s` is the primary, and `pp` is the
previous round's estimate, which is above the previous round's finalized block. -/
def ProposeAt (s : VotingRound R H w) (pp : PrimaryPropose H (BitVec w)) : Prop :=
  s.voting = .primary ∧ s.previousRoundState.estimate = some (pp.targetHash, pp.targetNumber) ∧
    ∀ f ∈ s.previousRoundState.finalized, f.2 < pp.targetNumber

omit [DecidableEq H] in
/-- `primary_propose` changes nothing, or sends a proposal as `ProposeAt` says. -/
theorem primaryPropose_step (s : VotingRound R H w) :
    resultState ((primaryPropose env).run s) = s ∨ ∃ pp, ProposeAt s pp ∧
      resultState ((primaryPropose env).run s) =
        { s with outgoing := s.outgoing ++ [.primaryPropose pp] } := by
  unfold primaryPropose
  cases hv : s.voting with
  | no | yes => left; simp [Voting.isPrimary, hv]
  | primary =>
    cases hest : s.previousRoundState.estimate with
    | none => left; simp [Voting.isPrimary, hv, hest]
    | some est =>
      by_cases hsend : (s.previousRoundState.finalized.elim true
          fun finalized => decide (est.2 > finalized.2)) = true
      · refine .inr ⟨⟨est.1, est.2⟩, ⟨hv, hest, fun f hf => ?_⟩, ?_⟩
        · rw [Option.mem_def] at hf
          simpa [hf] using hsend
        · simp only [Voting.isPrimary, hv, hest, hsend, bind_run, get_run, ite_run, pure_run,
            Bool.not_true, if_true, send_run]
          cases env.send _ <;> rfl
      · left
        simp [Voting.isPrimary, hv, hest, hsend]

/-- The prevote `pv` as `prevote` sends it from `s`: `s` votes, and `pv` targets the block
`best_chain_containing` answers for the block `findDescendentOf` picks from the primary block
and the previous round's state of `s`. -/
def PrevoteAt (s : VotingRound R H w) (pv : Prevote H (BitVec w)) : Prop :=
  s.voting.isActive = true ∧ ∃ b,
    findDescendentOf env.ancestry s.primaryBlock s.previousRoundState = some b ∧
    env.bestChainContaining b = .ok (some (pv.targetHash, pv.targetNumber))

omit [DecidableEq Id] in
/-- `prevote` changes nothing, stops voting, or marks the round prevoted and sends a prevote as
`PrevoteAt` says. -/
theorem prevote_step (ready : Bool) (s : VotingRound R H w) :
    resultState ((prevote ops env ready).run s) = s ∨
    resultState ((prevote ops env ready).run s) = { s with voting := .no } ∨
    ∃ pv, PrevoteAt env s pv ∧ resultState ((prevote ops env ready).run s) =
      { s with round := ops.setPrevotedIndex s.round,
               outgoing := s.outgoing ++ [.prevote pv] } := by
  have hc := constructPrevote_run env s
  unfold prevote
  simp only [bind_run, get_run, ite_run, pure_run]
  cases (ready || ops.completable s.round)
  · simp
  cases hact : s.voting.isActive
  · simp
  simp only [if_true, bind_run, hc]
  cases hf : findDescendentOf env.ancestry s.primaryBlock s.previousRoundState with
  | none => exact .inl rfl
  | some h =>
    dsimp only
    rcases hb : env.bestChainContaining h with e | _ | t
    · exact .inl rfl
    · exact .inr (.inl rfl)
    · refine .inr (.inr ⟨⟨t.1, t.2⟩, ⟨hact, h, hf, hb⟩, ?_⟩)
      simp only [bind_run, modify_run, send_run]
      cases env.send _ <;> rfl

omit [DecidableEq Id] in
/-- `precommit` changes nothing, or, for a voter that votes, marks the round precommitted and
sends the precommit `construct_precommit` makes. -/
theorem precommit_step (ready : Bool) (s : VotingRound R H w) :
    resultState ((precommit ops env ready).run s) = s ∨ s.voting.isActive = true ∧
      resultState ((precommit ops env ready).run s) =
        { s with round := ops.setPrecommittedIndex s.round,
                 outgoing := s.outgoing ++ [.precommit (constructPrecommit ops s.round)] } := by
  rcases precommit_cases ops env ready s with ⟨-, h⟩ | ⟨_, _, ⟨-, h⟩ | ⟨-, hact, h | ⟨e, h⟩⟩⟩ <;>
    rw [h]
  exacts [.inl rfl, .inl rfl, .inr ⟨hact, rfl⟩, .inr ⟨hact, rfl⟩]

/-! ## What a pass does -/

/-- A message appended by a pass from `s` that ends in `s'`, as the call that sent it had it: a
proposal from `Start`, a prevote from `Start` or `Proposed` for the block `best_chain_containing`
answered for the block `findDescendentOf` picks from what the pass left of the primary block and
the previous round's state, a precommit from `Prevoted`; only from a voter that votes. -/
def SentBy (s s' : VotingRound R H w) : Message H (BitVec w) → Prop
  | .primaryPropose pp => (∃ p c, s.state = .start p c) ∧ ProposeAt s pp
  | .prevote pv => (∃ p c, s.state = .start p c ∨ s.state = .proposed p c) ∧
      s.voting.isActive = true ∧ ∃ b,
        findDescendentOf env.ancestry s'.primaryBlock s'.previousRoundState = some b ∧
        env.bestChainContaining b = .ok (some (pv.targetHash, pv.targetNumber))
  | .precommit _ => (∃ c, s.state = .prevoted c) ∧ s.voting.isActive = true

/-- What a pass from `s` has done by the time it reaches `s'`: moved the round by imports of its
input and the prevoted and precommitted marks, left the voting flag or stopped voting, taken the
primary block only from the primary's accepted proposal and the previous round's state only from
an update, and sent messages as `SentBy` says. -/
structure PassEffect (s s' : VotingRound R H w) : Prop where
  round : Relation.ReflTransGen (RoundMove ops env ev) s.round s'.round
  voting : s'.voting = s.voting ∨ s'.voting = .no
  primaryBlock : s'.primaryBlock = s.primaryBlock ∨
    ∃ pb, s'.primaryBlock = some pb ∧ ProposalAccepted ops env ev s.round pb
  previousRoundState : s'.previousRoundState = s.previousRoundState ∨
    ev = .roundState s'.previousRoundState
  sent : Appends (SentBy env s s') s s'

/-- The voter a pass from `s` has before `handle_inputs!`: `s` with the proposal sent, if any. -/
def BeforeInput (s t : VotingRound R H w) : Prop :=
  { t with outgoing := s.outgoing, state := s.state } = s ∧
    Appends (fun m => ∃ pp, m = .primaryPropose pp ∧ SentBy env s t m) s t

section PassEffect

variable {ops env ev} {s t : VotingRound R H w}

omit [DecidableEq Id] in
theorem SentBy.of_fields {t' : VotingRound R H w} {m : Message H (BitVec w)}
    (hpb : t'.primaryBlock = t.primaryBlock) (hprs : t'.previousRoundState = t.previousRoundState)
    (h : SentBy env s t m) : SentBy env s t' m := by
  cases m with
  | prevote pv => rw [SentBy, hpb, hprs]; exact h
  | _ => exact h

omit [DecidableEq Id] in
theorem beforeInput_poisoned (env : EnvAnswers H (BitVec w) E) :
    BeforeInput env s { s with state := .poisoned } :=
  ⟨rfl, .of_outgoing_eq rfl⟩

omit [DecidableEq Id] in
theorem beforeInput_primaryPropose (env : EnvAnswers H (BitVec w) E) {p c : Timer}
    (hst : s.state = .start p c) :
    BeforeInput env s (resultState ((primaryPropose env).run { s with state := .poisoned })) := by
  rcases primaryPropose_step env { s with state := .poisoned } with h | ⟨pp, hpp, h⟩ <;> rw [h]
  · exact beforeInput_poisoned env
  · exact ⟨rfl, [_], rfl, by simpa using ⟨⟨p, c, hst⟩, hpp⟩⟩

omit [DecidableEq Id] in
/-- From before `handle_inputs!`, one step of it gives a `PassEffect`. -/
theorem BeforeInput.passEffect {t' : VotingRound R H w} (hB : BeforeInput env s t)
    (hstep : InputStep ops env ev t t') : PassEffect ops env ev s t' := by
  obtain ⟨hframe, l, hl, hP⟩ := hB
  have hr : t.round = s.round := (congrArg VotingRound.round hframe :)
  have hv : t.voting = s.voting := (congrArg VotingRound.voting hframe :)
  have hpb : t.primaryBlock = s.primaryBlock := (congrArg VotingRound.primaryBlock hframe :)
  have hprs : t.previousRoundState = s.previousRoundState :=
    (congrArg VotingRound.previousRoundState hframe :)
  have hsent : ∀ t'' : VotingRound R H w, t''.outgoing = t.outgoing →
      Appends (SentBy env s t'') s t'' := fun t'' ho =>
    ⟨l, ho.trans hl, fun m hm => by obtain ⟨pp, rfl, h⟩ := hP m hm; exact h⟩
  rcases hstep with rfl | ⟨r, hmv, rfl⟩ | ⟨pb, hacc, rfl⟩ | ⟨prs, hev, rfl⟩
  · exact ⟨by rw [hr], .inl hv, .inl hpb, .inl hprs, hsent _ rfl⟩
  · exact ⟨.single (hr ▸ hmv), .inl hv, .inl hpb, .inl hprs, hsent _ rfl⟩
  · exact ⟨by rw [hr], .inl hv, .inr ⟨pb, rfl, hr ▸ hacc⟩, .inl hprs, hsent _ rfl⟩
  · exact ⟨by rw [hr], .inl hv, .inl hpb, .inr hev, hsent _ rfl⟩

omit [DecidableEq Id] in
theorem PassEffect.setState (he : PassEffect ops env ev s t) (st : State) :
    PassEffect ops env ev s { t with state := st } :=
  ⟨he.round, he.voting, he.primaryBlock, he.previousRoundState,
    he.sent.mono fun _ => SentBy.of_fields rfl rfl⟩

omit [DecidableEq Id] in
theorem PassEffect.prevote (he : PassEffect ops env ev s t)
    (hst : ∃ p c, s.state = .start p c ∨ s.state = .proposed p c) (ready : Bool) :
    PassEffect ops env ev s (resultState ((prevote ops env ready).run t)) := by
  rcases prevote_step ops env ready t with h | h | ⟨pv, ⟨hact, b, hb, hbest⟩, h⟩ <;> rw [h]
  · exact he
  · exact ⟨he.round, .inr rfl, he.primaryBlock, he.previousRoundState,
      he.sent.mono fun _ => SentBy.of_fields rfl rfl⟩
  · have hact' : s.voting.isActive = true := by
      rcases he.voting with hv | hv <;> rw [hv] at hact
      exacts [hact, nomatch hact]
    exact ⟨he.round.tail (.prevoted _), he.voting, he.primaryBlock, he.previousRoundState,
      (he.sent.mono fun _ => SentBy.of_fields rfl rfl).trans
        ⟨[_], rfl, by simpa [SentBy] using ⟨hst, hact', b, hb, hbest⟩⟩⟩

omit [DecidableEq Id] in
theorem PassEffect.precommit (he : PassEffect ops env ev s t) (hst : ∃ c, s.state = .prevoted c)
    (ready : Bool) : PassEffect ops env ev s (resultState ((precommit ops env ready).run t)) := by
  rcases precommit_step ops env ready t with h | ⟨hact, h⟩ <;> rw [h]
  · exact he
  · have hact' : s.voting.isActive = true := by
      rcases he.voting with hv | hv <;> rw [hv] at hact
      exacts [hact, nomatch hact]
    exact ⟨he.round.tail (.precommitted _), he.voting, he.primaryBlock, he.previousRoundState,
      (he.sent.mono fun _ => SentBy.of_fields rfl rfl).trans
        ⟨[_], rfl, by simpa [SentBy] using ⟨hst, hact'⟩⟩⟩

/-- `handle_inputs!`, then a call that keeps a `PassEffect`, then the next state written back:
the rest of a pass out of `Start`, `Proposed` or `Prevoted`. -/
theorem BeforeInput.passEffect_call (hB : BeforeInput env s t) (timer : Timer)
    (call : Bool → VoterM R H E w Bool)
    (hcall : ∀ ready t', PassEffect ops env ev s t' →
      PassEffect ops env ev s (resultState ((call ready).run t')))
    (next : Bool → Timer → State) :
    PassEffect ops env ev s (resultState (match (handleInputs ops env timer ev).run t with
      | .error e s₂ => .error e s₂
      | .ok (ready, timer') s₂ =>
        match (call ready).run s₂ with
        | .error e s₃ => .error e s₃
        | .ok b s₃ => .ok false { s₃ with state := next b timer' })) := by
  have h₂ := hB.passEffect (handleInputs_step ops env ev timer t)
  rcases hr₂ : (handleInputs ops env timer ev).run t with ⟨⟨ready, timer'⟩, s₂⟩ | ⟨e, s₂⟩ <;>
    rw [hr₂] at h₂ <;> dsimp only
  · have h₃ := hcall ready s₂ h₂
    rcases hr₃ : (call ready).run s₂ with ⟨b, s₃⟩ | ⟨e, s₃⟩ <;> rw [hr₃] at h₃ <;> dsimp only
    exacts [h₃.setState _, h₃]
  · exact h₂

end PassEffect

/-- Every pass, whether it stays in the loop, breaks out of it or stops, is a `PassEffect`. -/
theorem iterate_effect (s : VotingRound R H w) :
    PassEffect ops env ev s (resultState ((iterate ops env ev).run s)) := by
  cases hst : s.state with
  | start p c =>
    rw [iterate_start ops env ev hst]
    have hB := beforeInput_primaryPropose env hst
    rcases h₁ : (primaryPropose env).run { s with state := .poisoned } with
      ⟨proposed, s₁⟩ | ⟨e, s₁⟩ <;> rw [h₁] at hB <;> dsimp only
    · exact hB.passEffect_call p (prevote ops env)
        (fun ready _ h => h.prevote ⟨p, c, .inl hst⟩ ready) _
    · exact hB.passEffect (.inl rfl)
  | proposed p c =>
    rw [iterate_proposed ops env ev hst]
    exact (beforeInput_poisoned env).passEffect_call p (prevote ops env)
      (fun ready _ h => h.prevote ⟨p, c, .inr hst⟩ ready) _
  | prevoted c =>
    rw [iterate_prevoted ops env ev hst]
    exact (beforeInput_poisoned env).passEffect_call c (precommit ops env)
      (fun ready _ h => h.precommit ⟨c, hst⟩ ready) _
  | precommitted =>
    rw [iterate_precommitted ops env ev hst]
    have h₂ := (beforeInput_poisoned env).passEffect
      (handleInputs_step ops env ev { terminated := true } { s with state := .poisoned })
    rcases hr₂ : (handleInputs ops env { terminated := true } ev).run
        { s with state := .poisoned } with ⟨r, s₂⟩ | ⟨e, s₂⟩ <;> rw [hr₂] at h₂ <;> dsimp only
    · split
      exacts [h₂, h₂.setState _]
    · exact h₂
  | poisoned =>
    rw [iterate_poisoned ops env ev hst]
    exact (beforeInput_poisoned env).passEffect (.inl rfl)

/-! ## Whole runs -/

omit [DecidableEq Id] in
/-- Only a voter that votes sends. -/
theorem SentBy.voting_isActive {s s' : VotingRound R H w} {m : Message H (BitVec w)}
    (h : SentBy env s s' m) : s.voting.isActive = true := by
  cases m with
  | primaryPropose pp => rw [h.2.1]; rfl
  | prevote pv => exact h.2.1
  | precommit pc => exact h.2

/-- Every message a run sends was there at its start or is `SentBy` the pass that sent it. -/
theorem run_sentBy {inputs : List (EnvAnswers H (BitVec w) E × Event H (BitVec w) E Id Sig)}
    {vr : VotingRound R H w} {o : Outcome R H E w} (h : run ops inputs vr = some o) :
    ∀ m ∈ o.voter.outgoing, m ∈ vr.outgoing ∨ ∃ pre x s, pre ++ [x] <+: inputs ∧
      run ops pre vr = some (.running s) ∧ x.2.Enabled s.state.timer = true ∧
      SentBy x.1 s (resultState ((iterate ops x.1 x.2).run s)) m :=
  run_sent ops _ (fun vr env ev => (iterate_effect ops env ev vr).sent) h

/-- Over every run, the voting flag stays what it was or turns `No`. -/
theorem run_voting {inputs : List (EnvAnswers H (BitVec w) E × Event H (BitVec w) E Id Sig)}
    {vr : VotingRound R H w} {o : Outcome R H E w} (h : run ops inputs vr = some o) :
    o.voter.voting = vr.voting ∨ o.voter.voting = .no :=
  run_invariant ops (fun o => o.voter.voting = vr.voting ∨ o.voter.voting = .no)
    (fun x _ v hq _ => by
      simp only [Outcome.voter_ofPass]
      rcases (iterate_effect ops x.1 x.2 v).voting with hv | hv <;> rw [hv]
      exacts [hq, .inr rfl]) (.inl rfl) h

omit [DecidableEq H] in
theorem new_voting_primary {round : R} {voterId : Option Id} {prs : RoundState H (BitVec w)}
    (h : (new ops round voterId prs).voting = .primary) :
    voterId = some (ops.primaryVoter round) := by
  simp only [new] at h
  split_ifs at h with h₁
  exact h₁

/-- Every prevote a new voter has sent targets the block `best_chain_containing` answered, in
the pass that sent it, for the block `findDescendentOf` picks from the primary block and the
previous round's state the voter holds after that pass. -/
theorem run_prevotes (round : R) (voterId : Option Id) (prs : RoundState H (BitVec w))
    (inputs : List (EnvAnswers H (BitVec w) E × Event H (BitVec w) E Id Sig)) :
    ∀ o, run ops inputs (new ops round voterId prs) = some o →
    ∀ pv, .prevote pv ∈ o.voter.outgoing → ∃ pre x o', pre ++ [x] <+: inputs ∧
      run ops (pre ++ [x]) (new ops round voterId prs) = some o' ∧ ∃ b,
        findDescendentOf x.1.ancestry o'.voter.primaryBlock o'.voter.previousRoundState = some b ∧
        x.1.bestChainContaining b = .ok (some (pv.targetHash, pv.targetNumber)) := by
  intro o h pv hpv
  rcases run_sentBy ops h _ hpv with
    hm | ⟨pre, x, s, hpre, hrun, hen, -, -, b, hb, hbest⟩
  · exact absurd hm (List.not_mem_nil _)
  · exact ⟨pre, x, _, hpre, run_snoc ops hrun hen, b, by rwa [Outcome.voter_ofPass], hbest⟩

theorem run_prevotes_completed :
    run (lastPrevote true) completingInputs (new (lastPrevote true) none (some 2) estimateOne) =
      some (.ok completedVoter) ∧ .prevote ⟨1, 1⟩ ∈ completedVoter.outgoing ∧
    ∃ pre x o', pre ++ [x] <+: completingInputs ∧
      run (lastPrevote true) (pre ++ [x]) (new (lastPrevote true) none (some 2) estimateOne) =
        some o' ∧ ∃ b, findDescendentOf x.1.ancestry o'.voter.primaryBlock
          o'.voter.previousRoundState = some b ∧ x.1.bestChainContaining b = .ok (some (1, 1)) :=
  ⟨by rfl, by simp [completedVoter], run_prevotes (lastPrevote true) none (some 2) estimateOne
    completingInputs (.ok completedVoter) (by rfl) ⟨1, 1⟩ (by simp [Outcome.voter, completedVoter])⟩

/-- Only the round's primary voter sends a proposal, on a pass from `Start`, and the proposal is
the previous round's estimate the voter held then, above the previous round's finalized
block. -/
theorem run_proposals (round : R) (voterId : Option Id) (prs : RoundState H (BitVec w))
    (inputs : List (EnvAnswers H (BitVec w) E × Event H (BitVec w) E Id Sig)) :
    ∀ o, run ops inputs (new ops round voterId prs) = some o →
    ∀ pp, .primaryPropose pp ∈ o.voter.outgoing → voterId = some (ops.primaryVoter round) ∧
      ∃ pre x s, pre ++ [x] <+: inputs ∧
        run ops pre (new ops round voterId prs) = some (.running s) ∧
        (∃ p c, s.state = .start p c) ∧
        s.previousRoundState.estimate = some (pp.targetHash, pp.targetNumber) ∧
        ∀ f ∈ s.previousRoundState.finalized, f.2 < pp.targetNumber := by
  intro o h pp hpp
  rcases run_sentBy ops h _ hpp with
    hm | ⟨pre, x, s, hpre, hrun, -, hst, hprim, hest, hfin⟩
  · exact absurd hm (List.not_mem_nil _)
  have hv₀ : (new ops round voterId prs).voting = .primary := by
    rcases run_voting ops hrun with hv | hv <;> rw [Outcome.voter_running, hprim] at hv
    exacts [hv.symm, nomatch hv]
  exact ⟨new_voting_primary ops hv₀, pre, x, s, hpre, hrun, hst, hest, hfin⟩

/-- The previous round's state of a primary whose estimate, block `2`, is above the finalized
block `1`. -/
def estimateTwo : RoundState Nat (BitVec 8) := { estimateOne with estimate := some (2, 2) }

/-- Voter `0`, the primary of `lastPrevote true`, after `completingInputs` from `estimateTwo`: it
proposed block `2`, prevoted for it and precommitted block `1`. -/
def proposedVoter : VotingRound (Option (Nat × BitVec 8)) Nat 8 :=
  { completedVoter with
    voting := .primary,
    outgoing := [.primaryPropose ⟨2, 2⟩, .prevote ⟨2, 1⟩, .precommit ⟨1, 1⟩] }

theorem run_proposals_primary :
    run (lastPrevote true) completingInputs (new (lastPrevote true) none (some 0) estimateTwo) =
      some (.ok proposedVoter) ∧ .primaryPropose ⟨2, 2⟩ ∈ proposedVoter.outgoing ∧
    some 0 = some ((lastPrevote true).primaryVoter none) ∧ ∃ pre x s, pre ++ [x] <+: completingInputs ∧
      run (lastPrevote true) pre (new (lastPrevote true) none (some 0) estimateTwo) =
        some (.running s) ∧ (∃ p c, s.state = .start p c) ∧
      s.previousRoundState.estimate = some (2, 2) ∧ ∀ f ∈ s.previousRoundState.finalized, f.2 < 2 :=
  ⟨by rfl, by simp [proposedVoter], run_proposals (lastPrevote true) none (some 0) estimateTwo
    completingInputs (.ok proposedVoter) (by rfl) ⟨2, 2⟩ (by simp [Outcome.voter, proposedVoter])⟩

/-- What a new voter acts on comes from its inputs: a primary block is the target of an incoming
proposal signed by the round's primary voter and placed at or above the round's base, and the
previous round's state is the one it was created with or the last update it took. -/
theorem run_inputs (round : R) (voterId : Option Id) (prs : RoundState H (BitVec w))
    (inputs : List (EnvAnswers H (BitVec w) E × Event H (BitVec w) E Id Sig)) :
    ∀ o, run ops inputs (new ops round voterId prs) = some o →
    (∀ pb, o.voter.primaryBlock = some pb → ∃ pre x s, pre ++ [x] <+: inputs ∧
      run ops pre (new ops round voterId prs) = some (.running s) ∧
      ProposalAccepted ops x.1 x.2 s.round pb) ∧
    (o.voter.previousRoundState = prs ∨
      ∃ pre env, pre ++ [(env, .roundState o.voter.previousRoundState)] <+: inputs) := by
  intro o h
  refine ⟨fun pb hpb => ?_, ?_⟩
  · rcases run_field ops VotingRound.primaryBlock
      (fun vr env ev v => ∃ pb, v = some pb ∧ ProposalAccepted ops env ev vr.round pb)
      (fun vr env ev => (iterate_effect ops env ev vr).primaryBlock) h with
      h' | ⟨pre, x, s, hpre, hrun, -, pb', hpb', hacc⟩
    · simp [new, hpb] at h'
    · rw [hpb, Option.some.injEq] at hpb'
      exact ⟨pre, x, s, hpre, hrun, hpb' ▸ hacc⟩
  · rcases run_field ops VotingRound.previousRoundState (fun _ _ ev v => ev = .roundState v)
      (fun vr env ev => (iterate_effect ops env ev vr).previousRoundState) h with
      h' | ⟨pre, ⟨env, ev⟩, s, hpre, -, -, rfl⟩
    exacts [.inl h', .inr ⟨pre, env, hpre⟩]

/-- A proposal of block `1` signed by voter `0`, the primary of `lastPrevote`. -/
def proposeOne : SignedMessage Nat (BitVec 8) Unit Nat :=
  { message := .primaryPropose { targetHash := 1, targetNumber := 1 }, signature := (), id := 0 }

/-- One pass, which takes `proposeOne`. -/
def proposalInputs :
    List (EnvAnswers Nat (BitVec 8) Unit × Event Nat (BitVec 8) Unit Nat Unit) :=
  [(tipAnswers, .incoming (.ok proposeOne))]

/-- Voter `2` of `lastPrevote true` after `proposalInputs`: the round is completable, so it
prevoted, for the proposed block. -/
def primedVoter : VotingRound (Option (Nat × BitVec 8)) Nat 8 :=
  { firedVoter with state := .prevoted { terminated := false }, primaryBlock := some (1, 1) }

theorem run_inputs_proposal :
    run (lastPrevote true) proposalInputs (new (lastPrevote true) none (some 2) estimateOne) =
      some (.running primedVoter) ∧
    (∀ pb, primedVoter.primaryBlock = some pb → ∃ pre x s, pre ++ [x] <+: proposalInputs ∧
      run (lastPrevote true) pre (new (lastPrevote true) none (some 2) estimateOne) =
        some (.running s) ∧ ProposalAccepted (lastPrevote true) x.1 x.2 s.round pb) ∧
    (primedVoter.previousRoundState = estimateOne ∨
      ∃ pre env, pre ++ [(env, .roundState primedVoter.previousRoundState)] <+: proposalInputs) :=
  ⟨by rfl, run_inputs (lastPrevote true) none (some 2) estimateOne proposalInputs
    (.running primedVoter) (by rfl)⟩

/-- The voter changes its `Round` only by the calls of `RoundMove`: over every run, the round it
ends with is reached from the one it started with by imports of incoming messages at or above
the round's base, and the prevoted and precommitted marks. -/
theorem run_round {inputs : List (EnvAnswers H (BitVec w) E × Event H (BitVec w) E Id Sig)}
    {vr : VotingRound R H w} {o : Outcome R H E w} (h : run ops inputs vr = some o) :
    Relation.ReflTransGen (fun r r' => ∃ x ∈ inputs, RoundMove ops x.1 x.2 r r')
      vr.round o.voter.round :=
  run_invariant ops (fun o => Relation.ReflTransGen _ vr.round o.voter.round)
    (fun x hx v hq _ => by
      simp only [Outcome.voter_ofPass]
      exact hq.trans ((iterate_effect ops x.1 x.2 v).round.mono fun _ _ hm => ⟨x, hx, hm⟩))
    .refl h

theorem run_round_completed :
    run (lastPrevote true) completingInputs (new (lastPrevote true) none (some 2) estimateOne) =
      some (.ok completedVoter) ∧
    Relation.ReflTransGen
      (fun r r' => ∃ x ∈ completingInputs, RoundMove (lastPrevote true) x.1 x.2 r r')
      none (some (1, 1)) := by
  have h : run (lastPrevote true) completingInputs
      (new (lastPrevote true) none (some 2) estimateOne) = some (.ok completedVoter) := by rfl
  exact ⟨h, run_round (lastPrevote true) h⟩

/-- A voter that does not vote, from creation or since `best_chain_containing` answered `None`,
sends nothing for the rest of the round, whatever its inputs. -/
theorem run_silent {inputs : List (EnvAnswers H (BitVec w) E × Event H (BitVec w) E Id Sig)}
    {vr : VotingRound R H w} {o : Outcome R H E w} (hv : vr.voting = .no)
    (h : run ops inputs vr = some o) : o.voter.outgoing = vr.outgoing ∧ o.voter.voting = .no :=
  run_invariant ops (fun o => o.voter.outgoing = vr.outgoing ∧ o.voter.voting = .no)
    (fun x _ v hq _ => by
      obtain ⟨hout, hno⟩ : v.outgoing = vr.outgoing ∧ v.voting = .no := hq
      have he := iterate_effect ops x.1 x.2 v
      obtain ⟨l, hl, hP⟩ := he.sent
      have hnil : l = [] := List.eq_nil_iff_forall_not_mem.2 fun m hm => by
        simpa [hno, Voting.isActive] using (hP m hm).voting_isActive
      simp only [Outcome.voter_ofPass]
      exact ⟨by rw [hl, hnil, List.append_nil, hout], he.voting.elim (·.trans hno) id⟩)
    ⟨rfl, hv⟩ h

/-- Nobody with no id in the round votes: voter `none` of `lastPrevote true` goes through the
round and sends nothing. -/
theorem run_silent_nonvoter :
    (new (lastPrevote true) none none estimateOne).voting = .no ∧
    run (lastPrevote true) completingInputs (new (lastPrevote true) none none estimateOne) =
      some (.ok { completedVoter with voting := .no, outgoing := [] }) ∧
    ([] : List (Message Nat (BitVec 8))) = (new (lastPrevote true) none none estimateOne).outgoing ∧
    Voting.no = .no := by
  have h : run (lastPrevote true) completingInputs (new (lastPrevote true) none none estimateOne) =
      some (.ok { completedVoter with voting := .no, outgoing := [] }) := by rfl
  exact ⟨rfl, h, run_silent (lastPrevote true) rfl h⟩

end VotingRound

end FinalityGrandpa

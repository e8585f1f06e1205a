import FinalityGrandpa.Voter.Phases

/-!
# What a voter sends

The kinds of message a voter has sent are a function of its state, its voting flag and whether
it sent the primary's proposal (`sentKinds`). `SendInv` says so, with the voting flag the one the
voter was created with or `No`; every pass keeps it (`SendInv.pass`), so that over every run the
messages sent are a sublist of `[PrimaryPropose, Prevote, Precommit]`, the proposal only from the
primary and a precommit only after a prevote (`run_sends`). A voter that votes, whose run
returns `Ok` and to which `best_chain_containing` did not answer `None` for the block the pass
into `Prevoted` asked for, sent exactly one prevote and one precommit.
-/

namespace FinalityGrandpa

namespace VotingRound

variable {R H E Id Sig : Type} {w : Nat} [DecidableEq H] [DecidableEq Id]
  (ops : RoundOps R H (BitVec w) E Id Sig) (env : EnvAnswers H (BitVec w) E)

/-! ## What a run sends -/

/-- The kinds of message a voter has sent in `state` with voting flag `voting`, given whether it
sent the primary's proposal. -/
def sentKinds (primary : Bool) (voting : Voting) : State → List MessageKind
  | .start _ _ => []
  | .proposed _ _ => [.primaryPropose]
  | .prevoted _ => (if primary then [.primaryPropose] else []) ++
      if voting.isActive then [.prevote] else []
  | .precommitted | .poisoned => (if primary then [.primaryPropose] else []) ++
      if voting.isActive then [.prevote, .precommit] else []

/-- What holds of the messages a voter created with voting flag `v₀` has sent, wherever its run
stands: one of each kind at most, in the order of the phases, the proposal only from the
primary, and a precommit only after a prevote. -/
def SentOk (v₀ : Voting) (s : VotingRound R H w) : Prop :=
  (kinds s).Sublist [.primaryPropose, .prevote, .precommit] ∧
    (.primaryPropose ∈ kinds s → v₀ = .primary) ∧ (.precommit ∈ kinds s → .prevote ∈ kinds s)

omit [DecidableEq H] in
theorem sentOk_of_sentKinds {v₀ : Voting} {s : VotingRound R H w} {b : Bool} {v : Voting}
    {st : State} (hk : kinds s = sentKinds b v st)
    (hp : .primaryPropose ∈ kinds s → v₀ = .primary) : SentOk v₀ s := by
  refine ⟨?_, hp, ?_⟩ <;> rw [hk] <;> cases st <;> cases b <;> cases v <;>
    simp only [sentKinds, Voting.isActive, if_true, if_false, Bool.false_eq_true] <;> decide

/-- What a run from a voter created with voting flag `v₀` keeps at the top of every pass. -/
structure SendInv (v₀ : Voting) (s : VotingRound R H w) : Prop where
  notPoisoned : s.state ≠ .poisoned
  voting : s.voting = v₀ ∨ s.voting = .no
  primary : .primaryPropose ∈ kinds s → v₀ = .primary
  sent : ∃ b, kinds s = sentKinds b s.voting s.state

omit [DecidableEq H] in
theorem SendInv.sentOk {v₀ : Voting} {s : VotingRound R H w} (hs : SendInv v₀ s) :
    SentOk v₀ s :=
  let ⟨_, hb⟩ := hs.sent
  sentOk_of_sentKinds hb hs.primary

omit [DecidableEq H] in
theorem sendInv_new (round : R) (voterId : Option Id) (prs : RoundState H (BitVec w)) :
    SendInv (new ops round voterId prs).voting (new ops round voterId prs) :=
  ⟨nofun, .inl rfl, by simp [kinds, new], ⟨false, rfl⟩⟩

/-- What a pass from a voter keeping `SendInv v₀` ends in. -/
def PassSends (v₀ : Voting) (s : VotingRound R H w) :
    EStateM.Result (Exit E) (VotingRound R H w) Bool → Prop
  | .ok false s' => SendInv v₀ s'
  | .ok true s' => s.state = .precommitted ∧ kinds s' = kinds s ∧ s'.voting = s.voting
  | .error _ s' => SentOk v₀ s'

section Pass

variable {v₀ : Voting} {s : VotingRound R H w} (hs : SendInv v₀ s)
  (ev : Event H (BitVec w) E Id Sig)
include hs

theorem SendInv.pass_start {p c : Timer} (hst : s.state = .start p c) :
    PassSends v₀ s ((iterate ops env ev).run s) := by
  have hk : kinds s = [] := by obtain ⟨b, hb⟩ := hs.sent; rwa [hst] at hb
  have hprim : s.voting = .primary → v₀ = .primary := fun h => by
    rcases hs.voting with h' | h' <;> rw [h'] at h
    exacts [h, nomatch h]
  rw [iterate_start ops env ev hst]
  cases h₁ : (primaryPropose env).run { s with state := .poisoned } with
  | error e s₁ =>
    obtain ⟨-, -, hk₁, hp, -⟩ := primaryPropose_error env h₁
    have hk₁' : kinds s₁ = kinds s ++ [.primaryPropose] := hk₁
    rw [hk] at hk₁'
    exact sentOk_of_sentKinds (hk₁'.trans (rfl : _ = sentKinds false .no (.proposed p c)))
      fun _ => hprim hp
  | ok proposed s₁ =>
    dsimp only
    obtain ⟨hv₁, -, hk₁, hp⟩ := primaryPropose_ok env h₁
    replace hk₁ : kinds s₁ = kinds s ++ if proposed then [.primaryPropose] else [] := hk₁
    rw [hk, List.nil_append] at hk₁
    have hk₁' : kinds s₁ = sentKinds false .no (if proposed then .proposed p c else .start p c) := by
      rw [hk₁]; cases proposed <;> rfl
    have hpp : .primaryPropose ∈ kinds s₁ → v₀ = .primary := fun h => by
      cases proposed
      · simp [hk₁] at h
      · exact hprim (hp rfl)
    have hk₂ := handleInputs_keeps ops env p ev s₁
    cases h₂ : (handleInputs ops env p ev).run s₁ with
    | error e s₂ =>
      rw [h₂, resultState_error] at hk₂
      exact sentOk_of_sentKinds (hk₂.kinds_eq.trans hk₁') (hk₂.kinds_eq ▸ hpp)
    | ok r s₂ =>
      obtain ⟨ready, p'⟩ := r
      dsimp only
      rw [h₂, resultState_ok] at hk₂
      have hpp₂ := hk₂.kinds_eq ▸ hpp
      rw [← hk₂.kinds_eq] at hk₁ hk₁'
      cases h₃ : (prevote ops env ready).run s₂ with
      | error e s₃ =>
        obtain ⟨-, hv₃, hk₃, -⟩ := prevote_error ops env h₃
        rcases hk₃ with hk₃ | ⟨hk₃, hact⟩
        · exact sentOk_of_sentKinds (hk₃.trans hk₁') (hk₃ ▸ hpp₂)
        · refine sentOk_of_sentKinds
            (show kinds s₃ = sentKinds proposed .yes (.prevoted c) by
              rw [hk₃, hk₁]; cases proposed <;> rfl) ?_
          rw [hk₃]; simpa using hpp₂
      | ok prevoted s₃ =>
        dsimp only
        obtain ⟨-, -, hk₃, hv₃⟩ := prevote_ok ops env h₃
        have hvoting : s₃.voting = v₀ ∨ s₃.voting = .no := by
          rcases hv₃ with hv₃ | ⟨-, hv₃, -⟩
          · rw [hv₃, hk₂.2.1, hv₁]; exact hs.voting
          · exact .inr hv₃
        refine ⟨by cases prevoted <;> cases proposed <;> simp, hvoting, ?_, ?_⟩
        · change .primaryPropose ∈ kinds s₃ → _
          rw [hk₃, hk₁]
          cases proposed
          · cases prevoted <;> cases s₃.voting.isActive <;> simp
          · intro; exact hprim (hp rfl)
        · change ∃ b, kinds s₃ = _
          cases prevoted
          · exact ⟨false, by rw [hk₃, hk₁']; cases proposed <;> rfl⟩
          · exact ⟨proposed, by rw [hk₃, hk₁]; cases proposed <;> rfl⟩

theorem SendInv.pass_proposed {p c : Timer} (hst : s.state = .proposed p c) :
    PassSends v₀ s ((iterate ops env ev).run s) := by
  have hk : kinds s = [.primaryPropose] := by obtain ⟨b, hb⟩ := hs.sent; rwa [hst] at hb
  have hv₀ : v₀ = .primary := hs.primary (by simp [hk])
  rw [iterate_proposed ops env ev hst]
  have hk₂ := handleInputs_keeps ops env p ev { s with state := .poisoned }
  cases h₂ : (handleInputs ops env p ev).run { s with state := .poisoned } with
  | error e s₂ =>
    rw [h₂, resultState_error] at hk₂
    exact sentOk_of_sentKinds (show kinds s₂ = sentKinds false .no (.proposed p c) from
      hk₂.kinds_eq.trans hk) fun _ => hv₀
  | ok r s₂ =>
    obtain ⟨ready, p'⟩ := r
    dsimp only
    rw [h₂, resultState_ok] at hk₂
    have hk₂' : kinds s₂ = [.primaryPropose] := hk₂.kinds_eq.trans hk
    cases h₃ : (prevote ops env ready).run s₂ with
    | error e s₃ =>
      obtain ⟨-, -, hk₃, -⟩ := prevote_error ops env h₃
      rcases hk₃ with hk₃ | ⟨hk₃, -⟩
      · exact sentOk_of_sentKinds (show kinds s₃ = sentKinds false .no (.proposed p c) from
          hk₃.trans hk₂') fun _ => hv₀
      · exact sentOk_of_sentKinds (show kinds s₃ = sentKinds true .yes (.prevoted c) by
          rw [hk₃, hk₂']; rfl) fun _ => hv₀
    | ok prevoted s₃ =>
      dsimp only
      obtain ⟨-, -, hk₃, hv₃⟩ := prevote_ok ops env h₃
      refine ⟨by cases prevoted <;> simp, ?_, fun _ => hv₀, ?_⟩
      · rcases hv₃ with hv₃ | ⟨-, hv₃, -⟩
        · rw [hv₃, hk₂.2.1]; exact hs.voting
        · exact .inr hv₃
      · change ∃ b, kinds s₃ = _
        rw [hk₃, hk₂']
        cases prevoted
        · exact ⟨false, rfl⟩
        · exact ⟨true, rfl⟩

theorem SendInv.pass_prevoted {c : Timer} (hst : s.state = .prevoted c) :
    PassSends v₀ s ((iterate ops env ev).run s) := by
  obtain ⟨b, hb⟩ := hs.sent
  rw [hst] at hb
  rw [iterate_prevoted ops env ev hst]
  have hk₂ := handleInputs_keeps ops env c ev { s with state := .poisoned }
  cases h₂ : (handleInputs ops env c ev).run { s with state := .poisoned } with
  | error e s₂ =>
    rw [h₂, resultState_error] at hk₂
    exact sentOk_of_sentKinds (hk₂.kinds_eq.trans hb) (hk₂.kinds_eq ▸ hs.primary)
  | ok r s₂ =>
    obtain ⟨ready, c'⟩ := r
    dsimp only
    rw [h₂, resultState_ok] at hk₂
    have hk₂' : kinds s₂ = sentKinds b s₂.voting (.prevoted c) := by
      rw [hk₂.kinds_eq, hk₂.2.1]; exact hb
    have hpp₂ : .primaryPropose ∈ kinds s₂ → v₀ = .primary := hk₂.kinds_eq ▸ hs.primary
    cases h₃ : (precommit ops env ready).run s₂ with
    | error e s₃ =>
      obtain ⟨-, -, hk₃, -⟩ := precommit_error ops env h₃
      rcases hk₃ with hk₃ | ⟨hk₃, hact⟩
      · exact sentOk_of_sentKinds (hk₃.trans hk₂') (hk₃ ▸ hpp₂)
      · refine sentOk_of_sentKinds (show kinds s₃ = sentKinds b s₂.voting .precommitted by
          rw [hk₃, hk₂']; simp [sentKinds, hact]) ?_
        rw [hk₃]; simpa using hpp₂
    | ok precommitted s₃ =>
      dsimp only
      obtain ⟨-, hv₃, hk₃, -⟩ := precommit_ok ops env h₃
      refine ⟨by cases precommitted <;> simp, by rw [hv₃, hk₂.2.1]; exact hs.voting, ?_, ⟨b, ?_⟩⟩
      · change .primaryPropose ∈ kinds s₃ → _
        rw [hk₃]; simpa using hpp₂
      · change kinds s₃ = _
        rw [hk₃, hk₂', hv₃]
        cases precommitted <;> cases hact : s₂.voting.isActive <;> simp [sentKinds, hact]

theorem SendInv.pass_precommitted (hst : s.state = .precommitted) :
    PassSends v₀ s ((iterate ops env ev).run s) := by
  obtain ⟨b, hb⟩ := hs.sent
  rw [hst] at hb
  rw [iterate_precommitted ops env ev hst]
  have hk₂ := handleInputs_keeps ops env { terminated := true } ev { s with state := .poisoned }
  cases h₂ : (handleInputs ops env { terminated := true } ev).run
      { s with state := .poisoned } with
  | error e s₂ =>
    rw [h₂, resultState_error] at hk₂
    exact sentOk_of_sentKinds (hk₂.kinds_eq.trans hb) (hk₂.kinds_eq ▸ hs.primary)
  | ok r s₂ =>
    dsimp only
    rw [h₂, resultState_ok] at hk₂
    split
    · exact ⟨hst, hk₂.kinds_eq, hk₂.2.1⟩
    · refine ⟨by simp, by rw [hk₂.2.1]; exact hs.voting, hk₂.kinds_eq ▸ hs.primary, ⟨b, ?_⟩⟩
      show kinds s₂ = sentKinds b s₂.voting .precommitted
      rw [hk₂.kinds_eq, hk₂.2.1]; exact hb

/-- Every pass from a voter keeping `SendInv v₀` ends in a voter keeping it, or, when it breaks
out of the loop, having sent nothing more, or, when it stops, with what it sent in order. -/
theorem SendInv.pass : PassSends v₀ s ((iterate ops env ev).run s) := by
  cases hst : s.state with
  | start p c => exact hs.pass_start ops env ev hst
  | proposed p c => exact hs.pass_proposed ops env ev hst
  | prevoted c => exact hs.pass_prevoted ops env ev hst
  | precommitted => exact hs.pass_precommitted ops env ev hst
  | poisoned => exact absurd hst hs.notPoisoned

end Pass

/-! ## Whole runs -/

/-- What a run from a voter created with voting flag `v₀` has sent, wherever it stands: at the
top of a pass it keeps `SendInv v₀`; when it returned `Ok`, it sent what a voter in
`Precommitted` has; when it stopped, what it sent is in order. -/
def RunSends (v₀ : Voting) : Outcome R H E w → Prop
  | .running s => SendInv v₀ s
  | .ok s => SentOk v₀ s ∧ ∃ b, kinds s = sentKinds b s.voting .precommitted
  | .exit _ s => SentOk v₀ s

omit [DecidableEq H] in
theorem RunSends.sentOk {v₀ : Voting} {o : Outcome R H E w} (h : RunSends v₀ o) :
    SentOk v₀ o.voter := by
  cases o with
  | running s => exact SendInv.sentOk h
  | ok s => exact h.1
  | exit e s => exact h

theorem SendInv.runSends_ofPass {v₀ : Voting} {s : VotingRound R H w} (hs : SendInv v₀ s)
    (ev : Event H (BitVec w) E Id Sig) :
    RunSends v₀ (Outcome.ofPass ((iterate ops env ev).run s)) := by
  have := hs.pass ops env ev
  revert this
  rcases (iterate ops env ev).run s with ⟨_ | _, s'⟩ | ⟨e, s'⟩
  · exact id
  · rintro ⟨hst, hk, hv⟩
    obtain ⟨b, hb⟩ := hs.sent
    have hk' : kinds s' = sentKinds b s'.voting .precommitted := by rw [hk, hb, hst, hv]
    exact ⟨sentOk_of_sentKinds hk' (hk ▸ hs.primary), b, hk'⟩
  · exact id

/-- The voting flag where a run stands, unless it stopped. -/
def RunVoting (v₀ : Voting) : Outcome R H E w → Prop
  | .running s | .ok s => s.voting = v₀
  | .exit _ _ => True

/-- A pass keeps the voting flag unless it is the pass into `Prevoted` and
`best_chain_containing` answered `None` for the block `find_descendent_of` picked there. -/
theorem runVoting_ofPass (ev : Event H (BitVec w) E Id Sig) {v₀ : Voting} {s : VotingRound R H w}
    (hask : ∀ s', (iterate ops env ev).run s = .ok false s' → s.state.rank < 2 →
      s'.state.rank = 2 → ∀ b, findDescendentOf env.ancestry s'.primaryBlock
        s'.previousRoundState = some b → env.bestChainContaining b ≠ .ok none)
    (hs : s.state ≠ .poisoned) (hv : s.voting = v₀) :
    RunVoting v₀ (Outcome.ofPass ((iterate ops env ev).run s)) := by
  have := iterate_phase ops env ev hs
  rcases hr : (iterate ops env ev).run s with ⟨_ | _, s'⟩ | ⟨e, s'⟩ <;> rw [hr] at this
  · rcases this.2 with hv' | ⟨hrank, hrank', b, hb, hnone⟩
    · exact hv'.trans hv
    · exact absurd hnone (hask s' hr hrank hrank' b hb)
  · exact this.2.2.2.trans hv
  · trivial

/-- Over every run of a new voter, what it sent is in order: at most one message of each kind,
in the order of the phases, the proposal only from the primary, and a precommit only after a
prevote. When the run returns `Ok` for a voter that votes and `best_chain_containing` did not
answer `None` for the block the pass into `Prevoted` asked for, it sent exactly one prevote and
one precommit. -/
theorem run_sends (round : R) (voterId : Option Id) (prs : RoundState H (BitVec w))
    (inputs : List (EnvAnswers H (BitVec w) E × Event H (BitVec w) E Id Sig)) :
    (∀ o, run ops inputs (new ops round voterId prs) = some o →
      SentOk (new ops round voterId prs).voting o.voter) ∧
    (∀ vr, run ops inputs (new ops round voterId prs) = some (.ok vr) →
      (new ops round voterId prs).voting.isActive = true →
      (∀ pre x s s', pre ++ [x] <+: inputs →
        run ops pre (new ops round voterId prs) = some (.running s) →
        (iterate ops x.1 x.2).run s = .ok false s' → s.state.rank < 2 → s'.state.rank = 2 →
        ∀ b, findDescendentOf x.1.ancestry s'.primaryBlock s'.previousRoundState = some b →
        x.1.bestChainContaining b ≠ .ok none) →
      kinds vr = [.prevote, .precommit] ∨ kinds vr = [.primaryPropose, .prevote, .precommit]) := by
  have hsends : ∀ {o}, run ops inputs (new ops round voterId prs) = some o →
      RunSends (new ops round voterId prs).voting o :=
    run_invariant ops (RunSends _) (fun x _ _ hq _ => SendInv.runSends_ofPass ops x.1 hq x.2)
      (sendInv_new ops round voterId prs)
  refine ⟨fun o h => (hsends h).sentOk, fun vr h hact hask => ?_⟩
  have hv : vr.voting = (new ops round voterId prs).voting :=
    (run_reach_invariant ops (fun o => RunSends _ o ∧ RunVoting _ o)
      (fun pre x _ hpre hrun hq _ => ⟨SendInv.runSends_ofPass ops x.1 hq.1 x.2,
        runVoting_ofPass ops x.1 x.2 (hask pre x _ · hpre hrun) hq.1.notPoisoned hq.2⟩)
      ⟨sendInv_new ops round voterId prs, rfl⟩ h).2
  obtain ⟨-, b, hb⟩ := hsends h
  rw [hb, hv]
  cases b <;> simp [sentKinds, hact]

/-- A prevote for block `1`, then the previous round's state twice. -/
def completingInputs : List (EnvAnswers Nat (BitVec 8) Unit × Event Nat (BitVec 8) Unit Nat Unit) :=
  [(tipAnswers, .incoming (.ok voteOne)), (tipAnswers, .roundState estimateOne),
    (tipAnswers, .roundState estimateOne)]

theorem run_sends_completed :
    ∃ vr, run (lastPrevote true) completingInputs
        (new (lastPrevote true) none (some 2) estimateOne) = some (.ok vr) ∧
      (new (lastPrevote true) none (some 2) estimateOne).voting.isActive = true ∧
      (∀ pre x s s', pre ++ [x] <+: completingInputs →
        run (lastPrevote true) pre (new (lastPrevote true) none (some 2) estimateOne) =
          some (.running s) →
        (iterate (lastPrevote true) x.1 x.2).run s = .ok false s' → s.state.rank < 2 →
        s'.state.rank = 2 →
        ∀ b, findDescendentOf x.1.ancestry s'.primaryBlock s'.previousRoundState = some b →
        x.1.bestChainContaining b ≠ .ok none) ∧
      (kinds vr = [.prevote, .precommit] ∨ kinds vr = [.primaryPropose, .prevote, .precommit]) := by
  have hnone : ∀ x ∈ completingInputs, ∀ h, x.1.bestChainContaining h ≠ .ok none := by
    simp [completingInputs, tipAnswers]
  refine ⟨_, rfl, rfl, ?_,
    (run_sends (lastPrevote true) none (some 2) estimateOne completingInputs).2 _ rfl rfl ?_⟩ <;>
  exact fun _ x _ _ hpre _ _ _ _ b _ => hnone x (hpre.subset (List.mem_concat_self _ x)) b

end VotingRound

end FinalityGrandpa

import FinalityGrandpa.Voter.Sends

/-!
# What a precommit targets

`construct_precommit` targets the round's prevote-GHOST, or the round's base when there is none.
`precommit` sends only when the GHOST is at or above the previous round's estimate, so the base
is never the target of a sent precommit (`precommit_appends`). A pass appends a precommit only
from `Prevoted`, after `handle_inputs!` (`iterate_appends`), and `run_sent` carries this to every
message a run has sent (`run_precommits`).
-/

namespace FinalityGrandpa

namespace VotingRound

variable {R H E Id Sig : Type} {w : Nat} [DecidableEq H] [DecidableEq Id]
  (ops : RoundOps R H (BitVec w) E Id Sig) (env : EnvAnswers H (BitVec w) E)
  (ev : Event H (BitVec w) E Id Sig)

/-- The precommit `pc` as a pass from `s` sends it: `s` is in `Prevoted`, and `pc` is what
`construct_precommit` makes of the round `handle_inputs!` left; its target is that round's
prevote-GHOST `pG`, which is the previous round's estimate as that voter has it, or descends
from it by `is_equal_or_descendent_of`. -/
def PrecommitAtCall (s : VotingRound R H w) (pc : Precommit H (BitVec w)) : Prop :=
  ∃ c r s₂ pG est, s.state = .prevoted c ∧
    (handleInputs ops env c ev).run { s with state := .poisoned } = .ok r s₂ ∧
    ops.prevoteGhost s₂.round = some pG ∧ s₂.previousRoundState.estimate = some est ∧
    pc = constructPrecommit ops s₂.round ∧ pc = { targetHash := pG.1, targetNumber := pG.2 } ∧
    (pG = est ∨ env.isEqualOrDescendentOf est.1 pG.1 = true)

/-- A message a pass from `s` appends is a precommit only as `PrecommitAtCall` says. -/
def SentAtCall (s : VotingRound R H w) (m : Message H (BitVec w)) : Prop :=
  ∀ pc, m = .precommit pc → PrecommitAtCall ops env ev s pc

omit [DecidableEq H] in
theorem Appends.sentAtCall {s t t' : VotingRound R H w} {k : MessageKind}
    (hk : k ≠ .precommit) (h : Appends (fun m => m.kind = k) t t') :
    Appends (SentAtCall ops env ev s) t t' :=
  h.mono fun _ hm _ hpc => absurd (hpc ▸ hm).symm hk

/-- A pass appends to `outgoing` a precommit only as `PrecommitAtCall` says, whether it stays in
the loop, breaks out of it or stops. -/
theorem iterate_appends (s : VotingRound R H w) :
    Appends (SentAtCall ops env ev s) s (resultState ((iterate ops env ev).run s)) := by
  cases hst : s.state with
  | start p c =>
    rw [iterate_start ops env ev hst]
    have h₁ := (primaryPropose_appends env { s with state := .poisoned }).sentAtCall ops env ev
      (s := s) (by decide)
    cases hr₁ : (primaryPropose env).run { s with state := .poisoned } with
    | error e s₁ => rw [hr₁] at h₁; exact h₁
    | ok proposed s₁ =>
      dsimp only
      rw [hr₁, resultState_ok] at h₁
      have h₂ := handleInputs_keeps ops env p ev s₁
      cases hr₂ : (handleInputs ops env p ev).run s₁ with
      | error e s₂ => rw [hr₂, resultState_error] at h₂; exact h₁.trans (.of_outgoing_eq h₂.1)
      | ok r s₂ =>
        obtain ⟨ready, p'⟩ := r
        dsimp only
        rw [hr₂, resultState_ok] at h₂
        have h₃ := (prevote_appends ops env ready s₂).sentAtCall ops env ev (s := s) (by decide)
        rcases hr₃ : (prevote ops env ready).run s₂ with ⟨b, s₃⟩ | ⟨e, s₃⟩ <;> rw [hr₃] at h₃ <;>
          exact (h₁.trans (.of_outgoing_eq h₂.1)).trans h₃
  | proposed p c =>
    rw [iterate_proposed ops env ev hst]
    have h₂ := handleInputs_keeps ops env p ev { s with state := .poisoned }
    cases hr₂ : (handleInputs ops env p ev).run { s with state := .poisoned } with
    | error e s₂ => rw [hr₂, resultState_error] at h₂; exact .of_outgoing_eq h₂.1
    | ok r s₂ =>
      obtain ⟨ready, p'⟩ := r
      dsimp only
      rw [hr₂, resultState_ok] at h₂
      have h₃ := (prevote_appends ops env ready s₂).sentAtCall ops env ev (s := s) (by decide)
      rcases hr₃ : (prevote ops env ready).run s₂ with ⟨b, s₃⟩ | ⟨e, s₃⟩ <;> rw [hr₃] at h₃ <;>
        exact (Appends.of_outgoing_eq h₂.1).trans h₃
  | prevoted c =>
    rw [iterate_prevoted ops env ev hst]
    have h₂ := handleInputs_keeps ops env c ev { s with state := .poisoned }
    cases hr₂ : (handleInputs ops env c ev).run { s with state := .poisoned } with
    | error e s₂ => rw [hr₂, resultState_error] at h₂; exact .of_outgoing_eq h₂.1
    | ok r s₂ =>
      obtain ⟨ready, c'⟩ := r
      dsimp only
      rw [hr₂, resultState_ok] at h₂
      have h₃ : Appends (SentAtCall ops env ev s) s₂ (resultState ((precommit ops env ready).run s₂)) :=
        (precommit_appends ops env ready s₂).mono fun m ⟨hm, pG, est, hg, hest, hcond⟩ pc hpc => by
          have hpc' : pc = constructPrecommit ops s₂.round := Message.precommit.inj (hpc.symm.trans hm)
          exact ⟨c, (ready, c'), s₂, pG, est, hst, hr₂, hg, hest, hpc',
            by rw [hpc']; simp [constructPrecommit, hg], hcond⟩
      rcases hr₃ : (precommit ops env ready).run s₂ with ⟨b, s₃⟩ | ⟨e, s₃⟩ <;> rw [hr₃] at h₃ <;>
        exact (Appends.of_outgoing_eq h₂.1).trans h₃
  | precommitted =>
    rw [iterate_precommitted ops env ev hst]
    have h₂ := handleInputs_keeps ops env { terminated := true } ev { s with state := .poisoned }
    cases hr₂ : (handleInputs ops env { terminated := true } ev).run
        { s with state := .poisoned } with
    | error e s₂ => rw [hr₂, resultState_error] at h₂; exact .of_outgoing_eq h₂.1
    | ok r s₂ =>
      rw [hr₂, resultState_ok] at h₂
      dsimp only
      split <;> exact .of_outgoing_eq h₂.1
  | poisoned =>
    rw [iterate_poisoned ops env ev hst]
    exact .of_outgoing_eq rfl

/-- Over every run of a new voter, every precommit it has sent was appended by a pass from
`Prevoted`, at a voter that a prefix of the inputs leaves, and targets the prevote-GHOST of the
round as `precommit` found it, never the round's base; that GHOST is the previous round's
estimate as the voter had it then, or descends from it by `is_equal_or_descendent_of`. -/
theorem run_precommits (round : R) (voterId : Option Id) (prs : RoundState H (BitVec w))
    (inputs : List (EnvAnswers H (BitVec w) E × Event H (BitVec w) E Id Sig)) :
    ∀ o, run ops inputs (new ops round voterId prs) = some o →
      ∀ pc, .precommit pc ∈ o.voter.outgoing → ∃ pre env ev s, pre ++ [(env, ev)] <+: inputs ∧
        run ops pre (new ops round voterId prs) = some (.running s) ∧
        ev.Enabled s.state.timer = true ∧ PrecommitAtCall ops env ev s pc := by
  intro o h pc hpc
  rcases run_sent ops (fun vr env ev => SentAtCall ops env ev vr)
      (fun vr env ev => iterate_appends ops env ev vr) h _ hpc with
    hm | ⟨pre, ⟨env, ev⟩, s, hpre, hrun, hen, hP⟩
  · simp [new] at hm
  · exact ⟨pre, env, ev, s, hpre, hrun, hen, hP pc rfl⟩

/-- The voter `2` of `lastPrevote true` after `completingInputs`: it prevoted and precommitted
for block `1`, and its run broke out of the loop. -/
def completedVoter : VotingRound (Option (Nat × BitVec 8)) Nat 8 :=
  { voting := .yes, round := some (1, 1), state := .poisoned,
    outgoing := [.prevote { targetHash := 1, targetNumber := 1 },
      .precommit { targetHash := 1, targetNumber := 1 }],
    primaryBlock := none, previousRoundState := estimateOne }

theorem run_precommits_completed :
    run (lastPrevote true) completingInputs (new (lastPrevote true) none (some 2) estimateOne) =
      some (.ok completedVoter) ∧
    ∃ pre env ev s, pre ++ [(env, ev)] <+: completingInputs ∧
      run (lastPrevote true) pre (new (lastPrevote true) none (some 2) estimateOne) =
        some (.running s) ∧ ev.Enabled s.state.timer = true ∧
      PrecommitAtCall (lastPrevote true) env ev s { targetHash := 1, targetNumber := 1 } :=
  ⟨rfl, run_precommits (lastPrevote true) none (some 2) estimateOne completingInputs
    (.ok completedVoter) (by rfl) _ (by simp [Outcome.voter, completedVoter])⟩

end VotingRound

end FinalityGrandpa

import FinalityGrandpa.Voter.VotingRound

/-!
# What each call of a pass does

Every `async fn` the loop of `run` calls is run here from an arbitrary voter `s`, and each lemma
says all the ways the call can end, with the voter it leaves:

* `handle_incoming_message` and `handle_inputs!` send nothing and keep the voting flag and the
  state (`handleInputs_keeps`); only the timer event makes `handle_inputs!` answer `true`;
* `primary_propose` sends the primary's proposal or does nothing (`primaryPropose_cases`);
* `prevote` does nothing unless the timer fired or the round is completable, and then sends a
  prevote, gives up voting when `best_chain_containing` answers `None` for the block
  `find_descendent_of` picks, or stops (`prevote_cases`);
* `precommit` likewise for a precommit, behind the test on the previous round's estimate
  (`precommit_cases`).

Each vote appends at most its own message to `outgoing`, whether it returns or stops
(`primaryPropose_appends`, `prevote_appends`, `precommit_appends`). A call stops on the `?` of
an error, except for the panic of `select!` once every branch is terminated
(`handleInputs_error`) and the panics of the `expect`s on the previous round's state
(`prevote_panic`, `precommit_panic`); none stops on `unreachable!()`.

The lemmas of a pass and of a run cite these and never unfold the calls.
-/

namespace FinalityGrandpa

/-- The kind of a message the voter sends. -/
inductive MessageKind
  | primaryPropose
  | prevote
  | precommit
deriving DecidableEq, Repr

/-- The kind of a message. -/
def Message.kind {H N : Type} : Message H N → MessageKind
  | .prevote _ => .prevote
  | .precommit _ => .precommit
  | .primaryPropose _ => .primaryPropose

namespace VotingRound

/-! ## Running `EStateM` code -/

section EStateM

variable {ε σ α β : Type}

@[simp] theorem pure_run (a : α) (s : σ) : (pure a : EStateM ε σ α).run s = .ok a s := rfl

@[simp] theorem bind_run (x : EStateM ε σ α) (f : α → EStateM ε σ β) (s : σ) :
    (x >>= f).run s = match x.run s with
      | .ok a s' => (f a).run s'
      | .error e s' => .error e s' := rfl

@[simp] theorem get_run (s : σ) : (get : EStateM ε σ σ).run s = .ok s s := rfl

@[simp] theorem set_run (s s' : σ) : (set s' : EStateM ε σ PUnit).run s = .ok ⟨⟩ s' := rfl

@[simp] theorem modify_run (f : σ → σ) (s : σ) :
    (modify f : EStateM ε σ PUnit).run s = .ok ⟨⟩ (f s) := rfl

@[simp] theorem throw_run (e : ε) (s : σ) : (throw e : EStateM ε σ α).run s = .error e s := rfl

theorem ite_run (c : Prop) [Decidable c] (x y : EStateM ε σ α) (s : σ) :
    (if c then x else y).run s = if c then x.run s else y.run s := by
  split <;> rfl

/-- The state a call ends in, whether it returned or stopped. -/
def resultState : EStateM.Result ε σ α → σ
  | .ok _ s => s
  | .error _ s => s

@[simp] theorem resultState_ok (a : α) (s : σ) :
    resultState (.ok a s : EStateM.Result ε σ α) = s := rfl

@[simp] theorem resultState_error (e : ε) (s : σ) :
    resultState (.error e s : EStateM.Result ε σ α) = s := rfl

end EStateM

variable {R H E Id Sig : Type} {w : Nat}

/-- `s'` has sent the messages of `s`, with the same voting flag and state. -/
def Keeps (s s' : VotingRound R H w) : Prop :=
  s'.outgoing = s.outgoing ∧ s'.voting = s.voting ∧ s'.state = s.state

theorem Keeps.refl (s : VotingRound R H w) : Keeps s s := ⟨rfl, rfl, rfl⟩

/-- The kinds of the messages sent so far. -/
def kinds (s : VotingRound R H w) : List MessageKind := s.outgoing.map Message.kind

theorem Keeps.kinds_eq {s s' : VotingRound R H w} (h : Keeps s s') : kinds s' = kinds s := by
  rw [kinds, h.1, kinds]

/-- `s'` has sent the messages of `s`, then more, each with the property `P`. -/
def Appends (P : Message H (BitVec w) → Prop) (s s' : VotingRound R H w) : Prop :=
  ∃ sent, s'.outgoing = s.outgoing ++ sent ∧ ∀ m ∈ sent, P m

section Appends

variable {P Q : Message H (BitVec w) → Prop} {s s' s'' : VotingRound R H w}

theorem Appends.of_outgoing_eq (h : s'.outgoing = s.outgoing) : Appends P s s' :=
  ⟨[], by rw [h, List.append_nil], fun _ hm => absurd hm (List.not_mem_nil _)⟩

theorem Appends.trans (h : Appends P s s') (h' : Appends P s' s'') : Appends P s s'' := by
  obtain ⟨l, hl, hP⟩ := h
  obtain ⟨l', hl', hP'⟩ := h'
  exact ⟨l ++ l', by rw [hl', hl, List.append_assoc],
    fun m hm => (List.mem_append.1 hm).elim (hP m) (hP' m)⟩

theorem Appends.mono (hPQ : ∀ m, P m → Q m) (h : Appends P s s') : Appends Q s s' :=
  let ⟨l, hl, hP⟩ := h
  ⟨l, hl, fun m hm => hPQ m (hP m hm)⟩

end Appends

variable [DecidableEq H] [DecidableEq Id]
  (ops : RoundOps R H (BitVec w) E Id Sig) (env : EnvAnswers H (BitVec w) E)

omit [DecidableEq H] in
@[simp] theorem liftE_run {α : Type} (x : Except E α) (s : VotingRound R H w) :
    (liftE x : VoterM R H E w α).run s = match x with
      | .ok a => .ok a s
      | .error e => .error (.error e) s := by
  cases x <;> rfl

omit [DecidableEq H] in
theorem send_run (m : Message H (BitVec w)) (s : VotingRound R H w) :
    (send env m).run s = match env.send m with
      | .ok a => .ok a { s with outgoing := s.outgoing ++ [m] }
      | .error e => .error (.error e) { s with outgoing := s.outgoing ++ [m] } := by
  unfold send
  cases env.send m <;> rfl

omit [DecidableEq H] in
@[simp] theorem setState_run (state : State) (s : VotingRound R H w) :
    (setState state : VoterM R H E w Unit).run s = .ok () { s with state } := rfl

/-! ## The inputs of a pass -/

omit [DecidableEq H] in
/-- `handle_incoming_message` sends nothing and keeps the voting flag and the state. -/
theorem handleIncomingMessage_keeps (m : SignedMessage H (BitVec w) Sig Id)
    (s : VotingRound R H w) :
    Keeps s (resultState ((handleIncomingMessage ops env m).run s)) := by
  unfold handleIncomingMessage
  simp only [bind_run, get_run, ite_run]
  split
  · exact Keeps.refl s
  · rcases hm : m.message with v | v | v <;> simp only [bind_run, pure_run, liftE_run]
    · cases ops.importPrevote s.round v m.id m.signature <;> exact Keeps.refl s
    · cases ops.importPrecommit s.round v m.id m.signature <;> exact Keeps.refl s
    · split <;> exact Keeps.refl s

omit [DecidableEq H] in
/-- `handle_inputs!` sends nothing and keeps the voting flag and the state. -/
theorem handleInputs_keeps (timer : Timer) (ev : Event H (BitVec w) E Id Sig)
    (s : VotingRound R H w) :
    Keeps s (resultState ((handleInputs ops env timer ev).run s)) := by
  cases ev with
  | incoming message =>
    cases message with
    | error e => exact Keeps.refl s
    | ok m =>
      have := handleIncomingMessage_keeps ops env m s
      simp only [handleInputs, bind_run, liftE_run]
      revert this
      cases (handleIncomingMessage ops env m).run s <;> exact id
  | roundState st | timer | allTerminated => exact Keeps.refl s

omit [DecidableEq H] in
/-- `handle_incoming_message` stops only on the `?` of an import. -/
theorem handleIncomingMessage_error {m : SignedMessage H (BitVec w) Sig Id}
    {s s' : VotingRound R H w} {e : Exit E}
    (h : (handleIncomingMessage ops env m).run s = .error e s') : ∃ e', e = .error e' := by
  unfold handleIncomingMessage at h
  revert h
  simp only [bind_run, get_run, ite_run]
  split
  · nofun
  · rcases m.message with v | v | v <;> simp only [bind_run, pure_run, liftE_run]
    · cases ops.importPrevote s.round v m.id m.signature <;> rintro ⟨⟩
      exact ⟨_, rfl⟩
    · cases ops.importPrecommit s.round v m.id m.signature <;> rintro ⟨⟩
      exact ⟨_, rfl⟩
    · split <;> nofun

omit [DecidableEq H] in
/-- `handle_inputs!` stops on the `?` of the incoming stream or of an import, or panics in a
`select!` with every branch terminated, leaving the voter as it was. -/
theorem handleInputs_error {timer : Timer} {ev : Event H (BitVec w) E Id Sig}
    {s s' : VotingRound R H w} {e : Exit E}
    (h : (handleInputs ops env timer ev).run s = .error e s') :
    (∃ e', e = .error e') ∨ (ev = .allTerminated ∧ e = .panic ∧ s' = s) := by
  cases ev with
  | incoming message =>
    cases message with
    | error e' => cases h; exact .inl ⟨e', rfl⟩
    | ok m =>
      simp only [handleInputs, bind_run, liftE_run] at h
      split at h
      · cases h
      · cases h; exact .inl (handleIncomingMessage_error ops env ‹_›)
  | roundState st | timer => cases h
  | allTerminated => cases h; exact .inr ⟨rfl, rfl, rfl⟩

omit [DecidableEq H] in
theorem handleInputs_error_ne {timer : Timer} {ev : Event H (BitVec w) E Id Sig}
    {s s' : VotingRound R H w} {e : Exit E}
    (h : (handleInputs ops env timer ev).run s = .error e s') : e ≠ .unreachable := by
  rcases handleInputs_error ops env h with ⟨_, rfl⟩ | ⟨-, rfl, -⟩ <;> nofun

omit [DecidableEq H] in
/-- `handle_inputs!` answers `true` exactly on the timer event, which fires the timer. -/
theorem handleInputs_ok {timer timer' : Timer} {ev : Event H (BitVec w) E Id Sig}
    {s s' : VotingRound R H w} {ready : Bool}
    (h : (handleInputs ops env timer ev).run s = .ok (ready, timer') s') :
    (ev = .timer ∧ ready = true ∧ timer' = { terminated := true }) ∨
      (ev ≠ .timer ∧ ready = false ∧ timer' = timer) := by
  cases ev with
  | incoming message =>
    cases message with
    | error e => simp [handleInputs] at h
    | ok m =>
      simp only [handleInputs, bind_run, liftE_run] at h
      split at h <;> simp_all
  | roundState st =>
    simp only [handleInputs, bind_run, modify_run, pure_run, EStateM.Result.ok.injEq,
      Prod.mk.injEq] at h
    exact .inr ⟨nofun, h.1.1.symm, h.1.2.symm⟩
  | timer =>
    simp only [handleInputs, pure_run, EStateM.Result.ok.injEq, Prod.mk.injEq] at h
    exact .inl ⟨rfl, h.1.1.symm, h.1.2.symm⟩
  | allTerminated => cases h

/-! ## The votes -/

omit [DecidableEq H] in
/-- `primary_propose` does nothing and answers `false`, or, for the primary only, sends the
proposal and answers `true` unless the sink fails. -/
theorem primaryPropose_cases (s : VotingRound R H w) :
    (primaryPropose env).run s = .ok false s ∨
    s.voting = .primary ∧ ∃ m : Message H (BitVec w), m.kind = .primaryPropose ∧
      ((primaryPropose env).run s = .ok true { s with outgoing := s.outgoing ++ [m] } ∨
        ∃ e, (primaryPropose env).run s =
          .error (.error e) { s with outgoing := s.outgoing ++ [m] }) := by
  unfold primaryPropose
  cases hv : s.voting with
  | no | yes => left; simp [Voting.isPrimary, hv]
  | primary =>
    cases hest : s.previousRoundState.estimate with
    | none => left; simp [Voting.isPrimary, hv, hest]
    | some est =>
      by_cases hsend : (s.previousRoundState.finalized.elim true
          fun finalized => decide (est.2 > finalized.2)) = true
      · right
        refine ⟨rfl, .primaryPropose { targetHash := est.1, targetNumber := est.2 }, rfl, ?_⟩
        simp only [Voting.isPrimary, hv, hest, hsend, bind_run, get_run, ite_run, pure_run,
          Bool.not_true, if_true, send_run]
        cases env.send _ <;> simp
      · left
        simp [Voting.isPrimary, hv, hest, hsend]

/-- `construct_prevote` asks `best_chain_containing` for the block `findDescendentOf` picks
and changes nothing. -/
theorem constructPrevote_run (s : VotingRound R H w) :
    (constructPrevote env).run s =
      match findDescendentOf env.ancestry s.primaryBlock s.previousRoundState with
      | none => .error .panic s
      | some h => match env.bestChainContaining h with
        | .ok (some target) => .ok (some { targetHash := target.1, targetNumber := target.2 }) s
        | .ok none => .ok none s
        | .error e => .error (.error e) s := by
  unfold constructPrevote
  cases hf : findDescendentOf env.ancestry s.primaryBlock s.previousRoundState with
  | none => simp [hf]
  | some h =>
    simp only [bind_run, get_run, hf, liftE_run]
    rcases env.bestChainContaining h with e | _ | t <;> rfl

omit [DecidableEq Id] in
/-- `prevote` answers whether the timer fired or the round is completable, and does nothing
else unless it did and the voter votes: then it sends a prevote, or stops (on a panic exactly
where `find_descendent_of` finds no block, else on the `?` of an error), or, when
`best_chain_containing` answers `None` for the block `find_descendent_of` picks, stops voting. -/
theorem prevote_cases (ready : Bool) (s : VotingRound R H w) :
    ((ready || ops.completable s.round) = false ∧ (prevote ops env ready).run s = .ok false s) ∨
    ((ready || ops.completable s.round) = true ∧ (
      (s.voting.isActive = false ∧ (prevote ops env ready).run s = .ok true s) ∨
      (s.voting.isActive = true ∧
        ((findDescendentOf env.ancestry s.primaryBlock s.previousRoundState = none ∧
            (prevote ops env ready).run s = .error .panic s) ∨
          ∃ e, (prevote ops env ready).run s = .error (.error e) s)) ∨
      (s.voting.isActive = true ∧ (∃ h, findDescendentOf env.ancestry s.primaryBlock
          s.previousRoundState = some h ∧ env.bestChainContaining h = .ok none) ∧
        (prevote ops env ready).run s = .ok true { s with voting := .no }) ∨
      (s.voting.isActive = true ∧ ∃ m : Message H (BitVec w), m.kind = .prevote ∧
        ((prevote ops env ready).run s =
            .ok true { s with round := ops.setPrevotedIndex s.round,
                              outgoing := s.outgoing ++ [m] } ∨
          ∃ e, (prevote ops env ready).run s =
            .error (.error e) { s with round := ops.setPrevotedIndex s.round,
                                       outgoing := s.outgoing ++ [m] })))) := by
  have hc := constructPrevote_run env s
  unfold prevote
  simp only [bind_run, get_run, ite_run, pure_run]
  cases hshould : (ready || ops.completable s.round)
  · left; simp
  right
  refine ⟨rfl, ?_⟩
  cases hact : s.voting.isActive
  · left; simp
  simp only [if_true, bind_run, hc]
  right
  cases hf : findDescendentOf env.ancestry s.primaryBlock s.previousRoundState with
  | none => exact .inl ⟨trivial, .inl ⟨rfl, rfl⟩⟩
  | some h =>
    rcases hb : env.bestChainContaining h with e | _ | t
    · exact .inl ⟨trivial, .inr ⟨e, by simp [hb]⟩⟩
    · exact .inr (.inl ⟨trivial, ⟨h, rfl, hb⟩, by simp only [hb]; rfl⟩)
    · refine .inr (.inr ⟨trivial, .prevote ⟨t.1, t.2⟩, rfl, ?_⟩)
      simp only [hb, bind_run, modify_run, send_run]
      cases env.send _ <;> simp

omit [DecidableEq Id] in
/-- `precommit` stops when there is no previous estimate; otherwise it answers whether the
round's prevote-GHOST is at or above the estimate and the timer fired or the round is
completable, and does nothing else unless it did and the voter votes: then it sends the
precommit `construct_precommit` makes. -/
theorem precommit_cases (ready : Bool) (s : VotingRound R H w) :
    (s.previousRoundState.estimate = none ∧ (precommit ops env ready).run s = .error .panic s) ∨
    ∃ est, s.previousRoundState.estimate = some est ∧
      let should := (ops.prevoteGhost s.round).any (fun pG => decide (pG = est) ||
        env.isEqualOrDescendentOf est.1 pG.1) && (ready || ops.completable s.round)
      ((should = false ∨ s.voting.isActive = false) ∧
          (precommit ops env ready).run s = .ok should s) ∨
      (should = true ∧ s.voting.isActive = true ∧
        let s' := { s with round := ops.setPrecommittedIndex s.round,
                           outgoing := s.outgoing ++ [.precommit (constructPrecommit ops s.round)] }
        ((precommit ops env ready).run s = .ok true s' ∨
          ∃ e, (precommit ops env ready).run s = .error (.error e) s')) := by
  unfold precommit
  cases hest : s.previousRoundState.estimate with
  | none => left; simp [hest]
  | some est =>
    right
    refine ⟨est, rfl, ?_⟩
    simp only [bind_run, get_run, hest, ite_run, pure_run]
    split
    · cases hact : s.voting.isActive
      · left; simp [hact, *]
      · right
        refine ⟨‹_›, rfl, ?_⟩
        simp only [if_true, bind_run, modify_run, send_run]
        cases env.send _ <;> simp
    · left; simp_all

/-! ## What the votes send -/

omit [DecidableEq H] in
/-- `primary_propose` answers `true` exactly when it sent the proposal, which only the primary
does. -/
theorem primaryPropose_ok {s s' : VotingRound R H w} {b : Bool}
    (h : (primaryPropose env).run s = .ok b s') :
    s'.voting = s.voting ∧ s'.state = s.state ∧
      kinds s' = kinds s ++ (if b then [.primaryPropose] else []) ∧
      (b = true → s.voting = .primary) := by
  rcases primaryPropose_cases env s with h' | ⟨hp, m, hm, h' | ⟨e, h'⟩⟩ <;> rw [h'] at h <;>
    cases h
  · simp
  · simp [kinds, hm, hp]

omit [DecidableEq H] in
theorem primaryPropose_error {s s' : VotingRound R H w} {e : Exit E}
    (h : (primaryPropose env).run s = .error e s') :
    s'.voting = s.voting ∧ s'.state = s.state ∧ kinds s' = kinds s ++ [.primaryPropose] ∧
      s.voting = .primary ∧ e ≠ .unreachable := by
  rcases primaryPropose_cases env s with h' | ⟨hp, m, hm, h' | ⟨e, h'⟩⟩ <;> rw [h'] at h <;>
    cases h
  simp [kinds, hm, hp]

omit [DecidableEq Id] in
/-- `prevote` answers whether the timer fired or the round is completable; it sent a prevote
exactly when it answered `true` and the voter still votes, and it stops voting only when it
answered `true` and `best_chain_containing` answered `None` for the block `find_descendent_of`
picks. -/
theorem prevote_ok {ready r : Bool} {s s' : VotingRound R H w}
    (h : (prevote ops env ready).run s = .ok r s') :
    r = (ready || ops.completable s.round) ∧ s'.state = s.state ∧
      kinds s' = kinds s ++ (if r && s'.voting.isActive then [.prevote] else []) ∧
      (s'.voting = s.voting ∨ r = true ∧ s'.voting = .no ∧ ∃ h, findDescendentOf env.ancestry
        s'.primaryBlock s'.previousRoundState = some h ∧ env.bestChainContaining h = .ok none) := by
  rcases prevote_cases ops env ready s with ⟨hr, h'⟩ | ⟨hr, ⟨hact, h'⟩ |
    ⟨hact, ⟨-, h'⟩ | ⟨x, h'⟩⟩ | ⟨hact, hnone, h'⟩ | ⟨hact, m, hm, h' | ⟨e, h'⟩⟩⟩ <;>
    rw [h'] at h <;> cases h
  · simp [hr]
  · simp [hr, hact]
  · simp [hr, Voting.isActive, hnone, kinds]
  · simp [hr, hact, kinds, hm]

omit [DecidableEq Id] in
theorem prevote_error {ready : Bool} {s s' : VotingRound R H w} {e : Exit E}
    (h : (prevote ops env ready).run s = .error e s') :
    s'.state = s.state ∧ s'.voting = s.voting ∧
      (kinds s' = kinds s ∨ kinds s' = kinds s ++ [.prevote] ∧ s.voting.isActive = true) ∧
      e ≠ .unreachable := by
  rcases prevote_cases ops env ready s with ⟨hr, h'⟩ | ⟨hr, ⟨hact, h'⟩ |
    ⟨hact, ⟨-, h'⟩ | ⟨x, h'⟩⟩ | ⟨hact, hnone, h'⟩ | ⟨hact, m, hm, h' | ⟨e, h'⟩⟩⟩ <;>
    rw [h'] at h <;> cases h
  · simp
  · simp
  · simp [hact, kinds, hm]

omit [DecidableEq Id] in
/-- `prevote` panics only in the `expect`s of `construct_prevote`, where `find_descendent_of`
finds no block, and then leaves the voter as it was. -/
theorem prevote_panic {ready : Bool} {s s' : VotingRound R H w}
    (h : (prevote ops env ready).run s = .error .panic s') :
    s' = s ∧ findDescendentOf env.ancestry s.primaryBlock s.previousRoundState = none := by
  rcases prevote_cases ops env ready s with ⟨-, h'⟩ | ⟨-, ⟨-, h'⟩ | ⟨-, ⟨hf, h'⟩ | ⟨e, h'⟩⟩ |
    ⟨-, -, h'⟩ | ⟨-, m, -, h' | ⟨e, h'⟩⟩⟩ <;> rw [h'] at h <;> cases h
  exact ⟨rfl, hf⟩

omit [DecidableEq Id] in
/-- `precommit` sent a precommit exactly when it answered `true` and the voter votes; it answers
`true` only when the round's prevote-GHOST is at or above the previous estimate and the timer
fired or the round is completable. -/
theorem precommit_ok {ready r : Bool} {s s' : VotingRound R H w}
    (h : (precommit ops env ready).run s = .ok r s') :
    s'.state = s.state ∧ s'.voting = s.voting ∧
      kinds s' = kinds s ++ (if r && s.voting.isActive then [.precommit] else []) ∧
      (r = true → ∃ est, s.previousRoundState.estimate = some est ∧
        (ops.prevoteGhost s.round).any (fun pG => decide (pG = est) ||
          env.isEqualOrDescendentOf est.1 pG.1) = true ∧
        (ready || ops.completable s.round) = true) := by
  rcases precommit_cases ops env ready s with
    ⟨-, h'⟩ | ⟨est, hest, ⟨hor, h'⟩ | ⟨hr, hact, h' | ⟨e, h'⟩⟩⟩ <;> rw [h'] at h <;> cases h
  · refine ⟨rfl, rfl, ?_, fun hr => ⟨est, hest, ?_⟩⟩
    · rcases hor with hor | hor <;> simp [hor]
    · simp only [hr, Bool.and_eq_true] at hor ⊢
      rcases hor with hor | hor <;> simp_all
  · simp only [Bool.and_eq_true] at hr
    simp [hact, kinds, Message.kind, hest, hr]

omit [DecidableEq Id] in
theorem precommit_error {ready : Bool} {s s' : VotingRound R H w} {e : Exit E}
    (h : (precommit ops env ready).run s = .error e s') :
    s'.state = s.state ∧ s'.voting = s.voting ∧
      (kinds s' = kinds s ∨ kinds s' = kinds s ++ [.precommit] ∧ s.voting.isActive = true) ∧
      e ≠ .unreachable := by
  rcases precommit_cases ops env ready s with
    ⟨-, h'⟩ | ⟨est, hest, ⟨hor, h'⟩ | ⟨hr, hact, h' | ⟨e, h'⟩⟩⟩ <;> rw [h'] at h <;> cases h
  · simp
  · simp [hact, kinds, Message.kind]

omit [DecidableEq Id] in
/-- `precommit` panics only in its `expect` of the previous round's estimate, and then leaves
the voter as it was. -/
theorem precommit_panic {ready : Bool} {s s' : VotingRound R H w}
    (h : (precommit ops env ready).run s = .error .panic s') :
    s' = s ∧ s.previousRoundState.estimate = none := by
  rcases precommit_cases ops env ready s with
    ⟨hest, h'⟩ | ⟨est, -, ⟨-, h'⟩ | ⟨-, -, h' | ⟨e, h'⟩⟩⟩ <;> rw [h'] at h <;> cases h
  exact ⟨rfl, hest⟩

/-! ## What the votes append -/

omit [DecidableEq H] in
/-- `primary_propose` appends at most the proposal to `outgoing`, whether it returns or stops. -/
theorem primaryPropose_appends (s : VotingRound R H w) :
    Appends (fun m => m.kind = .primaryPropose) s (resultState ((primaryPropose env).run s)) := by
  rcases primaryPropose_cases env s with h | ⟨-, m, hm, h | ⟨e, h⟩⟩ <;> rw [h]
  · exact .of_outgoing_eq rfl
  all_goals exact ⟨[m], rfl, by simpa using hm⟩

omit [DecidableEq Id] in
/-- `prevote` appends at most one prevote to `outgoing`, whether it returns or stops. -/
theorem prevote_appends (ready : Bool) (s : VotingRound R H w) :
    Appends (fun m => m.kind = .prevote) s (resultState ((prevote ops env ready).run s)) := by
  rcases prevote_cases ops env ready s with ⟨-, h⟩ | ⟨-, ⟨-, h⟩ | ⟨-, ⟨-, h⟩ | ⟨x, h⟩⟩ |
    ⟨-, -, h⟩ | ⟨-, m, hm, h | ⟨e, h⟩⟩⟩ <;> rw [h]
  iterate 5 exact .of_outgoing_eq rfl
  all_goals exact ⟨[m], rfl, by simpa using hm⟩

omit [DecidableEq Id] in
/-- `precommit` appends at most one message to `outgoing`, whether it returns or stops: the
precommit `construct_precommit` makes of the round, sent only when the round has a
prevote-GHOST at or above the previous round's estimate. -/
theorem precommit_appends (ready : Bool) (s : VotingRound R H w) :
    Appends (fun m => m = .precommit (constructPrecommit ops s.round) ∧
      ∃ pG est, ops.prevoteGhost s.round = some pG ∧ s.previousRoundState.estimate = some est ∧
        (pG = est ∨ env.isEqualOrDescendentOf est.1 pG.1 = true))
      s (resultState ((precommit ops env ready).run s)) := by
  rcases precommit_cases ops env ready s with ⟨-, h⟩ | ⟨est, hest, ⟨-, h⟩ | ⟨hr, -, h | ⟨e, h⟩⟩⟩ <;>
    rw [h]
  · exact .of_outgoing_eq rfl
  · exact .of_outgoing_eq rfl
  all_goals
    refine ⟨[_], rfl, fun m hm => ⟨List.mem_singleton.1 hm, ?_⟩⟩
    simp only [Bool.and_eq_true] at hr
    have hany := hr.1
    cases hg : ops.prevoteGhost s.round with
    | none => simp [hg] at hany
    | some pG => exact ⟨pG, est, rfl, hest, by simpa [hg] using hany⟩

end VotingRound

end FinalityGrandpa

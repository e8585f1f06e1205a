import Mathlib.Data.BitVec

/-!
# The voting round (`voter/voting_round.rs`)

`VotingRound::run` loops over a state machine `Start → Proposed → Prevoted → Precommitted`; each
pass may send the primary's proposal, a prevote or a precommit, then waits in `select!` for an
incoming message, an update of the previous round's state, or the phase's timer.

The model runs each `async fn` in `EStateM (Exit E) (VotingRound R H w)`: the state is the
voter's fields, and an exit is an error returned by `?`, a panic of an `expect` or of a
`select!` with every branch terminated, or the `unreachable!()` of the `Poisoned` state. The parts of the outside world are parameters:

* `RoundOps` is what the pass reads and calls of `Round` (`round.rs`, not part of this file);
* `EnvAnswers` is what the environment answers during one pass (`is_equal_or_descendent_of`,
  `ancestry`, `best_chain_containing`, and the outgoing sink);
* `Event` is what wins the pass's `select!`.

A fused timer fires at most once and `future::pending` never does: `run` takes one event per
pass and refuses a timer event the `select!` could not see. Once both input streams have ended
and the timer has fired, the `select!` has no branch left and panics (`Event.allTerminated`).
Block numbers are `BitVec w`, the
fixed-width `Number` of the source, and a `usize` is a `Nat`.
-/

namespace FinalityGrandpa

/-- `Prevote`. -/
structure Prevote (H N : Type) where
  targetHash : H
  targetNumber : N
deriving DecidableEq, Repr

/-- `Precommit`. -/
structure Precommit (H N : Type) where
  targetHash : H
  targetNumber : N
deriving DecidableEq, Repr

/-- `PrimaryPropose`. -/
structure PrimaryPropose (H N : Type) where
  targetHash : H
  targetNumber : N
deriving DecidableEq, Repr

/-- `Message`. -/
inductive Message (H N : Type)
  | prevote (prevote : Prevote H N)
  | precommit (precommit : Precommit H N)
  | primaryPropose (primary : PrimaryPropose H N)
deriving DecidableEq, Repr

/-- `Message::target`. -/
def Message.target {H N : Type} : Message H N → H × N
  | .prevote v => (v.targetHash, v.targetNumber)
  | .precommit v => (v.targetHash, v.targetNumber)
  | .primaryPropose v => (v.targetHash, v.targetNumber)

/-- `SignedMessage`. -/
structure SignedMessage (H N Sig Id : Type) where
  message : Message H N
  signature : Sig
  id : Id

namespace VotingRound

/-- `round::State`: the fields of the previous round's state the voter reads. -/
structure RoundState (H N : Type) where
  prevoteGhost : Option (H × N)
  finalized : Option (H × N)
  estimate : Option (H × N)
deriving DecidableEq, Repr

/-- `Voting`. -/
inductive Voting
  | no
  | yes
  | primary
deriving DecidableEq, Repr

/-- `Voting::is_active`. -/
def Voting.isActive : Voting → Bool
  | .yes | .primary => true
  | .no => false

/-- `Voting::is_primary`. -/
def Voting.isPrimary : Voting → Bool
  | .primary => true
  | _ => false

/-- A fused timer: `terminated` once it has fired, after which `select!` never polls it again.
`future::pending` is a timer terminated from the start. -/
structure Timer where
  terminated : Bool
deriving DecidableEq, Repr

/-- `State<Timer>`. -/
inductive State
  | start (prevoteTimer precommitTimer : Timer)
  | proposed (prevoteTimer precommitTimer : Timer)
  | prevoted (precommitTimer : Timer)
  | precommitted
  | poisoned
deriving DecidableEq, Repr

/-- The timer the pass of each state waits on (`pending` after the precommit). -/
def State.timer : State → Timer
  | .start prevoteTimer _ => prevoteTimer
  | .proposed prevoteTimer _ => prevoteTimer
  | .prevoted precommitTimer => precommitTimer
  | .precommitted | .poisoned => { terminated := true }

/-- What the voting round reads of and does to its `Round` (of state type `R`). -/
structure RoundOps (R H N E Id Sig : Type) where
  importPrevote : R → Prevote H N → Id → Sig → Except E R
  importPrecommit : R → Precommit H N → Id → Sig → Except E R
  completable : R → Bool
  finalized : R → Option (H × N)
  /-- `round.state().prevote_ghost`. -/
  prevoteGhost : R → Option (H × N)
  base : R → H × N
  primaryVoter : R → Id
  /-- `round.voters().contains(id)`. -/
  isVoter : R → Id → Bool
  setPrevotedIndex : R → R
  setPrecommittedIndex : R → R

/-- What the environment answers during one pass of the loop. -/
structure EnvAnswers (H N E : Type) where
  isEqualOrDescendentOf : H → H → Bool
  /-- `Chain::ancestry(base, block)`; `none` is `Err(NotDescendent)`. -/
  ancestry : H → H → Option (List H)
  bestChainContaining : H → Except E (Option (H × N))
  /-- The outcome of `self.outgoing.send(message)`. -/
  send : Message H N → Except E Unit

/-- What ends the `select!` of `handle_inputs!`: the branch that wins it, or `allTerminated`. -/
inductive Event (H N E Id Sig : Type)
  | incoming (message : Except E (SignedMessage H N Sig Id))
  | roundState (roundState : RoundState H N)
  | timer
  /-- Both `incoming` and `previous_round_state_updates` have ended, so their
  `select_next_some` branches are terminated, and so is the timer: `select!` has no branch left
  and, with no `complete` branch, panics. The end of a single stream is no event of its own: it
  only leaves that stream's events out of the rest of the run. -/
  | allTerminated

/-- `select!` can only pick a timer that has not fired, and finds every branch terminated only
once the timer has fired (`future::pending` counts as terminated). -/
def Event.Enabled {H N E Id Sig : Type} (timer : Timer) : Event H N E Id Sig → Bool
  | .timer => !timer.terminated
  | .allTerminated => timer.terminated
  | _ => true

/-- How `run` stops early: `?` on an error, a panic (an `expect`, or a `select!` with every
branch terminated), or `unreachable!()`. -/
inductive Exit (E : Type)
  | error (e : E)
  | panic
  | unreachable
deriving DecidableEq, Repr

end VotingRound

open VotingRound

/-- `VotingRound`: the voter's fields other than the environment and the input streams, with
the messages sent so far to `outgoing`. -/
structure VotingRound (R H : Type) (w : Nat) where
  voting : Voting
  outgoing : List (Message H (BitVec w))
  round : R
  state : State
  primaryBlock : Option (H × BitVec w)
  previousRoundState : RoundState H (BitVec w)

namespace VotingRound

/-- The code of one pass: it reads and writes the voter, and may stop the run. -/
abbrev VoterM (R H E : Type) (w : Nat) := EStateM (Exit E) (VotingRound R H w)

variable {R H E Id Sig : Type} {w : Nat} [DecidableEq H] [DecidableEq Id]
  (ops : RoundOps R H (BitVec w) E Id Sig) (env : EnvAnswers H (BitVec w) E)

/-- `?` on a result of the environment or of the round. -/
def liftE {α : Type} : Except E α → VoterM R H E w α
  | .ok a => pure a
  | .error e => throw (.error e)

/-- `self.outgoing.send(message).await?`: the message goes to the sink, which may fail. -/
def send (message : Message H (BitVec w)) : VoterM R H E w Unit := do
  modify fun vr => { vr with outgoing := vr.outgoing ++ [message] }
  liftE (env.send message)

/-- `self.state = state`. -/
def setState (state : State) : VoterM R H E w Unit :=
  modify fun vr => { vr with state }

/-- `VotingRound::new`, once `round_data` is fetched and the round built. -/
def new (round : R) (voterId : Option Id) (previousRoundState : RoundState H (BitVec w)) :
    VotingRound R H w where
  voting := if voterId = some (ops.primaryVoter round) then .primary
    else if voterId.any (ops.isVoter round) then .yes else .no
  outgoing := []
  round := round
  state := .start { terminated := false } { terminated := false }
  primaryBlock := none
  previousRoundState := previousRoundState

/-- `handle_incoming_message`. -/
def handleIncomingMessage (message : SignedMessage H (BitVec w) Sig Id) :
    VoterM R H E w Unit := do
  let vr ← get
  if !env.isEqualOrDescendentOf (ops.base vr.round).1 message.message.target.1 then return
  match message.message with
  | .prevote prevote =>
    let round ← liftE (ops.importPrevote vr.round prevote message.id message.signature)
    set { vr with round }
  | .precommit precommit =>
    let round ← liftE (ops.importPrecommit vr.round precommit message.id message.signature)
    set { vr with round }
  | .primaryPropose primary =>
    if message.id = ops.primaryVoter vr.round then
      set { vr with primaryBlock := some (primary.targetHash, primary.targetNumber) }

/-- `handle_inputs!` on `timer`, given what won its `select!`: whether the timer fired, and the
timer after it. -/
def handleInputs (timer : Timer) : Event H (BitVec w) E Id Sig → VoterM R H E w (Bool × Timer)
  | .incoming message => do
    let message ← liftE message
    handleIncomingMessage ops env message
    pure (false, timer)
  | .roundState roundState => do
    modify fun vr => { vr with previousRoundState := roundState }
    pure (false, timer)
  | .timer => pure (true, { terminated := true })
  | .allTerminated => throw .panic

/-- `primary_propose`. -/
def primaryPropose : VoterM R H E w Bool := do
  let vr ← get
  if !vr.voting.isPrimary then return false
  match vr.previousRoundState.estimate with
  | some previousRoundEstimate =>
    let shouldSendPrimary := vr.previousRoundState.finalized.elim true
      fun finalized => decide (previousRoundEstimate.2 > finalized.2)
    if shouldSendPrimary then
      send env (.primaryPropose
        { targetHash := previousRoundEstimate.1, targetNumber := previousRoundEstimate.2 })
      return true
    else
      return false
  | none => return false

/-- The block `construct_prevote` asks `best_chain_containing` for (`find_descendent_of`); `none`
where an `expect` panics. -/
def findDescendentOf (ancestry : H → H → Option (List H)) (primaryBlock : Option (H × BitVec w))
    (previousRoundState : RoundState H (BitVec w)) : Option H := do
  let previousRoundEstimate ← previousRoundState.estimate
  match primaryBlock with
  | none => pure previousRoundEstimate.1
  | some primaryBlock =>
    let previousPrevoteGhost ← previousRoundState.prevoteGhost
    if primaryBlock = previousPrevoteGhost then pure primaryBlock.1
    else if primaryBlock.2 ≥ previousPrevoteGhost.2 then pure previousRoundEstimate.1
    else
      match ancestry previousRoundEstimate.1 previousPrevoteGhost.1 with
      | some ancestry =>
        let toSub := primaryBlock.2 + 1
        let offset := if previousPrevoteGhost.2 < toSub then 0
          else (previousPrevoteGhost.2 - toSub).toNat
        if ancestry[offset]?.any (· == primaryBlock.1) then pure primaryBlock.1
        else pure previousRoundEstimate.1
      | none => pure previousRoundEstimate.1

/-- `construct_prevote`. -/
def constructPrevote : VoterM R H E w (Option (Prevote H (BitVec w))) := do
  let vr ← get
  let some findDescendentOf := findDescendentOf env.ancestry vr.primaryBlock vr.previousRoundState
    | throw .panic
  match ← liftE (env.bestChainContaining findDescendentOf) with
  | some target => pure (some { targetHash := target.1, targetNumber := target.2 })
  | none => pure none

/-- `prevote`. -/
def prevote (prevoteTimerReady : Bool) : VoterM R H E w Bool := do
  let vr ← get
  let shouldPrevote := prevoteTimerReady || ops.completable vr.round
  if shouldPrevote then
    if vr.voting.isActive then
      match ← constructPrevote env with
      | some prevote =>
        modify fun vr => { vr with round := ops.setPrevotedIndex vr.round }
        send env (.prevote prevote)
      | none => modify fun vr => { vr with voting := .no }
    return true
  else
    return false

/-- `construct_precommit`. -/
def constructPrecommit (round : R) : Precommit H (BitVec w) :=
  let target := match ops.prevoteGhost round with
    | some target => target
    | none => ops.base round
  { targetHash := target.1, targetNumber := target.2 }

/-- `precommit`. -/
def precommit (precommitTimerReady : Bool) : VoterM R H E w Bool := do
  let vr ← get
  let some previousRoundEstimate := vr.previousRoundState.estimate | throw .panic
  let previousRoundEstimateLowerOrEqualToPrevoteGhost := (ops.prevoteGhost vr.round).any fun pG =>
    decide (pG = previousRoundEstimate) ||
      env.isEqualOrDescendentOf previousRoundEstimate.1 pG.1
  let shouldPrecommit := previousRoundEstimateLowerOrEqualToPrevoteGhost &&
    (precommitTimerReady || ops.completable vr.round)
  if shouldPrecommit then
    if vr.voting.isActive then
      let precommit := constructPrecommit ops vr.round
      modify fun vr => { vr with round := ops.setPrecommittedIndex vr.round }
      send env (.precommit precommit)
    return true
  else
    return false

/-- `is_completable`. -/
def isCompletable (vr : VotingRound R H w) : Bool :=
  if !ops.completable vr.round || (ops.finalized vr.round).isNone then false
  else
    match vr.previousRoundState.estimate, vr.previousRoundState.finalized with
    | some (_, previousRoundEstimate), some (_, previousRoundFinalized) =>
      let finalizedInPreviousRound := decide (previousRoundEstimate ≤ previousRoundFinalized)
      let finalizedInCurrentRound := (ops.finalized vr.round).any fun currentRoundFinalized =>
        decide (previousRoundEstimate ≤ currentRoundFinalized.2)
      finalizedInPreviousRound || finalizedInCurrentRound
    | _, _ => false

/-- One pass of the `loop` of `run`, given what wins its `select!`: `true` when it breaks out. -/
def iterate (event : Event H (BitVec w) E Id Sig) : VoterM R H E w Bool := do
  let vr ← get
  set { vr with state := .poisoned }
  match vr.state with
  | .start prevoteTimer precommitTimer =>
    let proposed ← primaryPropose env
    let (prevoteTimerReady, prevoteTimer) ← handleInputs ops env prevoteTimer event
    let prevoted ← prevote ops env prevoteTimerReady
    if prevoted then setState (.prevoted precommitTimer)
    else if proposed then setState (.proposed prevoteTimer precommitTimer)
    else setState (.start prevoteTimer precommitTimer)
    return false
  | .proposed prevoteTimer precommitTimer =>
    let (prevoteTimerReady, prevoteTimer) ← handleInputs ops env prevoteTimer event
    let prevoted ← prevote ops env prevoteTimerReady
    if prevoted then setState (.prevoted precommitTimer)
    else setState (.proposed prevoteTimer precommitTimer)
    return false
  | .prevoted precommitTimer =>
    let (precommitTimerReady, precommitTimer) ← handleInputs ops env precommitTimer event
    let precommitted ← precommit ops env precommitTimerReady
    if precommitted then setState .precommitted
    else setState (.prevoted precommitTimer)
    return false
  | .precommitted =>
    let _ ← handleInputs ops env { terminated := true } event
    if isCompletable ops (← get) then return true
    setState .precommitted
    return false
  | .poisoned => throw .unreachable

/-- Where `run` stands after some passes of its loop. -/
inductive Outcome (R H E : Type) (w : Nat)
  /-- Still in the loop. -/
  | running (vr : VotingRound R H w)
  /-- Broke out: `run` returns `Ok`. -/
  | ok (vr : VotingRound R H w)
  /-- Stopped by an error, a panic or `unreachable!()`. -/
  | exit (e : Exit E) (vr : VotingRound R H w)

/-- `run`, one pass per input: what wins the pass's `select!`, with the environment's answers
during the pass. `none` if an input's event cannot win the `select!` of its pass. -/
def run : List (EnvAnswers H (BitVec w) E × Event H (BitVec w) E Id Sig) →
    VotingRound R H w → Option (Outcome R H E w)
  | [], vr => some (.running vr)
  | (env, event) :: inputs, vr =>
    if event.Enabled vr.state.timer then
      match (iterate ops env event).run vr with
      | .ok false vr' => run inputs vr'
      | .ok true vr' => some (.ok vr')
      | .error e vr' => some (.exit e vr')
    else none

end VotingRound

end FinalityGrandpa

import FinalityGrandpa.Voter.Effects

/-!
# The loop of `run`

A pass of the loop swaps the state for `Poisoned` (`mem::replace`), runs the calls of the state
it took out, and writes the next state back. `iterate_start` … `iterate_poisoned` unfold one pass
into the calls of `Effects.lean`, one equation per state, so that the lemmas about passes never
unfold `iterate` again.

A run feeds the loop one input per pass. `run_reach_invariant` is the induction over a run: a
property of outcomes that the start has and every enabled pass keeps, from the voter a prefix of
the inputs leaves, holds where the run ends; `run_invariant` is its case for passes from any
voter;
`run_stop` finds the pass a stopped run stopped at, after a prefix of the inputs, and `run_exit`
the error and the voter that pass stopped with; `run_sent` and `run_field` find the pass that
sent a message or wrote a field. `run_snoc`, `run_append`, `run_append_running` and
`run_cons_running` cut a run at a prefix of its inputs.
-/

namespace FinalityGrandpa

namespace VotingRound

variable {R H E Id Sig : Type} {w : Nat} [DecidableEq H] [DecidableEq Id]
  (ops : RoundOps R H (BitVec w) E Id Sig) (env : EnvAnswers H (BitVec w) E)

/-! ## One pass -/

theorem iterate_start (ev : Event H (BitVec w) E Id Sig) {s : VotingRound R H w}
    {p c : Timer} (hs : s.state = .start p c) :
    (iterate ops env ev).run s =
      match (primaryPropose env).run { s with state := .poisoned } with
      | .error e s₁ => .error e s₁
      | .ok proposed s₁ =>
        match (handleInputs ops env p ev).run s₁ with
        | .error e s₂ => .error e s₂
        | .ok (ready, p') s₂ =>
          match (prevote ops env ready).run s₂ with
          | .error e s₃ => .error e s₃
          | .ok prevoted s₃ => .ok false
            { s₃ with state := (if prevoted then .prevoted c else if proposed then .proposed p' c
                                else .start p' c) } := by
  simp only [iterate, bind_run, get_run, set_run, hs]
  rcases (primaryPropose env).run _ with ⟨proposed, s₁⟩ | ⟨e, s₁⟩ <;> dsimp only
  rcases (handleInputs ops env p ev).run s₁ with ⟨⟨ready, p'⟩, s₂⟩ | ⟨e, s₂⟩ <;> dsimp only
  rcases (prevote ops env ready).run s₂ with ⟨prevoted, s₃⟩ | ⟨e, s₃⟩ <;> dsimp only
  cases prevoted <;> cases proposed <;> rfl

theorem iterate_proposed (ev : Event H (BitVec w) E Id Sig) {s : VotingRound R H w}
    {p c : Timer} (hs : s.state = .proposed p c) :
    (iterate ops env ev).run s =
      match (handleInputs ops env p ev).run { s with state := .poisoned } with
      | .error e s₂ => .error e s₂
      | .ok (ready, p') s₂ =>
        match (prevote ops env ready).run s₂ with
        | .error e s₃ => .error e s₃
        | .ok prevoted s₃ => .ok false
          { s₃ with state := (if prevoted then .prevoted c else .proposed p' c) } := by
  simp only [iterate, bind_run, get_run, set_run, hs]
  rcases (handleInputs ops env p ev).run _ with ⟨⟨ready, p'⟩, s₂⟩ | ⟨e, s₂⟩ <;> dsimp only
  rcases (prevote ops env ready).run s₂ with ⟨prevoted, s₃⟩ | ⟨e, s₃⟩ <;> dsimp only
  cases prevoted <;> rfl

theorem iterate_prevoted (ev : Event H (BitVec w) E Id Sig) {s : VotingRound R H w}
    {c : Timer} (hs : s.state = .prevoted c) :
    (iterate ops env ev).run s =
      match (handleInputs ops env c ev).run { s with state := .poisoned } with
      | .error e s₂ => .error e s₂
      | .ok (ready, c') s₂ =>
        match (precommit ops env ready).run s₂ with
        | .error e s₃ => .error e s₃
        | .ok precommitted s₃ => .ok false
          { s₃ with state := (if precommitted then .precommitted else .prevoted c') } := by
  simp only [iterate, bind_run, get_run, set_run, hs]
  rcases (handleInputs ops env c ev).run _ with ⟨⟨ready, c'⟩, s₂⟩ | ⟨e, s₂⟩ <;> dsimp only
  rcases (precommit ops env ready).run s₂ with ⟨precommitted, s₃⟩ | ⟨e, s₃⟩ <;> dsimp only
  cases precommitted <;> rfl

theorem iterate_precommitted (ev : Event H (BitVec w) E Id Sig) {s : VotingRound R H w}
    (hs : s.state = .precommitted) :
    (iterate ops env ev).run s =
      match (handleInputs ops env { terminated := true } ev).run { s with state := .poisoned } with
      | .error e s₂ => .error e s₂
      | .ok _ s₂ => if isCompletable ops s₂ then .ok true s₂
        else .ok false { s₂ with state := .precommitted } := by
  simp only [iterate, bind_run, get_run, set_run, hs]
  rcases (handleInputs ops env _ ev).run _ with ⟨x, s₂⟩ | ⟨e, s₂⟩
  · by_cases hc : isCompletable ops s₂ = true <;> simp only [hc] <;> rfl
  · rfl

theorem iterate_poisoned (ev : Event H (BitVec w) E Id Sig) {s : VotingRound R H w}
    (hs : s.state = .poisoned) :
    (iterate ops env ev).run s = .error .unreachable { s with state := .poisoned } := by
  simp [iterate, hs]

/-! ## Whole runs -/

/-- The outcome of `run` a pass leads to: `running` when it stays in the loop. -/
def Outcome.ofPass : EStateM.Result (Exit E) (VotingRound R H w) Bool → Outcome R H E w
  | .ok false vr => .running vr
  | .ok true vr => .ok vr
  | .error e vr => .exit e vr

/-- The voter an outcome of `run` leaves. -/
def Outcome.voter : Outcome R H E w → VotingRound R H w
  | .running vr | .ok vr | .exit _ vr => vr

omit [DecidableEq H] [DecidableEq Id] in
@[simp] theorem Outcome.voter_running (vr : VotingRound R H w) :
    (Outcome.running vr : Outcome R H E w).voter = vr := rfl

omit [DecidableEq H] [DecidableEq Id] in
@[simp] theorem Outcome.voter_ofPass (r : EStateM.Result (Exit E) (VotingRound R H w) Bool) :
    (Outcome.ofPass r).voter = resultState r := by
  rcases r with ⟨_ | _, s⟩ | ⟨e, s⟩ <;> rfl

/-- A property of outcomes that holds of `running vr` and that every enabled pass keeps, from
the voter a prefix of the inputs leaves, holds of where `run` ends. -/
theorem run_reach_invariant (Q : Outcome R H E w → Prop) :
    ∀ {inputs : List (EnvAnswers H (BitVec w) E × Event H (BitVec w) E Id Sig)}
      {vr : VotingRound R H w},
    (∀ pre x vr', pre ++ [x] <+: inputs → run ops pre vr = some (.running vr') →
      Q (.running vr') → x.2.Enabled vr'.state.timer = true →
      Q (Outcome.ofPass ((iterate ops x.1 x.2).run vr'))) →
    ∀ {o}, Q (.running vr) → run ops inputs vr = some o → Q o
  | [], _, _, _, hq, h => by cases h; exact hq
  | (env, ev) :: inputs, vr, hpass, o, hq, h => by
    simp only [run] at h
    split at h
    · have hq' := hpass [] (env, ev) vr ⟨inputs, rfl⟩ rfl hq ‹_›
      split at h <;> rename_i hr <;> rw [hr] at hq'
      · refine run_reach_invariant Q (fun pre x vr' hpre hrun =>
          hpass ((env, ev) :: pre) x vr' (List.cons_prefix_cons.2 ⟨rfl, hpre⟩) ?_) hq' h
        simp only [run, hr, hrun]
        exact if_pos ‹_›
      · cases h; exact hq'
      · cases h; exact hq'
    · cases h

/-- A property of outcomes that holds of `running vr` and that every enabled pass of the
inputs keeps holds of where `run` ends. -/
theorem run_invariant (Q : Outcome R H E w → Prop)
    {inputs : List (EnvAnswers H (BitVec w) E × Event H (BitVec w) E Id Sig)}
    (hpass : ∀ x ∈ inputs, ∀ vr, Q (.running vr) → x.2.Enabled vr.state.timer = true →
      Q (Outcome.ofPass ((iterate ops x.1 x.2).run vr)))
    {vr : VotingRound R H w} {o : Outcome R H E w} (hq : Q (.running vr))
    (h : run ops inputs vr = some o) : Q o :=
  run_reach_invariant ops Q (fun _ x vr' hpre _ =>
    hpass x (hpre.subset (List.mem_concat_self _ x)) vr') hq h

/-- Where `run` stops, it stops at a pass from the voter a prefix of the inputs leaves. -/
theorem run_stop : ∀ {inputs : List (EnvAnswers H (BitVec w) E × Event H (BitVec w) E Id Sig)}
    {vr : VotingRound R H w} {o : Outcome R H E w}, run ops inputs vr = some o →
    (∀ vr', o ≠ .running vr') → ∃ pre x vr', pre ++ [x] <+: inputs ∧
      run ops pre vr = some (.running vr') ∧ x.2.Enabled vr'.state.timer = true ∧
      Outcome.ofPass ((iterate ops x.1 x.2).run vr') = o
  | [], _, _, h, ho => by cases h; exact absurd rfl (ho _)
  | (env, ev) :: inputs, vr, o, h, ho => by
    simp only [run] at h
    split at h
    · split at h <;> rename_i hr
      · obtain ⟨pre, x, vr', hpre, hrun, hen, hx⟩ := run_stop h ho
        refine ⟨(env, ev) :: pre, x, vr', List.cons_prefix_cons.2 ⟨rfl, hpre⟩, ?_, hen, hx⟩
        simp only [run, hr, hrun]
        exact if_pos ‹_›
      · cases h; exact ⟨[], (env, ev), vr, ⟨inputs, rfl⟩, rfl, ‹_›, by rw [hr]; rfl⟩
      · cases h; exact ⟨[], (env, ev), vr, ⟨inputs, rfl⟩, rfl, ‹_›, by rw [hr]; rfl⟩
    · cases h

/-- A run that stops, stops in the pass of an enabled input, from the voter the inputs before it
leave, with the error and the voter of that pass. -/
theorem run_exit {inputs : List (EnvAnswers H (BitVec w) E × Event H (BitVec w) E Id Sig)}
    {vr v : VotingRound R H w} {e : Exit E} (h : run ops inputs vr = some (.exit e v)) :
    ∃ pre x s, pre ++ [x] <+: inputs ∧ run ops pre vr = some (.running s) ∧
      x.2.Enabled s.state.timer = true ∧ (iterate ops x.1 x.2).run s = .error e v := by
  obtain ⟨pre, x, s, hpre, hrun, hen, hx⟩ := run_stop ops h fun _ h => Outcome.noConfusion h
  refine ⟨pre, x, s, hpre, hrun, hen, ?_⟩
  revert hx
  rcases (iterate ops x.1 x.2).run s with ⟨_ | _, s'⟩ | ⟨e', s'⟩ <;> intro hx <;> cases hx
  rfl

/-- A message in the `outgoing` of where a run ends was there at its start, or a pass appended
it, from the voter a prefix of the inputs leaves: what every pass gives the messages it appends
holds of every message a run sends. -/
theorem run_sent (P : VotingRound R H w → EnvAnswers H (BitVec w) E →
      Event H (BitVec w) E Id Sig → Message H (BitVec w) → Prop)
    (hpass : ∀ vr env ev, Appends (P vr env ev) vr (resultState ((iterate ops env ev).run vr))) :
    ∀ {inputs : List (EnvAnswers H (BitVec w) E × Event H (BitVec w) E Id Sig)}
      {vr : VotingRound R H w} {o : Outcome R H E w}, run ops inputs vr = some o →
    ∀ m ∈ o.voter.outgoing, m ∈ vr.outgoing ∨ ∃ pre x vr', pre ++ [x] <+: inputs ∧
      run ops pre vr = some (.running vr') ∧ x.2.Enabled vr'.state.timer = true ∧
      P vr' x.1 x.2 m
  | [], _, _, h, m, hm => by cases h; exact .inl hm
  | (env, ev) :: inputs, vr, o, h, m, hm => by
    simp only [run] at h
    split at h
    · obtain ⟨sent, hout, hP⟩ := hpass vr env ev
      have hsplit : m ∈ (resultState ((iterate ops env ev).run vr)).outgoing →
          m ∈ vr.outgoing ∨ ∃ pre x vr', pre ++ [x] <+: (env, ev) :: inputs ∧
            run ops pre vr = some (.running vr') ∧ x.2.Enabled vr'.state.timer = true ∧
            P vr' x.1 x.2 m := fun hm' => by
        rw [hout, List.mem_append] at hm'
        exact hm'.imp_right fun hs => ⟨[], (env, ev), vr, ⟨inputs, rfl⟩, rfl, ‹_›, hP m hs⟩
      split at h <;> rename_i hr
      · rcases run_sent P hpass h m hm with hm' | ⟨pre, x, vr', hpre, hrun, hen, hPm⟩
        · exact hsplit (by rw [hr]; exact hm')
        · refine .inr ⟨(env, ev) :: pre, x, vr', List.cons_prefix_cons.2 ⟨rfl, hpre⟩, ?_, hen, hPm⟩
          simp only [run, hr, hrun]
          exact if_pos ‹_›
      · cases h; exact hsplit (by rw [hr]; exact hm)
      · cases h; exact hsplit (by rw [hr]; exact hm)
    · cases h

/-- A field of the voter where a run ends holds what it held at the start, or what a pass wrote,
from the voter a prefix of the inputs leaves: what every pass gives the values it writes holds
of the value a run ends with. -/
theorem run_field {α : Type} (f : VotingRound R H w → α)
    (P : VotingRound R H w → EnvAnswers H (BitVec w) E → Event H (BitVec w) E Id Sig → α → Prop)
    (hpass : ∀ vr env ev, f (resultState ((iterate ops env ev).run vr)) = f vr ∨
      P vr env ev (f (resultState ((iterate ops env ev).run vr)))) :
    ∀ {inputs : List (EnvAnswers H (BitVec w) E × Event H (BitVec w) E Id Sig)}
      {vr : VotingRound R H w} {o : Outcome R H E w}, run ops inputs vr = some o →
    f o.voter = f vr ∨ ∃ pre x vr', pre ++ [x] <+: inputs ∧
      run ops pre vr = some (.running vr') ∧ x.2.Enabled vr'.state.timer = true ∧
      P vr' x.1 x.2 (f o.voter)
  | [], _, _, h => by cases h; exact .inl rfl
  | (env, ev) :: inputs, vr, o, h => by
    simp only [run] at h
    split at h
    · have hfirst : f (resultState ((iterate ops env ev).run vr)) = f vr ∨ ∃ pre x vr',
          pre ++ [x] <+: (env, ev) :: inputs ∧ run ops pre vr = some (.running vr') ∧
          x.2.Enabled vr'.state.timer = true ∧
          P vr' x.1 x.2 (f (resultState ((iterate ops env ev).run vr))) :=
        (hpass vr env ev).imp_right fun hP => ⟨[], (env, ev), vr, ⟨inputs, rfl⟩, rfl, ‹_›, hP⟩
      split at h <;> rename_i hr <;> rw [hr] at hfirst
      · rcases run_field f P hpass h with h' | ⟨pre, x, vr', hpre, hrun, hen, hP⟩
        · rw [h']; exact hfirst
        · refine .inr ⟨(env, ev) :: pre, x, vr', List.cons_prefix_cons.2 ⟨rfl, hpre⟩, ?_, hen, hP⟩
          simp only [run, hr, hrun]
          exact if_pos ‹_›
      · cases h; exact hfirst
      · cases h; exact hfirst
    · cases h

/-- A run still in the loop after `pre` runs one more pass on the next input. -/
theorem run_snoc {x : EnvAnswers H (BitVec w) E × Event H (BitVec w) E Id Sig} :
    ∀ {pre : List (EnvAnswers H (BitVec w) E × Event H (BitVec w) E Id Sig)}
      {vr vr' : VotingRound R H w}, run ops pre vr = some (.running vr') →
    x.2.Enabled vr'.state.timer = true →
    run ops (pre ++ [x]) vr = some (Outcome.ofPass ((iterate ops x.1 x.2).run vr'))
  | [], vr, vr', h, hen => by
    cases h
    simp only [List.nil_append, run, hen, if_true]
    rcases (iterate ops x.1 x.2).run vr with ⟨_ | _, s⟩ | ⟨e, s⟩ <;> rfl
  | (env, ev) :: pre, vr, vr', h, hen => by
    simp only [run] at h
    split at h <;> rename_i hen₀
    · split at h <;> rename_i hr
      · simp only [List.cons_append, run, hen₀, if_true, hr]
        exact run_snoc h hen
      · cases h
      · cases h
    · cases h

/-- `run` over `l₁ ++ l₂` runs `l₂` from where `l₁` leaves the voter, if still in the loop. -/
theorem run_append (l₂ : List (EnvAnswers H (BitVec w) E × Event H (BitVec w) E Id Sig)) :
    ∀ {l₁ : List (EnvAnswers H (BitVec w) E × Event H (BitVec w) E Id Sig)}
      {vr : VotingRound R H w}, run ops (l₁ ++ l₂) vr = (run ops l₁ vr).bind fun o =>
        match o with
        | .running v => run ops l₂ v
        | o => some o
  | [], vr => rfl
  | (env, ev) :: l₁, vr => by
    simp only [List.cons_append, run]
    by_cases hen : ev.Enabled vr.state.timer = true
    · simp only [hen, if_true]
      rcases (iterate ops env ev).run vr with ⟨_ | _, v⟩ | ⟨e, v⟩
      · exact run_append l₂
      · rfl
      · rfl
    · simp only [hen, if_false]
      rfl

/-- A run over `l₁ ++ l₂` still in the loop at its end was in the loop after `l₁`. -/
theorem run_append_running {l₁ l₂ : List (EnvAnswers H (BitVec w) E × Event H (BitVec w) E Id Sig)}
    {vr s : VotingRound R H w} (h : run ops (l₁ ++ l₂) vr = some (.running s)) :
    ∃ v, run ops l₁ vr = some (.running v) ∧ run ops l₂ v = some (.running s) := by
  rw [run_append] at h
  rcases hl : run ops l₁ vr with _ | ⟨v | v | ⟨e, v⟩⟩ <;> rw [hl] at h
  · cases h
  · exact ⟨v, rfl, h⟩
  all_goals cases h

/-- A run over `x :: l` still in the loop at its end stayed in the loop on the pass of `x`. -/
theorem run_cons_running {x : EnvAnswers H (BitVec w) E × Event H (BitVec w) E Id Sig}
    {l : List (EnvAnswers H (BitVec w) E × Event H (BitVec w) E Id Sig)}
    {vr s : VotingRound R H w} (h : run ops (x :: l) vr = some (.running s)) :
    ∃ v, (iterate ops x.1 x.2).run vr = .ok false v ∧ run ops l v = some (.running s) := by
  simp only [run] at h
  split at h
  · split at h <;> rename_i v hr
    · exact ⟨v, hr, h⟩
    all_goals cases h
  · cases h

end VotingRound

end FinalityGrandpa

import FinalityGrandpa.VoteGraph.Branch
import Mathlib.Algebra.Order.BigOperators.Group.List
import Mathlib.Algebra.Order.Ring.Nat

/-!
# `insert` keeps the tally

A graph built by admissible `insert` calls from `VoteGraph::new(base, number(base))` satisfies
`Inv`: it is well-formed, its vote-nodes are the base and the voted blocks, and every cumulative
vote is the sum of the votes cast at or above its block (`voteSum`).

1. the weight loop adds the vote to the voted node and to every vote-node below it, and to
   nothing else (`addVote_eq`);
2. the votes above a block that is not a vote-node split among the vote-nodes whose edges hold
   it (`voteSum_eq_sum_contains`), so the entry `introduce_branch` makes starts at the right sum;
3. one `insert` keeps `Inv` (`Inv.insert`), hence every run does (`insertAll_inv`).
-/

namespace FinalityGrandpa

variable {H V : Type} [DecidableEq H] [AddCommMonoid V] {T : BlockTree H}

/-- An `insert` call the graph over `base` can take: a block at or above the base, with its
chain number. -/
def Vote.Admissible (T : BlockTree H) (base : H) (v : Vote H V) : Prop :=
  T.IsAncestor base v.hash ∧ v.number = T.number v.hash

instance (T : BlockTree H) (base : H) (v : Vote H V) : Decidable (v.Admissible T base) :=
  inferInstanceAs (Decidable (_ ∧ _))

namespace VoteGraph

/-- The votes cast on `k` or on a block above it. -/
def voteSum (T : BlockTree H) (votes : List (Vote H V)) (k : H) : V :=
  (votes.map fun v => if T.IsAncestor k v.hash then v.vote else 0).sum

@[simp] theorem voteSum_nil (k : H) : voteSum T ([] : List (Vote H V)) k = 0 := rfl

@[simp] theorem voteSum_cons (v : Vote H V) (votes : List (Vote H V)) (k : H) :
    voteSum T (v :: votes) k = (if T.IsAncestor k v.hash then v.vote else 0) + voteSum T votes k :=
  List.sum_cons

@[simp] theorem voteSum_append (votes votes' : List (Vote H V)) (k : H) :
    voteSum T (votes ++ votes') k = voteSum T votes k + voteSum T votes' k := by
  simp [voteSum]

theorem voteSum_eq_zero {votes : List (Vote H V)} {k : H}
    (h : ∀ v ∈ votes, ¬ T.IsAncestor k v.hash) : voteSum T votes k = 0 :=
  List.sum_eq_zero fun x hx => by
    obtain ⟨v, hv, rfl⟩ := List.mem_map.1 hx
    simp [h v hv]

/-- What every graph built by admissible `insert` calls from `new base` holds. -/
structure Inv (T : BlockTree H) (base : H) (votes : List (Vote H V)) (g : VoteGraph H V) :
    Prop where
  wellFormed : WellFormed T g
  base_eq : g.base = base
  keys : ∀ k, (g.entries k).isSome ↔ k = base ∨ ∃ v ∈ votes, v.hash = k
  tally : ∀ k e, g.entries k = some e → e.cumulativeVote = voteSum T votes k

variable {g : VoteGraph H V}

/-! ## The new graph -/

theorem wellFormed_new (base : H) : WellFormed T (new base (T.number base) : VoteGraph H V) := by
  have hent : ∀ k e, (new base (T.number base) : VoteGraph H V).entries k = some e → k = base ∧
      e = { number := T.number base, ancestors := [], descendents := [], cumulativeVote := 0 } := by
    intro k e hk
    by_cases hkb : k = base <;> simp_all [new, eq_comm]
  have hanc : ∀ c, (new base (T.number base) : VoteGraph H V).ancestorNodeOf c = none := by
    intro c
    by_cases hc : c = base <;> simp [ancestorNodeOf, new, hc, Entry.ancestorNode]
  refine ⟨by simp [new], fun k e hk => ?_, fun k e hk hne => absurd (hent k e hk).1 hne,
    fun k => by by_cases hkb : k = base <;> simp [new, hkb], fun k e hk => ?_⟩
  all_goals obtain ⟨rfl, rfl⟩ := hent k e hk
  · exact ⟨rfl, T.isAncestor_refl _⟩
  · simp [hanc]

theorem inv_new (base : H) : Inv T base [] (new base (T.number base) : VoteGraph H V) where
  wellFormed := wellFormed_new base
  base_eq := rfl
  keys k := by by_cases hk : k = base <;> simp [new, hk]
  tally k e hk := by
    by_cases hkb : k = base
    · subst hkb; simp [new] at hk; simp [← hk]
    · simp [new, hkb] at hk

/-! ## The weight loop -/

/-- From a vote-node `x` of a well-formed graph, with more steps than its number, the weight loop
adds `vote` to `x` and every vote-node below it and changes nothing else. -/
theorem addVote_eq (vote : V) : ∀ fuel (g : VoteGraph H V) x, WellFormed T g →
    (g.entries x).isSome → T.number x < fuel →
    ∃ g', g.addVote vote fuel x = some g' ∧ g'.base = g.base ∧ g'.heads = g.heads ∧
      ∀ k, g'.entries k = (g.entries k).map fun e =>
        if T.IsAncestor k x then { e with cumulativeVote := e.cumulativeVote + vote } else e := by
  intro fuel
  induction fuel with
  | zero => intro g x _ _ h; omega
  | succ fuel ih =>
    intro g x hg hx hfuel
    obtain ⟨e, he⟩ := Option.isSome_iff_exists.1 hx
    set g₁ := g.setEntry x { e with cumulativeVote := e.cumulativeVote + vote } with hg₁def
    have he₁ : ∀ k, g₁.entries k = (g.entries k).map fun e =>
        if k = x then { e with cumulativeVote := e.cumulativeVote + vote } else e := by
      intro k; by_cases hk : k = x <;> simp [g₁, hk, he]
    have hg₁ : WellFormed T g₁ := hg.map_entries _ (fun k e => by split <;> simp) he₁ rfl rfl
    have hstep : g.addVote vote (fuel + 1) x = match e.ancestorNode with
        | some p => g₁.addVote vote fuel p
        | none => some g₁ := by
      simp only [addVote, he]; rfl
    cases ha : e.ancestorNode with
    | none =>
      have hxb := (hg.ancestorNode_eq_none he).1 ha
      refine ⟨g₁, by rw [hstep, ha], rfl, rfl, fun k => ?_⟩
      rw [he₁]
      cases hk : g.entries k with
      | none => rfl
      | some ek =>
        have : T.IsAncestor k x ↔ k = x := ⟨fun hkx => hkx.antisymm (hxb ▸ hg.base_isAncestor hk),
          fun hkx => hkx ▸ T.isAncestor_refl k⟩
        simp [this]
    | some p =>
      have hp : g.ancestorNodeOf x = some p := ancestorNodeOf_eq_some.2 ⟨e, he, ha⟩
      obtain ⟨-, hpkey, -, hlt⟩ := hg.ancestorNodeOf_spec hp
      have hpx : p ≠ x := by rintro rfl; omega
      obtain ⟨g', hrun, hb, hhs, hent⟩ :=
        ih g₁ p hg₁ (by simpa [g₁, hpx] using hpkey) (by omega)
      refine ⟨g', by rw [hstep, ha]; exact hrun, hb, hhs, fun k => ?_⟩
      rw [hent, he₁]
      cases hk : g.entries k with
      | none => rfl
      | some ek =>
        have hiff := hg.isAncestor_ancestorNodeOf_iff hp (show (g.entries k).isSome by simp [hk])
        by_cases hkx : k = x
        · subst hkx; simp [hiff, T.isAncestor_refl]
        · simp only [Option.map_some', hkx, if_false, hiff, ne_eq, not_false_eq_true, and_true]

/-! ## Splitting the votes among the containing nodes -/

namespace WellFormed

variable (hg : WellFormed T g) {h : H} (hh : g.entries h = none)
include hg hh

omit [AddCommMonoid V] in
/-- No two containing nodes of `h` are at or below one vote-node. -/
theorem not_two_contains_below {d d' x : H} (hd : g.Contains h (T.number h) d)
    (hd' : g.Contains h (T.number h) d') (hdx : T.IsAncestor d x) (hd'x : T.IsAncestor d' x) :
    d = d' :=
  (hdx.total hd'x).elim (hg.contains_eq_of_isAncestor hh hd hd')
    fun h' => (hg.contains_eq_of_isAncestor hh hd' hd h').symm

/-- A vote on `x` counts once among distinct containing nodes of `h` when one of them is below
`x`, and not at all otherwise. -/
theorem sum_map_contains {D : List H} (hD : D.Nodup)
    (hc : ∀ d ∈ D, g.Contains h (T.number h) d) (x : H) (w : V) :
    (D.map fun d => if T.IsAncestor d x then w else 0).sum =
      if ∃ d ∈ D, T.IsAncestor d x then w else 0 := by
  induction D with
  | nil => simp
  | cons d D ih =>
    obtain ⟨hdD, hnd⟩ := List.nodup_cons.1 hD
    rw [List.map_cons, List.sum_cons, ih hnd fun d' hd' => hc d' (List.mem_cons_of_mem d hd')]
    by_cases hdx : T.IsAncestor d x
    · have hnone : ¬ ∃ d' ∈ D, T.IsAncestor d' x := fun ⟨d', hd', hd'x⟩ => hdD <|
        (hg.not_two_contains_below hh (hc d (List.mem_cons_self d D))
          (hc d' (List.mem_cons_of_mem d hd')) hdx hd'x) ▸ hd'
      simp [hdx, hnone]
    · simp [hdx]

/-- The votes at or above `h`, all cast on vote-nodes, split among the vote-nodes whose edges
hold `h`. -/
theorem voteSum_eq_sum_contains (hbh : T.IsAncestor g.base h) {D : List H} (hD : D.Nodup)
    (hmem : ∀ d, d ∈ D ↔ g.Contains h (T.number h) d) (votes : List (Vote H V))
    (hvotes : ∀ v ∈ votes, (g.entries v.hash).isSome) :
    voteSum T votes h = (D.map fun d => voteSum T votes d).sum := by
  induction votes with
  | nil => simp [nsmul_zero]
  | cons v votes ih =>
    have hiff : (∃ d ∈ D, T.IsAncestor d v.hash) ↔ T.IsAncestor h v.hash := by
      constructor
      · rintro ⟨d, hd, hdx⟩
        obtain ⟨-, -, -, -, hhd, -⟩ := (hg.contains_iff hh).1 ((hmem d).1 hd)
        exact hhd.trans hdx
      · intro hhx
        obtain ⟨d, hd, hdx⟩ :=
          hg.exists_contains_below hh hbh _ (hvotes v (List.mem_cons_self v votes)) hhx
        exact ⟨d, (hmem d).2 hd, hdx⟩
    simp only [voteSum_cons, List.sum_map_add,
      ih fun v' hv' => hvotes v' (List.mem_cons_of_mem v hv'),
      hg.sum_map_contains hh hD (fun d hd => (hmem d).1 hd), hiff]

end WellFormed

/-! ## One `insert` -/

section Step

variable {chain : Chain H} {base : H} {votes : List (Vote H V)}

theorem Inv.hash_isSome (hinv : Inv T base votes g) {v : Vote H V} (hv : v ∈ votes) :
    (g.entries v.hash).isSome :=
  (hinv.keys _).2 (Or.inr ⟨v, hv, rfl⟩)

theorem Inv.exists_number_bound (hinv : Inv T base votes g) :
    ∃ M, ∀ k, (g.entries k).isSome → T.number k ≤ M := by
  refine ⟨((base :: votes.map Vote.hash).map T.number).sum, fun k hk => List.le_sum_of_mem ?_⟩
  rcases (hinv.keys k).1 hk with rfl | ⟨v, hv, rfl⟩
  · exact List.mem_map_of_mem _ (List.mem_cons_self _ _)
  · exact List.mem_map_of_mem _ (List.mem_cons_of_mem _ (List.mem_map_of_mem _ hv))

/-- The first phase of `insert` (the `find_containing_nodes` match) makes `h` a vote-node: it
leaves a well-formed graph whose other vote-nodes keep their cumulative votes, and the entry of
`h` starts at the votes already cast at or above `h`. -/
theorem Inv.exists_place (hinv : Inv T base votes g) (hchain : chain.Follows T base) {h : H}
    (hbh : T.IsAncestor base h) (w : V) :
    ∃ g₁, g.insert chain h (T.number h) w = g₁.addVote w (T.number h + 1) h ∧
      WellFormed T g₁ ∧ g₁.base = base ∧ ∀ k, (g₁.entries k).map Entry.cumulativeVote =
        if k = h then some (voteSum T votes h) else (g.entries k).map Entry.cumulativeVote := by
  have hg := hinv.wellFormed
  obtain rfl := hinv.base_eq
  by_cases hkey : (g.entries h).isSome
  · refine ⟨g, by simp [insert, findContainingNodes, hkey], hg, rfl, fun k => ?_⟩
    split_ifs with hk
    · subst hk
      obtain ⟨e, he⟩ := Option.isSome_iff_exists.1 hkey
      simp [he, hinv.tally _ _ he]
    · rfl
  have hh : g.entries h = none := Option.not_isSome_iff_eq_none.1 hkey
  obtain ⟨M, hM⟩ := hinv.exists_number_bound
  obtain ⟨D, hfind, hD, hmem⟩ := findContainingNodes_spec hg M hM hh
  cases D with
  | nil =>
    have habove : ∀ x, (g.entries x).isSome → ¬ T.IsAncestor h x := fun x hx hhx => by
      obtain ⟨d, hd, -⟩ := hg.exists_contains_below hh hbh x hx hhx
      exact List.not_mem_nil d ((hmem d).2 hd)
    obtain ⟨a, ea, hea, hah, hlt, hnear, g₁, happ, hb, hhs, he⟩ := hg.append_eq hh hchain hbh
    refine ⟨g₁, by simp [insert, hfind, happ], hg.wellFormed_append hh hbh habove hea hah hlt hnear
      hb hhs he, hb, fun k => ?_⟩
    rw [he k]
    split_ifs with hkh hka
    · simp [voteSum_eq_zero fun v hv => habove _ (hinv.hash_isSome hv)]
    · subst hka; simp [hea]
    · rfl
  | cons d₁ D' =>
    obtain ⟨e₁, a, he₁, ha, -⟩ := hg.contains_edge hh ((hmem d₁).1 (List.mem_cons_self d₁ D'))
    obtain ⟨g₁, hib, hb, hhs, he⟩ := hg.introduceBranch_eq hh hD hmem (List.mem_cons_self d₁ D')
      (ancestorNodeOf_eq_some.2 ⟨e₁, he₁, ha⟩)
    refine ⟨g₁, by simp [insert, hfind, hib], hg.wellFormed_introduceBranch hh hbh hmem
      (List.mem_cons_self d₁ D') (ancestorNodeOf_eq_some.2 ⟨e₁, he₁, ha⟩) hb hhs he, hb,
      fun k => ?_⟩
    rw [he k]
    split_ifs with hkh hkD
    · have hvote : ∀ d ∈ d₁ :: D', g.voteOf d = voteSum T votes d := fun d hd => by
        obtain ⟨e, hde, -⟩ := (hmem d).1 hd
        simp [voteOf, hde, hinv.tally d e hde]
      simp [List.map_congr_left hvote,
        hg.voteSum_eq_sum_contains hh hbh hD hmem votes fun v hv => hinv.hash_isSome hv]
    · simp [Option.map_map, Function.comp_def, cutAt]
    · rfl

/-- One admissible `insert` on a graph built from `new base` succeeds and keeps `Inv`. -/
theorem Inv.insert (hinv : Inv T base votes g) (hchain : chain.Follows T base)
    {v : Vote H V} (hv : v.Admissible T base) :
    ∃ g', g.insert chain v.hash v.number v.vote = some g' ∧ Inv T base (votes ++ [v]) g' := by
  obtain ⟨h, n, w⟩ := v
  obtain ⟨hbh, rfl : n = T.number h⟩ := hv
  obtain ⟨g₁, hins, hg₁, hb₁, hcv⟩ := hinv.exists_place hchain hbh w
  have hsome : ∀ k, (g₁.entries k).isSome ↔ k = h ∨ (g.entries k).isSome := fun k => by
    have := congrArg Option.isSome (hcv k)
    rw [Option.isSome_map'] at this
    rw [this]
    split_ifs with hk <;> simp [hk]
  obtain ⟨g', hadd, hb', hhs', he'⟩ :=
    addVote_eq w (T.number h + 1) g₁ h hg₁ ((hsome h).2 (Or.inl rfl)) (Nat.lt_succ_self _)
  refine ⟨g', hins.trans hadd, hg₁.map_entries _ (fun k e => by split <;> simp) he' hb' hhs',
    hb'.trans hb₁, fun k => ?_, fun k e hk => ?_⟩
  · rw [he', Option.isSome_map', hsome, hinv.keys]
    simp only [List.mem_append, List.mem_singleton]
    constructor
    · rintro (rfl | rfl | ⟨v, hv, rfl⟩)
      exacts [Or.inr ⟨_, Or.inr rfl, rfl⟩, Or.inl rfl, Or.inr ⟨v, Or.inl hv, rfl⟩]
    · rintro (rfl | ⟨v, hv | rfl, rfl⟩)
      exacts [Or.inr (Or.inl rfl), Or.inr (Or.inr ⟨v, hv, rfl⟩), Or.inl rfl]
  · rw [he'] at hk
    obtain ⟨e₁, hk₁, rfl⟩ := Option.map_eq_some'.1 hk
    have hcv₁ : e₁.cumulativeVote = voteSum T votes k := by
      have := hcv k
      rw [hk₁] at this
      split_ifs at this with hkh
      · simpa [hkh] using this
      · obtain ⟨e₀, hk₀, he₀⟩ := Option.map_eq_some'.1 this.symm
        rw [← he₀, hinv.tally k e₀ hk₀]
    split_ifs with hkh <;> simp [hcv₁, hkh]

/-- Admissible `insert` calls, one after another, all succeed and keep `Inv`. -/
theorem Inv.foldlM_insert (hchain : chain.Follows T base) :
    ∀ (vs votes : List (Vote H V)) (g : VoteGraph H V), Inv T base votes g →
      (∀ v ∈ vs, v.Admissible T base) →
      ∃ g', vs.foldlM (fun g v => g.insert chain v.hash v.number v.vote) g = some g' ∧
        Inv T base (votes ++ vs) g' := by
  intro vs
  induction vs with
  | nil => intro votes g hinv _; exact ⟨g, rfl, by simpa using hinv⟩
  | cons v vs ih =>
    intro votes g hinv hadm
    obtain ⟨g₁, hins, hinv₁⟩ := hinv.insert hchain (hadm v (List.mem_cons_self v vs))
    obtain ⟨g', hrun, hinv'⟩ :=
      ih (votes ++ [v]) g₁ hinv₁ fun v' hv' => hadm v' (List.mem_cons_of_mem v hv')
    exact ⟨g', by simp [hins, hrun], by simpa using hinv'⟩

/-- Every run of admissible `insert` calls from `new base` succeeds and ends in `Inv`. -/
theorem insertAll_inv (hchain : chain.Follows T base) (votes : List (Vote H V))
    (hadm : ∀ v ∈ votes, v.Admissible T base) :
    ∃ g, (new base (T.number base) : VoteGraph H V).insertAll chain votes = some g ∧
      Inv T base votes g := by
  simpa using Inv.foldlM_insert hchain votes [] _ (inv_new base) hadm

end Step

end VoteGraph

end FinalityGrandpa

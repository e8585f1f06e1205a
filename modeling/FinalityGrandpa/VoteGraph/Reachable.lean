import FinalityGrandpa.VoteGraph.Insert

/-!
# Graphs built by `insert`

The properties of every graph `insert` builds from `VoteGraph::new(base, number(base))` with
admissible calls, read off `Inv` (`insertAll_inv`):

1. the cumulative votes are the vote sums, and one more `insert` succeeds and adds its vote to
   exactly the vote-nodes at or below the voted block;
2. the entries have the shape `WellFormed` describes, with the heads and the ancestor nodes it
   ties together;
3. a well-formed graph's shape is fixed by its vote-nodes, so the order of the calls changes
   nothing (`WellFormed.ancestorNodeOf_congr`);
4. `find_containing_nodes` ends on every block, and for a block that is not a vote-node it finds
   the vote-nodes that hold it strictly inside their ancestors (`findContainingNodes_spec`,
   `WellFormed.contains_iff_mem_dropLast`);
5. `descendents` is not the inverse of the ancestor node: a block voted below an existing head
   is split out of that head's edge, and the node below keeps the head as its descendent.
-/

namespace FinalityGrandpa

namespace VoteGraph

variable {H V : Type} [DecidableEq H] [AddCommMonoid V] {T : BlockTree H}

/-! ## A well-formed graph is fixed by its vote-nodes -/

namespace WellFormed

section Congr

variable {g g' : VoteGraph H V} (hg : WellFormed T g) (hg' : WellFormed T g')
  (hb : g.base = g'.base) (hkeys : ∀ k, (g.entries k).isSome ↔ (g'.entries k).isSome)
include hg hg' hb hkeys

omit [DecidableEq H] [AddCommMonoid V] in
/-- Two well-formed graphs over one base with the same vote-nodes have the same ancestor
nodes. -/
theorem ancestorNodeOf_congr (c : H) : g.ancestorNodeOf c = g'.ancestorNodeOf c := by
  cases hc : g.entries c with
  | none =>
    have hc' : g'.entries c = none := Option.not_isSome_iff_eq_none.1 fun h' => by
      simpa [hc] using (hkeys c).2 h'
    simp [ancestorNodeOf, hc, hc']
  | some e =>
    obtain ⟨e', hc'⟩ := Option.isSome_iff_exists.1 ((hkeys c).1 (by simp [hc]))
    by_cases hcb : c = g.base
    · simp [ancestorNodeOf, hc, hc', hg.base_ancestorNode (hcb ▸ hc),
        hg'.base_ancestorNode (hb ▸ hcb ▸ hc')]
    obtain ⟨a, ha, hakey, hac, hlt, -, hnear⟩ := hg.ancestorNode hc hcb
    obtain ⟨a', ha', hakey', hac', hlt', -, hnear'⟩ := hg'.ancestorNode hc' (hb ▸ hcb)
    have haa' : a = a' := (hnear' a ((hkeys a).1 hakey) hac (by rintro rfl; omega)).antisymm
      (hnear a' ((hkeys a').2 hakey') hac' (by rintro rfl; omega))
    simp [ancestorNodeOf, hc, hc', ha, ha', haa']

omit [DecidableEq H] [AddCommMonoid V] in
/-- ... and the same edges. -/
theorem ancestors_congr {k : H} {e e' : Entry H V} (hk : g.entries k = some e)
    (hk' : g'.entries k = some e') : e.ancestors = e'.ancestors := by
  by_cases hkb : k = g.base
  · subst hkb
    obtain ⟨eb, heb, -, hanc⟩ := hg.base
    obtain ⟨eb', heb', -, hanc'⟩ := hg'.base
    rw [hk, Option.some.injEq] at heb
    rw [← hb, hk', Option.some.injEq] at heb'
    rw [heb, heb', hanc, hanc']
  obtain ⟨a, ha, -, -, -, hanc, -⟩ := hg.ancestorNode hk hkb
  obtain ⟨a', ha', -, -, -, hanc', -⟩ := hg'.ancestorNode hk' (hb ▸ hkb)
  have := hg.ancestorNodeOf_congr hg' hb hkeys k
  rw [ancestorNodeOf_eq_some.2 ⟨e, hk, ha⟩, ancestorNodeOf_eq_some.2 ⟨e', hk', ha'⟩,
    Option.some.injEq] at this
  rw [hanc, hanc', this]

omit [DecidableEq H] [AddCommMonoid V] in
/-- ... and the same heads. -/
theorem mem_heads_congr (k : H) : k ∈ g.heads ↔ k ∈ g'.heads := by
  simp only [hg.mem_heads_iff, hg'.mem_heads_iff, hkeys, hg.ancestorNodeOf_congr hg' hb hkeys]

end Congr

end WellFormed

/-! ## Reachable graphs -/

section Reachable

variable {chain : Chain H} {base : H}

/-- In every graph built by admissible `insert` calls from `new base`, the cumulative vote of a
vote-node is the sum of the votes cast on its block or above it. -/
theorem insertAll_cumulativeVote (chain : Chain H) (hchain : chain.Follows T base)
    (votes : List (Vote H V)) (hadm : ∀ v ∈ votes, v.Admissible T base) :
    ∃ g, (new base (T.number base) : VoteGraph H V).insertAll chain votes = some g ∧
      ∀ k e, g.entries k = some e → e.cumulativeVote = voteSum T votes k := by
  obtain ⟨g, hrun, hinv⟩ := insertAll_inv hchain votes hadm
  exact ⟨g, hrun, hinv.tally⟩

theorem insertAll_cumulativeVote_line :
    ∃ g, (new 1 1 : VoteGraph Nat Nat).insertAll BlockTree.line.chain [⟨3, 3, 1⟩, ⟨2, 2, 1⟩] =
        some g ∧ ∀ k e, g.entries k = some e →
      e.cumulativeVote = voteSum BlockTree.line [⟨3, 3, 1⟩, ⟨2, 2, 1⟩] k :=
  insertAll_cumulativeVote _ (BlockTree.line.chain_follows 1) _ (by decide)

/-- The vote-nodes of a graph built by admissible `insert` calls are the base and the voted
blocks; the base's edge is empty, and every other vote-node `k` sits at its chain number with
its edge the chain path from its parent down to `a`, the nearest vote-node strictly below it, no
vote-node before `a` on the way, so that `a` is its ancestor node. -/
theorem insertAll_entries (chain : Chain H) (hchain : chain.Follows T base)
    (votes : List (Vote H V)) (hadm : ∀ v ∈ votes, v.Admissible T base) :
    ∃ g, (new base (T.number base) : VoteGraph H V).insertAll chain votes = some g ∧
      (∀ k, (g.entries k).isSome ↔ k = base ∨ ∃ v ∈ votes, v.hash = k) ∧
      (∃ e, g.entries base = some e ∧ e.ancestors = []) ∧
      ∀ k e, g.entries k = some e → k ≠ base → e.number = T.number k ∧
        ∃ a, (g.entries a).isSome ∧ T.IsAncestor a k ∧ a ≠ k ∧
          (∀ x, (g.entries x).isSome → T.IsAncestor x k → x ≠ k → T.IsAncestor x a) ∧
          e.ancestors = T.path k (T.number k - T.number a) ∧
          (∀ x ∈ e.ancestors.dropLast, g.entries x = none) ∧
          e.ancestorNode = some a ∧ e.ancestors.length = T.number k - T.number a := by
  obtain ⟨g, hrun, hinv⟩ := insertAll_inv hchain votes hadm
  have hg := hinv.wellFormed
  obtain rfl := hinv.base_eq
  obtain ⟨eb, heb, -, hanc⟩ := hg.base
  refine ⟨g, hrun, hinv.keys, ⟨eb, heb, hanc⟩, fun k e hk hkb => ⟨hg.entry_number hk, ?_⟩⟩
  obtain ⟨a, ha, hakey, hak, hlt, hpath, hnear⟩ := hg.ancestorNode hk hkb
  refine ⟨a, hakey, hak, by rintro rfl; omega, hnear, hpath, fun x hx => ?_, ha,
    by rw [hpath, BlockTree.length_path]⟩
  rw [hpath, List.dropLast_eq_take, BlockTree.length_path,
    BlockTree.take_path _ (Nat.sub_le _ 1), BlockTree.mem_path] at hx
  obtain ⟨i, hi, rfl⟩ := hx
  obtain ⟨d, -, hd, hdpath, -, hgap⟩ := hg.edge k e hk hkb
  have hdl : d = T.number k - T.number a := by
    simpa using congrArg List.length (hdpath.symm.trans hpath)
  exact hgap (i + 1) (Nat.succ_pos i) (by omega)

theorem insertAll_entries_line :
    ∃ g, (new 1 1 : VoteGraph Nat Nat).insertAll BlockTree.line.chain [⟨3, 3, 1⟩, ⟨2, 2, 1⟩] =
        some g ∧
      (∀ k, (g.entries k).isSome ↔ k = 1 ∨ ∃ v ∈ [(⟨3, 3, 1⟩ : Vote Nat Nat), ⟨2, 2, 1⟩],
        v.hash = k) ∧
      (∃ e, g.entries 1 = some e ∧ e.ancestors = []) ∧
      ∀ k e, g.entries k = some e → k ≠ 1 → e.number = BlockTree.line.number k ∧
        ∃ a, (g.entries a).isSome ∧ BlockTree.line.IsAncestor a k ∧ a ≠ k ∧
          (∀ x, (g.entries x).isSome → BlockTree.line.IsAncestor x k → x ≠ k →
            BlockTree.line.IsAncestor x a) ∧
          e.ancestors = BlockTree.line.path k (BlockTree.line.number k - BlockTree.line.number a) ∧
          (∀ x ∈ e.ancestors.dropLast, g.entries x = none) ∧
          e.ancestorNode = some a ∧
          e.ancestors.length = BlockTree.line.number k - BlockTree.line.number a :=
  insertAll_entries _ (BlockTree.line.chain_follows 1) _ (by decide)

/-- In a graph built by admissible `insert` calls, the heads are vote-nodes, a vote-node is a
head exactly when its `descendents` is empty, exactly when it is no vote-node's ancestor node,
and every vote-node is reached from a head by ancestor-node steps. -/
theorem insertAll_heads (chain : Chain H) (hchain : chain.Follows T base)
    (votes : List (Vote H V)) (hadm : ∀ v ∈ votes, v.Admissible T base) :
    ∃ g, (new base (T.number base) : VoteGraph H V).insertAll chain votes = some g ∧
      (∀ k ∈ g.heads, (g.entries k).isSome) ∧
      (∀ k e, g.entries k = some e → (k ∈ g.heads ↔ e.descendents = []) ∧
        (e.descendents = [] ↔ ∀ c, g.ancestorNodeOf c ≠ some k)) ∧
      ∀ k, (g.entries k).isSome →
        ∃ x ∈ g.heads, Relation.ReflTransGen (fun y z => g.ancestorNodeOf y = some z) x k := by
  obtain ⟨g, hrun, hinv⟩ := insertAll_inv hchain votes hadm
  have hg := hinv.wellFormed
  obtain ⟨M, hM⟩ := hinv.exists_number_bound
  refine ⟨g, hrun, fun k hk => ((hg.mem_heads_iff k).1 hk).1, fun k e hk => ⟨?_,
    hg.descendents k e hk⟩, fun k hk => hg.reach_head M hM hk⟩
  rw [hg.heads]
  refine ⟨fun ⟨e', hk', hd⟩ => ?_, fun hd => ⟨e, hk, hd⟩⟩
  rw [hk, Option.some.injEq] at hk'
  exact hk' ▸ hd

theorem insertAll_heads_line :
    ∃ g, (new 1 1 : VoteGraph Nat Nat).insertAll BlockTree.line.chain [⟨3, 3, 1⟩, ⟨2, 2, 1⟩] =
        some g ∧
      (∀ k ∈ g.heads, (g.entries k).isSome) ∧
      (∀ k e, g.entries k = some e → (k ∈ g.heads ↔ e.descendents = []) ∧
        (e.descendents = [] ↔ ∀ c, g.ancestorNodeOf c ≠ some k)) ∧
      ∀ k, (g.entries k).isSome →
        ∃ x ∈ g.heads, Relation.ReflTransGen (fun y z => g.ancestorNodeOf y = some z) x k :=
  insertAll_heads _ (BlockTree.line.chain_follows 1) _ (by decide)

/-- Inserting admissible votes in any order gives the same vote-nodes and heads, and every
vote-node the same number, edge and cumulative vote. -/
theorem insertAll_perm (chain : Chain H) (hchain : chain.Follows T base)
    {votes votes' : List (Vote H V)} (hperm : votes.Perm votes')
    (hadm : ∀ v ∈ votes, v.Admissible T base) :
    ∃ g g', (new base (T.number base) : VoteGraph H V).insertAll chain votes = some g ∧
      (new base (T.number base) : VoteGraph H V).insertAll chain votes' = some g' ∧
      (∀ k, (g.entries k).isSome ↔ (g'.entries k).isSome) ∧ (∀ k, k ∈ g.heads ↔ k ∈ g'.heads) ∧
      ∀ k e e', g.entries k = some e → g'.entries k = some e' →
        e.number = e'.number ∧ e.ancestors = e'.ancestors ∧
          e.cumulativeVote = e'.cumulativeVote := by
  obtain ⟨g, hrun, hinv⟩ := insertAll_inv hchain votes hadm
  obtain ⟨g', hrun', hinv'⟩ :=
    insertAll_inv hchain votes' fun v hv => hadm v (hperm.mem_iff.2 hv)
  have hkeys : ∀ k, (g.entries k).isSome ↔ (g'.entries k).isSome := fun k => by
    simp only [hinv.keys, hinv'.keys, hperm.mem_iff]
  have hb : g.base = g'.base := hinv.base_eq.trans hinv'.base_eq.symm
  refine ⟨g, g', hrun, hrun', hkeys, hinv.wellFormed.mem_heads_congr hinv'.wellFormed hb hkeys,
    fun k e e' hk hk' => ⟨?_, hinv.wellFormed.ancestors_congr hinv'.wellFormed hb hkeys hk hk', ?_⟩⟩
  · rw [hinv.wellFormed.entry_number hk, hinv'.wellFormed.entry_number hk']
  · rw [hinv.tally k e hk, hinv'.tally k e' hk', voteSum, voteSum, (hperm.map _).sum_eq]

theorem insertAll_perm_line :
    ∃ g g', (new 1 1 : VoteGraph Nat Nat).insertAll BlockTree.line.chain
        [⟨3, 3, 1⟩, ⟨2, 2, 1⟩] = some g ∧
      (new 1 1 : VoteGraph Nat Nat).insertAll BlockTree.line.chain [⟨2, 2, 1⟩, ⟨3, 3, 1⟩] =
        some g' ∧
      (∀ k, (g.entries k).isSome ↔ (g'.entries k).isSome) ∧ (∀ k, k ∈ g.heads ↔ k ∈ g'.heads) ∧
      ∀ k e e', g.entries k = some e → g'.entries k = some e' →
        e.number = e'.number ∧ e.ancestors = e'.ancestors ∧ e.cumulativeVote = e'.cumulativeVote :=
  insertAll_perm _ (BlockTree.line.chain_follows 1) (List.Perm.swap _ _ []) (by decide)

/-- In every graph built by admissible `insert` calls, `find_containing_nodes(h, number(h))` ends
for every block `h`: it answers `None` exactly when `h` is a vote-node, and otherwise the
vote-nodes whose ancestors hold `h` before the last one, each once. -/
theorem insertAll_findContainingNodes (chain : Chain H) (hchain : chain.Follows T base)
    (votes : List (Vote H V)) (hadm : ∀ v ∈ votes, v.Admissible T base) :
    ∃ g, (new base (T.number base) : VoteGraph H V).insertAll chain votes = some g ∧ ∀ h,
      (g.findContainingNodes h (T.number h) = some none ↔ (g.entries h).isSome) ∧
      (g.entries h = none → ∃ D, g.findContainingNodes h (T.number h) = some (some D) ∧
        D.Nodup ∧ ∀ d, d ∈ D ↔ ∃ e, g.entries d = some e ∧ h ∈ e.ancestors.dropLast) := by
  obtain ⟨g, hrun, hinv⟩ := insertAll_inv hchain votes hadm
  obtain ⟨M, hM⟩ := hinv.exists_number_bound
  have hfind : ∀ h, g.entries h = none → ∃ D, g.findContainingNodes h (T.number h) = some (some D) ∧
      D.Nodup ∧ ∀ d, d ∈ D ↔ ∃ e, g.entries d = some e ∧ h ∈ e.ancestors.dropLast := by
    intro h hh
    obtain ⟨D, hD, hnd, hmem⟩ := findContainingNodes_spec hinv.wellFormed M hM hh
    exact ⟨D, hD, hnd, fun d => (hmem d).trans (hinv.wellFormed.contains_iff_mem_dropLast hh)⟩
  refine ⟨g, hrun, fun h => ⟨⟨fun hn => ?_, fun hs => by simp [findContainingNodes, hs]⟩, hfind h⟩⟩
  cases hh : g.entries h with
  | some e => rfl
  | none =>
    obtain ⟨D, hD, -⟩ := hfind h hh
    rw [hD] at hn
    cases hn

theorem insertAll_findContainingNodes_line :
    ∃ g, (new 1 1 : VoteGraph Nat Nat).insertAll BlockTree.line.chain [⟨3, 3, 1⟩] = some g ∧
      ∀ h, (g.findContainingNodes h (BlockTree.line.number h) = some none ↔
          (g.entries h).isSome) ∧
        (g.entries h = none → ∃ D, g.findContainingNodes h (BlockTree.line.number h) =
          some (some D) ∧ D.Nodup ∧
          ∀ d, d ∈ D ↔ ∃ e, g.entries d = some e ∧ h ∈ e.ancestors.dropLast) :=
  insertAll_findContainingNodes _ (BlockTree.line.chain_follows 1) _ (by decide)

/-- On every graph built by admissible `insert` calls, an `insert` at a block's own number
succeeds exactly when the block is the base or above it. Elsewhere no vote-node holds the block,
so `insert` goes to `append`, whose `unwrap` of `chain.ancestry(base, hash)` panics where the
chain answers `NotDescendent`. -/
theorem insertAll_insert_isSome (chain : Chain H) (hchain : chain.Follows T base)
    (hnd : ∀ b, ¬ T.IsAncestor base b → chain.ancestry base b = none)
    (votes : List (Vote H V)) (hadm : ∀ v ∈ votes, v.Admissible T base) :
    ∃ g, (new base (T.number base) : VoteGraph H V).insertAll chain votes = some g ∧
      ∀ h vote, (g.insert chain h (T.number h) vote).isSome ↔ T.IsAncestor base h := by
  obtain ⟨g, hrun, hinv⟩ := insertAll_inv hchain votes hadm
  have hg := hinv.wellFormed
  obtain rfl := hinv.base_eq
  refine ⟨g, hrun, fun h vote => ⟨fun hsome => by_contra fun hbh => ?_, fun hbh => ?_⟩⟩
  · have hh : g.entries h = none := Option.not_isSome_iff_eq_none.1 fun hk =>
      hbh (hg.base_isAncestor (Option.get_mem hk))
    obtain ⟨M, hM⟩ := hinv.exists_number_bound
    obtain ⟨D, hfind, -, hmem⟩ := findContainingNodes_spec hg M hM hh
    have hD : D = [] := List.eq_nil_iff_forall_not_mem.2 fun d hd => by
      obtain ⟨e, a, hde, ha, -, hah⟩ := (hg.contains_iff hh).1 ((hmem d).1 hd)
      have hakey := (hg.ancestorNodeOf_spec (ancestorNodeOf_eq_some.2 ⟨e, hde, ha⟩)).2.1
      exact hbh ((hg.base_isAncestor (Option.get_mem hakey)).trans hah)
    simp [insert, hfind, hD, append, hnd h hbh] at hsome
  · obtain ⟨g', hins, -⟩ := hinv.insert hchain (v := ⟨h, T.number h, vote⟩) ⟨hbh, rfl⟩
    simp [hins]

theorem insertAll_insert_isSome_line :
    (∀ b, ¬ BlockTree.line.IsAncestor 2 b → BlockTree.line.chain.ancestry 2 b = none) ∧
    ∃ g, (new 2 2 : VoteGraph Nat Nat).insertAll BlockTree.line.chain [⟨3, 3, 1⟩] = some g ∧
      ∀ h vote, (g.insert BlockTree.line.chain h (BlockTree.line.number h) vote).isSome ↔
        BlockTree.line.IsAncestor 2 h := by
  have hnd : ∀ b, ¬ BlockTree.line.IsAncestor 2 b → BlockTree.line.chain.ancestry 2 b = none :=
    fun b hb => by simp [BlockTree.chain, hb]
  exact ⟨hnd, insertAll_insert_isSome _ (BlockTree.line.chain_follows 2) hnd _ (by decide)⟩

/-- On every graph built by admissible `insert` calls, an `insert` at a vote-node (the `None` of
`find_containing_nodes`: the entry already exists) adds the vote to the cumulative votes of the
vote-nodes at or below it and changes nothing else: the heads, and every number, edge and
`descendents`, stay as they are. -/
theorem insertAll_insert_existing (chain : Chain H) (hchain : chain.Follows T base)
    (votes : List (Vote H V)) (hadm : ∀ v ∈ votes, v.Admissible T base) :
    ∃ g, (new base (T.number base) : VoteGraph H V).insertAll chain votes = some g ∧
      ∀ h vote, (g.entries h).isSome → ∃ g', g.insert chain h (T.number h) vote = some g' ∧
        g'.heads = g.heads ∧ ∀ k, g'.entries k = (g.entries k).map fun e =>
          if T.IsAncestor k h then { e with cumulativeVote := e.cumulativeVote + vote } else e := by
  obtain ⟨g, hrun, hinv⟩ := insertAll_inv hchain votes hadm
  refine ⟨g, hrun, fun h vote hh => ?_⟩
  obtain ⟨g', hadd, -, hheads, hent⟩ :=
    addVote_eq vote (T.number h + 1) g h hinv.wellFormed hh (Nat.lt_succ_self _)
  exact ⟨g', by simp [insert, findContainingNodes, hh, hadd], hheads, hent⟩

theorem insertAll_insert_existing_line :
    ∃ g, (new 1 1 : VoteGraph Nat Nat).insertAll BlockTree.line.chain [⟨3, 3, 1⟩] = some g ∧
      ∀ h vote, (g.entries h).isSome → ∃ g', g.insert BlockTree.line.chain h
          (BlockTree.line.number h) vote = some g' ∧
        g'.heads = g.heads ∧ ∀ k, g'.entries k = (g.entries k).map fun e =>
          if BlockTree.line.IsAncestor k h then
            { e with cumulativeVote := e.cumulativeVote + vote } else e :=
  insertAll_insert_existing _ (BlockTree.line.chain_follows 1) _ (by decide)

/-- `descendents` does not follow the ancestor node when `introduce_branch` splits a block out of
an edge that ends at a head: over the line `1 ← 2 ← 3` with base `1`, a vote on `3` and then
one on `2` leave `3` under `2`, while the entry of `1` still lists `3` and not `2`. -/
theorem descendents_stale :
    ∃ g, (new 1 1 : VoteGraph Nat Nat).insertAll BlockTree.line.chain [⟨3, 3, 1⟩, ⟨2, 2, 1⟩] =
        some g ∧
      (∃ e, g.entries 1 = some e ∧ e.descendents = [3]) ∧
      g.ancestorNodeOf 3 = some 2 ∧ g.ancestorNodeOf 2 = some 1 :=
  ⟨_, rfl, ⟨_, rfl, rfl⟩, rfl, rfl⟩

end Reachable

end VoteGraph

end FinalityGrandpa

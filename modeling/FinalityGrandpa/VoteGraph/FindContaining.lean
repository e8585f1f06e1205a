import FinalityGrandpa.VoteGraph.WellFormed

/-!
# `find_containing_nodes`

The search walks back from every head until `in_direct_ancestry` answers, with one visited set
shared by all heads. On a well-formed graph it returns every vote-node whose edge holds the
block, each once (`findContainingNodes_spec`):

1. one walk adds the nodes it visits, closed under the step the walk takes (`walkBack_spec`);
2. over all heads, the visited set is closed and holds every head, and the containing keys are
   the visited nodes that contain the block, without repetition (`foldlM_walkBack`);
3. every vote-node is reached from a head, and above a containing node the walk always goes on,
   so the shared visited set never hides a containing node.

The nodes whose edge holds a block that is not a vote-node are those whose ancestors hold it
before the last one (`WellFormed.contains_iff_mem_dropLast`).
-/

namespace FinalityGrandpa

namespace VoteGraph

variable {H V : Type} [DecidableEq H] {T : BlockTree H} {g : VoteGraph H V}

/-- The vote-node a walk of `find_containing_nodes` goes on to from `y`. -/
def walkNext (g : VoteGraph H V) (hash : H) (number : Nat) (y : H) : Option H :=
  (g.entries y).bind fun e => if e.inDirectAncestry hash number = none then e.ancestorNode else none

/-- What the search keeps true across heads: the visited set `vs` is closed under `walkNext`,
and the containing keys `cs` are the visited nodes that contain the block, each once. -/
def SearchInv (g : VoteGraph H V) (hash : H) (number : Nat) (cs vs : List H) : Prop :=
  (∀ y ∈ vs, ∀ p, g.walkNext hash number y = some p → p ∈ vs) ∧ cs.Nodup ∧
    ∀ y, y ∈ cs ↔ y ∈ vs ∧ g.Contains hash number y

theorem not_contains_of_inDirectAncestry {hash : H} {number : Nat} {x : H} {e : Entry H V}
    (hx : g.entries x = some e) (hd : e.inDirectAncestry hash number ≠ some true) :
    ¬ g.Contains hash number x := by
  rintro ⟨e', hx', hin⟩
  rw [hx, Option.some.injEq] at hx'
  exact hd (hx' ▸ hin)

/-- One walk from a vote-node `x`, with enough fuel, adds `L` to the containing keys and grows
the visited set to `vs'`: the new nodes are closed under `walkNext`, and `L` is exactly the new
nodes that contain the block. -/
theorem walkBack_spec (hg : WellFormed T g) (hash : H) (number : Nat) :
    ∀ fuel x e cs vs, g.entries x = some e → e.number < fuel →
      ∃ L vs', g.walkBack hash number fuel x (cs, vs) = some (cs ++ L, vs') ∧
        (∀ y ∈ vs, y ∈ vs') ∧ x ∈ vs' ∧
        (∀ y ∈ vs', y ∉ vs → ∀ p, g.walkNext hash number y = some p → p ∈ vs') ∧
        L.Nodup ∧ ∀ y, y ∈ L ↔ y ∈ vs' ∧ y ∉ vs ∧ g.Contains hash number y := by
  intro fuel
  induction fuel with
  | zero => intro x e cs vs _ h; omega
  | succ fuel ih =>
    intro x e cs vs hx hfuel
    by_cases hv : x ∈ vs
    · exact ⟨[], vs, by simp [walkBack, hx, hv], fun y hy => hy, hv,
        fun y hy hny => absurd hy hny, List.nodup_nil,
        fun y => ⟨fun h => absurd h (List.not_mem_nil y), fun h => absurd h.1 h.2.1⟩⟩
    have hnew : ∀ y, y ∈ setInsert vs x → y ∉ vs → y = x := by
      intro y hy hny; simpa [hny] using hy
    cases hd : e.inDirectAncestry hash number with
    | some b =>
      have hnext : g.walkNext hash number x = none := by simp [walkNext, hx, hd]
      have hclosed : ∀ y ∈ setInsert vs x, y ∉ vs → ∀ p,
          g.walkNext hash number y = some p → p ∈ setInsert vs x := by
        intro y hy hny p hp
        rw [hnew y hy hny, hnext] at hp
        cases hp
      cases b with
      | true =>
        refine ⟨[x], setInsert vs x, by simp [walkBack, hx, hv, hd], by simp_all, by simp,
          hclosed, List.nodup_singleton x, fun y => ?_⟩
        simp only [List.mem_singleton, mem_setInsert]
        constructor
        · rintro rfl; exact ⟨Or.inr rfl, hv, e, hx, hd⟩
        · rintro ⟨hy, hny, -⟩; simpa [hny] using hy
      | false =>
        refine ⟨[], setInsert vs x, by simp [walkBack, hx, hv, hd], by simp_all, by simp,
          hclosed, List.nodup_nil, fun y => ?_⟩
        simp only [List.not_mem_nil, false_iff, not_and]
        intro hy hny
        rw [hnew y hy hny]
        exact not_contains_of_inDirectAncestry hx (by simp [hd])
    | none =>
      have hnc : ¬ g.Contains hash number x := not_contains_of_inDirectAncestry hx (by simp [hd])
      cases ha : e.ancestorNode with
      | none =>
        have hnext : g.walkNext hash number x = none := by simp [walkNext, hx, hd, ha]
        refine ⟨[], setInsert vs x, by simp [walkBack, hx, hv, hd, ha], by simp_all, by simp,
          fun y hy hny p hp => ?_, List.nodup_nil, fun y => ?_⟩
        · rw [hnew y hy hny, hnext] at hp; cases hp
        · simp only [List.not_mem_nil, false_iff, not_and]
          intro hy hny; rwa [hnew y hy hny]
      | some p =>
        obtain ⟨-, hpkey, -, hlt⟩ := hg.ancestorNodeOf_spec (ancestorNodeOf_eq_some.2 ⟨e, hx, ha⟩)
        obtain ⟨e', hp⟩ := Option.isSome_iff_exists.1 hpkey
        have hlt' : e'.number < fuel := by
          rw [hg.entry_number hp]; rw [hg.entry_number hx] at hfuel; omega
        obtain ⟨L, vs', heq, hsub, hpmem, hclosed, hnd, hL⟩ :=
          ih p e' cs (setInsert vs x) hp hlt'
        refine ⟨L, vs', by simp [walkBack, hx, hv, hd, ha, heq],
          fun y hy => hsub y (mem_setInsert.2 (.inl hy)), hsub x (mem_setInsert.2 (.inr rfl)),
          fun y hy hny q hq => ?_, hnd, fun y => ?_⟩
        · by_cases hyx : y = x
          · subst hyx
            simp only [walkNext, hx, hd, ha, Option.some_bind, if_true, Option.some.injEq] at hq
            exact hq ▸ hpmem
          · exact hclosed y hy (by simp [hny, hyx]) q hq
        · rw [hL y]
          by_cases hyx : y = x
          · subst hyx; simp [hnc]
          · simp [hyx]

/-- The search over a list of heads, all vote-nodes, keeps `SearchInv`, never shrinks the
visited set and visits every head. -/
theorem foldlM_walkBack (hg : WellFormed T g) (hash : H) (number : Nat) :
    ∀ (hs : List H) cs vs, (∀ x ∈ hs, (g.entries x).isSome) → SearchInv g hash number cs vs →
      ∃ cs' vs', hs.foldlM (fun acc head => g.walkBack hash number (g.walkFuel head) head acc)
          (cs, vs) = some (cs', vs') ∧ SearchInv g hash number cs' vs' ∧
        (∀ y ∈ vs, y ∈ vs') ∧ ∀ x ∈ hs, x ∈ vs' := by
  intro hs
  induction hs with
  | nil => intro cs vs _ hinv; exact ⟨cs, vs, rfl, hinv, fun _ h => h, by simp⟩
  | cons x hs ih =>
    intro cs vs hkeys ⟨hclosed, hnd, hmem⟩
    obtain ⟨e, hx⟩ := Option.isSome_iff_exists.1 (hkeys x (List.mem_cons_self x hs))
    obtain ⟨L, vs', heq, hsub, hxv, hclosed', hndL, hL⟩ :=
      walkBack_spec hg hash number (e.number + 1) x e cs vs hx (Nat.lt_succ_self _)
    have hinv : SearchInv g hash number (cs ++ L) vs' := by
      refine ⟨fun y hy p hp => ?_, List.nodup_append.2 ⟨hnd, hndL, fun y hyc hyL => ?_⟩,
        fun y => ?_⟩
      · by_cases hyv : y ∈ vs
        · exact hsub p (hclosed y hyv p hp)
        · exact hclosed' y hy hyv p hp
      · exact ((hL y).1 hyL).2.1 ((hmem y).1 hyc).1
      · rw [List.mem_append, hmem, hL]
        constructor
        · rintro (⟨hy, hc⟩ | ⟨hy, -, hc⟩)
          exacts [⟨hsub y hy, hc⟩, ⟨hy, hc⟩]
        · rintro ⟨hy, hc⟩
          by_cases hyv : y ∈ vs
          exacts [.inl ⟨hyv, hc⟩, .inr ⟨hy, hyv, hc⟩]
    obtain ⟨cs'', vs'', heq', hinv', hsub', hall⟩ :=
      ih (cs ++ L) vs' (fun y hy => hkeys y (List.mem_cons_of_mem x hy)) hinv
    refine ⟨cs'', vs'', ?_, hinv', fun y hy => hsub' y (hsub y hy), ?_⟩
    · simp only [List.foldlM_cons]
      rw [walkFuel, hx]
      simp only [heq, Option.some_bind]
      exact heq'
    · simp only [List.mem_cons, forall_eq_or_imp]
      exact ⟨hsub' x hxv, hall⟩

/-- For a block that is not a vote-node, the edge of `d` holds it exactly when it is among the
ancestors of `d` before the last one, the ancestor node. -/
theorem WellFormed.contains_iff_mem_dropLast (hg : WellFormed T g) {h : H}
    (hh : g.entries h = none) {d : H} :
    g.Contains h (T.number h) d ↔ ∃ e, g.entries d = some e ∧ h ∈ e.ancestors.dropLast := by
  rw [hg.contains_iff hh]
  by_cases hdb : d = g.base
  · subst hdb
    obtain ⟨e, he, -, hanc⟩ := hg.base
    simp [he, hanc, Entry.ancestorNode]
  cases hde : g.entries d with
  | none => simp
  | some e =>
    obtain ⟨a, ha, hakey, had, -, hanc, -⟩ := hg.ancestorNode hde hdb
    have hmem : h ∈ e.ancestors.dropLast ↔
        ∃ i, i < T.number d - T.number a - 1 ∧ T.up d (i + 1) = h := by
      rw [hanc, List.dropLast_eq_take, BlockTree.length_path,
        BlockTree.take_path _ (Nat.sub_le _ _), BlockTree.mem_path]
    constructor
    · rintro ⟨_, a', ⟨⟩, ha', hhd, hah⟩
      rw [ha, Option.some.injEq] at ha'
      subst ha'
      have hlt : T.number h < T.number d := hhd.lt_of_ne (by rintro rfl; simp [hde] at hh)
      have hlt' : T.number a < T.number h := hah.lt_of_ne (by rintro rfl; simp [hh] at hakey)
      refine ⟨e, rfl, hmem.2 ⟨T.number d - T.number h - 1, by omega, ?_⟩⟩
      rw [show T.number d - T.number h - 1 + 1 = T.number d - T.number h by omega]
      exact hhd.eq_up
    · rintro ⟨_, ⟨⟩, hm⟩
      obtain ⟨i, hi, rfl⟩ := hmem.1 hm
      have hup := T.isAncestor_up (show i + 1 ≤ T.number d by omega)
      refine ⟨e, a, rfl, ha, hup, had.of_le hup ?_⟩
      rw [T.number_up (by omega)]
      clear hmem hm
      omega

/-- On a well-formed graph with bounded numbers, for a block that is not a vote-node,
`find_containing_nodes` returns, each once, exactly the vote-nodes whose edge holds it. -/
theorem findContainingNodes_spec (hg : WellFormed T g) (M : Nat)
    (hM : ∀ k, (g.entries k).isSome → T.number k ≤ M) {h : H} (hh : g.entries h = none) :
    ∃ D, g.findContainingNodes h (T.number h) = some (some D) ∧ D.Nodup ∧
      ∀ d, d ∈ D ↔ g.Contains h (T.number h) d := by
  have hheads : ∀ x ∈ g.heads, (g.entries x).isSome := fun x hx => by
    obtain ⟨e, he, -⟩ := (hg.heads x).1 hx
    simp [he]
  obtain ⟨cs, vs, heq, ⟨hclosed, hnd, hmem⟩, -, hall⟩ :=
    foldlM_walkBack hg h (T.number h) g.heads [] [] hheads ⟨by simp, List.nodup_nil, by simp⟩
  refine ⟨cs, by simp [findContainingNodes, hh, heq], hnd, fun d => ?_⟩
  rw [hmem]
  refine ⟨fun hd => hd.2, fun hd => ⟨?_, hd⟩⟩
  obtain ⟨ed, a, hed, -, hhd, -⟩ := (hg.contains_iff hh).1 hd
  have hdkey : (g.entries d).isSome := by simp [hed]
  have hlt : T.number h < T.number d := hhd.lt_of_ne (by rintro rfl; simp [hed] at hh)
  obtain ⟨x, hx, hreach⟩ := hg.reach_head M hM hdkey
  refine Relation.ReflTransGen.head_induction_on
    (P := fun x _ => x ∈ vs → d ∈ vs) hreach (fun h => h) ?_ (hall x hx)
  intro x y hxy hyd ih hxv
  obtain ⟨ex, hex, hax⟩ := ancestorNodeOf_eq_some.1 hxy
  have hyx := (hg.ancestorNodeOf_spec hxy).2.2
  have hdy := hg.isAncestor_of_reach hyd
  have hdx := hdy.trans hyx.1
  have hnext : g.walkNext h (T.number h) x = some y := by
    simp [walkNext, hex, hax,
      hg.inDirectAncestry_above hex hdkey hdx (by rintro rfl; have := hdy.number_le; omega) hlt]
  exact ih (hclosed x hxv y hnext)

end VoteGraph

end FinalityGrandpa

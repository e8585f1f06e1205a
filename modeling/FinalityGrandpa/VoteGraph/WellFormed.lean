import FinalityGrandpa.VoteGraph.Basic
import Mathlib.Logic.Relation

/-!
# The shape of a vote-graph

`WellFormed T g` is the representation invariant of `vote_graph.rs` over the block tree `T`:

1. the base is a vote-node with an empty edge;
2. every vote-node sits at its chain number, above the base;
3. the edge of every other vote-node is its chain path down to the nearest vote-node below it;
4. `heads` are the vote-nodes with no `descendents`, and a vote-node has `descendents` exactly
   when some vote-node has it as ancestor node.

From it: the ancestor vote-node is the nearest vote-node below (`WellFormed.ancestorNode`),
every vote-node is reached from a head by ancestor-node steps (`WellFormed.reach_head`), and
`in_direct_ancestry` answers `Some(true)` exactly on the edges that run through a block
(`WellFormed.contains_iff`).
-/

namespace FinalityGrandpa

namespace VoteGraph

variable {H V : Type}

/-- The ancestor vote-node of `k`, if `k` is a vote-node with one. -/
def ancestorNodeOf (g : VoteGraph H V) (k : H) : Option H := (g.entries k).bind Entry.ancestorNode

/-- `(hash, number)` is on the ancestor edge of `d`: `in_direct_ancestry` answers `Some(true)`. -/
def Contains [DecidableEq H] (g : VoteGraph H V) (hash : H) (number : Nat) (d : H) : Prop :=
  ∃ e, g.entries d = some e ∧ e.inDirectAncestry hash number = some true

/-- The representation invariant of a vote-graph over the block tree `T`. -/
structure WellFormed (T : BlockTree H) (g : VoteGraph H V) : Prop where
  base : ∃ e, g.entries g.base = some e ∧ e.number = T.number g.base ∧ e.ancestors = []
  number : ∀ k e, g.entries k = some e → e.number = T.number k ∧ T.IsAncestor g.base k
  edge : ∀ k e, g.entries k = some e → k ≠ g.base → ∃ d, 0 < d ∧ d ≤ T.number k ∧
    e.ancestors = T.path k d ∧ (g.entries (T.up k d)).isSome ∧
    ∀ i, 0 < i → i < d → g.entries (T.up k i) = none
  heads : ∀ k, k ∈ g.heads ↔ ∃ e, g.entries k = some e ∧ e.descendents = []
  descendents : ∀ k e, g.entries k = some e →
    (e.descendents = [] ↔ ∀ c, g.ancestorNodeOf c ≠ some k)

variable {T : BlockTree H} {g : VoteGraph H V}

theorem ancestorNodeOf_eq_some {k a : H} :
    g.ancestorNodeOf k = some a ↔ ∃ e, g.entries k = some e ∧ e.ancestorNode = some a :=
  Option.bind_eq_some

@[simp] theorem ancestorNodeOf_setEntry [DecidableEq H] (k : H) (e : Entry H V) (x : H) :
    (g.setEntry k e).ancestorNodeOf x = if x = k then e.ancestorNode else g.ancestorNodeOf x := by
  unfold ancestorNodeOf; split <;> simp_all

namespace WellFormed

variable (hg : WellFormed T g)
include hg

/-- `WellFormed` reads only the numbers, edges and descendents of the entries: a map of the
entries that keeps them keeps it. -/
theorem map_entries {g' : VoteGraph H V} (f : H → Entry H V → Entry H V)
    (hf : ∀ k e, (f k e).number = e.number ∧ (f k e).ancestors = e.ancestors ∧
      (f k e).descendents = e.descendents)
    (he : ∀ k, g'.entries k = (g.entries k).map (f k)) (hb : g'.base = g.base)
    (hh : g'.heads = g.heads) : WellFormed T g' := by
  have hsome : ∀ k, (g'.entries k).isSome = (g.entries k).isSome := by simp [he]
  have hanc : ∀ k, g'.ancestorNodeOf k = g.ancestorNodeOf k := by
    intro k; simp only [ancestorNodeOf, he]
    cases g.entries k <;> simp [Entry.ancestorNode, (hf _ _).2.1]
  refine ⟨?_, fun k e' hk => ?_, fun k e' hk hne => ?_, fun k => ?_, fun k e' hk => ?_⟩
  · obtain ⟨e, h1, h2, h3⟩ := hg.base
    exact ⟨f g.base e, by rw [hb, he, h1]; rfl, by rw [(hf _ _).1, h2, hb],
      by rw [(hf _ _).2.1, h3]⟩
  all_goals first
    | (rw [hh, hg.heads, he]; simp [(hf _ _).2.2])
    | (rw [he] at hk; obtain ⟨e, hk', rfl⟩ := Option.map_eq_some'.1 hk)
  · rw [(hf _ _).1, hb]; exact hg.number k e hk'
  · obtain ⟨d, h0, hd, hanc', hkey, hgap⟩ := hg.edge k e hk' (hb ▸ hne)
    refine ⟨d, h0, hd, by rw [(hf _ _).2.1, hanc'], by rw [hsome]; exact hkey,
      fun i h1 h2 => ?_⟩
    rw [he, hgap i h1 h2]; rfl
  · rw [(hf _ _).2.2]; simp only [hanc]; exact hg.descendents k e hk'

theorem entry_number {k : H} {e : Entry H V} (hk : g.entries k = some e) :
    e.number = T.number k := (hg.number k e hk).1

theorem base_isAncestor {k : H} {e : Entry H V} (hk : g.entries k = some e) :
    T.IsAncestor g.base k := (hg.number k e hk).2

theorem base_ancestorNode {e : Entry H V} (hb : g.entries g.base = some e) :
    e.ancestorNode = none := by
  obtain ⟨e', he', -, hanc⟩ := hg.base
  rw [hb, Option.some.injEq] at he'
  subst he'
  simp [Entry.ancestorNode, hanc]

/-- The ancestor vote-node of a vote-node other than the base: a vote-node strictly below it,
its edge is the chain path down to it, and every vote-node below is at or below it. -/
theorem ancestorNode {k : H} {e : Entry H V} (hk : g.entries k = some e) (hne : k ≠ g.base) :
    ∃ a, e.ancestorNode = some a ∧ (g.entries a).isSome ∧ T.IsAncestor a k ∧
      T.number a < T.number k ∧ e.ancestors = T.path k (T.number k - T.number a) ∧
      ∀ x, (g.entries x).isSome → T.IsAncestor x k → x ≠ k → T.IsAncestor x a := by
  obtain ⟨d, hd0, hdk, hanc, hkey, hgap⟩ := hg.edge k e hk hne
  have hna : T.number (T.up k d) = T.number k - d := T.number_up hdk
  refine ⟨T.up k d, ?_, hkey, T.isAncestor_up hdk, by omega, by rw [hna, hanc]; congr 1; omega,
    fun x hx hxk hne' => ?_⟩
  · obtain ⟨d', rfl⟩ : ∃ d', d = d' + 1 := ⟨d - 1, by omega⟩
    rw [Entry.ancestorNode, hanc, BlockTree.getLast?_path]
  · have hlt := hxk.lt_of_ne hne'
    have hxd : d ≤ T.number k - T.number x := by
      by_contra hlt'
      have := hgap (T.number k - T.number x) (by omega) (by omega)
      rw [hxk.eq_up] at this
      simp [this] at hx
    exact hxk.of_le (T.isAncestor_up hdk) (by omega)

theorem ancestorNode_eq_none {k : H} {e : Entry H V} (hk : g.entries k = some e) :
    e.ancestorNode = none ↔ k = g.base := by
  refine ⟨fun h => by_contra fun hne => ?_, fun h => hg.base_ancestorNode (h ▸ hk)⟩
  obtain ⟨a, ha, -⟩ := hg.ancestorNode hk hne
  simp [ha] at h

/-- One ancestor-node step goes strictly down the chain to a vote-node. -/
theorem ancestorNodeOf_spec {k a : H} (h : g.ancestorNodeOf k = some a) :
    (g.entries k).isSome ∧ (g.entries a).isSome ∧ T.IsAncestor a k ∧ T.number a < T.number k := by
  obtain ⟨e, hk, ha⟩ := ancestorNodeOf_eq_some.1 h
  have hne : k ≠ g.base := fun hb => by simp [hg.base_ancestorNode (hb ▸ hk)] at ha
  obtain ⟨a', ha', hkey, hanc, hlt, -⟩ := hg.ancestorNode hk hne
  rw [ha, Option.some.injEq] at ha'
  subst ha'
  exact ⟨by simp [hk], hkey, hanc, hlt⟩

/-- The vote-nodes at or below the ancestor node of `x` are the vote-nodes strictly below `x`. -/
theorem isAncestor_ancestorNodeOf_iff {x a k : H} (ha : g.ancestorNodeOf x = some a)
    (hk : (g.entries k).isSome) : T.IsAncestor k a ↔ T.IsAncestor k x ∧ k ≠ x := by
  obtain ⟨e, hx, hea⟩ := ancestorNodeOf_eq_some.1 ha
  have hne : x ≠ g.base := fun hb => by simp [hg.base_ancestorNode (hb ▸ hx)] at hea
  obtain ⟨a', ha', -, hax, hlt, -, hbelow⟩ := hg.ancestorNode hx hne
  rw [hea, Option.some.injEq] at ha'
  subst ha'
  refine ⟨fun hka => ⟨hka.trans hax, ?_⟩, fun ⟨hkx, hne'⟩ => hbelow k hk hkx hne'⟩
  rintro rfl
  have := hka.number_le
  omega

/-- Ancestor-node steps go down the chain. -/
theorem isAncestor_of_reach {x d : H}
    (h : Relation.ReflTransGen (fun y z => g.ancestorNodeOf y = some z) x d) :
    T.IsAncestor d x := by
  induction h with
  | refl => exact T.isAncestor_refl x
  | tail _ hstep ih => exact (hg.ancestorNodeOf_spec hstep).2.2.1.trans ih

/-- Every vote-node is reached from a head by ancestor-node steps, when the numbers of
vote-nodes are bounded. -/
theorem reach_head (M : Nat) (hM : ∀ k, (g.entries k).isSome → T.number k ≤ M) {d : H}
    (hd : (g.entries d).isSome) :
    ∃ x ∈ g.heads, Relation.ReflTransGen (fun y z => g.ancestorNodeOf y = some z) x d := by
  suffices ∀ j d, M - T.number d ≤ j → (g.entries d).isSome →
      ∃ x ∈ g.heads, Relation.ReflTransGen (fun y z => g.ancestorNodeOf y = some z) x d from
    this _ d le_rfl hd
  intro j
  induction j with
  | zero => intro d hj hd
            obtain ⟨e, he⟩ := Option.isSome_iff_exists.1 hd
            by_cases hdesc : e.descendents = []
            · exact ⟨d, (hg.heads d).2 ⟨e, he, hdesc⟩, .refl⟩
            · obtain ⟨c, hc⟩ := not_forall_not.1 (mt (hg.descendents d e he).2 hdesc)
              have := hg.ancestorNodeOf_spec hc
              have := hM c this.1
              omega
  | succ j ih =>
    intro d hj hd
    obtain ⟨e, he⟩ := Option.isSome_iff_exists.1 hd
    by_cases hdesc : e.descendents = []
    · exact ⟨d, (hg.heads d).2 ⟨e, he, hdesc⟩, .refl⟩
    · obtain ⟨c, hc⟩ := not_forall_not.1 (mt (hg.descendents d e he).2 hdesc)
      have hcs := hg.ancestorNodeOf_spec hc
      obtain ⟨x, hx, hxc⟩ := ih c (by omega) hcs.1
      exact ⟨x, hx, hxc.tail hc⟩

/-- Ancestor-node steps from a vote-node `x` reach exactly the vote-nodes at or below `x`. -/
theorem reach_iff {x : H} (hx : (g.entries x).isSome) (k : H) :
    Relation.ReflTransGen (fun y z => g.ancestorNodeOf y = some z) x k ↔
      (g.entries k).isSome ∧ T.IsAncestor k x := by
  refine ⟨fun h => ⟨?_, hg.isAncestor_of_reach h⟩, fun ⟨hk, hkx⟩ => ?_⟩
  · induction h with
    | refl => exact hx
    | tail _ hstep _ => exact (hg.ancestorNodeOf_spec hstep).2.1
  suffices ∀ n x, T.number x < n → (g.entries x).isSome → T.IsAncestor k x →
      Relation.ReflTransGen (fun y z => g.ancestorNodeOf y = some z) x k from
    this _ x (Nat.lt_succ_self _) hx hkx
  intro n
  induction n with
  | zero => intro x hn; omega
  | succ n ih =>
    intro x hn hx hkx
    by_cases hkx' : k = x
    · exact hkx' ▸ .refl
    obtain ⟨e, he⟩ := Option.isSome_iff_exists.1 hx
    obtain ⟨ek, hek⟩ := Option.isSome_iff_exists.1 hk
    have hxb : x ≠ g.base := fun hb => hkx' (hkx.antisymm (hb ▸ hg.base_isAncestor hek))
    obtain ⟨a, ha, -, -, hlt, -⟩ := hg.ancestorNode he hxb
    have hxa : g.ancestorNodeOf x = some a := ancestorNodeOf_eq_some.2 ⟨e, he, ha⟩
    exact .head hxa (ih a (by omega) (hg.ancestorNodeOf_spec hxa).2.1
      ((hg.isAncestor_ancestorNodeOf_iff hxa hk).2 ⟨hkx, hkx'⟩))

/-- The heads are the vote-nodes that are no vote-node's ancestor node. -/
theorem mem_heads_iff (k : H) :
    k ∈ g.heads ↔ (g.entries k).isSome ∧ ∀ c, g.ancestorNodeOf c ≠ some k := by
  rw [hg.heads]
  constructor
  · rintro ⟨e, he, hd⟩
    exact ⟨by simp [he], (hg.descendents k e he).1 hd⟩
  · rintro ⟨hk, hc⟩
    obtain ⟨e, he⟩ := Option.isSome_iff_exists.1 hk
    exact ⟨e, he, (hg.descendents k e he).2 hc⟩

variable [DecidableEq H]

/-- `in_direct_ancestry` answers `Some(true)` for a block that is not a vote-node exactly on the
edge that runs through it: the block is below the vote-node and at or above its ancestor node. -/
theorem contains_iff {h : H} (hh : g.entries h = none) {d : H} :
    g.Contains h (T.number h) d ↔ ∃ e a, g.entries d = some e ∧ e.ancestorNode = some a ∧
      T.IsAncestor h d ∧ T.IsAncestor a h := by
  constructor
  · rintro ⟨e, hd, hin⟩
    have hne : d ≠ g.base := by
      rintro rfl
      obtain ⟨e', he', -, hanc⟩ := hg.base
      rw [hd, Option.some.injEq] at he'
      subst he'
      simp [Entry.inDirectAncestry, hanc] at hin
    obtain ⟨a, ha, -, had, hlt, hanc, -⟩ := hg.ancestorNode hd hne
    have hn := hg.entry_number hd
    simp only [Entry.inDirectAncestry, hn, hanc, BlockTree.getElem?_path] at hin
    split_ifs at hin with h1 h2
    · simp only [Option.map_some', Option.some.injEq, beq_iff_eq] at hin
      rw [show T.number d - T.number h - 1 + 1 = T.number d - T.number h by omega] at hin
      have hhd : T.IsAncestor h d := ⟨by omega, hin⟩
      exact ⟨e, a, hd, ha, hhd, had.of_le hhd (by omega)⟩
    · simp at hin
  · rintro ⟨e, a, hd, ha, hhd, hah⟩
    have hne : d ≠ g.base := fun hb => by simp [hg.base_ancestorNode (hb ▸ hd)] at ha
    obtain ⟨a', ha', -, -, -, hanc, -⟩ := hg.ancestorNode hd hne
    rw [ha, Option.some.injEq] at ha'
    subst ha'
    have hdh : h ≠ d := by rintro rfl; simp [hd] at hh
    have hlt := hhd.lt_of_ne hdh
    have hn := hg.entry_number hd
    refine ⟨e, hd, ?_⟩
    simp only [Entry.inDirectAncestry, hn, hanc, BlockTree.getElem?_path]
    rw [if_neg (by omega), if_pos (by have := hah.number_le; omega)]
    simp only [Option.map_some', Option.some.injEq, beq_iff_eq]
    rw [show T.number d - T.number h - 1 + 1 = T.number d - T.number h by omega]
    exact hhd.eq_up

/-- Above a vote-node whose edge holds `(h, number h)`, the walk of `find_containing_nodes` goes
on: `in_direct_ancestry` answers `None`. -/
theorem inDirectAncestry_above {h d y : H} {e : Entry H V} (hy : g.entries y = some e)
    (hd : (g.entries d).isSome) (hdy : T.IsAncestor d y) (hne : d ≠ y)
    (hhd : T.number h < T.number d) : e.inDirectAncestry h (T.number h) = none := by
  have hyb : y ≠ g.base := by
    rintro rfl
    exact hne (hdy.antisymm (hg.base_isAncestor (Option.get_mem hd)))
  obtain ⟨a, -, -, -, -, hanc, hbelow⟩ := hg.ancestorNode hy hyb
  have hda := (hbelow d hd hdy hne).number_le
  have hn := hg.entry_number hy
  simp only [Entry.inDirectAncestry, hn, hanc, BlockTree.getElem?_path]
  split_ifs <;> first | rfl | omega

/-- Below every vote-node above `h` (a block above the base, not a vote-node) lies a vote-node
whose edge holds `h`. -/
theorem exists_contains_below {h : H} (hh : g.entries h = none)
    (hbh : T.IsAncestor g.base h) : ∀ x, (g.entries x).isSome → T.IsAncestor h x →
      ∃ d, g.Contains h (T.number h) d ∧ T.IsAncestor d x := by
  suffices ∀ n x, T.number x < n → (g.entries x).isSome → T.IsAncestor h x →
      ∃ d, g.Contains h (T.number h) d ∧ T.IsAncestor d x from
    fun x => this _ x (Nat.lt_succ_self _)
  intro n
  induction n with
  | zero => intro x hn; omega
  | succ n ih =>
    intro x hn hx hhx
    obtain ⟨ex, hex⟩ := Option.isSome_iff_exists.1 hx
    have hxb : x ≠ g.base := by
      rintro rfl
      rw [← hbh.antisymm hhx] at hh
      simp [hh] at hx
    obtain ⟨a, ha, hakey, hax, hlt, -⟩ := hg.ancestorNode hex hxb
    rcases hax.total hhx with hah | hha
    · exact ⟨x, (hg.contains_iff hh).2 ⟨ex, a, hex, ha, hhx, hah⟩, T.isAncestor_refl x⟩
    · obtain ⟨d, hd, hda⟩ := ih a (by omega) hakey hha
      exact ⟨d, hd, hda.trans hax⟩

omit [DecidableEq H] in
/-- Every vote-node at or below `h` is at or below the ancestor node of a vote-node whose edge
holds `h`. -/
theorem isAncestor_ancestorNode_of_contains {h d a x : H} {e : Entry H V}
    (hh : g.entries h = none) (hde : g.entries d = some e) (ha : e.ancestorNode = some a)
    (hhd : T.IsAncestor h d) (hx : (g.entries x).isSome) (hxh : T.IsAncestor x h) :
    T.IsAncestor x a := by
  have hdb : d ≠ g.base := fun hb => by simp [hg.base_ancestorNode (hb ▸ hde)] at ha
  obtain ⟨a', ha', -, -, -, -, hbelow⟩ := hg.ancestorNode hde hdb
  rw [ha, Option.some.injEq] at ha'
  subst ha'
  refine hbelow x hx (hxh.trans hhd) fun hxd => ?_
  subst hxd
  rw [hxh.antisymm hhd] at hx
  simp [hh] at hx

/-- The vote-nodes whose edges hold `h` share their ancestor node. -/
theorem contains_ancestorNodeOf_eq {h d d' : H} (hh : g.entries h = none)
    (hd : g.Contains h (T.number h) d) (hd' : g.Contains h (T.number h) d') :
    g.ancestorNodeOf d = g.ancestorNodeOf d' := by
  obtain ⟨e, a, hde, ha, hhd, hah⟩ := (hg.contains_iff hh).1 hd
  obtain ⟨e', a', hde', ha', hhd', ha'h⟩ := (hg.contains_iff hh).1 hd'
  have hakey := (hg.ancestorNodeOf_spec (ancestorNodeOf_eq_some.2 ⟨e, hde, ha⟩)).2.1
  have ha'key := (hg.ancestorNodeOf_spec (ancestorNodeOf_eq_some.2 ⟨e', hde', ha'⟩)).2.1
  have : a = a' := (hg.isAncestor_ancestorNode_of_contains hh hde' ha' hhd' hakey hah).antisymm
    (hg.isAncestor_ancestorNode_of_contains hh hde ha hhd ha'key ha'h)
  rw [ancestorNodeOf_eq_some.2 ⟨e, hde, ha⟩, ancestorNodeOf_eq_some.2 ⟨e', hde', ha'⟩, this]

/-- No vote-node whose edge holds `h` is below another one. -/
theorem contains_eq_of_isAncestor {h d d' : H} (hh : g.entries h = none)
    (hd : g.Contains h (T.number h) d) (hd' : g.Contains h (T.number h) d')
    (hdd' : T.IsAncestor d d') : d = d' := by
  obtain ⟨e, a, hde, -, hhd, -⟩ := (hg.contains_iff hh).1 hd
  obtain ⟨e', a', hde', ha', -, ha'h⟩ := (hg.contains_iff hh).1 hd'
  by_contra hne
  have hd'b : d' ≠ g.base := fun hb => by simp [hg.base_ancestorNode (hb ▸ hde')] at ha'
  obtain ⟨a'', ha'', hkey, -, -, -, hbelow⟩ := hg.ancestorNode hde' hd'b
  rw [ha', Option.some.injEq] at ha''
  subst ha''
  have hha := (hhd.trans (hbelow d (by simp [hde]) hdd' hne)).antisymm ha'h
  rw [hha] at hh
  simp [hh] at hkey

end WellFormed

end VoteGraph

end FinalityGrandpa

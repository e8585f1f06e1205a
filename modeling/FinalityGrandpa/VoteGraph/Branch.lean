import FinalityGrandpa.VoteGraph.FindContaining

/-!
# Making the voted block a vote-node

`insert` runs `introduce_branch` when some edges run through the voted block `h`, and `append`
otherwise. On a well-formed graph both succeed and give a well-formed graph in which `h` is a
vote-node and no other vote-node changes its cumulative vote:

1. `introduce_branch` cuts the edge of every containing node at `h`; the drained tails are all
   the path from `h` down to their shared ancestor node, so the new entry's edge is that path
   (`introduceBranch_eq`, `wellFormed_introduceBranch`);
2. `append` finds the nearest vote-node below `h` as the first tracked hash of the ancestry and
   hangs `h` on it as a new head (`append_eq`, `wellFormed_append`).
-/

namespace FinalityGrandpa

namespace VoteGraph

variable {H V : Type} [DecidableEq H] [AddCommMonoid V] {T : BlockTree H} {g : VoteGraph H V}

/-- The cumulative vote at `k`, `0` if `k` is not a vote-node. -/
def voteOf (g : VoteGraph H V) (k : H) : V := ((g.entries k).map Entry.cumulativeVote).getD 0

/-- The entry of a containing node once `introduce_branch` has cut its edge at `number`. -/
def cutAt (number : Nat) (e : Entry H V) : Entry H V :=
  { e with ancestors := e.ancestors.take (e.number - number) }

/-! ## `introduce_branch` computes -/

omit [AddCommMonoid V] in
theorem number_lt_of_inDirectAncestry {e : Entry H V} {hash : H} {number : Nat} {b : Bool}
    (hin : e.inDirectAncestry hash number = some b) : number < e.number := by
  by_contra hc
  simp [Entry.inDirectAncestry, show number ≥ e.number by omega] at hin

theorem introduceBranchStep_eq {hash : H} {number : Nat} (acc : VoteGraph H V × Option (Entry H V))
    {d : H} {e : Entry H V} (hd : acc.1.entries d = some e)
    (hin : e.inDirectAncestry hash number = some true)
    (hlen : e.number - number ≤ e.ancestors.length) :
    introduceBranchStep hash number acc d = some (acc.1.setEntry d (cutAt number e),
      some (let E := acc.2.getD { number, ancestors := e.ancestors.drop (e.number - number),
                                  descendents := [], cumulativeVote := 0 }
            { E with descendents := E.descendents ++ [d],
                     cumulativeVote := E.cumulativeVote + e.cumulativeVote })) := by
  have hle := (number_lt_of_inDirectAncestry hin).le
  simp [introduceBranchStep, hd, hin, checkedSub, assert, hle, hlen, cutAt]

/-- The fold of `introduce_branch` over containing nodes not yet cut, once the new entry exists. -/
theorem foldlM_introduceBranchStep (g₀ : VoteGraph H V) (hash : H) (number : Nat)
    (hcut : ∀ d, g₀.Contains hash number d →
      ∃ e, g₀.entries d = some e ∧ e.number - number ≤ e.ancestors.length) :
    ∀ (l : List H) (g : VoteGraph H V) (E : Entry H V), l.Nodup →
      (∀ d ∈ l, g.entries d = g₀.entries d ∧ g₀.Contains hash number d) →
      ∃ g', l.foldlM (introduceBranchStep hash number) (g, some E) =
          some (g', some { E with descendents := E.descendents ++ l,
                                  cumulativeVote := E.cumulativeVote + (l.map g₀.voteOf).sum }) ∧
        g'.base = g.base ∧ g'.heads = g.heads ∧
        ∀ k, g'.entries k = if k ∈ l then (g₀.entries k).map (cutAt number) else g.entries k := by
  intro l
  induction l with
  | nil => intro g E _ _; exact ⟨g, by simp, rfl, rfl, by simp⟩
  | cons d l ih =>
    intro g E hnd hl
    obtain ⟨hgd, hd⟩ := hl d (List.mem_cons_self d l)
    obtain ⟨e, he, hlen⟩ := hcut d hd
    obtain ⟨e', he', hin⟩ := hd
    rw [he, Option.some.injEq] at he'
    subst he'
    have hdl := (List.nodup_cons.1 hnd).1
    obtain ⟨g', hfold, hb, hhd, hg'⟩ := ih (g.setEntry d (cutAt number e))
      { E with descendents := E.descendents ++ [d],
               cumulativeVote := E.cumulativeVote + e.cumulativeVote }
      (List.nodup_cons.1 hnd).2 fun d' hd' => ⟨by
        rw [setEntry_entries, if_neg (by rintro rfl; exact hdl hd')]
        exact (hl d' (by simp [hd'])).1,
        (hl d' (by simp [hd'])).2⟩
    refine ⟨g', ?_, hb, hhd, fun k => ?_⟩
    · rw [List.foldlM_cons, introduceBranchStep_eq (g, some E) (by rw [hgd, he]) hin hlen]
      refine hfold.trans ?_
      simp [voteOf, he, add_assoc]
    · rw [hg']
      by_cases hk : k ∈ l
      · simp [hk]
      · by_cases hkd : k = d
        · subst hkd; simp [he]
        · simp [hk, hkd]

namespace WellFormed

variable (hg : WellFormed T g) {h : H} (hh : g.entries h = none)
include hg hh

omit [AddCommMonoid V] in
/-- The entry of a vote-node whose edge holds `h`: its edge runs from it down past `h` to its
ancestor node. -/
theorem contains_edge {d : H} (hd : g.Contains h (T.number h) d) :
    ∃ e a, g.entries d = some e ∧ e.ancestorNode = some a ∧ e.number = T.number d ∧
      e.ancestors = T.path d (T.number d - T.number a) ∧ T.IsAncestor h d ∧ T.IsAncestor a h ∧
      T.number a < T.number h ∧ T.number h < T.number d := by
  obtain ⟨e, a, hde, ha, hhd, hah⟩ := (hg.contains_iff hh).1 hd
  have hdb : d ≠ g.base := fun hb => by simp [hg.base_ancestorNode (hb ▸ hde)] at ha
  obtain ⟨a', ha', hakey, -, -, hanc, -⟩ := hg.ancestorNode hde hdb
  rw [ha, Option.some.injEq] at ha'
  subst ha'
  have hah' : a ≠ h := by rintro rfl; simp [hh] at hakey
  have hhd' : h ≠ d := by rintro rfl; simp [hh] at hde
  exact ⟨e, a, hde, ha, hg.entry_number hde, hanc, hhd, hah, hah.lt_of_ne hah',
    hhd.lt_of_ne hhd'⟩

/-- `introduce_branch` over the containing nodes of `h`: each is cut at `h`, and `h` gets the
path down to their shared ancestor node `a`, all of them as descendents, and the sum of their
cumulative votes. -/
theorem introduceBranch_eq {D : List H} (hD : D.Nodup)
    (hmem : ∀ d, d ∈ D ↔ g.Contains h (T.number h) d) {d₁ a : H} (hd₁ : d₁ ∈ D)
    (ha : g.ancestorNodeOf d₁ = some a) :
    ∃ g', g.introduceBranch D h (T.number h) = some g' ∧ g'.base = g.base ∧ g'.heads = g.heads ∧
      ∀ k, g'.entries k = if k = h then
          some { number := T.number h, ancestors := T.path h (T.number h - T.number a),
                 descendents := D, cumulativeVote := (D.map g.voteOf).sum }
        else if k ∈ D then (g.entries k).map (cutAt (T.number h)) else g.entries k := by
  obtain _ | ⟨d₀, rest⟩ := D
  · simp at hd₁
  have hd₀ := (hmem d₀).1 (List.mem_cons_self _ _)
  obtain ⟨e₀, a₀, he₀, ha₀, hn₀, hanc₀, hhd₀, -, hlt₀, hlt₀'⟩ := hg.contains_edge hh hd₀
  have ha₀' : a₀ = a := by
    rw [← Option.some.injEq, ← ha, ← ancestorNodeOf_eq_some.2 ⟨e₀, he₀, ha₀⟩]
    exact hg.contains_ancestorNodeOf_eq hh hd₀ ((hmem d₁).1 hd₁)
  subst ha₀'
  have hcut : ∀ d, g.Contains h (T.number h) d →
      ∃ e, g.entries d = some e ∧ e.number - T.number h ≤ e.ancestors.length := by
    intro d hd
    obtain ⟨e, a, hde, -, hn, hanc, -, -, hlt, -⟩ := hg.contains_edge hh hd
    exact ⟨e, hde, by rw [hanc, hn, BlockTree.length_path]; omega⟩
  have hrest := (List.nodup_cons.1 hD).1
  have hhD : h ∉ d₀ :: rest := fun hm => by
    obtain ⟨e, he, -⟩ := (hmem h).1 hm
    simp [hh] at he
  obtain ⟨g'', hfold, hb'', hheads'', hg''⟩ := foldlM_introduceBranchStep g h (T.number h) hcut rest
    (g.setEntry d₀ (cutAt (T.number h) e₀))
    { number := T.number h, ancestors := e₀.ancestors.drop (e₀.number - T.number h),
      descendents := [d₀], cumulativeVote := 0 + e₀.cumulativeVote }
    (List.nodup_cons.1 hD).2 fun d hd => ⟨by
      rw [setEntry_entries, if_neg (by rintro rfl; exact hrest hd)],
      (hmem d).1 (List.mem_cons_of_mem _ hd)⟩
  have hg''h : g''.entries h = none := by
    rw [hg'', if_neg (fun hm => hhD (List.mem_cons_of_mem _ hm)), setEntry_entries,
      if_neg (by rintro rfl; exact hhD (List.mem_cons_self _ _)), hh]
  have hdrop : e₀.ancestors.drop (e₀.number - T.number h) =
      T.path h (T.number h - T.number a₀) := by
    rw [hanc₀, hn₀, BlockTree.drop_path _ (by omega), hhd₀.eq_up]
    congr 1; omega
  have hin₀ : e₀.inDirectAncestry h (T.number h) = some true := by
    obtain ⟨e, he, hin⟩ := hd₀; rw [he₀, Option.some.injEq] at he; exact he ▸ hin
  have hfold' : (d₀ :: rest).foldlM (introduceBranchStep h (T.number h)) (g, none) =
      some (g'', some
        { number := T.number h, ancestors := T.path h (T.number h - T.number a₀),
          descendents := d₀ :: rest, cumulativeVote := ((d₀ :: rest).map g.voteOf).sum }) := by
    rw [List.foldlM_cons, introduceBranchStep_eq (g, none) he₀ hin₀
      (by rw [hanc₀, hn₀, BlockTree.length_path]; omega)]
    refine hfold.trans ?_
    simp [hdrop, voteOf, he₀]
  refine ⟨g''.setEntry h
    { number := T.number h, ancestors := T.path h (T.number h - T.number a₀),
      descendents := d₀ :: rest, cumulativeVote := ((d₀ :: rest).map g.voteOf).sum },
    by simp [introduceBranch, hfold', hg''h, assert], hb'', hheads'', fun k => ?_⟩
  rw [setEntry_entries, hg'']
  by_cases hkh : k = h
  · simp [hkh]
  by_cases hkr : k ∈ rest
  · simp [hkh, hkr]
  by_cases hkd : k = d₀
  · subst hkd; simp [he₀]
  · simp [hkh, hkr, hkd]

/-- The graph `introduce_branch` leaves, given by its entries, is well-formed: the cut edges
end at `h`, the edge of `h` ends at the shared ancestor node `a`, and `a` keeps a child (`h`). -/
theorem wellFormed_introduceBranch (hbh : T.IsAncestor g.base h) {D : List H}
    (hmem : ∀ d, d ∈ D ↔ g.Contains h (T.number h) d) {d₁ a : H} (hd₁ : d₁ ∈ D)
    (ha : g.ancestorNodeOf d₁ = some a) {g' : VoteGraph H V} (hb : g'.base = g.base)
    (hhs : g'.heads = g.heads)
    (he : ∀ k, g'.entries k = if k = h then
          some { number := T.number h, ancestors := T.path h (T.number h - T.number a),
                 descendents := D, cumulativeVote := (D.map g.voteOf).sum }
        else if k ∈ D then (g.entries k).map (cutAt (T.number h)) else g.entries k) :
    WellFormed T g' := by
  obtain ⟨e₁, a₁, he₁, ha₁, -, -, hhd₁, hah, hlta, -⟩ := hg.contains_edge hh ((hmem d₁).1 hd₁)
  obtain rfl : a₁ = a := by
    rw [ancestorNodeOf_eq_some.2 ⟨e₁, he₁, ha₁⟩, Option.some.injEq] at ha; exact ha
  have hakey := (hg.ancestorNodeOf_spec ha).2.1
  have hDa : ∀ d ∈ D, g.ancestorNodeOf d = some a₁ := fun d hd =>
    ha ▸ hg.contains_ancestorNodeOf_eq hh ((hmem d).1 hd) ((hmem d₁).1 hd₁)
  have hhD : h ∉ D := fun hm => by obtain ⟨e, he, -⟩ := (hmem h).1 hm; simp [hh] at he
  have haD : a₁ ∉ D := fun hm => by
    obtain ⟨-, -, -, -, -, -, hha, -, -, -⟩ := hg.contains_edge hh ((hmem a₁).1 hm)
    exact absurd (hha.antisymm hah) (by rintro rfl; simp [hh] at hakey)
  have hah' : a₁ ≠ h := by rintro rfl; simp [hh] at hakey
  have hnone : ∀ x, x ≠ h → g.entries x = none → g'.entries x = none := by
    intro x hx hgx; rw [he]; simp [hx, hgx]
  have hsome : ∀ x, (g.entries x).isSome → (g'.entries x).isSome := by
    intro x hx; rw [he]; split_ifs <;> simp [hx]
  -- the edge of a containing node, once cut, ends at `h`
  have hcutD : ∀ d ∈ D, ∀ e, g.entries d = some e →
      (cutAt (T.number h) e).ancestors = T.path d (T.number d - T.number h) ∧
      (cutAt (T.number h) e).ancestorNode = some h ∧ T.number h < T.number d := by
    intro d hd e hde
    obtain ⟨e', a', hde', -, hn, hanc, hhd, -, hlt', hlt⟩ := hg.contains_edge hh ((hmem d).1 hd)
    rw [hde, Option.some.injEq] at hde'
    subst hde'
    have hcut : (cutAt (T.number h) e).ancestors = T.path d (T.number d - T.number h) := by
      rw [cutAt, hanc, hn, BlockTree.take_path _ (by omega)]
    refine ⟨hcut, ?_, hlt⟩
    rw [Entry.ancestorNode, hcut, BlockTree.getLast?_path_of_pos _ (by omega), hhd.eq_up]
  have hanc' : ∀ c, g'.ancestorNodeOf c =
      if c = h then some a₁ else if c ∈ D then some h else g.ancestorNodeOf c := by
    intro c
    simp only [ancestorNodeOf, he]
    split_ifs with hc hcD
    · simp only [Option.some_bind, Entry.ancestorNode]
      rw [BlockTree.getLast?_path_of_pos _ (by omega), hah.eq_up]
    · obtain ⟨e, hce⟩ := Option.isSome_iff_exists.1 (hg.ancestorNodeOf_spec (hDa c hcD)).1
      simp [hce, (hcutD c hcD e hce).2.1]
    · rfl
  have hancEq : ∀ k c, k ≠ h → k ≠ a₁ →
      (g'.ancestorNodeOf c = some k ↔ g.ancestorNodeOf c = some k) := by
    intro k c hkh hka
    rw [hanc']
    split_ifs with hc hcD
    · subst hc; simp [ancestorNodeOf, hh, Ne.symm hka]
    · simp [hDa c hcD, Ne.symm hkh, Ne.symm hka]
    · rfl
  refine ⟨?_, fun k e' hk => ?_, fun k e' hk hkb => ?_, fun k => ?_, fun k e' hk => ?_⟩
  · -- the base is neither `h` nor a containing node
    obtain ⟨e, h1, h2, h3⟩ := hg.base
    have hbD : g.base ∉ D := fun hm => by
      obtain ⟨e', a', he', ha', -⟩ := hg.contains_edge hh ((hmem _).1 hm)
      rw [h1, Option.some.injEq] at he'
      subst he'
      simp [Entry.ancestorNode, h3] at ha'
    have hbh' : g.base ≠ h := by rintro hbh'; rw [← hbh'] at hh; simp [hh] at h1
    exact ⟨e, by rw [hb, he, if_neg hbh', if_neg hbD, h1], by rw [h2, hb], h3⟩
  · rw [he] at hk
    split_ifs at hk with hkh hkD
    · cases hk; subst hkh; exact ⟨rfl, hb ▸ hbh⟩
    · obtain ⟨e, hke, rfl⟩ := Option.map_eq_some'.1 hk
      exact hb ▸ hg.number k e hke
    · exact hb ▸ hg.number k e' hk
  · rw [he] at hk
    split_ifs at hk with hkh hkD
    · cases hk; subst hkh
      refine ⟨T.number k - T.number a₁, by omega, by omega, rfl,
        by rw [hah.eq_up]; exact hsome _ hakey, fun i hi hi' => hnone _ ?_ ?_⟩
      · exact T.up_ne (by omega) (by omega)
      · by_contra hx
        have hxk := T.isAncestor_up (b := k) (k := i) (by omega)
        have := (hg.isAncestor_ancestorNode_of_contains hh he₁ ha₁ hhd₁
          (Option.ne_none_iff_isSome.1 hx) hxk).number_le
        rw [T.number_up (by omega)] at this; omega
    · obtain ⟨e, hke, rfl⟩ := Option.map_eq_some'.1 hk
      obtain ⟨hcut, -, hlt⟩ := hcutD k hkD e hke
      obtain ⟨e₂, a', hke₂, ha', -, -, hkd, hah₂, -, -⟩ := hg.contains_edge hh ((hmem k).1 hkD)
      rw [hke, Option.some.injEq] at hke₂
      subst hke₂
      have hkb' : k ≠ g.base := hb ▸ hkb
      obtain ⟨a'', ha'', -, -, hlt', -, hbelow⟩ := hg.ancestorNode hke hkb'
      refine ⟨T.number k - T.number h, by omega, by omega, hcut, by rw [hkd.eq_up, he]; simp,
        fun i hi hi' => hnone _ ?_ ?_⟩
      · exact T.up_ne (by omega) (by omega)
      · by_contra hx
        have hxk := T.isAncestor_up (b := k) (k := i) (by omega)
        have hxa := (hbelow _ (Option.ne_none_iff_isSome.1 hx) hxk
          (T.up_ne (by omega) (by omega))).number_le
        rw [ha', Option.some.injEq] at ha''
        subst ha''
        rw [T.number_up (by omega)] at hxa
        have := hah₂.number_le
        omega
    · obtain ⟨d, h0, hd, hanc, hkey, hgap⟩ := hg.edge k e' hk (hb ▸ hkb)
      refine ⟨d, h0, hd, hanc, hsome _ hkey, fun i hi hi' => hnone _ (fun heq => hkD ?_)
        (hgap i hi hi')⟩
      obtain ⟨d', rfl⟩ : ∃ d', d = d' + 1 := ⟨d - 1, by omega⟩
      have hhk : T.IsAncestor h k := heq ▸ T.isAncestor_up (by omega)
      refine (hmem k).2 ((hg.contains_iff hh).2 ⟨e', _, hk, by rw [Entry.ancestorNode, hanc,
        BlockTree.getLast?_path], hhk, (T.isAncestor_up hd).of_le hhk ?_⟩)
      rw [T.number_up hd, ← heq, T.number_up (by omega)]; omega
  · rw [hhs, hg.heads, he]
    by_cases hkh : k = h
    · subst hkh
      simp only [hh, if_true]
      simp only [reduceCtorEq, false_and, exists_false, Option.some.injEq, exists_eq_left',
        false_iff]
      exact List.ne_nil_of_mem hd₁
    by_cases hkD : k ∈ D
    · simp only [if_neg hkh, if_pos hkD, Option.map_eq_some']
      constructor
      · rintro ⟨e, hke, hd⟩; exact ⟨_, ⟨e, hke, rfl⟩, hd⟩
      · rintro ⟨_, ⟨e, hke, rfl⟩, hd⟩; exact ⟨e, hke, hd⟩
    · simp only [if_neg hkh, if_neg hkD]
  · rw [he] at hk
    split_ifs at hk with hkh hkD
    · cases hk; subst hkh
      simp only [List.ne_nil_of_mem hd₁, false_iff, not_forall, not_not]
      exact ⟨d₁, by rw [hanc', if_neg (by rintro rfl; exact hhD hd₁), if_pos hd₁]⟩
    · obtain ⟨e, hke, rfl⟩ := Option.map_eq_some'.1 hk
      rw [show (cutAt (T.number h) e).descendents = e.descendents from rfl, hg.descendents k e hke]
      exact forall_congr' fun c => not_congr (hancEq k c hkh (by rintro rfl; exact haD hkD)).symm
    · by_cases hka : k = a₁
      · subst hka
        have hne : ¬ ∀ c, g.ancestorNodeOf c ≠ some k := fun hall => hall d₁ ha
        have hne' : ¬ ∀ c, g'.ancestorNodeOf c ≠ some k :=
          fun hall => hall h (by rw [hanc', if_pos rfl])
        exact iff_of_false (fun hd => hne ((hg.descendents k e' hk).1 hd)) hne'
      · rw [hg.descendents k e' hk]
        exact forall_congr' fun c => not_congr (hancEq k c hkh hka).symm

/-! ## `append` -/

omit [DecidableEq H] [AddCommMonoid V] in
/-- The nearest vote-node below `h` (a block strictly above the base) is the first tracked hash
of `ancestry(base, h)`. -/
theorem findIdx?_ancestry (hbh : T.IsAncestor g.base h) :
    ∃ i a ea, (T.path h (T.number h - T.number g.base)).findIdx? (fun x => (g.entries x).isSome) =
        some i ∧ (T.path h (T.number h - T.number g.base))[i]? = some a ∧
      a = T.up h (T.number h - T.number a) ∧ i + 1 = T.number h - T.number a ∧
      g.entries a = some ea ∧ T.IsAncestor a h ∧ T.number a < T.number h ∧
      ∀ x, (g.entries x).isSome → T.IsAncestor x h → T.IsAncestor x a := by
  obtain ⟨eb, heb, -⟩ := hg.base
  have hbh' : g.base ≠ h := by rintro rfl; simp [hh] at heb
  have hlt := hbh.lt_of_ne hbh'
  have hsome : ((T.path h (T.number h - T.number g.base)).findIdx?
      (fun x => (g.entries x).isSome)).isSome := by
    rw [List.findIdx?_isSome, List.any_eq_true]
    exact ⟨g.base, BlockTree.mem_path.2 ⟨T.number h - T.number g.base - 1, by omega,
      by rw [Nat.sub_add_cancel (by omega), hbh.eq_up]⟩, by simp [heb]⟩
  obtain ⟨i, hi⟩ := Option.isSome_iff_exists.1 hsome
  obtain ⟨hilen, hkey, hfirst⟩ := List.findIdx?_eq_some_iff_getElem.1 hi
  rw [BlockTree.getElem_path] at hkey
  rw [BlockTree.length_path] at hilen
  obtain ⟨ea, hea⟩ := Option.isSome_iff_exists.1 hkey
  have ha := T.isAncestor_up (b := h) (k := i + 1) (by omega)
  have hna := T.number_up (b := h) (k := i + 1) (by omega)
  refine ⟨i, _, ea, hi, by rw [BlockTree.getElem?_path, if_pos hilen], by rw [hna]; congr 1; omega,
    by omega, hea, ha, by omega, fun x hx hxh => hxh.of_le ha ?_⟩
  have hxh' : x ≠ h := by rintro rfl; simp [hh] at hx
  have hlt' := hxh.lt_of_ne hxh'
  rw [hna]
  by_contra hc
  have := hfirst (T.number h - T.number x - 1) (by omega)
  rw [BlockTree.getElem_path, Nat.sub_add_cancel (by omega), hxh.eq_up] at this
  exact this hx

/-- `append` of `h` (above the base, not a vote-node): `h` gets the path down to the nearest
vote-node `a` below it and becomes a head, and `a` lists it as a descendent. -/
theorem append_eq {chain : Chain H} (hchain : chain.Follows T g.base)
    (hbh : T.IsAncestor g.base h) :
    ∃ a ea, g.entries a = some ea ∧ T.IsAncestor a h ∧ T.number a < T.number h ∧
      (∀ x, (g.entries x).isSome → T.IsAncestor x h → T.IsAncestor x a) ∧
      ∃ g', g.append chain h (T.number h) = some g' ∧ g'.base = g.base ∧
        g'.heads = setInsert (setRemove g.heads a) h ∧
        ∀ k, g'.entries k = if k = h then
            some { number := T.number h, ancestors := T.path h (T.number h - T.number a),
                   descendents := [], cumulativeVote := 0 }
          else if k = a then some { ea with descendents := ea.descendents ++ [h] }
          else g.entries k := by
  obtain ⟨i, a, ea, hi, hai, hup, hia, hea, hah, hlt, hnear⟩ := hg.findIdx?_ancestry hh hbh
  have hbh' : h ≠ g.base := by rintro rfl; obtain ⟨eb, heb, -⟩ := hg.base; simp [hh] at heb
  have htake : (T.path h (T.number h - T.number g.base)).take (i + 1) =
      T.path h (T.number h - T.number a) := by
    rw [BlockTree.take_path _ (by have := hg.base_isAncestor hea; have := this.number_le; omega),
      hia]
  have hah' : a ≠ h := by rintro rfl; simp [hh] at hea
  refine ⟨a, ea, hea, hah, hlt, hnear,
    { (g.setEntry a { ea with descendents := ea.descendents ++ [h] }).setEntry h
        { number := T.number h, ancestors := T.path h (T.number h - T.number a), descendents := [],
          cumulativeVote := 0 } with heads := setInsert (setRemove g.heads a) h },
    ?_, rfl, rfl, fun k => ?_⟩
  · simp [append, hchain h hbh hbh', hi, hai, hea, htake]
  · by_cases hkh : k = h
    · subst hkh; simp
    · by_cases hka : k = a
      · subst hka; simp [hkh]
      · simp [hkh, hka]

/-- The graph `append` leaves, given by its entries, is well-formed when no vote-node is above
`h`: `h` is a new leaf hanging on `a`. -/
theorem wellFormed_append (hbh : T.IsAncestor g.base h)
    (habove : ∀ x, (g.entries x).isSome → ¬ T.IsAncestor h x) {a : H} {ea : Entry H V}
    (hea : g.entries a = some ea) (hah : T.IsAncestor a h) (hlt : T.number a < T.number h)
    (hnear : ∀ x, (g.entries x).isSome → T.IsAncestor x h → T.IsAncestor x a)
    {g' : VoteGraph H V} (hb : g'.base = g.base)
    (hhs : g'.heads = setInsert (setRemove g.heads a) h)
    (he : ∀ k, g'.entries k = if k = h then
            some { number := T.number h, ancestors := T.path h (T.number h - T.number a),
                   descendents := [], cumulativeVote := 0 }
          else if k = a then some { ea with descendents := ea.descendents ++ [h] }
          else g.entries k) :
    WellFormed T g' := by
  have hah' : a ≠ h := by rintro rfl; simp [hh] at hea
  have hsome : ∀ x, (g.entries x).isSome → (g'.entries x).isSome := by
    intro x hx; rw [he]; split_ifs <;> simp [hx]
  have hnone : ∀ x, x ≠ h → g.entries x = none → g'.entries x = none := by
    intro x hx hgx; rw [he, if_neg hx, if_neg (by rintro rfl; simp [hea] at hgx), hgx]
  have hanc' : ∀ c, g'.ancestorNodeOf c = if c = h then some a else g.ancestorNodeOf c := by
    intro c
    simp only [ancestorNodeOf, he]
    split_ifs with hc hca
    · simp only [Option.some_bind, Entry.ancestorNode]
      rw [BlockTree.getLast?_path_of_pos _ (by omega), hah.eq_up]
    · subst hca; simp [hea, Entry.ancestorNode]
    · rfl
  have hancEq : ∀ k c, k ≠ a → (g'.ancestorNodeOf c = some k ↔ g.ancestorNodeOf c = some k) := by
    intro k c hka
    rw [hanc']
    split_ifs with hc
    · subst hc; simp [ancestorNodeOf, hh, Ne.symm hka]
    · rfl
  refine ⟨?_, fun k e' hk => ?_, fun k e' hk hkb => ?_, fun k => ?_, fun k e' hk => ?_⟩
  · obtain ⟨e, h1, h2, h3⟩ := hg.base
    have hbh' : g.base ≠ h := by rintro hbh'; rw [← hbh'] at hh; simp [hh] at h1
    rw [hb, he, if_neg hbh']
    split_ifs with hba
    · subst hba; rw [hea, Option.some.injEq] at h1; subst h1
      exact ⟨_, rfl, h2, h3⟩
    · exact ⟨e, h1, h2, h3⟩
  · rw [he] at hk
    split_ifs at hk with hkh hka
    · cases hk; subst hkh; exact ⟨rfl, hb ▸ hbh⟩
    · cases hk; subst hka; exact hb ▸ hg.number k ea hea
    · exact hb ▸ hg.number k e' hk
  · rw [he] at hk
    split_ifs at hk with hkh hka
    · cases hk; subst hkh
      refine ⟨T.number k - T.number a, by omega, by omega, rfl,
        by rw [hah.eq_up]; exact hsome _ (by simp [hea]), fun i hi hi' => hnone _ ?_ ?_⟩
      · exact T.up_ne (by omega) (by omega)
      · by_contra hx
        have := (hnear _ (Option.ne_none_iff_isSome.1 hx) (T.isAncestor_up (by omega))).number_le
        rw [T.number_up (by omega)] at this; omega
    · cases hk; subst hka
      obtain ⟨d, h0, hd, hanc, hkey, hgap⟩ := hg.edge k ea hea (hb ▸ hkb)
      exact ⟨d, h0, hd, hanc, hsome _ hkey, fun i hi hi' =>
        hnone _ (T.up_ne (by omega) (by omega)) (hgap i hi hi')⟩
    · obtain ⟨d, h0, hd, hanc, hkey, hgap⟩ := hg.edge k e' hk (hb ▸ hkb)
      refine ⟨d, h0, hd, hanc, hsome _ hkey, fun i hi hi' => hnone _ (fun heq => ?_)
        (hgap i hi hi')⟩
      exact habove k (by simp [hk]) (heq ▸ T.isAncestor_up (by omega))
  · rw [hhs, mem_setInsert, mem_setRemove, hg.heads, he]
    by_cases hkh : k = h
    · subst hkh; simp
    · by_cases hka : k = a
      · subst hka; simp [hkh]
      · simp [hkh, hka]
  · rw [he] at hk
    split_ifs at hk with hkh hka
    · cases hk; subst hkh
      refine iff_of_true rfl fun c hc => ?_
      rw [hanc'] at hc
      split_ifs at hc
      · exact hah' (Option.some.inj hc)
      · simpa [hh] using (hg.ancestorNodeOf_spec hc).2.1
    · cases hk; subst hka
      refine iff_of_false (by simp) fun hall => hall h ?_
      rw [hanc', if_pos rfl]
    · rw [hg.descendents k e' hk]
      exact forall_congr' fun c => not_congr (hancEq k c hka).symm

end WellFormed

end VoteGraph

end FinalityGrandpa

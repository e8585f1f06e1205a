import FinalityGrandpa.VoteGraph.Reachable

/-!
# What `descendents` keeps

`descendents_stale` shows that `descendents` is not the inverse of the ancestor node. What every
`insert` keeps is weaker (`DescInv`): a vote-node lists distinct vote-nodes strictly above it,
and every vote-node whose ancestor node it is lies at or below one of them. `append` adds the new
head to the list of its ancestor node; `introduce_branch` gives the new vote-node the containing
nodes and leaves the list of their old ancestor node alone, which still covers the new node
through the containing nodes above it; the weight loop touches only cumulative votes.
-/

namespace FinalityGrandpa

namespace VoteGraph

variable {H V : Type} [DecidableEq H] [AddCommMonoid V] {T : BlockTree H}

/-- What `insert` keeps of the `descendents` lists: every vote-node lists vote-nodes strictly
above it, each once, and every vote-node whose ancestor node it is lies at or below one of
them. -/
structure DescInv (T : BlockTree H) (g : VoteGraph H V) : Prop where
  nodup : ∀ k e, g.entries k = some e → e.descendents.Nodup
  above : ∀ k e, g.entries k = some e → ∀ d ∈ e.descendents,
    (g.entries d).isSome ∧ T.IsAncestor k d ∧ d ≠ k
  cover : ∀ k e, g.entries k = some e → ∀ c, g.ancestorNodeOf c = some k →
    ∃ d ∈ e.descendents, T.IsAncestor c d

variable {g g' : VoteGraph H V}

theorem descInv_new (base : H) : DescInv T (new base (T.number base) : VoteGraph H V) := by
  have hnew : ∀ k e, (new base (T.number base) : VoteGraph H V).entries k = some e →
      e.descendents = [] ∧ e.ancestors = [] := fun k e hk => by
    simp only [new, Function.update_apply] at hk
    split_ifs at hk
    cases hk
    exact ⟨rfl, rfl⟩
  refine ⟨fun k e hk => (hnew k e hk).1 ▸ List.nodup_nil, fun k e hk d hd => ?_,
    fun k e hk c hc => ?_⟩
  · rw [(hnew k e hk).1] at hd; cases hd
  · obtain ⟨ec, hc', hac⟩ := ancestorNodeOf_eq_some.1 hc
    simp [Entry.ancestorNode, (hnew c ec hc').2] at hac

namespace DescInv

variable (hd : DescInv T g)
include hd

omit [DecidableEq H] [AddCommMonoid V] in
/-- A map of the entries that keeps edges and `descendents` (the weight loop) keeps `DescInv`. -/
theorem map_entries (f : H → Entry H V → Entry H V)
    (hf : ∀ k e, (f k e).ancestors = e.ancestors ∧ (f k e).descendents = e.descendents)
    (he : ∀ k, g'.entries k = (g.entries k).map (f k)) : DescInv T g' := by
  have hsome : ∀ k, (g'.entries k).isSome = (g.entries k).isSome := by simp [he]
  have hanc : ∀ k, g'.ancestorNodeOf k = g.ancestorNodeOf k := fun k => by
    simp only [ancestorNodeOf, he]
    cases g.entries k <;> simp [Entry.ancestorNode, (hf _ _).1]
  refine ⟨fun k e' hk => ?_, fun k e' hk d hdm => ?_, fun k e' hk c hc => ?_⟩ <;>
    rw [he] at hk <;> obtain ⟨e, hk', rfl⟩ := Option.map_eq_some'.1 hk
  · rw [(hf k e).2]; exact hd.nodup k e hk'
  · rw [(hf k e).2] at hdm; rw [hsome]; exact hd.above k e hk' d hdm
  · rw [(hf k e).2]; exact hd.cover k e hk' c (hanc c ▸ hc)

end DescInv

/-! ## `introduce_branch` and `append` -/

section Branch

variable {h : H}

/-- The ancestor nodes after `append` of `h` above the vote-node `a`: `h` hangs on `a`. -/
theorem ancestorNodeOf_append {a : H} {ea : Entry H V} (hea : g.entries a = some ea)
    (hah : T.IsAncestor a h) (hlt : T.number a < T.number h)
    (he : ∀ k, g'.entries k = if k = h then
            some { number := T.number h, ancestors := T.path h (T.number h - T.number a),
                   descendents := [], cumulativeVote := 0 }
          else if k = a then some { ea with descendents := ea.descendents ++ [h] }
          else g.entries k) (c : H) :
    g'.ancestorNodeOf c = if c = h then some a else g.ancestorNodeOf c := by
  unfold ancestorNodeOf
  rw [he]
  split_ifs with hch hca
  · simp [Entry.ancestorNode, BlockTree.getLast?_path_of_pos _ (Nat.sub_pos_of_lt hlt), hah.eq_up]
  · subst hca; simp [hea, Entry.ancestorNode]
  · rfl

variable (hg : WellFormed T g) (hh : g.entries h = none)
include hg hh

/-- The ancestor nodes after `introduce_branch` of `h` over its containing nodes `D`, all
above `a`: `h` hangs on `a` and the containing nodes on `h`. -/
theorem ancestorNodeOf_introduceBranch {D : List H}
    (hmem : ∀ d, d ∈ D ↔ g.Contains h (T.number h) d) {d₁ a : H} (hd₁ : d₁ ∈ D)
    (ha : g.ancestorNodeOf d₁ = some a) (hah : T.IsAncestor a h) (hlt : T.number a < T.number h)
    (he : ∀ k, g'.entries k = if k = h then
          some { number := T.number h, ancestors := T.path h (T.number h - T.number a),
                 descendents := D, cumulativeVote := (D.map g.voteOf).sum }
        else if k ∈ D then (g.entries k).map (cutAt (T.number h)) else g.entries k) (c : H) :
    g'.ancestorNodeOf c =
      if c = h then some a else if c ∈ D then some h else g.ancestorNodeOf c := by
  unfold ancestorNodeOf
  rw [he]
  split_ifs with hch hcD
  · simp [Entry.ancestorNode, BlockTree.getLast?_path_of_pos _ (Nat.sub_pos_of_lt hlt), hah.eq_up]
  · obtain ⟨e, a', hce, ha', hn, hanc, hhc, -, -, hlt'⟩ := hg.contains_edge hh ((hmem c).1 hcD)
    have haa' : a' = a := Option.some.inj <| by
      rw [← ha, ← ancestorNodeOf_eq_some.2 ⟨e, hce, ha'⟩]
      exact hg.contains_ancestorNodeOf_eq hh ((hmem c).1 hcD) ((hmem d₁).1 hd₁)
    subst haa'
    have hcut : T.number c - T.number h ≤ T.number c - T.number a' := by omega
    simp [hce, cutAt, Entry.ancestorNode, hanc, hn, BlockTree.take_path _ hcut,
      BlockTree.getLast?_path_of_pos _ (Nat.sub_pos_of_lt hlt'), hhc.eq_up]
  · rfl

/-- `introduce_branch` of `h` over its containing nodes keeps `DescInv`. -/
theorem DescInv.introduceBranch (hd : DescInv T g) {D : List H} (hD : D.Nodup)
    (hmem : ∀ d, d ∈ D ↔ g.Contains h (T.number h) d) {d₁ a : H} (hd₁ : d₁ ∈ D)
    (ha : g.ancestorNodeOf d₁ = some a)
    (he : ∀ k, g'.entries k = if k = h then
          some { number := T.number h, ancestors := T.path h (T.number h - T.number a),
                 descendents := D, cumulativeVote := (D.map g.voteOf).sum }
        else if k ∈ D then (g.entries k).map (cutAt (T.number h)) else g.entries k) :
    DescInv T g' := by
  obtain ⟨e₁, a₁, he₁, ha₁, -, -, hhd₁, hah, hlt, -⟩ := hg.contains_edge hh ((hmem d₁).1 hd₁)
  obtain rfl : a = a₁ := by
    rw [ancestorNodeOf_eq_some.2 ⟨e₁, he₁, ha₁⟩, Option.some.injEq] at ha; exact ha.symm
  have hanc := ancestorNodeOf_introduceBranch hg hh hmem hd₁ ha hah hlt he
  have hDh : ∀ d ∈ D, (g.entries d).isSome ∧ T.IsAncestor h d ∧ d ≠ h := fun d hdD => by
    obtain ⟨e, -, hde, -, -, -, hhd, -, -, hlt'⟩ := hg.contains_edge hh ((hmem d).1 hdD)
    exact ⟨by simp [hde], hhd, by rintro rfl; omega⟩
  have hkeys : ∀ k, (g.entries k).isSome → (g'.entries k).isSome := fun k hk => by
    rw [he]; split_ifs <;> simp [hk]
  -- the new vote-node lists the containing nodes; every other entry keeps its `descendents`
  have hent : ∀ k e', g'.entries k = some e' → (h = k ∧ e'.descendents = D) ∨
      (k ≠ h ∧ ∃ e, g.entries k = some e ∧ e'.descendents = e.descendents) := fun k e' hk => by
    rw [he] at hk
    split_ifs at hk with hkh
    · cases hk; exact .inl ⟨hkh.symm, rfl⟩
    · obtain ⟨e, hk', rfl⟩ := Option.map_eq_some'.1 hk; exact .inr ⟨hkh, e, hk', rfl⟩
    · exact .inr ⟨hkh, e', hk, rfl⟩
  refine ⟨fun k e' hk => ?_, fun k e' hk d hdm => ?_, fun k e' hk c hc => ?_⟩ <;>
    rcases hent k e' hk with ⟨rfl, hde⟩ | ⟨hkh, e, hk', hde⟩
  · exact hde ▸ hD
  · exact hde ▸ hd.nodup k e hk'
  · obtain ⟨hkey, hhd, hne⟩ := hDh d (hde ▸ hdm)
    exact ⟨hkeys d hkey, hhd, hne⟩
  · obtain ⟨hkey, hkd, hne⟩ := hd.above k e hk' d (hde ▸ hdm)
    exact ⟨hkeys d hkey, hkd, hne⟩
  all_goals rw [hanc] at hc; split_ifs at hc with hch hcD
  · exact absurd (Option.some.inj hc) (by rintro rfl; omega)
  · exact ⟨c, hde ▸ hcD, T.isAncestor_refl c⟩
  · have := (hg.ancestorNodeOf_spec hc).2.1; simp [hh] at this
  · -- `h` hangs on `a`, whose list covers the containing nodes above `h`
    cases hc; subst hch
    obtain ⟨d, hdm, hd₁d⟩ := hd.cover a e hk' d₁ ha
    exact ⟨d, hde ▸ hdm, hhd₁.trans hd₁d⟩
  · exact absurd (Option.some.inj hc).symm hkh
  · obtain ⟨d, hdm, hcd⟩ := hd.cover k e hk' c hc
    exact ⟨d, hde ▸ hdm, hcd⟩

/-- `append` of `h` above the vote-node `a` keeps `DescInv`. -/
theorem DescInv.append (hd : DescInv T g) {a : H} {ea : Entry H V} (hea : g.entries a = some ea)
    (hah : T.IsAncestor a h) (hlt : T.number a < T.number h)
    (he : ∀ k, g'.entries k = if k = h then
            some { number := T.number h, ancestors := T.path h (T.number h - T.number a),
                   descendents := [], cumulativeVote := 0 }
          else if k = a then some { ea with descendents := ea.descendents ++ [h] }
          else g.entries k) :
    DescInv T g' := by
  have hah' : a ≠ h := by rintro rfl; simp [hh] at hea
  have hanc := ancestorNodeOf_append hea hah hlt he
  have hkeys : ∀ k, (g.entries k).isSome → (g'.entries k).isSome := fun k hk => by
    rw [he]; split_ifs <;> simp [hk]
  have hnotin : h ∉ ea.descendents := fun hm => by
    have := (hd.above a ea hea h hm).1; simp [hh] at this
  -- the new head lists nothing, `a` lists it last, and the other entries are those of `g`
  have hent : ∀ k e', g'.entries k = some e' → (h = k ∧ e'.descendents = []) ∨
      (a = k ∧ e'.descendents = ea.descendents ++ [h]) ∨
      (k ≠ h ∧ k ≠ a ∧ g.entries k = some e') := fun k e' hk => by
    rw [he] at hk
    split_ifs at hk with hkh hka
    · cases hk; exact .inl ⟨hkh.symm, rfl⟩
    · cases hk; exact .inr (.inl ⟨hka.symm, rfl⟩)
    · exact .inr (.inr ⟨hkh, hka, hk⟩)
  refine ⟨fun k e' hk => ?_, fun k e' hk d hdm => ?_, fun k e' hk c hc => ?_⟩ <;>
    rcases hent k e' hk with ⟨rfl, hde⟩ | ⟨rfl, hde⟩ | ⟨hkh, hka, hk⟩
  · exact hde ▸ List.nodup_nil
  · exact hde ▸ (hd.nodup a ea hea).append (List.nodup_singleton h)
      (List.disjoint_singleton.2 hnotin)
  · exact hd.nodup k e' hk
  · rw [hde] at hdm; cases hdm
  · rw [hde, List.mem_append, List.mem_singleton] at hdm
    rcases hdm with hdm | rfl
    · obtain ⟨hkey, hkd, hne⟩ := hd.above a ea hea d hdm
      exact ⟨hkeys d hkey, hkd, hne⟩
    · exact ⟨by rw [he, if_pos rfl]; rfl, hah, hah'.symm⟩
  · obtain ⟨hkey, hkd, hne⟩ := hd.above k e' hk d hdm
    exact ⟨hkeys d hkey, hkd, hne⟩
  all_goals rw [hanc] at hc; split_ifs at hc with hch
  · exact absurd (Option.some.inj hc) hah'
  · have := (hg.ancestorNodeOf_spec hc).2.1; simp [hh] at this
  · subst hch
    exact ⟨c, hde ▸ List.mem_append_right _ (List.mem_singleton_self c), T.isAncestor_refl c⟩
  · obtain ⟨d, hdm, hcd⟩ := hd.cover a ea hea c hc
    exact ⟨d, hde ▸ List.mem_append_left _ hdm, hcd⟩
  · exact absurd (Option.some.inj hc).symm hka
  · exact hd.cover k e' hk c hc

end Branch

/-! ## Graphs built by `insert` -/

section Reachable

variable {chain : Chain H} {base : H} {votes : List (Vote H V)}

/-- One admissible `insert` on a graph built from `new base` keeps `DescInv`. -/
theorem DescInv.insert (hd : DescInv T g) (hinv : Inv T base votes g)
    (hchain : chain.Follows T base) {v : Vote H V} (hv : v.Admissible T base) :
    ∃ g', g.insert chain v.hash v.number v.vote = some g' ∧ DescInv T g' := by
  have hg := hinv.wellFormed
  obtain rfl := hinv.base_eq
  obtain ⟨h, n, w⟩ := v
  obtain ⟨hbh, rfl : n = T.number h⟩ := hv
  -- the weight loop from `h` on a well-formed graph where `h` is a vote-node
  have hweight : ∀ g₁ : VoteGraph H V, WellFormed T g₁ → (g₁.entries h).isSome →
      DescInv T g₁ → ∃ g', g₁.addVote w (T.number h + 1) h = some g' ∧ DescInv T g' := by
    intro g₁ hg₁ hh₁ hd₁
    obtain ⟨g', hadd, -, -, he'⟩ := addVote_eq w (T.number h + 1) g₁ h hg₁ hh₁ (Nat.lt_succ_self _)
    exact ⟨g', hadd, hd₁.map_entries _ (fun k e => by split <;> simp) he'⟩
  by_cases hkey : (g.entries h).isSome
  · obtain ⟨g', hadd, hd'⟩ := hweight g hg hkey hd
    exact ⟨g', by simp [VoteGraph.insert, findContainingNodes, hkey, hadd], hd'⟩
  have hh : g.entries h = none := Option.not_isSome_iff_eq_none.1 hkey
  obtain ⟨M, hM⟩ := hinv.exists_number_bound
  obtain ⟨D, hfind, hD, hmem⟩ := findContainingNodes_spec hg M hM hh
  cases D with
  | nil =>
    have habove : ∀ x, (g.entries x).isSome → ¬ T.IsAncestor h x := fun x hx hhx => by
      obtain ⟨d, hdc, -⟩ := hg.exists_contains_below hh hbh x hx hhx
      exact List.not_mem_nil d ((hmem d).2 hdc)
    obtain ⟨a, ea, hea, hah, hlt, hnear, g₁, happ, hb, hhs, he⟩ := hg.append_eq hh hchain hbh
    obtain ⟨g', hadd, hd'⟩ := hweight g₁
      (hg.wellFormed_append hh hbh habove hea hah hlt hnear hb hhs he)
      (by rw [he, if_pos rfl]; rfl) (hd.append hg hh hea hah hlt he)
    exact ⟨g', by simp [VoteGraph.insert, hfind, happ, hadd], hd'⟩
  | cons d₁ D' =>
    obtain ⟨e₁, a, he₁, ha, -⟩ := hg.contains_edge hh ((hmem d₁).1 (List.mem_cons_self d₁ D'))
    have ha' := ancestorNodeOf_eq_some.2 ⟨e₁, he₁, ha⟩
    obtain ⟨g₁, hib, hb, hhs, he⟩ :=
      hg.introduceBranch_eq hh hD hmem (List.mem_cons_self d₁ D') ha'
    obtain ⟨g', hadd, hd'⟩ := hweight g₁
      (hg.wellFormed_introduceBranch hh hbh hmem (List.mem_cons_self d₁ D') ha' hb hhs he)
      (by rw [he, if_pos rfl]; rfl)
      (hd.introduceBranch hg hh hD hmem (List.mem_cons_self d₁ D') ha' he)
    exact ⟨g', by simp [VoteGraph.insert, hfind, hib, hadd], hd'⟩

/-- Admissible `insert` calls from `new base` all succeed and keep `Inv` and `DescInv`. -/
theorem insertAll_descInv (hchain : chain.Follows T base) :
    ∀ (vs votes : List (Vote H V)) (g : VoteGraph H V), Inv T base votes g → DescInv T g →
      (∀ v ∈ vs, v.Admissible T base) →
      ∃ g', g.insertAll chain vs = some g' ∧ Inv T base (votes ++ vs) g' ∧ DescInv T g' := by
  intro vs
  induction vs with
  | nil => intro votes g hinv hd _; exact ⟨g, rfl, by simpa using hinv, hd⟩
  | cons v vs ih =>
    intro votes g hinv hd hadm
    obtain ⟨g₁, hins, hinv₁⟩ := hinv.insert hchain (hadm v (List.mem_cons_self v vs))
    obtain ⟨g₁', hins', hd₁⟩ := hd.insert hinv hchain (hadm v (List.mem_cons_self v vs))
    obtain rfl : g₁ = g₁' := Option.some.inj (hins.symm.trans hins')
    obtain ⟨g', hrun, hinv', hd'⟩ :=
      ih (votes ++ [v]) g₁ hinv₁ hd₁ fun v' hv' => hadm v' (List.mem_cons_of_mem v hv')
    exact ⟨g', by simp [insertAll, hins] at hrun ⊢; exact hrun, by simpa using hinv', hd'⟩

/-- In every graph built by admissible `insert` calls, the `descendents` of a vote-node `k` are
distinct vote-nodes strictly above `k`, and every vote-node whose ancestor node is `k` lies at or
below one of them: what `descendents` keeps, where it is not the inverse of the ancestor
node. -/
theorem insertAll_descendents (chain : Chain H) (hchain : chain.Follows T base)
    (votes : List (Vote H V)) (hadm : ∀ v ∈ votes, v.Admissible T base) :
    ∃ g, (new base (T.number base) : VoteGraph H V).insertAll chain votes = some g ∧
      ∀ k e, g.entries k = some e → e.descendents.Nodup ∧
        (∀ d ∈ e.descendents, (g.entries d).isSome ∧ T.IsAncestor k d ∧ d ≠ k) ∧
        ∀ c, g.ancestorNodeOf c = some k → ∃ d ∈ e.descendents, T.IsAncestor c d := by
  obtain ⟨g, hrun, -, hd⟩ :=
    insertAll_descInv hchain votes [] _ (inv_new base) (descInv_new base) hadm
  exact ⟨g, hrun, fun k e hk => ⟨hd.nodup k e hk, hd.above k e hk, hd.cover k e hk⟩⟩

theorem insertAll_descendents_line :
    ∃ g, (new 1 1 : VoteGraph Nat Nat).insertAll BlockTree.line.chain [⟨3, 3, 1⟩, ⟨2, 2, 1⟩] =
        some g ∧
      ∀ k e, g.entries k = some e → e.descendents.Nodup ∧
        (∀ d ∈ e.descendents, (g.entries d).isSome ∧ BlockTree.line.IsAncestor k d ∧ d ≠ k) ∧
        ∀ c, g.ancestorNodeOf c = some k → ∃ d ∈ e.descendents, BlockTree.line.IsAncestor c d :=
  insertAll_descendents _ (BlockTree.line.chain_follows 1) _ (by decide)

end Reachable

end VoteGraph

end FinalityGrandpa

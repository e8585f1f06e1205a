import FinalityGrandpa.Voter.Effects
import FinalityGrandpa.Chain

/-!
# The block a prevote builds on

`construct_prevote` asks `best_chain_containing` for the previous round's estimate `E`, unless
the primary's hint `P` is the previous prevote-GHOST `G`, or lies on `G`'s chain strictly below
it and not below `E`. The last test reads `P` off `ancestry(E, G)` at an offset computed in the
fixed-width `Number`; over a chain that answers `ancestry` from a block tree the offset is exact
and lands on the block of `G`'s chain at `P`'s height, and `construct_prevote` passes the block
`find_descendent_of` picks straight to `best_chain_containing` (`findDescendentOf_eq`).
-/

namespace FinalityGrandpa

namespace VotingRound

variable {H : Type} [DecidableEq H] {w : Nat}

/-- Below `g`, `p + 1` does not wrap, and `g - (p + 1)` neither underflows nor is cut to `0`. -/
theorem offset_toNat {p g : BitVec w} (hpg : p < g) :
    (p + 1).toNat = p.toNat + 1 ∧ ¬ g < p + 1 ∧ (g - (p + 1)).toNat = g.toNat - p.toNat - 1 := by
  have hlt : p.toNat < g.toNat := hpg
  have hg := g.isLt
  have hsucc : (p + 1).toNat = p.toNat + 1 := by
    rw [BitVec.toNat_add, BitVec.ofNat_eq_ofNat, BitVec.toNat_ofNat,
      Nat.mod_eq_of_lt (show 1 < 2 ^ w by omega), Nat.mod_eq_of_lt (by omega)]
  refine ⟨hsucc, by rw [BitVec.lt_def, hsucc]; omega, ?_⟩
  rw [BitVec.toNat_sub, hsucc, show 2 ^ w - (p.toNat + 1) + g.toNat =
    g.toNat - p.toNat - 1 + 2 ^ w by omega, Nat.add_mod_right, Nat.mod_eq_of_lt (by omega)]

omit [DecidableEq H] in
/-- The hash at the offset of `construct_prevote` in `ancestry(E, G)`, over the block tree. -/
theorem getElem?_ancestry_offset (T : BlockTree H) {E G p : H × BitVec w}
    (hE : E.2.toNat = T.number E.1) (hG : G.2.toNat = T.number G.1) (hpg : p.2 < G.2) :
    (T.path G.1 (T.number G.1 - T.number E.1))[(G.2 - (p.2 + 1)).toNat]? =
      if E.2 ≤ p.2 then some (T.up G.1 (G.2.toNat - p.2.toNat)) else none := by
  have hoff := (offset_toNat hpg).2.2
  have hlt : p.2.toNat < G.2.toNat := hpg
  rw [hoff, BlockTree.getElem?_path]
  by_cases hEp : E.2 ≤ p.2
  · have hle : E.2.toNat ≤ p.2.toNat := hEp
    rw [if_pos (by omega), if_pos hEp]
    congr 2
    omega
  · have hle : ¬ E.2.toNat ≤ p.2.toNat := hEp
    rw [if_neg (by omega), if_neg hEp]

/-- Over a chain that answers `ancestry` from the block tree `T` (the path for a strict
descendant, `NotDescendent` otherwise), with the estimate `E` and the prevote-GHOST `G` at their
chain numbers: `construct_prevote` asks `best_chain_containing` for the block `find_descendent_of`
picks, which is the hint `P` exactly when `P` is `G`, or `G` is strictly above `E` and `P` is the
block of `G`'s chain at a height in `[E.number, G.number)`, and the estimate otherwise. In the ancestry branch `P.number + 1` does not wrap, the offset
neither underflows nor is cut to `0`, and it indexes the block of `G`'s chain at height
`P.number`. -/
theorem findDescendentOf_eq (T : BlockTree H) {E G : H × BitVec w}
    (hE : E.2.toNat = T.number E.1) (hG : G.2.toNat = T.number G.1)
    (P : Option (H × BitVec w)) {prs : RoundState H (BitVec w)} (hest : prs.estimate = some E)
    (hghost : prs.prevoteGhost = some G) :
    findDescendentOf T.chain.ancestry P prs = some (match P with
      | some p => if p = G ∨ (T.IsAncestor E.1 G.1 ∧ G.1 ≠ E.1 ∧ E.2 ≤ p.2 ∧ p.2 < G.2 ∧
          T.up G.1 (G.2.toNat - p.2.toNat) = p.1) then p.1 else E.1
      | none => E.1) ∧
    (∀ {R E : Type} (env : EnvAnswers H (BitVec w) E) (s : VotingRound R H w),
      env.ancestry = T.chain.ancestry → s.primaryBlock = P → s.previousRoundState = prs →
      ∀ b, findDescendentOf T.chain.ancestry P prs = some b →
      (constructPrevote env).run s = match env.bestChainContaining b with
        | .ok (some target) => .ok (some { targetHash := target.1, targetNumber := target.2 }) s
        | .ok none => .ok none s
        | .error e => .error (.error e) s) ∧
    ∀ p, P = some p → p ≠ G → p.2 < G.2 →
      (p.2 + 1).toNat = p.2.toNat + 1 ∧ ¬ G.2 < p.2 + 1 ∧
      (G.2 - (p.2 + 1)).toNat = G.2.toNat - p.2.toNat - 1 ∧
      (T.IsAncestor E.1 G.1 → G.1 ≠ E.1 → ∃ ancestry, T.chain.ancestry E.1 G.1 = some ancestry ∧
        ancestry[(G.2 - (p.2 + 1)).toNat]? =
          if E.2 ≤ p.2 then some (T.up G.1 (G.2.toNat - p.2.toNat)) else none) := by
  refine ⟨?_, fun env s hanc hpb hprs b hb => by
      simp only [constructPrevote_run, hanc, hpb, hprs, hb]
      rcases env.bestChainContaining b with _ | _ | _ <;> rfl,
    fun p _ _ hpg => ⟨(offset_toNat hpg).1, (offset_toNat hpg).2.1,
    (offset_toNat hpg).2.2, fun hEG hne => ⟨_, by simp [BlockTree.chain, hEG, hne],
      getElem?_ancestry_offset T hE hG hpg⟩⟩⟩
  cases P with
  | none => simp [findDescendentOf, hest]
  | some p =>
    simp only [findDescendentOf, hest, hghost, Option.bind_eq_bind, Option.some_bind]
    by_cases hpG : p = G
    · simp [hpG]
    rw [if_neg hpG]
    by_cases hge : p.2 ≥ G.2
    · have : ¬ p.2 < G.2 := fun h => absurd hge (by bv_omega)
      simp [hge, hpG, this]
    have hpg : p.2 < G.2 := by bv_omega
    obtain ⟨-, hnlt, -⟩ := offset_toNat hpg
    rw [if_neg hge]
    by_cases hanc : T.IsAncestor E.1 G.1 ∧ G.1 ≠ E.1
    · simp only [BlockTree.chain, if_pos hanc, if_neg hnlt,
        getElem?_ancestry_offset T hE hG hpg]
      by_cases hEp : E.2 ≤ p.2 <;> by_cases hup : T.up G.1 (G.2.toNat - p.2.toNat) = p.1 <;>
        simp [hEp, hup, hpG, hanc, hpg]
    · simp only [BlockTree.chain, if_neg hanc]
      simp only [hpG, false_or, Option.some.injEq]
      rw [if_neg (fun h => hanc ⟨h.1, h.2.1⟩)]
      rfl

theorem findDescendentOf_eq_line :
    (BitVec.ofNat 8 1).toNat = BlockTree.line.number 1 ∧
    (BitVec.ofNat 8 3).toNat = BlockTree.line.number 3 ∧
    ({ prevoteGhost := some (3, 3), finalized := none, estimate := some (1, 1) } :
      RoundState Nat (BitVec 8)).estimate = some (1, 1) ∧
    ({ prevoteGhost := some (3, 3), finalized := none, estimate := some (1, 1) } :
      RoundState Nat (BitVec 8)).prevoteGhost = some (3, 3) ∧
    findDescendentOf BlockTree.line.chain.ancestry (some (2, (2 : BitVec 8)))
        { prevoteGhost := some (3, 3), finalized := none, estimate := some (1, 1) } =
      some 2 :=
  ⟨rfl, rfl, rfl, rfl, by
    rw [(@findDescendentOf_eq Nat _ 8 BlockTree.line (1, 1) (3, 3) rfl rfl (some (2, 2))
      { prevoteGhost := some (3, 3), finalized := none, estimate := some (1, 1) } rfl rfl).1]
    decide⟩

end VotingRound

end FinalityGrandpa

import Mathlib.Logic.Function.Iterate

/-!
# Block trees and the chain oracle

The vote-graph sees the chain only through `Chain::ancestry(base, block)`, the hashes from
`block`'s parent down to `base`. We fix a tree of blocks (a parent and a number for every
hash, the parent one lower) and state what `ancestry` answers on it.

`IsAncestor a b` (`a` is `b` or one of its ancestors) is decided by going back
`number b - number a` generations from `b`. The ancestors of one block are totally ordered
(`IsAncestor.total`): the edge splitting of the vote-graph rests on this.
-/

namespace FinalityGrandpa

/-- A tree of blocks: every hash has a parent and a block number, one more than its parent's
whenever it is positive. -/
structure BlockTree (H : Type) where
  parent : H → H
  number : H → Nat
  number_parent : ∀ b, 0 < number b → number (parent b) + 1 = number b

namespace BlockTree

variable {H : Type} (T : BlockTree H)

/-- The ancestor `k` generations back. -/
def up (b : H) (k : Nat) : H := T.parent^[k] b

/-- `a` is `b` or an ancestor of `b`. -/
def IsAncestor (a b : H) : Prop :=
  T.number a ≤ T.number b ∧ T.up b (T.number b - T.number a) = a

instance [DecidableEq H] : DecidableRel T.IsAncestor :=
  fun _ _ => inferInstanceAs (Decidable (_ ∧ _))

/-- The `k` hashes below `b`, parent first: what `ancestry` returns for the ancestor `k`
generations back. -/
def path (b : H) : Nat → List H
  | 0 => []
  | k + 1 => T.parent b :: path (T.parent b) k

variable {T}

/-! ## Going back generations -/

@[simp] theorem up_zero (b : H) : T.up b 0 = b := rfl

theorem up_succ (b : H) (k : Nat) : T.up b (k + 1) = T.up (T.parent b) k :=
  Function.iterate_succ_apply _ _ _

theorem up_add (b : H) (i j : Nat) : T.up b (i + j) = T.up (T.up b i) j := by
  rw [up, Nat.add_comm, Function.iterate_add_apply]; rfl

theorem number_up {b : H} {k : Nat} (hk : k ≤ T.number b) :
    T.number (T.up b k) = T.number b - k := by
  induction k generalizing b with
  | zero => rfl
  | succ k ih =>
    have hp := T.number_parent b (by omega)
    rw [up_succ, ih (by omega)]
    omega

/-- Going back `i` generations does not reach a block at another number. -/
theorem up_ne {b x : H} {i : Nat} (hi : i ≤ T.number b) (hn : T.number x ≠ T.number b - i) :
    T.up b i ≠ x :=
  fun heq => hn (heq ▸ number_up hi)

/-! ## Ancestry -/

theorem isAncestor_refl (b : H) : T.IsAncestor b b := ⟨Nat.le_refl _, by simp⟩

theorem isAncestor_up {b : H} {k : Nat} (hk : k ≤ T.number b) : T.IsAncestor (T.up b k) b := by
  refine ⟨by rw [number_up hk]; omega, ?_⟩
  rw [number_up hk, show T.number b - (T.number b - k) = k by omega]

theorem IsAncestor.number_le {a b : H} (h : T.IsAncestor a b) : T.number a ≤ T.number b := h.1

theorem IsAncestor.eq_up {a b : H} (h : T.IsAncestor a b) :
    T.up b (T.number b - T.number a) = a := h.2

/-- Going back from a descendant reaches the ancestor at its number. -/
theorem IsAncestor.up_eq {a b : H} (h : T.IsAncestor a b) {k : Nat}
    (hk : T.number b - T.number a ≤ k) :
    T.up b k = T.up a (k - (T.number b - T.number a)) := by
  obtain ⟨j, rfl⟩ : ∃ j, k = T.number b - T.number a + j := ⟨_, (Nat.add_sub_cancel' hk).symm⟩
  rw [up_add, h.eq_up, Nat.add_sub_cancel_left]

theorem IsAncestor.eq_of_number_eq {a b : H} (h : T.IsAncestor a b)
    (hn : T.number a = T.number b) : a = b := by
  rw [← h.eq_up, hn, Nat.sub_self, up_zero]

theorem IsAncestor.antisymm {a b : H} (h : T.IsAncestor a b) (h' : T.IsAncestor b a) : a = b :=
  h.eq_of_number_eq (Nat.le_antisymm h.1 h'.1)

theorem IsAncestor.lt_of_ne {a b : H} (h : T.IsAncestor a b) (hne : a ≠ b) :
    T.number a < T.number b :=
  Nat.lt_of_le_of_ne h.1 fun hn => hne (h.eq_of_number_eq hn)

theorem IsAncestor.trans {a b c : H} (hab : T.IsAncestor a b) (hbc : T.IsAncestor b c) :
    T.IsAncestor a c := by
  have := hab.1; have := hbc.1
  refine ⟨Nat.le_trans hab.1 hbc.1, ?_⟩
  rw [hbc.up_eq (by omega), show T.number c - T.number a - (T.number c - T.number b) =
    T.number b - T.number a by omega, hab.eq_up]

/-- The ancestor of `c` at the number of `a`, when `a` is an ancestor of `c`, is `a`. -/
theorem IsAncestor.of_le {a c : H} (hac : T.IsAncestor a c) {b : H} (hbc : T.IsAncestor b c)
    (hab : T.number a ≤ T.number b) : T.IsAncestor a b := by
  have := hbc.1
  have e := hbc.up_eq (k := T.number c - T.number a) (by omega)
  rw [hac.eq_up, show T.number c - T.number a - (T.number c - T.number b) =
    T.number b - T.number a by omega] at e
  exact ⟨hab, e.symm⟩

/-- Two ancestors of one block are ordered. -/
theorem IsAncestor.total {a b c : H} (hac : T.IsAncestor a c) (hbc : T.IsAncestor b c) :
    T.IsAncestor a b ∨ T.IsAncestor b a :=
  (Nat.le_total (T.number a) (T.number b)).imp (hac.of_le hbc) (hbc.of_le hac)

/-! ## Paths -/

@[simp] theorem path_zero (b : H) : T.path b 0 = [] := rfl

@[simp] theorem length_path (b : H) (k : Nat) : (T.path b k).length = k := by
  induction k generalizing b <;> simp [path, *]

theorem path_add (b : H) (i j : Nat) : T.path b (i + j) = T.path b i ++ T.path (T.up b i) j := by
  induction i generalizing b with
  | zero => simp
  | succ i ih => rw [Nat.add_right_comm, path, ih, up_succ]; rfl

theorem take_path (b : H) {j k : Nat} (h : j ≤ k) : (T.path b k).take j = T.path b j := by
  obtain ⟨m, rfl⟩ := Nat.exists_eq_add_of_le h
  rw [path_add, List.take_left' (length_path b j)]

theorem drop_path (b : H) {j k : Nat} (h : j ≤ k) :
    (T.path b k).drop j = T.path (T.up b j) (k - j) := by
  obtain ⟨m, rfl⟩ := Nat.exists_eq_add_of_le h
  rw [path_add, List.drop_left' (length_path b j), Nat.add_sub_cancel_left]

theorem getElem?_path (b : H) (k i : Nat) :
    (T.path b k)[i]? = if i < k then some (T.up b (i + 1)) else none := by
  induction k generalizing b i with
  | zero => simp
  | succ k ih =>
    cases i with
    | zero => simp [path, up_succ]
    | succ i => simp [path, ih, up_succ (b := b) (i + 1)]

theorem getElem_path (b : H) {k i : Nat} (hi : i < (T.path b k).length) :
    (T.path b k)[i] = T.up b (i + 1) := by
  have := getElem?_path (T := T) b k i
  rw [List.getElem?_eq_getElem hi, if_pos (by simpa using hi)] at this
  exact Option.some.inj this

theorem getLast?_path (b : H) (k : Nat) :
    (T.path b (k + 1)).getLast? = some (T.up b (k + 1)) := by
  rw [List.getLast?_eq_getElem?, length_path, Nat.add_sub_cancel, getElem?_path, if_pos (by omega)]

theorem getLast?_path_of_pos (b : H) {k : Nat} (hk : 0 < k) :
    (T.path b k).getLast? = some (T.up b k) := by
  obtain ⟨j, rfl⟩ : ∃ j, k = j + 1 := ⟨k - 1, by omega⟩
  exact getLast?_path b j

theorem mem_path {b x : H} {k : Nat} :
    x ∈ T.path b k ↔ ∃ i, i < k ∧ T.up b (i + 1) = x := by
  simp only [List.mem_iff_getElem?, getElem?_path]
  constructor
  · rintro ⟨i, hi⟩
    split at hi
    · exact ⟨i, ‹_›, Option.some.inj hi⟩
    · simp at hi
  · rintro ⟨i, hi, rfl⟩; exact ⟨i, by simp [hi]⟩

end BlockTree

/-- The `Chain` trait of the vote-graph: `ancestry(base, block)`, `None` for an unknown block. -/
structure Chain (H : Type) where
  ancestry : H → H → Option (List H)

/-- `chain` answers `ancestry(base, b)` as the trait promises for every `b` strictly above
`base`: `b`'s parent first, `base` last. -/
def Chain.Follows {H : Type} (chain : Chain H) (T : BlockTree H) (base : H) : Prop :=
  ∀ b, T.IsAncestor base b → b ≠ base →
    chain.ancestry base b = some (T.path b (T.number b - T.number base))

namespace BlockTree

variable {H : Type} [DecidableEq H]

/-- The chain oracle that reads the ancestry off the tree. -/
def chain (T : BlockTree H) : Chain H where
  ancestry a b := if T.IsAncestor a b ∧ b ≠ a then some (T.path b (T.number b - T.number a))
    else none

theorem chain_follows (T : BlockTree H) (base : H) : T.chain.Follows T base := by
  intro b hb hne
  simp [chain, hb, hne]

/-- The linear chain `0 ← 1 ← 2 ← ⋯`, every block numbered by its hash. -/
def line : BlockTree Nat where
  parent n := n - 1
  number n := n
  number_parent _ h := Nat.sub_add_cancel h

end BlockTree

end FinalityGrandpa

import FinalityGrandpa.Chain
import Mathlib.Algebra.BigOperators.Group.List
import Mathlib.Logic.Function.Basic

/-!
# The vote-graph (`vote_graph.rs`)

A `VoteGraph` keeps, for some blocks of the chain (its vote-nodes), the block number, the
ancestor edge down to the next vote-node, the vote-nodes above it and the cumulative vote.
`insert` first makes the voted block a vote-node (`append` a new head, or `introduceBranch` to
split the edges that run through it) and then adds the vote to it and to every vote-node below.

The model follows the source line by line: a `HashMap` is a function to `Option`, a `HashSet`
and a `Vec` are lists. A panic (`expect`, `unwrap`, `assert!`, `debug_assert!`, indexing or
`drain` out of range) makes the result `none`, and so does a loop that outruns its step bound.
The loops of the source have no bound; the model gives each the number of the vote-node it
starts from plus one, which is enough once ancestor vote-nodes have smaller numbers.
-/

namespace FinalityGrandpa

/-- `Nat::checked_sub`. -/
def checkedSub (a b : Nat) : Option Nat := if b ≤ a then some (a - b) else none

/-- `assert!` and `debug_assert!`: go on when the condition holds, panic otherwise. -/
def assert (c : Bool) : Option Unit := if c then some () else none

@[simp] theorem assert_eq_some {c : Bool} {u : Unit} : assert c = some u ↔ c = true := by
  cases c <;> simp [assert]

@[simp] theorem checkedSub_eq_some {a b n : Nat} : checkedSub a b = some n ↔ b ≤ a ∧ a - b = n := by
  unfold checkedSub; split <;> simp_all

section Sets

variable {H : Type} [DecidableEq H]

/-- `HashSet::insert`. -/
def setInsert (s : List H) (k : H) : List H := if k ∈ s then s else s ++ [k]

/-- `HashSet::remove`. -/
def setRemove (s : List H) (k : H) : List H := s.filter fun x => x ≠ k

@[simp] theorem mem_setInsert {s : List H} {k x : H} : x ∈ setInsert s k ↔ x ∈ s ∨ x = k := by
  unfold setInsert; split <;> simp_all [or_iff_left_of_imp]

@[simp] theorem mem_setRemove {s : List H} {k x : H} : x ∈ setRemove s k ↔ x ∈ s ∧ x ≠ k := by
  simp [setRemove]

end Sets

/-- A vote-node (`Entry`). -/
structure Entry (H V : Type) where
  number : Nat
  /-- Ancestor hashes in reverse order: the parent first, the parent vote-node last. -/
  ancestors : List H
  /-- Descendent vote-nodes. -/
  descendents : List H
  cumulativeVote : V

namespace Entry

variable {H V : Type} [DecidableEq H]

/-- Whether `(hash, number)` is a direct ancestor of this node: `none` when the graph must be
walked further back. -/
def inDirectAncestry (e : Entry H V) (hash : H) (number : Nat) : Option Bool :=
  if number ≥ e.number then none
  else e.ancestors[e.number - number - 1]?.map (· == hash)

/-- The ancestor vote-node. -/
def ancestorNode (e : Entry H V) : Option H := e.ancestors.getLast?

end Entry

/-- `VoteGraph`: the vote-nodes by hash, the heads (vote-nodes with no descendent), the base. -/
structure VoteGraph (H V : Type) where
  entries : H → Option (Entry H V)
  heads : List H
  base : H

/-- One `insert(hash, number, vote, chain)` call. -/
structure Vote (H V : Type) where
  hash : H
  number : Nat
  vote : V

namespace VoteGraph

variable {H V : Type} [DecidableEq H]

/-- Write the entry at `k` (`HashMap::insert`, or a write through `get_mut`). -/
def setEntry (g : VoteGraph H V) (k : H) (e : Entry H V) : VoteGraph H V :=
  { g with entries := Function.update g.entries k (some e) }

@[simp] theorem setEntry_entries (g : VoteGraph H V) (k : H) (e : Entry H V) (x : H) :
    (g.setEntry k e).entries x = if x = k then some e else g.entries x := by
  simp only [setEntry, Function.update_apply]

@[simp] theorem setEntry_heads (g : VoteGraph H V) (k : H) (e : Entry H V) :
    (g.setEntry k e).heads = g.heads := rfl

@[simp] theorem setEntry_base (g : VoteGraph H V) (k : H) (e : Entry H V) :
    (g.setEntry k e).base = g.base := rfl

variable [AddCommMonoid V]

/-- `VoteGraph::new`. -/
def new (baseHash : H) (baseNumber : Nat) : VoteGraph H V where
  entries := Function.update (fun _ => none) baseHash
    (some { number := baseNumber, ancestors := [], descendents := [], cumulativeVote := 0 })
  heads := [baseHash]
  base := baseHash

/-! ## `find_containing_nodes` -/

/-- One pass of the `loop` of `find_containing_nodes`: from `head` back along ancestor
vote-nodes, with the containing keys and the visited set so far. -/
def walkBack (g : VoteGraph H V) (hash : H) (number : Nat) :
    Nat → H → List H × List H → Option (List H × List H)
  | 0, _, _ => none
  | fuel + 1, head, (containingKeys, visited) =>
    match g.entries head with
    | none => some (containingKeys, visited)
    | some activeEntry =>
      if head ∈ visited then some (containingKeys, visited) else
      let visited := setInsert visited head
      match activeEntry.inDirectAncestry hash number with
      | some true => some (containingKeys ++ [head], visited)
      | some false => some (containingKeys, visited)
      | none =>
        match activeEntry.ancestorNode with
        | some prev => walkBack g hash number fuel prev (containingKeys, visited)
        | none => some (containingKeys, visited)

/-- The step bound of the walk from `head`. -/
def walkFuel (g : VoteGraph H V) (head : H) : Nat :=
  match g.entries head with
  | some e => e.number + 1
  | none => 1

/-- `find_containing_nodes`: `none` if `hash` is a vote-node already, otherwise the vote-nodes
whose ancestor edge holds `(hash, number)`. The outer `none` is a walk that outran its bound. -/
def findContainingNodes (g : VoteGraph H V) (hash : H) (number : Nat) :
    Option (Option (List H)) :=
  if (g.entries hash).isSome then some none
  else (g.heads.foldlM (fun acc head => g.walkBack hash number (g.walkFuel head) head acc)
    ([], [])).map fun r => some r.1

/-! ## `introduce_branch` and `append` -/

/-- One descendent of the `fold` of `introduce_branch`: cut its ancestor edge at
`(ancestorHash, ancestorNumber)`, and start or grow the entry of the new vote-node. -/
def introduceBranchStep (ancestorHash : H) (ancestorNumber : Nat)
    (acc : VoteGraph H V × Option (Entry H V)) (descendent : H) :
    Option (VoteGraph H V × Option (Entry H V)) := do
  let entry ← acc.1.entries descendent
  let inAncestry ← entry.inDirectAncestry ancestorHash ancestorNumber
  assert inAncestry
  let offset ← checkedSub entry.number ancestorNumber
  assert (offset ≤ entry.ancestors.length)
  let newEntry := acc.2.getD
    { number := ancestorNumber, ancestors := entry.ancestors.drop offset, descendents := [],
      cumulativeVote := 0 }
  pure (acc.1.setEntry descendent { entry with ancestors := entry.ancestors.take offset },
    some { newEntry with descendents := newEntry.descendents ++ [descendent],
                         cumulativeVote := newEntry.cumulativeVote + entry.cumulativeVote })

/-- `introduce_branch`: make `(ancestorHash, ancestorNumber)` a vote-node below `descendents`. -/
def introduceBranch (g : VoteGraph H V) (descendents : List H) (ancestorHash : H)
    (ancestorNumber : Nat) : Option (VoteGraph H V) := do
  let (g, producedEntry) ←
    descendents.foldlM (introduceBranchStep ancestorHash ancestorNumber) (g, none)
  match producedEntry with
  | some newEntry => do
    assert (g.entries ancestorHash).isNone
    pure (g.setEntry ancestorHash newEntry)
  | none => pure g

/-- `append`: attach `hash` above the first vote-node of its ancestry, as a new head. -/
def append (g : VoteGraph H V) (chain : Chain H) (hash : H) (number : Nat) :
    Option (VoteGraph H V) := do
  let ancestry ← chain.ancestry g.base hash
  let ancestorIndex ← ancestry.findIdx? fun a => (g.entries a).isSome
  let ancestorHash ← ancestry[ancestorIndex]?
  let ancestorEntry ← g.entries ancestorHash
  let g := g.setEntry ancestorHash
    { ancestorEntry with descendents := ancestorEntry.descendents ++ [hash] }
  let g := g.setEntry hash
    { number, ancestors := ancestry.take (ancestorIndex + 1), descendents := [],
      cumulativeVote := 0 }
  pure { g with heads := setInsert (setRemove g.heads ancestorHash) hash }

/-! ## `insert` -/

/-- The weight loop of `insert`: add `vote` to the entry at `inspectingHash` and to every
ancestor vote-node below it, visiting at most `fuel` entries. -/
def addVote (vote : V) : Nat → VoteGraph H V → H → Option (VoteGraph H V)
  | 0, _, _ => none
  | fuel + 1, g, inspectingHash => do
    let activeEntry ← g.entries inspectingHash
    let activeEntry := { activeEntry with cumulativeVote := activeEntry.cumulativeVote + vote }
    let g := g.setEntry inspectingHash activeEntry
    match activeEntry.ancestorNode with
    | some parent => addVote vote fuel g parent
    | none => pure g

/-- `insert`: a vote with the given value at the given hash and number. -/
def insert (g : VoteGraph H V) (chain : Chain H) (hash : H) (number : Nat) (vote : V) :
    Option (VoteGraph H V) := do
  let g ← match ← g.findContainingNodes hash number with
    | some containing =>
      if containing.isEmpty then g.append chain hash number
      else g.introduceBranch containing hash number
    | none => pure g
  g.addVote vote (number + 1) hash

/-- A sequence of `insert` calls. -/
def insertAll (g : VoteGraph H V) (chain : Chain H) (votes : List (Vote H V)) :
    Option (VoteGraph H V) :=
  votes.foldlM (fun g v => g.insert chain v.hash v.number v.vote) g

end VoteGraph

end FinalityGrandpa

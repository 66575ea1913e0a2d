import Mathlib.Data.List.Basic

/-!
# Binary trees of prefix codes

A code assigns bit strings to symbols. A binary tree that holds the symbols at its leaves reads them
back one bit at a time: a bit string that leads to a leaf passes only through inner nodes, so that
reading it stops at its last bit and not before.
-/

/-- A binary tree with symbols at its leaves. -/
inductive PrefixTree (α : Type*)
  | empty
  | leaf (a : α)
  | node (zero one : PrefixTree α)
  deriving DecidableEq, Repr

open List

namespace PrefixTree

variable {α : Type*}

def child : PrefixTree α → Bool → PrefixTree α
  | node zero one, bit => if bit then one else zero
  | _, _ => empty

/-- The subtree a bit string leads to. -/
def descend : PrefixTree α → List Bool → PrefixTree α
  | t, [] => t
  | t, bit :: bits => (t.child bit).descend bits

/-- The tree with a symbol placed at a bit string. A bit string that runs into a leaf has no place;
one that ends at an inner node is passed over. -/
def insert : PrefixTree α → List Bool → α → Option (PrefixTree α)
  | leaf _, _, _ => none
  | empty, [], a => some (leaf a)
  | node zero one, [], _ => some (node zero one)
  | empty, bit :: bits, a => do
    let below ← insert empty bits a
    pure (if bit then node empty below else node below empty)
  | node zero one, bit :: bits, a =>
    if bit then do
      let below ← insert one bits a
      pure (node zero below)
    else do
      let below ← insert zero bits a
      pure (node below one)

def IsNode : PrefixTree α → Prop
  | node _ _ => True
  | _ => False

/-- The bit strings that lead to leaves, with their symbols. -/
def leaves : PrefixTree α → List (List Bool × α)
  | empty => []
  | leaf a => [([], a)]
  | node zero one =>
    zero.leaves.map (fun e => (false :: e.1, e.2)) ++ one.leaves.map fun e => (true :: e.1, e.2)

theorem descend_concat (t : PrefixTree α) (bits : List Bool) (bit : Bool) :
    t.descend (bits ++ [bit]) = (t.descend bits).child bit := by
  induction bits generalizing t with
  | nil => rfl
  | cons _ _ ih => exact ih _

theorem isNode_of_child {t u : PrefixTree α} {bit : Bool} (h : t.child bit = u) (hu : u ≠ empty) :
    t.IsNode := by
  cases t with
  | node zero one => trivial
  | _ => exact hu h.symm

theorem descend_empty (bits : List Bool) : (empty : PrefixTree α).descend bits = empty := by
  induction bits with
  | nil => rfl
  | cons bit bits ih => exact ih

theorem mem_leaves {t : PrefixTree α} {bits : List Bool} {a : α} (h : t.descend bits = leaf a) :
    (bits, a) ∈ t.leaves := by
  induction bits generalizing t with
  | nil =>
    cases t with
    | leaf b =>
      cases h
      exact mem_singleton_self _
    | _ => cases h
  | cons bit bits ih =>
    cases t with
    | node zero one =>
      have hb := ih h
      cases bit with
      | false => exact mem_append_left _ (mem_map.mpr ⟨_, hb, rfl⟩)
      | true => exact mem_append_right _ (mem_map.mpr ⟨_, hb, rfl⟩)
    | _ => cases (descend_empty bits).symm.trans h

end PrefixTree

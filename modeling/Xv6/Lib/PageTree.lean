import Xv6.Lib.Reach
import Mathlib.Algebra.Order.BigOperators.Group.Finset

/-! Two-level tables kept in units of an allocator. The units of a tree are counted as a multiset, so
that what a change takes and gives is an equation. -/


namespace PageTree

open Multiset Reach Function

variable {ι ε : Type}

structure Tree (ι ε : Type) where
  root : Nat
  table : ι → Option Nat
  entry : ι → ι → ε

def unit (held : Option Nat) : Multiset Nat := held.elim 0 fun page => {page}

@[simp] theorem unit_none : unit none = 0 := rfl

@[simp] theorem unit_some (page : Nat) : unit (some page) = {page} := rfl

section

variable [Fintype ι] [DecidableEq ι] {β M : Type} [AddCommMonoid M]

theorem sum_inj {shares : ι → Multiset Nat} (nodup : (∑ k, shares k).Nodup)
    {k o : ι} {page : Nat} (here : page ∈ shares k) (there : page ∈ shares o) : k = o := by
  by_contra ne
  have pair : shares k + shares o ≤ ∑ spot, shares spot := by
    rw [← Finset.sum_pair ne]
    exact Finset.sum_le_sum_of_subset (Finset.subset_univ _)
  have apart := (nodup_add.mp (nodup_of_le pair nodup)).2.2
  exact disjoint_left.mp apart here there

omit [DecidableEq ι] in
theorem share_le (shares : ι → Multiset Nat) (k : ι) : shares k ≤ ∑ o, shares o :=
  Finset.single_le_sum (fun _ _ => zero_le _) (Finset.mem_univ k)

end

namespace Tree

variable [Fintype ι] [DecidableEq ι] (weight : ι → ε → Multiset Nat) {tree : Tree ι ε} {k : ι} {page : Nat}

def nodes (tree : Tree ι ε) : Multiset Nat := {tree.root} + ∑ place, unit (tree.table place)

def leaves (tree : Tree ι ε) : Multiset Nat := ∑ place, ∑ index, weight place (tree.entry place index)

def pages (tree : Tree ι ε) : Multiset Nat := tree.nodes + tree.leaves weight

def grow (tree : Tree ι ε) (place : ι) (page : Nat) : Tree ι ε :=
  { tree with table := update tree.table place (some page) }

def put (tree : Tree ι ε) (place index : ι) (entry : ε) : Tree ι ε :=
  { tree with entry := update tree.entry place (update (tree.entry place) index entry) }

omit [Fintype ι] in
@[simp] theorem grow_root (tree : Tree ι ε) (k : ι) (page : Nat) : (tree.grow k page).root = tree.root := rfl

omit [Fintype ι] in
@[simp] theorem put_root (tree : Tree ι ε) (k i : ι) (ent : ε) : (tree.put k i ent).root = tree.root := rfl

omit [Fintype ι] in
@[simp] theorem grow_entry (tree : Tree ι ε) (k : ι) (page : Nat) : (tree.grow k page).entry = tree.entry := rfl

omit [Fintype ι] in
@[simp] theorem put_table (tree : Tree ι ε) (k i : ι) (ent : ε) : (tree.put k i ent).table = tree.table := rfl

variable {weight}

omit [DecidableEq ι] in
theorem pages_eq (tree : Tree ι ε) : tree.pages weight = tree.nodes + tree.leaves weight := rfl

omit [DecidableEq ι] in
theorem nodes_eq (tree : Tree ι ε) : tree.nodes = {tree.root} + ∑ k, unit (tree.table k) := rfl

omit [DecidableEq ι] in
theorem leaves_eq (tree : Tree ι ε) : tree.leaves weight = ∑ k, ∑ i, weight k (tree.entry k i) := rfl

theorem pages_grow (free : tree.table k = none) (page : Nat) :
    (tree.grow k page).pages weight = page ::ₘ tree.pages weight := by
  have tables := sum_update tree.table k (some page) unit
  rw [free, unit_none, add_zero, unit_some] at tables
  have leaves : (tree.grow k page).leaves weight = tree.leaves weight := rfl
  have nodes : (tree.grow k page).nodes = page ::ₘ tree.nodes := by
    calc (tree.grow k page).nodes
        = {tree.root} + (∑ o, unit (tree.table o) + {page}) := congrArg _ tables
      _ = {page} + tree.nodes := by rw [Tree.nodes]; ac_rfl
      _ = page ::ₘ tree.nodes := singleton_add _ _
  rw [pages, pages, leaves, nodes, cons_add]

theorem nodes_put (k i : ι) (ent : ε) : (tree.put k i ent).nodes = tree.nodes := rfl

theorem pages_put (k i : ι) (ent : ε) : (tree.put k i ent).pages weight + weight k (tree.entry k i) =
      tree.pages weight + weight k ent := by
  have row := sum_update (tree.entry k) i ent (weight k)
  have tab := sum_update_at tree.entry k (update (tree.entry k) i ent) fun k row => ∑ i, weight k (row i)
  have leaves : (tree.put k i ent).leaves weight + weight k (tree.entry k i) = tree.leaves weight + weight k ent := by
    apply add_right_cancel (b := ∑ o, weight k (tree.entry k o))
    calc (tree.put k i ent).leaves weight + weight k (tree.entry k i) +
          ∑ o, weight k (tree.entry k o) = ((tree.put k i ent).leaves weight + ∑ o, weight k (tree.entry k o)) +
              weight k (tree.entry k i) := by ac_rfl
      _ = (tree.leaves weight + ∑ o, weight k (update (tree.entry k) i ent o)) + weight k (tree.entry k i) := by
          rw [Tree.leaves, Tree.put, tab]
          rfl
      _ = tree.leaves weight + weight k ent + ∑ o, weight k (tree.entry k o) := by
          rw [add_assoc, row]
          ac_rfl
  rw [pages, pages, nodes_put, add_assoc, leaves, add_assoc]

omit [DecidableEq ι] in
theorem root_mem_nodes (tree : Tree ι ε) : tree.root ∈ tree.nodes := by
  simp [Tree.nodes]

omit [DecidableEq ι] in
theorem mem_nodes (node : page ∈ tree.nodes) : page = tree.root ∨ ∃ k, tree.table k = some page := by
  rcases mem_add.mp node with top | lower
  · exact .inl (mem_singleton.mp top)
  · obtain ⟨k, _, here⟩ := mem_sum.mp lower
    refine .inr ⟨k, ?_⟩
    cases held : tree.table k with
    | none => simp [held] at here
    | some tab =>
      rw [held, unit_some, mem_singleton] at here
      rw [here]

omit [DecidableEq ι] in
theorem table_le (tree : Tree ι ε) (k : ι) : unit (tree.table k) ≤ ∑ o, unit (tree.table o) :=
  share_le (fun o => unit (tree.table o)) k

omit [DecidableEq ι] in
theorem table_mem_nodes (here : tree.table k = some page) : page ∈ tree.nodes := by
  have mem := mem_of_le (tree.table_le k) (a := page)
  rw [here, unit_some] at mem
  exact mem_add.mpr (.inr (mem (mem_singleton_self page)))

omit [DecidableEq ι] in
theorem entry_mem_pages {i : ι} (here : page ∈ weight k (tree.entry k i)) : page ∈ tree.leaves weight := by
  rw [Tree.leaves, mem_sum]
  refine ⟨k, Finset.mem_univ k, ?_⟩
  rw [mem_sum]
  exact ⟨i, Finset.mem_univ i, here⟩

omit [DecidableEq ι] in
theorem table_ne_root (nodup : tree.nodes.Nodup) (here : tree.table k = some page) : page ≠ tree.root := by
  rintro rfl
  have apart := (nodup_add.mp nodup).2.2
  have mem := mem_of_le (tree.table_le k) (a := tree.root)
  rw [here, unit_some] at mem
  exact disjoint_left.mp apart (mem_singleton_self _) (mem (mem_singleton_self _))

theorem table_inj (nodup : tree.nodes.Nodup) {o : ι} (here : tree.table k = some page)
    (there : tree.table o = some page) : k = o := by
  have tables := (nodup_add.mp nodup).2.1
  have fst : page ∈ unit (tree.table k) := by simp [here]
  have snd : page ∈ unit (tree.table o) := by simp [there]
  exact sum_inj tables fst snd

theorem entry_inj (nodup : (tree.leaves weight).Nodup) {k' i i' : ι} (here : page ∈ weight k (tree.entry k i))
    (there : page ∈ weight k' (tree.entry k' i')) : k = k' ∧ i = i' := by
  have row : ∀ {k i : ι}, page ∈ weight k (tree.entry k i) → page ∈ ∑ i, weight k (tree.entry k i) := by
    intro k i low
    exact mem_of_le (share_le (fun i => weight k (tree.entry k i)) i) low
  have eq : k = k' := sum_inj nodup (row here) (row there)
  subst eq
  have inner := nodup_of_le (share_le (fun k => ∑ i, weight k (tree.entry k i)) k) nodup
  exact ⟨rfl, sum_inj inner here there⟩

-- The sums are large; they are used through these lemmas only.
attribute [irreducible] Tree.nodes Tree.leaves Tree.pages

end Tree

end PageTree

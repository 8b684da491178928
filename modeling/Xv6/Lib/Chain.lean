import Mathlib.Data.List.Nodup

/-! Nodes linked by pointers: a path along one pointer, and rings that are linked both ways around a
head. -/

namespace Chain

open Function (update update_of_ne update_self)
open List

variable {α : Type} {step next prev : α → α} {fst last head node : α} {nodes order pre after : List α}

def Path (step : α → α) : α → List α → α → Prop
  | first, [], last => step first = last
  | first, node :: rest, last => step first = node ∧ Path step node rest last

theorem path_append : Path step fst (pre ++ node :: after) last ↔
      Path step fst pre node ∧ Path step node after last := by
  induction pre generalizing fst with
  | nil => rfl
  | cons o rest ih => simp only [cons_append, Path, ih, and_assoc]

theorem Path.congr {step' : α → α} {fst' : α} (path : Path step fst nodes last)
    (start : step' fst' = step fst) (eq : ∀ node ∈ nodes, step' node = step node) : Path step' fst' nodes last := by
  induction nodes generalizing fst fst' with
  | nil => exact start.trans path
  | cons node rest ih =>
    refine ⟨start.trans path.1, ?_⟩
    exact ih path.2 (eq node mem_cons_self) fun o mem =>
      eq o (mem_cons_of_mem _ mem)

def entry : List α → α → α
  | [], last => last
  | node :: _, _ => node

theorem Path.step_eq (path : Path step fst nodes last) : step fst = entry nodes last := by
  cases nodes with
  | nil => exact path
  | cons node rest => exact path.1

theorem entry_mem (nodes : List α) (last : α) : entry nodes last ∈ last :: nodes := by
  cases nodes with
  | nil => exact mem_cons_self
  | cons node rest => exact mem_cons_of_mem _ mem_cons_self

theorem Path.agree {step' : α → α} (path : Path step fst nodes last)
    (eq : ∀ node ∈ fst :: nodes, step' node = step node) : Path step' fst nodes last :=
  path.congr (eq fst mem_cons_self) fun node mem => eq node (mem_cons_of_mem _ mem)

theorem mem_cut (mem : node ∈ fst :: nodes) : ∃ pre after, nodes = pre ++ after ∧ node = entry pre.reverse fst := by
  rcases mem_cons.mp mem with rfl | low
  · exact ⟨[], nodes, rfl, rfl⟩
  · obtain ⟨pre, after, rfl⟩ := append_of_mem low
    exact ⟨pre ++ [node], after, by simp, by simp [entry]⟩

theorem entry_reverse_mem (pre after : List α) (fst : α) : entry pre.reverse fst ∈ fst :: (pre ++ after) := by
  rcases mem_cons.mp (entry_mem pre.reverse fst) with here | low
  · rw [here]
    exact mem_cons_self
  · exact mem_cons_of_mem _ (mem_append_left _ (mem_reverse.mp low))

theorem Path.step_cut (path : Path step fst (pre ++ after) last) : step (entry pre.reverse fst) = entry after last := by
  rcases eq_nil_or_concat pre with rfl | ⟨earlier, end_, whole⟩
  · exact path.step_eq
  · rw [concat_eq_append] at whole
    subst whole
    rw [append_assoc, singleton_append] at path
    have point : entry (earlier ++ [end_]).reverse fst = end_ := by simp [entry]
    rw [point]
    exact (path_append.mp path).2.step_eq

theorem Path.step_mem (ring : Path step head nodes head) (mem : node ∈ head :: nodes) : step node ∈ head :: nodes := by
  obtain ⟨pre, after, rfl, rfl⟩ := mem_cut mem
  rw [ring.step_cut]
  rcases mem_cons.mp (entry_mem after head) with here | low
  · rw [here]
    exact mem_cons_self
  · exact mem_cons_of_mem _ (mem_append_right _ low)

theorem Path.rotate (ring : Path step head (pre ++ node :: after) head) :
    Path step node (after ++ head :: pre) node := by
  obtain ⟨front, back⟩ := path_append.mp ring
  exact path_append.mpr ⟨back, front⟩

theorem Path.from_member (ring : Path step head nodes head) (mem : node ∈ head :: nodes) :
    ∃ others, Path step node others node ∧ (node :: others).Perm (head :: nodes) := by
  rcases mem_cons.mp mem with rfl | low
  · exact ⟨nodes, ring, .refl _⟩
  · obtain ⟨pre, after, rfl⟩ := append_of_mem low
    refine ⟨after ++ head :: pre, ring.rotate, ?_⟩
    have turned : (node :: after ++ head :: pre).Perm (head :: pre ++ node :: after) :=
      perm_append_comm
    exact turned

theorem Path.step_inj (ring : Path step head nodes head) (nodup : (head :: nodes).Nodup) {left right : α}
    (atLeft : left ∈ head :: nodes) (atRight : right ∈ head :: nodes) (eq : step left = step right) : left = right := by
  obtain ⟨others, turned, permuted⟩ := ring.from_member atLeft
  have nodup := permuted.nodup_iff.mpr nodup
  rcases mem_cons.mp (permuted.mem_iff.mpr atRight) with here | low
  · exact here.symm
  · -- The node after the right one comes later than the node after the left one.
    obtain ⟨pre, after, rfl⟩ := append_of_mem low
    exfalso
    have entered := turned.step_eq
    have left_next : step right = entry after left := (path_append.mp turned).2.step_eq
    rw [← eq, entered] at left_next
    cases pre <;> cases after <;> simp only [entry, nil_append, cons_append] at left_next <;>
      simp [left_next] at nodup

/-! A search from node to node, for a node that passes a test, until a given one is met. -/

inductive Search (α : Type) where
  | found (node : α)
  | absent
  | stuck
  deriving DecidableEq

section

variable [DecidableEq α] {fuel : Nat} {after pre : List α}

def search (step : α → α) (stop : α) (test : α → Bool) : Nat → α → Search α
  | 0, _ => .stuck
  | fuel + 1, node =>
    if node = stop then .absent
    else if test node then .found node
    else search step stop test fuel (step node)

theorem Path.search (path : Path step fst nodes last) (clear : last ∉ nodes) (test : α → Bool)
    (enough : nodes.length < fuel) : search step last test fuel (step fst) =
      (nodes.find? test).elim .absent .found := by
  induction nodes generalizing fst fuel with
  | nil =>
    obtain ⟨fuel, rfl⟩ : ∃ rest, fuel = rest + 1 := ⟨fuel - 1, by simp at enough; omega⟩
    rw [Path] at path
    simp [Chain.search, path]
  | cons node rest ih =>
    obtain ⟨fuel, rfl⟩ : ∃ rest, fuel = rest + 1 := ⟨fuel - 1, by simp at enough; omega⟩
    have o : node ≠ last := fun eq => clear (eq ▸ mem_cons_self)
    rw [path.1, Chain.search, if_neg o, List.find?_cons]
    cases passes : test node with
    | true => simp
    | false =>
      rw [if_neg (by simp), ih path.2 (fun mem => clear (mem_cons_of_mem _ mem)) (by simpa using enough)]

def follow (step : α → α) (stops : α → Bool) : Nat → α → Option α
  | 0, _ => none
  | fuel + 1, node => if stops node then some node else follow step stops fuel (step node)

omit [DecidableEq α] in
theorem Path.follow (path : Path step fst nodes last) {stops : α → Bool} {t : α}
    (mem : t ∈ fst :: nodes) (stop : stops t = true)
    (only : ∀ node ∈ fst :: nodes, stops node = true → node = t) (enough : nodes.length < fuel) :
    follow step stops fuel fst = some t := by
  induction nodes generalizing fst fuel with
  | nil =>
    obtain ⟨fuel, rfl⟩ : ∃ rest, fuel = rest + 1 := ⟨fuel - 1, by simp at enough; omega⟩
    obtain rfl : t = fst := by simpa using mem
    simp [Chain.follow, stop]
  | cons node rest ih =>
    obtain ⟨fuel, rfl⟩ : ∃ rest, fuel = rest + 1 := ⟨fuel - 1, by simp at enough; omega⟩
    rw [Chain.follow]
    by_cases here : stops fst = true
    · rw [if_pos here, only fst mem_cons_self here]
    · rw [if_neg here, path.1]
      refine ih path.2 ?_ (fun o low => only o (mem_cons_of_mem _ low)) (by simpa using enough)
      rcases mem_cons.mp mem with rfl | later
      · exact absurd stop here
      · exact later

omit [DecidableEq α] in
theorem follow_mono {stops : α → Bool} {more : Nat} (le : fuel ≤ more) {t : α}
    (stopped : follow step stops fuel node = some t) : follow step stops more node = some t := by
  induction fuel generalizing more node with
  | zero => cases stopped
  | succ fuel ih =>
    obtain ⟨more, rfl⟩ : ∃ less, more = less + 1 := ⟨more - 1, by omega⟩
    rw [Chain.follow] at stopped ⊢
    split at stopped
    · rename_i here
      rw [if_pos here]
      exact stopped
    · rename_i on
      rw [if_neg on]
      exact ih (by omega) stopped

def visits (step : α → α) (stop : α) : Nat → α → Option (List α)
  | 0, _ => none
  | fuel + 1, node =>
    if node = stop then some [] else (visits step stop fuel (step node)).map (node :: ·)

theorem Path.visits (path : Path step fst nodes last) (clear : last ∉ nodes)
    (enough : nodes.length < fuel) : visits step last fuel (step fst) = some nodes := by
  induction nodes generalizing fst fuel with
  | nil =>
    obtain ⟨fuel, rfl⟩ : ∃ rest, fuel = rest + 1 := ⟨fuel - 1, by simp at enough; omega⟩
    rw [Path] at path
    simp [Chain.visits, path]
  | cons node rest ih =>
    obtain ⟨fuel, rfl⟩ : ∃ rest, fuel = rest + 1 := ⟨fuel - 1, by simp at enough; omega⟩
    have o : node ≠ last := fun eq => clear (eq ▸ mem_cons_self)
    rw [path.1, Chain.visits, if_neg o, ih path.2 (fun mem => clear (mem_cons_of_mem _ mem)) (by simpa using enough)]
    rfl

omit [DecidableEq α] in
theorem apart_last {earlier : List α} {end_ : α} (nodup : (fst :: (earlier ++ end_ :: after)).Nodup)
    {o : α} (mem : o ∈ fst :: earlier ∨ o ∈ after) : o ≠ end_ := by
  rintro rfl
  have only : o ∉ (fst :: earlier) ++ after := by
    have middle : ((fst :: earlier) ++ o :: after).Nodup := by simpa using nodup
    exact (nodup_cons.mp (nodup_middle.mp middle)).1
  apply only
  rcases mem with early | late
  · exact mem_append_left _ early
  · exact mem_append_right _ late

theorem Path.unlink (path : Path step fst (pre ++ node :: after) last) (nodup : (fst :: (pre ++ node :: after)).Nodup) :
    Path (update step (entry pre.reverse fst) (step node)) fst (pre ++ after) last := by
  obtain ⟨front, back⟩ := path_append.mp path
  rcases eq_nil_or_concat pre with rfl | ⟨earlier, end_, whole⟩
  · refine back.congr ?_ ?_
    · simp [entry]
    · intro o mem
      have ne : o ≠ fst := by
        rintro rfl
        simp [mem] at nodup
      simp [entry, ne]
  · rw [concat_eq_append] at whole
    subst whole
    have point : entry (earlier ++ [end_]).reverse fst = end_ := by simp [entry]
    obtain ⟨start, _⟩ := path_append.mp front
    rw [append_assoc, singleton_append] at nodup
    rw [point, append_assoc, singleton_append]
    refine path_append.mpr ⟨start.congr ?_ ?_, back.congr ?_ ?_⟩
    · rw [update_of_ne (apart_last nodup (.inl mem_cons_self))]
    · intro o mem
      rw [update_of_ne (apart_last nodup (.inl (mem_cons_of_mem _ mem)))]
    · rw [update_self]
    · intro o mem
      rw [update_of_ne (apart_last nodup (.inr (mem_cons_of_mem _ mem)))]

theorem Path.insert (path : Path step fst (pre ++ after) last)
    (nodup : (fst :: (pre ++ after)).Nodup) (fresh : node ∉ fst :: (pre ++ after)) :
    Path (update (update step node (entry after last)) (entry pre.reverse fst) node)
      fst (pre ++ node :: after) last := by
  have other_ne : ∀ o ∈ fst :: (pre ++ after), o ≠ node := by
    rintro o mem rfl
    exact fresh mem
  rcases eq_nil_or_concat pre with rfl | ⟨earlier, end_, whole⟩
  · have point : entry ([] : List α).reverse fst = fst := rfl
    rw [nil_append] at path nodup ⊢
    rw [point]
    have notFirst : node ≠ fst := (other_ne fst mem_cons_self).symm
    refine ⟨by simp, path.congr ?_ ?_⟩
    · rw [update_of_ne notFirst, update_self, path.step_eq]
    · intro o mem
      have ne : o ≠ fst := by
        rintro rfl
        exact (nodup_cons.mp nodup).1 mem
      rw [update_of_ne ne, update_of_ne (other_ne o (mem_cons_of_mem _ mem))]
  · rw [concat_eq_append] at whole
    subst whole
    have point : entry (earlier ++ [end_]).reverse fst = end_ := by simp [entry]
    rw [append_assoc, singleton_append] at path nodup
    obtain ⟨start, back⟩ := path_append.mp path
    have notEnd : node ≠ end_ := (other_ne end_ (by simp)).symm
    rw [point, append_assoc, singleton_append]
    refine path_append.mpr ⟨start.congr ?_ ?_, by simp, back.congr ?_ ?_⟩
    · rw [update_of_ne (apart_last nodup (.inl mem_cons_self)), update_of_ne (other_ne fst mem_cons_self)]
    · intro o mem
      rw [update_of_ne (apart_last nodup (.inl (mem_cons_of_mem _ mem))), update_of_ne (other_ne o (by simp [mem]))]
    · rw [update_of_ne notEnd, update_self, back.step_eq]
    · intro o mem
      rw [update_of_ne (apart_last nodup (.inr mem)), update_of_ne (other_ne o (by simp [mem]))]

/-! Rings linked both ways. -/

/-- The nodes of a ring in the order of `next` from the head on, and so in reverse by `prev`. -/
structure Ring (next prev : α → α) (head : α) (order : List α) : Prop where
  forward : Path next head order head
  backward : Path prev head order.reverse head
  nodup : (head :: order).Nodup

theorem Ring.empty (next prev : α → α) (head : α) : Ring (update next head head) (update prev head head) head [] where
  forward := update_self ..
  backward := update_self ..
  nodup := by simp

theorem Ring.insert (ring : Ring next prev head order) (fresh : node ∉ head :: order) :
    Ring (update (update next node (next head)) head node)
      (update (update prev node head) (next head) node) head (node :: order) := by
  have turned : (head :: (order.reverse ++ [])).Nodup ∧ node ∉ head :: (order.reverse ++ []) := by
    simpa using ⟨nodup_cons.mp ring.nodup, by simpa using fresh⟩
  constructor
  case forward =>
    have path : Path (update (update next node (entry order head))
        (entry ([] : List α).reverse head) node) head ([] ++ node :: order) head :=
      Path.insert ring.forward ring.nodup fresh
    rwa [← ring.forward.step_eq] at path
  case backward =>
    have backward : Path prev head (order.reverse ++ []) head := by
      rw [append_nil]
      exact ring.backward
    have path := backward.insert turned.1 turned.2
    rwa [reverse_reverse, ← ring.forward.step_eq, ← reverse_cons] at path
  case nodup =>
    have nodup := nodup_cons.mp ring.nodup
    rw [mem_cons, not_or] at fresh
    refine nodup_cons.mpr ⟨?_, nodup_cons.mpr ⟨fresh.2, nodup.2⟩⟩
    rw [mem_cons, not_or]
    exact ⟨Ne.symm fresh.1, nodup.1⟩

theorem Ring.unlink (ring : Ring next prev head (pre ++ node :: after)) :
    Ring (update next (prev node) (next node)) (update prev (next node) (prev node)) head (pre ++ after) := by
  have nodup := ring.nodup
  have backward := ring.backward
  rw [reverse_append, reverse_cons, append_assoc, singleton_append] at backward
  -- The neighbours of the node.
  have prev_eq : prev node = entry pre.reverse head := (path_append.mp backward).2.step_eq
  have next_eq : next node = entry after head := (path_append.mp ring.forward).2.step_eq
  constructor
  case forward =>
    rw [prev_eq]
    exact ring.forward.unlink nodup
  case backward =>
    rw [next_eq, reverse_append]
    have reversed : (head :: (after.reverse ++ node :: pre.reverse)).Nodup := by
      have turned : (head :: (pre ++ node :: after).reverse).Nodup := by
        rw [nodup_cons, mem_reverse, nodup_reverse]
        exact nodup_cons.mp nodup
      simpa using turned
    have path := backward.unlink reversed
    rwa [reverse_reverse] at path
  case nodup =>
    refine nodup.sublist (List.Sublist.cons_cons _ ?_)
    exact List.Sublist.append_left (sublist_cons_self _ _) _

end

end Chain

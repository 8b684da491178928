import Mathlib.Data.Set.Card
import Mathlib.Logic.Relation
import Mathlib.Tactic.Ring

/-! Directories whose entries name objects, with a count of links at every object and a pointer from
every directory to the one above it. -/

namespace Hierarchy

open Int Set Function

variable {ι : Type}

inductive Kind
  | free
  | leaf
  | dir
  deriving DecidableEq

structure Edge (ι : Type) where
  holder : ι
  key : Nat
  target : ι

structure Net (ι : Type) where
  kind : ι → Kind
  links : ι → Int
  up : ι → ι
  edges : Set (Edge ι)

section

variable {α : Type} {s : Set α} {p q : α → Prop} {a : α}

noncomputable def tally (s : Set α) (p : α → Prop) : Int := ({a ∈ s | p a} : Set α).ncard

theorem tally_nonneg (s : Set α) (p : α → Prop) : 0 ≤ tally s p := natCast_nonneg _

theorem tally_congr (same : ∀ a ∈ s, p a ↔ q a) : tally s p = tally s q := by
  have sets : {a ∈ s | p a} = {a ∈ s | q a} := Set.ext fun a => and_congr_right (same a)
  rw [tally, sets, tally]

theorem tally_mono {t : Set α} (finite : t.Finite) (less : ∀ a ∈ s, p a → a ∈ t ∧ q a) : tally s p ≤ tally t q :=
  ofNat_le.mpr (ncard_le_ncard (fun a mem => less a mem.1 mem.2) (finite.sep q))

theorem tally_insert [DecidablePred p] (finite : s.Finite) (new : a ∉ s) :
    tally (insert a s) p = tally s p + if p a then 1 else 0 := by
  split
  · rename_i holds
    have sets : {b ∈ insert a s | p b} = insert a {b ∈ s | p b} := by
      ext b
      constructor
      · rintro ⟨rfl | mem, here⟩
        · exact .inl rfl
        · exact .inr ⟨mem, here⟩
      · rintro (rfl | ⟨mem, here⟩)
        · exact ⟨.inl rfl, holds⟩
        · exact ⟨.inr mem, here⟩
    rw [tally, sets, ncard_insert_of_notMem (fun mem => new mem.1) (finite.sep p)]
    rfl
  · rename_i fails
    have sets : {b ∈ insert a s | p b} = {b ∈ s | p b} := by
      ext b
      refine ⟨?_, fun ⟨mem, here⟩ => ⟨.inr mem, here⟩⟩
      rintro ⟨rfl | mem, here⟩
      · exact absurd here fails
      · exact ⟨mem, here⟩
    rw [tally, sets, add_zero, tally]

theorem tally_le (finite : s.Finite) (p : α → Prop) : tally s p ≤ s.ncard :=
  ofNat_le.mpr (ncard_le_ncard (sep_subset s p) finite)

theorem tally_pos (finite : s.Finite) (mem : a ∈ s) (holds : p a) : 1 ≤ tally s p :=
  ofNat_le.mpr ((ncard_pos (finite.sep p)).mpr ⟨a, mem, holds⟩)

theorem tally_zero (none : ∀ a ∈ s, ¬p a) : tally s p = 0 := by
  have sets : {a ∈ s | p a} = ∅ := eq_empty_of_forall_notMem fun a here => none a here.1 here.2
  rw [tally, sets, ncard_empty, Nat.cast_zero]

theorem exists_of_tally (some : 1 ≤ tally s p) : ∃ a ∈ s, p a := by
  by_contra none
  have zero : tally s p = 0 := tally_zero fun a mem here => none ⟨a, mem, here⟩
  omega

theorem tally_le_one (finite : s.Finite) (single : ∀ a ∈ s, ∀ b ∈ s, p a → p b → a = b) : tally s p ≤ 1 :=
  ofNat_le.mpr ((ncard_le_one (finite.sep p)).mpr fun a left b right =>
    single a left.1 b right.1 left.2 right.2)

end

section

variable [DecidableEq ι]

noncomputable def Net.degree (g : Net ι) (root i : ι) : Int :=
  tally g.edges (fun e => e.target = i) +
    tally g.edges (fun e => e.holder = i ∧ g.kind e.target = .dir) + if i = root then 1 else 0

noncomputable def Net.slack (g : Net ι) (root i : ι) : Int := g.links i - g.degree root i

variable {g h : Net ι} {root : ι}

theorem Net.degree_insert (root : ι) {e : Edge ι} (finite : g.edges.Finite) (new : e ∉ g.edges)
    (edges : h.edges = insert e g.edges)
    (kinds : ∀ f ∈ g.edges, h.kind f.target = .dir ↔ g.kind f.target = .dir) (j : ι) :
    h.degree root j = g.degree root j + (if e.target = j then 1 else 0) +
      if e.holder = j ∧ h.kind e.target = .dir then 1 else 0 := by
  have inside : tally g.edges (fun f => f.holder = j ∧ h.kind f.target = .dir) =
      tally g.edges (fun f => f.holder = j ∧ g.kind f.target = .dir) :=
    tally_congr fun f mem => and_congr_right fun _ => kinds f mem
  rw [degree, edges, tally_insert finite new, tally_insert finite new, inside, degree]
  ring

theorem Net.degree_zero {i : ι} (unnamed : ∀ e ∈ g.edges, e.target ≠ i)
    (empty : ∀ e ∈ g.edges, e.holder ≠ i) (o : i ≠ root) : g.degree root i = 0 := by
  rw [degree, tally_zero unnamed, tally_zero fun e mem here => empty e mem here.1, if_neg o]
  rfl

end

structure Shape (root : ι) (g : Net ι) : Prop where
  finite : g.edges.Finite
  home : ∀ e ∈ g.edges, g.kind e.holder = .dir
  named : ∀ e ∈ g.edges, g.kind e.target ≠ .free
  single : ∀ e ∈ g.edges, ∀ f ∈ g.edges, e.target = f.target → g.kind e.target = .dir → e = f
  above : ∀ e ∈ g.edges, g.kind e.target = .dir → g.up e.target = e.holder
  top : g.kind root = .dir
  crown : g.up root = root
  bare : ∀ e ∈ g.edges, e.target ≠ root

theorem Shape.degree_le [DecidableEq ι] {root : ι} {g : Net ι} (shape : Shape root g) (j : ι) :
    g.degree root j ≤ g.edges.ncard + 2 := by
  have low := tally_le shape.finite fun e => e.holder = j ∧ g.kind e.target = .dir
  have peak : (if j = root then 1 else 0 : Int) ≤ 1 := by
    split <;> decide
  rw [Net.degree]
  by_cases dir : g.kind j = .dir
  · have names : tally g.edges (fun e => e.target = j) ≤ 1 :=
      tally_le_one shape.finite fun e left f right this that =>
        shape.single e left f right (this.trans that.symm) (this ▸ dir)
    omega
  · have names := tally_le shape.finite fun e => e.target = j
    have none : tally g.edges (fun e => e.holder = j ∧ g.kind e.target = .dir) = 0 :=
      tally_zero fun e mem here => dir (here.1 ▸ shape.home e mem)
    omega

structure Forest [DecidableEq ι] (root : ι) (g : Net ι) : Prop extends Shape root g where
  slack : ∀ i, g.kind i ≠ .free → 0 ≤ g.slack root i
  even : ∀ i, g.kind i = .dir → g.slack root i = 0

section

structure Fade (g h : Net ι) : Prop where
  each : ∀ i, (h.kind i = g.kind i ∧ h.links i = g.links i ∧ (g.kind i = .dir → h.up i = g.up i)) ∨
    (h.kind i = .free ∧ g.links i = 0)
  edges : ∀ e, e ∈ h.edges ↔ e ∈ g.edges ∧ h.kind e.holder = .dir

def weight (kind : Kind) : Int := if kind = .dir then 1 else 0

variable [DecidableEq ι]

structure Make (d : ι) (k : Nat) (i : ι) (kind : Kind) (g h : Net ι) : Prop where
  free : g.kind i = .free
  taken : kind ≠ .free
  parent : g.kind d = .dir
  kinds : h.kind = update g.kind i kind
  links : h.links = update (update g.links d (g.links d + weight kind)) i 1
  ups : ∀ j, h.kind j = .dir → h.up j = if j = i then d else g.up j
  edges : h.edges = insert ⟨d, k, i⟩ g.edges

structure Link (d : ι) (k : Nat) (i : ι) (g h : Net ι) : Prop where
  leaf : g.kind i = .leaf
  parent : g.kind d = .dir
  kinds : h.kind = g.kind
  links : h.links = update g.links i (g.links i + 1)
  ups : ∀ j, h.kind j = .dir → h.up j = g.up j
  new : ⟨d, k, i⟩ ∉ g.edges
  edges : h.edges = insert ⟨d, k, i⟩ g.edges

structure Remove (d : ι) (k : Nat) (i : ι) (g h : Net ι) : Prop where
  apart : i ≠ d
  empty : ∀ e ∈ g.edges, e.holder ≠ i
  kinds : h.kind = g.kind
  links : h.links = update (update g.links d (g.links d - weight (g.kind i))) i (g.links i - 1)
  ups : ∀ j, h.kind j = .dir → h.up j = g.up j
  gone : ⟨d, k, i⟩ ∉ h.edges
  edges : g.edges = insert ⟨d, k, i⟩ h.edges

inductive Step (enters drops : ι → Prop) (g h : Net ι) : Prop
  | same : h = g → Step enters drops g h
  | make {d : ι} {k : Nat} {i : ι} {kind : Kind} : Make d k i kind g h → enters d → Step enters drops g h
  | link {d : ι} {k : Nat} {i : ι} : Link d k i g h → enters d → Step enters drops g h
  | remove {d : ι} {k : Nat} {i : ι} : Remove d k i g h → drops i → Step enters drops g h

variable {root d i : ι} {k : Nat} {kind : Kind} {g h : Net ι} {enters drops : ι → Prop}

section

variable (forest : Forest root g)
include forest

theorem Forest.due {j : ι} (used : g.kind j ≠ .free) : g.degree root j ≤ g.links j :=
  Int.sub_nonneg.mp (forest.slack j used)

theorem Forest.target_links {e : Edge ι} (mem : e ∈ g.edges) : 1 ≤ g.links e.target := by
  have due := forest.due (forest.named e mem)
  have named : 1 ≤ tally g.edges (fun f => f.target = e.target) := tally_pos forest.finite mem rfl
  have low := tally_nonneg g.edges (fun f => f.holder = e.target ∧ g.kind f.target = .dir)
  rw [Net.degree] at due
  split at due <;> omega

theorem Forest.holder_links {e : Edge ι} (mem : e ∈ g.edges) (dir : g.kind e.target = .dir) : 1 ≤ g.links e.holder := by
  have used : g.kind e.holder ≠ .free := by
    rw [forest.home e mem]
    decide
  have due := forest.due used
  have named := tally_nonneg g.edges (fun f => f.target = e.holder)
  have low : 1 ≤ tally g.edges (fun f => f.holder = e.holder ∧ g.kind f.target = .dir) :=
    tally_pos forest.finite mem ⟨rfl, dir⟩
  rw [Net.degree] at due
  split at due <;> omega

theorem Forest.root_links : 1 ≤ g.links root := by
  have used : g.kind root ≠ .free := by
    rw [forest.top]
    decide
  have due := forest.due used
  have named := tally_nonneg g.edges (fun f => f.target = root)
  have low := tally_nonneg g.edges (fun f => f.holder = root ∧ g.kind f.target = .dir)
  rw [Net.degree, if_pos rfl] at due
  omega

end

section

omit [DecidableEq ι] in
theorem Fade.same (fade : Fade g h) {j : ι} (used : h.kind j ≠ .free) :
    h.kind j = g.kind j ∧ h.links j = g.links j ∧ (g.kind j = .dir → h.up j = g.up j) :=
  (fade.each j).resolve_right fun gone => used gone.1

omit [DecidableEq ι] in
theorem Fade.kept (fade : Fade g h) {j : ι} (linked : 1 ≤ g.links j) : h.kind j = g.kind j := by
  rcases fade.each j with same | gone
  · exact same.1
  · omega

variable (forest : Forest root g) (faded : Fade g h)
include forest faded

theorem Forest.fade_target {e : Edge ι} (mem : e ∈ g.edges) : h.kind e.target = g.kind e.target :=
  faded.kept (forest.target_links mem)

theorem Forest.fade_degree_le (j : ι) : h.degree root j ≤ g.degree root j := by
  have old : ∀ e, e ∈ h.edges → e ∈ g.edges := fun e mem => ((faded.edges e).mp mem).1
  have names : tally h.edges (fun e => e.target = j) ≤ tally g.edges (fun e => e.target = j) :=
    tally_mono forest.finite fun e mem here => ⟨old e mem, here⟩
  have low : tally h.edges (fun e => e.holder = j ∧ h.kind e.target = .dir) ≤
      tally g.edges (fun e => e.holder = j ∧ g.kind e.target = .dir) :=
    tally_mono forest.finite fun e mem here =>
      ⟨old e mem, here.1, forest.fade_target faded (old e mem) ▸ here.2⟩
  rw [Net.degree, Net.degree]
  omega

theorem Forest.fade_degree {j : ι} (used : h.kind j ≠ .free)
    (whole : ∀ e ∈ g.edges, e.target = j → h.kind e.holder = .dir) : h.degree root j = g.degree root j := by
  have finite : h.edges.Finite := forest.finite.subset fun e mem => ((faded.edges e).mp mem).1
  have names : tally g.edges (fun e => e.target = j) ≤ tally h.edges (fun e => e.target = j) :=
    tally_mono finite fun e mem here => ⟨(faded.edges e).mpr ⟨mem, whole e mem here⟩, here⟩
  have low : tally g.edges (fun e => e.holder = j ∧ g.kind e.target = .dir) ≤
      tally h.edges (fun e => e.holder = j ∧ h.kind e.target = .dir) := by
    refine tally_mono finite fun e mem here => ?_
    have holder : h.kind e.holder = .dir := by
      rw [here.1, (faded.same used).1, ← here.1, forest.home e mem]
    refine ⟨(faded.edges e).mpr ⟨mem, holder⟩, here.1, ?_⟩
    rw [forest.fade_target faded mem]
    exact here.2
  have most := forest.fade_degree_le faded j
  rw [Net.degree, Net.degree] at *
  omega

theorem Forest.fade_slack {j : ι} (used : h.kind j ≠ .free)
    (whole : ∀ e ∈ g.edges, e.target = j → h.kind e.holder = .dir) : h.slack root j = g.slack root j := by
  rw [Net.slack, Net.slack, forest.fade_degree faded used whole, (faded.same used).2.1]

theorem Forest.fade_shape : Shape root h := by
  have old : ∀ e, e ∈ h.edges → e ∈ g.edges := fun e mem => ((faded.edges e).mp mem).1
  have target : ∀ e, e ∈ h.edges → h.kind e.target = g.kind e.target := fun e mem =>
    forest.fade_target faded (old e mem)
  have peak : h.kind root = .dir := by rw [faded.kept forest.root_links, forest.top]
  have used : ∀ j, h.kind j = .dir → h.kind j ≠ .free := fun j dir => by
    rw [dir]
    decide
  refine ⟨forest.finite.subset old, fun e mem => ((faded.edges e).mp mem).2, fun e mem => ?_,
    fun e left f right same dir => ?_, fun e mem dir => ?_, peak, ?_, fun e mem =>
    forest.bare e (old e mem)⟩
  · rw [target e mem]
    exact forest.named e (old e mem)
  · rw [target e left] at dir
    exact forest.single e (old e left) f (old f right) same dir
  · have ups := (faded.same (used _ dir)).2.2
    rw [target e mem] at dir
    rw [ups dir]
    exact forest.above e (old e mem) dir
  · rw [(faded.same (used _ peak)).2.2 forest.top, forest.crown]

theorem Forest.fade : Forest root h := by
  refine ⟨forest.fade_shape faded, fun j used => ?_, fun j dir => ?_⟩
  · obtain ⟨same, links, _⟩ := faded.same used
    have due := forest.due (same ▸ used)
    have less := forest.fade_degree_le faded j
    rw [Net.slack, links]
    omega
  · have used : h.kind j ≠ .free := by
      rw [dir]
      decide
    -- A directory inside a released one would have kept it.
    rw [forest.fade_slack faded used fun e mem here => ?_]
    · exact forest.even j ((faded.same used).1 ▸ dir)
    · have inner : g.kind e.target = .dir := by rw [here, ← (faded.same used).1, dir]
      rw [faded.kept (forest.holder_links mem inner), forest.home e mem]

end

section

theorem Forest.free_degree (forest : Forest root g) (free : g.kind i = .free) : g.degree root i = 0 := by
  refine Net.degree_zero (fun e mem same => ?_) (fun e mem same => ?_) ?_
  · exact forest.named e mem (same ▸ free)
  · have dir := forest.home e mem
    rw [same, free] at dir
    cases dir
  · rintro rfl
    rw [forest.top] at free
    cases free

variable (forest : Forest root g) (made : Make d k i kind g h)
include made

theorem Make.apart : d ≠ i := by
  rintro rfl
  have dir := made.parent
  rw [made.free] at dir
  cases dir

theorem Make.kind_of_used {j : ι} (used : g.kind j ≠ .free) : h.kind j = g.kind j := by
  have o : j ≠ i := by
    rintro rfl
    exact used made.free
  rw [made.kinds, update_of_ne o]

theorem Make.kind_new : h.kind i = kind := by rw [made.kinds, update_self]

include forest

theorem Forest.make_new : (⟨d, k, i⟩ : Edge ι) ∉ g.edges := fun mem =>
  forest.named _ mem made.free

theorem Forest.make_slack (j : ι) : h.slack root j = if j = i then 0 else g.slack root j := by
  have degree := Net.degree_insert root forest.finite (forest.make_new made) made.edges
    (fun f mem => by rw [made.kind_of_used (forest.named f mem)]) j
  have apart := made.apart
  rw [Net.slack, degree, made.links, made.kind_new]
  by_cases new : j = i
  · subst new
    rw [if_pos rfl, update_self, forest.free_degree made.free, if_pos rfl, if_neg fun both => apart both.1]
    rfl
  · rw [if_neg new, update_of_ne new, if_neg (Ne.symm new), Net.slack]
    by_cases up : j = d
    · subst up
      rw [update_self, weight]
      simp only [true_and]
      omega
    · rw [update_of_ne up, if_neg fun both => up both.1.symm]
      omega

theorem Forest.make_shape : Shape root h := by
  have old : ∀ e ∈ g.edges, e.target ≠ i := fun e mem same => forest.named e mem (same ▸ made.free)
  have target : ∀ e ∈ g.edges, h.kind e.target = g.kind e.target := fun e mem =>
    made.kind_of_used (forest.named e mem)
  have holder : ∀ j, g.kind j = .dir → h.kind j = .dir := fun j dir => by
    rw [made.kind_of_used, dir]
    rw [dir]
    decide
  have o : root ≠ i := by
    rintro rfl
    have top := forest.top
    rw [made.free] at top
    cases top
  have cases : ∀ e, e ∈ h.edges → e = ⟨d, k, i⟩ ∨ e ∈ g.edges := fun e mem => by
    rwa [made.edges] at mem
  refine ⟨?_, fun e mem => ?_, fun e mem => ?_, fun e left f right same dir => ?_,
    fun e mem dir => ?_, holder root forest.top, ?_, fun e mem => ?_⟩
  · rw [made.edges]
    exact forest.finite.insert _
  · rcases cases e mem with rfl | mem
    · exact holder d made.parent
    · exact holder _ (forest.home e mem)
  · rcases cases e mem with rfl | mem
    · rw [made.kind_new]
      exact made.taken
    · rw [target e mem]
      exact forest.named e mem
  · rcases cases e left with rfl | left <;> rcases cases f right with rfl | right
    · rfl
    · exact absurd same.symm (old f right)
    · exact absurd same (old e left)
    · exact forest.single e left f right same (target e left ▸ dir)
  · rcases cases e mem with rfl | mem
    · rw [made.ups _ dir, if_pos rfl]
    · rw [made.ups _ dir, if_neg (old e mem)]
      exact forest.above e mem (target e mem ▸ dir)
  · rw [made.ups _ (holder root forest.top), if_neg o, forest.crown]
  · rcases cases e mem with rfl | mem
    · exact o.symm
    · exact forest.bare e mem

theorem Forest.make : Forest root h := by
  refine ⟨forest.make_shape made, fun j used => ?_, fun j dir => ?_⟩
  · rw [forest.make_slack made]
    split
    · exact le_rfl
    · rename_i new
      rw [made.kinds, update_of_ne new] at used
      exact forest.slack j used
  · rw [forest.make_slack made]
    split
    · rfl
    · rename_i new
      rw [made.kinds, update_of_ne new] at dir
      exact forest.even j dir

end

section

theorem Forest.link_slack (forest : Forest root g) (link : Link d k i g h) (j : ι) :
    h.slack root j = g.slack root j := by
  have degree := Net.degree_insert root forest.finite link.new link.edges (fun f _ => by rw [link.kinds]) j
  have flat : ¬(d = j ∧ h.kind i = .dir) := fun both => by
    have leaf := link.leaf
    rw [← link.kinds, both.2] at leaf
    cases leaf
  rw [Net.slack, degree, link.links, if_neg flat, Net.slack]
  by_cases same : j = i
  · subst same
    rw [update_self, if_pos rfl]
    omega
  · rw [update_of_ne same, if_neg (Ne.symm same)]
    omega

theorem Shape.link (shape : Shape root g) (link : Link d k i g h) : Shape root h := by
  have cases : ∀ e, e ∈ h.edges → e = ⟨d, k, i⟩ ∨ e ∈ g.edges := fun e mem => by
    rwa [link.edges] at mem
  have file : g.kind i ≠ .dir := by
    rw [link.leaf]
    decide
  obtain ⟨kinds, ups⟩ := And.intro link.kinds link.ups
  rw [kinds] at ups
  refine ⟨?_, ?_, ?_, ?_, ?_, ?_, ?_, ?_⟩
  · rw [link.edges]
    exact shape.finite.insert _
  all_goals try rw [kinds]
  · intro e mem
    rcases cases e mem with rfl | mem
    · exact link.parent
    · exact shape.home e mem
  · intro e mem
    rcases cases e mem with rfl | mem
    · rw [link.leaf]
      decide
    · exact shape.named e mem
  · intro e left f right same dir
    rcases cases e left with rfl | left
    · exact absurd dir file
    · rcases cases f right with rfl | right
      · rw [same] at dir
        exact absurd dir file
      · exact shape.single e left f right same dir
  · intro e mem dir
    rcases cases e mem with rfl | mem
    · exact absurd dir file
    · rw [ups _ dir]
      exact shape.above e mem dir
  · exact shape.top
  · rw [ups root shape.top, shape.crown]
  · intro e mem
    rcases cases e mem with rfl | mem
    · rintro rfl
      exact file shape.top
    · exact shape.bare e mem

theorem Forest.link (forest : Forest root g) (link : Link d k i g h) : Forest root h := by
  refine ⟨forest.toShape.link link, fun j used => ?_, fun j dir => ?_⟩
  · rw [forest.link_slack link]
    exact forest.slack j (link.kinds ▸ used)
  · rw [forest.link_slack link]
    exact forest.even j (link.kinds ▸ dir)

theorem Forest.remove_slack (forest : Forest root g) (remove : Remove d k i g h) (j : ι) :
    h.slack root j = g.slack root j := by
  have finite : h.edges.Finite := forest.finite.subset (by rw [remove.edges]; exact subset_insert _ _)
  have degree := Net.degree_insert root finite remove.gone remove.edges (fun f _ => by rw [remove.kinds]) j
  rw [Net.slack, remove.links, Net.slack, degree]
  by_cases same : j = i
  · subst same
    rw [update_self, if_pos rfl, if_neg fun both => remove.apart both.1.symm]
    omega
  · rw [update_of_ne same, if_neg (Ne.symm same)]
    by_cases up : j = d
    · subst up
      rw [update_self, weight]
      simp only [true_and]
      omega
    · rw [update_of_ne up, if_neg fun both => up both.1.symm]
      omega

theorem Shape.remove (shape : Shape root g) (remove : Remove d k i g h) : Shape root h := by
  have old : ∀ e, e ∈ h.edges → e ∈ g.edges := fun e mem => by
    rw [remove.edges]
    exact .inr mem
  obtain ⟨kinds, ups⟩ := And.intro remove.kinds remove.ups
  rw [kinds] at ups
  refine ⟨shape.finite.subset old, ?_, ?_, ?_, ?_, ?_, ?_, fun e mem => shape.bare e (old e mem)⟩
  all_goals try rw [kinds]
  · exact fun e mem => shape.home e (old e mem)
  · exact fun e mem => shape.named e (old e mem)
  · exact fun e left f right => shape.single e (old e left) f (old f right)
  · intro e mem dir
    rw [ups _ dir]
    exact shape.above e (old e mem) dir
  · exact shape.top
  · rw [ups root shape.top, shape.crown]

theorem Forest.remove (forest : Forest root g) (remove : Remove d k i g h) : Forest root h := by
  refine ⟨forest.toShape.remove remove, fun j used => ?_, fun j dir => ?_⟩
  · rw [forest.remove_slack remove]
    exact forest.slack j (remove.kinds ▸ used)
  · rw [forest.remove_slack remove]
    exact forest.even j (remove.kinds ▸ dir)

end

theorem Forest.step (forest : Forest root g) (step : Step enters drops g h) : Forest root h := by
  cases step with
  | same unchanged => exact unchanged ▸ forest
  | make make _ => exact forest.make make
  | link link _ => exact forest.link link
  | remove remove _ => exact forest.remove remove

end

structure Upright [DecidableEq ι] (root : ι) (g : Net ι) : Prop extends Forest root g where
  precise : ∀ i, g.kind i ≠ .free → g.slack root i = 0
  awake : ∀ e ∈ g.edges, 1 ≤ g.links e.holder
  held : ∀ i, g.kind i = .dir → 1 ≤ g.links i → i = root ∨ ∃ e ∈ g.edges, e.target = i

section

variable [DecidableEq ι] {root d i : ι} {k : Nat} {kind : Kind} {g h : Net ι}

section

variable (upright : Upright root g)

include upright

theorem Upright.links_eq {j : ι} (used : g.kind j ≠ .free) :
    g.links j = g.degree root j := Int.sub_eq_zero.mp (upright.precise j used)

theorem Upright.holder_two {e : Edge ι} (mem : e ∈ g.edges) (dir : g.kind e.target = .dir) : 2 ≤ g.links e.holder := by
  have home := upright.home e mem
  have links := upright.links_eq (j := e.holder) (by rw [home]; decide)
  have low : 1 ≤ tally g.edges (fun f => f.holder = e.holder ∧ g.kind f.target = .dir) :=
    tally_pos upright.finite mem ⟨rfl, dir⟩
  rw [Net.degree] at links
  rcases upright.held e.holder home (upright.awake e mem) with peak | ⟨f, there, named⟩
  · have names := tally_nonneg g.edges (fun f => f.target = e.holder)
    rw [if_pos peak] at links
    omega
  · have names : 1 ≤ tally g.edges (fun f => f.target = e.holder) :=
      tally_pos upright.finite there named
    split at links <;> omega

theorem Upright.empty_links (mem : ⟨d, k, i⟩ ∈ g.edges) (dir : g.kind i = .dir)
    (empty : ∀ e ∈ g.edges, e.holder ≠ i) : g.links i = 1 := by
  have links := upright.links_eq (j := i) (by rw [dir]; decide)
  have most : tally g.edges (fun e => e.target = i) ≤ 1 :=
    tally_le_one upright.finite fun e left f right this that =>
      upright.single e left f right (this.trans that.symm) (this ▸ dir)
  have least : 1 ≤ tally g.edges (fun e => e.target = i) := tally_pos upright.finite mem rfl
  have o : i ≠ root := upright.bare _ mem
  rw [Net.degree, tally_zero (p := fun e => e.holder = i ∧ _) fun e here both => empty e here both.1, if_neg o] at links
  omega

theorem Upright.fade_edges (fade : Fade g h) : h.edges = g.edges := by
  ext e
  refine ⟨fun mem => ((fade.edges e).mp mem).1, fun mem => (fade.edges e).mpr ⟨mem, ?_⟩⟩
  rw [fade.kept (upright.awake e mem), upright.home e mem]

theorem Upright.fade (fade : Fade g h) : Upright root h := by
  have edges := upright.fade_edges fade
  have holder : ∀ e ∈ g.edges, h.kind e.holder = .dir := fun e mem => by
    rw [fade.kept (upright.awake e mem), upright.home e mem]
  refine ⟨upright.toForest.fade fade, fun j used => ?_, fun e mem => ?_, fun j dir linked => ?_⟩
  · rw [upright.fade_slack fade used fun e mem _ => holder e mem]
    exact upright.precise j ((fade.same used).1 ▸ used)
  · rw [edges] at mem
    rw [(fade.same (j := e.holder) (by rw [holder e mem]; decide)).2.1]
    exact upright.awake e mem
  · obtain ⟨same, links, _⟩ := fade.same (j := j) (by rw [dir]; decide)
    rw [edges]
    exact upright.held j (same ▸ dir) (links ▸ linked)

end

theorem Make.links_of_old (make : Make d k i kind g h) {j : ι} (old : j ≠ i) :
    g.links j ≤ h.links j ∧ (j ≠ d → h.links j = g.links j) := by
  rw [make.links, update_of_ne old]
  by_cases up : j = d
  · refine ⟨?_, fun o => absurd up o⟩
    rw [up, update_self, weight]
    split <;> omega
  · rw [update_of_ne up]
    exact ⟨le_rfl, fun _ => rfl⟩

theorem Upright.make (upright : Upright root g) (make : Make d k i kind g h)
    (awake : 1 ≤ g.links d) : Upright root h := by
  have old : ∀ j, g.kind j = .dir → j ≠ i := by
    rintro j dir rfl
    rw [make.free] at dir
    cases dir
  have least : ∀ j, g.kind j = .dir → 1 ≤ g.links j → 1 ≤ h.links j := fun j dir linked =>
    le_trans linked (make.links_of_old (old j dir)).1
  refine ⟨upright.toForest.make make, fun j used => ?_, fun e mem => ?_, fun j dir linked => ?_⟩
  · rw [upright.make_slack make]
    split
    · rfl
    · rename_i new
      rw [make.kinds, update_of_ne new] at used
      exact upright.precise j used
  · rw [make.edges] at mem
    rcases mem with rfl | mem
    · exact least d make.parent awake
    · exact least _ (upright.home e mem) (upright.awake e mem)
  · rw [make.edges]
    by_cases new : j = i
    · exact .inr ⟨⟨d, k, i⟩, .inl rfl, new.symm⟩
    · rw [make.kinds, update_of_ne new] at dir
      have pre : 1 ≤ g.links j := by
        by_cases up : j = d
        · rw [up]
          exact awake
        · rwa [(make.links_of_old new).2 up] at linked
      rcases upright.held j dir pre with peak | ⟨e, mem, named⟩
      · exact .inl peak
      · exact .inr ⟨e, .inr mem, named⟩

theorem Link.links_of_dir (link : Link d k i g h) {j : ι} (dir : g.kind j = .dir) : h.links j = g.links j := by
  have o : j ≠ i := by
    rintro rfl
    rw [link.leaf] at dir
    cases dir
  rw [link.links, update_of_ne o]

section

variable (upright : Upright root g)

include upright

theorem Upright.link (link : Link d k i g h) (awake : 1 ≤ g.links d) : Upright root h := by
  refine ⟨upright.toForest.link link, fun j used => ?_, fun e mem => ?_, fun j dir linked => ?_⟩
  · rw [upright.link_slack link]
    exact upright.precise j (link.kinds ▸ used)
  · rw [link.edges] at mem
    rcases mem with rfl | mem
    · rw [link.links_of_dir link.parent]
      exact awake
    · rw [link.links_of_dir (upright.home e mem)]
      exact upright.awake e mem
  · rw [link.kinds] at dir
    rw [link.links_of_dir dir] at linked
    rw [link.edges]
    rcases upright.held j dir linked with peak | ⟨e, mem, named⟩
    · exact .inl peak
    · exact .inr ⟨e, .inr mem, named⟩

theorem Upright.remove_links (remove : Remove d k i g h) {j : ι} (o : j ≠ i) : 1 ≤ h.links j ↔ 1 ≤ g.links j := by
  rw [remove.links, update_of_ne o]
  by_cases up : j = d
  · have mem : ⟨d, k, i⟩ ∈ g.edges := by
      rw [remove.edges]
      exact .inl rfl
    rw [up, update_self, weight]
    split
    · have two : 2 ≤ g.links d := upright.holder_two mem ‹_›
      omega
    · omega
  · rw [update_of_ne up]

theorem Upright.remove_dir (remove : Remove d k i g h) (dir : g.kind i = .dir) : h.links i = 0 := by
  have mem : ⟨d, k, i⟩ ∈ g.edges := by
    rw [remove.edges]
    exact .inl rfl
  rw [remove.links, update_self, upright.empty_links mem dir remove.empty]
  rfl

theorem Upright.remove (remove : Remove d k i g h) : Upright root h := by
  have old : ∀ e, e ∈ h.edges → e ∈ g.edges := fun e mem => by
    rw [remove.edges]
    exact .inr mem
  refine ⟨upright.toForest.remove remove, fun j used => ?_, fun e mem => ?_, fun j dir linked => ?_⟩
  · rw [upright.remove_slack remove]
    exact upright.precise j (remove.kinds ▸ used)
  · rw [upright.remove_links remove (remove.empty e (old e mem))]
    exact upright.awake e (old e mem)
  · rw [remove.kinds] at dir
    by_cases same : j = i
    · rw [same, upright.remove_dir remove (same ▸ dir)] at linked
      omega
    · rw [upright.remove_links remove same] at linked
      rcases upright.held j dir linked with peak | ⟨e, mem, named⟩
      · exact .inl peak
      · rw [remove.edges] at mem
        rcases mem with rfl | mem
        · exact absurd named.symm same
        · exact .inr ⟨e, mem, named⟩

theorem Upright.step {enters drops : ι → Prop} (step : Step enters drops g h)
    (awake : ∀ d, enters d → g.kind d = .dir → 1 ≤ g.links d) : Upright root h := by
  cases step with
  | same unchanged => exact unchanged ▸ upright
  | make make into => exact upright.make make (awake _ into make.parent)
  | link link into => exact upright.link link (awake _ into link.parent)
  | remove remove _ => exact upright.remove remove

end

end

section

variable [DecidableEq ι] {root d i : ι} {k : Nat} {kind : Kind} {g h : Net ι}

def Rising (g : Net ι) : Prop := ∀ i, g.kind i = .dir → g.kind (g.up i) = .dir ∧ 1 ≤ g.links (g.up i)

section

variable (rising : Rising g)

include rising

omit [DecidableEq ι] in
theorem Rising.fade (fade : Fade g h) : Rising h := by
  intro j dir
  obtain ⟨kind, _, ups⟩ := fade.same (j := j) (by rw [dir]; decide)
  rw [kind] at dir
  obtain ⟨above, linked⟩ := rising j dir
  have kept := fade.kept linked
  rw [ups dir, kept, (fade.same (j := g.up j) (by rw [kept, above]; decide)).2.1]
  exact ⟨above, linked⟩

theorem Rising.make (make : Make d k i kind g h) (awake : 1 ≤ g.links d) : Rising h := by
  have kept : ∀ j, g.kind j = .dir ∧ 1 ≤ g.links j → h.kind j = .dir ∧ 1 ≤ h.links j := by
    rintro j ⟨dir, linked⟩
    have used : g.kind j ≠ .free := by
      rw [dir]
      decide
    have old : j ≠ i := by
      rintro rfl
      exact used make.free
    rw [make.kind_of_used used]
    exact ⟨dir, le_trans linked (make.links_of_old old).1⟩
  intro j dir
  rw [make.ups j dir]
  split
  · exact kept d ⟨make.parent, awake⟩
  · rename_i old
    rw [make.kinds, update_of_ne old] at dir
    exact kept _ (rising j dir)

theorem Rising.link (link : Link d k i g h) : Rising h := by
  intro j dir
  rw [link.ups j dir]
  rw [link.kinds] at dir ⊢
  rw [link.links_of_dir (rising j dir).1]
  exact rising j dir

theorem Rising.remove (upright : Upright root g) (remove : Remove d k i g h)
    (clear : g.kind i = .dir → ∀ j, j ≠ i → g.kind j = .dir → g.up j ≠ i) : Rising h := by
  intro j dir
  rw [remove.ups j dir]
  rw [remove.kinds] at dir ⊢
  obtain ⟨above, linked⟩ := rising j dir
  have o : g.up j ≠ i := by
    intro same
    rw [same] at above
    by_cases self : j = i
    · have mem : ⟨d, k, i⟩ ∈ g.edges := by
        rw [remove.edges]
        exact .inl rfl
      have up : g.up i = d := upright.above _ mem above
      rw [self, up] at same
      exact remove.apart same.symm
    · exact clear above j self dir same
  exact ⟨above, (upright.remove_links remove o).mpr linked⟩

theorem Rising.step {enters drops : ι → Prop} (upright : Upright root g) (step : Step enters drops g h)
    (awake : ∀ d, enters d → g.kind d = .dir → 1 ≤ g.links d)
    (clear : ∀ i, drops i → g.kind i = .dir → ∀ j, j ≠ i → g.kind j = .dir → g.up j ≠ i) : Rising h := by
  cases step with
  | same unchanged => exact unchanged ▸ rising
  | make make into => exact rising.make make (awake _ into make.parent)
  | link link _ => exact rising.link link
  | remove remove dropped => exact rising.remove upright remove (clear _ dropped)

end

end

section

variable [DecidableEq ι] {root d i : ι} {k : Nat} {kind : Kind} {g h : Net ι}

def Net.Reach (g : Net ι) : ι → ι → Prop :=
  Relation.ReflTransGen fun x z => ∃ e ∈ g.edges, e.holder = x ∧ e.target = z

def Connected (root : ι) (g : Net ι) : Prop :=
  ∀ i, g.kind i = .dir → 1 ≤ g.links i → g.Reach root i

omit [DecidableEq ι] in
theorem Net.Reach.mono (more : g.edges ⊆ h.edges) {x z : ι} (reach : g.Reach x z) : h.Reach x z :=
  Relation.ReflTransGen.mono (fun _ _ ⟨e, mem, ends⟩ => ⟨e, more mem, ends⟩) _ _ reach

omit [DecidableEq ι] in
theorem Net.Reach.edge {x : ι} {e : Edge ι} (reach : g.Reach x e.holder) (mem : e ∈ g.edges) :
    g.Reach x e.target := reach.tail ⟨e, mem, rfl, rfl⟩

theorem Connected.fade (connected : Connected root g) (upright : Upright root g) (fade : Fade g h) :
    Connected root h := by
  intro j dir linked
  obtain ⟨kind, links, _⟩ := fade.same (j := j) (by rw [dir]; decide)
  exact (connected j (kind ▸ dir) (links ▸ linked)).mono (upright.fade_edges fade).ge

theorem Connected.make (connected : Connected root g) (make : Make d k i kind g h)
    (awake : 1 ≤ g.links d) : Connected root h := by
  have more : g.edges ⊆ h.edges := by
    rw [make.edges]
    exact subset_insert _ _
  intro j dir linked
  by_cases new : j = i
  · have mem : (⟨d, k, i⟩ : Edge ι) ∈ h.edges := by
      rw [make.edges]
      exact .inl rfl
    rw [new]
    exact ((connected d make.parent awake).mono more).edge mem
  · rw [make.kinds, update_of_ne new] at dir
    by_cases up : j = d
    · rw [up]
      exact (connected d make.parent awake).mono more
    · rw [(make.links_of_old new).2 up] at linked
      exact (connected j dir linked).mono more

theorem Connected.link (connected : Connected root g) (link : Link d k i g h) : Connected root h := by
  intro j dir linked
  rw [link.kinds] at dir
  rw [link.links_of_dir dir] at linked
  refine (connected j dir linked).mono ?_
  rw [link.edges]
  exact subset_insert _ _

theorem Remove.reach (remove : Remove d k i g h) {z : ι} (reach : g.Reach root z) (o : z ≠ i) : h.Reach root z := by
  induction reach with
  | refl => exact .refl
  | tail _ step ih =>
    obtain ⟨e, mem, rfl, rfl⟩ := step
    have pre := ih (remove.empty e mem)
    rw [remove.edges] at mem
    rcases mem with rfl | mem
    · exact absurd rfl o
    · exact pre.edge mem

theorem Connected.remove (connected : Connected root g) (upright : Upright root g)
    (remove : Remove d k i g h) : Connected root h := by
  intro j dir linked
  rw [remove.kinds] at dir
  have o : j ≠ i := by
    rintro rfl
    rw [upright.remove_dir remove dir] at linked
    omega
  exact remove.reach (connected j dir ((upright.remove_links remove o).mp linked)) o

theorem Connected.step {enters drops : ι → Prop} (connected : Connected root g)
    (upright : Upright root g) (step : Step enters drops g h)
    (awake : ∀ d, enters d → g.kind d = .dir → 1 ≤ g.links d) : Connected root h := by
  cases step with
  | same unchanged => exact unchanged ▸ connected
  | make make into => exact connected.make make (awake _ into make.parent)
  | link link _ => exact connected.link link
  | remove remove _ => exact connected.remove upright remove

theorem Upright.reach (upright : Upright root g) (connected : Connected root g) {j : ι}
    (used : g.kind j ≠ .free) (linked : 1 ≤ g.links j) : g.Reach root j := by
  rw [upright.links_eq used, Net.degree] at linked
  by_cases peak : j = root
  · rw [peak]
    exact .refl
  · rw [if_neg peak] at linked
    by_cases named : 1 ≤ tally g.edges (fun e => e.target = j)
    · obtain ⟨e, mem, rfl⟩ := exists_of_tally named
      exact (connected _ (upright.home e mem) (upright.awake e mem)).edge mem
    · obtain ⟨e, mem, rfl, _⟩ := exists_of_tally
        (show 1 ≤ tally g.edges (fun e => e.holder = j ∧ g.kind e.target = .dir) by omega)
      exact connected _ (upright.home e mem) (upright.awake e mem)

end

section

variable [DecidableEq ι] {root i : ι} {g : Net ι}

noncomputable def Net.uppers (g : Net ι) (i : ι) : Int :=
  ({c | g.kind c = .dir ∧ 1 ≤ g.links c ∧ g.up c = i} : Set ι).ncard

theorem Shape.uppers (shape : Shape root g) (peak : 1 ≤ g.links root)
    (linked : ∀ e ∈ g.edges, g.kind e.target = .dir → 1 ≤ g.links e.target)
    (held : ∀ i, g.kind i = .dir → 1 ≤ g.links i → i = root ∨ ∃ e ∈ g.edges, e.target = i) (i : ι) :
    g.uppers i = tally g.edges (fun e => e.holder = i ∧ g.kind e.target = .dir) + if i = root then 1 else 0 := by
  have finite := shape.finite.sep fun e => e.holder = i ∧ g.kind e.target = .dir
  have injective : Set.InjOn Edge.target {e ∈ g.edges | e.holder = i ∧ g.kind e.target = .dir} :=
    fun e left f right same => shape.single e left.1 f right.1 same left.2.2
  have below : ∀ c, (g.kind c = .dir ∧ 1 ≤ g.links c ∧ g.up c = i) ∧ c ≠ root ↔
      c ∈ Edge.target '' {e ∈ g.edges | e.holder = i ∧ g.kind e.target = .dir} := by
    intro c
    constructor
    · rintro ⟨⟨dir, awake, up⟩, o⟩
      obtain ⟨e, mem, rfl⟩ := (held c dir awake).resolve_left o
      exact ⟨e, ⟨mem, (shape.above e mem dir).symm.trans up, dir⟩, rfl⟩
    · rintro ⟨e, ⟨mem, rfl, dir⟩, rfl⟩
      exact ⟨⟨dir, linked e mem dir, shape.above e mem dir⟩, shape.bare e mem⟩
  have n := injective.ncard_image
  rw [Net.uppers, tally, ← n]
  split
  · rename_i same
    have sets : {c | g.kind c = .dir ∧ 1 ≤ g.links c ∧ g.up c = i} =
        insert root (Edge.target '' {e ∈ g.edges | e.holder = i ∧ g.kind e.target = .dir}) := by
      ext c
      rw [mem_insert_iff, ← below c]
      constructor
      · exact fun here => or_iff_not_imp_left.mpr fun o => ⟨here, o⟩
      · rintro (rfl | here)
        · exact ⟨shape.top, peak, shape.crown.trans same.symm⟩
        · exact here.1
    rw [sets, ncard_insert_of_notMem (fun mem => ((below root).mpr mem).2 rfl) (finite.image _)]
    rfl
  · rename_i o
    have sets : {c | g.kind c = .dir ∧ 1 ≤ g.links c ∧ g.up c = i} =
        Edge.target '' {e ∈ g.edges | e.holder = i ∧ g.kind e.target = .dir} := by
      ext c
      rw [← below c]
      refine ⟨fun here => ⟨here, ?_⟩, And.left⟩
      rintro rfl
      exact o (here.2.2.symm.trans shape.crown)
    rw [sets, add_zero]

end

end Hierarchy

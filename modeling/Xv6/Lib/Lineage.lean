import Mathlib.Data.List.Basic

/-! A table of places in which members are made by others, live, die and are collected. Who dies hands
its children to the root. -/

namespace Lineage

open Function

inductive Kind
  | empty
  | seed
  | live
  | dead
  deriving DecidableEq

inductive Event (ν : Type)
  | born (c maker : ν)
  | died (name : ν)
  | collected (c coll : ν)
  deriving DecidableEq

def Event.map {ν μ : Type} (f : ν → μ) : Event ν → Event μ
  | .born c maker => .born (f c) (f maker)
  | .died name => .died (f name)
  | .collected c coll => .collected (f c) (f coll)

/-- Members have numbers, counted up as they are made; `bears` gives the seed a member is
making. The history has the latest event first. -/
structure Family (ι : Type) where
  kind : ι → Kind
  name : ι → Nat
  parent : ι → Option ι
  bears : ι → Option ι
  made : Nat
  history : List (Event Nat)

variable {ι : Type} [DecidableEq ι]

namespace Family

def sow (f : Family ι) (maker place : ι) : Family ι :=
  { f with
    kind := update f.kind place .seed
    name := update f.name place (f.made + 1)
    bears := update f.bears maker (some place)
    made := f.made + 1 }

def drop (f : Family ι) (maker place : ι) : Family ι :=
  { f with
    kind := update f.kind place .empty
    bears := update f.bears maker none }

def adopt (f : Family ι) (maker place : ι) : Family ι :=
  { f with parent := update f.parent place (some maker) }

def bear (f : Family ι) (maker place : ι) : Family ι :=
  { f with
    kind := update f.kind place .live
    bears := update f.bears maker none
    history := .born (f.name place) (f.name maker) :: f.history }

def die (f : Family ι) (root place : ι) : Family ι :=
  { f with
    kind := update f.kind place .dead
    parent := fun other => if f.parent other = some place then some root else f.parent other
    history := .died (f.name place) :: f.history }

def collect (f : Family ι) (coll place : ι) : Family ι :=
  { f with
    kind := update f.kind place .empty
    parent := update f.parent place none
    history := .collected (f.name place) (f.name coll) :: f.history }

end Family

inductive Step (root : ι) (f : Family ι) : Family ι → Prop
  | sow (maker place : ι) : f.kind maker = .live → f.bears maker = none → f.kind place = .empty →
      Step root f (f.sow maker place)
  | drop (maker place : ι) : f.bears maker = some place → f.parent place = none →
      Step root f (f.drop maker place)
  | adopt (maker place : ι) : f.bears maker = some place → Step root f (f.adopt maker place)
  | bear (maker place : ι) : f.bears maker = some place → f.parent place = some maker →
      Step root f (f.bear maker place)
  | die (place : ι) : place ≠ root → f.kind place = .live → f.bears place = none →
      Step root f (f.die root place)
  | collect (coll place : ι) : f.kind place = .dead → f.parent place = some coll →
      Step root f (f.collect coll place)

structure Due (rootName c coll : Nat) (earlier : List (Event Nat)) : Prop where
  dead : .died c ∈ earlier
  once : ∀ other, .collected c other ∉ earlier
  heir : ∃ maker, .born c maker ∈ earlier ∧ (maker = coll ∨ (coll = rootName ∧ .died maker ∈ earlier))

def Settled (rootName : Nat) (history : List (Event Nat)) : Prop :=
  ∀ later earlier c coll, history = later ++ .collected c coll :: earlier → Due rootName c coll earlier

theorem Settled.cons {rootName : Nat} {history : List (Event Nat)} (settled : Settled rootName history)
    {event : Event Nat} (due : ∀ c coll, event = .collected c coll →
      Due rootName c coll history) : Settled rootName (event :: history) := by
  intro later earlier c coll parts
  cases later with
  | nil =>
    obtain ⟨rfl, rfl⟩ := List.cons.inj parts
    exact due c coll rfl
  | cons fst later =>
    obtain ⟨_, parts⟩ := List.cons.inj parts
    exact settled later earlier c coll parts

structure Ordered (root : ι) (f : Family ι) : Prop where
  root_live : f.kind root = .live
  empty_parent : ∀ place, f.kind place = .empty → f.parent place = none
  seed_parent : ∀ place maker, f.kind place = .seed → f.parent place = some maker → f.bears maker = some place
  bears_seed : ∀ maker place, f.bears maker = some place → f.kind place = .seed ∧ f.kind maker = .live
  bears_once : ∀ maker other place, f.bears maker = some place → f.bears other = some place → maker = other
  upheld : ∀ place, place ≠ root → f.kind place = .live ∨ f.kind place = .dead →
    ∃ above, f.parent place = some above ∧ f.kind above = .live
  named : ∀ place, f.kind place ≠ .empty → 1 ≤ f.name place ∧ f.name place ≤ f.made
  apart : ∀ place other, f.kind place ≠ .empty → f.kind other ≠ .empty → f.name place = f.name other → place = other
  descent : ∀ place above, place ≠ root → f.kind place = .live ∨ f.kind place = .dead →
    f.parent place = some above → ∃ maker, .born (f.name place) maker ∈ f.history ∧
      (maker = f.name above ∨ (above = root ∧ .died maker ∈ f.history))
  mourned : ∀ place, f.kind place = .dead → .died (f.name place) ∈ f.history
  gone : ∀ c coll, .collected c coll ∈ f.history → c ≤ f.made ∧ ∀ place, f.kind place ≠ .empty → f.name place ≠ c
  settled : Settled (f.name root) f.history

namespace Ordered

variable {root maker k : ι} {f : Family ι}

section

variable (ord : Ordered root f)

include ord

theorem sow (alive : f.kind maker = .live) (idle : f.bears maker = none) (free : f.kind k = .empty) :
    Ordered root (f.sow maker k) := by
  obtain ⟨rootLive, emptyParent, seedParent, bearsSeed, bearsOnce, upheld, named, apart, descent,
    mourned, gone, settled⟩ := ord
  have notRoot : root ≠ k := by
    rintro rfl
    rw [rootLive] at free
    contradiction
  constructor <;> simp only [Family.sow, update_apply]
  case settled =>
    rw [if_neg notRoot]
    exact settled
  all_goals grind

section

variable (bears : f.bears maker = some k)

include bears

theorem drop (orphan : f.parent k = none) : Ordered root (f.drop maker k) := by
  obtain ⟨rootLive, emptyParent, seedParent, bearsSeed, bearsOnce, upheld, named, apart, descent,
    mourned, gone, settled⟩ := ord
  constructor <;> simp only [Family.drop, update_apply]
  case settled => exact settled
  all_goals grind

theorem adopt : Ordered root (f.adopt maker k) := by
  obtain ⟨rootLive, emptyParent, seedParent, bearsSeed, bearsOnce, upheld, named, apart, descent,
    mourned, gone, settled⟩ := ord
  constructor <;> simp only [Family.adopt, update_apply]
  case settled => exact settled
  all_goals grind

theorem bear (c : f.parent k = some maker) : Ordered root (f.bear maker k) := by
  obtain ⟨rootLive, emptyParent, seedParent, bearsSeed, bearsOnce, upheld, named, apart, descent,
    mourned, gone, settled⟩ := ord
  constructor <;> simp only [Family.bear, update_apply]
  case settled => exact settled.cons (fun _ _ eq => by simp at eq)
  all_goals grind

end

theorem die (notRoot : k ≠ root) (alive : f.kind k = .live) (idle : f.bears k = none) :
    Ordered root (f.die root k) := by
  obtain ⟨rootLive, emptyParent, seedParent, bearsSeed, bearsOnce, upheld, named, apart, descent,
    mourned, gone, settled⟩ := ord
  constructor <;> simp only [Family.die, update_apply]
  case upheld =>
    intro o ne kind
    by_cases orphan : f.parent o = some k
    · refine ⟨root, by rw [if_pos orphan], ?_⟩
      rw [if_neg (Ne.symm notRoot), rootLive]
    · have pre : f.kind o = .live ∨ f.kind o = .dead := by grind
      obtain ⟨above, parent, kept⟩ := upheld o ne pre
      refine ⟨above, by rw [if_neg orphan, parent], ?_⟩
      have elsewhere : above ≠ k := by
        rintro rfl
        exact orphan parent
      rw [if_neg elsewhere, kept]
  case settled => exact settled.cons (fun _ _ eq => by simp at eq)
  all_goals grind

theorem collect {coll : ι} (dead : f.kind k = .dead) (c : f.parent k = some coll) :
    Ordered root (f.collect coll k) := by
  obtain ⟨rootLive, emptyParent, seedParent, bearsSeed, bearsOnce, upheld, named, apart, descent,
    mourned, gone, settled⟩ := ord
  have notRoot : k ≠ root := by
    rintro rfl
    rw [rootLive] at dead
    contradiction
  constructor <;> simp only [Family.collect, update_apply]
  case upheld =>
    intro o ne kind
    have elsewhere : o ≠ k := by
      rintro rfl
      simp at kind
    rw [if_neg elsewhere] at kind
    obtain ⟨above, parent, kept⟩ := upheld o ne kind
    refine ⟨above, by rw [if_neg elsewhere, parent], ?_⟩
    have standing : above ≠ k := by
      rintro rfl
      rw [dead] at kept
      contradiction
    rw [if_neg standing, kept]
  case settled =>
    apply settled.cons
    rintro name by_ eq
    obtain ⟨rfl, rfl⟩ := Event.collected.inj eq
    obtain ⟨maker, born, heir⟩ := descent k coll notRoot (.inr dead) c
    refine ⟨mourned k dead, ?_, maker, born, ?_⟩
    · intro o pre
      exact (gone _ o pre).2 k (by simp [dead]) rfl
    · rcases heir with eq | ⟨rfl, died⟩
      · exact .inl eq
      · exact .inr ⟨rfl, died⟩
  all_goals grind

theorem step {g : Family ι} (ran : Step root f g) : Ordered root g := by
  cases ran with
  | sow maker k alive idle free => exact ord.sow alive idle free
  | drop maker k bears orphan => exact ord.drop bears orphan
  | adopt maker k bears => exact ord.adopt bears
  | bear maker k bears c => exact ord.bear bears c
  | die k notRoot alive idle => exact ord.die notRoot alive idle
  | collect coll k dead c => exact ord.collect dead c

end

end Ordered

structure Unlooped (root : ι) (f : Family ι) : Prop where
  root_parent : f.parent root = none
  parent_ne : ∀ place, f.parent place ≠ some place

theorem Unlooped.step {root : ι} {f g : Family ι} (unlooped : Unlooped root f) (ord : Ordered root f)
    (ran : Step root f g) : Unlooped root g := by
  obtain ⟨rootParent, parentNe⟩ := unlooped
  cases ran with
  | sow maker k alive idle free => exact ⟨rootParent, parentNe⟩
  | drop maker k bears orphan => exact ⟨rootParent, parentNe⟩
  | adopt maker k bears =>
    obtain ⟨seed, live⟩ := ord.bears_seed maker k bears
    have alive := ord.root_live
    constructor <;> simp only [Family.adopt, update_apply] <;> grind
  | bear maker k bears c => exact ⟨rootParent, parentNe⟩
  | die k notRoot alive idle => constructor <;> simp only [Family.die] <;> grind
  | collect coll k dead c =>
    constructor <;> simp only [Family.collect, update_apply] <;> grind

end Lineage

import Xv6.Calls
import Xv6.Lib.Hierarchy

/-! The directories of an image as a hierarchy, and what each call does to it. -/

namespace Xv6

open Hierarchy Node IsDir BitVec Set Function

def kindOf (type : BitVec 16) : Kind :=
  if IsDir type then .dir else if type = 0 then .free else .leaf

/-- Whether the entries of a directory are looked at: those of directories without links only in
an `idle` view. -/
def Seen (idle : Prop) (node : Node) : Prop := IsDir node.type ∧ (idle ∨ 1 ≤ node.nlink.toInt)

/-- The entries after "." and "..", with the counts of links and the targets of "..". -/
def tree (idle : Prop) (im : Nat → Node) : Net Nat where
  kind i := kindOf (im i).type
  links i := (im i).nlink.toInt
  up i := if IsDir (im i).type then ((im i).slot 1).elim 0 Prod.snd else 0
  edges := {e | Seen idle (im e.holder) ∧ 2 ≤ e.key ∧
    ∃ name, (im e.holder).slot e.key = some (name, e.target)}

structure Dotted (im : Nat → Node) : Prop where
  self : ∀ i, IsDir (im i).type → (im i).slot 0 = some (dot, i)
  upper : ∀ i, IsDir (im i).type → ∃ d, (im i).slot 1 = some (dotdot, d)
  rest : ∀ i k name j, IsDir (im i).type → 2 ≤ k → (im i).slot k = some (name, j) → name ≠ dot ∧ name ≠ dotdot

section

variable {type : BitVec 16}

theorem kindOf_dir : kindOf type = .dir ↔ IsDir type := by
  unfold kindOf
  split
  · exact iff_of_true rfl ‹_›
  · refine iff_of_false ?_ ‹_›
    split <;> simp

theorem kindOf_free : kindOf type = .free ↔ type = 0 := by
  unfold kindOf
  split
  · exact iff_of_false (by simp) (blockType ‹_›).ne_zero
  · split
    · exact iff_of_true rfl ‹_›
    · exact iff_of_false (by simp) ‹_›

theorem kindOf_leaf (ty : type ≠ 0) (file : ¬IsDir type) : kindOf type = .leaf := by
  rw [kindOf, if_neg file, if_neg ty]

theorem weight_kindOf : weight (kindOf type) = if IsDir type then 1 else 0 := by
  simp only [weight, kindOf_dir]

theorem toInt_succ {n : BitVec 16} (room : n.toInt < 32767) : (n + 1).toInt = n.toInt + 1 := by
  rw [toInt_add, show (1 : BitVec 16).toInt = 1 from rfl]
  have least := le_toInt n
  exact Int.bmod_eq_of_le (by norm_num at *; omega) (by norm_num at *; omega)

theorem toInt_pred {n : BitVec 16} (room : -32768 < n.toInt) : (n - 1).toInt = n.toInt - 1 := by
  rw [toInt_sub, show (1 : BitVec 16).toInt = 1 from rfl]
  have most := toInt_lt (x := n)
  exact Int.bmod_eq_of_le (by norm_num at *; omega) (by norm_num at *; omega)

end

section

variable {img img' : Nat → Node} {safe : Nat → Prop} {d k i : Nat} {name : List UInt8} {type : BitVec 16}

section

variable (dotted : Dotted img)

include dotted

theorem Dotted.up_eq (idle : Prop) (dir : IsDir (img i).type) :
    (img i).slot 1 = some (dotdot, (tree idle img).up i) := by
  obtain ⟨d, here⟩ := dotted.upper i dir
  have up : (tree idle img).up i = d := by
    show (if IsDir (img i).type then _ else 0) = d
    rw [if_pos dir, here]
    rfl
  rw [up, here]

theorem Dotted.two_le (dir : IsDir (img d).type) (empty : (img d).slot k = none) : 2 ≤ k := by
  match k with
  | 0 => simp [dotted.self d dir] at empty
  | 1 =>
    obtain ⟨_, here⟩ := dotted.upper d dir
    simp [here] at empty
  | k + 2 => omega

theorem Dotted.fresh_name (dir : IsDir (img d).type)
    (absent : ∀ j i', (img d).slot j ≠ some (cname name, i')) : cname name ≠ dot ∧ cname name ≠ dotdot := by
  obtain ⟨up, here⟩ := dotted.upper d dir
  exact ⟨fun same => absent 0 d (by rw [same, dotted.self d dir]), fun same => absent 1 up (by rw [same, here])⟩

theorem Dotted.change (each : ∀ j, IsDir (img' j).type → (∃ t, (img' j).slot = dots j t) ∨
      IsDir (img j).type ∧ ∀ k, (img' j).slot k = (img j).slot k ∨
        2 ≤ k ∧ ∀ name t, (img' j).slot k = some (name, t) → name ≠ dot ∧ name ≠ dotdot) : Dotted img' := by
  refine ⟨fun j dir => ?_, fun j dir => ?_, fun j k name t dir late here => ?_⟩
  · rcases each j dir with ⟨t, slots⟩ | ⟨old, slots⟩
    · rw [slots]
      rfl
    · rw [(slots 0).resolve_right fun later => absurd later.1 (by omega)]
      exact dotted.self j old
  · rcases each j dir with ⟨t, slots⟩ | ⟨old, slots⟩
    · exact ⟨t, by rw [slots]; rfl⟩
    · rw [(slots 1).resolve_right fun later => absurd later.1 (by omega)]
      exact dotted.upper j old
  · rcases each j dir with ⟨t', slots⟩ | ⟨old, slots⟩
    · rw [slots] at here
      match k, late with
      | k + 2, _ => cases here
    · rcases slots k with same | later
      · exact dotted.rest j k name t old late (same ▸ here)
      · exact later.2 name t here

theorem Dotted.faded (faded : Faded safe img img') : Dotted img' := by
  refine dotted.change fun j dir => .inr ?_
  rw [faded.same_of_typed (blockType dir).ne_zero] at *
  exact ⟨dir, fun k' => .inl rfl⟩

theorem Dotted.entered (dir : IsDir (img d).type)
    (absent : ∀ j i', (img d).slot j ≠ some (cname name, i')) (empty : (img d).slot k = none)
    (slots : (img' d).slot = update (img d).slot k (some (cname name, i))) (k' : Nat) :
    (img' d).slot k' = (img d).slot k' ∨ 2 ≤ k' ∧ ∀ name' t, (img' d).slot k' = some (name', t) →
      name' ≠ dot ∧ name' ≠ dotdot := by
  rw [slots]
  by_cases same : k' = k
  · subst same
    refine .inr ⟨dotted.two_le dir empty, fun name' t here => ?_⟩
    rw [update_self, Option.some.injEq, Prod.mk.injEq] at here
    rw [← here.1]
    exact dotted.fresh_name dir absent
  · exact .inl (update_of_ne same _ _)

theorem Dotted.made (made : Made d name type k i img img') : Dotted img' := by
  refine dotted.change fun j dir => ?_
  by_cases c : j = i
  · subst c
    rw [made.kind] at dir
    exact .inl ⟨d, by rw [made.slot, initialSlots, if_pos dir]⟩
  · by_cases pa : j = d
    · subst pa
      exact .inr ⟨made.directory, dotted.entered made.directory made.absent made.empty made.parentSlot⟩
    · rw [made.other j pa c] at dir ⊢
      exact .inr ⟨dir, fun k' => .inl rfl⟩

theorem Dotted.linked (linked : Linked d name k i img img') : Dotted img' := by
  refine dotted.change fun j dir => .inr ?_
  by_cases pa : j = d
  · subst pa
    exact ⟨linked.directory, dotted.entered linked.directory linked.absent linked.empty linked.parentSlot⟩
  · by_cases c : j = i
    · subst c
      rw [linked.node] at dir
      exact absurd dir linked.file
    · rw [linked.other j pa c] at dir ⊢
      exact ⟨dir, fun k' => .inl rfl⟩

theorem Dotted.finds_two (dir : IsDir (img d).type) (finds : (img d).Finds name k i)
    (notDot : cname name ≠ dot) (notDotdot : cname name ≠ dotdot) : 2 ≤ k := by
  have here := finds.1
  match k with
  | 0 =>
    rw [dotted.self d dir, Option.some.injEq, Prod.mk.injEq] at here
    exact absurd here.1.symm notDot
  | 1 =>
    obtain ⟨_, there⟩ := dotted.upper d dir
    rw [there, Option.some.injEq, Prod.mk.injEq] at here
    exact absurd here.1.symm notDotdot
  | k + 2 => omega

theorem Dotted.unlinked (unlinked : Unlinked d name k i img img') : Dotted img' := by
  have late := dotted.finds_two unlinked.directory unlinked.finds unlinked.notDot unlinked.notDotdot
  refine dotted.change fun j dir => .inr ?_
  by_cases pa : j = d
  · subst pa
    refine ⟨unlinked.directory, fun k' => ?_⟩
    rw [unlinked.parentSlot]
    by_cases same : k' = k
    · subst same
      refine .inr ⟨late, fun name' t here => ?_⟩
      rw [update_self] at here
      cases here
    · exact .inl (update_of_ne same _ _)
  · by_cases c : j = i
    · subst c
      rw [unlinked.node] at dir ⊢
      exact ⟨dir, fun k' => .inl rfl⟩
    · rw [unlinked.other j pa c] at dir ⊢
      exact ⟨dir, fun k' => .inl rfl⟩

theorem Dotted.wrote {off n : Nat} {src : Nat → UInt8} (file : (img i).type = T_FILE) :
    Dotted (update img i ((img i).write src off n)) := by
  refine dotted.change fun j dir => .inr ?_
  by_cases here : j = i
  · rw [here, update_self] at dir
    exact absurd (show IsDir (img i).type from dir) (by rw [file]; decide)
  · rw [update_of_ne here] at dir ⊢
    exact ⟨dir, fun k' => .inl rfl⟩

end

end

section

variable {idle : Prop} {img img' : Nat → Node} {safe : Nat → Prop} {d k i : Nat} {name : List UInt8} {type : BitVec 16}

theorem mem_tree {e : Edge Nat} : e ∈ (tree idle img).edges ↔ Seen idle (img e.holder) ∧
    2 ≤ e.key ∧ ∃ name, (img e.holder).slot e.key = some (name, e.target) := Iff.rfl

theorem Faded.fade (faded : Faded safe img img') : Fade (tree idle img) (tree idle img') := by
  refine ⟨fun j => ?_, fun e => ?_⟩
  · rcases faded j with same | ⟨_, unlinked, gone, _⟩
    · refine .inl ⟨?_, ?_, fun _ => ?_⟩
      · exact congrArg (fun node => kindOf node.type) same
      · exact congrArg (fun node => node.nlink.toInt) same
      · simp only [tree, same]
    · refine .inr ⟨?_, ?_⟩
      · exact kindOf_free.mpr (congrArg Node.type gone)
      · exact congrArg BitVec.toInt unlinked
  · constructor
    · rintro ⟨seen, late, name, here⟩
      have same := faded.same_of_typed (blockType seen.1).ne_zero
      refine ⟨?_, kindOf_dir.mpr seen.1⟩
      rw [same] at seen here
      exact ⟨seen, late, name, here⟩
    · rintro ⟨⟨seen, late, name, here⟩, dir⟩
      have same := faded.same_of_typed (blockType (kindOf_dir.mp dir)).ne_zero
      rw [← same] at seen here
      exact ⟨seen, late, name, here⟩

theorem tree_insert {pre after : Nat → Node} (seenBefore : Seen idle (pre d))
    (seenAfter : Seen idle (after d)) (late : 2 ≤ k) (empty : (pre d).slot k = none)
    (slots : (after d).slot = update (pre d).slot k (some (name, i)))
    (others : ∀ j, j ≠ d → ∀ k, 2 ≤ k → ∀ t, (Seen idle (after j) ∧ ∃ name, (after j).slot k = some (name, t)) ↔
      Seen idle (pre j) ∧ ∃ name, (pre j).slot k = some (name, t)) :
    (tree idle after).edges = insert ⟨d, k, i⟩ (tree idle pre).edges ∧ ⟨d, k, i⟩ ∉ (tree idle pre).edges := by
  refine ⟨?_, fun ⟨_, _, _, here⟩ => ?_⟩
  · ext ⟨j, key, t⟩
    rw [mem_insert_iff, mem_tree, mem_tree, Edge.mk.injEq]
    by_cases pa : j = d
    · subst pa
      simp only [slots, seenBefore, seenAfter, true_and]
      by_cases same : key = k
      · subst same
        simp only [update_self, Option.some.injEq, Prod.mk.injEq, empty, true_and, reduceCtorEq,
          exists_const, and_false, or_false]
        exact ⟨fun ⟨_, _, _, target⟩ => target.symm, fun target => ⟨late, name, rfl, target.symm⟩⟩
      · simp only [update_of_ne same, same, false_and, false_or]
    · have same := others j pa key
      simp only [pa, false_and, false_or]
      constructor
      · rintro ⟨seen, late, here⟩
        have there := (same late t).mp ⟨seen, here⟩
        exact ⟨there.1, late, there.2⟩
      · rintro ⟨seen, late, here⟩
        have there := (same late t).mpr ⟨seen, here⟩
        exact ⟨there.1, late, there.2⟩
  · rw [empty] at here
    cases here

theorem tree_up {j : Nat} (late : 2 ≤ k) {ent : Option (List UInt8 × Nat)}
    (types : (img' j).type = (img j).type) (slots : (img' j).slot = update (img j).slot k ent) :
    (tree idle img').up j = (tree idle img).up j := by
  simp only [tree, types, slots, update_of_ne (show 1 ≠ k by omega)]

theorem tree_up_congr {j : Nat} (types : (img' j).type = (img j).type)
    (slots : (img' j).slot = (img j).slot) : (tree idle img').up j = (tree idle img).up j := by
  simp only [tree, types, slots]

theorem Made.make (made : Made d name type k i img img') (dotted : Dotted img)
    (ty : type ≠ 0) (room : IsDir type → (img d).nlink.toInt < 32767) (seen : idle ∨ 1 ≤ (img d).nlink.toInt) :
    Make d k i (kindOf type) (tree idle img) (tree idle img') := by
  have late := dotted.two_le made.directory made.empty
  have apart : d ≠ i := by
    rintro rfl
    exact (blockType made.directory).ne_zero made.free
  have parentLinks : (img' d).nlink.toInt = (img d).nlink.toInt + weight (kindOf type) := by
    rw [made.parentNlink, weight_kindOf]
    split
    · exact toInt_succ (room ‹_›)
    · exact (add_zero _).symm
  have seenAfter : Seen idle (img' d) := by
    refine ⟨made.parentType ▸ made.directory, seen.imp id fun linked => ?_⟩
    rw [parentLinks, weight_kindOf]
    split <;> omega
  obtain ⟨edges, _⟩ := tree_insert ⟨made.directory, seen⟩ seenAfter late
    made.empty made.parentSlot fun j pa k' late' t => by
      by_cases c : j = i
      · subst c
        refine iff_of_false ?_ ?_
        · rintro ⟨⟨dir, _⟩, _, here⟩
          rw [made.kind] at dir
          rw [made.slot, initialSlots, if_pos dir] at here
          obtain ⟨k', rfl⟩ := Nat.exists_eq_add_of_le' late'
          cases here
        · rintro ⟨⟨dir, _⟩, _⟩
          exact (blockType dir).ne_zero made.free
      · rw [made.other j pa c]
  refine ⟨kindOf_free.mpr made.free, fun free => ty (kindOf_free.mp free), kindOf_dir.mpr made.directory,
    ?_, ?_, fun j dir => ?_, edges⟩
  · funext j
    show kindOf (img' j).type = _
    by_cases c : j = i
    · rw [c, made.kind, update_self]
    · rw [update_of_ne c]
      by_cases pa : j = d
      · rw [pa, made.parentType]
        rfl
      · rw [made.other j pa c]
        rfl
  · funext j
    show (img' j).nlink.toInt = _
    by_cases c : j = i
    · rw [c, made.nlink, update_self]
      rfl
    · rw [update_of_ne c]
      by_cases pa : j = d
      · rw [pa, update_self, parentLinks]
        rfl
      · rw [update_of_ne pa, made.other j pa c]
        rfl
  · split
    · rename_i c
      subst c
      have dir' := kindOf_dir.mp dir
      show (if IsDir (img' j).type then ((img' j).slot 1).elim 0 Prod.snd else 0) = d
      rw [if_pos dir', made.slot, initialSlots, if_pos (made.kind ▸ dir')]
      rfl
    · rename_i c
      by_cases pa : j = d
      · subst pa
        exact tree_up late made.parentType made.parentSlot
      · exact tree_up_congr (by rw [made.other j pa c]) (by rw [made.other j pa c])

theorem Linked.link (linked : Linked d name k i img img') (dotted : Dotted img)
    (room : (img i).nlink.toInt < 32767) (seen : idle ∨ 1 ≤ (img d).nlink.toInt) :
    Link d k i (tree idle img) (tree idle img') := by
  have late := dotted.two_le linked.directory linked.empty
  have apart : d ≠ i := by
    rintro rfl
    exact linked.file linked.directory
  have types := linked.types
  have seenAfter : Seen idle (img' d) := by
    rw [Seen, types, linked.parentNlink]
    exact ⟨linked.directory, seen⟩
  obtain ⟨edges, new⟩ := tree_insert ⟨linked.directory, seen⟩ seenAfter late
    linked.empty linked.parentSlot fun j pa k' late' t => by
      by_cases c : j = i
      · subst c
        refine iff_of_false (fun here => ?_) fun here => linked.file here.1.1
        have dir := here.1.1
        rw [types] at dir
        exact linked.file dir
      · rw [linked.other j pa c]
  refine ⟨kindOf_leaf linked.typed linked.file, kindOf_dir.mpr linked.directory, ?_, ?_, fun j dir => ?_, new, edges⟩
  · funext j
    exact congrArg kindOf (types j)
  · funext j
    show (img' j).nlink.toInt = _
    by_cases c : j = i
    · rw [c, linked.node, update_self, setNlink_nlink]
      exact toInt_succ room
    · rw [update_of_ne c]
      by_cases pa : j = d
      · rw [pa, linked.parentNlink]
        rfl
      · rw [linked.other j pa c]
        rfl
  · by_cases pa : j = d
    · subst pa
      exact tree_up late linked.parentType linked.parentSlot
    · refine tree_up_congr (types j) ?_
      by_cases c : j = i
      · rw [c, linked.node, setNlink_slot]
      · rw [linked.other j pa c]

theorem Unlinked.remove (unlinked : Unlinked d name k i img img') (dotted : Dotted img)
    (room : IsDir (img i).type → 1 ≤ (img d).nlink.toInt)
    (seen : idle ∨ 1 ≤ (img d).nlink.toInt ∧ (IsDir (img i).type → 2 ≤ (img d).nlink.toInt)) :
    Remove d k i (tree idle img) (tree idle img') := by
  have late := dotted.finds_two unlinked.directory unlinked.finds unlinked.notDot unlinked.notDotdot
  have types := unlinked.types
  have parentLinks : (img' d).nlink.toInt = (img d).nlink.toInt - weight (kindOf (img i).type) := by
    rw [unlinked.parentNlink, weight_kindOf]
    split
    · rename_i dir
      have least := room dir
      exact toInt_pred (by omega)
    · exact (sub_zero _).symm
  have seenAfter : Seen idle (img' d) := by
    rw [Seen, types]
    refine ⟨unlinked.directory, seen.imp id fun linked => ?_⟩
    rw [parentLinks, weight_kindOf]
    split
    · rename_i dir
      have two := linked.2 dir
      omega
    · exact linked.1.trans (by omega)
  have slots : (img d).slot = update (img' d).slot k (some (cname name, i)) := by
    rw [unlinked.parentSlot, update_idem, ← unlinked.finds.1, update_eq_self]
  obtain ⟨edges, gone⟩ := tree_insert seenAfter ⟨unlinked.directory, seen.imp id And.left⟩ late
    (by rw [unlinked.parentSlot, update_self]) slots fun j pa k' late' t => by
      by_cases c : j = i
      · subst c
        refine iff_of_false ?_ ?_
        · rintro ⟨⟨dir, _⟩, _, here⟩
          rw [unlinked.empty dir k' late'] at here
          cases here
        · rintro ⟨⟨dir, _⟩, _, here⟩
          rw [types] at dir
          rw [unlinked.node, setNlink_slot, unlinked.empty dir k' late'] at here
          cases here
      · rw [unlinked.other j pa c]
  refine ⟨unlinked.apart, ?_, ?_, ?_, fun j dir => ?_, gone, edges⟩
  · rintro e ⟨⟨dir, _⟩, late', _, here⟩ same
    rw [same] at dir here
    rw [unlinked.empty dir e.key late'] at here
    cases here
  · funext j
    exact congrArg kindOf (types j)
  · funext j
    show (img' j).nlink.toInt = _
    by_cases c : j = i
    · have counted := unlinked.counted
      rw [c, unlinked.node, update_self, setNlink_nlink]
      exact toInt_pred (by omega)
    · rw [update_of_ne c]
      by_cases pa : j = d
      · rw [pa, update_self, parentLinks]
        rfl
      · rw [update_of_ne pa, unlinked.other j pa c]
        rfl
  · by_cases pa : j = d
    · subst pa
      exact tree_up late unlinked.parentType unlinked.parentSlot
    · refine tree_up_congr (types j) ?_
      by_cases c : j = i
      · rw [c, unlinked.node, setNlink_slot]
      · rw [unlinked.other j pa c]

theorem tree_wrote {off n : Nat} {src : Nat → UInt8} (file : (img i).type = T_FILE) :
    tree idle (update img i ((img i).write src off n)) = tree idle img := by
  have types := write_types img i src off n
  have links : ∀ j, (update img i ((img i).write src off n) j).nlink = (img j).nlink := by
    intro j
    by_cases here : j = i
    · rw [here, update_self]
      rfl
    · rw [update_of_ne here]
  have o : ∀ j, IsDir (img j).type → update img i ((img i).write src off n) j = img j := by
    intro j dir
    refine update_of_ne ?_ _ _
    rintro rfl
    rw [file] at dir
    exact absurd dir (by decide)
  rw [tree, tree, Net.mk.injEq]
  refine ⟨?_, ?_, ?_, ?_⟩
  · funext j
    rw [types]
  · funext j
    rw [links]
  · funext j
    rw [types]
    split
    · rw [o j ‹_›]
    · rfl
  · ext e
    constructor
    · rintro ⟨⟨dir, seen⟩, late, name, here⟩
      rw [types] at dir
      rw [o _ dir] at seen here
      exact ⟨⟨dir, seen⟩, late, name, here⟩
    · rintro ⟨⟨dir, seen⟩, late, name, here⟩
      rw [← o _ dir] at seen here
      exact ⟨⟨(types _).symm ▸ dir, seen⟩, late, name, here⟩

end

section

variable {R : Rules} {idle : Prop} {fs : Fs} {root : Nat}

theorem Sound.tree_room (sound : Sound R fs) :
    (tree idle fs.image).edges.Finite ∧ (tree idle fs.image).edges.ncard ≤ 32 * fs.disk.sb.size := by
  have block : ∀ e ∈ (tree idle fs.image).edges, fs.pointers (e.holder, some (e.key / 32)) ≠ 0 ∧
        fs.pointers (e.holder, some (e.key / 32)) < fs.disk.sb.size := by
    rintro e ⟨⟨dir, _⟩, _, name, here⟩
    have has := sound.well.present e.holder (blockType dir)
    have low : deSize * e.key < (fs.image e.holder).size.toNat := by
      by_contra outside
      rw [slot_beyond (by omega)] at here
      cases here
    have n : e.key / 32 < blocksOf (fs.image e.holder).size.toNat := by
      simp only [deSize, blocksOf, BSIZE] at *
      omega
    have nonzero := (has.file (e.key / 32) (lt_of_lt_of_le n has.limit)).mpr n
    exact ⟨nonzero, (sound.well.owns.inside _ nonzero).2⟩
  have injective : Set.InjOn (fun e : Edge Nat => fs.pointers (e.holder, some (e.key / 32)) * 32 + e.key % 32)
      (tree idle fs.image).edges := by
    rintro ⟨d, k, i⟩ left ⟨d', k', i'⟩ right same
    simp only at same
    have places := sound.well.owns.unique (d, some (k / 32)) (d', some (k' / 32))
      (by show fs.pointers _ = fs.pointers _; omega) (block _ left).1
    rw [Prod.mk.injEq, Option.some.injEq] at places
    obtain ⟨rfl, blocks⟩ := places
    obtain rfl : k = k' := by omega
    obtain ⟨_, _, _, here⟩ := left
    obtain ⟨_, _, _, there⟩ := right
    rw [here, Option.some.injEq, Prod.mk.injEq] at there
    have targets : i = i' := there.2
    rw [targets]
  have maps : ∀ e ∈ (tree idle fs.image).edges, fs.pointers (e.holder, some (e.key / 32)) * 32 + e.key % 32 ∈
        (Finset.range (32 * fs.disk.sb.size) : Set Nat) := by
    intro e mem
    have below := (block e mem).2
    rw [Finset.coe_range, mem_Iio]
    omega
  refine ⟨Set.Finite.of_injOn maps injective (Finset.finite_toSet _), ?_⟩
  have n := ncard_le_ncard_of_injOn _ maps injective (Finset.finite_toSet _)
  rwa [ncard_coe_finset, Finset.card_range] at n

theorem Sound.degree_lt {img : Nat → Node} {safe : Nat → Prop} (sound : Sound R fs)
    (small : fs.disk.fssize ≤ FSSIZE) (faded : Faded safe fs.image img)
    (shape : Shape root (tree idle img)) (j : Nat) : (tree idle img).degree root j < 32767 := by
  have fewer : (tree idle img).edges.ncard ≤ (tree idle fs.image).edges.ncard :=
    ncard_le_ncard (fun e mem => ((faded.fade.edges e).mp mem).1) sound.tree_room.1
  have room : (tree idle fs.image).edges.ncard ≤ 32 * fs.disk.sb.size := sound.tree_room.2
  have fits := sound.layout.fits
  have most := shape.degree_le j
  simp only [FSSIZE] at small
  omega

end

section

variable {R : Rules} {k : Kernel} {p : ProcSlot} {call : Call} {safe : Nat → Prop} {root : Nat} {img img' : Nat → Node}

def Kernel.Enters (kernel : Kernel) (p : ProcSlot) (call : Call) (d : Nat) : Prop :=
  (∃ path type name, Makes call path type ∧ kernel.Walks p true path d name) ∨
    ∃ old new name, call = .sysLink (some old) (some new) ∧ kernel.Walks p true new d name

def Kernel.Drops (kernel : Kernel) (p : ProcSlot) (call : Call) (i : Nat) : Prop :=
  ∃ path d name k, call = .sysUnlink (some path) ∧ kernel.Walks p true path d name ∧ (kernel.fs.image d).Finds name k i

theorem Makes.typed {path : List UInt8} {type : BitVec 16} (makes : Makes call path type) : type ≠ 0 := by
  cases makes with
  | sysOpen => split <;> decide
  | sysMkdir => decide
  | sysMknod => decide
  | mkSmallFilesdir => decide

theorem act_step (sound : Sound R k.fs) (small : k.fs.disk.fssize ≤ FSSIZE)
    (faded : Faded safe k.fs.image img) (dotted : Dotted img) (forest : Forest root (tree True img))
    (room : ∀ old new i last, (img i).type ≠ 0 → call = .sysLink (some old) (some new) →
      k.Walks p false old i last → (img i).nlink.toInt < 32767) (act : Act R k p call img img') :
    Dotted img' ∧ Step (k.Enters p call) (k.Drops p call) (tree True img) (tree True img') := by
  cases act with
  | same => exact ⟨dotted, .same rfl⟩
  | @made _ _ _ _ d k i _ _ makes walk _ _ made =>
    refine ⟨dotted.made made, .make (made.make dotted makes.typed (fun _ => ?_) (.inl trivial))
      (.inl ⟨_, _, _, makes, walk⟩)⟩
    have even : (img d).nlink.toInt = (tree True img).degree root d :=
      Int.sub_eq_zero.mp (forest.even d (kindOf_dir.mpr made.directory))
    rw [even]
    exact sound.degree_lt small faded forest.toShape d
  | linked oldWalk newWalk linked =>
    exact ⟨dotted.linked linked, .link (linked.link dotted
      (room _ _ _ _ linked.typed rfl oldWalk) (.inl trivial)) (.inr ⟨_, _, _, rfl, newWalk⟩)⟩
  | @unlinked _ _ d k i _ _ walk unlinked =>
    have same := faded.same_of_typed (blockType unlinked.directory).ne_zero
    refine ⟨dotted.unlinked unlinked, .remove (unlinked.remove dotted (fun dir => ?_) (.inl trivial))
      ⟨_, _, _, _, rfl, walk, same ▸ unlinked.finds⟩⟩
    have late := dotted.finds_two unlinked.directory unlinked.finds unlinked.notDot unlinked.notDotdot
    exact forest.holder_links (e := ⟨d, k, i⟩)
      ⟨⟨unlinked.directory, .inl trivial⟩, late, _, unlinked.finds.1⟩ (kindOf_dir.mpr dir)
  | wrote _ regular =>
    rw [tree_wrote regular]
    exact ⟨dotted.wrote regular, .same rfl⟩

end

end Xv6

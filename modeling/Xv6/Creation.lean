import Xv6.Paths

/-! `create` in sound states, as one change of the inodes. -/

namespace Xv6

open Exec Node Fs Function

variable {post : Unit → Fs → Prop} {type major minor : BitVec 16}

def dots (i d : Nat) : Nat → Option (List UInt8 × Nat)
  | 0 => some (dot, i)
  | 1 => some (dotdot, d)
  | _ => none

def initialSlots (type : BitVec 16) (i d : Nat) : Nat → Option (List UInt8 × Nat) :=
  if IsDir type then dots i d else fun _ => none

structure Made (d : Nat) (name : List UInt8) (type : BitVec 16) (k i : Nat) (im im' : Nat → Node) :
    Prop where
  free : (im i).type = 0
  directory : IsDir (im d).type
  absent : ∀ j i', (im d).slot j ≠ some (cname name, i')
  empty : (im d).slot k = none
  other : ∀ j, j ≠ d → j ≠ i → im' j = im j
  parentType : (im' d).type = (im d).type
  parentNlink : (im' d).nlink = if IsDir type then (im d).nlink + 1 else (im d).nlink
  parentSlot : (im' d).slot = update (im d).slot k (some (cname name, i))
  kind : (im' i).type = type
  nlink : (im' i).nlink = 1
  slot : (im' i).slot = initialSlots type i d
  file : ¬IsDir type → im' i = (Node.fresh type).setNlink 1

structure Drafted (d i : Nat) (type : BitVec 16) (im im' : Nat → Node) : Prop where
  other : ∀ j, j ≠ d → j ≠ i → im' j = im j
  parent : im' d = (im d).setNlink (if IsDir type then (im d).nlink + 1 else (im d).nlink)
  kind : (im' i).type = type
  nlink : (im' i).nlink = 1
  slot : (im' i).slot = initialSlots type i d
  file : ¬IsDir type → im' i = (Node.fresh type).setNlink 1

@[simp] theorem Node.setNlink_slot (node : Node) (nlink : BitVec 16) : (node.setNlink nlink).slot = node.slot := rfl

@[simp] theorem Node.setNlink_nlink (node : Node) (nlink : BitVec 16) : (node.setNlink nlink).nlink = nlink := rfl

@[simp] theorem Node.setNlink_self (node : Node) : node.setNlink node.nlink = node := rfl

@[simp] theorem Node.setNlink_setNlink (node : Node) (fst snd : BitVec 16) :
    (node.setNlink fst).setNlink snd = node.setNlink snd := rfl

section

variable {R : Rules} {fs : Fs} {dp ip : Slot} {stops : Stop → Prop}

section

variable (act : Active R fs)

include act

theorem Active.holds_addNlink {change : BitVec 16} (held : 0 < (fs.icache ip).ref) (valid : (fs.icache ip).valid = true)
    (bare : (fs.nodeAt ip).nlink + change = 0 → (fs.nodeAt ip).Bare) (full : stops tooBig)
    (next : ∀ fs', SameEntries fs fs' → Active R fs' → fs'.image = update fs.image (fs.icache ip).inum
        ((fs.nodeAt ip).setNlink ((fs.nodeAt ip).nlink + change)) →
      fs'.disk.block = iupdated fs.disk.sb fs.disk.block (fs.icache ip).inum
        ((fs.icache ip).dinode.setNlink ((fs.icache ip).dinode.nlink + change)) → post () fs') :
    Holds (addNlink ip change) fs post stops := by
  simp only [addNlink, holds_bind, holds_modifyDinode]
  have links := (act.image_slot held valid).2.1
  rw [nodeAt, links] at bare
  refine act.holds_iupdate held valid rfl rfl rfl bare full fun fs' recasts act' img block => ?_
  refine next fs' recasts.entries act' ?_ block
  rw [img, nodeAt, links, Dinode.setNlink_nlink]

theorem Active.holds_createDots {message : String}
    (up : 0 < (fs.icache dp).ref) (parentValid : (fs.icache dp).valid = true) (above : IsDir (fs.nodeAt dp).type)
    (c : 0 < (fs.icache ip).ref) (childValid : (fs.icache ip).valid = true)
    (dir : IsDir (fs.nodeAt ip).type) (blank : (fs.nodeAt ip).slot = fun _ => none)
    (apart : (fs.icache ip).inum ≠ (fs.icache dp).inum) (lax : Lenient stops)
    (next : ∀ fs' node, SameEntries fs fs' → Active R fs' → fs'.image = update (update fs.image (fs.icache dp).inum
        ((fs.nodeAt dp).setNlink ((fs.nodeAt dp).nlink + 1))) (fs.icache ip).inum node →
      node.type = (fs.nodeAt ip).type → node.nlink = (fs.nodeAt ip).nlink →
      node.slot = dots (fs.icache ip).inum (fs.icache dp).inum → post () fs') :
    Holds (createDots dp ip message) fs post stops := by
  rw [createDots, holds_bind]
  refine act.holds_addNlink up parentValid (fun _ file => absurd above.blockType file) lax.other fun fs1 entries1 act1 img1 _ => ?_
  have node1 : fs1.nodeAt ip = fs.nodeAt ip := by
    rw [nodeAt, entries1.inum, img1, update_of_ne apart, nodeAt]
  simp only [holds_bind, holds_inode]
  refine act1.holds_dirlink (entries1.ref ip ▸ c) ((entries1.valid ip).trans childValid)
    (node1 ▸ dir) (act1.numbered ip (entries1.ref ip ▸ c)) lax.other lax.other lax.other lax.other lax.other
    (fun j i fs2 here => ?_) fun _ k fs2 _ pre recasts act2 img2 slots2 => ?_
  · rw [node1, blank] at here
    cases here
  have fst : k = 0 := by
    by_contra later
    exact pre 0 (by omega) (by rw [node1, blank])
  subst fst
  have node2 : fs2.nodeAt ip = (fs1.nodeAt ip).enter 0 dot (fs1.icache ip).inum := by
    rw [nodeAt, recasts.entries.inum, img2, update_self]
  have entries2 := entries1.trans recasts.entries
  have slots : (fs2.nodeAt ip).slot =
      (update (fun _ => none) 0 (some (dot, (fs.icache ip).inum)) : Nat → Option (List UInt8 × Nat)) := by
    rw [node2, slots2, node1, blank, entries1.inum]
    rfl
  rw [if_pos rfl, holds_bind]
  refine act2.holds_dirlink (entries2.ref ip ▸ c) ((entries2.valid ip).trans childValid)
    (by rw [node2, enter_type, node1]; exact dir)
    (by rw [recasts.sb]; exact act1.numbered dp (entries1.ref dp ▸ up)) lax.other lax.other
    lax.other lax.other lax.other (fun j i fs3 here => ?_) fun _ k fs3 empty pre recasts3 act3 img3 slots3 => ?_
  · rw [slots] at here
    by_cases zero : j = 0
    · rw [zero, update_self, Option.some.injEq, Prod.mk.injEq] at here
      exact absurd here.1 (by decide)
    · rw [update_of_ne zero] at here
      cases here
  have snd : k = 1 := by
    rw [slots] at pre empty
    have nonzero : k ≠ 0 := by
      rintro rfl
      rw [update_self] at empty
      cases empty
    by_contra later
    exact pre 1 (by omega) (update_of_ne (by decide) _ _)
  subst snd
  rw [holds_onlyIf]
  refine ⟨fun missing => absurd missing (by decide), fun _ => ?_⟩
  refine next fs3 ((fs2.nodeAt ip).enter 1 dotdot (fs1.icache dp).inum)
    (entries2.trans recasts3.entries) act3 ?_ ?_ ?_ ?_
  · rw [img3, entries2.inum, img2, entries1.inum, update_idem, img1]
  · rw [enter_type, node2, enter_type, node1]
  · rw [enter_nlink, node2, enter_nlink, node1]
  · rw [slots3, slots, entries1.inum]
    funext j
    match j with
    | 0 => rfl
    | 1 => rfl
    | j + 2 => rfl

theorem Active.holds_draft {post : Slot → Fs → Prop}
    (held : 0 < (fs.icache dp).ref) (valid : (fs.icache dp).valid = true)
    (directory : IsDir (fs.nodeAt dp).type) (known : BlockType type ∨ PlainType type) (lax : Lenient stops)
    (next : ∀ ip fs' i, (fs.image i).type = 0 → fs.disk.sb.inTable i → Stays fs.refs fs fs' →
      fs'.refs = fs.refs + Pi.single ip 1 → ip ≠ dp → (fs'.icache ip).inum = i →
      0 < (fs'.icache ip).ref → (fs'.icache ip).valid = true →
      Drafted (fs.icache dp).inum i type fs.image fs'.image → Active R fs' → post ip fs') :
    Holds (ialloc ROOTDEV type) fs (fun ip s => Holds (ilock ip) s (fun _ s =>
      Holds (modifyDinode ip fun dinode => { dinode with major, minor, nlink := 1 }) s (fun _ s =>
      Holds (iupdate ip) s (fun _ s =>
      Holds (Prog.onlyIf (type = T_DIR) (createDots dp ip "create dotsz")) s (fun _ s =>
      Holds (Prog.onlyIf (type = T_SDIR) (createDots dp ip "create dots")) s (fun _ => post ip)
        stops) stops) stops) stops) stops) stops := by
  refine act.holds_ialloc known lax.other lax.other lax.other lax.other fun ip fs1 i born act1 => ?_
  have apart : i ≠ (fs.icache dp).inum := by
    rintro rfl
    exact directory.blockType.ne_zero born.free
  have ne : ip ≠ dp := by
    rintro rfl
    exact apart (born.number.symm.trans (born.stays.inum ip held))
  have c1 : fs1.nodeAt ip = .fresh type := by
    rw [nodeAt, born.number, born.image, update_self]
  simp only [holds_modifyDinode]
  refine act1.holds_iupdate born.referenced born.valid rfl rfl rfl
    (fun none => absurd (show (1 : BitVec 16) = 0 from none) (by decide)) lax.other fun fs2 recasts act2 im2 _ => ?_
  have entries := recasts.entries
  have number : (fs2.icache ip).inum = i := (entries.inum ip).trans born.number
  have parent : (fs2.icache dp).inum = (fs.icache dp).inum := by
    rw [entries.inum, born.other dp ne.symm]
  have refs : fs2.refs = fs.refs + Pi.single ip 1 := entries.refs.trans born.refs
  have im : fs2.image = update fs.image i ((fresh type).setNlink 1) := by
    rw [im2, born.number, born.image, update_self, update_idem]
  have node : fs2.nodeAt dp = fs.nodeAt dp := by
    rw [nodeAt, parent, im, update_of_ne apart.symm, nodeAt]
  have c : fs2.nodeAt ip = (fresh type).setNlink 1 := by
    rw [nodeAt, number, im, update_self]
  have stays : Stays fs.refs fs fs2 := born.stays.trans (entries.stays _)
  have parent1 : 0 < (fs2.icache dp).ref := by
    rw [entries.ref, born.other dp ne.symm]
    exact held
  have parent2 : (fs2.icache dp).valid = true := by
    rw [entries.valid, born.other dp ne.symm]
    exact valid
  have c2 : 0 < (fs2.icache ip).ref := (entries.ref ip) ▸ born.referenced
  have c3 : (fs2.icache ip).valid = true := (entries.valid ip).trans born.valid
  -- both directory types get their entries in the same way
  have dotted : IsDir type → ∀ message, Holds (createDots dp ip message) fs2 (fun _ fs3 => post ip fs3) stops := by
    intro dir message
    refine act2.holds_createDots parent1 parent2 (node ▸ directory) c2 c3 (by rw [c]; exact dir)
      (by rw [c]; exact funext (slot_fresh type)) (by rw [number, parent]; exact apart)
      lax fun fs3 made entries3 act3 im3 type3 nlink3 slot3 => ?_
    refine next ip fs3 i born.free born.bound (stays.trans (entries3.stays _))
      (entries3.refs.trans refs) ne ((entries3.inum ip).trans number)
      ((entries3.ref ip) ▸ c2) ((entries3.valid ip).trans c3) ?_ act3
    rw [number, parent, im, node] at im3
    refine ⟨fun j one two => ?_, ?_, ?_, ?_, ?_, fun file => absurd dir file⟩
    · rw [im3, update_of_ne two, update_of_ne one, update_of_ne two]
    · rw [im3, update_of_ne apart.symm, update_self, if_pos dir, nodeAt]
    · rw [im3, update_self, type3, c, setNlink_type, fresh]
    · rw [im3, update_self, nlink3, c, setNlink_nlink]
    · rw [im3, update_self, slot3, number, parent, initialSlots, if_pos dir]
  rw [holds_onlyIf]
  refine ⟨fun dir => ?_, fun notDir => ?_⟩
  · refine (dotted (.inl dir) _).conseq fun _ fs3 done => ?_
    rw [holds_onlyIf]
    exact ⟨fun small => absurd (dir.symm.trans small) (by decide), fun _ => done⟩
  · rw [holds_onlyIf]
    refine ⟨fun small => dotted (.inr small) _, fun notSmall => ?_⟩
    have file : ¬IsDir type := not_or.mpr ⟨notDir, notSmall⟩
    refine next ip fs2 i born.free born.bound stays refs ne number c2 c3 ?_ act2
    refine ⟨fun j _ two => ?_, ?_, ?_, ?_, ?_, fun _ => ?_⟩
    · rw [im, update_of_ne two]
    · rw [im, update_of_ne apart.symm, if_neg file, setNlink_self]
    · rw [im, update_self, setNlink_type, fresh]
    · rw [im, update_self, setNlink_nlink]
    · rw [im, update_self, setNlink_slot, initialSlots, if_neg file]
      exact funext (slot_fresh type)
    · rw [im, update_self]

theorem Active.holds_createIn {name : List UInt8} {post : Slot → Fs → Prop}
    (held : 0 < (fs.icache dp).ref) (valid : (fs.icache dp).valid = true)
    (directory : IsDir (fs.nodeAt dp).type) (known : BlockType type ∨ PlainType type)
    (missing : ∀ j i, (fs.nodeAt dp).slot j ≠ some (cname name, i)) (lax : Lenient stops)
    (next : ∀ ip fs1 fs' k i, fs.disk.sb.inTable i → Stays fs.refs fs fs1 →
      fs1.refs = fs.refs + Pi.single ip 1 → Made (fs.icache dp).inum name type k i fs.image fs1.image →
      Put fs1 fs' dp → ip ≠ dp → (fs'.icache ip).inum = i → 0 < (fs'.icache ip).ref →
      (fs'.icache ip).valid = true → fs'.image i = fs1.image i → Active R fs' → post ip fs') :
    Holds (createIn dp name type major minor) fs post stops := by
  rw [createIn, holds_bind, holds_inode, act.device dp held]
  simp only [holds_bind]
  refine act.holds_draft held valid directory known lax
    fun ip fs1 i free lt stays refs ne number c childValid drafted act1 => ?_
  rw [holds_inode]
  have parent : (fs1.icache dp).inum = (fs.icache dp).inum := stays.inum dp held
  have live : 0 < (fs1.icache dp).ref := by
    have sum := congrFun refs dp
    simp only [Fs.refs, Pi.add_apply, Pi.single_eq_of_ne ne.symm, add_zero] at sum
    omega
  have node : fs1.nodeAt dp = (fs.nodeAt dp).setNlink
      (if IsDir type then (fs.nodeAt dp).nlink + 1 else (fs.nodeAt dp).nlink) := by
    rw [nodeAt, parent, drafted.parent, nodeAt]
  refine act1.holds_dirlink live (stays.valid dp held valid) (by rw [node]; exact directory)
    (by rw [number, stays.sb]; exact lt) lax.other lax.other lax.other
    lax.other lax.other (fun j o fs2 here => ?_) fun _ k fs2 empty _ recasts act2 img2 slots2 => ?_
  · rw [node] at here
    exact absurd here (missing j o)
  rw [if_pos rfl, holds_bind]
  have entries := recasts.entries
  have apart : i ≠ (fs.icache dp).inum := by
    rintro rfl
    exact directory.blockType.ne_zero free
  have made : Made (fs.icache dp).inum name type k i fs.image fs2.image := by
    rw [parent, number] at img2
    have self : fs2.image (fs.icache dp).inum = (fs1.nodeAt dp).enter k name i := by
      rw [img2, update_self]
    have o : ∀ j, j ≠ (fs.icache dp).inum → fs2.image j = fs1.image j := fun j one => by
      rw [img2, update_of_ne one]
    refine ⟨free, directory, missing, by rw [node] at empty; exact empty, fun j one two => ?_, ?_, ?_, ?_, ?_, ?_, ?_,
      fun file => ?_⟩
    · rw [o j one, drafted.other j one two]
    · rw [self, enter_type, node, setNlink_type, nodeAt]
    · rw [self, enter_nlink, node, setNlink_nlink, nodeAt]
    · rw [self, ← number, slots2, node, setNlink_slot, number, nodeAt]
    · rw [o i apart, drafted.kind]
    · rw [o i apart, drafted.nlink]
    · rw [o i apart, drafted.slot]
    · rw [o i apart, drafted.file file]
  refine act2.holds_iunlockput ((entries.valid dp).trans (stays.valid dp held valid))
    lax.other lax.other fun fs3 put act3 => ?_
  rw [holds_pure]
  have eq := put.other ip ne
  have c3 : 0 < (fs3.icache ip).ref := by
    rw [eq, entries.ref]
    exact c
  refine next ip fs2 fs3 k i lt (stays.trans (entries.stays _)) (entries.refs.trans refs) made put ne ?_ c3 ?_ ?_ act3
  · rw [eq, entries.inum, number]
  · rw [eq, entries.valid, childValid]
  · have kept := put.image_other act2.toCoherent c3
    rwa [entries.inum, number] at kept

theorem Active.holds_create {cwd : Slot} {path : List UInt8}
    {post : Option Slot → Fs → Prop} (held : 0 < (fs.icache cwd).ref)
    (known : BlockType type ∨ PlainType type) (lax : Lenient stops) (untyped : stops noType)
    (none : ∀ fs', Active R fs' → Fades fs.refs fs fs' → fs'.refs = fs.refs → post none fs')
    (hit : ∀ ip fs', Walking R fs.refs fs fs' ip → (fs'.icache ip).valid = true →
      reusable type (fs'.nodeAt ip).type = true → post (some ip) fs')
    (made : ∀ ip fs' d name k, Walk fs.image true (fs.origin cwd path) path d name →
      Changes fs.refs (Made d name type k (fs'.icache ip).inum) fs fs' → Active R fs' →
      fs'.refs = fs.refs + Pi.single ip 1 → 0 < (fs'.icache ip).ref → (fs'.icache ip).valid = true →
      (fs'.nodeAt ip).type = type → post (some ip) fs') : Holds (create cwd path type major minor) fs post stops := by
  rw [create, holds_bind, nameiparent]
  refine act.holds_namex true held lax (.inl untyped) (fun fs1 act1 fades refs => ?_)
    fun dp name fs1 walking walk kind _ => ?_
  · exact .pure (none fs1 act1 fades refs)
  obtain ⟨_, dir⟩ := kind rfl
  simp only [holds_bind]
  refine walking.holds_ilock lax (fun _ => untyped) fun fs2 took walking2 => ?_
  have dir2 : IsDir (fs2.nodeAt dp).type := took.nodeAt ▸ dir
  refine walking2.active.holds_dirlookup walking2.referenced took.loaded dir2
    (fun _ => lax.other) (fun _ => lax.other) (fun absent => ?_) fun k i ip fs3 _ got act3 => ?_
  · rw [holds_bind]
    refine walking2.active.holds_createIn walking2.referenced took.loaded dir2 known absent
      lax fun ip fs3 fs4 k i lt stays refs made_ put ne number live valid kept act4 => ?_
    rw [holds_pure]
    have sum : fs3.refs - Pi.single dp 1 = fs.refs + Pi.single ip 1 := by
      rw [refs, walking2.refs]
      abel
    have last : Fades (fs.refs + Pi.single ip 1) fs3 fs4 := sum ▸ put.fades
    refine made ip fs4 (fs1.icache dp).inum name k walk ?_ act4 (put.refs.trans sum) live valid ?_
    · rw [number, ← took.inum]
      exact Changes.mk_of_fades walking2.fades made_ (stays.anti (pos_of_base walking2.refs (single_nonneg dp)))
        (last.anti (pos_of_base rfl (single_nonneg ip)))
    · rw [nodeAt, number, kept, made_.kind]
  · simp only [holds_bind]
    refine act3.holds_iunlockput (got.fades.valid dp walking2.referenced took.loaded)
      lax.other lax.other fun fs4 put act4 => ?_
    obtain ⟨walking4, _⟩ := walking2.next got put act4
    refine walking4.holds_ilock lax (fun _ => untyped) fun fs5 took5 walking5 => ?_
    rw [holds_inode, holds_ite, ← (walking5.active.image_slot walking5.referenced took5.loaded).1]
    refine ⟨fun suits => .pure (hit ip fs5 walking5 took5.loaded suits), fun _ => ?_⟩
    rw [holds_bind]
    exact walking5.holds_iunlockput lax took5.loaded fun fs6 act6 fades refs =>
      .pure (none fs6 act6 fades refs)

end

end

end Xv6

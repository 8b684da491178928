import Xv6.Creation

/-! `link` and `unlink` in sound states, each as one change of the inodes. -/

namespace Xv6

open Exec Node Fs Function

structure Enters (d : Nat) (name : List UInt8) (k i : Nat) (im im' : Nat → Node) : Prop where
  directory : IsDir (im d).type
  absent : ∀ j i', (im d).slot j ≠ some (cname name, i')
  empty : (im d).slot k = none
  other : ∀ j, j ≠ d → im' j = im j
  parentType : (im' d).type = (im d).type
  parentNlink : (im' d).nlink = (im d).nlink
  parentSlot : (im' d).slot = update (im d).slot k (some (cname name, i))

structure Linked (d : Nat) (name : List UInt8) (k i : Nat) (im im' : Nat → Node) : Prop where
  typed : (im i).type ≠ 0
  file : ¬IsDir (im i).type
  directory : IsDir (im d).type
  absent : ∀ j i', (im d).slot j ≠ some (cname name, i')
  empty : (im d).slot k = none
  other : ∀ j, j ≠ d → j ≠ i → im' j = im j
  parentType : (im' d).type = (im d).type
  parentNlink : (im' d).nlink = (im d).nlink
  parentSlot : (im' d).slot = update (im d).slot k (some (cname name, i))
  node : im' i = (im i).setNlink ((im i).nlink + 1)

structure Unlinked (d : Nat) (name : List UInt8) (k i : Nat) (im im' : Nat → Node) : Prop where
  directory : IsDir (im d).type
  finds : (im d).Finds name k i
  notDot : cname name ≠ dot
  notDotdot : cname name ≠ dotdot
  apart : i ≠ d
  typed : (im i).type ≠ 0
  counted : 1 ≤ (im i).nlink.toInt
  empty : IsDir (im i).type → ∀ j, 2 ≤ j → (im i).slot j = none
  other : ∀ j, j ≠ d → j ≠ i → im' j = im j
  parentType : (im' d).type = (im d).type
  parentNlink : (im' d).nlink =
    if IsDir (im i).type then (im d).nlink - 1 else (im d).nlink
  parentSlot : (im' d).slot = update (im d).slot k none
  node : im' i = (im i).setNlink ((im i).nlink - 1)

section

variable {img img' : Nat → Node} {up : Bool} {i d : Nat} {path final : List UInt8}

theorem Walk.congr (walk : Walk img up i path d final)
    (eq : ∀ j, IsDir (img j).type → (img' j).type = (img j).type ∧ (img' j).slot = (img j).slot) :
    Walk img' up i path d final := by
  induction walk with
  | done element fine => exact Walk.done element fine
  | last element dir stop => exact Walk.last element ((eq _ dir).1 ▸ dir) stop
  | next element dir more finds _ ih =>
    rw [Node.Finds, ← (eq _ dir).2] at finds
    exact Walk.next element ((eq _ dir).1 ▸ dir) more finds ih

end

section

variable {R : Rules} {fs : Fs} {cwd ip : Slot} {stops : Stop → Prop}

theorem Active.holds_namei {path : List UInt8} {post : Option Slot → Fs → Prop}
    (act : Active R fs) (held : 0 < (fs.icache cwd).ref) (lax : Lenient stops)
    (closed : stops noType ∨ (fs.image (fs.origin cwd path)).type ≠ 0 ∧
      ∀ im, Faded (fs.spared fs.refs) fs.image im → NoDangling im)
    (none : ∀ fs', Active R fs' → Fades fs.refs fs fs' → fs'.refs = fs.refs → post none fs')
    (hit : ∀ ip name fs', Walking R fs.refs fs fs' ip →
      Walk fs.image false (fs.origin cwd path) path (fs'.icache ip).inum name →
      (stops noType ∨ (fs'.nodeAt ip).type ≠ 0) → post (some ip) fs') :
    Holds (namei cwd path) fs post stops := by
  simp only [namei, holds_bind, holds_pure]
  exact act.holds_namex false held lax closed none
    fun ip name fs' walking walk _ ty => hit ip name fs' walking walk ty

theorem Active.holds_linkInto {new : List UInt8} {post : Bool → Fs → Prop} (act : Active R fs)
    (held : 0 < (fs.icache cwd).ref) (live : 0 < (fs.icache ip).ref) (lax : Lenient stops) (untyped : stops noType)
    (failed : ∀ fs', Active R fs' → Fades fs.refs fs fs' → fs'.refs = fs.refs → post false fs')
    (linked : ∀ fs' d name k, Walk fs.image true (fs.origin cwd new) new d name →
      Changes fs.refs (Enters d name k (fs.icache ip).inum) fs fs' → Active R fs' →
      fs'.refs = fs.refs → post true fs') :
    Holds (linkInto cwd ip new) fs post stops := by
  rw [linkInto, holds_bind, nameiparent]
  refine act.holds_namex true held lax (.inl untyped) (fun fs1 act1 fades refs => ?_)
    fun dp name fs1 walking walk kind _ => ?_
  · exact .pure (failed fs1 act1 fades refs)
  obtain ⟨_, dir⟩ := kind rfl
  simp only [holds_bind]
  refine walking.holds_ilock lax (fun _ => untyped) fun fs2 took walking2 => ?_
  have dir2 : IsDir (fs2.nodeAt dp).type := took.nodeAt ▸ dir
  have live2 : 0 < (fs2.icache ip).ref := pos_of_base walking2.refs (single_nonneg dp) ip live
  have num : (fs2.icache ip).inum = (fs.icache ip).inum := walking2.fades.inum ip live
  rw [holds_inode, holds_inode, walking2.active.device dp walking2.referenced,
    walking2.active.device ip live2, if_neg (not_not.mpr rfl)]
  rw [holds_bind]
  refine walking2.active.holds_dirlink walking2.referenced took.loaded dir2
    (walking2.active.numbered ip live2) lax.other lax.other lax.other lax.other
    lax.other (fun j i fs3 _ idle act3 => ?_)
    fun missing k fs3 empty _ recasts act3 im3 slots3 => ?_
  · have walking3 : Walking R fs.refs fs fs3 dp :=
      ⟨act3, walking2.fades.trans (idle.fades.anti (pos_of_base walking2.refs (single_nonneg dp))),
        idle.refs.trans walking2.refs, by
          rw [idle.entry_of_referenced walking2.referenced]
          exact walking2.referenced⟩
    rw [holds_bind]
    exact walking3.holds_iunlockput lax (idle.fades.valid dp walking2.referenced took.loaded)
      fun fs4 act4 fades refs => .pure (failed fs4 act4 fades refs)
  · have entries := recasts.entries
    rw [holds_bind]
    refine act3.holds_iunlockput ((entries.valid dp).trans took.loaded)
      lax.other lax.other fun fs4 put act4 => ?_
    rw [holds_pure]
    have sum : fs3.refs - Pi.single dp 1 = fs.refs := by
      rw [entries.refs, walking2.refs, add_sub_cancel_right]
    have enters : Enters (fs1.icache dp).inum name k (fs.icache ip).inum fs2.image fs3.image := by
      rw [num, took.inum] at im3
      rw [num] at slots3
      have self : fs3.image (fs1.icache dp).inum = (fs2.nodeAt dp).enter k name (fs.icache ip).inum := by
        rw [im3, update_self]
      have node : fs2.nodeAt dp = fs2.image (fs1.icache dp).inum := by rw [nodeAt, took.inum]
      rw [node] at dir2 missing empty slots3 self
      refine ⟨dir2, missing, empty, fun j one => ?_, ?_, ?_, ?_⟩
      · rw [im3, update_of_ne one]
      · rw [self, enter_type]
      · rw [self, enter_nlink]
      · rw [self, slots3]
    refine linked fs4 (fs1.icache dp).inum name k walk ?_ act4 (put.refs.trans sum)
    exact Changes.mk_of_fades walking2.fades enters (entries.stays _) (sum ▸ put.fades)

theorem Linked.of_enters {d k i : Nat} {name : List UInt8} {im raised pre after : Nat → Node}
    {safe : Nat → Prop} (ty : (im i).type ≠ 0) (file : ¬IsDir (im i).type)
    (bump : raised = update im i ((im i).setNlink ((im i).nlink + 1)))
    (spared : safe i) (faded : Faded safe raised pre) (enters : Enters d name k i pre after) :
    Faded safe im (update pre i (im i)) ∧ Linked d name k i (update pre i (im i)) after := by
  have here : pre i = (im i).setNlink ((im i).nlink + 1) := by
    rw [faded.same_of_spared spared, bump, update_self]
  have apart : i ≠ d := by
    rintro rfl
    have dir := enters.directory
    rw [here] at dir
    exact file dir
  have self : update pre i (im i) d = pre d := update_of_ne apart.symm _ _
  refine ⟨fun j => ?_, ?_, ?_, ?_, ?_, ?_, fun j one two => ?_, ?_, ?_, ?_, ?_⟩
  · by_cases eq : j = i
    · rw [eq, update_self]
      exact .inl rfl
    · have old := faded j
      rw [bump, update_of_ne eq] at old
      rw [update_of_ne eq]
      exact old
  · rwa [update_self]
  · rwa [update_self]
  · rw [self]
    exact enters.directory
  · rw [self]
    exact enters.absent
  · rw [self]
    exact enters.empty
  · rw [enters.other j one, update_of_ne two]
  · rw [self, enters.parentType]
  · rw [self, enters.parentNlink]
  · rw [self, enters.parentSlot]
  · rw [update_self, enters.other i apart, here]

theorem nlink_back (val : BitVec 16) : val + 1 + -1 = val := by
  rw [BitVec.add_assoc]
  simp

theorem Active.relinked {fs' : Fs} (act : Active R fs) (act' : Active R fs')
    (held : 0 < (fs.icache ip).ref) (valid : (fs.icache ip).valid = true)
    (refd' : 0 < (fs'.icache ip).ref) (valid' : (fs'.icache ip).valid = true)
    (sb : fs'.disk.sb = fs.disk.sb) (inum : (fs'.icache ip).inum = (fs.icache ip).inum)
    (block : fs'.disk.block = iupdated fs.disk.sb fs.disk.block (fs.icache ip).inum
      ((fs.icache ip).dinode.setNlink ((fs.icache ip).dinode.nlink + 1))) :
    iupdated fs'.disk.sb fs'.disk.block (fs'.icache ip).inum
      ((fs'.icache ip).dinode.setNlink ((fs'.icache ip).dinode.nlink + -1)) = fs.disk.block := by
  have num := (act.numbered ip held).2
  have pre := (act.loaded ip held valid).1
  have after := (act'.loaded ip refd' valid').1
  rw [table_of_lt num] at pre
  rw [inum, sb, table_of_lt num, block, dinodeAt_iupdated] at after
  rw [inum, sb, block, after, Dinode.setNlink_nlink, nlink_back]
  have back : ((fs.icache ip).dinode.setNlink ((fs.icache ip).dinode.nlink + 1)).setNlink
      (fs.icache ip).dinode.nlink = dinodeAt fs.disk.sb fs.disk.block (fs.icache ip).inum := pre
  rw [back, iupdated_back]

/-- The state from which `link` walks to the new name: the first inode is unlocked again, with its
count raised. -/
structure Raised (R : Rules) (start fs fs' : Fs) (ip : Slot) : Prop where
  walking : Walking R start.refs start fs ip
  loaded : (fs.icache ip).valid = true
  typed : (fs.nodeAt ip).type ≠ 0
  file : ¬IsDir (fs.nodeAt ip).type
  active : Active R fs'
  live : 0 < (fs'.icache ip).ref
  refs : fs'.refs = start.refs + Pi.single ip 1
  stays : Stays start.refs start fs'
  sb : fs'.disk.sb = fs.disk.sb
  inum : (fs'.icache ip).inum = (fs.icache ip).inum
  image : fs'.image = update fs.image (fs.icache ip).inum
    ((fs.nodeAt ip).setNlink ((fs.nodeAt ip).nlink + 1))
  block : fs'.disk.block = iupdated fs.disk.sb fs.disk.block (fs.icache ip).inum
    ((fs.icache ip).dinode.setNlink ((fs.icache ip).dinode.nlink + 1))

section

variable {s0 fs' fs5 fs6 fs7 : Fs} (raised : Raised R s0 fs fs' ip)

include raised

theorem Raised.less (slot : Slot) (counted : 0 < s0.refs slot) : 0 < fs'.refs slot :=
  pos_of_base raised.refs (single_nonneg ip) slot counted

theorem Raised.spared : fs'.spared fs'.refs (fs.icache ip).inum := ⟨ip, raised.live, raised.inum⟩

theorem Raised.widen (i : Nat) (spared : s0.spared s0.refs i) : fs'.spared fs'.refs i := by
  obtain ⟨ip, counted, here⟩ := spared
  exact ⟨ip, raised.less ip counted, (raised.stays.inum ip counted).trans here⟩

theorem Raised.image_other {j : Nat} (o : j ≠ (fs.icache ip).inum) : fs'.image j = fs.image j := by
  rw [raised.image, update_of_ne o]

theorem Raised.directories (j : Nat) (dir : IsDir (fs'.image j).type) :
    (s0.image j).type = (fs'.image j).type ∧ (s0.image j).slot = (fs'.image j).slot := by
  have o : j ≠ (fs.icache ip).inum := by
    rintro rfl
    rw [raised.image, update_self] at dir
    exact raised.file dir
  have old := raised.image_other o
  have faded := raised.walking.fades.image.same_of_typed (old ▸ dir.blockType.ne_zero)
  rw [old, faded]
  exact ⟨rfl, rfl⟩

section

variable (fades : Fades fs'.refs fs' fs5) (refs : fs5.refs = fs'.refs) (took : Took fs5 fs6 ip)
  (entries : SameEntries fs6 fs7) (img : fs7.image = update fs6.image (fs6.icache ip).inum
    ((fs6.nodeAt ip).setNlink ((fs6.nodeAt ip).nlink + -1)))

include fades took

theorem Raised.number : (fs6.icache ip).inum = (fs.icache ip).inum := by
  rw [took.inum, fades.inum ip raised.live, raised.inum]

theorem Raised.bumped : fs6.nodeAt ip = (fs.nodeAt ip).setNlink ((fs.nodeAt ip).nlink + 1) := by
  rw [nodeAt, raised.number fades took, took.image, fades.image.same_of_spared raised.spared, raised.image,
    update_self]

include img

theorem Raised.lowered_same : fs7.image (fs.icache ip).inum = fs.nodeAt ip := by
  rw [img, raised.number fades took, update_self, raised.bumped fades took, setNlink_nlink, setNlink_setNlink, nlink_back, setNlink_self]

theorem Raised.lowered_other {j : Nat} (o : j ≠ (fs.icache ip).inum) : fs7.image j = fs5.image j := by
  rw [img, raised.number fades took, update_of_ne o, took.image]

theorem Raised.lowered_faded : Faded (s0.spared s0.refs) fs.image fs7.image := by
  intro j
  by_cases here : j = (fs.icache ip).inum
  · exact .inl (here ▸ raised.lowered_same fades took img)
  · have old := (fades.image.anti raised.widen) j
    rwa [← raised.lowered_other fades took img here, raised.image_other here] at old

include refs entries

theorem Raised.lowered (act6 : Active R fs6) (act : Active R fs7)
    (block : fs7.disk.block = iupdated fs6.disk.sb fs6.disk.block (fs6.icache ip).inum
      ((fs6.icache ip).dinode.setNlink ((fs6.icache ip).dinode.nlink + -1))) :
    Walking R s0.refs s0 fs7 ip := by
  have live6 : 0 < (fs6.icache ip).ref :=
    took.ref ▸ raised.live.trans_eq (congrFun refs ip).symm
  have faded := raised.lowered_faded fades took img
  have stays : Stays s0.refs s0 fs7 :=
    ((raised.stays.trans (fades.toStays.anti raised.less)).trans (took.fades _).toStays).trans (entries.stays _)
  have fst := raised.walking.fades
  refine ⟨act, ⟨stays, fst.image.trans faded, fun back => ?_⟩, ?_, entries.ref ip ▸ live6⟩
  · have middle := fst.image.between faded back
    have still : fs5.image = fs'.image := by
      funext j
      by_cases here : j = (fs.icache ip).inum
      · exact here ▸ fades.image.same_of_spared raised.spared
      · rw [← raised.lowered_other fades took img here, congrFun (back.trans middle.symm) j, raised.image_other here]
    have block6 : fs6.disk.block = fs'.disk.block := by rw [took.disk, fades.same still]
    rw [block, raised.walking.active.relinked act6 raised.walking.referenced raised.loaded live6
      took.loaded (by rw [took.disk, fades.sb, raised.sb]) (raised.number fades took)
      (block6.trans raised.block), fst.same middle]
  · rw [entries.refs, took.refs, refs, raised.refs]

end

theorem Raised.linked {d k : Nat} {name : List UInt8} (refs : fs5.refs = fs'.refs)
    (changes : Changes fs'.refs (Enters d name k (fs'.icache ip).inum) fs' fs5) (put : Put fs5 fs6 ip) :
    Changes s0.refs (Linked d name k (fs.icache ip).inum) s0 fs6 ∧ fs6.refs = s0.refs := by
  have sum : fs5.refs - Pi.single ip 1 = s0.refs := by
    rw [refs, raised.refs, add_sub_cancel_right]
  have last : Fades s0.refs fs5 fs6 := sum ▸ put.fades
  have stays : Stays s0.refs s0 fs5 := raised.stays.trans (changes.toStays.anti raised.less)
  obtain ⟨pre, after, first, enters, snd⟩ := changes.images
  rw [raised.inum] at enters
  obtain ⟨faded, linked⟩ := Linked.of_enters raised.typed raised.file raised.image raised.spared first enters
  exact ⟨⟨stays.trans last.toStays, _, after, raised.walking.fades.image.trans (faded.anti raised.widen),
    linked, (snd.anti raised.widen).trans (last.image.anti fun _ => stays.spared.mpr)⟩, put.refs.trans sum⟩

end

theorem Active.holds_link {old new : List UInt8} {post : Int → Fs → Prop} (active : Active R fs)
    (held : 0 < (fs.icache cwd).ref) (lax : Lenient stops) (untyped : stops noType)
    (bare : ∀ i, (fs.image i).type ≠ 0 → (fs.image i).nlink + 1 = 0 → (fs.image i).Bare)
    (failed : ∀ fs', Active R fs' → Fades fs.refs fs fs' → fs'.refs = fs.refs → post (-1) fs')
    (linked : ∀ fs' i last d name k, Walk fs.image false (fs.origin cwd old) old i last →
      Walk fs.image true (fs.origin cwd new) new d name →
      Changes fs.refs (Linked d name k i) fs fs' → Active R fs' → fs'.refs = fs.refs → post 0 fs') :
    Holds (link cwd old new) fs post stops := by
  rw [link, holds_bind]
  refine active.holds_namei held lax (.inl untyped) (fun fs1 active1 fades refs => ?_)
    fun ip last fs1 walking walk _ => ?_
  · exact .pure (failed fs1 active1 fades refs)
  simp only [holds_bind]
  refine walking.holds_ilock lax (fun _ => untyped) fun fs2 took walking2 => ?_
  have type2 := (walking2.active.image_slot walking2.referenced took.loaded).1
  rw [holds_inode, holds_ite, ← type2]
  refine ⟨fun _ => ?_, fun file => ?_⟩
  · rw [holds_bind]
    exact walking2.holds_iunlockput lax took.loaded fun fs3 active3 fades refs =>
      .pure (failed fs3 active3 fades refs)
  simp only [holds_bind]
  have typed : (fs2.nodeAt ip).type ≠ 0 := took.nodeAt ▸ took.typed
  have same : fs2.nodeAt ip = fs.image (fs2.icache ip).inum := walking2.fades.image.same_of_typed typed
  refine walking2.active.holds_addNlink walking2.referenced took.loaded
    (fun wraps => same ▸ bare _ (same ▸ typed) (same ▸ wraps)) lax.other fun fs3 entries3 active3 im3 block3 => ?_
  refine active3.toSound.holds_iunlock lax.other fun fs4 touched4 live3 sound4 => ?_
  have raised : Raised R fs fs2 fs4 ip :=
    { walking := walking2
      loaded := took.loaded
      typed := typed
      file := file
      active := ⟨sound4, touched4.disk ▸ active3.opened⟩
      live := touched4.ref ▸ live3
      refs := by rw [touched4.refs, entries3.refs, walking2.refs]
      stays := (walking2.fades.toStays.trans (entries3.stays _)).trans (touched4.fades _).toStays
      sb := by rw [touched4.disk, entries3.sb]
      inum := by rw [touched4.inum, entries3.inum]
      image := by rw [touched4.image, im3]
      block := by rw [touched4.disk, block3] }
  refine raised.active.holds_linkInto (raised.less cwd held) raised.live lax untyped
    (fun fs5 active5 fades5 refs5 => ?_) fun fs5 d name k walk5 changes active5 refs5 => ?_
  · -- the link is taken back
    rw [if_neg (by decide), holds_bind]
    have live5 : 0 < (fs5.icache ip).ref := raised.live.trans_eq (congrFun refs5 ip).symm
    refine active5.toSound.holds_ilock live5 (fun _ => lax.other) (fun _ => untyped) fun fs6 took6 sound6 => ?_
    have active6 : Active R fs6 := ⟨sound6, took6.disk ▸ active5.opened⟩
    rw [holds_bind]
    have bumped := raised.bumped fades5 took6
    refine active6.holds_addNlink (took6.ref ▸ live5) took6.loaded (fun none => ?_) lax.other
      fun fs7 entries7 active7 im7 block7 => ?_
    · rw [bumped, setNlink_nlink, nlink_back] at none
      rw [bumped]
      exact walking2.active.bare typed (.inl none)
    rw [holds_bind]
    have walking7 := raised.lowered fades5 refs5 took6 entries7 im7 active6 active7 block7
    exact walking7.holds_iunlockput lax ((entries7.valid ip).trans took6.loaded)
      fun fs8 active8 fades refs => .pure (failed fs8 active8 fades refs)
  · rw [if_pos rfl, holds_bind]
    have live5 : 0 < (fs5.icache ip).ref := raised.live.trans_eq (congrFun refs5 ip).symm
    refine active5.holds_iput live5 lax.other fun fs6 put active6 => ?_
    rw [holds_pure]
    obtain ⟨changed, refs⟩ := raised.linked refs5 changes put
    have origin : fs4.origin cwd new = fs.origin cwd new := by
      rw [Fs.origin, Fs.origin, raised.stays.inum cwd held]
    rw [origin] at walk5
    exact linked fs6 (fs1.icache ip).inum last d name k walk (walk5.congr raised.directories)
      (took.inum ▸ changed) active6 refs

end

section

variable {R : Rules} {fs : Fs} {cwd dp ip : Slot} {stops : Stop → Prop}

theorem holds_isdirempty {post : Bool → Fs → Prop} (op : OpenDir fs dp)
    (short : stops (.panic "isdirempty: readi")) (full : post false fs)
    (empty : (∀ j, 2 ≤ j → (fs.nodeAt dp).slot j = none) → post true fs)
    (fuel k : Nat) (enough : (fs.nodeAt dp).size.toNat ≤ deSize * (k + fuel))
    (pre : ∀ j, 2 ≤ j → j < k → (fs.nodeAt dp).slot j = none) :
    Holds (isdirempty dp fuel (deSize * k)) fs post stops := by
  have done : ∀ k, (fs.nodeAt dp).size.toNat ≤ deSize * k →
      (∀ j, 2 ≤ j → j < k → (fs.nodeAt dp).slot j = none) → post true fs := by
    intro k past pre
    refine empty fun j low => ?_
    by_cases early : j < k
    · exact pre j low early
    · refine slot_beyond ?_
      simp only [deSize] at *
      omega
  induction fuel generalizing k with
  | zero =>
    rw [isdirempty, holds_pure]
    exact done k enough pre
  | succ fuel ih =>
    rw [isdirempty, holds_bind, holds_inode, holds_ite, ← op.size]
    refine ⟨fun inside => ?_, fun past => ?_⟩
    · rw [holds_bind]
      refine holds_readDirent op inside (fun _ => short) fun whole => ?_
      have next : deSize * k + deSize = deSize * (k + 1) := by
        simp only [deSize]
        omega
      rw [holds_ite, holds_pure]
      refine ⟨fun _ => full, fun free => ?_⟩
      rw [not_not] at free
      rw [next]
      refine ih (k + 1) (by rwa [Nat.add_right_comm, Nat.add_assoc]) fun j low early => ?_
      rcases Nat.lt_succ_iff_lt_or_eq.mp early with less | rfl
      · exact pre j low less
      · rw [slot_of_dirent whole, if_pos free]
    · rw [holds_pure]
      exact done k (by omega) pre

theorem Active.holds_removable {post : Bool → Fs → Prop} (act : Active R fs)
    (held : 0 < (fs.icache ip).ref) (valid : (fs.icache ip).valid = true)
    (lax : Lenient stops) (low : (fs.nodeAt ip).nlink.toInt < 1 → stops noLinks) (refused : post false fs)
    (ok : 1 ≤ (fs.nodeAt ip).nlink.toInt →
      (IsDir (fs.nodeAt ip).type → ∀ j, 2 ≤ j → (fs.nodeAt ip).slot j = none) → post true fs) :
    Holds (removable ip) fs post stops := by
  obtain ⟨type, nlink, size⟩ := act.image_slot held valid
  rw [removable, holds_bind, holds_inode, holds_ite, holds_ite, holds_panic, ← type, ← nlink, ← size]
  refine ⟨low, fun enough => ⟨fun dir => ?_, fun file => ?_⟩⟩
  · refine holds_isdirempty (act.openDir held valid dir)
      lax.other refused (fun empty => ok (not_lt.mp enough) fun _ => empty) _ 2 ?_
      fun j one two => by omega
    rw [nodeAt]
    simp only [deSize]
    omega
  · exact .pure (ok (not_lt.mp enough) fun dir => absurd dir file)

/-- The inode that loses its last link with this path holds no data of its own. -/
def Fs.LastBare (fs : Fs) (cwd : Slot) (path : List UInt8) : Prop :=
  ∀ d name k i, Walk fs.image true (fs.origin cwd path) path d name → (fs.image d).Finds name k i →
    (fs.image i).type ≠ 0 → (fs.image i).nlink = 1 → (fs.image i).Bare

theorem Fs.LastBare.alike {path : List UInt8} {disk : Disk} (bare : fs.LastBare cwd path) (alike : fs.disk.Alike disk) :
    (fs.setDisk disk).LastBare cwd path := by
  rw [Fs.LastBare, image_alike alike]
  exact bare

theorem Sound.lastBare {path : List UInt8} (sound : Sound R fs) (blank : R.blank) : fs.LastBare cwd path :=
  fun _ _ _ _ _ _ ty _ => sound.bare ty (.inr blank)

/-- The image after an entry is cleared and both counts are lowered, before an inode is freed. -/
def unlinkedImage (im : Nat → Node) (d k i : Nat) : Nat → Node :=
  update (update im d (((im d).clear k).setNlink
    (if IsDir (im i).type then (im d).nlink - 1 else (im d).nlink))) i
    ((im i).setNlink ((im i).nlink - 1))

theorem unlinked_unlinkedImage {im : Nat → Node} {d k i : Nat} {name : List UInt8}
    (dir : IsDir (im d).type) (finds : (im d).Finds name k i) (notDot : cname name ≠ dot)
    (notDotdot : cname name ≠ dotdot) (apart : i ≠ d) (typed : (im i).type ≠ 0)
    (counted : 1 ≤ (im i).nlink.toInt) (empty : IsDir (im i).type → ∀ j, 2 ≤ j → (im i).slot j = none)
    (slots : ((im d).clear k).slot = update (im d).slot k none) :
    Unlinked d name k i im (unlinkedImage im d k i) := by
  have self : unlinkedImage im d k i d = ((im d).clear k).setNlink
      (if IsDir (im i).type then (im d).nlink - 1 else (im d).nlink) := by
    rw [unlinkedImage, update_of_ne apart.symm, update_self]
  refine ⟨dir, finds, notDot, notDotdot, apart, typed, counted, empty, fun j one two => ?_, ?_, ?_, ?_, ?_⟩
  · rw [unlinkedImage, update_of_ne two, update_of_ne one]
  · rw [self, setNlink_type, clear_type]
  · rw [self, setNlink_nlink]
  · rw [self, setNlink_slot, slots]
  · rw [unlinkedImage, update_self]

theorem Active.holds_unlinkAt {base : Slot → Int} {name : List UInt8} {k : Nat} {post : Unit → Fs → Prop}
    (act : Active R fs) (refs : fs.refs = base + Pi.single dp 1 + Pi.single ip 1)
    (nonneg : 0 ≤ base dp ∧ 0 ≤ base ip)
    (parentValid : (fs.icache dp).valid = true) (childValid : (fs.icache ip).valid = true)
    (ne : ip ≠ dp) (directory : IsDir (fs.nodeAt dp).type)
    (finds : (fs.nodeAt dp).Finds name k (fs.icache ip).inum) (notDot : cname name ≠ dot)
    (notDotdot : cname name ≠ dotdot) (counted : 1 ≤ (fs.nodeAt ip).nlink.toInt)
    (empty : IsDir (fs.nodeAt ip).type → ∀ j, 2 ≤ j → (fs.nodeAt ip).slot j = none)
    (bare : (fs.nodeAt ip).nlink = 1 → (fs.nodeAt ip).Bare) (lax : Lenient stops)
    (next : ∀ fs', Changes base (Unlinked (fs.icache dp).inum name k (fs.icache ip).inum) fs fs' →
      Active R fs' → fs'.refs = base → post () fs') :
    Holds (unlinkAt dp ip (deSize * k)) fs post stops := by
  have counts := congrFun refs
  have up : 0 < (fs.icache dp).ref := by
    have sum := counts dp
    simp only [Fs.refs, Pi.add_apply, Pi.single_eq_same, Pi.single_eq_of_ne ne.symm] at sum
    omega
  have c : 0 < (fs.icache ip).ref := by
    have sum := counts ip
    simp only [Fs.refs, Pi.add_apply, Pi.single_eq_same, Pi.single_eq_of_ne ne] at sum
    omega
  have apart : (fs.icache ip).inum ≠ (fs.icache dp).inum := fun clash =>
    ne (act.unique ip dp c up clash)
  have ty : (fs.nodeAt ip).type ≠ 0 := by
    rw [nodeAt, (act.image_slot c childValid).1]
    exact (act.loaded ip c childValid).2
  rw [unlinkAt, holds_bind]
  simp only [holds_ite, holds_panic]
  refine act.holds_clear up parentValid directory finds.1 lax.other lax.other lax.other
    fun fs1 recasts act1 im1 slots1 => ?_
  have entries1 := recasts.entries
  have c1 : fs1.nodeAt ip = fs.nodeAt ip := by
    rw [nodeAt, entries1.inum, im1, update_of_ne apart, nodeAt]
  have live1 : 0 < (fs1.icache ip).ref := (entries1.ref ip) ▸ c
  have type1 := (act1.image_slot live1 ((entries1.valid ip).trans childValid)).1
  -- the directory after its entry is cleared and its link count lowered
  have lowered : ∀ post' : Unit → Fs → Prop, (∀ fs2, SameEntries fs fs2 → Active R fs2 →
        fs2.image = update fs.image (fs.icache dp).inum (((fs.nodeAt dp).clear k).setNlink
          (if IsDir (fs.nodeAt ip).type then (fs.nodeAt dp).nlink - 1 else (fs.nodeAt dp).nlink)) → post' () fs2) →
      Holds (Prog.onlyIf ((fs1.icache ip).dinode.type = T_DIR ∨ (fs1.icache ip).dinode.type = T_SDIR)
        (addNlink dp (-1))) fs1 post' stops := by
    intro post' rest
    have self : fs1.nodeAt dp = (fs.nodeAt dp).clear k := by
      rw [nodeAt, entries1.inum, im1, update_self]
    rw [holds_onlyIf, ← type1]
    have kind : fs1.image (fs1.icache ip).inum = fs.nodeAt ip := c1
    rw [kind]
    refine ⟨fun (dir : IsDir (fs.nodeAt ip).type) => ?_,
      fun (file : ¬IsDir (fs.nodeAt ip).type) => rest fs1 entries1 act1 ?_⟩
    · refine act1.holds_addNlink ((entries1.ref dp) ▸ up) ((entries1.valid dp).trans parentValid)
        (fun _ file => absurd (self ▸ directory.blockType) file) lax.other fun fs2 entries2 act2 im2 _ => ?_
      refine rest fs2 (entries1.trans entries2) act2 ?_
      rw [im2, entries1.inum, im1, update_idem, self, clear_nlink, if_pos dir, BitVec.sub_eq_add_neg]
    · rw [im1, if_neg file]
      rfl
  rw [holds_bind, holds_inode, holds_bind]
  refine lowered _ fun fs2 entries2 act2 im2 => ?_
  rw [holds_bind]
  refine act2.holds_iunlockput ((entries2.valid dp).trans parentValid)
    lax.other lax.other fun fs3 put3 act3 => ?_
  have sum3 : fs2.refs - Pi.single dp 1 = base + Pi.single ip 1 := by
    rw [entries2.refs, refs]
    abel
  have eq3 := put3.other ip ne
  have c3 : 0 < (fs3.icache ip).ref := by
    rw [eq3, entries2.ref]
    exact c
  have num3 : (fs3.icache ip).inum = (fs.icache ip).inum := by rw [eq3, entries2.inum]
  have node2 : fs2.image (fs.icache ip).inum = fs.nodeAt ip := by
    rw [im2, update_of_ne apart, nodeAt]
  have node3 : fs3.image (fs.icache ip).inum = fs.nodeAt ip := by
    have kept := put3.image_other act2.toCoherent c3
    rw [entries2.inum] at kept
    rw [kept, node2]
  rw [holds_bind]
  refine act3.holds_addNlink c3 (by rw [eq3, entries2.valid]; exact childValid) (fun none => ?_)
    lax.other fun fs4 entries4 act4 im4 _ => ?_
  · rw [nodeAt, num3, node3, ← BitVec.sub_eq_add_neg] at none
    rw [nodeAt, num3, node3]
    exact bare (BitVec.sub_eq_iff_eq_add.mp none)
  refine act4.holds_iunlockput (by rw [entries4.valid, eq3, entries2.valid]; exact childValid)
    lax.other lax.other fun fs5 put5 act5 => ?_
  have sum5 : fs4.refs - Pi.single ip 1 = base := by
    rw [entries4.refs, put3.refs, sum3, add_sub_cancel_right]
  have fades3 : Fades base fs2 fs3 :=
    (sum3 ▸ put3.fades : Fades (base + Pi.single ip 1) fs2 fs3).anti (pos_of_base rfl (single_nonneg ip))
  have fades5 : Fades base fs4 fs5 := sum5 ▸ put5.fades
  have stays4 : Stays base fs fs4 :=
    ((entries2.stays _).trans fades3.toStays).trans (entries4.stays _)
  have unlinked := unlinked_unlinkedImage directory finds notDot notDotdot apart ty counted empty slots1
  have faded : Faded (fs.spared base) (unlinkedImage fs.image (fs.icache dp).inum k (fs.icache ip).inum)
      fs4.image := by
    intro j
    rw [im4, num3, unlinkedImage]
    by_cases here : j = (fs.icache ip).inum
    · left
      rw [here, update_self, update_self, nodeAt, num3, node3, BitVec.sub_eq_add_neg]
      rfl
    · have old := (fades3.image.anti fun _ => (entries2.stays base).spared.mpr) j
      rw [im2] at old
      rwa [update_of_ne here, update_of_ne here]
  exact next fs5 ⟨stays4.trans fades5.toStays, fs.image, _, Faded.refl, unlinked,
    faded.trans (fades5.image.anti fun _ => stays4.spared.mpr)⟩ act5 (put5.refs.trans sum5)

theorem Active.holds_unlink {path : List UInt8} {post : Int → Fs → Prop} (act : Active R fs)
    (held : 0 < (fs.icache cwd).ref) (lax : Lenient stops) (untyped : stops noType)
    (bare : fs.LastBare cwd path)
    (low : ∀ im d name k i, Faded (fs.spared fs.refs) fs.image im →
      Walk fs.image true (fs.origin cwd path) path d name → IsDir (im d).type →
      (im d).Finds name k i → cname name ≠ dot → cname name ≠ dotdot → (im i).type ≠ 0 →
      (im i).nlink.toInt < 1 → stops noLinks)
    (failed : ∀ fs', Active R fs' → Fades fs.refs fs fs' → fs'.refs = fs.refs → post (-1) fs')
    (cut : ∀ fs' d name k i, Walk fs.image true (fs.origin cwd path) path d name →
      Changes fs.refs (Unlinked d name k i) fs fs' → Active R fs' → fs'.refs = fs.refs → post 0 fs') :
    Holds (unlink cwd path) fs post stops := by
  rw [unlink, holds_bind, nameiparent]
  refine act.holds_namex true held lax (.inl untyped) (fun fs1 act1 fades refs => ?_)
    fun dp name fs1 walking walk kind _ => ?_
  · exact .pure (failed fs1 act1 fades refs)
  obtain ⟨_, dir⟩ := kind rfl
  simp only [holds_bind]
  refine walking.holds_ilock lax (fun _ => untyped) fun fs2 took walking2 => ?_
  have dir2 : IsDir (fs2.nodeAt dp).type := took.nodeAt ▸ dir
  have giveUp : Holds (iunlockput dp) fs2 (fun _ => post (-1)) stops :=
    walking2.holds_iunlockput lax took.loaded failed
  rw [holds_ite]
  refine ⟨fun _ => ?_, fun named => ?_⟩
  · exact giveUp.bind fun _ _ => .pure
  simp only [namecmp_eq_zero, not_or] at named
  rw [holds_bind]
  refine walking2.active.holds_dirlookup walking2.referenced took.loaded dir2
    (fun _ => lax.other) (fun _ => lax.other) (fun _ => ?_) fun k i ip fs3 finds got act3 => ?_
  · simp only [holds_bind]
    exact giveUp.conseq fun _ _ => .pure
  simp only [holds_bind]
  refine act3.toSound.holds_ilock got.referenced (fun _ => lax.other)
    (fun _ => untyped) fun fs4 took4 sound4 => ?_
  have act4 : Active R fs4 := ⟨sound4, took4.disk ▸ act3.opened⟩
  -- the directory is locked, so a victim that can be locked is another inode
  have ne : ip ≠ dp := by
    rintro rfl
    have unlocked := took4.unlocked
    rw [got.cached walking2.referenced, Inode.setRef_locked, took.locked] at unlocked
    cases unlocked
  have up4 : fs4.icache dp = fs2.icache dp := by
    rw [took4.other dp ne.symm, got.other dp ne.symm]
  have im4 : fs4.image = fs2.image := took4.image.trans got.image
  have num4 : (fs4.icache ip).inum = i := took4.inum.trans got.number
  have live4 : 0 < (fs4.icache ip).ref := took4.ref ▸ got.referenced
  have refs4 : fs4.refs = fs.refs + Pi.single dp 1 + Pi.single ip 1 := by
    rw [took4.refs, got.refs, walking2.refs]
  have node4 : fs4.nodeAt dp = fs2.nodeAt dp := by
    rw [nodeAt, up4, im4, nodeAt]
  have fades4 : Fades fs.refs fs fs4 := by
    have first := got.fades.anti (pos_of_base walking2.refs (single_nonneg dp))
    exact (walking2.fades.trans first).trans (took4.fades _)
  have victim : fs4.nodeAt ip = fs4.image i := by rw [nodeAt, num4]
  have ty : (fs4.image i).type ≠ 0 := by
    rw [took4.image, ← got.number]
    exact took4.typed
  refine act4.holds_removable live4 took4.loaded lax (fun few => ?_) ?_ fun enough empty => ?_
  · refine low fs4.image (fs2.icache dp).inum name k i fades4.image (took.inum ▸ walk) ?_ ?_ named.1
      named.2 ty (victim ▸ few)
    · rw [im4]
      exact dir2
    · rw [im4]
      exact finds
  · rw [if_neg (by decide), holds_bind]
    refine act4.holds_iunlockput took4.loaded lax.other lax.other fun fs5 put5 act5 => ?_
    have sum5 : fs4.refs - Pi.single ip 1 = fs.refs + Pi.single dp 1 := by
      rw [refs4, add_sub_cancel_right]
    have up5 : fs5.icache dp = fs2.icache dp := (put5.other dp ne.symm).trans up4
    have walking5 : Walking R fs.refs fs fs5 dp := by
      refine ⟨act5, fades4.trans ?_, put5.refs.trans sum5, up5 ▸ walking2.referenced⟩
      exact (sum5 ▸ put5.fades : Fades (fs.refs + Pi.single dp 1) fs4 fs5).anti (pos_of_base rfl (single_nonneg dp))
    rw [holds_bind]
    exact walking5.holds_iunlockput lax (up5 ▸ took.loaded) fun fs6 act6 fades refs =>
      .pure (failed fs6 act6 fades refs)
  · rw [if_pos rfl, holds_bind]
    have nonneg : 0 ≤ fs.refs dp ∧ 0 ≤ fs.refs ip := by
      have one := congrFun walking2.refs dp
      have two := congrFun got.refs ip
      have three := congrFun walking2.refs ip
      have four := walking2.referenced
      have five := got.referenced
      simp only [Fs.refs, Pi.add_apply, Pi.single_eq_same, Pi.single_eq_of_ne ne] at *
      omega
    refine act4.holds_unlinkAt refs4 nonneg (up4 ▸ took.loaded) took4.loaded ne
      (node4 ▸ dir2) (by rw [node4, num4]; exact finds) named.1 named.2 enough empty (fun one => ?_) lax
      fun fs5 changes act5 refs5 => ?_
    · have parent : fs2.nodeAt dp = fs.image (fs1.icache dp).inum :=
        took.nodeAt.trans (walking.fades.image.same_of_typed dir.blockType.ne_zero)
      have same := fades4.image.same_of_typed ty
      rw [victim, same] at one ⊢
      exact bare _ name k i walk (parent ▸ finds) (same ▸ ty) one
    rw [holds_pure]
    rw [num4, up4, took.inum] at changes
    obtain ⟨before, after, first, change, last⟩ := changes.images
    exact cut fs5 (fs1.icache dp).inum name k i walk ⟨fades4.toStays.trans changes.toStays, before,
      after, fades4.image.trans (first.anti fun _ => fades4.spared.mpr), change,
      last.anti fun _ => fades4.spared.mpr⟩ act5 refs5

end

end Xv6

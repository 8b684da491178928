import Xv6.Directory

/-! Sound states: a well-formed disk under a coherent cache, with what the operations on inodes
do to the inodes as a whole. References held by others keep an inode from being freed. -/

namespace Xv6

open Exec Function Fs Inode

variable {safe' : Nat → Prop} {im'' : Nat → Node} {node : Node} {post : Unit → Fs → Prop}

def Node.gone : Node := ⟨0, 0, 0, fun _ => 0⟩

def Node.fresh (type : BitVec 16) : Node := ⟨type, 0, 0, fun _ => 0⟩

@[simps type size byte] def Node.setNlink (node : Node) (nlink : BitVec 16) : Node := { node with nlink }

instance (type : BitVec 16) : Decidable (IsDir type) := inferInstanceAs (Decidable (_ ∨ _))

def PlainType (type : BitVec 16) : Prop := type = T_DEV ∨ type = T_SFILE

instance (type : BitVec 16) : Decidable (PlainType type) := inferInstanceAs (Decidable (_ ∨ _))

/-- What more may be known of a state: an inode without links is allocated only while the cache refers to
it, and no small file holds data. -/
structure Rules where
  kept : Prop
  blank : Prop

variable {R : Rules}

/-- Nothing stands where other inodes have their block numbers. -/
def Node.Bare (node : Node) : Prop := ¬BlockType node.type → node.byte = fun _ => 0

structure Tidy (blank : Prop) (im : Nat → Node) (ninodes : Nat) : Prop where
  plain : ∀ i, (im i).type ≠ 0 → ¬BlockType (im i).type →
    PlainType (im i).type ∧ ((im i).nlink = 0 ∨ blank → (im i).byte = fun _ => 0)
  named : ∀ d k name i, IsDir (im d).type → (im d).slot k = some (name, i) → i < ninodes

def Superblock.inTable (sb : Superblock) (inum : Nat) : Prop := 0 < inum ∧ inum < sb.ninodes

instance (sb : Superblock) (inum : Nat) : Decidable (sb.inTable inum) := inferInstanceAs (Decidable (_ ∧ _))

structure Sound (R : Rules) (fs : Fs) : Prop extends Coherent fs where
  well : WellFormed fs
  tidy : Tidy R.blank fs.image fs.disk.sb.ninodes
  numbered : ∀ slot, 0 < (fs.icache slot).ref → fs.disk.sb.inTable (fs.icache slot).inum
  rooted : ROOTINO < fs.disk.sb.ninodes
  narrow : fs.disk.sb.ninodes ≤ 2 ^ 16
  kept : R.kept → ∀ i, (fs.image i).type ≠ 0 → (fs.image i).nlink = 0 →
    ∃ slot, 0 < (fs.icache slot).ref ∧ (fs.icache slot).valid = true ∧ (fs.icache slot).inum = i

structure Active (R : Rules) (fs : Fs) : Prop extends Sound R fs where
  opened : 0 < fs.disk.log.outstanding

def Faded (spared : Nat → Prop) (im im' : Nat → Node) : Prop :=
  ∀ i, im' i = im i ∨ (im i).type ≠ 0 ∧ (im i).nlink = 0 ∧ im' i = .gone ∧ ¬spared i

def Fs.spared (fs : Fs) (base : Slot → Int) (i : Nat) : Prop :=
  ∃ slot, 0 < base slot ∧ (fs.icache slot).inum = i

structure Stays (base : Slot → Int) (fs fs' : Fs) : Prop where
  sb : fs'.disk.sb = fs.disk.sb
  fssize : fs'.disk.fssize = fs.disk.fssize
  outstanding : fs'.disk.log.outstanding = fs.disk.log.outstanding
  inum : ∀ slot, 0 < base slot → (fs'.icache slot).inum = (fs.icache slot).inum
  valid : ∀ slot, 0 < base slot → (fs.icache slot).valid = true → (fs'.icache slot).valid = true

structure Fades (base : Slot → Int) (fs fs' : Fs) : Prop extends Stays base fs fs' where
  image : Faded (fs.spared base) fs.image fs'.image
  same : fs'.image = fs.image → fs'.disk.block = fs.disk.block

section

variable {fs fs' fs'' : Fs} {base base' : Slot → Int} {safe : Nat → Prop} {im im' : Nat → Node} {i : Nat}

theorem Faded.refl : Faded safe im im := fun _ => .inl rfl

theorem Faded.same_of_typed (faded : Faded safe im im') (ty : (im' i).type ≠ 0) : im' i = im i := by
  rcases faded i with eq | ⟨_, _, gone, _⟩
  · exact eq
  · rw [gone] at ty
    exact absurd rfl ty

theorem Faded.same_of_spared (faded : Faded safe im im') (spared : safe i) : im' i = im i :=
  (faded i).resolve_right fun freed => freed.2.2.2 spared

theorem Stays.refl (base : Slot → Int) (fs : Fs) : Stays base fs fs :=
  ⟨rfl, rfl, rfl, fun _ _ => rfl, fun _ _ => id⟩

theorem Stays.trans (fst : Stays base fs fs') (snd : Stays base fs' fs'') : Stays base fs fs'' :=
  ⟨snd.sb.trans fst.sb, snd.fssize.trans fst.fssize, snd.outstanding.trans fst.outstanding,
    fun slot cnt => (snd.inum slot cnt).trans (fst.inum slot cnt),
    fun slot cnt valid => snd.valid slot cnt (fst.valid slot cnt valid)⟩

theorem Stays.anti (stays : Stays base fs fs') (less : ∀ slot, 0 < base' slot → 0 < base slot) : Stays base' fs fs' :=
  ⟨stays.sb, stays.fssize, stays.outstanding, fun slot cnt => stays.inum slot (less slot cnt),
    fun slot cnt => stays.valid slot (less slot cnt)⟩

theorem Stays.spared (stays : Stays base fs fs') : fs'.spared base i ↔ fs.spared base i := by
  constructor
  · rintro ⟨slot, cnt, num⟩
    exact ⟨slot, cnt, (stays.inum slot cnt) ▸ num⟩
  · rintro ⟨slot, cnt, num⟩
    exact ⟨slot, cnt, (stays.inum slot cnt).trans num⟩

theorem Fades.refl (base : Slot → Int) (fs : Fs) : Fades base fs fs :=
  ⟨Stays.refl base fs, Faded.refl, fun _ => rfl⟩

theorem Faded.anti (faded : Faded safe im im') (less : ∀ i, safe' i → safe i) : Faded safe' im im' := fun i =>
  (faded i).imp id fun freed => ⟨freed.1, freed.2.1, freed.2.2.1, fun spared => freed.2.2.2 (less i spared)⟩

theorem Faded.trans (fst : Faded safe im im') (snd : Faded safe im' im'') : Faded safe im im'' := by
  intro i
  rcases snd i with eq | ⟨ty, unlinked, gone, free⟩
  · rw [eq]
    exact fst i
  · have pre := fst.same_of_typed ty
    rw [pre] at ty unlinked
    exact .inr ⟨ty, unlinked, gone, free⟩

theorem Faded.between  (fst : Faded safe im im') (snd : Faded safe' im' im'') (back : im'' = im) : im' = im := by
  funext i
  rcases fst i with eq | ⟨ty, _, gone, _⟩
  · exact eq
  · rw [← back] at ty
    rw [← snd.same_of_typed ty, back]

theorem Fades.trans (fst : Fades base fs fs') (snd : Fades base fs' fs'') : Fades base fs fs'' := by
  refine ⟨fst.toStays.trans snd.toStays, fst.image.trans (snd.image.anti fun _ => fst.spared.mpr), fun back => ?_⟩
  have middle := fst.image.between snd.image back
  rw [snd.same (back.trans middle.symm), fst.same middle]

theorem Fades.anti (fades : Fades base fs fs') (less : ∀ slot, 0 < base' slot → 0 < base slot) : Fades base' fs fs' :=
  ⟨fades.toStays.anti less, fades.image.anti fun _ ⟨slot, cnt, num⟩ =>
    ⟨slot, less slot cnt, num⟩, fades.same⟩

theorem Fades.of_disk (disk : fs'.disk = fs.disk)
    (entry : ∀ slot, 0 < base slot → (fs'.icache slot).inum = (fs.icache slot).inum ∧
      ((fs.icache slot).valid = true → (fs'.icache slot).valid = true)) : Fades base fs fs' := by
  refine ⟨⟨by rw [disk], by rw [disk], by rw [disk], fun slot cnt => (entry slot cnt).1,
    fun slot cnt => (entry slot cnt).2⟩, fun i => .inl ?_, fun _ => by rw [disk]⟩
  exact congrFun (image_congr (congrArg Disk.sb disk) (congrArg Disk.block disk)) i

theorem Sound.not_faded (sound : Sound R fs) (holds : R.kept)
    (faded : Faded (fs.spared fs.refs) fs.image im) : im = fs.image := by
  funext i
  refine (faded i).resolve_right fun ⟨ty, unlinked, _, free⟩ => free ?_
  obtain ⟨slot, held, _, num⟩ := sound.kept holds i ty unlinked
  exact ⟨slot, held, num⟩

structure Changes (base : Slot → Int) (change : (Nat → Node) → (Nat → Node) → Prop) (fs fs' : Fs) :
    Prop extends Stays base fs fs' where
  images : ∃ before after, Faded (fs.spared base) fs.image before ∧ change before after ∧
    Faded (fs.spared base) after fs'.image

theorem Changes.mk_of_fades {fs1 fs2 fs3 : Fs} {change : (Nat → Node) → (Nat → Node) → Prop}
    (fst : Fades base fs fs1) (chg : change fs1.image fs2.image) (stays : Stays base fs1 fs2)
    (last : Fades base fs2 fs3) : Changes base change fs fs3 :=
  ⟨(fst.toStays.trans stays).trans last.toStays, fs1.image, fs2.image, fst.image, chg,
    last.image.anti fun _ => (fst.toStays.trans stays).spared.mpr⟩

end

section

variable {blank : Prop} {im : Nat → Node} {ninodes : Nat}

theorem Tidy.update (tidy : Tidy blank im ninodes) {i : Nat} (plain : node.type ≠ 0 → ¬BlockType node.type →
      PlainType node.type ∧ (node.nlink = 0 ∨ blank → node.byte = fun _ => 0))
    (named : IsDir node.type → ∀ k name j, node.slot k = some (name, j) → j < ninodes) :
    Tidy blank (Function.update im i node) ninodes := by
  refine ⟨fun j => ?_, fun d k name j => ?_⟩
  · by_cases eq : j = i
    · rw [eq, update_self]
      exact plain
    · rw [update_of_ne eq]
      exact tidy.plain j
  · by_cases eq : d = i
    · rw [eq, update_self]
      exact fun dir => named dir k name j
    · rw [update_of_ne eq]
      exact tidy.named d k name j

theorem Tidy.setNlink (tidy : Tidy blank im ninodes) (i : Nat) {nlink : BitVec 16}
    (bare : nlink = 0 → (im i).Bare) : Tidy blank (Function.update im i ((im i).setNlink nlink)) ninodes := by
  refine tidy.update (fun ty block => ?_) fun dir k name j => tidy.named i k name j dir
  obtain ⟨known, zero⟩ := tidy.plain i ty block
  exact ⟨known, fun cut => cut.elim (fun none => bare none block) fun all => zero (.inr all)⟩

end

section

variable {fs : Fs} {inum : Nat} {dinode : Dinode}

theorem fileByte_congr {places places' : Nat × Option Nat → Nat} {block block' : Nat → Block}
    (eq : ∀ bn, places' (inum, some bn) = places (inum, some bn)) (data : ∀ bn, places (inum, some bn) ≠ 0 →
      block' (places (inum, some bn)) = block (places (inum, some bn))) :
    fileByte places' block' inum = fileByte places block inum := by
  funext i
  simp only [fileByte, eq]
  split
  · rfl
  · rename_i has
    rw [data _ has]

theorem Fs.image_update (fs' : Fs) (sb : fs'.disk.sb = fs.disk.sb)
    (chg : table fs.disk.sb fs'.disk.block = Function.update (table fs.disk.sb fs.disk.block) inum dinode)
    (bytes : ∀ o, o ≠ inum → Xv6.fileByte fs'.pointers fs'.disk.block o = Xv6.fileByte fs.pointers fs.disk.block o) :
    fs'.image = Function.update fs.image inum ⟨dinode.type, dinode.nlink, dinode.size,
      if BlockType dinode.type then Xv6.fileByte fs'.pointers fs'.disk.block inum
      else dinode.addrs.byte⟩ := by
  funext o
  by_cases eq : o = inum
  · rw [eq, update_self, Fs.image, sb, chg, update_self]
  · rw [update_of_ne eq, Fs.image, Fs.image, sb, chg, update_of_ne eq, bytes o eq]

theorem fileByte_of_data (fs' : Fs) (well : WellFormed fs)
    (eq : ∀ bn, fs'.pointers (inum, some bn) = fs.pointers (inum, some bn))
    (data : ∀ b, fs.disk.sb.dataStart ≤ b → fs'.disk.block b = fs.disk.block b) :
    fileByte fs'.pointers fs'.disk.block inum = fileByte fs.pointers fs.disk.block inum :=
  fileByte_congr eq fun _ has => data _ (well.owns.inside _ has).1

theorem image_of_resave {disk : Disk} (well : WellFormed fs) (layout : Layout fs.disk.sb fs.disk.fssize)
    (lt : inum < fs.disk.sb.ninodes) (sb : disk.sb = fs.disk.sb) (pointers : (fs.setDisk disk).pointers = fs.pointers)
    (chg : table fs.disk.sb disk.block = Function.update (table fs.disk.sb fs.disk.block) inum dinode)
    (rest : ∀ b, b ≠ IBLOCK inum fs.disk.sb → disk.block b = fs.disk.block b) :
    (fs.setDisk disk).image = Function.update fs.image inum ⟨dinode.type, dinode.nlink, dinode.size,
      if BlockType dinode.type then fileByte fs.pointers fs.disk.block inum
      else dinode.addrs.byte⟩ := by
  have limits := layout.bounds
  have low := layout.IBLOCK_lt lt
  have eq : ∀ o, fileByte (fs.setDisk disk).pointers disk.block o = fileByte fs.pointers fs.disk.block o := fun o =>
    fileByte_of_data (fs.setDisk disk) well (fun _ => by rw [pointers]) fun b area => rest b (by omega)
  rw [image_update (fs.setDisk disk) sb chg fun o _ => eq o]
  simp only [setDisk_disk, eq]

end

section

variable {fs fs' : Fs} {slot : Slot} {inum : Nat}

theorem Sound.of_disk (sound : Sound R fs) (disk : fs'.disk = fs.disk) (coherent : Coherent fs')
    (numbered : ∀ slot, 0 < (fs'.icache slot).ref → fs.disk.sb.inTable (fs'.icache slot).inum)
    (kept : ∀ slot, 0 < (fs.icache slot).ref → (fs.icache slot).valid = true →
      (fs.icache slot).dinode.nlink = 0 → 0 < (fs'.icache slot).ref ∧
        (fs'.icache slot).valid = true ∧ (fs'.icache slot).inum = (fs.icache slot).inum) : Sound R fs' := by
  have im : fs'.image = fs.image :=
    image_congr (congrArg Disk.sb disk) (congrArg Disk.block disk)
  refine ⟨coherent, sound.well.of_disk disk, ?_, disk ▸ numbered, disk ▸ sound.rooted,
    disk ▸ sound.narrow, fun holds i ty cut => ?_⟩
  · rw [im, disk]
    exact sound.tidy
  · rw [im] at ty cut
    obtain ⟨slot, held, valid, rfl⟩ := sound.kept holds i ty cut
    have links := (sound.image_slot held valid).2.1
    obtain ⟨refd', valid', eq⟩ := kept slot held valid (links ▸ cut)
    exact ⟨slot, refd', valid', eq⟩

theorem Got.refs (got : Got fs fs' slot inum) : fs'.refs = fs.refs + Pi.single slot 1 := by
  funext o
  by_cases eq : o = slot
  · subst eq
    simp [Fs.refs, got.ref]
  · simp [Fs.refs, got.other o eq, eq]

theorem Got.fades (got : Got fs fs' slot inum) : Fades fs.refs fs fs' := by
  refine Fades.of_disk got.disk fun o held => ?_
  rw [got.entry held]
  split
  · rename_i eq
    rw [eq]
    exact ⟨rfl, id⟩
  · exact ⟨rfl, id⟩

theorem Got.sound (got : Got fs fs' slot inum) (sound : Sound R fs) (lt : fs.disk.sb.inTable inum) : Sound R fs' := by
  refine sound.of_disk got.disk (got.coherent sound.toCoherent) (fun o held => ?_) fun o held valid _ => ?_
  · by_cases eq : o = slot
    · rw [eq, got.number]
      exact lt
    · rw [got.other o eq] at held ⊢
      exact sound.numbered o held
  · have more := congrFun got.refs o
    have kept := got.fades
    refine ⟨?_, kept.valid o held valid, kept.inum o held⟩
    by_cases eq : o = slot
    · subst eq
      rw [got.ref]
      omega
    · rw [got.other o eq]
      exact held

structure Touched (fs fs' : Fs) (slot : Slot) : Prop where
  disk : fs'.disk = fs.disk
  other : ∀ other, other ≠ slot → fs'.icache other = fs.icache other
  ref : (fs'.icache slot).ref = (fs.icache slot).ref
  inum : (fs'.icache slot).inum = (fs.icache slot).inum
  valid : (fs.icache slot).valid = true → (fs'.icache slot).valid = true

structure Took (fs fs' : Fs) (slot : Slot) : Prop extends Touched fs fs' slot where
  unlocked : (fs.icache slot).locked = 0
  locked : (fs'.icache slot).locked = 1
  loaded : (fs'.icache slot).valid = true
  typed : (fs.image (fs.icache slot).inum).type ≠ 0

section

variable (touched : Touched fs fs' slot)

include touched

theorem Touched.same (o : Slot) : (fs'.icache o).ref = (fs.icache o).ref ∧
    (fs'.icache o).inum = (fs.icache o).inum ∧ ((fs.icache o).valid = true → (fs'.icache o).valid = true) := by
  by_cases eq : o = slot
  · rw [eq]
    exact ⟨touched.ref, touched.inum, touched.valid⟩
  · rw [touched.other o eq]
    exact ⟨rfl, rfl, id⟩

theorem Touched.refs : fs'.refs = fs.refs :=
  funext fun o => (touched.same o).1

theorem Touched.image : fs'.image = fs.image :=
  image_congr (congrArg Disk.sb touched.disk) (congrArg Disk.block touched.disk)

theorem Touched.nodeAt : fs'.nodeAt slot = fs.nodeAt slot := by
  rw [Fs.nodeAt, touched.inum, touched.image, Fs.nodeAt]

theorem Touched.fades (base : Slot → Int) : Fades base fs fs' :=
  Fades.of_disk touched.disk fun o _ => (touched.same o).2

theorem Touched.sound (sound : Sound R fs) (coherent : Coherent fs') : Sound R fs' := by
  refine sound.of_disk touched.disk coherent (fun o held => ?_) fun o held valid _ => ?_
  · rw [(touched.same o).1] at held
    rw [(touched.same o).2.1]
    exact sound.numbered o held
  · exact ⟨(touched.same o).1 ▸ held, (touched.same o).2.2 valid, (touched.same o).2.1⟩

end

end

section

variable {fs : Fs} {slot : Slot} {stops : Stop → Prop}

theorem Sound.holds_ilock (sound : Sound R fs)
    (held : 0 < (fs.icache slot).ref) (blocked : (fs.icache slot).locked ≠ 0 → stops .blocked)
    (untyped : (fs.image (fs.icache slot).inum).type = 0 → stops noType)
    (next : ∀ fs', Took fs fs' slot → Sound R fs' → post () fs') : Holds (ilock slot) fs post stops := by
  refine holds_ilock_coherent sound.toCoherent (sound.numbered slot held).2 held blocked
    untyped fun ip unlocked ty locked coherent => ?_
  have took : Took fs (fs.setInode slot ip) slot := by
    refine ⟨⟨rfl, fun o ne => setInode_ne _ _ _ ne, ?_, ?_, fun _ => ?_⟩, unlocked, ?_, ?_, ty⟩
    all_goals rw [setInode_same]
    · exact locked.ref
    · exact locked.inum
    · exact locked.valid
    · exact locked.locked
    · exact locked.valid
  exact next _ took (took.sound sound coherent)

theorem Sound.holds_iunlock (sound : Sound R fs) (misused : stops (.panic "iunlock"))
    (next : ∀ fs', Touched fs fs' slot → 0 < (fs.icache slot).ref → Sound R fs' → post () fs') :
    Holds (iunlock slot) fs post stops := by
  simp only [iunlock, holds_bind, holds_inode, holds_ite, holds_panic, holds_modifyInode]
  refine ⟨fun _ => misused, fun fine => ?_⟩
  have held : 0 < (fs.icache slot).ref := by omega
  have touched : Touched fs (fs.setInode slot ((fs.icache slot).setLocked 0)) slot := by
    refine ⟨rfl, fun o ne => setInode_ne _ _ _ ne, ?_, ?_, fun valid => ?_⟩
    all_goals rw [setInode_same]
    · rfl
    · rfl
    · exact valid
  refine next _ touched held (touched.sound sound ?_)
  exact sound.toCoherent.reenter held rfl rfl fun valid => sound.loaded slot held valid

theorem Sound.holds_idup {post : Slot → Fs → Prop} (sound : Sound R fs) (held : 0 < (fs.icache slot).ref)
    (next : ∀ fs', Got fs fs' slot (fs.icache slot).inum → Sound R fs' → post slot fs') :
    Holds (idup slot) fs post stops := by
  simp only [idup, holds_bind, holds_modifyInode, holds_pure]
  have got : Got fs (fs.setInode slot ((fs.icache slot).setRef ((fs.icache slot).ref + 1))) slot
      (fs.icache slot).inum := by
    refine ⟨rfl, fun o ne => setInode_ne _ _ _ ne, ?_, ?_, ?_, fun _ => ?_, fun absent => absurd held absent⟩
    all_goals rw [setInode_same]
    · exact sound.device slot held
    · rfl
    · rfl
  exact next _ got (got.sound sound (sound.numbered slot held))

end

section

variable {fs : Fs} {disk : Disk} {stops : Stop → Prop} {post : Unit → Fs → Prop}

theorem Fs.image_alike (alike : fs.disk.Alike disk) : (fs.setDisk disk).image = fs.image :=
  image_congr alike.sb alike.block

theorem Sound.alike (sound : Sound R fs) (alike : fs.disk.Alike disk) : Sound R (fs.setDisk disk) := by
  obtain ⟨coherent, well, tidy, numbered, rooted, narrow, kept⟩ := sound
  refine ⟨coherent.alike alike, well.alike alike, ?_, ?_, ?_, ?_, ?_⟩
  · rwa [image_alike alike, setDisk_disk, alike.sb]
  · rwa [setDisk_disk, alike.sb]
  · rwa [setDisk_disk, alike.sb]
  · rwa [setDisk_disk, alike.sb]
  · rwa [image_alike alike]

theorem Sound.holds_beginOp (sound : Sound R fs) (blocked : stops .blocked)
    (next : ∀ disk, fs.disk.Alike disk → disk.log.outstanding = fs.disk.log.outstanding + 1 →
      Sound R (fs.setDisk disk) → post () (fs.setDisk disk)) : Holds (onDisk beginOp) fs post stops := by
  rw [holds_onDisk]
  exact Xv6.holds_beginOp blocked fun disk alike op _ _ => next disk alike op (sound.alike alike)

theorem Sound.holds_endOp (sound : Sound R fs) (committing : stops (.panic "log.committing"))
    (next : ∀ disk, fs.disk.Alike disk → disk.log.outstanding = fs.disk.log.outstanding - 1 →
      Sound R (fs.setDisk disk) → post () (fs.setDisk disk)) : Holds (onDisk endOp) fs post stops := by
  rw [holds_onDisk]
  exact Xv6.holds_endOp committing fun disk alike closed _ => next disk alike closed (sound.alike alike)

end

theorem Sound.ambient {fs : Fs} (sound : Sound R fs)
    (op : 0 < fs.disk.log.outstanding) : Ambient fs := ⟨sound.toCoherent, op⟩

structure Put (fs fs' : Fs) (slot : Slot) : Prop where
  other : ∀ other, other ≠ slot → fs'.icache other = fs.icache other
  ref : (fs'.icache slot).ref = (fs.icache slot).ref - 1
  inum : (fs'.icache slot).inum = (fs.icache slot).inum
  fades : Fades (fs.refs - Pi.single slot 1) fs fs'
  image : fs'.image = if (fs.icache slot).ref = 1 ∧ (fs.icache slot).valid = true ∧
        (fs.image (fs.icache slot).inum).nlink = 0
    then Function.update fs.image (fs.icache slot).inum .gone else fs.image

section

variable {fs fs' : Fs} {slot : Slot} {stops : Stop → Prop} {post : Unit → Fs → Prop}

theorem Put.refs (put : Put fs fs' slot) : fs'.refs = fs.refs - Pi.single slot 1 := by
  funext o
  by_cases eq : o = slot
  · subst eq
    simp [Fs.refs, put.ref]
  · simp [Fs.refs, put.other o eq, eq]

theorem Sound.bare (sound : Sound R fs) {i : Nat} (ty : (fs.image i).type ≠ 0)
    (cut : (fs.image i).nlink = 0 ∨ R.blank) : (fs.image i).Bare := fun block =>
  (sound.tidy.plain i ty block).2 cut

theorem Sound.addrs (sound : Sound R fs) (held : 0 < (fs.icache slot).ref)
    (valid : (fs.icache slot).valid = true) (cut : (fs.icache slot).dinode.nlink = 0) :
    BlockType (fs.icache slot).dinode.type ∨ (fs.icache slot).dinode.addrs = Bytes.zero := by
  obtain ⟨eq, ty⟩ := sound.loaded slot held valid
  rw [eq] at ty cut ⊢
  by_cases block : BlockType (table fs.disk.sb fs.disk.block (fs.icache slot).inum).type
  · exact .inl block
  · have bytes := sound.bare ty (.inl cut) block
    simp only [Fs.image, if_neg block] at bytes
    refine .inr (Bytes.ext fun i _ => ?_)
    rw [bytes, Bytes.byte_zero]

theorem Vacated.image (vacated : Vacated fs fs' slot) (well : WellFormed fs) :
    fs'.image = Function.update fs.image (fs.icache slot).inum .gone := by
  obtain ⟨final, type, nlink, size, addrs, chg⟩ := vacated.dinode
  rw [image_update fs' vacated.sb chg fun o ne => ?_]
  · have zero : (Bytes.zero : Bytes 52).byte = fun _ => 0 := funext Bytes.byte_zero
    rw [type, nlink, size, addrs, if_neg (by decide), zero, Node.gone]
  · refine fileByte_of_data fs' well (fun bn => ?_) vacated.data
    rw [vacated.pointers, dropped, if_neg (by simp [ne])]

theorem Vacated.put (vacated : Vacated fs fs' slot) (sound : Sound R fs)
    (last : (fs.icache slot).ref = 1) (valid : (fs.icache slot).valid = true)
    (cut : (fs.icache slot).dinode.nlink = 0) : Put fs fs' slot := by
  have held : 0 < (fs.icache slot).ref := by omega
  have im := vacated.image sound.well
  obtain ⟨type, nlink, _⟩ := sound.image_slot held valid
  have apart : ∀ o, 0 < (fs.refs - Pi.single slot 1 : Slot → Int) o → o ≠ slot := by
    intro o cnt eq
    subst eq
    simp [Fs.refs, last] at cnt
  have live : ∀ o, 0 < (fs.refs - Pi.single slot 1 : Slot → Int) o → 0 < (fs.icache o).ref := by
    intro o cnt
    have := apart o cnt
    simpa [Fs.refs, this] using cnt
  refine ⟨vacated.other, by rw [vacated.ref]; omega, vacated.inum,
    ⟨⟨vacated.sb, vacated.fssize, vacated.outstanding, fun o cnt => ?_,
      fun o cnt => ?_⟩, fun i => ?_, fun back => ?_⟩, ?_⟩
  · rw [vacated.other o (apart o cnt)]
  · rw [vacated.other o (apart o cnt)]
    exact id
  · by_cases eq : i = (fs.icache slot).inum
    · subst eq
      refine .inr ⟨type ▸ (sound.loaded slot held valid).2, nlink.trans cut, ?_, ?_⟩
      · rw [im, update_self]
      · rintro ⟨o, cnt, num⟩
        exact apart o cnt (sound.unique o slot (live o cnt) held num)
    · exact .inl (by rw [im, update_of_ne eq])
  · have gone := congrFun back (fs.icache slot).inum
    rw [im, update_self] at gone
    exact absurd (gone ▸ rfl) (type ▸ (sound.loaded slot held valid).2)
  · rw [if_pos ⟨last, valid, nlink.trans cut⟩, im]

theorem Vacated.active (vacated : Vacated fs fs' slot) (sound : Sound R fs) : Active R fs' := by
  have im := vacated.image sound.well
  have apart : ∀ o, 0 < (fs'.icache o).ref → o ≠ slot := by
    intro o held same
    rw [same, vacated.ref] at held
    omega
  refine ⟨⟨vacated.ambient.toCoherent, vacated.well, ?_, fun o held => ?_, ?_, ?_,
    fun holds i ty cut => ?_⟩, vacated.ambient.opened⟩
  · rw [im, vacated.sb]
    exact sound.tidy.update (fun ty => absurd rfl ty) fun dir =>
      absurd dir.blockType.ne_zero (by decide)
  · have ne := apart o held
    rw [vacated.other o ne] at held ⊢
    rw [vacated.sb]
    exact sound.numbered o held
  · rw [vacated.sb]
    exact sound.rooted
  · rw [vacated.sb]
    exact sound.narrow
  · by_cases same : i = (fs.icache slot).inum
    · rw [im, same, update_self] at ty
      exact absurd rfl ty
    · rw [im, update_of_ne same] at ty cut
      obtain ⟨o, held, valid, num⟩ := sound.kept holds i ty cut
      have ne : o ≠ slot := by
        rintro rfl
        exact same num.symm
      refine ⟨o, ?_⟩
      rw [vacated.other o ne]
      exact ⟨held, valid, num⟩

theorem Active.holds_iput (act : Active R fs) (held : 0 < (fs.icache slot).ref)
    (full : stops tooBig) (next : ∀ fs', Put fs fs' slot → Active R fs' → post () fs') :
    Holds (iput slot) fs post stops := by
  have sound := act.toSound
  by_cases free : (fs.icache slot).ref = 1 ∧ (fs.icache slot).valid ∧ (fs.icache slot).dinode.nlink = 0
  · obtain ⟨last, valid, cut⟩ := free
    refine holds_iput_freed sound.well (sound.ambient act.opened) last valid cut
      (sound.addrs held valid cut) full fun fs' vacated => ?_
    exact next fs' (vacated.put sound last valid cut) (vacated.active sound)
  · refine holds_iput_kept free ?_
    have disk : (fs.setInode slot ((fs.icache slot).setRef ((fs.icache slot).ref - 1))).disk = fs.disk := rfl
    have im := image_congr (congrArg Disk.sb disk) (congrArg Disk.block disk)
    refine next _ ⟨fun o ne => setInode_ne _ _ _ ne, ?_, ?_, ?_, ?_⟩
      ⟨sound.of_disk disk (sound.toCoherent.reference held _) (fun o live => ?_) fun o live valid cut => ?_, act.opened⟩
    · rw [setInode_same, setRef_ref]
    · rw [setInode_same, setRef_inum]
    · refine Fades.of_disk disk fun o _ => ?_
      by_cases eq : o = slot
      · rw [eq, setInode_same]
        exact ⟨rfl, id⟩
      · rw [setInode_ne _ _ _ eq]
        exact ⟨rfl, id⟩
    · rw [im, if_neg]
      rintro ⟨last, valid, cut⟩
      exact free ⟨last, valid, (sound.image_slot held valid).2.1 ▸ cut⟩
    · by_cases eq : o = slot
      · rw [eq, setInode_same]
        exact sound.numbered slot held
      · rw [setInode_ne _ _ _ eq] at live ⊢
        exact sound.numbered o live
    · by_cases eq : o = slot
      · rw [eq] at valid cut ⊢
        rw [setInode_same]
        have more : (fs.icache slot).ref ≠ 1 := fun last => free ⟨last, valid, cut⟩
        exact ⟨by rw [setRef_ref]; omega, valid, rfl⟩
      · rw [setInode_ne _ _ _ eq]
        exact ⟨live, valid, rfl⟩

theorem Active.holds_iunlockput (act : Active R fs) (valid : (fs.icache slot).valid = true)
    (full : stops tooBig) (misused : stops (.panic "iunlock"))
    (next : ∀ fs', Put fs fs' slot → Active R fs' → post () fs') : Holds (iunlockput slot) fs post stops := by
  rw [iunlockput, holds_bind]
  refine act.toSound.holds_iunlock misused fun fs1 touched held sound => ?_
  have act1 : Active R fs1 := ⟨sound, touched.disk ▸ act.opened⟩
  refine act1.holds_iput (touched.ref ▸ held) full fun fs2 put act2 => ?_
  refine next fs2 ⟨fun o ne => ?_, ?_, ?_, ?_, ?_⟩ act2
  · rw [put.other o ne, touched.other o ne]
  · rw [put.ref, touched.ref]
  · rw [put.inum, touched.inum]
  · have after := put.fades
    rw [touched.refs] at after
    exact (touched.fades _).trans after
  · rw [put.image, touched.image, touched.ref, touched.inum, touched.valid valid, valid]

end

structure SameEntries (fs fs' : Fs) : Prop where
  ref : ∀ slot, (fs'.icache slot).ref = (fs.icache slot).ref
  inum : ∀ slot, (fs'.icache slot).inum = (fs.icache slot).inum
  valid : ∀ slot, (fs'.icache slot).valid = (fs.icache slot).valid
  sb : fs'.disk.sb = fs.disk.sb
  fssize : fs'.disk.fssize = fs.disk.fssize
  outstanding : fs'.disk.log.outstanding = fs.disk.log.outstanding

section

variable {fs fs' fs'' : Fs} {slot : Slot}

theorem SameEntries.trans (fst : SameEntries fs fs') (snd : SameEntries fs' fs'') : SameEntries fs fs'' :=
  ⟨fun slot => (snd.ref slot).trans (fst.ref slot), fun slot => (snd.inum slot).trans (fst.inum slot),
    fun slot => (snd.valid slot).trans (fst.valid slot), snd.sb.trans fst.sb,
    snd.fssize.trans fst.fssize, snd.outstanding.trans fst.outstanding⟩

theorem SameEntries.refs (entries : SameEntries fs fs') : fs'.refs = fs.refs := funext entries.ref

theorem SameEntries.stays (entries : SameEntries fs fs') (base : Slot → Int) : Stays base fs fs' :=
  ⟨entries.sb, entries.fssize, entries.outstanding, fun slot _ => entries.inum slot,
    fun slot _ valid => (entries.valid slot).trans valid⟩

theorem Recasts.entries (recasts : Recasts fs fs' slot) : SameEntries fs fs' := by
  have eq : ∀ o, (fs'.icache o).ref = (fs.icache o).ref ∧ (fs'.icache o).inum = (fs.icache o).inum ∧
      (fs'.icache o).valid = (fs.icache o).valid := by
    intro o
    by_cases eq : o = slot
    · rw [eq, recasts.entry]
      exact ⟨rfl, rfl, rfl⟩
    · rw [recasts.other o eq]
      exact ⟨rfl, rfl, rfl⟩
  exact ⟨fun o => (eq o).1, fun o => (eq o).2.1, fun o => (eq o).2.2, recasts.sb, recasts.fssize, recasts.outstanding⟩

theorem Active.recasts (act : Active R fs) (held : 0 < (fs.icache slot).ref) (valid : (fs.icache slot).valid = true)
    (recasts : Recasts fs fs' slot) (well : WellFormed fs') (coherent : Coherent fs')
    (im : fs'.image = Function.update fs.image (fs.icache slot).inum node)
    (tidy : Tidy R.blank fs'.image fs.disk.sb.ninodes) : Active R fs' := by
  have entries := recasts.entries
  refine ⟨⟨coherent, well, recasts.sb ▸ tidy, fun o live => ?_, recasts.sb ▸ act.rooted,
    recasts.sb ▸ act.narrow, fun holds i ty cut => ?_⟩, recasts.outstanding ▸ act.opened⟩
  · rw [entries.ref] at live
    rw [entries.inum, recasts.sb]
    exact act.numbered o live
  · by_cases eq : i = (fs.icache slot).inum
    · refine ⟨slot, ?_⟩
      rw [entries.ref, entries.inum, entries.valid]
      exact ⟨held, valid, eq.symm⟩
    · rw [im, update_of_ne eq] at ty cut
      obtain ⟨o, live, loaded, num⟩ := act.kept holds i ty cut
      refine ⟨o, ?_⟩
      rw [entries.ref, entries.inum, entries.valid]
      exact ⟨live, loaded, num⟩

end

section

variable {fs : Fs} {slot : Slot} {dinode : Dinode} {stops : Stop → Prop}

theorem blockOf_addrs {o : Dinode} (eq : dinode.addrs = o.addrs) (block : Nat → Block)
    (k : Option Nat) : blockOf dinode block k = blockOf o block k := by
  cases k with
  | none => rw [blockOf, blockOf, eq]
  | some bn => simp only [blockOf, eq]

theorem Active.holds_iupdate (act : Active R fs)
    (held : 0 < (fs.icache slot).ref) (valid : (fs.icache slot).valid = true)
    (type : dinode.type = (fs.icache slot).dinode.type) (size : dinode.size = (fs.icache slot).dinode.size)
    (addrs : dinode.addrs = (fs.icache slot).dinode.addrs) (bare : dinode.nlink = 0 → (fs.nodeAt slot).Bare)
    (full : stops tooBig)
    (next : ∀ fs', Recasts fs fs' slot → Active R fs' → fs'.image = Function.update fs.image (fs.icache slot).inum
        ((fs.image (fs.icache slot).inum).setNlink dinode.nlink) →
      fs'.disk.block = iupdated fs.disk.sb fs.disk.block (fs.icache slot).inum dinode → post () fs') :
    Holds (iupdate slot) (fs.setInode slot ((fs.icache slot).setDinode dinode)) post stops := by
  have env := act.ambient act.opened
  have limits := act.layout.bounds
  have num := (act.numbered slot held).2
  have low := act.layout.IBLOCK_lt num
  have high := act.layout.one_lt_IBLOCK num
  obtain ⟨eq, ty⟩ := act.loaded slot held valid
  refine Xv6.holds_iupdate ?_ ?_ act.opened full fun disk puts => ?_
  all_goals simp only [setInode_same, setInode_disk, setDinode_inum, setDinode_dinode] at *
  · simp [act.unheld]
  · omega
  have places : ∀ k, (if BlockType dinode.type then blockOf dinode fs.disk.block k else 0) =
      fs.pointers ((fs.icache slot).inum, k) := by
    intro k
    rw [Fs.pointers, pointer, type, blockOf_addrs addrs, eq]
  obtain ⟨well, pointers, chg, rest, marked⟩ := act.well.resave env num puts places fun block => by
      rw [type, eq] at block
      rw [size, eq]
      exact act.well.present _ block
  have im := image_of_resave act.well act.layout num puts.sb pointers chg rest
  have node : fs.image (fs.icache slot).inum = ⟨(fs.icache slot).dinode.type,
      (fs.icache slot).dinode.nlink, (fs.icache slot).dinode.size,
      if BlockType (fs.icache slot).dinode.type then fileByte fs.pointers fs.disk.block (fs.icache slot).inum
      else (fs.icache slot).dinode.addrs.byte⟩ := by
    rw [Fs.image, eq]
  have im' : ((fs.setInode slot ((fs.icache slot).setDinode dinode)).setDisk disk).image =
      Function.update fs.image (fs.icache slot).inum ((fs.image (fs.icache slot).inum).setNlink dinode.nlink) := by
    have : ((fs.setInode slot ((fs.icache slot).setDinode dinode)).setDisk disk).image =
      (fs.setDisk disk).image := image_congr rfl rfl
    rw [this, im, node, type, size, addrs, Node.setNlink]
  have recasts : Recasts fs ((fs.setInode slot ((fs.icache slot).setDinode dinode)).setDisk disk) slot := by
    refine ⟨?_, fun o ne => ?_, puts.sb, puts.fssize, puts.outstanding⟩
    · simp only [setDisk_icache, setInode_same, setDinode_dinode]
    · rw [setDisk_icache, setInode_ne _ _ _ ne]
  refine next _ recasts (act.recasts held valid recasts (well.of_disk rfl) ?_ im' ?_) im' puts.block
  · exact (env.rewrite held puts.sb puts.fssize (puts.held.trans act.unheld)
      puts.outstanding (rest 1 (by omega)) marked chg (type ▸ ty)).toCoherent
  · rw [im']
    exact act.tidy.setNlink _ bare

end

end Xv6

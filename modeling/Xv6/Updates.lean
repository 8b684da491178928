import Xv6.Sound

/-! The operations that change inodes, in sound states: allocation, entries of directories, and
the data of files. -/

namespace Xv6

open Exec Fs Node Function

structure Born (fs fs' : Fs) (slot : Slot) (type : BitVec 16) (i : Nat) : Prop where
  free : (fs.image i).type = 0
  bound : fs.disk.sb.inTable i
  image : fs'.image = update fs.image i (.fresh type)
  number : (fs'.icache slot).inum = i
  referenced : 0 < (fs'.icache slot).ref
  valid : (fs'.icache slot).valid = true
  other : ∀ other, other ≠ slot → fs'.icache other = fs.icache other
  stays : Stays fs.refs fs fs'
  refs : fs'.refs = fs.refs + Pi.single slot 1

theorem Node.slot_fresh (type : BitVec 16) (k : Nat) : (fresh type).slot k = none :=
  slot_beyond (Nat.zero_le _)

theorem typed_of_known {type : BitVec 16} (known : BlockType type ∨ PlainType type) : type ≠ 0 := by
  rcases known with block | rfl | rfl
  · exact block.ne_zero
  · decide
  · decide

section

variable {R : Rules} {fs : Fs} {type : BitVec 16} {stops : Stop → Prop}

theorem Active.allocated {inum : Nat} {disk : Disk} (act : Active R fs)
    (known : BlockType type ∨ PlainType type) (lt : inum < fs.disk.sb.ninodes)
    (free : (dinodeAt fs.disk.sb fs.disk.block inum).type = 0)
    (puts : fs.disk.Puts disk [iupdateWrite fs.disk.sb fs.disk.block inum (Dinode.fresh type)]) :
    Sound ⟨False, R.blank⟩ (fs.setDisk disk) ∧ (fs.setDisk disk).image = update fs.image inum (.fresh type) := by
  have env := act.ambient act.opened
  obtain ⟨well, env', none, pointers, changed, rest⟩ := ialloc_wellFormed act.well env lt free puts
  have img : (fs.setDisk disk).image = update fs.image inum (.fresh type) := by
    rw [image_of_resave act.well act.layout lt puts.sb pointers changed rest]
    have zero : (Bytes.zero : Bytes 52).byte = fun _ => 0 := funext Bytes.byte_zero
    have nothing : fileByte fs.pointers fs.disk.block inum = fun _ => 0 := by
      funext i
      rw [fileByte, if_pos (none _)]
    simp only [Dinode.fresh, nothing, zero, ite_self, fresh]
  refine ⟨⟨env'.toCoherent, well, ?_, ?_, ?_, ?_, False.elim⟩, img⟩
  · rw [img, setDisk_disk, puts.sb]
    refine act.tidy.update (fun _ untyped => ⟨known.resolve_left untyped, fun _ => rfl⟩) fun _ k name j here => ?_
    rw [slot_fresh] at here
    cases here
  · rw [setDisk_disk, puts.sb]
    exact act.numbered
  · rw [setDisk_disk, puts.sb]
    exact act.rooted
  · rw [setDisk_disk, puts.sb]
    exact act.narrow

theorem Active.holds_ialloc {post : Slot → Fs → Prop} (act : Active R fs)
    (known : BlockType type ∨ PlainType type) (full : stops tooBig) (exhausted : stops noFreeInode) (crowded : stops noInodes)
    (blocked : stops .blocked) (next : ∀ ip fs' i, Born fs fs' ip type i → Active R fs' → post ip fs') :
    Holds (ialloc ROOTDEV type) fs (fun ip fs' => Holds (ilock ip) fs' (fun _ => post ip) stops) stops := by
  refine Xv6.holds_ialloc act.layout (by simp [act.unheld]) act.opened full exhausted
    fun inum disk pos lt free puts => ?_
  obtain ⟨sound1, img1⟩ := act.allocated known lt free puts
  refine holds_iget_got (fun _ => crowded) fun ip fs2 got => ?_
  have sound2 := got.sound sound1 (by rw [setDisk_disk, puts.sb]; exact ⟨pos, lt⟩)
  have img2 : fs2.image = update fs.image inum (.fresh type) :=
    (image_congr (congrArg Disk.sb got.disk) (congrArg Disk.block got.disk)).trans img1
  have held : 0 < (fs2.icache ip).ref := by
    have := got.ref
    by_cases live : 0 < ((fs.setDisk disk).icache ip).ref
    · omega
    · have := (got.fresh live).1
      omega
  refine sound2.holds_ilock held (fun _ => blocked) (fun untyped => ?_) fun fs3 took sound3 => ?_
  · rw [img2, got.number, update_self] at untyped
    exact absurd untyped (typed_of_known known)
  have img3 : fs3.image = update fs.image inum (.fresh type) := took.image.trans img2
  have stays : Stays fs.refs fs fs3 := by
    have fst : Stays fs.refs fs (fs.setDisk disk) :=
      ⟨puts.sb, puts.fssize, puts.outstanding, fun _ _ => rfl, fun _ _ => id⟩
    exact (fst.trans got.fades.toStays).trans (took.fades _).toStays
  have other : ∀ other, other ≠ ip → fs3.icache other = fs.icache other := fun other ne =>
    (took.other other ne).trans (got.other other ne)
  have untyped : (fs.image inum).type = 0 := by
    rw [Fs.image, table_of_lt lt, free]
  refine next ip fs3 inum ⟨untyped, ⟨pos, lt⟩, img3, took.inum.trans got.number,
    took.ref ▸ held, took.loaded, other, stays, ?_⟩
    ⟨⟨sound3.toCoherent, sound3.well, sound3.tidy, sound3.numbered, sound3.rooted, sound3.narrow,
      fun holds i ty cut => ?_⟩, ?_⟩
  · rw [took.refs, got.refs]
    rfl
  · by_cases eq : i = inum
    · exact ⟨ip, took.ref ▸ held, took.loaded, (took.inum.trans got.number).trans eq.symm⟩
    · rw [img3, update_of_ne eq] at ty cut
      obtain ⟨holder, live, valid, num⟩ := act.kept holds i ty cut
      have ne : holder ≠ ip := by
        rintro rfl
        have := stays.inum holder live
        rw [took.inum, got.number, num] at this
        exact eq this.symm
      refine ⟨holder, ?_⟩
      rw [other holder ne]
      exact ⟨live, valid, num⟩
  · rw [stays.outstanding]
    exact act.opened

end

@[simp] theorem Node.enter_type (node : Node) (k : Nat) (name : List UInt8) (inum : Nat) :
    (node.enter k name inum).type = node.type := rfl

@[simp] theorem Node.enter_nlink (node : Node) (k : Nat) (name : List UInt8) (inum : Nat) :
    (node.enter k name inum).nlink = node.nlink := rfl

@[simp] theorem Node.clear_type (node : Node) (k : Nat) : (node.clear k).type = node.type := rfl

@[simp] theorem Node.clear_nlink (node : Node) (k : Nat) : (node.clear k).nlink = node.nlink := rfl

section

variable {R : Rules} {fs fs' : Fs} {dp : Slot} {stops : Stop → Prop}

theorem Active.openDir (act : Active R fs) (held : 0 < (fs.icache dp).ref)
    (valid : (fs.icache dp).valid = true) (dir : IsDir (fs.nodeAt dp).type) : OpenDir fs dp :=
  ⟨act.well, act.ambient act.opened, held, valid, (act.image_slot held valid).1 ▸ dir⟩

theorem Idle.refs (idle : Idle fs fs') : fs'.refs = fs.refs := by
  funext ip
  rcases idle.entry ip with eq | ⟨before, after⟩
  · simp only [Fs.refs, eq]
  · simp only [Fs.refs, before, after]

theorem Idle.entry_of_referenced (idle : Idle fs fs') {ip : Slot}
    (held : 0 < (fs.icache ip).ref) : fs'.icache ip = fs.icache ip :=
  (idle.entry ip).resolve_right fun unused => by omega

theorem Idle.fades (idle : Idle fs fs') : Fades fs.refs fs fs' :=
  Fades.of_disk idle.disk fun ip held => by
    rw [idle.entry_of_referenced held]
    exact ⟨rfl, id⟩

theorem Idle.active (idle : Idle fs fs') (act : Active R fs) : Active R fs' := by
  refine ⟨act.toSound.of_disk idle.disk (idle.coherent act.toCoherent) (fun ip held => ?_)
    fun ip held valid _ => ?_, idle.disk ▸ act.opened⟩
  · have eq : (fs'.icache ip).ref = (fs.icache ip).ref := congrFun idle.refs ip
    have live : 0 < (fs.icache ip).ref := eq ▸ held
    rw [idle.entry_of_referenced live]
    exact act.numbered ip live
  · rw [idle.entry_of_referenced held]
    exact ⟨held, valid, rfl⟩

theorem Active.holds_dirlink {name : List UInt8} {inum : Nat} {post : Bool → Fs → Prop}
    (act : Active R fs) (held : 0 < (fs.icache dp).ref)
    (valid : (fs.icache dp).valid = true) (dir : IsDir (fs.nodeAt dp).type) (lt : fs.disk.sb.inTable inum)
    (crowded : stops noInodes) (full : stops tooBig) (exhausted : stops outOfBlocks)
    (short : stops (.panic "dirlink read")) (large : stops (.panic "dirlink"))
    (exist : ∀ j i fs', (fs.nodeAt dp).slot j = some (cname name, i) → Idle fs fs' →
      Active R fs' → post false fs') (absent : (∀ j i, (fs.nodeAt dp).slot j ≠ some (cname name, i)) → ∀ k fs',
      (fs.nodeAt dp).slot k = none → (∀ j < k, (fs.nodeAt dp).slot j ≠ none) → Recasts fs fs' dp → Active R fs' →
      fs'.image = update fs.image (fs.icache dp).inum ((fs.nodeAt dp).enter k name inum) →
      ((fs.nodeAt dp).enter k name inum).slot =
        update (fs.nodeAt dp).slot k (some (cname name, inum)) → post true fs') :
    Holds (dirlink dp name inum) fs post stops := by
  have narrow := act.narrow
  refine Xv6.holds_dirlink (act.openDir held valid dir) crowded full exhausted
    (fun _ => short) (fun _ _ _ _ => large) (fun j i fs' here idle => ?_)
    fun missing k fs' empty pre low fits well env recasts img => ?_
  · exact exist j i fs' here idle (idle.active act)
  · have slots : ((fs.nodeAt dp).enter k name inum).slot = update (fs.nodeAt dp).slot k (some (cname name, inum)) :=
      slot_write_dirent name low (by simp only [MAXFILE, NDIRECT, NINDIRECT, BSIZE] at fits; omega)
        lt.1 (by have := lt.2; omega)
    refine absent missing k fs' empty pre recasts ?_ img slots
    refine act.recasts held valid recasts well env.toCoherent img ?_
    rw [img]
    refine act.tidy.update (fun _ untyped => absurd dir.blockType untyped) fun _ j o i here => ?_
    rw [slots] at here
    by_cases eq : j = k
    · rw [eq, update_self] at here
      cases here
      exact lt.2
    · rw [update_of_ne eq] at here
      exact act.tidy.named _ j o i dir here

theorem Active.holds_clear {k : Nat} {ent : List UInt8 × Nat} {post : Fs → Prop}
    (act : Active R fs) (held : 0 < (fs.icache dp).ref)
    (valid : (fs.icache dp).valid = true) (dir : IsDir (fs.nodeAt dp).type)
    (here : (fs.nodeAt dp).slot k = some ent) (full : stops tooBig) (exhausted : stops outOfBlocks)
    (large : stops (.panic "unlink: writei")) (next : ∀ fs', Recasts fs fs' dp → Active R fs' →
      fs'.image = update fs.image (fs.icache dp).inum ((fs.nodeAt dp).clear k) →
      ((fs.nodeAt dp).clear k).slot = update (fs.nodeAt dp).slot k none → post fs') :
    Holds (writei dp (fun _ => 0) (BitVec.ofNat 32 (deSize * k)) (BitVec.ofNat 32 deSize)) fs
      (fun n fs' => (n ≠ deSize → stops (.panic "unlink: writei")) ∧ (¬n ≠ deSize → post fs')) stops := by
  have low := lt_of_slot here
  refine holds_writei_dirent (act.openDir held valid dir) (by omega) full exhausted
    (fun _ => large) fun fs' well env recasts img fits => ?_
  have slots : ((fs.nodeAt dp).clear k).slot = update (fs.nodeAt dp).slot k none :=
    slot_write_zero (by omega) (by simp only [MAXFILE, NDIRECT, NINDIRECT, BSIZE] at fits; omega)
  refine next fs' recasts ?_ img slots
  refine act.recasts held valid recasts well env.toCoherent img ?_
  rw [img]
  refine act.tidy.update (fun _ untyped => absurd dir.blockType untyped) fun _ j o i hit => ?_
  have slots' : ((fs.nodeAt dp).write (fun _ => 0) (deSize * k) deSize).slot =
    update (fs.nodeAt dp).slot k none := slots
  rw [slots'] at hit
  by_cases eq : j = k
  · rw [eq, update_self] at hit
    cases hit
  · rw [update_of_ne eq] at hit
    exact act.tidy.named _ j o i dir hit

end

section

variable {R : Rules} {fs : Fs} {ip : Slot} {stops : Stop → Prop} {off n : BitVec 32}
  {src : Nat → UInt8} {post : Int → Fs → Prop}

theorem Sound.holds_readi (sound : Sound R fs) (held : 0 < (fs.icache ip).ref)
    (valid : (fs.icache ip).valid = true) : Holds (readi ip off n) fs (fun _ fs' => fs' = fs) stops := by
  by_cases block : BlockType (fs.icache ip).dinode.type
  · exact holds_readi_image sound.well sound.toCoherent held valid block (fun _ => rfl) fun _ => rfl
  · obtain ⟨type, _⟩ := sound.image_slot held valid
    obtain ⟨known, _⟩ := sound.tidy.plain (fs.icache ip).inum (type ▸ (sound.loaded ip held valid).2) (type ▸ block)
    rw [type] at known
    simp only [readi, holds_bind, holds_get, holds_ite]
    refine ⟨fun _ => ⟨fun _ => .pure rfl, fun _ => ?_⟩, fun file =>
      ⟨fun _ => .pure rfl, fun _ => ⟨fun _ => .pure rfl, fun large => ?_⟩⟩⟩
    · split <;> exact .pure rfl
    · exact absurd (known.resolve_left file) large

theorem Active.holds_writei (act : Active R fs) (held : 0 < (fs.icache ip).ref)
    (valid : (fs.icache ip).valid = true) (block : BlockType (fs.nodeAt ip).type)
    (named : IsDir (fs.nodeAt ip).type → ∀ k name i,
      ((fs.nodeAt ip).write src off.toNat n.toNat).slot k = some (name, i) → i < fs.disk.sb.ninodes)
    (full : stops tooBig) (exhausted : stops outOfBlocks) (refused : Refused (fs.icache ip).dinode off n → post (-1) fs)
    (ok : ¬Refused (fs.icache ip).dinode off n → ∀ fs', Active R fs' → Recasts fs fs' ip →
      fs'.image = update fs.image (fs.icache ip).inum ((fs.nodeAt ip).write src off.toNat n.toNat) → post n.toNat fs') :
    Holds (writei ip src off n) fs post stops := by
  have type := (act.image_slot held valid).1
  refine holds_writei_image act.well (act.ambient act.opened) held valid
    (type ▸ block) full exhausted refused fun fine fs' well env recasts img => ?_
  refine ok fine fs' ?_ recasts img
  refine act.recasts held valid recasts well env.toCoherent img ?_
  rw [img]
  exact act.tidy.update (fun _ untyped => absurd block untyped) named

theorem holds_writei_device (device : (fs.icache ip).dinode.type = T_DEV) (next : ∀ r, post r fs) :
    Holds (writei ip src off n) fs post stops := by
  simp only [writei, holds_bind, holds_get, holds_ite]
  refine ⟨fun _ => ⟨fun _ => .pure (next _), fun _ => ?_⟩, fun o => absurd device o⟩
  split <;> exact .pure (next _)

theorem Sound.device_of_plain (sound : Sound R fs) (held : 0 < (fs.icache ip).ref)
    (valid : (fs.icache ip).valid = true) (unblocked : ¬BlockType (fs.nodeAt ip).type)
    (large : (fs.nodeAt ip).type ≠ T_SFILE) : (fs.icache ip).dinode.type = T_DEV := by
  obtain ⟨type, _⟩ := sound.image_slot held valid
  obtain ⟨known, _⟩ := sound.tidy.plain (fs.icache ip).inum (type ▸ (sound.loaded ip held valid).2) unblocked
  rw [← type]
  exact known.resolve_right large

end

end Xv6

import Xv6.Ownership

/-! Files as flat byte arrays: the inodes as the layers above the blocks see them, and what
`readi` and `writei` do to them. -/

namespace Xv6

open Exec List Fs Function

/-- An inode without its block numbers: the bytes of its file stand in their place. -/
structure Node where
  type : BitVec 16
  nlink : BitVec 16
  size : BitVec 32
  byte : Nat → UInt8

namespace Node

def contents (node : Node) : List UInt8 := (List.range node.size.toNat).map node.byte

@[simps type nlink] def write (node : Node) (src : Nat → UInt8) (off n : Nat) : Node :=
  { node with
    size := if node.size.toNat < off + n then BitVec.ofNat 32 (off + n) else node.size
    byte := fun index => if off ≤ index ∧ index < off + n then src (index - off) else node.byte index }

end Node

/-- The inodes of a file system. Without blocks an inode keeps its bytes in its own area. -/
def Fs.image (fs : Fs) (inum : Nat) : Node :=
  let dinode := table fs.disk.sb fs.disk.block inum
  { type := dinode.type
    nlink := dinode.nlink
    size := dinode.size
    byte := if BlockType dinode.type then Xv6.fileByte fs.pointers fs.disk.block inum
      else dinode.addrs.byte }

/-- `contents` with the `n` bytes from `off` on replaced, and made longer if they reach past it. -/
def splice (contents : List UInt8) (off n : Nat) (src : Nat → UInt8) : List UInt8 :=
  contents.take off ++ (List.range n).map src ++ contents.drop (off + n)

namespace Node

variable {node : Node} {src : Nat → UInt8} {off n : Nat}

@[simp] theorem length_contents : node.contents.length = node.size.toNat := by simp [contents]

theorem write_size (fits : off + n < 2 ^ 32) : (node.write src off n).size.toNat = max node.size.toNat (off + n) := by
  simp only [write]
  split
  · rw [BitVec.toNat_ofNat, Nat.mod_eq_of_lt fits]
    omega
  · omega

theorem contents_write (low : off ≤ node.size.toNat) (fits : off + n < 2 ^ 32) :
    (node.write src off n).contents = splice node.contents off n src := by
  refine ext_getElem ?_ fun i left right => ?_
  · simp only [splice, length_append, length_take, length_drop, length_map,
      length_range, length_contents, write_size fits]
    omega
  · simp only [splice, contents, write, getElem_map, getElem_range, getElem_append,
      getElem_take, getElem_drop, length_append, length_take, length_map, length_range]
    have fst : min off node.size.toNat = off := by omega
    simp only [fst]
    by_cases pre : i < off
    · rw [dif_pos (by omega), dif_pos pre, if_neg (by omega)]
    · by_cases within : i < off + n
      · rw [dif_pos within, dif_neg pre, if_pos (by omega)]
      · rw [dif_neg within, if_neg (by omega)]
        congr 1
        omega

end Node

structure Recasts (fs fs' : Fs) (sl : Slot) : Prop where
  entry : fs'.icache sl = (fs.icache sl).setDinode (fs'.icache sl).dinode
  other : ∀ other, other ≠ sl → fs'.icache other = fs.icache other
  sb : fs'.disk.sb = fs.disk.sb
  fssize : fs'.disk.fssize = fs.disk.fssize
  outstanding : fs'.disk.log.outstanding = fs.disk.log.outstanding

section

variable {fs : Fs} {ip : Slot} {stops : Stop → Prop}

theorem Fs.image_congr {fs' : Fs} (sb : fs'.disk.sb = fs.disk.sb) (block : fs'.disk.block = fs.disk.block) :
    fs'.image = fs.image := by
  funext inum
  simp only [Fs.image, Fs.pointers, sb, block]

theorem Coherent.image_slot (coherent : Coherent fs) (held : 0 < (fs.icache ip).ref)
    (valid : (fs.icache ip).valid = true) : (fs.image (fs.icache ip).inum).type = (fs.icache ip).dinode.type ∧
    (fs.image (fs.icache ip).inum).nlink = (fs.icache ip).dinode.nlink ∧
    (fs.image (fs.icache ip).inum).size = (fs.icache ip).dinode.size := by
  rw [(coherent.loaded ip held valid).1]
  exact ⟨rfl, rfl, rfl⟩

theorem Coherent.image_byte (coherent : Coherent fs) (held : 0 < (fs.icache ip).ref)
    (valid : (fs.icache ip).valid = true) {inum : Nat} (ty : BlockType (fs.image inum).type) :
    (fs.image inum).byte = fs.fileByte ip inum := by
  have block : BlockType (table fs.disk.sb fs.disk.block inum).type := ty
  simp only [Fs.image, if_pos block, Fs.fileByte, coherent.places held valid]

theorem image_of_copied {fs' : Fs} {src : Nat → UInt8} {off n : Nat} {dinode : Dinode}
    (env : Ambient fs) (held : 0 < (fs.icache ip).ref)
    (valid : (fs.icache ip).valid = true) (ty : BlockType (fs.icache ip).dinode.type)
    (sb : fs'.disk.sb = fs.disk.sb) (chg : table fs.disk.sb fs'.disk.block =
      update (table fs.disk.sb fs.disk.block) (fs.icache ip).inum dinode)
    (type : dinode.type = (fs.icache ip).dinode.type) (nlink : dinode.nlink = (fs.icache ip).dinode.nlink)
    (size : dinode.size = if (fs.icache ip).dinode.size.toNat < off + n then BitVec.ofNat 32 (off + n)
      else (fs.icache ip).dinode.size) (copied : ∀ inum i, fileByte fs'.pointers fs'.disk.block inum i =
      if inum = (fs.icache ip).inum ∧ off ≤ i ∧ i < off + n then src (i - off)
      else fs.fileByte ip inum i) :
    fs'.image = update fs.image (fs.icache ip).inum ((fs.image (fs.icache ip).inum).write src off n) := by
  have same := (env.loaded ip held valid).1
  have places : fs.fileByte ip = fileByte fs.pointers fs.disk.block := by
    rw [Fs.fileByte, env.places held valid]
  funext inum
  by_cases here : inum = (fs.icache ip).inum
  · subst here
    have block : BlockType (table fs.disk.sb fs.disk.block (fs.icache ip).inum).type := same ▸ ty
    rw [update_self]
    simp only [Fs.image, Node.write, sb, chg, update_self, if_pos block,
      type, nlink, size, same, Node.mk.injEq, true_and]
    funext i
    rw [copied, places]
    simp only [true_and]
  · rw [update_of_ne here]
    simp only [Fs.image, sb, chg, update_of_ne here, Node.mk.injEq, true_and]
    congr 1
    funext i
    rw [copied, places, if_neg (fun both => here both.1)]

theorem Extended.recasts {start : Fs} {initial n : Nat}
    (extended : Extended start ip initial fs n) : Recasts start fs ip :=
  ⟨extended.amends.entry, fun _ => extended.amends.other, extended.steady.sb, extended.steady.fssize,
    extended.steady.outstanding⟩

theorem holds_writei_image {src : Nat → UInt8} {off n : BitVec 32} {post : Int → Fs → Prop}
    (well : WellFormed fs) (env : Ambient fs) (held : 0 < (fs.icache ip).ref)
    (valid : (fs.icache ip).valid = true) (ty : BlockType (fs.icache ip).dinode.type)
    (full : stops tooBig) (exhausted : stops outOfBlocks)
    (refused : Refused (fs.icache ip).dinode off n → post (-1) fs)
    (ok : ¬Refused (fs.icache ip).dinode off n → ∀ fs', WellFormed fs' → Ambient fs' →
      Recasts fs fs' ip → fs'.image = update fs.image (fs.icache ip).inum
        ((fs.image (fs.icache ip).inum).write src off.toNat n.toNat) → post n.toNat fs') :
    Holds (writei ip src off n) fs post stops := by
  refine holds_writei_blocks (Copied fs ip src off.toNat) (env.working well held valid ty)
    (well.places held valid ty env.toCoherent) full exhausted
    (fun k m pre after low _ small _ extended round copied => copied.round extended low small round)
    (fun inum i => by rw [if_neg (by omega)]) refused (fun ran idle fs' extended copied => ?_)
    fun ran longer fs' disk extended copied puts => ?_
  · -- nothing was allocated and the inode is as before
    obtain ⟨well', env'⟩ := wellFormed_idle well env held valid ty extended extended.present
    have recasts := extended.recasts
    have ref : 0 < (fs'.icache ip).ref := by rw [recasts.entry]; exact held
    have valid' : (fs'.icache ip).valid = true := by rw [recasts.entry]; exact valid
    have chg : table fs.disk.sb fs'.disk.block = update
        (table fs.disk.sb fs.disk.block) (fs.icache ip).inum (fs.icache ip).dinode := by
      rw [table_congr env.layout extended.steady.low, (env.loaded ip held valid).1, update_eq_self]
    refine ok ran fs' well' env' recasts (image_of_copied env held valid ty
      recasts.sb chg rfl rfl ?_ fun inum i => ?_)
    · rw [Grows.iff_of_accepted ran] at idle
      rw [if_neg idle]
    · rw [← copied inum i, Fs.fileByte, env'.places ref valid']
  · have sum : (off + n).toNat = off.toNat + n.toNat := by
      have limits := (Refused.not_iff.mp ran).2
      simp only [MAXFILE, NDIRECT, NINDIRECT, BSIZE] at limits
      rw [BitVec.toNat_add]
      omega
    obtain ⟨⟨well', env'⟩, pointers, chg⟩ :=
      wellFormed_grown well env held valid ty extended puts
    have recasts := extended.recasts
    have num := env.number held valid
    have below := env.layout.IBLOCK_lt num
    have bounds := env.layout.bounds
    have sb := puts.sb.trans recasts.sb
    refine ok ran _ well' env' ⟨?_, fun o ne => ?_, sb,
      puts.fssize.trans recasts.fssize, puts.outstanding.trans recasts.outstanding⟩
      (image_of_copied env held valid ty sb chg ?_ ?_ ?_ fun inum i => ?_)
    · rw [setDisk_icache, setInode_same, recasts.entry]
      rfl
    · rw [setDisk_icache, setInode_ne _ _ _ ne, recasts.other o ne]
    · rw [extended.amends.dinode]
      rfl
    · rw [extended.amends.dinode]
      rfl
    · rw [Grows.iff_of_accepted ran] at longer
      rw [if_pos longer, Dinode.setSize_size, ← sum, BitVec.ofNat_toNat, BitVec.setWidth_eq]
    · -- the inode block lies outside the data area
      rw [← copied inum i, pointers, Fs.fileByte, Xv6.fileByte, Xv6.fileByte]
      by_cases absent : fs'.places ip (inum, some (i / BSIZE)) = 0
      · rw [if_pos absent, if_pos absent]
      · have area := (extended.working.area absent).1
        rw [recasts.sb] at area
        rw [if_neg absent, if_neg absent, setDisk_disk, puts.block, iupdateWrite,
          Writes.applyAll_cons, Writes.applyAll_nil, update_of_ne]
        rw [recasts.sb, extended.amends.inum]
        omega

theorem holds_readi_image {off n : BitVec 32} {post : Option (List UInt8) → Fs → Prop}
    (well : WellFormed fs) (coherent : Coherent fs) (held : 0 < (fs.icache ip).ref)
    (valid : (fs.icache ip).valid = true) (ty : BlockType (fs.icache ip).dinode.type)
    (refused : (fs.icache ip).dinode.size < off ∨ off + n < off → post none fs)
    (ok : ¬((fs.icache ip).dinode.size < off ∨ off + n < off) →
      post (some (((fs.image (fs.icache ip).inum).contents.drop off.toNat).take n.toNat)) fs) :
    Holds (readi ip off n) fs post stops := by
  refine holds_readi_blocks (coherent.legible well held valid ty)
    (well.places held valid ty coherent) refused fun ran => ?_
  obtain ⟨type, _, size⟩ := coherent.image_slot held valid
  have bytes := coherent.image_byte held valid (type ▸ ty)
  convert ok ran using 2
  refine ext_getElem ?_ fun i left right => ?_
  · simp [Node.contents, size]
  · simp [Node.contents, bytes]

end

def OutOfRoom (reason : Stop) : Prop := reason = outOfBlocks ∨ reason = tooBig

/-- Files with blocks are flat byte arrays, unless a write stops for want of room. -/
theorem block_files_flat (fs : Fs) (well : WellFormed fs) (ambient : Ambient fs) (sl : Slot)
    (referenced : 0 < (fs.icache sl).ref) (valid : (fs.icache sl).valid = true)
    (typed : BlockType (fs.icache sl).dinode.type) (off n : BitVec 32) (src : Nat → UInt8) :
    let inum := (fs.icache sl).inum
    let contents := (fs.image inum).contents
    contents.length = (fs.icache sl).dinode.size.toNat ∧ Holds (readi sl off n) fs (fun r fs' => fs' = fs ∧
      (r = none ↔ contents.length < off.toNat ∨ 2 ^ 32 ≤ off.toNat + n.toNat) ∧
      ∀ bytes, r = some bytes → bytes = (contents.drop off.toNat).take n.toNat ∧
        bytes.length = min n.toNat (contents.length - off.toNat)) (fun _ => False) ∧
    Holds (writei sl src off n) fs (fun r fs' =>
      (r = -1 ↔ contents.length < off.toNat ∨ 2 ^ 32 ≤ off.toNat + n.toNat ∨
        MAXFILE * BSIZE < off.toNat + n.toNat) ∧ (r = -1 → fs' = fs) ∧ (r ≠ -1 → r = n.toNat ∧
        (fs'.image inum).contents = splice contents off.toNat n.toNat src ∧
        (fs'.image inum).contents.length = max contents.length (off.toNat + n.toNat) ∧
        (∀ other, other ≠ inum → (fs'.image other).contents = (fs.image other).contents) ∧
        WellFormed fs' ∧ Ambient fs')) OutOfRoom := by
  intro inum contents
  obtain ⟨_, _, size⟩ := ambient.toCoherent.image_slot referenced valid
  have length : contents.length = (fs.icache sl).dinode.size.toNat := by
    rw [Node.length_contents, size]
  have wraps : off + n < off ↔ 2 ^ 32 ≤ off.toNat + n.toNat := by
    rw [BitVec.lt_def, BitVec.toNat_add]
    omega
  have beyond : (fs.icache sl).dinode.size < off ↔ contents.length < off.toNat := by
    rw [BitVec.lt_def, length]
  have refuses : Refused (fs.icache sl).dinode off n ↔ contents.length < off.toNat ∨
      2 ^ 32 ≤ off.toNat + n.toNat ∨ MAXFILE * BSIZE < off.toNat + n.toNat := by
    have limit : MAXFILE * BSIZE < 2 ^ 32 := by decide
    rw [← not_iff_not, Refused.not_iff, ← length]
    omega
  refine ⟨length, ?_, ?_⟩
  · refine holds_readi_image well ambient.toCoherent referenced valid typed (fun refused => ?_) fun accepted => ?_
    · rw [wraps, beyond] at refused
      exact ⟨rfl, iff_of_true rfl refused, by simp⟩
    · rw [wraps, beyond] at accepted
      refine ⟨rfl, iff_of_false (by simp) accepted, ?_⟩
      rintro bytes ⟨⟩
      exact ⟨rfl, by simp [contents, inum]⟩
  · refine holds_writei_image well ambient referenced valid typed (Or.inr rfl) (Or.inl rfl)
      (fun refused => ?_) fun accepted fs' well' ambient' _ im => ?_
    · exact ⟨iff_of_true rfl (refuses.mp refused), fun _ => rfl, fun returned => absurd rfl returned⟩
    · have positive : ((n.toNat : Nat) : Int) ≠ -1 := by omega
      refine ⟨iff_of_false positive (refuses.not.mp accepted), fun failed => absurd failed positive,
        fun _ => ⟨rfl, ?_, ?_, fun other different => ?_, well', ambient'⟩⟩
      all_goals rw [im]
      · rw [update_self, Node.contents_write]
        · rw [refuses] at accepted
          simp only [contents, inum, Node.length_contents] at accepted
          omega
        · rw [refuses] at accepted
          omega
      · rw [update_self, Node.length_contents, Node.write_size, ← Node.length_contents]
        rw [refuses] at accepted
        omega
      · rw [update_of_ne different]

theorem block_files_flat_two : ∃ fs' : Fs, writei 0 (fun _ => 7) 0 600 (fileFs markedBitmap) = .ok 600 fs' ∧
    (fs'.image 2).contents = splice [] 0 600 fun _ => 7 := by
  have checked : (writei 0 (fun _ => 7) 0 600 (fileFs markedBitmap)).check (fun r _ => r == 600) = true := by
    decide +kernel
  obtain ⟨r, fs', ran, value⟩ := Outcome.of_check checked
  rw [beq_iff_eq] at value
  subst value
  have flat := block_files_flat (fileFs markedBitmap) (fileFs_wellFormed markedBitmap_free)
    fileFs_ambient 0 (by decide) (by decide) (by decide) 0 600 (fun _ => 7)
  obtain ⟨length, _, written⟩ := flat
  have bytes := ((written.of_ok ran).2.2 (by decide)).2.1
  refine ⟨fs', ran, ?_⟩
  rw [List.eq_nil_of_length_eq_zero length] at bytes
  exact bytes

theorem writei_fills_log : (writei 0 (fun _ => 7) 0 (BitVec.ofNat 32 (27 * 512))
    (fileFs markedBitmap)).reason? = some tooBig := by
  decide +kernel

/-- An empty file on a disk with every data block free: 27 blocks written to it at once do not
return. -/
theorem block_files_flat_log : WellFormed (fileFs markedBitmap) ∧ Ambient (fileFs markedBitmap) ∧
    (∀ b < FSSIZE, mkfsSb.dataStart ≤ b → markedBitmap.bit b = false) ∧
    (writei 0 (fun _ => 7) 0 (BitVec.ofNat 32 (27 * 512)) (fileFs markedBitmap)).reason? = some tooBig :=
  ⟨fileFs_wellFormed markedBitmap_free, fileFs_ambient, markedBitmap_free, writei_fills_log⟩

end Xv6

import Xv6.SmallPersist
import Xv6.Contents

/-! Small files and files with blocks, within the 52 bytes that a small file has: both are the
same flat byte array. -/

namespace Xv6

open Exec Fs Inode Node BitVec Writes Disk Function

inductive FileOp where
  | read (off n : BitVec 32)
  | write (src : Nat → UInt8) (off n : BitVec 32)

inductive Answer where
  | bytes (delivered : Option (List UInt8))
  | value (returned : Int)
  deriving DecidableEq

namespace FileOp

def Within : FileOp → Prop
  | .read _ _ => True
  | .write _ off n => off.toNat + n.toNat ≤ 52

def run (sl : Slot) : FileOp → FsM Answer
  | .read off n => do
      let bytes ← readi sl off n
      return .bytes bytes
  | .write src off n => do
      let value ← writei sl src off n
      return .value value

def flat (contents : List UInt8) : FileOp → Answer × List UInt8
  | .read off n =>
    if contents.length < off.toNat ∨ 2 ^ 32 ≤ off.toNat + n.toNat then (.bytes none, contents)
    else (.bytes (some ((contents.drop off.toNat).take n.toNat)), contents)
  | .write src off n =>
    if contents.length < off.toNat then (.value (-1), contents)
    else (.value n.toNat, splice contents off.toNat n.toNat src)

end FileOp

def runOps (sl : Slot) : List FileOp → FsM (List Answer)
  | [] => return []
  | op :: ops => do
      let answer ← op.run sl
      let rest ← runOps sl ops
      return answer :: rest

def flatOps (contents : List UInt8) : List FileOp → List Answer × List UInt8
  | [] => ([], contents)
  | op :: ops =>
    let rest := flatOps (op.flat contents).2 ops
    ((op.flat contents).1 :: rest.1, rest.2)

def Simulates (sl : Slot) (agrees : List UInt8 → Fs → Prop) : Prop :=
  ∀ (contents : List UInt8) (fs : Fs) (op : FileOp), op.Within → agrees contents fs →
    Holds (op.run sl) fs (fun answer fs' =>
      answer = (op.flat contents).1 ∧ agrees (op.flat contents).2 fs') OutOfRoom

theorem Simulates.runOps {ip : Slot} {agrees : List UInt8 → Fs → Prop}
    (simulates : Simulates ip agrees) {ops : List FileOp} (within : ∀ op ∈ ops, op.Within)
    {contents : List UInt8} {fs : Fs} (s0 : agrees contents fs) : Holds (runOps ip ops) fs (fun answers fs' =>
      answers = (flatOps contents ops).1 ∧ agrees (flatOps contents ops).2 fs') OutOfRoom := by
  induction ops generalizing contents fs with
  | nil =>
    rw [Xv6.runOps, holds_pure]
    exact ⟨rfl, s0⟩
  | cons op ops ih =>
    simp only [Xv6.runOps, holds_bind, holds_pure]
    refine (simulates contents fs op (within op List.mem_cons_self) s0).conseq fun answer fs1 fst => ?_
    refine (ih (fun o mem => within o (List.mem_cons_of_mem _ mem)) fst.2).conseq fun answers fs2 rest => ?_
    exact ⟨by rw [fst.1, rest.1]; rfl, rest.2⟩

section

variable {contents : List UInt8} {dinode : Dinode} {off n : BitVec 32}

theorem read_refused_iff (length : contents.length = dinode.size.toNat) :
    dinode.size < off ∨ off + n < off ↔ contents.length < off.toNat ∨ 2 ^ 32 ≤ off.toNat + n.toNat := by
  rw [lt_def, lt_def, toNat_add, length]
  omega

theorem write_refused_iff (length : contents.length = dinode.size.toNat)
    (within : off.toNat + n.toNat ≤ 52) : Refused dinode off n ↔ contents.length < off.toNat := by
  have limit : 52 ≤ MAXFILE * BSIZE := by decide
  rw [← not_iff_not, Refused.not_iff, length]
  omega

end

section

variable {ip : Slot} {contents : List UInt8} {fs : Fs}

structure InBlocks (sl : Slot) (contents : List UInt8) (fs : Fs) : Prop where
  well : WellFormed fs
  ambient : Ambient fs
  referenced : 0 < (fs.icache sl).ref
  valid : (fs.icache sl).valid = true
  typed : BlockType (fs.icache sl).dinode.type
  bytes : (fs.image (fs.icache sl).inum).contents = contents

theorem InBlocks.length (blocks : InBlocks ip contents fs) : contents.length = (fs.icache ip).dinode.size.toNat := by
  obtain ⟨_, _, size⟩ := blocks.ambient.image_slot blocks.referenced blocks.valid
  rw [← blocks.bytes, length_contents, size]

theorem InBlocks.simulates (ip : Slot) : Simulates ip (InBlocks ip) := by
  intro contents fs op within blocks
  have length := blocks.length
  obtain ⟨well, ambient, held, valid, typed, bytes⟩ := blocks
  cases op with
  | read off n =>
    simp only [FileOp.run, FileOp.flat, holds_bind, holds_pure]
    refine holds_readi_image well ambient.toCoherent held valid typed (fun refused => ?_) fun ok => ?_
    · rw [if_pos ((read_refused_iff length).mp refused)]
      exact ⟨rfl, well, ambient, held, valid, typed, bytes⟩
    · rw [if_neg ((read_refused_iff length).not.mp ok), bytes]
      exact ⟨rfl, well, ambient, held, valid, typed, bytes⟩
  | write src off n =>
    have fits : off.toNat + n.toNat ≤ 52 := within
    have refuses : Refused (fs.icache ip).dinode off n ↔ contents.length < off.toNat :=
      write_refused_iff length fits
    simp only [FileOp.run, FileOp.flat, holds_bind, holds_pure]
    refine holds_writei_image well ambient held valid typed (.inr rfl) (.inl rfl)
      (fun refused => ?_) fun ok fs' well' ambient' recasts image => ?_
    · rw [if_pos (refuses.mp refused)]
      exact ⟨rfl, well, ambient, held, valid, typed, bytes⟩
    · have inum : (fs'.icache ip).inum = (fs.icache ip).inum := by rw [recasts.entry]; rfl
      have ref : 0 < (fs'.icache ip).ref := by rw [recasts.entry]; exact held
      have valid' : (fs'.icache ip).valid = true := by rw [recasts.entry]; exact valid
      have type := (ambient'.image_slot ref valid').1
      rw [inum, image, update_self, write_type, (ambient.image_slot held valid).1] at type
      have low := Refused.not_iff.mp ok
      rw [if_neg (refuses.not.mp ok)]
      refine ⟨rfl, well', ambient', ref, valid', type ▸ typed, ?_⟩
      rw [inum, image, update_self, contents_write _ (by omega), bytes]
      rw [← length_contents, bytes, length]
      exact low.1

end

section

variable {s0 : Fs} {ip : Slot} {contents : List UInt8} {fs : Fs}

def Dinode.node (dinode : Dinode) : Node := ⟨dinode.type, dinode.nlink, dinode.size, dinode.addrs.byte⟩

theorem Dinode.node_written (dinode : Dinode) {src : Nat → UInt8} {off n : BitVec 32}
    (ok : ¬Refused dinode off n) (within : off.toNat + n.toNat ≤ 52) :
    (dinode.written src off n).node = dinode.node.write src off.toNat n.toNat := by
  have byte : ∀ i, (dinode.addrs.blit off.toNat n.toNat src).byte i =
      if off.toNat ≤ i ∧ i < off.toNat + n.toNat then src (i - off.toNat)
      else dinode.addrs.byte i := by
    intro i
    by_cases low : i < 52
    · exact Bytes.byte_blit _ _ _ _ low
    · rw [if_neg (by omega), Bytes.byte_blit_outside _ _ _ _ (by omega)]
  have size : BitVec.ofNat 32 (off.toNat + n.toNat) = off + n := by
    rw [ofNat_add, ofNat_toNat, ofNat_toNat, setWidth_eq, setWidth_eq]
  have grows := Grows.iff_of_accepted ok
  simp only [Dinode.node, Dinode.written, Dinode.inlined, Node.write, grows, size]
  split <;> simp [funext_iff, byte]

theorem Dinode.inline_eq (dinode : Dinode) : dinode.inline = dinode.node.contents := by
  simp [Dinode.inline, Bytes.read, Node.contents, Dinode.node]

theorem Enclosed.trans {fs' : Fs} {off n : Nat} (fst : Enclosed s0 fs ip 0 52)
    (snd : Enclosed fs fs' ip off n) (fits : off + n ≤ 52) : Enclosed s0 fs' ip 0 52 := by
  obtain ⟨others, tail, addrs, size, here, bytes, _⟩ := fst
  obtain ⟨others', tail', addrs', size', here', bytes', short⟩ := snd
  refine ⟨fun o ne => (others' o ne).trans (others o ne),
    tail'.trans tail, addrs', size', ?_, fun k outside => ?_, short⟩
  · rw [here', here]
    rfl
  · rw [bytes' k (by omega), here]
    exact bytes k outside

structure Inline (s0 : Fs) (sl : Slot) (contents : List UInt8) (fs : Fs) : Prop where
  enclosed : Enclosed s0 fs sl 0 52
  block : ∀ b, b ≠ IBLOCK (s0.icache sl).inum s0.disk.sb → fs.disk.block b = s0.disk.block b
  others : ∀ inum, inum ≠ (s0.icache sl).inum → table s0.disk.sb fs.disk.block inum =
    table s0.disk.sb s0.disk.block inum
  sb : fs.disk.sb = s0.disk.sb
  fssize : fs.disk.fssize = s0.disk.fssize
  held : fs.disk.held = s0.disk.held
  outstanding : fs.disk.log.outstanding = s0.disk.log.outstanding
  bytes : (fs.icache sl).dinode.node.contents = contents

theorem Inline.refl (empty : (s0.icache ip).dinode.size = 0) : Inline s0 ip [] s0 := by
  refine ⟨Enclosed.refl _ _ (by simp [empty]), fun _ _ => rfl, fun _ _ => rfl, rfl, rfl, rfl, rfl, ?_⟩
  simp [Node.contents, Dinode.node, empty]

section

variable (inline : Inline s0 ip contents fs)

include inline

theorem Inline.entry : (fs.icache ip).inum = (s0.icache ip).inum ∧
    (fs.icache ip).dinode.type = (s0.icache ip).dinode.type ∧ (fs.icache ip).dinode.size.toNat ≤ 52 := by
  obtain ⟨_, _, addrs, size, here, _, short⟩ := inline.enclosed
  rw [here]
  exact ⟨rfl, rfl, short⟩

theorem Inline.length : contents.length = (fs.icache ip).dinode.size.toNat := by
  rw [← inline.bytes, length_contents]
  rfl

theorem Inline.write {off n : BitVec 32} (src : Nat → UInt8) (disk : Disk) (fits : off.toNat + n.toNat ≤ 52)
    (ok : ¬Refused (fs.icache ip).dinode off n)
    (block : ∀ b, b ≠ IBLOCK (s0.icache ip).inum s0.disk.sb → disk.block b = fs.disk.block b)
    (others : ∀ inum, inum ≠ (s0.icache ip).inum → table s0.disk.sb disk.block inum =
      table s0.disk.sb fs.disk.block inum) (sb : disk.sb = fs.disk.sb)
    (fssize : disk.fssize = fs.disk.fssize) (held : disk.held = fs.disk.held)
    (outstanding : disk.log.outstanding = fs.disk.log.outstanding) :
    Inline s0 ip (splice contents off.toNat n.toNat src) ((fs.setInode ip ((fs.icache ip).setDinode
        ((fs.icache ip).dinode.written src off n))).setDisk disk) := by
  have low := Refused.not_iff.mp ok
  refine ⟨inline.enclosed.trans (enclosed_setInode fs ip src off n inline.entry.2.2 fits disk) fits,
    fun b o => (block b o).trans (inline.block b o),
    fun inum o => (others inum o).trans (inline.others inum o), sb.trans inline.sb,
    fssize.trans inline.fssize, held.trans inline.held, outstanding.trans inline.outstanding, ?_⟩
  rw [setDisk_icache, setInode_same, setDinode_dinode,
    Dinode.node_written _ ok fits, contents_write _ (by omega), inline.bytes]
  exact low.1

end

theorem Inline.simulates (layout : Layout s0.disk.sb s0.disk.fssize)
    (unheld : s0.disk.held = []) (opened : 0 < s0.disk.log.outstanding) (num : (s0.icache ip).inum < s0.disk.sb.ninodes)
    (small : (s0.icache ip).dinode.type = T_SFILE) : Simulates ip (Inline s0 ip) := by
  intro contents fs op within inline
  obtain ⟨inum, type, short⟩ := inline.entry
  have length := inline.length
  cases op with
  | read off n =>
    simp only [FileOp.run, FileOp.flat, holds_bind, holds_pure]
    refine holds_readi_small (type.trans small) short (fun refused => ?_) fun ok => ?_
    · rw [if_pos ((read_refused_iff length).mp refused)]
      exact ⟨rfl, inline⟩
    · rw [if_neg ((read_refused_iff length).not.mp ok), Dinode.inline_eq, inline.bytes]
      exact ⟨rfl, inline⟩
  | write src off n =>
    have fits : off.toNat + n.toNat ≤ 52 := within
    have refuses : Refused (fs.icache ip).dinode off n ↔ contents.length < off.toNat :=
      write_refused_iff length fits
    simp only [FileOp.run, FileOp.flat, holds_bind, holds_pure]
    refine holds_writei_small (type.trans small) (fun refused => ?_) (fun ok keeps => ?_) fun ok grows => ?_
    · rw [if_pos (refuses.mp refused)]
      exact ⟨rfl, inline⟩
    · have done := inline.write src fs.disk fits ok (fun _ _ => rfl) (fun _ _ => rfl) rfl rfl rfl rfl
      rw [Dinode.written, if_neg keeps] at done
      rw [if_neg (refuses.not.mp ok), fs.moveIn_inside ip src fits]
      exact ⟨rfl, done⟩
    · have low := layout.IBLOCK_lt num
      have bounds := layout.bounds
      rw [fs.moveIn_inside ip src fits, setInode_setInode, if_neg (refuses.not.mp ok)]
      refine holds_iupdate ?_ ?_ ?_ (.inr rfl) fun disk puts => ?_
      all_goals simp only [setInode_same, setInode_disk, setDinode_inum,
        setDinode_dinode, inum, inline.sb, inline.held, inline.fssize, inline.outstanding] at *
      · simp [unheld]
      · omega
      · exact opened
      · refine ⟨trivial, inline.write src disk fits ok (fun b o => ?_)
          (fun o ne => ?_) puts.sb puts.fssize puts.held puts.outstanding⟩
        · rw [puts.block, iupdateWrite, applyAll_cons, applyAll_nil, update_of_ne o]
        · rw [puts.block, iupdateWrite, applyAll_cons, applyAll_nil, table_save layout num, update_of_ne ne]

end

structure Fresh (fs : Fs) (sl : Slot) (type : BitVec 16) : Prop where
  well : WellFormed fs
  ambient : Ambient fs
  referenced : 0 < (fs.icache sl).ref
  valid : (fs.icache sl).valid = true
  type : (fs.icache sl).dinode.type = type
  empty : (fs.icache sl).dinode.size = 0

/-- Within 52 bytes a small file and a file with blocks both answer as a list of bytes does, unless
blocks or room in the log run out; the small file takes no block. -/
theorem small_files_like_blocks (small plain : Fs) (sl sl' : Slot) (ops : List FileOp)
    (within : ∀ op ∈ ops, op.Within) (inline : Fresh small sl T_SFILE) (blocks : Fresh plain sl' T_FILE) :
    Holds (runOps sl ops) small (fun answers small' =>
      answers = (flatOps [] ops).1 ∧ (small'.icache sl).dinode.size.toNat = (flatOps [] ops).2.length ∧
      Enclosed small small' sl 0 52 ∧ (∀ b, b < small.disk.sb.size → (Used small'.disk.sb small'.disk.block b ↔
        Used small.disk.sb small.disk.block b)) ∧
      ∀ inum, inum ≠ (small.icache sl).inum → table small'.disk.sb small'.disk.block inum =
        table small.disk.sb small.disk.block inum) OutOfRoom ∧ Holds (runOps sl' ops) plain (fun answers plain' =>
      answers = (flatOps [] ops).1 ∧
      (plain'.icache sl').dinode.size.toNat = (flatOps [] ops).2.length) OutOfRoom := by
  constructor
  · have layout := inline.ambient.layout
    have number := inline.ambient.number inline.referenced inline.valid
    refine ((Inline.simulates layout inline.ambient.unheld inline.ambient.opened number
      inline.type).runOps within (Inline.refl inline.empty)).conseq fun answers small' done => ?_
    obtain ⟨same, final⟩ := done
    refine ⟨same, final.length.symm, final.enclosed, fun b inside => ?_, final.sb ▸ final.others⟩
    have low := layout.IBLOCK_lt number
    have bounds := layout.bounds
    rw [Used, Used, final.sb, final.block]
    rw [layout.BBLOCK_eq inside]
    omega
  · have bytes : (plain.image (plain.icache sl').inum).contents = [] := by
      obtain ⟨_, _, size⟩ := blocks.ambient.image_slot blocks.referenced blocks.valid
      simp [Node.contents, size, blocks.empty]
    refine ((InBlocks.simulates sl').runOps within ⟨blocks.well, blocks.ambient, blocks.referenced,
      blocks.valid, Or.inl blocks.type, bytes⟩).conseq fun answers plain' done => ?_
    exact ⟨done.1, done.2.length.symm⟩

theorem single_fresh {type : BitVec 16} (ty : type ≠ 0) :
    Fresh (single (blankWith markedBitmap).inOp 2 (Dinode.fresh type)) 0 type := by
  have formatted : Formatted markedBitmap (blankWith markedBitmap).inOp :=
    ⟨rfl, rfl, rfl, fun _ _ => rfl⟩
  have coherent := single_coherent formatted (show 2 < NINODES by decide) markedBitmap_marked
    (show (Dinode.fresh type).type ≠ 0 from ty)
  exact ⟨single_wellFormed formatted (by decide) rfl rfl markedBitmap_free, ⟨coherent, Int.one_pos⟩,
    Int.one_pos, show (I_VALID &&& I_VALID != 0) = true by decide, rfl, rfl⟩

def threeBytes : List FileOp := [.write (fun _ => 7) 0 3, .write (fun _ => 8) 1 1, .read 0 52]

def threeAnswers : List Answer := [.value 3, .value 1, .bytes (some [7, 8, 7])]

theorem threeBytes_returns (type : BitVec 16) (listed : type = T_SFILE ∨ type = T_FILE) :
    (runOps 0 threeBytes (single (blankWith markedBitmap).inOp 2 (Dinode.fresh type))).check
      (fun _ _ => true) = true := by
  rcases listed with rfl | rfl <;> decide +kernel

theorem small_files_like_blocks_three :
    (∃ small', runOps 0 threeBytes (Fs.single (Disk.blankWith markedBitmap).inOp 2 (Dinode.fresh T_SFILE)) =
      .ok threeAnswers small' ∧ (small'.icache 0).dinode.size.toNat = 3) ∧
    ∃ plain', runOps 0 threeBytes (Fs.single (Disk.blankWith markedBitmap).inOp 2 (Dinode.fresh T_FILE)) =
      .ok threeAnswers plain' ∧ (plain'.icache 0).dinode.size.toNat = 3 := by
  have flat : flatOps [] threeBytes = (threeAnswers, [7, 8, 7]) := by decide +kernel
  have alike := small_files_like_blocks _ _ 0 0 threeBytes (by simp [threeBytes, FileOp.Within])
    (single_fresh (show T_SFILE ≠ 0 by decide)) (single_fresh (show T_FILE ≠ 0 by decide))
  rw [flat] at alike
  obtain ⟨_, small', ran, _⟩ := Outcome.of_check (threeBytes_returns T_SFILE (Or.inl rfl))
  obtain ⟨_, plain', ran', _⟩ := Outcome.of_check (threeBytes_returns T_FILE (Or.inr rfl))
  obtain ⟨rfl, size, _⟩ := alike.1.of_ok ran
  obtain ⟨rfl, size'⟩ := alike.2.of_ok ran'
  exact ⟨⟨small', ran, size⟩, plain', ran', size'⟩

end Xv6

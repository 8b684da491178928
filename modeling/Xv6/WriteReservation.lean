import Xv6.Operations
import Mathlib.Order.Interval.Finset.Nat

/-! How many blocks the transactions of `filewrite` log, against the `MAXOPBLOCKS` that
`begin_op` reserves for each. -/

namespace Xv6

open Exec Writes List Fs Kernel Inode

/-- The blocks logged by writing `n` bytes at `off` to a file of `size` bytes: data, bitmap, indirect and
inode block. -/
def chunkBlocks (size off n : Nat) : Nat :=
  (blocksOf (off + n) - off / BSIZE) +
    (if blocksOf size < blocksOf (off + n) then if NDIRECT < blocksOf (off + n) then 2 else 1 else 0) +
    if size < off + n then 1 else 0

def Logged (start : Fs) (sl : Slot) (initial first off : Nat) (fs : Fs) : Prop :=
  ∀ b, b ∈ fs.disk.written ↔ (first < off ∧ ∃ bn, first / BSIZE ≤ bn ∧ bn < blocksOf off ∧
      b = fs.places sl ((start.icache sl).inum, some bn)) ∨ (initial < blocksOf off ∧ (b = start.disk.sb.bmapstart ∨
      NDIRECT < blocksOf off ∧ b = fs.places sl ((start.icache sl).inum, none)))

section

variable {s0 fs fs' : Fs} {ip : Slot} {initial bn addr : Nat}

theorem Entered.bitmap {k : Option Nat} (work : Working fs ip)
    (single : fs.disk.sb.size ≤ BPB) (entered : Entered fs fs' ip k addr) :
    BBLOCK addr fs.disk.sb = fs.disk.sb.bmapstart := by
  have lt := entered.area.2
  simp only [BPB, BSIZE] at single
  rw [work.layout.BBLOCK_eq lt]
  omega

theorem Mapped.logged (work : Working fs ip) (single : fs.disk.sb.size ≤ BPB)
    (mapped : Mapped fs fs' ip bn addr) (b : Nat) : b ∈ fs'.disk.written ↔ b ∈ fs.disk.written ∨
      b = fs'.places ip ((fs.icache ip).inum, some bn) ∨ b = fs.disk.sb.bmapstart ∨
      NDIRECT ≤ bn ∧ b = fs'.places ip ((fs.icache ip).inum, none) := by
  have new := (mapped.places work).2.1
  obtain ⟨middle, ⟨o, rfl⟩ | ⟨here, indirect, fst⟩, last⟩ := mapped
  · rw [last.logged, last.bitmap work single, new]
    simp
  · have inum := fst.amends.inum
    have sb := fst.steady.sb
    have named : fs'.places ip ((fs.icache ip).inum, none) = indirect := by
      rw [last.places, if_neg (by simp), fst.places, if_pos rfl]
    rw [last.logged, fst.logged, fst.bitmap work single,
      last.bitmap fst.working (sb.symm ▸ single), inum, sb, new, named]
    simp only [reduceCtorEq, false_and, exists_false, or_false, Option.some.injEq, exists_eq_left']
    have past : NDIRECT ≤ bn := here.ge
    tauto

theorem Logged.round {fst off m : Nat} {change : Block → Block} (single : s0.disk.sb.size ≤ BPB)
    (low : fst ≤ off) (pos : 0 < m) (small : off % BSIZE + m ≤ BSIZE)
    (extended : Extended s0 ip initial fs (max initial (blocksOf off)))
    (round : Round fs fs' ip (off / BSIZE) (off / BSIZE = max initial (blocksOf off)) change)
    (logged : Logged s0 ip initial fst off fs) : Logged s0 ip initial fst (off + m) fs' := by
  intro b
  have inum := extended.amends.inum
  have next : blocksOf (off + m) = off / BSIZE + 1 := by
    simp only [blocksOf, BSIZE] at *
    omega
  have pre : blocksOf off = off / BSIZE ∨ blocksOf off = off / BSIZE + 1 := by
    simp only [blocksOf, BSIZE]
    omega
  have begins : fst / BSIZE ≤ off / BSIZE := Nat.div_le_div_right low
  have aligned : blocksOf off = off / BSIZE → fst < off ∨ fst = off := by omega
  obtain ⟨middle, ⟨old, rfl⟩ | ⟨fresh, addr, mapped⟩, stored⟩ := round
  · -- the block was there: it alone is added to the log
    rw [stored.logged, logged, stored.places, inum, next]
    constructor
    · rintro ((⟨_, bn, from_, below, rfl⟩ | ⟨grown, rest⟩) | rfl)
      · exact .inl ⟨by omega, bn, from_, by omega, rfl⟩
      · have eq : blocksOf off = off / BSIZE + 1 := by omega
        exact .inr (eq ▸ ⟨grown, rest⟩)
      · exact .inl ⟨by omega, _, begins, by omega, rfl⟩
    · rintro (⟨_, bn, from_, below, rfl⟩ | ⟨grown, rest⟩)
      · by_cases last : bn = off / BSIZE
        · exact .inr (last ▸ rfl)
        · refine .inl (.inl ⟨?_, bn, from_, by omega, rfl⟩)
          by_contra stays
          have eq : fst = off := by omega
          subst eq
          omega
      · have eq : blocksOf off = off / BSIZE + 1 := by omega
        exact .inl (.inr (eq.symm ▸ ⟨grown, rest⟩))
  · have count : blocksOf off = off / BSIZE := by omega
    have more : initial ≤ off / BSIZE := by omega
    obtain ⟨_, _, _, eq⟩ := mapped.places extended.working
    have sb := extended.steady.sb
    rw [stored.logged, mapped.logged extended.working (sb.symm ▸ single), logged, stored.places,
      mapped.amends.inum, inum, next, count, sb]
    rw [inum] at eq
    have data : ∀ bn < off / BSIZE, middle.places ip ((s0.icache ip).inum, some bn) =
        fs.places ip ((s0.icache ip).inum, some bn) := fun bn below =>
      eq _ (by simp only [ne_eq, Prod.mk.injEq, Option.some.injEq, true_and]; omega) (by simp)
    have indirect : NDIRECT < off / BSIZE → middle.places ip ((s0.icache ip).inum, none) =
        fs.places ip ((s0.icache ip).inum, none) := fun past =>
      eq _ (by simp) fun clash => by omega
    constructor
    · rintro (((⟨_, bn, from_, below, rfl⟩ | ⟨_, rfl | ⟨past, rfl⟩⟩) | rfl | rfl | ⟨past, rfl⟩) | rfl)
      · exact .inl ⟨by omega, bn, from_, by omega, (data bn below).symm⟩
      · exact .inr ⟨by omega, .inl rfl⟩
      · exact .inr ⟨by omega, .inr ⟨by omega, (indirect past).symm⟩⟩
      · exact .inl ⟨by omega, _, begins, by omega, rfl⟩
      · exact .inr ⟨by omega, .inl rfl⟩
      · exact .inr ⟨by omega, .inr ⟨by omega, rfl⟩⟩
      · exact .inl ⟨by omega, _, begins, by omega, rfl⟩
    · rintro (⟨_, bn, from_, below, rfl⟩ | ⟨_, rfl | ⟨past, rfl⟩⟩)
      · by_cases last : bn = off / BSIZE
        · exact .inr (last ▸ rfl)
        · refine .inl (.inl (.inl ⟨?_, bn, from_, by omega, data bn (by omega)⟩))
          by_contra stays
          have eq : fst = off := by omega
          subst eq
          omega
      · exact .inl (.inr (.inr (.inl rfl)))
      · exact .inl (.inr (.inr (.inr ⟨by omega, rfl⟩)))

end

theorem card_logged {written extra : List Nat} {k : Nat → Nat} {low high : Nat}
    (logged : ∀ b, b ∈ written ↔ (∃ bn, low ≤ bn ∧ bn < high ∧ b = k bn) ∨ b ∈ extra)
    (distinct : ∀ bn < high, ∀ o < high, k bn = k o → bn = o)
    (apart : ∀ bn < high, k bn ∉ extra) (nodup : extra.Nodup) : written.toFinset.card = high - low + extra.length := by
  have split : written.toFinset = (Finset.Ico low high).image k ∪ extra.toFinset := by
    ext b
    simp only [mem_toFinset, logged, Finset.mem_union, Finset.mem_image, Finset.mem_Ico, and_assoc, eq_comm]
  have disjoint : Disjoint ((Finset.Ico low high).image k) extra.toFinset := by
    rw [Finset.disjoint_left]
    rintro b mem o
    obtain ⟨bn, range, rfl⟩ := Finset.mem_image.mp mem
    exact apart bn (Finset.mem_Ico.mp range).2 (mem_toFinset.mp o)
  have injective : Set.InjOn k (Finset.Ico low high) := fun bn range o range' eq =>
    distinct bn (Finset.mem_Ico.mp range).2 o (Finset.mem_Ico.mp range').2 eq
  rw [split, Finset.card_union_of_disjoint disjoint, Finset.card_image_of_injOn injective, Nat.card_Ico,
    toFinset_card_of_nodup nodup]

def addedBlocks (bitmap indirect before after : Nat) : List Nat :=
  if before < after then if NDIRECT < after then [bitmap, indirect] else [bitmap] else []

section

variable {bitmap indirect pre after : Nat}

theorem addedBlocks_length : (addedBlocks bitmap indirect pre after).length =
    if pre < after then if NDIRECT < after then 2 else 1 else 0 := by
  unfold addedBlocks
  split
  · split <;> rfl
  · rfl

theorem mem_addedBlocks {b : Nat} : b ∈ addedBlocks bitmap indirect pre after ↔
    pre < after ∧ (b = bitmap ∨ NDIRECT < after ∧ b = indirect) := by
  unfold addedBlocks
  split
  · rename_i added
    split <;> rename_i past <;> simp [added, past]
  · rename_i eq
    simp [eq]

theorem addedBlocks_nodup (ne : NDIRECT < after → bitmap ≠ indirect) :
    (addedBlocks bitmap indirect pre after).Nodup := by
  unfold addedBlocks
  split
  · split
    · rename_i past
      simpa using ne past
    · simp
  · simp

end

theorem blocksOf_mono {size size' : Nat} (le : size ≤ size') : blocksOf size ≤ blocksOf size' :=
  Nat.div_le_div_right (by omega)

section

variable {s0 fs : Fs} {ip : Slot} {stops : Stop → Prop}

theorem card_chunk {written o : List Nat} {size fst n count : Nat} (pos : 0 < n)
    (extended : Extended s0 ip (blocksOf size) fs count) (covers : blocksOf (fst + n) ≤ count)
    (logged : Logged s0 ip (blocksOf size) fst (fst + n) fs)
    (adds : ∀ b, b ∈ written ↔ b ∈ fs.disk.written ∨ b ∈ o) (nodup : o.Nodup)
    (low : ∀ b ∈ o, b < s0.disk.sb.bmapstart) : written.toFinset.card = blocksOf (fst + n) - fst / BSIZE +
      (if blocksOf size < blocksOf (fst + n) then if NDIRECT < blocksOf (fst + n) then 2 else 1
        else 0) + o.length := by
  have work := extended.working
  have sb := extended.steady.sb
  have limits := work.layout.bounds
  rw [sb] at limits
  have limit := extended.present.limit
  have has : ∀ bn < blocksOf (fst + n), fs.places ip ((s0.icache ip).inum, some bn) ≠ 0 :=
    fun bn below => (extended.present.file bn (by omega)).mpr (by omega)
  have area : ∀ k, fs.places ip k ≠ 0 → s0.disk.sb.bmapstart < fs.places ip k :=
    fun k nonzero => by
      have high := (work.area nonzero).1
      rw [sb] at high
      omega
  have distinct : ∀ bn < blocksOf (fst + n), ∀ bn' < blocksOf (fst + n), fs.places ip ((s0.icache ip).inum, some bn) =
        fs.places ip ((s0.icache ip).inum, some bn') → bn = bn' := by
    intro bn below bn' _ eq
    have places := work.owned.owns.unique _ _ eq (has bn below)
    simpa using places
  have indirect : NDIRECT < blocksOf (fst + n) → fs.places ip ((s0.icache ip).inum, none) ≠ 0 := fun past =>
    extended.present.indirect.mpr (by omega)
  have apart : ∀ bn < blocksOf (fst + n), fs.places ip ((s0.icache ip).inum, some bn) ≠
      fs.places ip ((s0.icache ip).inum, none) := by
    intro bn below eq
    have places := work.owned.owns.unique _ _ eq (has bn below)
    simp at places
  have members : ∀ b ∈ o, ∀ k, fs.places ip k ≠ 0 → fs.places ip k ≠ b := by
    intro b mem k nonzero eq
    have := area k nonzero
    have := low b mem
    omega
  have bitmap : ∀ b ∈ o, s0.disk.sb.bmapstart ≠ b := fun b mem => by
    have := low b mem
    omega
  have length : (addedBlocks s0.disk.sb.bmapstart (fs.places ip ((s0.icache ip).inum, none))
      (blocksOf size) (blocksOf (fst + n)) ++ o).length =
      (if blocksOf size < blocksOf (fst + n) then if NDIRECT < blocksOf (fst + n) then 2 else 1
        else 0) + o.length := by
    rw [length_append, addedBlocks_length]
  rw [Nat.add_assoc, ← length]
  refine card_logged (fun b => ?_) distinct (fun bn below mem => ?_) ?_
  · rw [adds, logged, mem_append, mem_addedBlocks]
    have moved : fst < fst + n := by omega
    simp only [moved, true_and, or_assoc]
  · rcases mem_append.mp mem with added | mem
    · rcases mem_addedBlocks.mp added with ⟨_, eq | ⟨_, eq⟩⟩
      · have := area _ (has bn below)
        omega
      · exact apart bn below eq
    · exact members _ mem _ (has bn below) rfl
  · refine nodup_append.mpr ⟨?_, nodup, ?_⟩
    · refine addedBlocks_nodup fun past eq => ?_
      have := area _ (indirect past)
      omega
    · rintro b added c mem rfl
      rcases mem_addedBlocks.mp added with ⟨_, eq | ⟨past, eq⟩⟩
      · exact bitmap b mem eq.symm
      · exact members b mem _ (indirect past) eq.symm

structure Chunk (fs fs' : Fs) (sl : Slot) (off n : BitVec 32) (r : Int) : Prop where
  well : WellFormed fs'
  ambient : Ambient fs'
  sections : fs'.disk.sections = fs.disk.sections
  sb : fs'.disk.sb = fs.disk.sb
  entry : ∃ dinode, dinode.type = (fs.icache sl).dinode.type ∧ fs'.icache sl = (fs.icache sl).setDinode dinode
  refused : Refused (fs.icache sl).dinode off n → r = -1 ∧ fs' = fs
  accepted : ¬Refused (fs.icache sl).dinode off n → r = n.toNat ∧
    (fs'.icache sl).dinode.size.toNat = max (fs.icache sl).dinode.size.toNat (off.toNat + n.toNat) ∧
    fs'.disk.written.toFinset.card = chunkBlocks (fs.icache sl).dinode.size.toNat off.toNat n.toNat

theorem holds_writei_chunk {src : Nat → UInt8} {off n : BitVec 32} (well : WellFormed fs)
    (ambient : Ambient fs) (held : 0 < (fs.icache ip).ref)
    (valid : (fs.icache ip).valid = true) (ty : BlockType (fs.icache ip).dinode.type)
    (single : fs.disk.sb.size ≤ BPB) (empty : fs.disk.written = []) (pos : 0 < n.toNat)
    (full : stops tooBig) (exhausted : stops outOfBlocks) :
    Holds (writei ip src off n) fs (fun res fs' => Chunk fs fs' ip off n res) stops := by
  have num := ambient.number held valid
  have low := ambient.layout.IBLOCK_lt num
  refine holds_writei_blocks (fun k fs' => blocksOf off.toNat ≤ blocksOf (fs.icache ip).dinode.size.toNat →
      Logged fs ip (blocksOf (fs.icache ip).dinode.size.toNat) off.toNat k fs')
    (ambient.working well held valid ty) (well.places held valid ty ambient.toCoherent) full exhausted
    (fun k m pre after behind some_ small _ extended round logged inside => ?_)
    (fun inside b => ?_) (fun refused => ?_) (fun ok shorter fs' extended logged => ?_)
    fun ok longer fs' disk extended logged puts => ?_
  · exact Logged.round single behind some_ small extended round (logged inside)
  · simp only [empty, not_mem_nil, Nat.lt_irrefl, false_and, false_or, false_iff, not_and]
    omega
  · exact ⟨well, ambient, rfl, rfl, ⟨_, rfl, rfl⟩, fun _ => ⟨rfl, rfl⟩, fun ok => absurd refused ok⟩
  · obtain ⟨well', ambient'⟩ := wellFormed_idle well ambient held valid ty extended extended.present
    have limits := Refused.not_iff.mp ok
    rw [Grows.iff_of_accepted ok] at shorter
    have eq := extended.idle rfl
    refine ⟨well', ambient', extended.steady.sections, extended.steady.sb,
      ⟨_, by rw [eq], extended.amends.entry⟩, fun refused => absurd refused ok, fun _ => ⟨rfl, by rw [eq]; omega, ?_⟩⟩
    have blocks := logged (blocksOf_mono limits.1)
    have adds : ∀ b, b ∈ fs'.disk.written ↔ b ∈ fs'.disk.written ∨ b ∈ [] := by simp
    have card := card_chunk pos extended (blocksOf_mono (by omega)) blocks adds nodup_nil (by simp)
    rw [card, chunkBlocks, if_neg shorter, length_nil]
  · obtain ⟨⟨well', ambient'⟩, _⟩ :=
      wellFormed_grown well ambient held valid ty extended puts
    have limits := Refused.not_iff.mp ok
    have sum : (off + n).toNat = off.toNat + n.toNat := by
      simp only [MAXFILE, NDIRECT, NINDIRECT, BSIZE] at limits
      rw [BitVec.toNat_add]
      omega
    rw [Grows.iff_of_accepted ok] at longer
    have entry := extended.amends.entry
    refine ⟨well', ambient', puts.sections.trans extended.steady.sections,
      puts.sb.trans extended.steady.sb, ⟨(fs'.icache ip).dinode.setSize (off + n), ?_, ?_⟩,
      fun refused => absurd refused ok, fun _ => ⟨rfl, ?_, ?_⟩⟩
    · rw [extended.amends.dinode]
      rfl
    · rw [setDisk_icache, setInode_same, entry]
      rfl
    · rw [setDisk_icache, setInode_same, setDinode_dinode, Dinode.setSize_size, sum]
      omega
    · have blocks := logged (blocksOf_mono limits.1)
      have adds : ∀ b, b ∈ disk.written ↔ b ∈ fs'.disk.written ∨ b ∈ [IBLOCK (fs.icache ip).inum fs.disk.sb] := by
        intro b
        rw [puts.written, mem_logAll, extended.steady.sb, extended.amends.inum]
        simp [iupdateWrite, eq_comm]
      have card := card_chunk pos extended (by rw [sum]) blocks adds (nodup_singleton _) (by simpa using low)
      rw [setDisk_disk, card, chunkBlocks, if_pos longer, length_singleton]

end

/-- The open file `f` is a regular file of `size` bytes, on a well-formed disk as `mkfs` lays it
out, and stands at `off`. -/
structure OnFile (kern : Kernel) (f : FileSlot) (size off : Nat) : Prop where
  well : WellFormed kern.fs
  resting : Resting kern.fs
  sb : kern.fs.disk.sb = mkfsSb
  referenced : 0 < (kern.fs.icache (kern.ftable f).ip).ref
  type : (table kern.fs.disk.sb kern.fs.disk.block (kern.fs.icache (kern.ftable f).ip).inum).type = T_FILE
  size : (table kern.fs.disk.sb kern.fs.disk.block (kern.fs.icache (kern.ftable f).ip).inum).size.toNat = size
  off : (kern.ftable f).off.toNat = off

def SectionDone (kern' : Kernel) (f : FileSlot) (size off n1 : Nat) (r : Int) (blocks : List Nat) : Prop :=
  (¬(off ≤ size ∧ off + n1 ≤ MAXFILE * BSIZE) ∧ r = -1 ∧ blocks = []) ∨
    ((off ≤ size ∧ off + n1 ≤ MAXFILE * BSIZE) ∧ r = n1 ∧
      blocks.toFinset.card = chunkBlocks size off n1 ∧ OnFile kern' f (max size (off + n1)) (off + n1))

theorem holds_closeSection {k : Kernel} {ip : Slot} {post : Unit → Kernel → Prop}
    (well : WellFormed k.fs) (env : Ambient k.fs) (held : 0 < (k.fs.icache ip).ref)
    (next : ∀ fs', WellFormed fs' → Resting fs' → k.fs.disk.Alike fs'.disk →
      fs'.disk.sections = k.fs.disk.sections ++ [k.fs.disk.written] →
      fs'.icache ip = (k.fs.icache ip).setLocked 0 → post () (k.setFs fs')) :
    Holds (iunlock ip) k.fs fun _ fs => Holds kernelEndOp (k.setFs fs) post := by
  refine (iunlock_spec k.fs ip).conseq fun _ fs' unlocked => ?_
  subst unlocked
  rw [kernelEndOp, holds_onFs, holds_onDisk]
  refine holds_endOp trivial fun disk alike outstanding sections => ?_
  have op := env.opened
  simp only [setFs_fs, setInode_disk] at alike outstanding sections ⊢
  have well' : WellFormed (k.fs.setInode ip ((k.fs.icache ip).setLocked 0)) :=
    well.of_disk rfl
  have coherent : Coherent (k.fs.setInode ip ((k.fs.icache ip).setLocked 0)) :=
    env.toCoherent.reenter held rfl rfl fun valid => env.loaded ip held valid
  refine next _ (well'.alike alike) ⟨coherent.alike alike, ?_⟩ alike sections (by simp)
  rw [setDisk_disk]
  omega

theorem filewriteSection_chunk (k : Kernel) (f : FileSlot) (addr : Nat → UInt8)
    {n1 size off : Nat} (onFile : OnFile k f size off) (pos : 0 < n1) (lt : n1 ≤ filewriteMax) :
    Holds (filewriteSection f addr n1) k fun res k' =>
      ∃ blocks, k'.fs.disk.sections = k.fs.disk.sections ++ [blocks] ∧ SectionDone k' f size off n1 res blocks := by
  obtain ⟨well, resting, sb, held, type, sized, place⟩ := onFile
  have limit : filewriteMax = 6656 := rfl
  have count : (BitVec.ofNat 32 n1).toNat = n1 := by
    rw [BitVec.toNat_ofNat]
    omega
  have ty : (table k.fs.disk.sb k.fs.disk.block (k.fs.icache (k.ftable f).ip).inum).type ≠ 0 := by
    rw [type]
    decide
  have num := lt_of_table_type ty
  simp only [filewriteSection, holds_bind, holds_file, kernelBeginOp, holds_onFs, holds_onDisk]
  refine holds_beginOp trivial fun disk alike outstanding written sections => ?_
  have well1 := well.alike alike
  have coherent1 := resting.toCoherent.alike alike
  have op : 0 < disk.log.outstanding := by
    have := resting.idle
    omega
  have table1 : table disk.sb disk.block = table k.fs.disk.sb k.fs.disk.block := by
    rw [alike.sb, alike.block]
  refine holds_ilock_coherent coherent1 (by simpa [alike.sb] using num) (by simpa using held)
    (fun _ => trivial) (fun _ => trivial) fun ip _ _ locked coherent2 => ?_
  simp only [setFs_fs, setDisk_disk, setDisk_icache, table1] at locked
  simp only [setFs_fs, setFs_setFs] at coherent2 ⊢
  have node : ip.dinode.type = T_FILE ∧ ip.dinode.size.toNat = size := by
    rw [locked.dinode]
    exact ⟨type, sized⟩
  have whole : mkfsSb.size ≤ BPB := by decide
  have well2 : WellFormed ((k.fs.setDisk disk).setInode (k.ftable f).ip ip) :=
    well1.of_disk rfl
  refine (holds_writei_chunk well2 ⟨coherent2, op⟩ ?_ ?_ ?_ ?_ written ?_ trivial
    trivial).conseq fun res fs' chunk => ?_
  · simpa [locked.ref] using held
  · simpa using locked.valid
  · rw [setInode_same, node.1]
    exact .inl rfl
  · simpa [alike.sb, sb] using whole
  · rwa [count]
  obtain ⟨well', env', sections', sb', ⟨dinode, sameType, entry⟩, refused, ok⟩ := chunk
  simp only [setInode_same] at sameType entry refused ok
  have refd' : 0 < (fs'.icache (k.ftable f).ip).ref := by
    rw [entry, setDinode_ref, locked.ref]
    exact held
  have outcome : Refused ip.dinode (k.ftable f).off (BitVec.ofNat 32 n1) ↔
      ¬(off ≤ size ∧ off + n1 ≤ MAXFILE * BSIZE) := by
    rw [← not_iff_not, Refused.not_iff, node.2, place, count, not_not]
  rw [holds_onlyIf]
  by_cases rejected : Refused ip.dinode (k.ftable f).off (BitVec.ofNat 32 n1)
  · obtain ⟨rfl, rfl⟩ := refused rejected
    refine ⟨fun pos => absurd pos (by decide), fun _ => ?_⟩
    refine holds_closeSection well' env' refd' fun fs'' _ _ _ closed _ => ?_
    rw [holds_pure]
    refine ⟨[], ?_, .inl ⟨outcome.mp rejected, rfl, rfl⟩⟩
    simpa [written, sections] using closed
  · obtain ⟨rfl, length, card⟩ := ok rejected
    rw [node.2, place, count] at card length
    rw [count]
    have fits := not_not.mp (mt outcome.mpr rejected)
    refine ⟨fun _ => ?_, fun none_ => absurd (by omega) none_⟩
    rw [holds_modifyFile]
    refine holds_closeSection well' env' refd' fun fs'' well'' resting'' alike'' closed unlocked => ?_
    rw [holds_pure]
    refine ⟨fs'.disk.written, ?_, .inr ⟨fits, rfl, card, ?_⟩⟩
    · simpa [sections', sections] using closed
    · have valid' : (fs'.icache (k.ftable f).ip).valid = true := by
        rw [entry, setDinode_valid, locked.valid]
      have loaded := (env'.loaded _ refd' valid').1
      have moved : ((k.ftable f).off + BitVec.ofInt 32 n1).toNat = off + n1 := by
        simp only [MAXFILE, NDIRECT, NINDIRECT, BSIZE] at fits
        rw [BitVec.ofInt_natCast, BitVec.toNat_add, BitVec.toNat_ofNat, place]
        omega
      constructor
      · exact well''
      · exact resting''
      · simp [alike''.sb, sb', alike.sb, sb]
      · simpa [unlocked] using refd'
      · simp only [setFs_fs, setFile_fs, setFs_ftable, setFile_same,
          unlocked, setLocked_inum, alike''.sb, alike''.block, ← loaded]
        rw [entry, setDinode_dinode, sameType, node.1]
      · simp only [setFs_fs, setFile_fs, setFs_ftable, setFile_same,
          unlocked, setLocked_inum, alike''.sb, alike''.block, ← loaded]
        exact length
      · simpa using moved

/-- Of a write of `n` bytes at `off` to a file of `size` bytes, every chunk from `done` on that
`writei` accepts stays within the reservation. -/
def ChunksFit (size off n done : Nat) : Prop :=
  off ≤ size → ∀ start, done ≤ start → start < n → start % filewriteMax = 0 →
    off + start + min (n - start) filewriteMax ≤ MAXFILE * BSIZE →
    chunkBlocks (max size (off + start)) (off + start) (min (n - start) filewriteMax) ≤ MAXOPBLOCKS

theorem chunksFit_step {size off n done : Nat} (low : off ≤ size) (more : done < n)
    (aligned : done % filewriteMax = 0) (ok : off + done + min (n - done) filewriteMax ≤ MAXFILE * BSIZE) :
    ChunksFit size off n done ↔
      chunkBlocks (max size (off + done)) (off + done) (min (n - done) filewriteMax) ≤ MAXOPBLOCKS ∧
        ChunksFit size off n (done + min (n - done) filewriteMax) := by
  have limit : filewriteMax = 6656 := rfl
  constructor
  · intro fit
    exact ⟨fit low done (le_refl _) more aligned ok, fun _ start behind => fit low start (by omega)⟩
  · rintro ⟨fst, rest⟩ _ start behind below multiple
    by_cases eq : start = done
    · subst eq
      exact fun _ => fst
    · rw [limit] at aligned multiple
      exact rest low start (by omega) below (limit ▸ multiple)

theorem chunksFit_done {size off n done : Nat} (past : ¬done < n) : ChunksFit size off n done :=
  fun _ start behind below => absurd below (by omega)

theorem filewriteFrom_sections (f : FileSlot) (addr : Nat → UInt8) {n size off : Nat} (fuel i : Nat)
    (k : Kernel) (enough : n - i ≤ fuel) (aligned : i < n → i % filewriteMax = 0) {now : Nat}
    (onFile : OnFile k f now (off + i))
    (grown : off ≤ size ∧ now = max size (off + i) ∨ ¬off ≤ size ∧ i = 0 ∧ now = size) :
    Holds (filewriteFrom f addr n fuel i) k fun _ k' =>
      ∃ sections, k'.fs.disk.sections = k.fs.disk.sections ++ sections ∧
        ((∀ blocks ∈ sections, blocks.toFinset.card ≤ MAXOPBLOCKS) ↔ ChunksFit size off n i) := by
  have limit : filewriteMax = 6656 := rfl
  induction fuel generalizing i k now with
  | zero =>
    rw [filewriteFrom, holds_pure]
    exact ⟨[], by simp, by simp [chunksFit_done (show ¬i < n by omega)]⟩
  | succ fuel ih =>
    rw [filewriteFrom, holds_ite, holds_pure, holds_bind]
    refine ⟨fun more => ?_, fun past => ⟨[], by simp, by simp [chunksFit_done past]⟩⟩
    refine (filewriteSection_chunk k f _ onFile (by omega) (Nat.min_le_right _ _)).conseq fun res k' done => ?_
    obtain ⟨blocks, sections, ⟨rejected, rfl, rfl⟩ | ⟨ok, rfl, card, onFile'⟩⟩ := done
    · -- a refused chunk logs nothing and ends the loop
      rw [if_pos (by decide), holds_pure]
      refine ⟨[[]], sections, iff_of_true (by simp) fun low start behind below _ fits => ?_⟩
      exfalso
      omega
    · rw [if_neg (by omega), if_neg (by simp)]
      have low : off ≤ size := by omega
      have eq : now = max size (off + i) := by omega
      subst eq
      rw [chunksFit_step low more (aligned more) ok.2]
      have further : max (max size (off + i)) (off + i + min (n - i) filewriteMax) =
          max size (off + (i + min (n - i) filewriteMax)) := by omega
      rw [further, Nat.add_assoc] at onFile'
      have whole : i + min (n - i) filewriteMax < n →
          (i + min (n - i) filewriteMax) % filewriteMax = 0 := fun left => by
        have full : min (n - i) filewriteMax = filewriteMax := by omega
        rw [full, Nat.add_mod_right]
        exact aligned more
      refine (ih _ k' (by omega) whole onFile' (.inl ⟨low, rfl⟩)).conseq ?_
      rintro _ k'' ⟨later, after, fits⟩
      refine ⟨blocks :: later, by rw [after, sections, append_assoc, singleton_append], ?_⟩
      rw [forall_mem_cons, fits, card]

/-- The transactions of `filewrite` on a regular file keep within the reservation of `begin_op`
exactly when each chunk's data blocks, bitmap block, indirect block and inode block do. -/
theorem filewrite_within_reservation (kern : Kernel) (f : FileSlot) (addr : Nat → UInt8) (n : Int)
    {size off : Nat} (opened : (kern.ftable f).type = .inode)
    (writable : (kern.ftable f).writable = true) (onFile : OnFile kern f size off) :
    Holds (filewrite f addr n) kern (fun _ kern' =>
      ∃ sections, kern'.fs.disk.sections = kern.fs.disk.sections ++ sections ∧
        ((∀ blocks ∈ sections, blocks.toFinset.card ≤ MAXOPBLOCKS) ↔ ChunksFit size off n.toNat 0))
      fun _ => True := by
  simp only [filewrite, holds_bind, holds_get, opened, writable, Bool.true_eq_false, if_false]
  refine (filewriteFrom_sections f addr n.toNat 0 kern (by omega) (fun _ => rfl) onFile ?_).conseq
    fun _ kern' done => .pure done
  omega

def fileKernel : Kernel where
  fs := fileFs markedBitmap
  ftable := fun _ => ⟨.inode, 1, true, true, 0, 0, 0⟩
  ptable := fun _ => ⟨.unused, 0, none, fun _ => none, none⟩
  initproc := 0
  nextpid := 1
  pipes := fun _ => ⟨fun _ => none, fun _ _ => -1⟩

theorem fileKernel_onFile : OnFile fileKernel 0 0 0 := by
  have sb : fileKernel.fs.disk.sb = mkfsSb := rfl
  have inum : (fileKernel.fs.icache (fileKernel.ftable 0).ip).inum = 2 := rfl
  have node : table fileKernel.fs.disk.sb fileKernel.fs.disk.block 2 = Dinode.fresh T_FILE := by
    have formatted : Formatted markedBitmap (Disk.blankWith markedBitmap).inOp :=
      ⟨rfl, rfl, rfl, fun _ _ => rfl⟩
    rw [sb]
    exact (congrFun (single_table formatted (by decide)) 2).trans (Function.update_self _ _ _)
  refine ⟨fileFs_wellFormed markedBitmap_free, ⟨fileFs_ambient.toCoherent, by decide⟩, rfl, by decide, ?_, ?_, rfl⟩
  · rw [inum, node]
    rfl
  · rw [inum, node]
    rfl

theorem filewrite_within_reservation_two : ∃ kern' : Kernel, filewrite 0 (fun _ => 7) 600 fileKernel = .ok 600 kern' ∧
    ∀ blocks ∈ kern'.fs.disk.sections, blocks.toFinset.card ≤ MAXOPBLOCKS := by
  have checked : (filewrite 0 (fun _ => 7) 600 fileKernel).check (fun r _ => r == 600) = true := by
    decide +kernel
  obtain ⟨r, kern', ran, value⟩ := Outcome.of_check checked
  rw [beq_iff_eq] at value
  subst value
  have done := (filewrite_within_reservation fileKernel 0 (fun _ => 7) 600 rfl rfl fileKernel_onFile).of_ok ran
  obtain ⟨sections, after, fits⟩ := done
  refine ⟨kern', ran, ?_⟩
  have none : fileKernel.fs.disk.sections = [] := rfl
  rw [after, none, List.nil_append, fits]
  intro _ start _ below multiple _
  have zero : start = 0 := by
    have small : start < 600 := below
    have limit : filewriteMax = 6656 := rfl
    rw [limit] at multiple
    omega
  subst zero
  decide

/-- One full chunk written to the empty file logs 16 blocks: 13 of data, the indirect block, the
bitmap block and the inode block. -/
theorem filewrite_exceeds_reservation : OnFile fileKernel 0 0 0 ∧ ∃ (kern' : Kernel) (blocks : List Nat),
    filewrite 0 (fun _ => 7) 6656 fileKernel = .ok 6656 kern' ∧
    kern'.fs.disk.sections = [blocks] ∧ blocks.toFinset.card = 16 ∧ MAXOPBLOCKS < 16 := by
  have checked : (filewrite 0 (fun _ => 7) 6656 fileKernel).check (fun r kern' =>
      r == 6656 && kern'.fs.disk.sections.length == 1 &&
      (kern'.fs.disk.sections.headD []).toFinset.card == 16) = true := by
    decide +kernel
  obtain ⟨r, kern', ran, value⟩ := Outcome.of_check checked
  simp only [Bool.and_eq_true, beq_iff_eq] at value
  obtain ⟨⟨rfl, length⟩, card⟩ := value
  obtain ⟨blocks, only⟩ := List.length_eq_one_iff.mp length
  rw [only] at card
  exact ⟨fileKernel_onFile, kern', blocks, ran, only, card, by decide⟩

end Xv6

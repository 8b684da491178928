import Xv6.Files
import Xv6.Lib.Reach

/-! Small files, whose data lie in the `addrs` area of the inode, and where their writes
land in memory. -/

namespace Xv6

open Exec Writes Reach Fs Inode

def Dinode.inlined (dinode : Dinode) (off n : Nat) (src : Nat → UInt8) : Dinode :=
  dinode.setAddrs (dinode.addrs.blit off n src)

def Dinode.written (dinode : Dinode) (src : Nat → UInt8) (off n : BitVec 32) : Dinode :=
  if Grows dinode off n then (dinode.inlined off.toNat n.toNat src).setSize (off + n)
  else dinode.inlined off.toNat n.toNat src

theorem Fs.moveIn_same (fs : Fs) (ip : Slot) (off n : Nat) (src : Nat → UInt8) :
    (fs.moveIn ip off n src).icache ip =
      (fs.icache ip).setDinode ((fs.icache ip).dinode.inlined off n src) := by
  simp [Fs.moveIn, Dinode.inlined]

theorem Fs.moveIn_inside (fs : Fs) (ip : Slot) {off n : Nat} (src : Nat → UInt8)
    (low : off + n ≤ 52) :
    fs.moveIn ip off n src = fs.setInode ip
      ((fs.icache ip).setDinode ((fs.icache ip).dinode.inlined off n src)) := by
  have lt := ip.isLt
  have s0 : addrsAt ip off = 144 * ip.val + 92 + off := rfl
  have icache : (fs.moveIn ip off n src).icache = Function.update fs.icache ip
      ((fs.icache ip).setDinode ((fs.icache ip).dinode.inlined off n src)) := by
    funext o
    by_cases same : o = ip
    · rw [same, Function.update_self, fs.moveIn_same]
    · have ne : o.val ≠ ip.val := fun eq => same (Fin.ext eq)
      rw [Function.update_of_ne same]
      simp only [Fs.moveIn, same, ↓reduceIte]
      rw [if_neg (by omega)]
  have tail : (fs.moveIn ip off n src).tail = fs.tail := by
    funext k
    simp only [Fs.moveIn]
    rw [if_neg (by omega)]
  have rebuilt : fs.moveIn ip off n src = { fs with
      icache := (fs.moveIn ip off n src).icache, tail := (fs.moveIn ip off n src).tail } := rfl
  rw [rebuilt, icache, tail]
  rfl

variable {fs fs' : Fs} {ip : Slot} {k k' : Kernel}

theorem holds_writei_small {src : Nat → UInt8} {off n : BitVec 32} {post : Int → Fs → Prop}
    {stops : Stop → Prop} (small : (fs.icache ip).dinode.type = T_SFILE)
    (refused : Refused (fs.icache ip).dinode off n → post (-1) fs)
    (keeps : ¬Refused (fs.icache ip).dinode off n → ¬Grows (fs.icache ip).dinode off n →
      post n.toNat (fs.moveIn ip off.toNat n.toNat src))
    (grows : ¬Refused (fs.icache ip).dinode off n → Grows (fs.icache ip).dinode off n →
      Holds (iupdate ip) ((fs.moveIn ip off.toNat n.toNat src).setInode ip
        ((fs.icache ip).setDinode ((fs.icache ip).dinode.written src off n)))
        (fun _ => post n.toNat) stops) : Holds (writei ip src off n) fs post stops := by
  have notDevice : ¬(fs.icache ip).dinode.type = T_DEV := by
    rw [small]
    decide
  refine holds_writei notDevice refused fun ok => ?_
  rw [writeData, if_pos small, holds_modify]
  simp only [grow, holds_bind, holds_inode, holds_onlyIf, holds_modifyDinode, fs.moveIn_same,
    setDinode_dinode, setDinode_setDinode]
  refine ⟨fun (longer : Grows (fs.icache ip).dinode off n) => ?_, fun shorter => keeps ok shorter⟩
  have inode := grows ok longer
  rwa [Dinode.written, if_pos longer] at inode

theorem writei_small (fs : Fs) (sl : Slot) (src : Nat → UInt8) (off n : BitVec 32)
    (small : (fs.icache sl).dinode.type = T_SFILE) :
    Holds (writei sl src off n) fs fun res fs' =>
      let ip := fs.icache sl
      let moved := fs.moveIn sl off.toNat n.toNat src
      (Refused ip.dinode off n ∧ res = -1 ∧ fs' = fs) ∨
      (¬Refused ip.dinode off n ∧ res = n.toNat ∧ ¬Grows ip.dinode off n ∧ fs' = moved) ∨
      (¬Refused ip.dinode off n ∧ res = n.toNat ∧ Grows ip.dinode off n ∧
        ∃ disk', fs.disk.Puts disk' [iupdateWrite fs.disk.sb fs.disk.block ip.inum
            (ip.dinode.written src off n)] ∧
          fs' = (moved.setInode sl (ip.setDinode (ip.dinode.written src off n))).setDisk disk') := by
  refine holds_writei_small small (fun refused => .inl ⟨refused, rfl, rfl⟩)
    (fun ok keeps => .inr (.inl ⟨ok, rfl, keeps, rfl⟩)) fun ok grows => ?_
  refine (iupdate_puts _ _).conseq fun _ fs' done => ?_
  rw [setInode_same] at done
  exact .inr (.inr ⟨ok, rfl, grows, done⟩)

/-- Only bytes `off` to `off + n` of the inline data of `sl`, and its size, have changed in
memory, and the size is at most 52. -/
def Enclosed (fs fs' : Fs) (sl : Slot) (off n : Nat) : Prop :=
  (∀ other, other ≠ sl → fs'.icache other = fs.icache other) ∧ fs'.tail = fs.tail ∧
  ∃ addrs size, fs'.icache sl = (fs.icache sl).setDinode
      (((fs.icache sl).dinode.setAddrs addrs).setSize size) ∧
    (∀ place, place < off ∨ off + n ≤ place → addrs.byte place = (fs.icache sl).dinode.addrs.byte place) ∧
    size.toNat ≤ 52

section

variable (fs ip) (src : Nat → UInt8)

theorem enclosed_setInode (off n : BitVec 32) (short : (fs.icache ip).dinode.size.toNat ≤ 52)
    (low : off.toNat + n.toNat ≤ 52) (disk : Disk) :
    Enclosed fs ((fs.setInode ip ((fs.icache ip).setDinode
      ((fs.icache ip).dinode.written src off n))).setDisk disk) ip off.toNat n.toNat := by
  refine ⟨fun o ne => fs.setInode_ne _ _ ne, rfl,
    (fs.icache ip).dinode.addrs.blit off.toNat n.toNat src,
    if Grows (fs.icache ip).dinode off n then off + n else (fs.icache ip).dinode.size, ?_,
    fun k out => Bytes.byte_blit_outside _ _ _ _ out, ?_⟩
  · rw [setDisk_icache, setInode_same, Dinode.written]
    split <;> rfl
  · split
    · rw [BitVec.toNat_add]
      omega
    · exact short

theorem writei_enclosed (off n : BitVec 32) (small : (fs.icache ip).dinode.type = T_SFILE)
    (short : (fs.icache ip).dinode.size.toNat ≤ 52)
    (low : Refused (fs.icache ip).dinode off n ∨ off.toNat + n.toNat ≤ 52) :
    Holds (writei ip src off n) fs fun res fs' =>
      (Refused (fs.icache ip).dinode off n ∧ res = -1 ∧ fs' = fs) ∨
      (¬Refused (fs.icache ip).dinode off n ∧ res = n.toNat ∧
        Enclosed fs fs' ip off.toNat n.toNat) := by
  refine (writei_small fs ip src off n small).conseq ?_
  rintro res fs' (refused | ⟨ok, v, keeps, rfl⟩ | ⟨ok, v, _, disk', _, rfl⟩)
  · exact .inl refused
  · have fits := low.resolve_left ok
    have unchanged := enclosed_setInode fs ip src off n short fits fs.disk
    refine .inr ⟨ok, v, ?_⟩
    rw [fs.moveIn_inside ip src fits]
    rwa [Dinode.written, if_neg keeps] at unchanged
  · have fits := low.resolve_left ok
    refine .inr ⟨ok, v, ?_⟩
    rw [fs.moveIn_inside ip src fits, setInode_setInode]
    exact enclosed_setInode fs ip src off n short fits disk'

theorem writei_escapes (off n : BitVec 32) (small : (fs.icache ip).dinode.type = T_SFILE)
    (short : (fs.icache ip).dinode.size.toNat ≤ 52) (ok : ¬Refused (fs.icache ip).dinode off n)
    (out : 52 < off.toNat + n.toNat) : Holds (writei ip src off n) fs fun res fs' =>
      res = n.toNat ∧ 52 < (fs'.icache ip).dinode.size.toNat := by
  have grows : Grows (fs.icache ip).dinode off n :=
    (Grows.iff_of_accepted ok).mpr (by omega)
  have limits := Refused.not_iff.mp ok
  refine (writei_small fs ip src off n small).conseq ?_
  rintro res fs' (⟨refused, _⟩ | ⟨_, _, keeps, _⟩ | ⟨_, v, _, disk', _, rfl⟩)
  · exact absurd refused ok
  · exact absurd grows keeps
  · refine ⟨v, ?_⟩
    rw [setDisk_icache, setInode_same, setDinode_dinode, Dinode.written, if_pos grows,
      Dinode.setSize_size, BitVec.toNat_add]
    simp only [MAXFILE, NDIRECT, NINDIRECT, BSIZE] at limits
    omega

end

theorem Enclosed.refl (off n : Nat) (short : (fs.icache ip).dinode.size.toNat ≤ 52) :
    Enclosed fs fs ip off n :=
  ⟨fun _ _ => rfl, rfl, _, _, rfl, fun _ _ => rfl, short⟩

theorem Enclosed.mono {off n n' : Nat} (enclosed : Enclosed fs fs' ip off n) (longer : n ≤ n') :
    Enclosed fs fs' ip off n' := by
  obtain ⟨rest, tail, addrs, size, here, bytes, short⟩ := enclosed
  exact ⟨rest, tail, addrs, size, here, fun k out => bytes k (by omega), short⟩

theorem Enclosed.unlock {off n : Nat} {pre after : Disk} (unlocked : (fs.icache ip).locked = 0)
    (inner : Enclosed ((fs.setDisk pre).setInode ip ((fs.icache ip).setLocked 1)) fs' ip off n) :
    Enclosed fs ((fs'.setInode ip ((fs'.icache ip).setLocked 0)).setDisk after) ip off n := by
  obtain ⟨rest, tail, addrs, size, here, bytes, short⟩ := inner
  rw [setInode_same] at here bytes
  refine ⟨fun o ne => ?_, tail, addrs, size, ?_, bytes, short⟩
  · rw [setDisk_icache, fs'.setInode_ne _ _ ne, rest o ne,
      (fs.setDisk pre).setInode_ne _ _ ne, setDisk_icache]
  · rw [setDisk_icache, setInode_same, here, ← unlocked]
    rfl

theorem filewriteSection_small (k : Kernel) (f : FileSlot) (addr : Nat → UInt8) (n1 : Nat)
    (valid : (k.fs.icache (k.ftable f).ip).valid = true)
    (small : (k.fs.icache (k.ftable f).ip).dinode.type = T_SFILE)
    (short : (k.fs.icache (k.ftable f).ip).dinode.size.toNat ≤ 52)
    (lt : n1 ≤ filewriteMax)
    (low : (k.fs.icache (k.ftable f).ip).dinode.size < (k.ftable f).off ∨
      (k.ftable f).off.toNat + n1 ≤ 52) :
    Holds (filewriteSection f addr n1) k fun res k' =>
      (res = -1 ∨ res = n1 ∧ (k.ftable f).off.toNat + n1 ≤ 52) ∧
      Enclosed k.fs k'.fs (k.ftable f).ip (k.ftable f).off.toNat n1 := by
  have word : (BitVec.ofNat 32 n1).toNat = n1 := by
    have limit : filewriteMax = 6656 := rfl
    rw [BitVec.toNat_ofNat]
    omega
  simp only [filewriteSection, holds_bind, holds_file, kernelBeginOp, holds_onFs]
  refine (onDisk_frame _ _).conseq ?_
  rintro _ fs1 ⟨pre, rfl⟩
  refine (ilock_spec _ _).conseq ?_
  rintro _ fs2 ⟨_, unlocked, ⟨_, rfl⟩ | ⟨invalid, _⟩⟩
  · refine (writei_enclosed _ _ _ _ _ (by simpa using small) (by simpa using short) ?_).conseq
      fun res fs3 written => ?_
    · simp only [Kernel.setFs_fs, setDisk_icache, setInode_same, setLocked_dinode, word]
      exact low.imp .inl id
    · have done : (res = -1 ∨ res = n1 ∧ (k.ftable f).off.toNat + n1 ≤ 52) ∧
          ∀ after, Enclosed k.fs
            ((fs3.setInode (k.ftable f).ip
              ((fs3.icache (k.ftable f).ip).setLocked 0)).setDisk after)
            (k.ftable f).ip (k.ftable f).off.toNat n1 := by
        rcases written with ⟨_, v, rfl⟩ | ⟨ok, v, enclosed⟩
        · refine ⟨.inl v, fun after => Enclosed.unlock unlocked (Enclosed.refl _ _ ?_)⟩
          simpa using short
        · simp only [Kernel.setFs_fs, setDisk_icache, setInode_same, setLocked_dinode,
            word] at ok v enclosed
          refine ⟨.inr ⟨v, low.resolve_left fun beyond => ok (.inl beyond)⟩,
            fun after => Enclosed.unlock unlocked enclosed⟩
      simp only [holds_onlyIf, holds_modifyFile, holds_onFs, kernelEndOp, holds_pure]
      refine ⟨fun _ => ?_, fun _ => ?_⟩
      all_goals
        refine (iunlock_spec _ _).conseq fun _ fs4 released => ?_
        subst released
        refine (onDisk_frame _ _).conseq ?_
        rintro _ fs5 ⟨after, rfl⟩
        exact ⟨done.1, done.2 after⟩
  · simp [valid] at invalid

theorem filewrite_small (k : Kernel) (f : FileSlot) (addr : Nat → UInt8) (n : Int)
    (op : (k.ftable f).type = .inode)
    (valid : (k.fs.icache (k.ftable f).ip).valid = true)
    (small : (k.fs.icache (k.ftable f).ip).dinode.type = T_SFILE)
    (short : (k.fs.icache (k.ftable f).ip).dinode.size.toNat ≤ 52)
    (low : (k.fs.icache (k.ftable f).ip).dinode.size < (k.ftable f).off ∨
      (k.ftable f).off.toNat + n.toNat ≤ 52) :
    Holds (filewrite f addr n) k fun _ k' =>
      Enclosed k.fs k'.fs (k.ftable f).ip (k.ftable f).off.toNat n.toNat := by
  have limit : filewriteMax = 6656 := rfl
  have unchanged := Enclosed.refl (k.ftable f).off.toNat n.toNat short
  simp only [filewrite, holds_bind, holds_get, op]
  rw [holds_ite, holds_pure]
  refine ⟨fun _ => unchanged, fun _ => ?_⟩
  cases count : n.toNat with
  | zero => simpa [filewriteFrom, count] using unchanged
  | succ fuel =>
    rw [filewriteFrom, if_pos (by omega)]
    simp only [holds_bind]
    refine (filewriteSection_small k f _ _ valid small short (Nat.min_le_right _ _) ?_).conseq
      fun res k' done => ?_
    · exact low.imp_right fun fits => by omega
    · obtain ⟨val, enclosed⟩ := done
      have final : Enclosed k.fs k'.fs (k.ftable f).ip
          (k.ftable f).off.toNat (fuel + 1) := enclosed.mono (by omega)
      rcases val with rfl | ⟨rfl, fits⟩
      · rw [if_pos (by decide), holds_pure, holds_pure]
        exact final
      · have whole : min (fuel + 1 - 0) filewriteMax = fuel + 1 := by omega
        rw [if_neg (by omega), if_neg (by simp), whole]
        cases fuel with
        | zero =>
          rw [filewriteFrom, holds_pure, holds_pure]
          exact final
        | succ fuel =>
          rw [filewriteFrom, if_neg (by omega), holds_pure, holds_pure]
          exact final

inductive SmallCall where
  | writei (sl : Slot) (src : Nat → UInt8) (off n : BitVec 32)
  | filewrite (f : FileSlot) (addr : Nat → UInt8) (n : Int)

namespace SmallCall

def target (kern : Kernel) : SmallCall → Slot
  | .writei sl _ _ _ => sl
  | .filewrite f _ _ => (kern.ftable f).ip

def Small (kern : Kernel) (call : SmallCall) : Prop :=
  (kern.fs.icache (call.target kern)).dinode.type = T_SFILE ∧
    match call with
    | .writei _ _ _ _ => True
    | .filewrite f _ _ =>
      (kern.ftable f).type = .inode ∧ (kern.fs.icache (kern.ftable f).ip).valid = true

def Inside (kern : Kernel) (call : SmallCall) : Prop :=
  match call with
  | .writei sl _ off n =>
    Refused (kern.fs.icache sl).dinode off n ∨ off.toNat + n.toNat ≤ 52
  | .filewrite f _ n =>
    (kern.fs.icache (kern.ftable f).ip).dinode.size < (kern.ftable f).off ∨
      (kern.ftable f).off.toNat + n.toNat ≤ 52

def run (kern : Kernel) : SmallCall → Option Kernel
  | .writei sl src off n => (onFs (Xv6.writei sl src off n) kern).state?
  | .filewrite f addr n => (Xv6.filewrite f addr n kern).state?

def Next (kern : Kernel) (call : SmallCall) (kern' : Kernel) : Prop :=
  call.Small kern ∧ call.run kern = some kern'

end SmallCall

variable {call : SmallCall}

def ShortFiles (kern : Kernel) : Prop :=
  ∀ sl, (kern.fs.icache sl).dinode.type = T_SFILE → (kern.fs.icache sl).dinode.size.toNat ≤ 52

theorem SmallCall.enclosed (short : ShortFiles k) (low : call.Inside k)
    (next : SmallCall.Next k call k') :
    ∃ off n, Enclosed k.fs k'.fs (call.target k) off n := by
  obtain ⟨⟨small, open_⟩, ran⟩ := next
  cases call with
  | writei ip src off n =>
    have size := short ip small
    have spec : Holds (onFs (Xv6.writei ip src off n)) k
        fun _ k' => Enclosed k.fs k'.fs ip off.toNat n.toNat := by
      rw [holds_onFs]
      refine (writei_enclosed k.fs ip src off n small size low).conseq ?_
      rintro _ fs' (⟨_, _, rfl⟩ | ⟨_, _, enclosed⟩)
      · exact Enclosed.refl _ _ size
      · exact enclosed
    obtain ⟨_, done⟩ := spec.of_state? ran
    exact ⟨_, _, done⟩
  | filewrite f addr n =>
    obtain ⟨_, done⟩ := (filewrite_small k f addr n open_.1 open_.2 small
      (short _ small) low).of_state? ran
    exact ⟨_, _, done⟩

theorem SmallCall.short (short : ShortFiles k) (low : call.Inside k)
    (next : SmallCall.Next k call k') : ShortFiles k' := by
  obtain ⟨off, n, rest, _, addrs, size, here, _, lt⟩ := SmallCall.enclosed short low next
  intro ip small
  by_cases eq : ip = call.target k
  · rw [eq, here]
    exact lt
  · rw [rest ip eq] at small ⊢
    exact short ip small

/-- A single `writei` on a small file stays inside the inode exactly when it is refused or ends at or
before byte 52, and so does every run of such calls. -/
theorem small_writes_enclosed (fs : Fs) :
    (∀ (fs' : Fs) (sl : Slot) (src : Nat → UInt8) (off n : BitVec 32) (r : Int),
      (fs.icache sl).dinode.type = T_SFILE → (fs.icache sl).dinode.size.toNat ≤ 52 →
      writei sl src off n fs = .ok r fs' →
      ((r = -1 ∧ fs' = fs ∨ Enclosed fs fs' sl off.toNat n.toNat) ↔
        Refused (fs.icache sl).dinode off n ∨ off.toNat + n.toNat ≤ 52)) ∧
    ∀ start kern : Kernel, ShortFiles start →
      Reachable SmallCall.Next (fun kern call => call.Inside kern) start kern →
      ShortFiles kern ∧
      ∀ call kern', call.Inside kern → SmallCall.Next kern call kern' →
        (∀ other, other ≠ call.target kern → kern'.fs.icache other = kern.fs.icache other) ∧
          kern'.fs.tail = kern.fs.tail := by
  constructor
  · intro fs' sl src off n r small short ran
    constructor
    · intro kept
      by_contra out
      simp only [not_or, not_le] at out
      obtain ⟨v, large⟩ :=
        (writei_escapes fs sl src off n small short out.1 out.2).of_ok ran
      rcases kept with ⟨failed, _⟩ | ⟨_, _, _, size, here, _, bound⟩
      · omega
      · rw [here] at large
        exact absurd bound (by simpa using large)
    · intro inside
      rcases (writei_enclosed fs sl src off n small short inside).of_ok ran with
        ⟨_, failed, same⟩ | ⟨_, _, enclosed⟩
      · exact Or.inl ⟨failed, same⟩
      · exact Or.inr enclosed
  · intro start kern short reached
    have now : ShortFiles kern := reached.invariant ShortFiles short
      fun _ _ _ short inside next => SmallCall.short short inside next
    refine ⟨now, fun call kern' inside next => ?_⟩
    obtain ⟨_, _, rest, tail, _⟩ := SmallCall.enclosed now inside next
    exact ⟨rest, tail⟩

def smallFs : Fs :=
  (Fs.boot Disk.blank.inOp).setInode 0 ⟨ROOTDEV, 2, 1, 0, Bytes.zero, I_VALID, Dinode.fresh T_SFILE⟩

theorem small_writes_enclosed_once :
    ∃ fs' : Fs, writei 0 (fun _ => 7) 0 52 smallFs = .ok 52 fs' ∧ Enclosed smallFs fs' 0 0 52 := by
  have checked : (writei 0 (fun _ => 7) 0 52 smallFs).check (fun r _ => r == 52) = true := by
    decide +kernel
  obtain ⟨r, fs', ran, v⟩ := Outcome.of_check checked
  have same : r = 52 := by simpa using v
  subst same
  have kept := ((small_writes_enclosed smallFs).1 fs' 0 _ 0 52 52 rfl (by decide) ran).mpr
    (Or.inr (by decide))
  exact ⟨fs', ran, kept.resolve_left fun failed => absurd failed.1 (by decide)⟩

/-- 56 bytes written to an empty small file: the last four overwrite the device number of the
next cache entry. -/
theorem small_write_hits_neighbour :
    (smallFs.icache 0).dinode.type = T_SFILE ∧ (smallFs.icache 0).dinode.size.toNat ≤ 52 ∧
    ∃ fs' : Fs, writei 0 (fun _ => 7) 0 56 smallFs = .ok 56 fs' ∧
      (fs'.icache 0).dinode.size.toNat = 56 ∧
      (smallFs.icache 1).dev = 0 ∧ (fs'.icache 1).dev = 0x07070707 := by
  refine ⟨rfl, by decide, ?_⟩
  have checked : (writei 0 (fun _ => 7) 0 56 smallFs).check (fun r fs' =>
      r == 56 && (fs'.icache 0).dinode.size.toNat == 56 && (fs'.icache 1).dev == 0x07070707) =
      true := by
    decide +kernel
  obtain ⟨r, fs', ran, v⟩ := Outcome.of_check checked
  simp only [Bool.and_eq_true, beq_iff_eq] at v
  obtain ⟨⟨rfl, size⟩, dev⟩ := v
  exact ⟨fs', ran, size, rfl, dev⟩

end Xv6

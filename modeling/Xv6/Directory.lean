import Xv6.Dirents
import Xv6.Operations
import Xv6.InodeRefs

/-! What `dirlookup` and `dirlink` do to a directory that has been read in. -/

namespace Xv6

open Exec Fs Node List

structure Got (fs fs' : Fs) (slot : Slot) (inum : Nat) : Prop where
  disk : fs'.disk = fs.disk
  other : ∀ other, other ≠ slot → fs'.icache other = fs.icache other
  dev : (fs'.icache slot).dev = ROOTDEV
  number : (fs'.icache slot).inum = inum
  ref : (fs'.icache slot).ref = (fs.icache slot).ref + 1
  cached : 0 < (fs.icache slot).ref → fs'.icache slot = (fs.icache slot).setRef ((fs.icache slot).ref + 1)
  fresh : ¬0 < (fs.icache slot).ref → (fs.icache slot).ref = 0 ∧ (fs'.icache slot).valid = false ∧
    ∀ other, ¬(0 < (fs.icache other).ref ∧ (fs.icache other).dev = ROOTDEV ∧ (fs.icache other).inum = inum)

structure Idle (fs fs' : Fs) : Prop where
  disk : fs'.disk = fs.disk
  entry : ∀ slot, fs'.icache slot = fs.icache slot ∨ (fs.icache slot).ref = 0 ∧ (fs'.icache slot).ref = 0

section

variable {fs fs' : Fs} {ip : Slot} {inum : Nat} {stops : Stop → Prop}

theorem holds_iget_got {post : Slot → Fs → Prop} (full : (∀ ip, (fs.icache ip).ref ≠ 0) → stops noInodes)
    (next : ∀ ip fs', Got fs fs' ip inum → post ip fs') : Holds (iget ROOTDEV inum) fs post stops := by
  refine holds_iget full (fun ip held dev num => ?_) fun absent ip free => ?_
  · refine next _ _ ⟨rfl, fun o ne => setInode_ne _ _ _ ne, ?_, ?_, ?_, ?_, ?_⟩
    all_goals rw [setInode_same]
    · exact dev
    · exact num
    · rfl
    · exact fun _ => rfl
    · exact fun unused => absurd held unused
  · refine next _ _ ⟨rfl, fun o ne => setInode_ne _ _ _ ne, ?_, ?_, ?_, ?_, ?_⟩
    all_goals rw [setInode_same]
    · rfl
    · rfl
    · simp [free]
    · intro held
      omega
    · exact fun _ => ⟨free, by simp [Inode.valid], absent⟩

theorem Got.entry (got : Got fs fs' ip inum) {o : Slot} (held : 0 < (fs.icache o).ref) :
    fs'.icache o = if o = ip then (fs.icache ip).setRef ((fs.icache ip).ref + 1)
      else fs.icache o := by
  by_cases eq : o = ip
  · subst eq
    rw [if_pos rfl, got.cached held]
  · rw [if_neg eq, got.other o eq]

theorem Got.coherent (got : Got fs fs' ip inum) (coherent : Coherent fs) : Coherent fs' := by
  have lay := coherent.layout
  have super := coherent.super
  have marked := coherent.marked
  rw [← got.disk] at lay super marked
  by_cases held : 0 < (fs.icache ip).ref
  · -- the entry already stood for the inode
    have fields : ∀ o, (fs'.icache o).dev = (fs.icache o).dev ∧ (fs'.icache o).inum = (fs.icache o).inum ∧
        (fs'.icache o).dinode = (fs.icache o).dinode ∧ (fs'.icache o).valid = (fs.icache o).valid ∧
        (0 < (fs'.icache o).ref → 0 < (fs.icache o).ref) := by
      intro o
      by_cases eq : o = ip
      · subst eq
        rw [got.cached held]
        exact ⟨rfl, rfl, rfl, rfl, fun _ => held⟩
      · rw [got.other o eq]
        exact ⟨rfl, rfl, rfl, rfl, id⟩
    refine ⟨lay, super, marked, got.disk ▸ coherent.unheld, fun o live => ?_,
      fun fst snd live live' clash => ?_, fun o live valid => ?_⟩
    · rw [(fields o).1]
      exact coherent.device o ((fields o).2.2.2.2 live)
    · rw [(fields fst).2.1, (fields snd).2.1] at clash
      exact coherent.unique fst snd ((fields fst).2.2.2.2 live) ((fields snd).2.2.2.2 live') clash
    · rw [(fields o).2.2.2.1] at valid
      rw [(fields o).2.1, (fields o).2.2.1, got.disk]
      exact coherent.loaded o ((fields o).2.2.2.2 live) valid
  · obtain ⟨_, invalid, absent⟩ := got.fresh held
    have apart : ∀ o, o ≠ ip → 0 < (fs.icache o).ref → (fs.icache o).inum ≠ inum := fun o _ live clash =>
      absent o ⟨live, coherent.device o live, clash⟩
    refine ⟨lay, super, marked, got.disk ▸ coherent.unheld, fun o live => ?_,
      fun fst snd live live' clash => ?_, fun o live valid => ?_⟩
    · by_cases eq : o = ip
      · rw [eq, got.dev]
      · rw [got.other o eq] at live ⊢
        exact coherent.device o live
    · by_cases one : fst = ip <;> by_cases two : snd = ip
      · exact one.trans two.symm
      · rw [one, got.number, got.other snd two] at clash
        rw [got.other snd two] at live'
        exact absurd clash.symm (apart snd two live')
      · rw [two, got.number, got.other fst one] at clash
        rw [got.other fst one] at live
        exact absurd clash (apart fst one live)
      · rw [got.other fst one] at live clash
        rw [got.other snd two] at live' clash
        exact coherent.unique fst snd live live' clash
    · by_cases eq : o = ip
      · rw [eq, invalid] at valid
        cases valid
      · rw [got.other o eq] at live valid ⊢
        rw [got.disk]
        exact coherent.loaded o live valid

theorem Idle.coherent (idle : Idle fs fs') (coherent : Coherent fs) : Coherent fs' := by
  have live : ∀ ip, 0 < (fs'.icache ip).ref → fs'.icache ip = fs.icache ip := by
    intro ip held
    rcases idle.entry ip with eq | ⟨_, unused⟩
    · exact eq
    · omega
  refine ⟨idle.disk ▸ coherent.layout, idle.disk ▸ coherent.super, idle.disk ▸ coherent.marked,
    idle.disk ▸ coherent.unheld, fun ip held => ?_, fun fst snd left right clash => ?_, fun ip held valid => ?_⟩
  · have eq := live ip held
    rw [eq] at held ⊢
    exact coherent.device ip held
  · have one := live fst left
    have two := live snd right
    rw [one] at left clash
    rw [two] at right clash
    exact coherent.unique fst snd left right clash
  · have eq := live ip held
    rw [eq] at held valid ⊢
    rw [idle.disk]
    exact coherent.loaded ip held valid

theorem holds_iput_kept {post : Unit → Fs → Prop}
    (kept : ¬((fs.icache ip).ref = 1 ∧ (fs.icache ip).valid ∧ (fs.icache ip).dinode.nlink = 0))
    (next : post () (fs.setInode ip ((fs.icache ip).setRef ((fs.icache ip).ref - 1)))) :
    Holds (iput ip) fs post stops := by
  simp only [iput, holds_bind, holds_inode, holds_onlyIf, holds_modifyInode]
  exact ⟨fun freed => absurd freed kept, fun _ => next⟩

theorem Got.kept (got : Got fs fs' ip inum) :
    ¬((fs'.icache ip).ref = 1 ∧ (fs'.icache ip).valid ∧ (fs'.icache ip).dinode.nlink = 0) := by
  rintro ⟨last, valid, _⟩
  have pre := got.ref
  obtain ⟨_, invalid, _⟩ := got.fresh (by omega)
  rw [invalid] at valid
  cases valid

theorem Got.holds_iput {post : Unit → Fs → Prop} (got : Got fs fs' ip inum)
    (next : ∀ fs'', Idle fs fs'' → post () fs'') : Holds (iput ip) fs' post stops := by
  refine holds_iput_kept got.kept (next _ ⟨got.disk, fun o => ?_⟩)
  by_cases eq : o = ip
  · subst eq
    rw [setInode_same]
    by_cases held : 0 < (fs.icache o).ref
    · left
      rw [got.cached held]
      simp [Inode.setRef]
    · right
      have pre := (got.fresh held).1
      simp [got.ref, pre]
  · left
    rw [setInode_ne _ _ _ eq, got.other o eq]

end

structure OpenDir (fs : Fs) (dp : Slot) : Prop where
  well : WellFormed fs
  ambient : Ambient fs
  referenced : 0 < (fs.icache dp).ref
  valid : (fs.icache dp).valid = true
  directory : IsDir (fs.icache dp).dinode.type

def Fs.nodeAt (fs : Fs) (slot : Slot) : Node := fs.image (fs.icache slot).inum

theorem IsDir.blockType {type : BitVec 16} (dir : IsDir type) : BlockType type := by
  rcases dir with eq | eq
  · exact .inr (.inl eq)
  · exact .inr (.inr eq)

section

variable {fs : Fs} {dp : Slot} {stops : Stop → Prop} {node : Node} {k : Nat}

theorem OpenDir.size (op : OpenDir fs dp) : (fs.nodeAt dp).size = (fs.icache dp).dinode.size :=
  (op.ambient.toCoherent.image_slot op.referenced op.valid).2.2

theorem OpenDir.limit (op : OpenDir fs dp) : (fs.nodeAt dp).size.toNat ≤ MAXFILE * BSIZE := by
  have has := op.well.places op.referenced op.valid op.directory.blockType op.ambient.toCoherent
  have limit := has.limit
  rw [op.size]
  simp only [blocksOf, MAXFILE, NDIRECT, NINDIRECT, BSIZE] at *
  omega

theorem Node.take_drop_contents (low : deSize * k + deSize ≤ node.size.toNat) :
    (node.contents.drop (deSize * k)).take deSize = node.dirent k := by
  refine ext_getElem ?_ fun i left right => ?_
  · simp [dirent]
    omega
  · simp [contents, dirent]

theorem holds_readDirent {message : String} {post : List UInt8 → Fs → Prop} (op : OpenDir fs dp)
    (low : deSize * k < (fs.nodeAt dp).size.toNat)
    (short : ¬deSize ∣ (fs.nodeAt dp).size.toNat → stops (.panic message))
    (next : deSize * k + deSize ≤ (fs.nodeAt dp).size.toNat →
      post ((fs.nodeAt dp).dirent k) fs) : Holds (readDirent dp (deSize * k) message) fs post stops := by
  have limit := op.limit
  have lt : MAXFILE * BSIZE = 71680 := by decide
  have size := op.size
  have off : (BitVec.ofNat 32 (deSize * k)).toNat = deSize * k := by
    rw [BitVec.toNat_ofNat]
    omega
  have n : (BitVec.ofNat 32 deSize).toNat = deSize := by decide
  rw [readDirent, holds_bind]
  refine holds_readi_image op.well op.ambient.toCoherent op.referenced op.valid
    op.directory.blockType (fun refused => ?_) fun _ => ?_
  · -- the offset lies within the file
    exfalso
    rw [← size, BitVec.lt_def, BitVec.lt_def, BitVec.toNat_add, off, n] at refused
    simp only [deSize] at *
    omega
  · rw [off, n]
    simp only [holds_ite, holds_panic, holds_pure]
    by_cases whole : deSize * k + deSize ≤ (fs.nodeAt dp).size.toNat
    · have bytes := take_drop_contents whole
      rw [Fs.nodeAt] at bytes
      rw [bytes]
      exact ⟨fun unequal => absurd (by simp [dirent]) unequal, fun _ => next whole⟩
    · refine ⟨fun _ => short fun aligned => ?_, fun equal => ?_⟩
      · simp only [deSize] at *
        omega
      · exfalso
        simp only [ne_eq, not_not, length_take, length_drop, length_contents] at equal
        simp only [Fs.nodeAt, deSize] at *
        omega

theorem Node.slot_of_dirent (inside : deSize * k + deSize ≤ node.size.toNat) :
    node.slot k = if direntInum (node.dirent k) = 0 then none
      else some (cname (direntName (node.dirent k)), direntInum (node.dirent k)) := by
  simp only [Node.slot, inside, true_and, ne_eq, ite_not]

theorem Node.slot_beyond (outside : node.size.toNat ≤ deSize * k) : node.slot k = none := by
  rw [Node.slot, if_neg]
  simp only [deSize] at *
  omega

/-- The entry that `dirlookup` finds: the first with the name. -/
def Node.Finds (node : Node) (name : List UInt8) (k i : Nat) : Prop :=
  node.slot k = some (cname name, i) ∧ ∀ j < k, ∀ i', node.slot j ≠ some (cname name, i')

section

variable {name : List UInt8} {post : Option (Slot × Nat) → Fs → Prop}
  (op : OpenDir fs dp) (full : (∀ ip, (fs.icache ip).ref ≠ 0) → stops noInodes)
  (short : ¬deSize ∣ (fs.nodeAt dp).size.toNat → stops (.panic "dirlink read"))
  (absent : (∀ j i, (fs.nodeAt dp).slot j ≠ some (cname name, i)) → post none fs)
  (hit : ∀ j i ip fs', (fs.nodeAt dp).Finds name j i → Got fs fs' ip i → post (some (ip, deSize * j)) fs')

include op full short absent hit

theorem holds_dirlookupFrom (fuel k : Nat) (enough : (fs.nodeAt dp).size.toNat ≤ deSize * (k + fuel))
    (pre : ∀ j < k, ∀ i, (fs.nodeAt dp).slot j ≠ some (cname name, i)) :
    Holds (dirlookupFrom dp name fuel (deSize * k)) fs post stops := by
  have done : ∀ k, (fs.nodeAt dp).size.toNat ≤ deSize * k →
      (∀ j < k, ∀ i, (fs.nodeAt dp).slot j ≠ some (cname name, i)) → post none fs := by
    intro k past pre
    refine absent fun j i => ?_
    by_cases early : j < k
    · exact pre j early i
    · rw [slot_beyond]
      · simp
      · simp only [deSize] at *
        omega
  induction fuel generalizing k with
  | zero =>
    rw [dirlookupFrom, holds_pure]
    exact done k enough pre
  | succ fuel ih =>
    rw [dirlookupFrom, holds_bind, holds_inode, holds_ite, ← op.size]
    refine ⟨fun low => ?_, fun past => ?_⟩
    · rw [holds_bind]
      refine holds_readDirent op low short fun whole => ?_
      have ent := slot_of_dirent whole
      have next : deSize * k + deSize = deSize * (k + 1) := by
        simp only [deSize]
        omega
      have later : ∀ (_ : ∀ i, (fs.nodeAt dp).slot k ≠ some (cname name, i)),
          Holds (dirlookupFrom dp name fuel (deSize * k + deSize)) fs post stops := by
        intro o
        rw [next]
        refine ih (k + 1) (by rwa [Nat.add_right_comm, Nat.add_assoc]) fun j early i => ?_
        rcases Nat.lt_succ_iff_lt_or_eq.mp early with less | rfl
        · exact pre j less i
        · exact o i
      rw [holds_ite, holds_ite]
      refine ⟨fun empty => later fun i => ?_, fun live => ⟨fun eq => ?_, fun ne => ?_⟩⟩
      · rw [ent, if_pos empty]
        simp
      · rw [namecmp_eq_zero] at eq
        rw [if_neg live, ← eq] at ent
        rw [holds_bind, op.ambient.device dp op.referenced]
        refine holds_iget_got full fun ip fs' got => ?_
        rw [holds_pure]
        exact hit k _ ip fs' ⟨ent, pre⟩ got
      · rw [namecmp_eq_zero] at ne
        refine later fun i clash => ?_
        rw [ent, if_neg live, Option.some.injEq, Prod.mk.injEq] at clash
        exact ne clash.1.symm
    · rw [holds_pure]
      exact done k (by omega) pre

theorem holds_dirlookup : Holds (dirlookup dp name) fs post stops := by
  have dir : ¬((fs.icache dp).dinode.type ≠ T_DIR ∧ (fs.icache dp).dinode.type ≠ T_SDIR) := by
    rintro ⟨one, two⟩
    rcases op.directory with eq | eq
    · exact one eq
    · exact two eq
  rw [dirlookup, holds_bind, holds_inode, holds_ite]
  refine ⟨fun o => absurd o dir, fun _ => ?_⟩
  rw [← op.size]
  refine holds_dirlookupFrom op full short absent hit _ 0 ?_ fun j less => by omega
  simp only [deSize]
  omega

end

theorem holds_emptyDirent {post : Nat → Fs → Prop} (op : OpenDir fs dp)
    (short : ¬deSize ∣ (fs.nodeAt dp).size.toNat → stops (.panic "dirlink read"))
    (next : ∀ k, (fs.nodeAt dp).slot k = none → deSize * k ≤ (fs.nodeAt dp).size.toNat →
      (∀ j < k, (fs.nodeAt dp).slot j ≠ none) → post (deSize * k) fs)
    (fuel k : Nat) (enough : (fs.nodeAt dp).size.toNat ≤ deSize * (k + fuel))
    (low : deSize * k ≤ (fs.nodeAt dp).size.toNat) (pre : ∀ j < k, (fs.nodeAt dp).slot j ≠ none) :
    Holds (emptyDirent dp fuel (deSize * k)) fs post stops := by
  induction fuel generalizing k with
  | zero =>
    rw [emptyDirent, holds_pure]
    exact next k (slot_beyond enough) low pre
  | succ fuel ih =>
    rw [emptyDirent, holds_bind, holds_inode, holds_ite, ← op.size]
    refine ⟨fun more => ?_, fun past => ?_⟩
    · rw [holds_bind]
      refine holds_readDirent op more short fun whole => ?_
      have ent := slot_of_dirent whole
      rw [holds_ite, holds_pure]
      refine ⟨fun empty => ?_, fun live => ?_⟩
      · rw [if_pos empty] at ent
        exact next k ent low pre
      · have following : deSize * k + deSize = deSize * (k + 1) := by
          simp only [deSize]
          omega
        rw [following] at whole ⊢
        refine ih (k + 1) (by rwa [Nat.add_right_comm, Nat.add_assoc]) whole fun j early => ?_
        rcases Nat.lt_succ_iff_lt_or_eq.mp early with less | rfl
        · exact pre j less
        · rw [ent, if_neg live]
          simp
    · rw [holds_pure]
      exact next k (slot_beyond (by omega)) low pre

end

def Node.enter (node : Node) (k : Nat) (name : List UInt8) (inum : Nat) : Node :=
  node.write (fun place => (direntBytes inum name).getD place 0) (deSize * k) deSize

def Node.clear (node : Node) (k : Nat) : Node := node.write (fun _ => 0) (deSize * k) deSize

section

variable {fs : Fs} {dp : Slot} {stops : Stop → Prop}

theorem holds_writei_dirent {src : Nat → UInt8} {k : Nat} {message : String} {post : Fs → Prop}
    (op : OpenDir fs dp) (low : deSize * k ≤ (fs.nodeAt dp).size.toNat)
    (full : stops tooBig) (exhausted : stops outOfBlocks)
    (large : MAXFILE * BSIZE < deSize * k + deSize → stops (.panic message))
    (next : ∀ fs', WellFormed fs' → Ambient fs' → Recasts fs fs' dp →
      fs'.image = Function.update fs.image (fs.icache dp).inum ((fs.nodeAt dp).write src (deSize * k) deSize) →
      deSize * k + deSize ≤ MAXFILE * BSIZE → post fs') :
    Holds (writei dp src (BitVec.ofNat 32 (deSize * k)) (BitVec.ofNat 32 deSize)) fs
      (fun count fs' => (count ≠ deSize → stops (.panic message)) ∧ (¬count ≠ deSize → post fs')) stops := by
  have limit := op.limit
  have lt : MAXFILE * BSIZE = 71680 := by decide
  have off : (BitVec.ofNat 32 (deSize * k)).toNat = deSize * k := by
    rw [BitVec.toNat_ofNat]
    omega
  have count : (BitVec.ofNat 32 deSize).toNat = deSize := by decide
  have ok : ¬Refused (fs.icache dp).dinode (BitVec.ofNat 32 (deSize * k))
      (BitVec.ofNat 32 deSize) ↔ deSize * k + deSize ≤ MAXFILE * BSIZE := by
    rw [Refused.not_iff, off, count, ← op.size]
    exact and_iff_right low
  refine holds_writei_image op.well op.ambient op.referenced op.valid
    op.directory.blockType full exhausted (fun refused => ?_) fun ran fs' well env recasts img => ?_
  · refine ⟨fun _ => large ?_, fun equal => absurd (by simp [deSize]) equal⟩
    rw [← not_le, ← ok]
    exact not_not_intro refused
  · rw [off, count] at img
    refine ⟨fun unequal => absurd (by rw [count]) unequal, fun _ => ?_⟩
    exact next fs' well env recasts img (ok.mp ran)

theorem holds_dirlink {name : List UInt8} {inum : Nat} {post : Bool → Fs → Prop}
    (op : OpenDir fs dp) (crowded : stops noInodes) (full : stops tooBig) (exhausted : stops outOfBlocks)
    (short : ¬deSize ∣ (fs.nodeAt dp).size.toNat → stops (.panic "dirlink read"))
    (large : (∀ j i, (fs.nodeAt dp).slot j ≠ some (cname name, i)) → ∀ k,
      (∀ j < k, (fs.nodeAt dp).slot j ≠ none) → MAXFILE * BSIZE < deSize * k + deSize → stops (.panic "dirlink"))
    (exist : ∀ j i fs', (fs.nodeAt dp).slot j = some (cname name, i) → Idle fs fs' → post false fs')
    (absent : (∀ j i, (fs.nodeAt dp).slot j ≠ some (cname name, i)) → ∀ k fs',
      (fs.nodeAt dp).slot k = none → (∀ j < k, (fs.nodeAt dp).slot j ≠ none) →
      deSize * k ≤ (fs.nodeAt dp).size.toNat → deSize * k + deSize ≤ MAXFILE * BSIZE →
      WellFormed fs' → Ambient fs' → Recasts fs fs' dp →
      fs'.image = Function.update fs.image (fs.icache dp).inum ((fs.nodeAt dp).enter k name inum) → post true fs') :
    Holds (dirlink dp name inum) fs post stops := by
  rw [dirlink, holds_bind]
  refine holds_dirlookup op (fun _ => crowded) short (fun none => ?_) fun j i ip fs' here got => ?_
  · simp only [holds_bind, holds_inode]
    rw [← op.size]
    refine holds_emptyDirent op short (fun k empty low pre => ?_) _ 0 ?_ (Nat.zero_le _) fun j less => by omega
    · simp only [holds_ite, holds_panic, holds_pure]
      exact holds_writei_dirent op low full exhausted (large none k pre) fun fs' well env recasts img small =>
          absent none k fs' empty pre low small well env recasts img
    · simp only [deSize]
      omega
  · simp only [holds_bind]
    refine got.holds_iput fun fs'' idle => ?_
    rw [holds_pure]
    exact exist j i fs'' here.1 idle

end

end Xv6

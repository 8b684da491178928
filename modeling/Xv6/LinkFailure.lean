import Xv6.LinkCounts

/-! Calls of `link` and `unlink` that fail, and what one call of `unlink` removes. -/

namespace Xv6

open Exec

structure Restored (fs fs' : Fs) : Prop where
  sb : fs'.disk.sb = fs.disk.sb
  block : fs'.disk.block = fs.disk.block
  refs : fs'.refs = fs.refs
  inum : ∀ slot, 0 < (fs.icache slot).ref → (fs'.icache slot).inum = (fs.icache slot).inum
  cached : ∀ slot, 0 < (fs.icache slot).ref → (fs.icache slot).valid = true →
    (fs'.icache slot).valid = true ∧ (fs'.icache slot).dinode = (fs.icache slot).dinode

structure Zeroed (d k i : Nat) (name : List UInt8) (im im' : Nat → Node) : Prop where
  directory : IsDir (im d).type
  entry : (im d).slot k = some (name, i)
  plain : name ≠ dot ∧ name ≠ dotdot
  empty : IsDir (im i).type → ∀ j other t, (im i).slot j = some (other, t) → other = dot ∨ other = dotdot
  slots : (im' d).slot = Function.update (im d).slot k none
  rest : ∀ j, j ≠ d → j ≠ i → im' j = im j
  node : im' i = (im i).setNlink ((im i).nlink - 1) ∨ (im i).nlink = 1 ∧ im' i = .gone

section

variable {R : Rules} {fs fs' : Fs} {disk disk' : Disk} {d k i : Nat} {name : List UInt8}

theorem Sound.restored (sound : Sound R fs) (kept : R.kept) (coherent : Coherent fs') (fades : Fades fs.refs fs fs')
    (refs : fs'.refs = fs.refs) : Restored fs fs' := by
  have block := fades.same (sound.not_faded kept fades.image)
  refine ⟨fades.sb, block, refs, fades.inum, fun ip held valid => ?_⟩
  have valid' := fades.valid ip held valid
  have refd' : 0 < (fs'.icache ip).ref := held.trans_eq (congrFun refs ip).symm
  refine ⟨valid', ?_⟩
  rw [(coherent.loaded ip refd' valid').1, (sound.loaded ip held valid).1, fades.sb, block, fades.inum ip held]

theorem Restored.transaction (restored : Restored (fs.setDisk disk) fs') (begun : fs.disk.Alike disk)
    (ended : fs'.disk.Alike disk') : Restored fs (fs'.setDisk disk') :=
  ⟨(ended.sb.trans restored.sb).trans begun.sb, (ended.block.trans restored.block).trans begun.block,
    restored.refs, restored.inum, restored.cached⟩

theorem Balanced.parent_linked {img img' : Nat → Node} (bal : Balanced img)
    (unlinks : Unlinked d name k i img img') (zero : (img' d).nlink = 0) : (img d).nlink = 0 := by
  by_contra linked
  have counts := bal.consistent.counts d (IsDir.blockType unlinks.directory).ne_zero
  have pos : 1 ≤ (img d).nlink.toInt := by
    have : (img d).nlink.toInt ≠ 0 := fun none => linked (BitVec.eq_of_toInt_eq none)
    omega
  rw [unlinks.parentNlink] at zero
  split at zero
  · rename_i dir
    have mem := bal.found unlinks.directory unlinks.finds unlinks.notDot unlinks.notDotdot pos
    have two : 2 ≤ (img d).nlink.toInt :=
      bal.upright.holder_two mem (kindOf_dir.mpr dir)
    rw [(BitVec.sub_eq_iff_eq_add.mp zero : (img d).nlink = 1)] at two
    exact absurd two (by decide)
  · exact linked zero

theorem Changes.zeroed (changes : Changes fs.refs (Unlinked d name k i) fs fs') (sound : Sound R fs)
    (kept : R.kept) (bal : Balanced fs.image) : Zeroed d k i (cname name) fs.image fs'.image := by
  obtain ⟨_, before, after, first, unlinks, last⟩ := changes
  obtain rfl := sound.not_faded kept first
  have same : ∀ j, (after j).type = (fs.image j).type →
      ((after j).nlink = 0 → (fs.image j).nlink = 0) → fs'.image j = after j := by
    intro j type nlink
    refine (last j).resolve_right fun ⟨ty, zero, _, free⟩ => free ?_
    obtain ⟨ip, held, _, num⟩ := sound.kept kept j (type ▸ ty) (nlink zero)
    exact ⟨ip, held, num⟩
  refine ⟨unlinks.directory, unlinks.finds.1, ⟨unlinks.notDot, unlinks.notDotdot⟩,
    fun dir j o t here => ?_, ?_, fun j notParent notChild => ?_, ?_⟩
  · match j with
    | 0 =>
      rw [bal.dotted.self i dir] at here
      cases here
      exact .inl rfl
    | 1 =>
      obtain ⟨u, up⟩ := bal.dotted.upper i dir
      rw [up] at here
      cases here
      exact .inr rfl
    | j + 2 =>
      rw [unlinks.empty dir (j + 2) (by omega)] at here
      cases here
  · rw [same d unlinks.parentType (bal.parent_linked unlinks), unlinks.parentSlot]
  · have o := unlinks.other j notParent notChild
    rw [same j (by rw [o]) (by rw [o]; exact id), o]
  · refine (last i).imp (fun eq => eq.trans unlinks.node) fun ⟨_, zero, gone, _⟩ => ⟨?_, gone⟩
    rw [unlinks.node, Node.setNlink_nlink] at zero
    exact BitVec.sub_eq_iff_eq_add.mp zero

end

end Xv6

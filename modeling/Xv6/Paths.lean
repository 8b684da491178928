import Xv6.Updates

/-! Path lookup in sound states. The inode that `namex` arrives at is the one a walk through the
directories leads to, and what it takes on the way it gives back. -/

namespace Xv6

open Exec

/-- A walk along a path from inode `i`; with `pa` it stops before the last element, whose name
it returns. -/
inductive Walk (im : Nat → Node) (pa : Bool) : Nat → List UInt8 → Nat → List UInt8 → Prop
  | done {i : Nat} {path : List UInt8} : skipelem path = none → pa = false → Walk im pa i path i []
  | last {i : Nat} {path name rest : List UInt8} : skipelem path = some (name, rest) →
      IsDir (im i).type → pa = true ∧ rest.isEmpty = true → Walk im pa i path i name
  | next {i k j d : Nat} {path name rest final : List UInt8} : skipelem path = some (name, rest) →
      IsDir (im i).type → ¬(pa = true ∧ rest.isEmpty = true) → (im i).Finds name k j →
      Walk im pa j rest d final → Walk im pa i path d final

def NoDangling (im : Nat → Node) : Prop :=
  ∀ d k name i, IsDir (im d).type → (im d).slot k = some (name, i) → (im i).type ≠ 0

def noLinks : Stop := .panic "unlink: nlink < 1"

/-- No claim is made about the other ways in which a call fails to return. -/
def Lenient (stops : Stop → Prop) : Prop := ∀ why, why ≠ noType → why ≠ noLinks → stops why

theorem Lenient.other {stops : Stop → Prop} (lax : Lenient stops) {why : Stop}
    (named : why ≠ noType ∧ why ≠ noLinks := by decide) : stops why :=
  lax why named.1 named.2

theorem not_isDir_iff {type : BitVec 16} : type ≠ T_DIR ∧ type ≠ T_SDIR ↔ ¬IsDir type := not_or.symm

section

variable {R : Rules} {fs : Fs} {dp : Slot} {stops : Stop → Prop}

theorem Put.image_other {fs' : Fs} {slot o : Slot} (put : Put fs fs' slot) (coherent : Coherent fs)
    (live : 0 < (fs'.icache o).ref) : fs'.image (fs.icache o).inum = fs.image (fs.icache o).inum := by
  rw [put.image]
  split
  · rename_i freed
    refine Function.update_of_ne (fun clash => ?_) _ _
    by_cases eq : o = slot
    · rw [eq, put.ref] at live
      omega
    · rw [put.other o eq] at live
      exact eq (coherent.unique o slot live (by omega) clash)
  · rfl

theorem Active.holds_dirlookup {name : List UInt8} {post : Option (Slot × Nat) → Fs → Prop}
    (act : Active R fs) (held : 0 < (fs.icache dp).ref)
    (valid : (fs.icache dp).valid = true) (dir : IsDir (fs.nodeAt dp).type)
    (full : (∀ slot, (fs.icache slot).ref ≠ 0) → stops noInodes)
    (short : ¬deSize ∣ (fs.nodeAt dp).size.toNat → stops (.panic "dirlink read"))
    (absent : (∀ j i, (fs.nodeAt dp).slot j ≠ some (cname name, i)) → post none fs)
    (hit : ∀ k i slot fs', (fs.nodeAt dp).Finds name k i → Got fs fs' slot i → Active R fs' →
      post (some (slot, deSize * k)) fs') : Holds (dirlookup dp name) fs post stops := by
  refine Xv6.holds_dirlookup (act.openDir held valid dir) full short absent fun k i slot fs' finds got => ?_
  have lt : fs.disk.sb.inTable i :=
    ⟨(Node.slot_inum finds.1).1, act.tidy.named _ k _ i dir finds.1⟩
  exact hit k i slot fs' finds got ⟨got.sound act.toSound lt, got.disk ▸ act.opened⟩

end

variable {fs fs' : Fs} {slot : Slot} {inum : Nat}

theorem Got.referenced (got : Got fs fs' slot inum) : 0 < (fs'.icache slot).ref := by
  have := got.ref
  by_cases live : 0 < (fs.icache slot).ref
  · omega
  · have := (got.fresh live).1
    omega

theorem Got.image (got : Got fs fs' slot inum) :
    fs'.image = fs.image := Fs.image_congr (congrArg Disk.sb got.disk) (congrArg Disk.block got.disk)

theorem pos_of_base {refs base extra : Slot → Int} (sum : refs = base + extra)
    (nonneg : ∀ slot, 0 ≤ extra slot) (slot : Slot) (counted : 0 < base slot) : 0 < refs slot := by
  rw [sum, Pi.add_apply]
  have := nonneg slot
  omega

theorem single_nonneg (slot o : Slot) : 0 ≤ (Pi.single slot 1 : Slot → Int) o := by
  by_cases eq : o = slot
  · rw [eq, Pi.single_eq_same]
    decide
  · rw [Pi.single_eq_of_ne eq]

section

variable {R : Rules} {s0 fs fs' : Fs} {base : Slot → Int} {stops : Stop → Prop} {ip cwd : Slot} {path : List UInt8}

structure Walking (R : Rules) (base : Slot → Int) (start fs : Fs) (ip : Slot) : Prop where
  active : Active R fs
  fades : Fades base start fs
  refs : fs.refs = base + Pi.single ip 1
  referenced : 0 < (fs.icache ip).ref

section

variable (walking : Walking R base s0 fs ip)

include walking

theorem Walking.put (put : Put fs fs' ip) : Fades base s0 fs' ∧ fs'.refs = base := by
  have refs : fs.refs - Pi.single ip 1 = base := by rw [walking.refs, add_sub_cancel_right]
  exact ⟨walking.fades.trans (refs ▸ put.fades), put.refs.trans refs⟩

theorem Walking.touched (touched : Touched fs fs' ip) (sound : Sound R fs') : Walking R base s0 fs' ip :=
  ⟨⟨sound, touched.disk ▸ walking.active.opened⟩, walking.fades.trans (touched.fades base),
    touched.refs.trans walking.refs, touched.ref ▸ walking.referenced⟩

theorem Walking.next {fs1 fs2 : Fs} {slot : Slot} {i : Nat} (got : Got fs fs1 slot i) (put : Put fs1 fs2 ip)
    (act : Active R fs2) : Walking R base s0 fs2 slot ∧ (fs2.icache slot).inum = i := by
  have refs : fs1.refs - Pi.single ip 1 = base + Pi.single slot 1 := by
    rw [got.refs, walking.refs]
    abel
  have more : 0 < (fs.icache ip).ref := walking.referenced
  have ent : 0 < (fs2.icache slot).ref ∧ (fs2.icache slot).inum = i := by
    by_cases eq : slot = ip
    · subst eq
      rw [put.ref, put.inum, got.ref, got.number]
      exact ⟨by omega, rfl⟩
    · rw [put.other slot eq]
      exact ⟨got.referenced, got.number⟩
  refine ⟨⟨act, ?_, put.refs.trans refs, ent.1⟩, ent.2⟩
  have fst := got.fades.anti (pos_of_base walking.refs (single_nonneg ip))
  have snd := (refs ▸ put.fades : Fades (base + Pi.single slot 1) fs1 fs2).anti (pos_of_base rfl (single_nonneg slot))
  exact (walking.fades.trans fst).trans snd

theorem Walking.holds_ilock {post : Unit → Fs → Prop} (lax : Lenient stops)
    (untyped : (fs.nodeAt ip).type = 0 → stops noType)
    (next : ∀ fs', Took fs fs' ip → Walking R base s0 fs' ip → post () fs') : Holds (ilock ip) fs post stops :=
  walking.active.holds_ilock walking.referenced (fun _ => lax.other) untyped
    fun fs' took sound => next fs' took (walking.touched took.toTouched sound)

theorem Walking.holds_iunlockput {post : Unit → Fs → Prop} (lax : Lenient stops) (valid : (fs.icache ip).valid = true)
    (next : ∀ fs', Active R fs' → Fades base s0 fs' → fs'.refs = base → post () fs') :
    Holds (iunlockput ip) fs post stops :=
  walking.active.holds_iunlockput valid lax.other lax.other fun fs' put act =>
    next fs' act (walking.put put).1 (walking.put put).2

end

theorem Active.holds_namexFrom (up : Bool) {post : Option (Slot × List UInt8) → Fs → Prop} (lax : Lenient stops)
    (closed : stops noType ∨ ∀ img, Faded (s0.spared base) s0.image img → NoDangling img)
    (fuel : Nat) (fs : Fs) (ip : Slot) (path : List UInt8) (enough : path.length < fuel)
    (walking : Walking R base s0 fs ip) (ty : stops noType ∨ (fs.image (fs.icache ip).inum).type ≠ 0)
    (none : ∀ fs', Active R fs' → Fades base s0 fs' → fs'.refs = base → post none fs')
    (hit : ∀ slot name fs', Walking R base s0 fs' slot →
      Walk s0.image up (fs.icache ip).inum path (fs'.icache slot).inum name →
      (up = true → (fs'.icache slot).valid = true ∧ IsDir (fs'.nodeAt slot).type) →
      (stops noType ∨ (fs'.nodeAt slot).type ≠ 0) → post (some (slot, name)) fs') :
    Holds (namexFrom up fuel ip path) fs post stops := by
  induction fuel generalizing fs ip path with
  | zero => omega
  | succ fuel ih =>
    rw [namexFrom]
    cases element : skipelem path with
    | none =>
      cases up with
      | false =>
        rw [if_neg (by decide), holds_pure]
        exact hit ip [] fs walking (Walk.done element rfl) (fun h => by cases h) ty
      | true =>
        simp only [if_pos, holds_bind]
        refine walking.active.holds_iput walking.referenced lax.other fun fs' put act => ?_
        rw [holds_pure]
        exact none fs' act (walking.put put).1 (walking.put put).2
    | some step =>
      obtain ⟨name, rest⟩ := step
      have shorter := skipelem_shorter element
      simp only [holds_bind]
      refine walking.holds_ilock lax (fun free => ty.resolve_right (absurd free)) fun fs1 took walking1 => ?_
      have node : fs1.nodeAt ip = s0.image (fs.icache ip).inum := by
        rw [Fs.nodeAt, took.inum, took.image]
        exact walking.fades.image.same_of_typed took.typed
      have type := (walking1.active.image_slot walking1.referenced took.loaded).1
      rw [holds_inode, holds_ite, not_isDir_iff, ← type]
      refine ⟨fun _ => ?_, fun dir => ?_⟩
      · rw [holds_bind]
        exact walking1.holds_iunlockput lax took.loaded fun fs2 act2 fades refs =>
          .pure (none fs2 act2 fades refs)
      rw [not_not] at dir
      have here : IsDir (s0.image (fs.icache ip).inum).type := node ▸ dir
      rw [holds_ite]
      refine ⟨fun final => ?_, fun more => ?_⟩
      · rw [holds_bind]
        refine walking1.active.holds_iunlock lax.other fun fs2 touched _ sound2 => ?_
        rw [holds_pure]
        have walking2 := walking1.touched touched sound2
        have eq := touched.nodeAt
        refine hit ip name fs2 walking2 ?_ (fun _ => ⟨touched.valid took.loaded, eq ▸ dir⟩)
          (.inr (eq ▸ dir.blockType.ne_zero))
        rw [touched.inum, took.inum]
        exact Walk.last element here final
      · rw [holds_bind]
        refine walking1.active.holds_dirlookup walking1.referenced took.loaded dir
          (fun _ => lax.other) (fun _ => lax.other) (fun absent => ?_) fun k j slot fs2 finds got act2 => ?_
        · simp only [holds_bind]
          exact walking1.holds_iunlockput lax took.loaded fun fs2 act2 fades refs =>
            .pure (none fs2 act2 fades refs)
        · simp only [holds_bind]
          refine act2.holds_iunlockput (got.fades.valid ip walking1.referenced took.loaded)
            lax.other lax.other fun fs3 put act3 => ?_
          obtain ⟨walking3, num⟩ := walking1.next got put act3
          refine ih fs3 slot rest (by omega) walking3 ?_ fun final name' fs' walking' walk => ?_
          · rw [num]
            refine closed.imp id fun closed => ?_
            have kept := put.image_other act2.toCoherent walking3.referenced
            rw [got.number] at kept
            rw [kept, got.image]
            exact closed fs1.image walking1.fades.image _ k _ j dir finds.1
          · rw [num] at walk
            exact hit final name' fs' walking' (Walk.next element here more (node ▸ finds) walk)

theorem Active.holds_namexStart {post : Slot → Fs → Prop} (act : Active R fs)
    (held : 0 < (fs.icache cwd).ref) (full : (∀ slot, (fs.icache slot).ref ≠ 0) → stops noInodes)
    (next : ∀ ip fs', Walking R fs.refs fs fs' ip →
      (fs'.icache ip).inum = (if path.head? = some slash then ROOTINO else (fs.icache cwd).inum) →
      fs'.image = fs.image → post ip fs') : Holds (namexStart cwd path) fs post stops := by
  rw [namexStart, holds_ite]
  have take : ∀ ip fs' inum, Got fs fs' ip inum → fs.disk.sb.inTable inum →
      Walking R fs.refs fs fs' ip := fun ip fs' inum got lt =>
    ⟨⟨got.sound act.toSound lt, got.disk ▸ act.opened⟩, got.fades, got.refs, got.referenced⟩
  refine ⟨fun absolute => ?_, fun relative => ?_⟩
  · refine holds_iget_got full fun ip fs' got => ?_
    refine next ip fs' (take ip fs' _ got ⟨by decide, act.rooted⟩) ?_ got.image
    rw [got.number, if_pos absolute]
  · refine act.holds_idup held fun fs' got _ => ?_
    refine next cwd _ (take cwd _ _ got (act.numbered cwd held)) ?_ got.image
    rw [got.number, if_neg relative]

def Fs.origin (fs : Fs) (cwd : Slot) (path : List UInt8) : Nat :=
  if path.head? = some slash then ROOTINO else (fs.icache cwd).inum

theorem Active.holds_namex (up : Bool) {post : Option (Slot × List UInt8) → Fs → Prop}
    (act : Active R fs) (held : 0 < (fs.icache cwd).ref) (lax : Lenient stops)
    (closed : stops noType ∨ (fs.image (fs.origin cwd path)).type ≠ 0 ∧
      ∀ img, Faded (fs.spared fs.refs) fs.image img → NoDangling img)
    (none : ∀ fs', Active R fs' → Fades fs.refs fs fs' → fs'.refs = fs.refs → post none fs')
    (hit : ∀ slot name fs', Walking R fs.refs fs fs' slot →
      Walk fs.image up (fs.origin cwd path) path (fs'.icache slot).inum name →
      (up = true → (fs'.icache slot).valid = true ∧ IsDir (fs'.nodeAt slot).type) →
      (stops noType ∨ (fs'.nodeAt slot).type ≠ 0) → post (some (slot, name)) fs') :
    Holds (namex cwd path up) fs post stops := by
  rw [namex, holds_bind]
  refine act.holds_namexStart held (fun _ => lax.other) fun ip fs1 walking origin img => ?_
  refine Active.holds_namexFrom up lax (closed.imp id And.right) _ fs1 ip path (by omega)
    walking ?_ none fun slot name fs' walking' walk => ?_
  · rw [origin, img]
    exact closed.imp id And.left
  · rw [origin] at walk
    exact hit slot name fs' walking' walk

end

end Xv6

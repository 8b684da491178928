import Xv6.OpenCall
import Xv6.Mkfs

/-! Which files the two kinds of directories hold: small-file directories no regular files, and
ordinary directories no small files. -/

namespace Xv6

open Exec Reach IsDir Function

def Fits (pa c : BitVec 16) : Prop :=
  (pa = T_SDIR → c ≠ T_FILE) ∧ (pa = T_DIR → c ≠ T_SFILE)

def KindsApart (im : Nat → Node) : Prop :=
  ∀ d k name i, (im d).slot k = some (name, i) → Fits (im d).type (im i).type

def Call.Sorted (kern : Kernel) (step : ProcSlot × Call) : Prop :=
  match step.2 with
  | .sysOpen _ omode => ∀ mode, omode = some mode → hasFlag mode O_CREATE = true → NoDangling kern.fs.image
  | .sysLink old new => ∀ i last d name,
      (∃ path, old = some path ∧ kern.Walks step.1 false path i last) →
      (∃ path, new = some path ∧ kern.Walks step.1 true path d name) →
      Fits (kern.fs.image d).type (kern.fs.image i).type
  | _ => True

section

variable {img img' : Nat → Node} {safe : Nat → Prop} {pa c : BitVec 16} {d k i : Nat} {name : List UInt8}

theorem fits_of_other (o : c ≠ T_FILE ∧ c ≠ T_SFILE) : Fits pa c := ⟨fun _ => o.1, fun _ => o.2⟩

theorem fits_of_dir (dir : IsDir c) : Fits pa c := by
  refine fits_of_other ?_
  rcases dir with rfl | rfl <;> decide

theorem fits_free (pa : BitVec 16) : Fits pa 0 := fits_of_other (by decide)

theorem fits_into_file (file : ¬IsDir pa) : Fits pa c :=
  ⟨fun same => absurd (.inr same) file, fun same => absurd (.inl same) file⟩

theorem Admits.fits {type : BitVec 16} (admits : Admits pa type) : Fits pa type := by
  refine ⟨fun small file => admits.2 file small, fun dir file => ?_⟩
  rw [admits.1 file] at dir
  exact absurd dir (by decide)

section

variable (apart : KindsApart img)

include apart

theorem KindsApart.faded (faded : Faded safe img img') : KindsApart img' := by
  intro d k name i here
  by_cases dir : IsDir (img' d).type
  · have same := faded.same_of_typed (blockType dir).ne_zero
    rw [same] at here ⊢
    by_cases ty : (img' i).type = 0
    · rw [ty]
      exact fits_free _
    · rw [faded.same_of_typed ty]
      exact apart d k name i here
  · exact fits_into_file dir

theorem KindsApart.change (entries : ∀ d k name i, IsDir (img' d).type → (img' d).slot k = some (name, i) →
      ((img' d).type = (img d).type ∧ (img d).slot k = some (name, i)) ∨ Fits (img' d).type (img' i).type)
    (types : ∀ d k name i, IsDir (img d).type → (img d).slot k = some (name, i) →
      (img' i).type = (img i).type ∨ Fits (img d).type (img' i).type) : KindsApart img' := by
  intro d k name i here
  by_cases dir : IsDir (img' d).type
  · rcases entries d k name i dir here with ⟨same, old⟩ | fits
    · rw [same] at dir ⊢
      rcases types d k name i dir old with kept | fits
      · rw [kept]
        exact apart d k name i old
      · exact fits
    · exact fits
  · exact fits_into_file dir

theorem KindsApart.made {type : BitVec 16} (made : Made d name type k i img img')
    (admits : Admits (img d).type type) (unnamed : type = T_FILE ∨ type = T_SFILE → NoDangling img) :
    KindsApart img' := by
  have apartly : i ≠ d := fun same =>
    (blockType made.directory).ne_zero (same ▸ made.free)
  refine apart.change (fun d' k' name' j dir here => ?_) fun d' k' name' j dir here => ?_
  · by_cases pa : d' = d
    · subst pa
      rw [made.parentSlot] at here
      by_cases ent : k' = k
      · rw [ent, update_self, Option.some.injEq, Prod.mk.injEq] at here
        rw [← here.2, made.kind, made.parentType]
        exact .inr admits.fits
      · rw [update_of_ne ent] at here
        exact .inl ⟨made.parentType, here⟩
    · by_cases c : d' = i
      · subst c
        rw [made.kind] at dir
        rw [made.slot, initialSlots, if_pos dir] at here
        refine .inr (fits_of_dir ?_)
        rcases k' with _ | _ | k' <;> cases here
        · rwa [made.kind]
        · rw [made.parentType]
          exact made.directory
      · rw [made.other d' pa c] at here ⊢
        exact .inl ⟨rfl, here⟩
  · by_cases c : j = i
    · rw [c, made.kind]
      refine .inr (fits_of_other ⟨fun file => ?_, fun file => ?_⟩)
      · exact unnamed (.inl file) d' k' name' j dir here (c ▸ made.free)
      · exact unnamed (.inr file) d' k' name' j dir here (c ▸ made.free)
    · by_cases pa : j = d
      · rw [pa, made.parentType]
        exact .inl rfl
      · rw [made.other j pa c]
        exact .inl rfl

theorem KindsApart.linked (linked : Linked d name k i img img')
    (fits : Fits (img d).type (img i).type) : KindsApart img' := by
  have types := linked.types
  refine apart.change (fun d' k' name' j dir here => ?_) fun d' k' name' j dir here => .inl (types j)
  by_cases pa : d' = d
  · subst pa
    rw [linked.parentSlot] at here
    by_cases ent : k' = k
    · rw [ent, update_self, Option.some.injEq, Prod.mk.injEq] at here
      rw [← here.2, types, types]
      exact .inr fits
    · rw [update_of_ne ent] at here
      exact .inl ⟨types d', here⟩
  · refine .inl ⟨types d', ?_⟩
    by_cases c : d' = i
    · rw [types, c] at dir
      exact absurd dir linked.file
    · rwa [linked.other d' pa c] at here

theorem KindsApart.unlinked (unlinked : Unlinked d name k i img img') : KindsApart img' := by
  have types := unlinked.types
  refine apart.change (fun d' k' name' j dir here => .inl ⟨types d', ?_⟩) fun d' k' name' j dir here => .inl (types j)
  by_cases pa : d' = d
  · subst pa
    rw [unlinked.parentSlot] at here
    by_cases ent : k' = k
    · rw [ent, update_self] at here
      cases here
    · rwa [update_of_ne ent] at here
  · by_cases c : d' = i
    · subst c
      rwa [unlinked.node, Node.setNlink_slot] at here
    · rwa [unlinked.other d' pa c] at here

theorem KindsApart.wrote {off n : Nat} {src : Nat → UInt8} (regular : (img i).type = T_FILE) :
    KindsApart (update img i ((img i).write src off n)) := by
  have types := write_types img i src off n
  refine apart.change (fun d' k' name' j dir here => .inl ⟨types d', ?_⟩) fun d' k' name' j dir here => .inl (types j)
  have o : d' ≠ i := by
    rintro rfl
    rw [types, regular] at dir
    exact absurd dir (by decide)
  rwa [update_of_ne o] at here

theorem KindsApart.act {k : Kernel} {p : ProcSlot} {call : Call}
    (faded : Faded safe k.fs.image img) (sorted : Call.Sorted k (p, call))
    (act : Act ⟨True, True⟩ k p call img img') : KindsApart img' := by
  cases act with
  | same => exact apart
  | made makes walk admits whole made =>
    refine apart.made made admits fun file => ?_
    rw [whole trivial]
    cases makes with
    | sysOpen creates => exact sorted _ rfl creates
    | sysMkdir => exact absurd file (by decide)
    | sysMknod => exact absurd file (by decide)
    | mkSmallFilesdir => exact absurd file (by decide)
  | linked oldWalk newWalk linked =>
    refine apart.linked linked ?_
    rw [faded.same_of_typed linked.typed, faded.same_of_typed (blockType linked.directory).ne_zero]
    exact sorted _ _ _ _ ⟨_, rfl, oldWalk⟩ ⟨_, rfl, newWalk⟩
  | unlinked _ unlinked => exact apart.unlinked unlinked
  | wrote _ regular => exact apart.wrote regular

end

end

/-- In every run in which links are made between fitting types, no entry of a small-file directory names
a regular file, and none of an ordinary directory a small file. -/
theorem directory_kinds_kept (start : Kernel) (running : Running ⟨True, True⟩ start)
    (apart : KindsApart start.fs.image) (kern : Kernel) (reached : Reachable Call.Next
      (fun kern step => Call.Sorted kern step ∧ Call.LeavesSmall kern step) start kern) : KindsApart kern.fs.image := by
  refine (reached.invariant (fun kern => Running ⟨True, True⟩ kern ∧ KindsApart kern.fs.image)
    ⟨running, apart⟩ fun before step after holds allowed next => ?_).2
  have advances := holds.1.advances trivial allowed.2 next
  obtain ⟨_, im, im', first, act, last⟩ := advances.evolves
  exact ⟨advances.running, ((holds.2.faded first).act first allowed.1 act).faded last⟩

theorem mkfsKernel_apart : KindsApart mkfsKernel.fs.image := by
  intro d k name i here
  by_cases dir : IsDir (mkfsKernel.fs.image d).type
  · have root := mkfsKernel_typed (blockType dir).ne_zero
    rw [root, mkfsKernel_image] at here
    refine fits_of_dir ?_
    rw [(mkfsNode_entry here).1, mkfsKernel_image]
    decide
  · exact fits_into_file dir

theorem directory_kinds_create : ∃ kern : Kernel,
    Call.Next mkfsKernel (0, .sysOpen (some [102]) (some (BitVec.ofNat 32 O_CREATE))) kern ∧
    (kern.fs.image ROOTINO).slot 2 = some ([102], 2) ∧ (kern.fs.image 2).type = T_FILE ∧ KindsApart kern.fs.image := by
  have checked : ((Call.sysOpen (some [102]) (some (BitVec.ofNat 32 O_CREATE))).run 0 mkfsKernel).any
      (fun kern => (kern.fs.image ROOTINO).slot 2 == some ([102], 2) && (kern.fs.image 2).type == T_FILE) = true := by
    decide +kernel
  obtain ⟨kern, ran, value⟩ := (Option.any_eq_true _ _).mp checked
  simp only [Bool.and_eq_true, beq_iff_eq] at value
  have next : Call.Next mkfsKernel (0, .sysOpen (some [102]) (some (BitVec.ofNat 32 O_CREATE))) kern :=
    ⟨by decide, ran⟩
  have sorted : Call.Sorted mkfsKernel (0, .sysOpen (some [102]) (some (BitVec.ofNat 32 O_CREATE))) :=
    fun _ _ _ => mkfsKernel_noDangling
  exact ⟨kern, next, value.1, value.2, directory_kinds_kept mkfsKernel (mkfsKernel_running ⟨True, True⟩)
    mkfsKernel_apart kern (.step _ .start ⟨sorted, trivial⟩ next)⟩

/-- A regular file "f" gets the second name "s/f" in a small-file directory. -/
theorem directory_kinds_mixed : ∃ kern : Kernel,
    Reachable Call.Next (fun _ _ => True) mkfsKernel kern ∧ (kern.fs.image 2).type = T_SDIR ∧
    (kern.fs.image 2).slot 2 = some ([102], 3) ∧ (kern.fs.image 3).type = T_FILE ∧ ¬KindsApart kern.fs.image := by
  have checked : (replayCalls [(0, .mkSmallFilesdir (some [115])),
        (0, .sysOpen (some [102]) (some (BitVec.ofNat 32 O_CREATE))),
        (0, .sysLink (some [102]) (some [115, 47, 102]))] mkfsKernel).any
      (fun kern => (kern.fs.image 2).type == T_SDIR &&
        (kern.fs.image 2).slot 2 == some ([102], 3) && (kern.fs.image 3).type == T_FILE) = true := by
    decide +kernel
  obtain ⟨kern, reached, value⟩ := calls_of_replay checked
  simp only [Bool.and_eq_true, beq_iff_eq] at value
  obtain ⟨⟨small, entry⟩, file⟩ := value
  exact ⟨kern, reached, small, entry, file, fun apart => (apart 2 2 _ _ entry).1 small file⟩

end Xv6

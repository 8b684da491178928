import Xv6.Inodes
import Xv6.Lib.Owner

/-! The file system as a map of places to block numbers: which block each place of each
inode names, when the bitmap agrees with that map, and how the map changes with single
stores. -/

namespace Xv6

open Writes Owner Bytes Dinode Function

variable {block' : Nat → Block} {i t : Nat} {data : Block} {k : Nat × Option Nat}

/-- The types of inodes whose `addrs` are block numbers. -/
def BlockType (type : BitVec 16) : Prop := type = T_FILE ∨ type = T_DIR ∨ type = T_SDIR

instance (type : BitVec 16) : Decidable (BlockType type) := inferInstanceAs (Decidable (_ ∨ _))

def table (sb : Superblock) (block : Nat → Block) (inum : Nat) : Dinode :=
  if inum < sb.ninodes then dinodeAt sb block inum else Dinode.fresh 0

/-- The block number an inode holds for one of its file blocks; `none` is the place of the
indirect block. -/
def blockOf (dinode : Dinode) (block : Nat → Block) : Option Nat → Nat
  | none => dinode.addrs.word NDIRECT
  | some bn =>
    if bn < NDIRECT then dinode.addrs.word bn
    else if bn < MAXFILE ∧ dinode.addrs.word NDIRECT ≠ 0 then
      (block (dinode.addrs.word NDIRECT)).word (bn - NDIRECT)
    else 0

def pointer (dinodes : Nat → Dinode) (block : Nat → Block) (place : Nat × Option Nat) : Nat :=
  if BlockType (dinodes place.1).type then blockOf (dinodes place.1) block place.2 else 0

def Superblock.area (sb : Superblock) (b : Nat) : Prop := sb.dataStart ≤ b ∧ b < sb.size

/-- The places and the bitmap agree, and the blocks before the data area are never free. -/
structure Owned (sb : Superblock) (dinodes : Nat → Dinode) (block : Nat → Block) : Prop where
  owns : Owns (pointer dinodes block) (Used sb block) sb.area
  marked : ∀ b < sb.dataStart, Used sb block b

structure Present (places : Nat × Option Nat → Nat) (inum count : Nat) : Prop where
  limit : count ≤ MAXFILE
  file : ∀ bn < MAXFILE, (places (inum, some bn) ≠ 0 ↔ bn < count)
  indirect : places (inum, none) ≠ 0 ↔ NDIRECT < count

section

variable {dinode : Dinode} {block : Nat → Block} {bn val : Nat}

theorem blockOf_direct (direct : bn < NDIRECT) : blockOf dinode block (some bn) = dinode.addrs.word bn := if_pos direct

theorem blockOf_entry (low : NDIRECT ≤ bn) (high : bn < MAXFILE) (has : dinode.addrs.word NDIRECT ≠ 0) :
    blockOf dinode block (some bn) = (block (dinode.addrs.word NDIRECT)).word (bn - NDIRECT) := by
  rw [blockOf, if_neg (by omega), if_pos ⟨high, has⟩]

theorem blockOf_absent (low : NDIRECT ≤ bn) (absent : MAXFILE ≤ bn ∨ dinode.addrs.word NDIRECT = 0) :
    blockOf dinode block (some bn) = 0 := by
  rw [blockOf, if_neg (by omega), if_neg]
  rintro ⟨high, has⟩
  rcases absent with far | zero
  · omega
  · exact has zero

theorem blockOf_congr (eq : dinode.addrs.word NDIRECT ≠ 0 →
      block' (dinode.addrs.word NDIRECT) = block (dinode.addrs.word NDIRECT)) (k : Option Nat) :
    blockOf dinode block' k = blockOf dinode block k := by
  cases k with
  | none => rfl
  | some bn =>
    by_cases has : dinode.addrs.word NDIRECT = 0
    · simp [blockOf, has]
    · simp [blockOf, eq has]

theorem blockOf_fresh (type : BitVec 16) (k : Option Nat) : blockOf (fresh type) block k = 0 := by
  cases k with
  | none => rfl
  | some bn => simp [blockOf, fresh]

theorem blockOf_setWord (direct : i < NDIRECT) (small : val < 2 ^ 32)
    (k : Option Nat) : blockOf (dinode.setAddrs (dinode.addrs.setWord i val)) block k =
      if k = some i then val else blockOf dinode block k := by
  have other : (dinode.addrs.setWord i val).word NDIRECT = dinode.addrs.word NDIRECT :=
    word_setWord_ne _ _ (by omega)
  have here : (dinode.addrs.setWord i val).word i = val := by
    rw [word_setWord_same _ _ _ (by simp only [NDIRECT] at direct; omega), Nat.mod_eq_of_lt small]
  cases k with
  | none => simpa [blockOf] using other
  | some bn =>
    simp only [blockOf, setAddrs_addrs, other, Option.some.injEq]
    by_cases eq : bn = i
    · rw [eq, if_pos direct, if_pos rfl, here]
    · rw [if_neg eq, word_setWord_ne _ _ eq]

theorem blockOf_setIndirect (absent : dinode.addrs.word NDIRECT = 0) (small : val < 2 ^ 32)
    (zeroed : block val = Bytes.zero) (k : Option Nat) :
    blockOf (dinode.setAddrs (dinode.addrs.setWord NDIRECT val)) block k =
      if k = none then val else blockOf dinode block k := by
  have here : (dinode.addrs.setWord NDIRECT val).word NDIRECT = val := by
    rw [word_setWord_same _ _ _ (by decide), Nat.mod_eq_of_lt small]
  cases k with
  | none => simpa [blockOf] using here
  | some bn =>
    by_cases direct : bn < NDIRECT
    · rw [blockOf_direct direct, if_neg (by simp), blockOf_direct direct, setAddrs_addrs,
        word_setWord_ne _ _ (by omega)]
    · rw [if_neg (by simp), blockOf_absent (by omega) (.inr absent)]
      simp [blockOf, direct, here, zeroed]

theorem blockOf_setEntry (low : NDIRECT ≤ bn) (high : bn < MAXFILE) (small : val < 2 ^ 32)
    (has : dinode.addrs.word NDIRECT ≠ 0) (k : Option Nat) : blockOf dinode (update block (dinode.addrs.word NDIRECT)
        ((block (dinode.addrs.word NDIRECT)).setWord (bn - NDIRECT) val)) k =
      if k = some bn then val else blockOf dinode block k := by
  cases k with
  | none => rfl
  | some o =>
    simp only [blockOf, Option.some.injEq, update_self]
    by_cases eq : o = bn
    · subst eq
      rw [if_neg (by omega), if_pos ⟨high, has⟩, if_pos rfl, word_setWord_same _ _ _ ?_, Nat.mod_eq_of_lt small]
      simp only [MAXFILE, NDIRECT, NINDIRECT, BSIZE] at *
      omega
    · rw [if_neg eq]
      split
      · rfl
      · rw [word_setWord_ne _ _ (by omega)]

end

section

variable {dinodes : Nat → Dinode} {block : Nat → Block} {inum : Nat}

theorem pointer_of_type (ty : BlockType (dinodes inum).type) (k : Option Nat) :
    pointer dinodes block (inum, k) = blockOf (dinodes inum) block k := if_pos ty

theorem pointer_of_not_type (untyped : ¬BlockType (dinodes inum).type) (k : Option Nat) :
    pointer dinodes block (inum, k) = 0 := if_neg untyped

theorem pointer_congr (eq : ∀ inum, pointer dinodes block (inum, none) ≠ 0 →
      block' (pointer dinodes block (inum, none)) = block (pointer dinodes block (inum, none))) :
    pointer dinodes block' = pointer dinodes block := by
  funext k
  obtain ⟨inum, k⟩ := k
  by_cases ty : BlockType (dinodes inum).type
  · have indirect := eq inum
    rw [pointer_of_type ty] at indirect
    rw [pointer_of_type ty, pointer_of_type ty]
    exact blockOf_congr indirect k
  · rw [pointer_of_not_type ty, pointer_of_not_type ty]

theorem pointer_update_block
    (unused : ∀ inum, pointer dinodes block (inum, none) ≠ 0 → pointer dinodes block (inum, none) ≠ t) :
    pointer dinodes (update block t data) = pointer dinodes block :=
  pointer_congr fun inum has => update_of_ne (unused inum has) _ _

theorem pointer_update_dinode (dinode : Dinode) (o : Nat) (k : Option Nat) :
    pointer (update dinodes inum dinode) block (o, k) =
      if o = inum then (if BlockType dinode.type then blockOf dinode block k else 0)
      else pointer dinodes block (o, k) := by
  by_cases eq : o = inum
  · subst eq
    simp [pointer]
  · simp [pointer, eq]

end

section

variable {sb : Superblock} {fssize inum : Nat} {block block' : Nat → Block}

theorem table_of_lt (lt : inum < sb.ninodes) : table sb block inum = dinodeAt sb block inum := if_pos lt

theorem lt_of_table_type (ty : (table sb block inum).type ≠ 0) : inum < sb.ninodes := by
  by_contra outside
  rw [table, if_neg outside] at ty
  exact ty rfl

theorem table_congr (lay : Layout sb fssize) (low : ∀ b < sb.bmapstart, block' b = block b) :
    table sb block' = table sb block := by
  funext inum
  simp only [table, dinodeAt]
  split
  · rename_i lt
    rw [low _ (lay.IBLOCK_lt lt)]
  · rfl

theorem table_save (lay : Layout sb fssize) (lt : inum < sb.ninodes) (dinode : Dinode) :
    table sb (update block (IBLOCK inum sb) (dinode.save (inum % IPB) (block (IBLOCK inum sb)))) =
      update (table sb block) inum dinode := by
  funext o
  by_cases low : o < sb.ninodes
  · rw [table_of_lt low, dinodeAt_store block dinode (lay.row lt low)]
    by_cases same : o = inum
    · rw [if_pos same, same, update_self]
    · rw [if_neg same, update_of_ne same, table_of_lt low]
  · rw [table, if_neg low, update_of_ne (by omega), table, if_neg low]

end

structure Allotted (sb : Superblock) (block block' : Nat → Block) (b : Nat) : Prop where
  area : sb.area b
  free : ¬Used sb block b
  used : ∀ c < sb.size, (Used sb block' c ↔ Used sb block c ∨ c = b)
  zeroed : block' b = Bytes.zero
  low : ∀ c < sb.bmapstart, block' c = block c
  data : ∀ c, sb.dataStart ≤ c → c ≠ b → block' c = block c

section

variable {sb : Superblock} {fssize : Nat} {dinodes dinodes' : Nat → Dinode} {block block' : Nat → Block} {inum b : Nat}

theorem allotted_of_balloc (lay : Layout sb fssize) (marked : ∀ b < sb.dataStart, Used sb block b)
    (lt : b < sb.size) (free : ¬Used sb block b) : Allotted sb block (applyAll block (ballocWrites sb block b)) b := by
  have limits := lay.bounds
  have start : sb.dataStart ≤ b := by
    by_contra below
    exact free (marked b (by omega))
  have bitmap : ∀ c < sb.size, sb.bmapstart ≤ BBLOCK c sb ∧ BBLOCK c sb < sb.dataStart :=
    fun c low => ⟨lay.le_BBLOCK low, lay.BBLOCK_lt low⟩
  have here := bitmap b lt
  simp only [ballocWrites, applyAll_cons, applyAll_nil]
  refine ⟨⟨start, lt⟩, free, fun c low => ?_, update_self _ _ _, fun c below => ?_, fun c above ne => ?_⟩
  · have there := bitmap c low
    rw [used_update_ne (by omega), used_setBit lay lt low]
  · rw [update_of_ne (by omega), update_of_ne (by omega)]
  · rw [update_of_ne ne, update_of_ne (by omega)]

section

variable (owned : Owned sb dinodes block)

include owned

theorem Owned.congr (places : pointer dinodes' block' = pointer dinodes block)
    (used : ∀ c < sb.size, (Used sb block' c ↔ Used sb block c)) : Owned sb dinodes' block' := by
  refine ⟨owned.owns.congr (fun k => congrFun places k) fun c low => used c low.2, fun c below => ?_⟩
  have start : sb.dataStart ≤ sb.size := Nat.sub_le _ _
  exact (used c (by omega)).mpr (owned.marked c below)

theorem Owned.area (has : pointer dinodes block k ≠ 0) : sb.area (pointer dinodes block k) :=
  owned.owns.inside k has

theorem Owned.store (lay : Layout sb fssize) (outside : t < sb.bmapstart ∨ sb.dataStart ≤ t)
    (unused : ∀ inum, pointer dinodes block (inum, none) ≠ 0 → pointer dinodes block (inum, none) ≠ t) :
    pointer dinodes (update block t data) = pointer dinodes block ∧ Owned sb dinodes (update block t data) := by
  have places : pointer dinodes (update block t data) = pointer dinodes block :=
    pointer_update_block unused
  refine ⟨places, owned.congr places fun c inside => ?_⟩
  have low := lay.le_BBLOCK inside
  have high := lay.BBLOCK_lt inside
  exact used_update_ne (by omega)

theorem Owned.pointer_allotted (allotted : Allotted sb block block' b) :
    pointer dinodes block' = pointer dinodes block :=
  pointer_congr fun _ has => allotted.data _ (owned.area has).1 (owned.owns.unowned allotted.area allotted.free _)

end

theorem Layout.not_area_zero (lay : Layout sb fssize) : ¬sb.area 0 := by
  have limits := lay.bounds
  rintro ⟨start, _⟩
  omega

theorem Owned.enter (owned : Owned sb dinodes block) (lay : Layout sb fssize)
    (area : sb.area b) (free : ¬Used sb block b) (empty : pointer dinodes block k = 0)
    (places : ∀ o, pointer dinodes' block' o = if o = k then b else pointer dinodes block o)
    (used : ∀ c < sb.size, (Used sb block' c ↔ Used sb block c ∨ c = b)) : Owned sb dinodes' block' := by
  refine ⟨owned.owns.alloc empty lay.not_area_zero area free places fun c low => used c low.2, fun c below => ?_⟩
  have start : sb.dataStart ≤ sb.size := Nat.sub_le _ _
  exact (used c (by omega)).mpr (.inl (owned.marked c below))

theorem Layout.area_lt (lay : Layout sb fssize) (area : sb.area b) : b < 2 ^ 32 := by
  have limits := lay.bounds
  have lt := area.2
  omega

theorem Owned.enter_addr (owned : Owned sb dinodes block) (lay : Layout sb fssize)
    (allotted : Allotted sb block block' b) (ty : BlockType (dinodes inum).type)
    {k : Option Nat} (empty : blockOf (dinodes inum) block k = 0)
    (moved : ∀ o, blockOf ((dinodes inum).setAddrs ((dinodes inum).addrs.setWord i b)) block' o =
      if o = k then b else blockOf (dinodes inum) block' o) :
    let dinode := (dinodes inum).setAddrs ((dinodes inum).addrs.setWord i b)
    (∀ o, pointer (update dinodes inum dinode) block' o =
      if o = (inum, k) then b else pointer dinodes block o) ∧ Owned sb (update dinodes inum dinode) block' := by
  intro dinode
  have eq := owned.pointer_allotted allotted
  have places : ∀ o, pointer (update dinodes inum dinode) block' o =
      if o = (inum, k) then b else pointer dinodes block o := by
    rintro ⟨o, spot⟩
    rw [pointer_update_dinode, eq]
    by_cases here : o = inum
    · subst here
      rw [if_pos rfl, if_pos (show BlockType dinode.type from ty), moved, ← pointer_of_type ty, eq]
      simp
    · simp [here]
  refine ⟨places, owned.enter lay allotted.area allotted.free ?_ places allotted.used⟩
  rw [pointer_of_type ty, empty]

theorem Owned.enter_entry (owned : Owned sb dinodes block) (lay : Layout sb fssize)
    (allotted : Allotted sb block block' b) (ty : BlockType (dinodes inum).type) {bn : Nat}
    (low : NDIRECT ≤ bn) (high : bn < MAXFILE) (empty : pointer dinodes block (inum, some bn) = 0)
    (has : (dinodes inum).addrs.word NDIRECT ≠ 0) : let indirect := (dinodes inum).addrs.word NDIRECT
    let block'' := update block' indirect ((block' indirect).setWord (bn - NDIRECT) b)
    (∀ o, pointer dinodes block'' o = if o = (inum, some bn) then b else pointer dinodes block o) ∧
    Owned sb dinodes block'' := by
  intro indirect block''
  have eq := owned.pointer_allotted allotted
  have named : pointer dinodes block (inum, none) = indirect := pointer_of_type ty none
  have inside : sb.area indirect := by
    rw [← named]
    exact owned.area (named.trans_ne has)
  have places : ∀ o, pointer dinodes block'' o = if o = (inum, some bn) then b else pointer dinodes block o := by
    rintro ⟨o, k⟩
    by_cases here : o = inum
    · subst here
      rw [pointer_of_type ty, blockOf_setEntry low high (lay.area_lt allotted.area) has, ← pointer_of_type ty, eq]
      simp
    · rw [if_neg (by simp [here]), ← eq]
      by_cases otherTyped : BlockType (dinodes o).type
      · rw [pointer_of_type otherTyped, pointer_of_type otherTyped]
        refine blockOf_congr (fun otherPresent => update_of_ne (fun clash => here ?_) _ _) k
        have otherNamed : pointer dinodes block (o, none) = (dinodes o).addrs.word NDIRECT :=
          pointer_of_type otherTyped none
        have shared : pointer dinodes block (o, none) = pointer dinodes block (inum, none) := by
          rw [otherNamed, named, clash]
        exact congrArg Prod.fst (owned.owns.unique _ _ shared (otherNamed ▸ otherPresent))
      · rw [pointer_of_not_type otherTyped, pointer_of_not_type otherTyped]
  refine ⟨places, owned.enter lay allotted.area allotted.free empty places fun c lt => ?_⟩
  have high := lay.BBLOCK_lt lt
  have start := inside.1
  rw [used_update_ne (by omega)]
  exact allotted.used c lt

end

end Xv6

import Xv6.Attachment

/-! Link counts and directory entries, which `create`, `sys_link` and `sys_unlink` change together. -/

namespace Xv6

open Exec Hierarchy Function Prod IsDir Disk

variable {fs' : Fs} {base : Slot → Int} {path : List UInt8} {d : Nat} {body : Slot → FsM Int}

def counting (im : Nat → Node) (i : Nat) : Set (Nat × Nat) :=
  {p | IsDir (im p.1).type ∧ 1 ≤ (im p.1).nlink.toInt ∧
    ∃ name, (im p.1).slot p.2 = some (name, i) ∧ name ≠ dot}

/-- Every directory begins with "." and "..", and links are counted by entries. -/
structure LinkConsistent (im : Nat → Node) : Prop where
  self : ∀ d, IsDir (im d).type → (im d).slot 0 = some (dot, d)
  upper : ∀ d, IsDir (im d).type → ∃ u, (im d).slot 1 = some (dotdot, u)
  counts : ∀ i, (im i).type ≠ 0 → (im i).nlink.toInt = (counting im i).ncard

def Lists (im : Nat → Node) (d k i : Nat) : Prop :=
  1 ≤ (im d).nlink.toInt ∧ ∃ name, Names im d k name i

structure Rooted (im : Nat → Node) : Prop where
  plain : ∀ d k name i, IsDir (im d).type → 2 ≤ k → (im d).slot k = some (name, i) → name ≠ dot ∧ name ≠ dotdot
  used : ∀ d k i, Lists im d k i → (im i).type ≠ 0
  single : ∀ d k d' k' i, Lists im d k i → Lists im d' k' i → IsDir (im i).type → d = d' ∧ k = k'
  above : ∀ d k i, Lists im d k i → IsDir (im i).type → (im i).slot 1 = some (dotdot, d)
  listed : ∀ i, IsDir (im i).type → 1 ≤ (im i).nlink.toInt → i = ROOTINO ∨ ∃ d k, Lists im d k i
  root : IsDir (im ROOTINO).type ∧ 1 ≤ (im ROOTINO).nlink.toInt ∧ (im ROOTINO).slot 1 = some (dotdot, ROOTINO)
  bare : ∀ d k, ¬Lists im d k ROOTINO

structure Balanced (im : Nat → Node) : Prop where
  dotted : Dotted im
  upright : Upright ROOTINO (tree False im)

section

variable {img : Nat → Node} {d k i : Nat}

theorem Dotted.lists_iff (dotted : Dotted img) : ⟨d, k, i⟩ ∈ (tree False img).edges ↔ Lists img d k i := by
  rw [dotted.edge_iff, false_or, Lists]

theorem LinkConsistent.dotted (consistent : LinkConsistent img) (rooted : Rooted img) :
    Dotted img := ⟨consistent.self, consistent.upper, rooted.plain⟩

theorem Dotted.up_of_slot (dotted : Dotted img) {idle : Prop} (dir : IsDir (img i).type)
    (here : (img i).slot 1 = some (dotdot, d)) : (tree idle img).up i = d := by
  rw [dotted.up_eq idle dir, Option.some.injEq, Prod.mk.injEq] at here
  exact here.2

theorem Dotted.ncard_counting (dotted : Dotted img) (finite : (tree False img).edges.Finite)
    (held : ∀ i, (tree False img).kind i = .dir → 1 ≤ (tree False img).links i →
      i = ROOTINO ∨ ∃ e ∈ (tree False img).edges, e.target = i) (i : Nat) : ((counting img i).ncard : Int) =
      tally (tree False img).edges (fun e => e.target = i) + (tree False img).uppers i := by
  have sets : counting img i = (fun e : Edge Nat => (e.holder, e.key)) '' {e ∈ (tree False img).edges | e.target = i} ∪
      (fun c => (c, 1)) '' {c | (tree False img).kind c = .dir ∧ 1 ≤ (tree False img).links c ∧
        (tree False img).up c = i} := by
    ext ⟨d, k⟩
    constructor
    · rintro ⟨dir, linked, name, here, o⟩
      match k with
      | 0 =>
        rw [dotted.self d dir, Option.some.injEq, Prod.mk.injEq] at here
        exact absurd here.1.symm o
      | 1 =>
        rw [dotted.up_eq False dir, Option.some.injEq, Prod.mk.injEq] at here
        exact .inr ⟨d, ⟨kindOf_dir.mpr dir, linked, here.2⟩, rfl⟩
      | k + 2 =>
        exact .inl ⟨⟨d, k + 2, i⟩, ⟨⟨⟨dir, .inr linked⟩, Nat.le_add_left _ _, name, here⟩, rfl⟩, rfl⟩
    · rintro (⟨⟨d', k', i'⟩, ⟨⟨⟨dir, seen⟩, late, name, here⟩, rfl⟩, eq⟩ | ⟨c, ⟨dir, linked, rfl⟩, eq⟩)
      · rw [Prod.mk.injEq] at eq
        obtain ⟨rfl, rfl⟩ := eq
        exact ⟨dir, seen.resolve_left id, name, here, (dotted.rest _ _ _ _ dir late here).1⟩
      · rw [Prod.mk.injEq] at eq
        obtain ⟨rfl, rfl⟩ := eq
        exact ⟨kindOf_dir.mp dir, linked, dotdot, dotted.up_eq False (kindOf_dir.mp dir), by decide⟩
  have entries : Set.InjOn (fun e : Edge Nat => (e.holder, e.key)) {e ∈ (tree False img).edges | e.target = i} := by
    rintro ⟨d, k, t⟩ ⟨_, rfl⟩ ⟨d', k', t'⟩ ⟨_, there⟩ eq
    simp only [Prod.mk.injEq] at eq there
    rw [eq.1, eq.2, there]
  have uppers : Function.Injective (fun c : Nat => (c, 1)) := fun c c' eq => (Prod.mk.inj eq).1
  have bounded : {c | (tree False img).kind c = .dir ∧ 1 ≤ (tree False img).links c ∧
      (tree False img).up c = i}.Finite := by
    refine ((finite.image Edge.target).insert ROOTINO).subset ?_
    rintro c ⟨dir, linked, _⟩
    rcases held c dir linked with root | ⟨e, mem, rfl⟩
    · exact .inl root
    · exact .inr ⟨e, mem, rfl⟩
  have apart : Disjoint ((fun e : Edge Nat => (e.holder, e.key)) '' {e ∈ (tree False img).edges | e.target = i})
      ((fun c => (c, 1)) '' {c | (tree False img).kind c = .dir ∧ 1 ≤ (tree False img).links c ∧
        (tree False img).up c = i}) := by
    rw [Set.disjoint_left]
    rintro _ ⟨e, ⟨⟨_, late, _⟩, _⟩, rfl⟩ ⟨c, _, eq⟩
    have key := (Prod.mk.inj eq).2
    omega
  rw [sets, Set.ncard_union_eq apart ((finite.sep _).image _) (bounded.image _), entries.ncard_image,
    uppers.injOn.ncard_image, tally, Net.uppers, Nat.cast_add]

theorem Balanced.of_consistent (finite : (tree False img).edges.Finite)
    (consistent : LinkConsistent img) (rooted : Rooted img) : Balanced img := by
  have dotted := consistent.dotted rooted
  have held : ∀ i, (tree False img).kind i = .dir → 1 ≤ (tree False img).links i →
      i = ROOTINO ∨ ∃ e ∈ (tree False img).edges, e.target = i := by
    intro i dir linked
    rcases rooted.listed i (kindOf_dir.mp dir) linked with root | ⟨d, k, lists⟩
    · exact .inl root
    · exact .inr ⟨⟨d, k, i⟩, dotted.lists_iff.mpr lists, rfl⟩
  have counts : ∀ i, (img i).type ≠ 0 → (tree False img).links i =
      tally (tree False img).edges (fun e => e.target = i) + (tree False img).uppers i :=
    fun i ty => (consistent.counts i ty).trans (dotted.ncard_counting finite held i)
  have shape : Shape ROOTINO (tree False img) := by
    refine ⟨finite, fun e mem => kindOf_dir.mpr mem.1.1, fun ⟨d, k, i⟩ mem free => ?_,
      fun ⟨d, k, i⟩ left ⟨d', k', i'⟩ right eq dir => ?_, fun ⟨d, k, i⟩ mem dir => ?_,
      kindOf_dir.mpr rooted.root.1, dotted.up_of_slot rooted.root.1 rooted.root.2.2, fun ⟨d, k, i⟩ mem eq => ?_⟩
    · exact rooted.used d k i (dotted.lists_iff.mp mem) (kindOf_free.mp free)
    · obtain rfl : i = i' := eq
      obtain ⟨rfl, rfl⟩ := rooted.single d k d' k' i (dotted.lists_iff.mp left) (dotted.lists_iff.mp right)
        (kindOf_dir.mp dir)
      rfl
    · exact dotted.up_of_slot (kindOf_dir.mp dir) (rooted.above d k i (dotted.lists_iff.mp mem) (kindOf_dir.mp dir))
    · obtain rfl : i = ROOTINO := eq
      exact rooted.bare d k (dotted.lists_iff.mp mem)
  have linked : ∀ e ∈ (tree False img).edges, (tree False img).kind e.target = .dir →
      1 ≤ (tree False img).links e.target := by
    intro e mem dir
    have one : 1 ≤ tally (tree False img).edges (fun f => f.target = e.target) :=
      tally_pos finite mem rfl
    have rest : 0 ≤ (tree False img).uppers e.target := Int.natCast_nonneg _
    rw [counts _ (blockType (kindOf_dir.mp dir)).ne_zero]
    omega
  have slack : ∀ i, (tree False img).kind i ≠ .free → (tree False img).slack ROOTINO i = 0 := by
    intro i used
    have ty : (img i).type ≠ 0 := fun free => used (kindOf_free.mpr free)
    rw [Net.slack, Net.degree, counts i ty, shape.uppers rooted.root.2.1 linked held i]
    ring
  refine ⟨dotted, ⟨⟨shape, fun i used => (slack i used).ge, fun i dir => slack i ?_⟩, slack,
    fun e mem => mem.1.2.resolve_left id, held⟩⟩
  rw [dir]
  decide

theorem Balanced.consistent (bal : Balanced img) : LinkConsistent img := by
  obtain ⟨dotted, upright⟩ := bal
  refine ⟨dotted.self, dotted.upper, fun i ty => ?_⟩
  have links : (img i).nlink.toInt = (tree False img).degree ROOTINO i :=
    upright.links_eq fun free => ty (kindOf_free.mp free)
  have uppers := upright.toShape.uppers upright.toForest.root_links
    (fun e mem _ => upright.target_links mem) upright.held i
  rw [links, dotted.ncard_counting upright.finite upright.held, uppers, Net.degree, add_assoc]

theorem Balanced.rooted (bal : Balanced img) : Rooted img := by
  obtain ⟨dotted, upright⟩ := bal
  have root : IsDir (img ROOTINO).type := kindOf_dir.mp upright.top
  refine ⟨dotted.rest, fun d k i lists free => ?_, fun d k d' k' i left right dir => ?_,
    fun d k i lists dir => ?_, fun i dir linked => ?_, ⟨root, upright.toForest.root_links, ?_⟩,
    fun d k lists => upright.bare _ (dotted.lists_iff.mpr lists) rfl⟩
  · exact upright.named _ (dotted.lists_iff.mpr lists) (kindOf_free.mpr free)
  · have eq := upright.single _ (dotted.lists_iff.mpr left) _ (dotted.lists_iff.mpr right) rfl (kindOf_dir.mpr dir)
    rw [Edge.mk.injEq] at eq
    exact ⟨eq.1, eq.2.1⟩
  · have up := upright.above _ (dotted.lists_iff.mpr lists) (kindOf_dir.mpr dir)
    rw [dotted.up_eq False dir, up]
  · rcases upright.held i (kindOf_dir.mpr dir) linked with peak | ⟨⟨d, k, i'⟩, mem, rfl⟩
    · exact .inl peak
    · exact .inr ⟨d, k, dotted.lists_iff.mp mem⟩
  · rw [dotted.up_eq False root, upright.crown]

end

section

variable {R : Rules} {fs : Fs} {img img' : Nat → Node} {safe : Nat → Prop} {d k i : Nat}
  {name : List UInt8} {type : BitVec 16}

section

variable (bal : Balanced img)

include bal

theorem Balanced.faded (faded : Faded safe img img') : Balanced img' :=
  ⟨bal.dotted.faded faded, bal.upright.fade faded.fade⟩

theorem Balanced.links_lt (sound : Sound R fs) (small : fs.disk.fssize ≤ FSSIZE)
    (faded : Faded safe fs.image img) (ty : (img i).type ≠ 0) : (img i).nlink.toInt < 32767 := by
  have links : (img i).nlink.toInt = (tree False img).degree ROOTINO i :=
    bal.upright.links_eq fun free => ty (kindOf_free.mp free)
  rw [links]
  exact sound.degree_lt small faded bal.upright.toShape i

theorem Balanced.made (made : Made d name type k i img img') (ty : type ≠ 0)
    (room : (img d).nlink.toInt < 32767) (linked : 1 ≤ (img d).nlink.toInt) : Balanced img' :=
  ⟨bal.dotted.made made, bal.upright.make (made.make bal.dotted ty (fun _ => room) (.inr linked)) linked⟩

theorem Balanced.linked (links : Linked d name k i img img') (room : (img i).nlink.toInt < 32767)
    (linked : 1 ≤ (img d).nlink.toInt) : Balanced img' :=
  ⟨bal.dotted.linked links, bal.upright.link (links.link bal.dotted room (.inr linked)) linked⟩

theorem Balanced.found (dir : IsDir (img d).type) (finds : (img d).Finds name k i)
    (notDot : cname name ≠ dot) (notDotdot : cname name ≠ dotdot) (linked : 1 ≤ (img d).nlink.toInt) :
    ⟨d, k, i⟩ ∈ (tree False img).edges :=
  ⟨⟨dir, .inr linked⟩, bal.dotted.finds_two dir finds notDot notDotdot, _, finds.1⟩

theorem Balanced.unlinked (unlinks : Unlinked d name k i img img') (linked : 1 ≤ (img d).nlink.toInt) :
    Balanced img' := by
  have mem := bal.found unlinks.directory unlinks.finds unlinks.notDot unlinks.notDotdot linked
  refine ⟨bal.dotted.unlinked unlinks, bal.upright.remove
    (unlinks.remove bal.dotted (fun _ => linked) (.inr ⟨linked, fun dir => ?_⟩))⟩
  exact bal.upright.holder_two mem (kindOf_dir.mpr dir)

end

theorem Balanced.changes  {change : (Nat → Node) → (Nat → Node) → Prop}
    (bal : Balanced fs.image) (changes : Changes base change fs fs')
    (step : ∀ safe before after, Faded safe fs.image before → Balanced before → change before after →
      Balanced after) : Balanced fs'.image := by
  obtain ⟨_, before, after, first, changed, last⟩ := changes
  exact (step _ before after first (bal.faded first) changed).faded last

theorem Balanced.fades  (bal : Balanced fs.image)
    (fades : Fades base fs fs') : Balanced fs'.image := bal.faded fades.image

end

section

variable {R : Rules} {fs : Fs} {cwd : Slot}

/-- The parent directory to which a path leads has links. -/
def Fs.Anchored (fs : Fs) (cwd : Slot) (path : List UInt8) : Prop :=
  ∀ d name, Walk fs.image true (fs.origin cwd path) path d name → 1 ≤ (fs.image d).nlink.toInt

theorem Fs.Anchored.linked {img : Nat → Node} {safe : Nat → Prop}
    {name : List UInt8} (anchored : fs.Anchored cwd path) (faded : Faded safe fs.image img)
    (walk : Walk fs.image true (fs.origin cwd path) path d name) (dir : IsDir (img d).type) :
    1 ≤ (img d).nlink.toInt := by
  rw [faded.same_of_typed (blockType dir).ne_zero]
  exact anchored d name walk

variable (act : Active R fs) (refd : 0 < (fs.icache cwd).ref)
  (small : fs.disk.fssize ≤ FSSIZE) (bal : Balanced fs.image)
include act refd small bal

omit act refd small in
theorem Balanced.nlink_ne {i : Nat} (ty : (fs.image i).type ≠ 0) : (fs.image i).nlink + 1 ≠ 0 := by
  have counts := bal.consistent.counts i ty
  intro wraps
  have least : (fs.image i).nlink.toInt = -1 := by
    rw [show (fs.image i).nlink = 0xFFFF#16 by bv_omega]
    decide
  omega

theorem Balanced.holds_create {type major minor : BitVec 16}
    (known : BlockType type ∨ PlainType type) (anchored : fs.Anchored cwd path) :
    Holds (create cwd path type major minor) fs (fun _ fs' => Active R fs' ∧ Balanced fs'.image) (· ≠ noLinks) := by
  have ty : type ≠ 0 := by
    rcases known with (rfl | rfl | rfl) | (rfl | rfl) <;> decide
  refine act.holds_create refd known (fun _ _ o => o) (by decide) (fun fs2 act2 fades _ => ⟨act2, bal.fades fades⟩)
    (fun ip fs2 walking _ _ => ⟨walking.active, bal.fades walking.fades⟩)
    fun ip fs2 d name k walk changes act2 _ _ _ _ => ⟨act2, ?_⟩
  refine bal.changes changes fun safe before after faded bal made => ?_
  exact bal.made made ty (bal.links_lt act.toSound small faded (blockType made.directory).ne_zero)
    (anchored.linked faded walk made.directory)

theorem Balanced.holds_link {old new : List UInt8} (anchored : fs.Anchored cwd new) :
    Holds (link cwd old new) fs (fun _ fs' => Active R fs' ∧ Balanced fs'.image) (· ≠ noLinks) := by
  refine act.holds_link refd (fun _ _ o => o) (by decide) (fun _ ty wraps => absurd wraps (bal.nlink_ne ty))
    (fun fs2 act2 fades _ => ⟨act2, bal.fades fades⟩) fun fs2 i last d name k _ walk changes act2 _ => ⟨act2, ?_⟩
  refine bal.changes changes fun safe before after faded bal links => ?_
  exact bal.linked links (bal.links_lt act.toSound small faded links.typed) (anchored.linked faded walk links.directory)

omit small in
theorem Balanced.holds_unlink {path : List UInt8} (anchored : fs.Anchored cwd path) (bare : fs.LastBare cwd path) :
    Holds (unlink cwd path) fs (fun _ fs' => Active R fs' ∧ Balanced fs'.image) (· ≠ noLinks) := by
  refine act.holds_unlink refd (fun _ _ o => o) (by decide) bare
    (fun img d name k i faded walk dir finds notDot notDotdot _ few => ?_)
    (fun fs2 act2 fades _ => ⟨act2, bal.fades fades⟩) fun fs2 d name k i walk changes act2 _ => ⟨act2, ?_⟩
  · have before := bal.faded faded
    have listed := before.found dir finds notDot notDotdot (anchored.linked faded walk dir)
    have least : 1 ≤ (img i).nlink.toInt := before.upright.target_links listed
    omega
  · refine bal.changes changes fun safe before after faded bal unlinks => ?_
    exact bal.unlinked unlinks (anchored.linked faded walk unlinks.directory)

end

section

def createAt (p : ProcSlot) (path : List UInt8) (type major minor : BitVec 16) : KernelM (Option Slot) := do
  kernelBeginOp
  let cwd ← cwd p
  onFs (create cwd path type major minor)

variable {R : Rules} {k : Kernel} {p : ProcSlot}

def Keeps (kern : Kernel) {α : Type} (call : KernelM α) : Prop :=
  Holds call kern (fun _ kern' => LinkConsistent kern'.fs.image ∧ Rooted kern'.fs.image) (· ≠ noLinks)

theorem Sound.holds_transaction {stops : Stop → Prop} (post : Int → Fs → Prop)
    (sound : Sound R k.fs) (idle : 0 ≤ k.fs.disk.log.outstanding)
    (allowed : stops .blocked ∧ stops .fault ∧ stops (.panic "log.committing"))
    (inner : ∀ disk cwd, k.fs.disk.Alike disk → (k.ptable p).cwd = some cwd →
      Active R (k.fs.setDisk disk) → Holds (body cwd) (k.fs.setDisk disk)
        (fun res fs => Active R fs ∧ ∀ disk', fs.disk.Alike disk' →
          Sound R (fs.setDisk disk') → post res (fs.setDisk disk')) stops) :
    Holds (do kernelBeginOp; let cwd ← cwd p; let res ← onFs (body cwd); kernelEndOp; return res)
      k (fun res k' => post res k'.fs) stops := by
  rw [holds_bind]
  refine sound.holds_begin idle allowed.1 fun disk begun _ act => ?_
  rw [holds_bind]
  refine holds_cwd allowed.2.1 fun cwd here => ?_
  rw [holds_bind, holds_onFs]
  refine (inner disk cwd begun here act).conseq fun res fs done => ?_
  rw [holds_bind]
  exact done.1.toSound.holds_end allowed.2.2 fun disk' ended _ sound' =>
    .pure (done.2 disk' ended sound')

theorem Sound.keeps_transaction (sound : Sound R k.fs) (idle : 0 ≤ k.fs.disk.log.outstanding)
    (inner : ∀ disk cwd, k.fs.disk.Alike disk → (k.ptable p).cwd = some cwd →
      Active R (k.fs.setDisk disk) → Holds (body cwd) (k.fs.setDisk disk)
        (fun _ fs => Active R fs ∧ Balanced fs.image) (· ≠ noLinks)) : Keeps k (do
      kernelBeginOp; let cwd ← cwd p; let res ← onFs (body cwd); kernelEndOp; return res) := by
  refine sound.holds_transaction (fun _ fs => LinkConsistent fs.image ∧ Rooted fs.image) idle
    ⟨by decide, by decide, by decide⟩ fun disk cwd begun here act => ?_
  refine (inner disk cwd begun here act).conseq fun res fs done => ⟨done.1, fun disk' ended _ => ?_⟩
  rw [Fs.image_alike ended]
  exact ⟨done.2.consistent, done.2.rooted⟩

end

theorem mkfsKernel_balanced : Balanced mkfsKernel.fs.image := ⟨mkfsKernel_dotted, mkfsKernel_upright⟩

theorem mkfsKernel_anchored (path : List UInt8) : mkfsKernel.fs.Anchored 0 path := by
  intro d name walk
  rw [(mkfsKernel_root walk.directory).1, mkfsKernel_image]
  decide

section

def danglingEntries : Block := Bytes.ofFn fun place =>
  (direntBytes ROOTINO dot ++ direntBytes ROOTINO dotdot ++ direntBytes 2 [120]).getD place 0

def danglingFs : Fs :=
  Fs.single (mkfsDisk.inOp.setBlock mkfsSb.dataStart danglingEntries) ROOTINO mkfsRoot

theorem danglingDisk_formatted : Formatted (mkfsBitmap (mkfsSb.dataStart + 1))
    (mkfsDisk.inOp.setBlock mkfsSb.dataStart danglingEntries) := by
  refine ⟨rfl, rfl, rfl, fun b low => ?_⟩
  rw [setBlock_block, update_of_ne low.ne]
  exact mkfsDisk_formatted.low b low

theorem danglingFs_image : danglingFs.image ROOTINO = rootNode danglingEntries := by
  rw [danglingFs, root_image danglingDisk_formatted, setBlock_block, update_self]

theorem danglingFs_root (ty : (danglingFs.image d).type ≠ 0) : d = ROOTINO :=
  not_imp_comm.mp (root_image_other danglingDisk_formatted) ty

theorem danglingFs_slot {k : Nat} {ent : List UInt8 × Nat} (here : (rootNode danglingEntries).slot k = some ent) :
    k = 0 ∧ ent = (dot, ROOTINO) ∨ k = 1 ∧ ent = (dotdot, ROOTINO) ∨ k = 2 ∧ ent = ([120], 2) := by
  have low : ∀ k < 32, ∀ ent ∈ (rootNode danglingEntries).slot k,
      k = 0 ∧ ent = (dot, ROOTINO) ∨ k = 1 ∧ ent = (dotdot, ROOTINO) ∨ k = 2 ∧ ent = ([120], 2) := by
    decide +kernel
  exact low k (rootNode_inside here) ent here

theorem danglingFs_active : Active ⟨False, True⟩ danglingFs := by
  refine ⟨root_sound danglingDisk_formatted ⟨False, True⟩ fun k _ ent here => ?_, by decide⟩
  rw [setBlock_block, update_self] at here
  rcases danglingFs_slot here with ⟨_, rfl⟩ | ⟨_, rfl⟩ | ⟨_, rfl⟩ <;> decide

theorem danglingFs_consistent : LinkConsistent danglingFs.image := by
  refine ⟨fun d dir => ?_, fun d dir => ⟨ROOTINO, ?_⟩, fun i ty => ?_⟩
  · rw [danglingFs_root (blockType dir).ne_zero, danglingFs_image]
    decide +kernel
  · rw [danglingFs_root (blockType dir).ne_zero, danglingFs_image]
    decide +kernel
  · obtain rfl := danglingFs_root ty
    have once : counting danglingFs.image ROOTINO = {(ROOTINO, 1)} := by
      ext ⟨d, k⟩
      rw [Set.mem_singleton_iff, Prod.mk.injEq]
      constructor
      · rintro ⟨dir, _, name, here, o⟩
        obtain rfl : d = ROOTINO := danglingFs_root (blockType dir).ne_zero
        simp only [danglingFs_image] at here
        rcases danglingFs_slot here with ⟨_, eq⟩ | ⟨late, _⟩ | ⟨_, eq⟩
        · exact absurd (Prod.mk.inj eq).1 o
        · exact ⟨rfl, late⟩
        · exact absurd (Prod.mk.inj eq).2 (by decide)
      · rintro ⟨rfl, rfl⟩
        refine ⟨?_, ?_, dotdot, ?_, by decide⟩ <;> simp only [danglingFs_image]
        · exact .inl rfl
        · exact le_rfl
        · decide +kernel
    rw [once, Set.ncard_singleton, danglingFs_image]
    rfl

end

end Xv6

import Xv6.OpenCall
import Xv6.Mkfs
import Xv6.Lib.Merge

/-! Processes that write through one open file. Each step of a process is one section of
`filewrite` between its sleeping points: `begin_op`, the part under the inode's lock, `end_op`. -/

namespace Xv6

open Function (update update_of_ne update_self)
open Exec Reach List Prog Node

structure Request where
  addr : Nat → UInt8
  n : Int

namespace Request

def bytes (request : Request) : List UInt8 := (List.range request.n.toNat).map request.addr

def chunks (request : Request) : List (List UInt8) := Merge.chunks filewriteMax request.bytes

def n1 (request : Request) (i : Nat) : Nat := min (request.n.toNat - i) filewriteMax

def piece (request : Request) (i count : Nat) : List UInt8 :=
  (List.range count).map fun index => request.addr (i + index)

def result (request : Request) (i : Nat) : Int := if (i : Int) = request.n then request.n else -1

end Request

/-- Where a process is in `filewrite`; `i` is the loop variable. -/
inductive WritePc where
  | entry
  | loop (i : Nat)
  | begun (i : Nat)
  | wrote (i : Nat) (r : Int)

inductive WriteMove where
  | goes (pc : WritePc)
  | returns (r : Int)

def WritePc.step (f : FileSlot) (request : Request) : WritePc → KernelM WriteMove
  | .entry => do
      let kernel ← Prog.get
      let file := kernel.ftable f
      if file.writable = false then return .returns (-1)
      else
        match file.type with
        | .pipe => return .returns ((kernel.pipes file.pipe).write request.addr request.n.toNat)
        | .inode => return .goes (.loop 0)
        | .none => panic "filewrite"
  | .loop i =>
    if i < request.n.toNat then do
      kernelBeginOp
      return .goes (.begun i)
    else return .returns (request.result i)
  | .begun i => do
      let r ← writeLocked f (fun index => request.addr (i + index)) (request.n1 i)
      return .goes (.wrote i r)
  | .wrote i r => do
      kernelEndOp
      if r < 0 then return .returns (request.result i)
      else if r ≠ request.n1 i then panic "short filewrite"
      else return .goes (.loop (i + request.n1 i))

def WritePc.run (f : FileSlot) (request : Request) : Nat → WritePc → KernelM Int
  | 0, _ => Prog.halt .blocked
  | fuel + 1, pc => do
      let move ← pc.step f request
      match move with
      | .goes pc => WritePc.run f request fuel pc
      | .returns r => return r

theorem WritePc.run_loop {f : FileSlot} {req : Request} (fuel : Nat) {rounds i : Nat}
    (enough : req.n.toNat - i ≤ rounds) :
    WritePc.run f req (fuel + 3 * rounds + 1) (.loop i) = (do
      let i ← filewriteFrom f req.addr req.n.toNat rounds i
      return req.result i) := by
  induction rounds generalizing i with
  | zero =>
    have last : ¬i < req.n.toNat := by omega
    simp only [WritePc.run, WritePc.step, if_neg last, pure_bind, filewriteFrom]
  | succ rounds ih =>
    by_cases more : i < req.n.toNat
    · have steps : fuel + 3 * (rounds + 1) + 1 = fuel + 3 * rounds + 1 + 3 := by omega
      rw [steps]
      generalize fuel + 3 * rounds + 1 = left at ih ⊢
      simp only [WritePc.run, WritePc.step, if_pos more, bind_assoc, pure_bind, filewriteFrom,
        filewriteSection_eq]
      refine congrArg (kernelBeginOp >>= ·) (funext fun _ => ?_)
      refine congrArg (writeLocked f _ _ >>= ·) (funext fun r => ?_)
      refine congrArg (kernelEndOp >>= ·) (funext fun _ => ?_)
      by_cases failed : r < 0
      · simp only [if_pos failed, pure_bind]
      · by_cases short : r ≠ req.n1 i
        · rw [if_neg failed, if_pos short, if_neg failed]
          simp only [Request.n1] at short
          rw [if_pos short]
          rfl
        · rw [if_neg failed, if_neg short, if_neg failed, pure_bind]
          have lt : req.n.toNat - (i + req.n1 i) ≤ rounds := by
            have limit : filewriteMax = 6656 := rfl
            simp only [Request.n1]
            omega
          simp only [Request.n1] at short
          rw [if_neg short]
          exact ih lt
    · simp only [WritePc.run, WritePc.step, if_neg more, pure_bind, filewriteFrom]

theorem filewrite_eq_run (f : FileSlot) (req : Request) :
    filewrite f req.addr req.n = WritePc.run f req (3 * req.n.toNat + 2) .entry := by
  have loop : WritePc.run f req (0 + 3 * req.n.toNat + 1) (.loop 0) = _ :=
    WritePc.run_loop 0 (Nat.sub_le _ _)
  rw [Nat.zero_add] at loop
  funext kernel
  rw [WritePc.run]
  generalize 3 * req.n.toNat + 1 = left at loop ⊢
  simp only [filewrite, WritePc.step, bind_assoc]
  refine bind_congr fun before kernel' _ => ?_
  by_cases closed : (before.ftable f).writable = false
  · rw [if_pos closed, if_pos closed, pure_bind]
  · rw [if_neg closed, if_neg closed]
    cases (before.ftable f).type with
    | none => rfl
    | pipe => rfl
    | inode =>
      dsimp only
      rw [pure_bind]
      exact congrFun loop.symm kernel'

/-- A process: the call it is in, the calls it has still to make, and what those it has made
have returned. -/
structure Writer where
  current : Option (Request × WritePc)
  left : List Request
  results : List (Request × Int)

def Writer.move (writer : Writer) (request : Request) : WriteMove → Writer
  | .goes pc => { writer with current := some (request, pc) }
  | .returns r => { writer with current := none, results := writer.results ++ [(request, r)] }

/-- The kernel, the processes, and as history the chunks written, in order. -/
structure Writers (ι : Type) where
  kernel : Kernel
  writer : ι → Writer
  order : List (ι × List UInt8)

def WritePc.written (request : Request) : WritePc → WriteMove → List (List UInt8)
  | .begun i, .goes (.wrote _ r) => if 0 < r then [request.piece i r.toNat] else []
  | _, _ => []

namespace Writers

variable {ι : Type} [DecidableEq ι]

def start (kernel : Kernel) (plan : ι → List Request) : Writers ι :=
  ⟨kernel, fun q => ⟨none, plan q, []⟩, []⟩

def step (f : FileSlot) (st : Writers ι) (q : ι) : Option (Writers ι) :=
  match (st.writer q).current with
  | none =>
    match (st.writer q).left with
    | [] => none
    | request :: left => some { st with
        writer := update st.writer q
          { st.writer q with current := some (request, .entry), left } }
  | some (request, pc) =>
    match pc.step f request st.kernel with
    | .ok move kernel => some
        { kernel
          writer := update st.writer q ((st.writer q).move request move)
          order := st.order ++ (pc.written request move).map fun chunk => (q, chunk) }
    | .stop _ => none

def Next (f : FileSlot) (st : Writers ι) (q : ι) (st' : Writers ι) : Prop :=
  st.step f q = some st'

def Finished (st : Writers ι) : Prop :=
  ∀ q, (st.writer q).current = none ∧ (st.writer q).left = []

def Full (st : Writers ι) : Prop :=
  ∀ q, ∀ done ∈ (st.writer q).results, done.2 = done.1.n

end Writers

def WritePc.pending (request : Request) : WritePc → List (List UInt8)
  | .entry => request.chunks
  | .loop i => Merge.chunks filewriteMax (request.bytes.drop i)
  | .begun i => Merge.chunks filewriteMax (request.bytes.drop i)
  | .wrote i r => Merge.chunks filewriteMax (request.bytes.drop (if r < 0 then i else i + request.n1 i))

def Writer.pending (writer : Writer) : List (List UInt8) :=
  (match writer.current with
    | none => []
    | some (request, pc) => pc.pending request) ++ writer.left.flatMap Request.chunks

def WritePc.busy : WritePc → Int
  | .begun _ => 1
  | .wrote _ _ => 1
  | _ => 0

def Writer.busy (writer : Writer) : Int :=
  match writer.current with
  | none => 0
  | some (_, pc) => pc.busy

def WritePc.Ready (writable : Bool) (request : Request) : WritePc → Prop
  | .entry => True
  | .loop _ => writable = true
  | .begun i => writable = true ∧ i < request.n.toNat
  | .wrote i _ => writable = true ∧ i < request.n.toNat

structure FileState (R : Rules) (f : FileSlot) (start : Kernel) (order : List (List UInt8))
    (kernel : Kernel) : Prop where
  running : Running R kernel
  file : ∃ off, kernel.ftable f = { start.ftable f with off }
  regular : (kernel.fs.nodeAt (start.ftable f).ip).type = T_FILE
  contents : (kernel.fs.nodeAt (start.ftable f).ip).contents =
    (start.fs.nodeAt (start.ftable f).ip).contents ++ order.flatten
  place : (kernel.ftable f).off = (kernel.fs.nodeAt (start.ftable f).ip).size

section

variable {R : Rules} {f : FileSlot} {start kernel : Kernel} {order : List (List UInt8)} {post : Unit → Kernel → Prop} {n1 : Nat} {addr : Nat → UInt8}

section

variable (here : FileState R f start order kernel)

include here

theorem FileState.alike {disk : Disk} (alike : kernel.fs.disk.Alike disk) (idle : 0 ≤ disk.log.outstanding) :
    FileState R f start order (kernel.setFs (kernel.fs.setDisk disk)) := by
  obtain ⟨running, file, regular, contents, k⟩ := here
  have node : (kernel.fs.setDisk disk).nodeAt (start.ftable f).ip = kernel.fs.nodeAt (start.ftable f).ip := by
    rw [Fs.nodeAt, Fs.image_alike alike]
    rfl
  refine ⟨running.alike alike idle, file, ?_, ?_, ?_⟩ <;> rw [Kernel.setFs_fs, node]
  · exact regular
  · exact contents
  · exact k

theorem FileState.holds_begin (next : ∀ kernel', FileState R f start order kernel' →
      kernel'.fs.disk.log.outstanding = kernel.fs.disk.log.outstanding + 1 → post () kernel') :
    Holds kernelBeginOp kernel post := by
  have idle := here.running.idle
  refine here.running.sound.holds_begin idle trivial fun disk alike op _ => ?_
  exact next _ (here.alike alike (by omega)) op

theorem FileState.holds_end (op : 0 < kernel.fs.disk.log.outstanding)
    (next : ∀ kernel', FileState R f start order kernel' →
      kernel'.fs.disk.log.outstanding = kernel.fs.disk.log.outstanding - 1 → post () kernel') :
    Holds kernelEndOp kernel post := by
  refine here.running.sound.holds_end trivial fun disk alike closed _ => ?_
  exact next _ (here.alike alike (by omega)) closed

end

theorem SectionWrote.all_or_none {img img' : Nat → Node} {i off off' : Nat} {r : Int}
    (wrote : SectionWrote img i off n1 addr off' r img') (regular : (img i).type = T_FILE) :
    r < 0 ∧ off' = off ∧ img' = img ∨
      r = n1 ∧ off + n1 ≤ MAXFILE * BSIZE ∧ off' = off + n1 ∧
        img' = update img i ((img i).write addr off n1) := by
  cases wrote with
  | refused eq => exact Or.inl ⟨(eq regular).1, (eq regular).2, rfl⟩
  | accepted _ _ fits moved => exact Or.inr ⟨rfl, fits, moved, rfl⟩

theorem Node.contents_append (node : Node) (addr : Nat → UInt8) {n : Nat}
    (fits : node.size.toNat + n < 2 ^ 32) :
    (node.write addr node.size.toNat n).contents = node.contents ++ (List.range n).map addr := by
  have length : node.contents.length = node.size.toNat := length_contents
  rw [contents_write le_rfl fits, splice, ← length, take_length,
    drop_eq_nil_of_le (Nat.le_add_right _ _), append_nil]

theorem FileState.holds_writeLocked (here : FileState R f start order kernel)
    (op : 0 < kernel.fs.disk.log.outstanding) (type : (start.ftable f).type = .inode)
    (writable : (start.ftable f).writable = true) (pos : 0 < n1) (lt : n1 ≤ filewriteMax) :
    Holds (writeLocked f addr n1) kernel fun r kernel' =>
      kernel'.fs.disk.log.outstanding = kernel.fs.disk.log.outstanding ∧
      (r < 0 ∧ FileState R f start order kernel' ∨
        r = n1 ∧ FileState R f start (order ++ [(List.range n1).map addr]) kernel') := by
  obtain ⟨running, ⟨off, file⟩, regular, contents, k⟩ := here
  have ip : (kernel.ftable f).ip = (start.ftable f).ip := by rw [file]
  have large : (kernel.fs.nodeAt (kernel.ftable f).ip).type ≠ T_SFILE := by
    rw [ip, regular]
    decide
  have inode : (kernel.ftable f).type = .inode := by rw [file]; exact type
  have may : (kernel.ftable f).writable = true := by rw [file]; exact writable
  refine (running.holds_writeLocked inode may large pos lt op).conseq ?_
  rintro r kernel' ⟨sound, moved, wrote⟩
  have types : KeepsTypes fun img img' => ∀ j, (img' j).type = (img j).type :=
    fun _ _ same j _ => same j
  have running' := (running.reposition types sound moved wrote.types).running
  have inum : (kernel'.fs.icache (start.ftable f).ip).inum = (kernel.fs.icache (start.ftable f).ip).inum := by
    rw [← ip]
    exact moved.stays.inum _ (referenced_of_file (running.surplus _) (running.tidy.uses inode))
  have file' : ∃ off, kernel'.ftable f = { start.ftable f with off } := by
    obtain ⟨off', same⟩ := moved.ftable f
    exact ⟨off', by rw [same, file]⟩
  refine ⟨moved.stays.outstanding, ?_⟩
  rw [ip] at wrote
  have node : kernel'.fs.nodeAt (start.ftable f).ip =
      kernel'.fs.image (kernel.fs.icache (start.ftable f).ip).inum := by rw [Fs.nodeAt, inum]
  rcases wrote.all_or_none regular with ⟨failed, same, img⟩ | ⟨full, fits, moved', img⟩
  · rw [img] at node
    refine Or.inl ⟨failed, running', file', ?_, ?_, ?_⟩ <;> rw [node]
    · exact regular
    · exact contents
    · rw [BitVec.eq_of_toNat_eq same, k]
      rfl
  · rw [img, update_self, k] at node
    have below : (kernel.fs.nodeAt (start.ftable f).ip).size.toNat + n1 < 2 ^ 32 := by
      rw [k] at fits
      simp only [MAXFILE, NDIRECT, NINDIRECT, BSIZE] at fits
      omega
    refine Or.inr ⟨full, running', file', ?_, ?_, ?_⟩ <;> rw [node]
    · exact regular
    · have longer := contents_append (kernel.fs.nodeAt (start.ftable f).ip) addr below
      rw [contents, append_assoc] at longer
      rw [flatten_append, flatten_singleton]
      exact longer
    · refine BitVec.eq_of_toNat_eq (moved'.trans ?_)
      rw [write_size below, k]
      exact (max_eq_right (Nat.le_add_right _ _)).symm

end

section

variable {req : Request} {i : Nat}

theorem Request.length_bytes : req.bytes.length = req.n.toNat := by simp [Request.bytes]

theorem Request.chunks_last (last : ¬i < req.n.toNat) :
    Merge.chunks filewriteMax (req.bytes.drop i) = [] := by
  rw [drop_eq_nil_of_le (by rw [Request.length_bytes]; omega), Merge.chunks_nil]

theorem Request.chunks_next (more : i < req.n.toNat) :
    Merge.chunks filewriteMax (req.bytes.drop i) =
      req.piece i (req.n1 i) ::
        Merge.chunks filewriteMax (req.bytes.drop (i + req.n1 i)) := by
  have some : req.bytes.drop i ≠ [] := by
    intro none
    have length := congrArg List.length none
    rw [length_drop, Request.length_bytes, length_nil] at length
    omega
  rw [Merge.chunks_take_drop (by decide) some, drop_drop]
  congr 1
  · refine ext_getElem ?_ fun index left right => ?_
    · simp [Request.piece, Request.n1, Request.bytes, min_comm]
    · simp [Request.piece, Request.bytes]
  · congr 1
    rcases Nat.le_total filewriteMax (req.n.toNat - i) with long | short
    · rw [Request.n1, min_eq_right long]
    · rw [Request.n1, min_eq_left short, drop_eq_nil_of_le, drop_eq_nil_of_le] <;>
        rw [Request.length_bytes] <;> omega

end

def WriteMove.pending (request : Request) : WriteMove → List (List UInt8)
  | .goes pc => pc.pending request
  | .returns _ => []

def WriteMove.busy : WriteMove → Int
  | .goes pc => pc.busy
  | .returns _ => 0

def WriteMove.Ready (writable : Bool) (request : Request) : WriteMove → Prop
  | .goes pc => pc.Ready writable request
  | .returns _ => True

def WriteMove.Full (request : Request) : WriteMove → Prop
  | .goes _ => True
  | .returns r => r = request.n

structure Stepped (R : Rules) (f : FileSlot) (start : Kernel) (order : List (List UInt8))
    (kernel : Kernel) (request : Request) (pc : WritePc) (move : WriteMove) (kernel' : Kernel) : Prop where
  file : FileState R f start (order ++ pc.written request move) kernel'
  outstanding : kernel'.fs.disk.log.outstanding = kernel.fs.disk.log.outstanding + (move.busy - pc.busy)
  ready : move.Ready (start.ftable f).writable request
  progress : move.Full request → pc.written request move ++ move.pending request = pc.pending request

section

variable {R : Rules} {f : FileSlot} {start kernel : Kernel} {order : List (List UInt8)}
  {req : Request}

theorem Stepped.of_quiet {kernel' : Kernel} {pc : WritePc} {move : WriteMove}
    (file : FileState R f start order kernel') (quiet : pc.written req move = [])
    (outstanding : kernel'.fs.disk.log.outstanding = kernel.fs.disk.log.outstanding + (move.busy - pc.busy))
    (ready : move.Ready (start.ftable f).writable req)
    (progress : move.Full req → move.pending req = pc.pending req) :
    Stepped R f start order kernel req pc move kernel' := by
  refine ⟨?_, outstanding, ready, ?_⟩ <;> rw [quiet]
  · rw [append_nil]
    exact file
  · exact progress

theorem WritePc.holds_step (here : FileState R f start order kernel)
    (type : (start.ftable f).type = .inode) (pc : WritePc)
    (ready : pc.Ready (start.ftable f).writable req)
    (op : pc.busy ≤ kernel.fs.disk.log.outstanding) :
    Holds (pc.step f req) kernel
      fun move kernel' => Stepped R f start order kernel req pc move kernel' := by
  cases pc with
  | entry =>
    obtain ⟨off, eq⟩ := here.file
    rw [WritePc.step, holds_bind, holds_get, holds_ite, holds_pure]
    refine ⟨fun closed => .of_quiet here rfl (add_zero _).symm trivial fun full => ?_, fun may => ?_⟩
    · have none : ¬0 < req.n.toNat := by
        have minus : -1 = req.n := full
        omega
      exact (Request.chunks_last none).symm
    · rw [eq] at may ⊢
      rw [type]
      exact .pure (.of_quiet here rfl (add_zero _).symm (Bool.eq_true_of_not_eq_false may)
        fun _ => rfl)
  | loop i =>
    rw [WritePc.step, holds_ite, holds_bind, holds_pure]
    refine ⟨fun more => ?_, fun last => .of_quiet here rfl (add_zero _).symm trivial fun _ => ?_⟩
    · refine here.holds_begin fun kernel' here' begun => .pure ?_
      exact .of_quiet here' rfl begun ⟨ready, more⟩ fun _ => rfl
    · exact (Request.chunks_last last).symm
  | begun i =>
    obtain ⟨writable, more⟩ := ready
    have least : 0 < req.n1 i := by
      have limit : filewriteMax = 6656 := rfl
      simp only [Request.n1]
      omega
    rw [WritePc.step]
    refine (here.holds_writeLocked (Int.lt_of_lt_of_le one_pos op) type writable least
      (min_le_right _ _)).bind fun r kernel' done => .pure ?_
    obtain ⟨outstanding, ⟨failed, here'⟩ | ⟨rfl, here'⟩⟩ := done
    · have quiet : WritePc.written req (.begun i) (.goes (.wrote i r)) = [] := if_neg (by omega)
      refine .of_quiet here' quiet (outstanding.trans (add_zero _).symm) ⟨writable, more⟩ fun _ => ?_
      simp only [WriteMove.pending, WritePc.pending, if_pos failed]
    · have wrote : WritePc.written req (.begun i) (.goes (.wrote i (req.n1 i))) =
          [req.piece i (req.n1 i)] := if_pos (by omega)
      refine ⟨?_, outstanding.trans (add_zero _).symm, ⟨writable, more⟩, fun _ => ?_⟩ <;> rw [wrote]
      · exact here'
      · simp only [WriteMove.pending, WritePc.pending]
        rw [if_neg (by omega), Request.chunks_next more]
        rfl
  | wrote i r =>
    rw [WritePc.step, holds_bind]
    obtain ⟨writable, more⟩ := ready
    refine here.holds_end (Int.lt_of_lt_of_le one_pos op) fun kernel' here' ended => ?_
    rw [holds_ite, holds_pure, holds_ite, holds_panic, holds_pure]
    refine ⟨fun failed => ?_, fun ran => ⟨fun _ => trivial, fun _ => ?_⟩⟩
    · refine .of_quiet here' rfl ended trivial fun full => ?_
      -- the loop has been left before the end, so that -1 is returned
      have minus : req.result i = -1 := if_neg (by omega)
      have pos : req.result i = req.n := full
      omega
    · refine .of_quiet here' rfl ended writable fun _ => ?_
      simp only [WriteMove.pending, WritePc.pending, if_neg ran]

end

namespace Writers

variable {ι : Type} [DecidableEq ι] [Fintype ι] {R : Rules} {f : FileSlot} {base : Kernel}
  {plan : ι → List Request} {s s' : Writers ι}

structure Inv (R : Rules) (f : FileSlot) (base : Kernel) (plan : ι → List Request)
    (st : Writers ι) : Prop where
  file : FileState R f base (st.order.map Prod.snd) st.kernel
  outstanding : st.kernel.fs.disk.log.outstanding =
    base.fs.disk.log.outstanding + ∑ q, (st.writer q).busy
  ready : ∀ q request pc, (st.writer q).current = some (request, pc) →
    pc.Ready (base.ftable f).writable request
  progress : ∀ q, (∀ done ∈ (st.writer q).results, done.2 = done.1.n) →
    Merge.itemsOf q st.order ++ (st.writer q).pending = (plan q).flatMap Request.chunks

theorem Inv.start (running : Running R base)
    (regular : (base.fs.nodeAt (base.ftable f).ip).type = T_FILE)
    (k : (base.ftable f).off = (base.fs.nodeAt (base.ftable f).ip).size) :
    Inv R f base plan (Writers.start base plan) where
  file := ⟨running, ⟨_, rfl⟩, regular, (append_nil _).symm, k⟩
  outstanding := by simp [Writers.start, Writer.busy]
  ready := fun q req pc none => by cases none
  progress := fun q _ => rfl

theorem Inv.busy_le (inv : Inv R f base plan s) (idle : 0 ≤ base.fs.disk.log.outstanding)
    (q : ι) : (s.writer q).busy ≤ s.kernel.fs.disk.log.outstanding := by
  have nonneg : ∀ writer : Writer, 0 ≤ writer.busy := by
    intro writer
    unfold Writer.busy
    split
    · exact le_rfl
    · rename_i pc _
      cases pc <;> simp [WritePc.busy]
  have one : (s.writer q).busy ≤ ∑ q, (s.writer q).busy :=
    Finset.single_le_sum (fun q _ => nonneg (s.writer q)) (Finset.mem_univ q)
  rw [inv.outstanding]
  omega

variable {q : ι} {req : Request}

section

variable (inv : Inv R f base plan s)

include inv

theorem Inv.call {left : List Request} (idle : (s.writer q).current = none)
    (next : (s.writer q).left = req :: left) : Inv R f base plan { s with
      writer := update s.writer q
        { s.writer q with current := some (req, .entry), left } } := by
  obtain ⟨file, outstanding, ready, progress⟩ := inv
  refine ⟨file, ?_, fun p req' pc here => ?_, fun p full => ?_⟩
  · have moved := sum_update s.writer q { s.writer q with current := some (req, .entry), left }
      Writer.busy
    have before : (s.writer q).busy = 0 := by rw [Writer.busy, idle]
    have after : Writer.busy { s.writer q with current := some (req, .entry), left } = 0 := rfl
    rw [before, after, add_zero, add_zero] at moved
    rw [outstanding, moved]
  · by_cases eq : p = q
    · subst eq
      simp only [update_self] at here
      cases here
      trivial
    · simp only [update_of_ne eq] at here
      exact ready p req' pc here
  · by_cases eq : p = q
    · subst eq
      simp only [update_self] at full ⊢
      rw [← progress p full]
      simp [Writer.pending, idle, next, WritePc.pending]
    · simp only [update_of_ne eq] at full ⊢
      exact progress p full

theorem Inv.moves {pc : WritePc} {move : WriteMove} {kernel : Kernel}
    (here : (s.writer q).current = some (req, pc))
    (stepped : Stepped R f base (s.order.map Prod.snd) s.kernel req pc move kernel) :
    Inv R f base plan
      { kernel
        writer := update s.writer q ((s.writer q).move req move)
        order := s.order ++ (pc.written req move).map fun chunk => (q, chunk) } := by
  obtain ⟨file, outstanding, ready, progress⟩ := inv
  obtain ⟨file', outstanding', ready', progress'⟩ := stepped
  refine ⟨?_, ?_, fun p req' pc' there => ?_, fun p full => ?_⟩
  · simpa [map_append, map_map, Function.comp_def] using file'
  · have moved := sum_update s.writer q ((s.writer q).move req move) Writer.busy
    have before : (s.writer q).busy = pc.busy := by rw [Writer.busy, here]
    have after : ((s.writer q).move req move).busy = move.busy := by cases move <;> rfl
    rw [before, after] at moved
    dsimp only
    omega
  · by_cases eq : p = q
    · subst eq
      simp only [update_self] at there
      cases move with
      | goes pc' =>
        cases there
        exact ready'
      | returns r => cases there
    · simp only [update_of_ne eq] at there
      exact ready p req' pc' there
  · by_cases eq : p = q
    · subst eq
      simp only [update_self] at full ⊢
      have before : (s.writer p).pending =
          pc.pending req ++ (s.writer p).left.flatMap Request.chunks := by
        rw [Writer.pending, here]
      have after : ((s.writer p).move req move).pending =
          move.pending req ++ (s.writer p).left.flatMap Request.chunks := by cases move <;> rfl
      have settled : move.Full req ∧ ∀ done ∈ (s.writer p).results, done.2 = done.1.n := by
        cases move with
        | goes pc' => exact ⟨trivial, full⟩
        | returns r =>
          exact ⟨full (req, r) (mem_append_right _ mem_cons_self),
            fun done mem => full done (mem_append_left _ mem)⟩
      have whole := progress p settled.2
      rw [before, ← progress' settled.1] at whole
      rw [Merge.itemsOf_append, Merge.itemsOf_same, after, ← whole]
      simp only [append_assoc]
    · simp only [update_of_ne eq] at full ⊢
      rw [Merge.itemsOf_append, Merge.itemsOf_other (Ne.symm eq), append_nil]
      exact progress p full

theorem Inv.step (type : (base.ftable f).type = .inode) (idle : 0 ≤ base.fs.disk.log.outstanding)
    (next : Next f s q s') : Inv R f base plan s' := by
  unfold Next Writers.step at next
  split at next
  · rename_i free
    split at next
    · cases next
    · rename_i req left calls
      cases next
      exact inv.call free calls
  · rename_i req pc here
    split at next <;> cases next
    rename_i move kernel ran
    have op : pc.busy ≤ s.kernel.fs.disk.log.outstanding := by
      have counted := inv.busy_le idle q
      rwa [Writer.busy, here] at counted
    have stepped := (pc.holds_step inv.file type (inv.ready q req pc here) op).of_ok ran
    exact inv.moves here stepped

end

end Writers

/-- Processes that write through one open file, from its end on, with every call returning its `n`: the
file grows by the chunks of all calls, those of each process in its order. -/
theorem shared_writes_merge {ι : Type} [DecidableEq ι] [Fintype ι] {R : Rules} (kernel : Kernel)
    (running : Running R kernel) (f : FileSlot) (type : (kernel.ftable f).type = .inode)
    (regular : (kernel.fs.nodeAt (kernel.ftable f).ip).type = T_FILE)
    (place : (kernel.ftable f).off = (kernel.fs.nodeAt (kernel.ftable f).ip).size)
    (plan : ι → List Request) (st : Writers ι)
    (reached : Reachable (Writers.Next f) (fun _ _ => True) (Writers.start kernel plan) st)
    (finished : st.Finished) (full : st.Full) :
    ∃ order : List (ι × List UInt8),
      (st.kernel.fs.nodeAt (kernel.ftable f).ip).contents =
        (kernel.fs.nodeAt (kernel.ftable f).ip).contents ++ (order.map Prod.snd).flatten ∧
      (∀ q, Merge.itemsOf q order = (plan q).flatMap Request.chunks) ∧
      (st.kernel.ftable f).off = (st.kernel.fs.nodeAt (kernel.ftable f).ip).size := by
  have inv : Writers.Inv R f kernel plan st :=
    reached.invariant (Writers.Inv R f kernel plan) (.start running regular place)
      fun _ _ _ inv _ next => inv.step type running.idle next
  refine ⟨st.order, inv.file.contents, fun q => ?_, inv.file.place⟩
  rw [← inv.progress q (full q), Writer.pending, (finished q).1, (finished q).2]
  simp


def openedKernel : Kernel :=
  ((Call.sysOpen (some [102]) (some (BitVec.ofNat 32 (O_CREATE + O_RDWR)))).run 0 mkfsKernel).getD mkfsKernel

theorem openedKernel_running : Running ⟨True, True⟩ openedKernel := by
  have checked : ((Call.sysOpen (some [102]) (some (BitVec.ofNat 32 (O_CREATE + O_RDWR)))).run 0
      mkfsKernel).isSome = true := by
    decide +kernel
  obtain ⟨kernel, ran⟩ := Option.isSome_iff_exists.mp checked
  have eq : openedKernel = kernel := by rw [openedKernel, ran, Option.getD_some]
  have leaves : Call.LeavesSmall mkfsKernel
      (0, .sysOpen (some [102]) (some (BitVec.ofNat 32 (O_CREATE + O_RDWR)))) := trivial
  rw [eq]
  exact ((mkfsKernel_running ⟨True, True⟩).advances trivial leaves ⟨by decide, ran⟩).running

def twoWriters (q : Fin 2) : List Request := if q = 0 then [⟨fun _ => 97, 3⟩] else [⟨fun _ => 98, 2⟩]

theorem shared_writes_merge_two : ∃ st : Writers (Fin 2),
    Reachable (Writers.Next 0) (fun _ _ => True) (Writers.start openedKernel twoWriters) st ∧
    ∃ order : List (Fin 2 × List UInt8),
      (st.kernel.fs.nodeAt (openedKernel.ftable 0).ip).contents =
        (openedKernel.fs.nodeAt (openedKernel.ftable 0).ip).contents ++ (order.map Prod.snd).flatten ∧
      (∀ q, Merge.itemsOf q order = (twoWriters q).flatMap Request.chunks) ∧
      (st.kernel.ftable 0).off = (st.kernel.fs.nodeAt (openedKernel.ftable 0).ip).size := by
  have checked : (replay (Writers.step 0) (fun _ _ => True) [0, 1, 0, 1, 0, 1, 1, 0, 1, 0, 0, 1]
      (Writers.start openedKernel twoWriters)).any (fun st => (List.finRange 2).all fun q =>
        (st.writer q).current.isNone && (st.writer q).left.isEmpty &&
          (st.writer q).results.all fun done => done.2 == done.1.n) = true := by
    decide +kernel
  obtain ⟨st, reached, passed⟩ := Reachable.of_replay (fun _ _ _ _ taken => taken) checked
  have each : ∀ q, ((st.writer q).current.isNone = true ∧ (st.writer q).left.isEmpty = true) ∧
      ((st.writer q).results.all fun done => done.2 == done.1.n) = true := fun q => by
    have one := List.all_eq_true.mp passed q (List.mem_finRange q)
    rwa [Bool.and_eq_true, Bool.and_eq_true] at one
  refine ⟨st, reached, shared_writes_merge openedKernel openedKernel_running 0 ?_ ?_ ?_ twoWriters
    st reached (fun q => ?_) fun q done member => ?_⟩
  · decide +kernel
  · decide +kernel
  · decide +kernel
  · exact ⟨Option.isNone_iff_eq_none.mp (each q).1.1, List.isEmpty_iff.mp (each q).1.2⟩
  · exact beq_iff_eq.mp (List.all_eq_true.mp (each q).2 done member)

end Xv6

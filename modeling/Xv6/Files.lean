import Xv6.FileCore
import Xv6.Inodes

/-! Rules for programs on the whole kernel state: its components and what leaves them
unchanged. -/

namespace Xv6

open Exec Function

variable {f : FileSlot} {post : Unit → Kernel → Prop} {p : ProcSlot}

section

variable {k : Kernel} {stops : Stop → Prop}

@[simp] theorem holds_onFs {α : Type} {prog : FsM α} {post : α → Kernel → Prop} :
    Holds (onFs prog) k post stops ↔ Holds prog k.fs (fun val fs => post val (k.setFs fs)) stops :=
  holds_zoom

@[simp] theorem Kernel.setFs_setFs (fst snd : Fs) : (k.setFs fst).setFs snd = k.setFs snd := rfl

@[simp] theorem Kernel.setFile_same (f : FileSlot) (file : File) :
    (k.setFile f file).ftable f = file := update_self _ _ _

@[simp] theorem holds_file  {post : File → Kernel → Prop} : Holds (file f) k post stops ↔ post (k.ftable f) k := by
  simp [file]

@[simp] theorem holds_modifyFile  {change : File → File} :
    Holds (modifyFile f change) k post stops ↔ post () (k.setFile f (change (k.ftable f))) := holds_modify

@[simp] theorem holds_proc  {post : Proc → Kernel → Prop} : Holds (proc p) k post stops ↔ post (k.ptable p) k := by
  simp [proc]

@[simp] theorem holds_modifyProc  {change : Proc → Proc} :
    Holds (modifyProc p change) k post stops ↔ post () (k.setProc p (change (k.ptable p))) := holds_modify

@[simp] theorem Kernel.setProc_same (p : ProcSlot) (proc : Proc) :
    (k.setProc p proc).ptable p = proc := update_self _ _ _

theorem Kernel.setFile_ne {g : FileSlot} (file : File) (ne : g ≠ f) :
    (k.setFile f file).ftable g = k.ftable g := update_of_ne ne _ _

theorem Kernel.setProc_ne {q : ProcSlot} (proc : Proc) (ne : q ≠ p) :
    (k.setProc p proc).ptable q = k.ptable q := update_of_ne ne _ _

theorem holds_cwd {post : Slot → Kernel → Prop} (fault : stops .fault)
    (next : ∀ ip, (k.ptable p).cwd = some ip → post ip k) : Holds (cwd p) k post stops := by
  rw [cwd, holds_bind, holds_get]
  split
  · rename_i ip hit
    exact .pure (next ip hit)
  · exact holds_halt.mpr fault

end

end Xv6

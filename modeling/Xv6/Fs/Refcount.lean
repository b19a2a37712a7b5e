import Xv6.Fs.Balance
import Xv6.Fs.Boot

/-!
# The reference counts over whole runs

Processes call into the file system one call at a time, in any order. Each call balances its
references (`Kernel.syscall_balance`), and the file table and the processes' working
directories are the only long-term holders; so from boot on, the count of every entry of the
inode cache is the number of open inode files naming it plus the number of processes whose
working directory it is (`refsExact_of_reachable`). Summed over the cache, a call changes
the total by the files it opened minus the files it closed (`syscall_refs_balanced`).
-/

namespace Xv6

open Except (bind_eq_ok_iff pure_eq_ok_iff)

/-- The file-system calls of the model. -/
inductive Call
  | sysOpen
  | sysClose
  | sysRead
  | sysLink
  | sysUnlink
  | sysMkdir
  | sysMknod
  | sysChdir
  deriving DecidableEq, Repr

/-- The caller's memory after the kernel copied `bytes` to `addr`. -/
def Caller.store (p : Caller) (addr : Nat) (bytes : List UInt8) : Caller :=
  { p with mem := fun a => if addr ≤ a ∧ a < addr + bytes.length then bytes.getD (a - addr) 0 else p.mem a }

namespace Kernel

/-- A call of `p` into the kernel: the result, the kernel, and the caller afterwards. -/
def syscall (k : Kernel) (p : Caller) : Call → Except String (Int × Kernel × Caller)
  | .sysOpen => k.sysOpen p
  | .sysClose => k.sysClose p
  | .sysRead => do
      let r ← k.sysRead p
      pure (r.1, r.2.1, p.store r.2.2.1 r.2.2.2)
  | .sysLink => k.sysLink p
  | .sysUnlink => k.sysUnlink p
  | .sysMkdir => k.sysMkdir p
  | .sysMknod => k.sysMknod p
  | .sysChdir => k.sysChdir p

variable {k k' : Kernel} {p p' : Caller}

theorem sysRead_balance {r : Int × Kernel × Nat × List UInt8} (hinv : k.FilesReferenced)
    (h : k.sysRead p = .ok r) : Balanced k p r.2.1 p := by
  unfold sysRead at h
  split at h
  · rename_i fd f n hfd hn
    split at h
    · obtain ⟨r₁, h₁, h₂⟩ := bind_eq_ok_iff.1 h
      cases pure_eq_ok_iff.1 h₂
      obtain ⟨hrefs, hfiles, hinv'⟩ := fileread_balance hinv h₁
      exact ⟨by simp [held, hrefs, hfiles], hinv'⟩
    · cases h
      exact ⟨rfl, hinv⟩
  · cases h
    exact ⟨rfl, hinv⟩

/-- Every call balances the references it creates and drops. -/
theorem syscall_balance {c : Call} {r : Int} (hinv : k.FilesReferenced)
    (h : k.syscall p c = .ok (r, k', p')) : Balanced k p k' p' := by
  cases c with
  | sysOpen => exact sysOpen_balance hinv h
  | sysClose => exact sysClose_balance hinv h
  | sysRead =>
    obtain ⟨r₁, h₁, h₂⟩ := bind_eq_ok_iff.1 h
    cases pure_eq_ok_iff.1 h₂
    obtain ⟨hbal, hinv'⟩ := sysRead_balance hinv h₁
    exact ⟨by simpa [held, Caller.store] using hbal, hinv'⟩
  | sysLink => exact sysLink_balance hinv h
  | sysUnlink => exact sysUnlink_balance hinv h
  | sysMkdir => exact sysMkdir_balance hinv h
  | sysMknod => exact sysMknod_balance hinv h
  | sysChdir => exact sysChdir_balance hinv h

/-- The number of entries of the file table that hold an inode. -/
def openFiles (k : Kernel) : Int := ((Finset.univ.filter fun f => (k.file f).held.isSome).card : Int)

theorem sum_fileRefs (k : Kernel) : ∑ j, k.fileRefs j = k.openFiles :=
  Tally.sum_count _

end Kernel

/-- The kernel and the process table: `proc i` is the process in slot `i`, if any. -/
structure Sys where
  kernel : Kernel
  proc : Fin NPROC → Option Caller

namespace Sys

/-- One call by one process. -/
inductive Step : Sys → Sys → Prop
  | call {σ : Sys} {i : Fin NPROC} {p p' : Caller} {c : Call} {r : Int} {k' : Kernel} :
      σ.proc i = some p → σ.kernel.syscall p c = .ok (r, k', p') →
      Step σ ⟨k', Function.update σ.proc i (some p')⟩

/-- The slot of the process table that `userinit` gives `init`. -/
def initSlot : Fin NPROC := ⟨0, NPROC_pos⟩

/-- The system when `init` makes its first call: `p` is `init`, and its working directory is
the root. -/
def boot (sb : Superblock) (devsw : Nat → Devsw) (img : Image) (p : Caller) : Sys :=
  ⟨Kernel.init sb devsw img, Function.update (fun _ => none) initSlot (some { p with cwd := rootSlot })⟩

/-- The states some run from boot reaches. -/
inductive Reachable (σ₀ : Sys) : Sys → Prop
  | boot : Reachable σ₀ σ₀
  | step {σ σ' : Sys} : Reachable σ₀ σ → Step σ σ' → Reachable σ₀ σ'

/-- The references the working directories of the processes hold. -/
def cwdRefs (σ : Sys) : Fin NINODE → Int := Tally.count fun i => (σ.proc i).map Caller.cwd

/-- Every count of the inode cache is the number of long-term references to its entry, and
every inode file is open. -/
def RefsExact (σ : Sys) : Prop :=
  σ.kernel.FilesReferenced ∧ σ.kernel.fs.refs = σ.kernel.fileRefs + σ.cwdRefs

theorem cwdRefs_update (σ : Sys) (k : Kernel) (i : Fin NPROC) (p : Caller) :
    (⟨k, Function.update σ.proc i (some p)⟩ : Sys).cwdRefs =
      σ.cwdRefs - Tally.one ((σ.proc i).map Caller.cwd) + Pi.single p.cwd 1 := by
  have hmap : (fun j => (Function.update σ.proc i (some p) j).map Caller.cwd) =
      Function.update (fun j => (σ.proc j).map Caller.cwd) i (some p.cwd) := by
    funext j
    by_cases hj : j = i
    · subst hj
      simp
    · simp [hj]
  rw [cwdRefs, hmap, Tally.count_update, Tally.one_some]
  rfl

/-- A call keeps the counts exact: it moved the caller's working directory and the file
table's references exactly as it moved the counts. -/
theorem RefsExact.step {σ σ' : Sys} (hσ : σ.RefsExact) (h : Step σ σ') : σ'.RefsExact := by
  obtain ⟨hinv, hexact⟩ := hσ
  cases h with
  | call hp hc =>
    obtain ⟨hbal, hinv'⟩ := Kernel.syscall_balance hinv hc
    refine ⟨hinv', ?_⟩
    rw [cwdRefs_update, hp, Option.map_some, Tally.one_some]
    simp only [Kernel.held] at hbal
    rw [hexact] at hbal
    linear_combination hbal

theorem refsExact_boot {sb : Superblock} {devsw : Nat → Devsw} {img : Image} {p : Caller} :
    (boot sb devsw img p).RefsExact := by
  refine ⟨fun f h => by simp [boot, Kernel.init, File.free] at h, ?_⟩
  -- the root is the only entry with a reference: `init`'s working directory
  have hboot : (Fs.boot sb devsw img).refs = 0 := by
    funext j
    rfl
  have hfs : (Kernel.init sb devsw img).fs.refs = Pi.single rootSlot 1 := by
    rw [show (Kernel.init sb devsw img).fs = Fs.init sb devsw img from rfl, Fs.init, Fs.refs_setInode,
      hboot]
    simp [Fs.boot, Inode.free]
  have hfiles : (Kernel.init sb devsw img).fileRefs = 0 := by
    simp [Kernel.fileRefs, Kernel.init, File.held, File.free]
  have hnone : (⟨Kernel.init sb devsw img, fun _ => none⟩ : Sys).cwdRefs = 0 := by
    simp [cwdRefs]
  rw [boot, cwdRefs_update ⟨Kernel.init sb devsw img, fun _ => none⟩, hnone, hfs, hfiles]
  simp

/-- From boot on, each entry of the inode cache counts exactly its open files and working
directories. -/
theorem refsExact_of_reachable {σ₀ σ : Sys} (h₀ : σ₀.RefsExact) (h : Reachable σ₀ σ) : σ.RefsExact := by
  induction h with
  | boot => exact h₀
  | step _ hs ih => exact ih.step hs

end Sys

/-- At every state a run from boot reaches, a call by any process changes the count of every
entry of the inode cache by the open files it created or dropped and by the move of the
caller's working directory, on every path out of the call; over the whole cache the count
changes by the files opened minus the files closed. -/
theorem syscall_refs_balanced {sb : Superblock} {devsw : Nat → Devsw} {img : Image} {q : Caller}
    {σ : Sys} {p p' : Caller} {c : Call} {r : Int} {k' : Kernel}
    (hσ : Sys.Reachable (Sys.boot sb devsw img q) σ) (h : σ.kernel.syscall p c = .ok (r, k', p')) :
    k'.fs.refs = σ.kernel.fs.refs + (k'.fileRefs - σ.kernel.fileRefs) +
        (Pi.single p'.cwd 1 - Pi.single p.cwd 1) ∧
      ∑ j, (k'.fs.inode j).ref = ∑ j, (σ.kernel.fs.inode j).ref + (k'.openFiles - σ.kernel.openFiles) := by
  obtain ⟨hinv, -⟩ := Sys.refsExact_of_reachable Sys.refsExact_boot hσ
  obtain ⟨hbal, -⟩ := Kernel.syscall_balance hinv h
  simp only [Kernel.held] at hbal
  have hslot : k'.fs.refs = σ.kernel.fs.refs + (k'.fileRefs - σ.kernel.fileRefs) +
      (Pi.single p'.cwd 1 - Pi.single p.cwd 1) := by
    linear_combination hbal
  refine ⟨hslot, ?_⟩
  -- sum the slot equation over the cache
  have hsum := congrArg (fun g : Fin NINODE → Int => ∑ j, g j) hslot
  simp only [Pi.add_apply, Pi.sub_apply, Finset.sum_add_distrib, Finset.sum_sub_distrib,
    Kernel.sum_fileRefs, Finset.sum_pi_single', Finset.mem_univ, if_true] at hsum
  simpa [Fs.refs] using hsum

/-- `init`'s first call opens "/", on a disk whose root is a directory: the root gains the
reference of the one file now open. -/
theorem open_root_refs_balanced :
    ∃ k' p', (Kernel.init ⟨1000, 941, 200, 30, 2, 32, 58⟩ (fun _ => ⟨none, none⟩)
        ⟨fun i => if i = ROOTINO then { Dinode.zero with type := T_DIR } else Dinode.zero,
          fun _ => false, fun _ => Block.zero⟩).syscall
        ⟨64, fun a => if a = 4 then 32 else if a = 32 then '/'.toUInt8 else 0, 0, fun _ => none,
          rootSlot⟩ .sysOpen = .ok (0, k', p') ∧
      k'.fs.refs = (Kernel.init ⟨1000, 941, 200, 30, 2, 32, 58⟩ (fun _ => ⟨none, none⟩)
          ⟨fun i => if i = ROOTINO then { Dinode.zero with type := T_DIR } else Dinode.zero,
            fun _ => false, fun _ => Block.zero⟩).fs.refs +
          (k'.fileRefs - (Kernel.init ⟨1000, 941, 200, 30, 2, 32, 58⟩ (fun _ => ⟨none, none⟩)
            ⟨fun i => if i = ROOTINO then { Dinode.zero with type := T_DIR } else Dinode.zero,
              fun _ => false, fun _ => Block.zero⟩).fileRefs) +
          (Pi.single p'.cwd 1 - Pi.single rootSlot 1) ∧
        ∑ j, (k'.fs.inode j).ref = ∑ j, ((Kernel.init ⟨1000, 941, 200, 30, 2, 32, 58⟩ (fun _ => ⟨none, none⟩)
          ⟨fun i => if i = ROOTINO then { Dinode.zero with type := T_DIR } else Dinode.zero,
            fun _ => false, fun _ => Block.zero⟩).fs.inode j).ref +
          (k'.openFiles - (Kernel.init ⟨1000, 941, 200, 30, 2, 32, 58⟩ (fun _ => ⟨none, none⟩)
            ⟨fun i => if i = ROOTINO then { Dinode.zero with type := T_DIR } else Dinode.zero,
              fun _ => false, fun _ => Block.zero⟩).openFiles) := by
  have hopen := @Kernel.sysOpen_root ⟨1000, 941, 200, 30, 2, 32, 58⟩ (fun _ => ⟨none, none⟩)
    ⟨fun i => if i = ROOTINO then { Dinode.zero with type := T_DIR } else Dinode.zero,
      fun _ => false, fun _ => Block.zero⟩
    ⟨64, fun a => if a = 4 then 32 else if a = 32 then '/'.toUInt8 else 0, 0, fun _ => none,
      rootSlot⟩ (by decide) (by decide) rfl rfl
  exact ⟨_, _, hopen, @syscall_refs_balanced ⟨1000, 941, 200, 30, 2, 32, 58⟩ (fun _ => ⟨none, none⟩)
    ⟨fun i => if i = ROOTINO then { Dinode.zero with type := T_DIR } else Dinode.zero,
      fun _ => false, fun _ => Block.zero⟩
    ⟨64, fun a => if a = 4 then 32 else if a = 32 then '/'.toUInt8 else 0, 0, fun _ => none,
      rootSlot⟩ _
    ⟨64, fun a => if a = 4 then 32 else if a = 32 then '/'.toUInt8 else 0, 0, fun _ => none,
      rootSlot⟩ _ .sysOpen _ _ Sys.Reachable.boot hopen⟩

end Xv6

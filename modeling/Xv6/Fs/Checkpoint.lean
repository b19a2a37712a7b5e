import Xv6.Fs.Boot
import Xv6.Fs.Mkfs

/-!
# Saving and loading a process: `sys_isvpcb` and `sys_ildpcb`

Both calls open their files with `the_opener`, a copy of `sys_open` that takes its path and
mode as arguments and returns `-1` when the file cannot be opened. `sys_isvpcb` checks only the
first of its two descriptors and `sys_ildpcb` none of its five, and each then reads
`proc->ofile[fd]` for every descriptor it got. For `fd = -1` that is the word before the table;
`Caller.ofileAt` makes a read outside the table an error.

What the calls do with the files after that (the pages, flags, context, trap frame and
process image written and read back, and `load_the_proc`, whose body is empty) is not
modelled: the model of each call stops at its reads of `proc->ofile`.
-/

namespace Xv6

/-- A C string literal, without its terminating NUL. -/
def cstr (s : String) : List UInt8 := s.toList.map Char.toUInt8

/-- `proc->ofile[fd]` for an `int` descriptor. Outside `[0, NOFILE)` it reads memory that is
not the table. -/
def Caller.ofileAt (p : Caller) (fd : Int) : Except String (Option (Fin NFILE)) :=
  if h : 0 ≤ fd ∧ fd < NOFILE then .ok (p.ofile ⟨fd.toNat, toNat_lt_NOFILE h⟩)
  else .error "proc->ofile[fd] out of bounds"

namespace Caller

variable {p : Caller} {fd : Int}

theorem ofileAt_neg (h : fd < 0) : p.ofileAt fd = .error "proc->ofile[fd] out of bounds" := by
  rw [ofileAt, dif_neg (by omega)]

/-- A read of the table either succeeds or is out of bounds. -/
theorem ofileAt_cases (p : Caller) (fd : Int) :
    (∃ f, p.ofileAt fd = .ok f) ∨ p.ofileAt fd = .error "proc->ofile[fd] out of bounds" := by
  unfold ofileAt
  split
  · exact .inl ⟨_, rfl⟩
  · exact .inr rfl

/-- Reading the table at a list of descriptors, one of which is negative, goes out of bounds. -/
theorem mapM_ofileAt_of_neg {fds : List Int} (h : ∃ fd ∈ fds, fd < 0) :
    fds.mapM p.ofileAt = .error "proc->ofile[fd] out of bounds" := by
  induction fds with
  | nil => simp at h
  | cons fd fds ih =>
    rw [List.mapM_cons]
    rcases ofileAt_cases p fd with ⟨f, hf⟩ | hf
    · -- the negative descriptor comes later
      have hlater : ∃ fd ∈ fds, fd < 0 := by
        obtain ⟨fd', hmem, hneg⟩ := h
        rcases List.mem_cons.1 hmem with rfl | hmem'
        · rw [ofileAt_neg hneg] at hf
          cases hf
        · exact ⟨fd', hmem', hneg⟩
      rw [hf, Except.ok_bind, ih hlater]
      rfl
    · rw [hf]
      rfl

end Caller

namespace Kernel

variable {k : Kernel}

/-- `the_opener(path, omode)`: the body of `sys_open`, on its two arguments. -/
def theOpener (k : Kernel) (p : Caller) (path : List UInt8) (omode : Nat) :
    Except String (Int × Kernel × Caller) :=
  let s := k.fs.beginOp
  if omode &&& O_CREATE ≠ 0 then do
    let c ← s.create p.cwd path T_FILE 0 0
    match c.1 with
    | none => do
        let s ← c.2.endOp
        pure (-1, { k with fs := s }, p)
    | some ip => openInode { k with fs := c.2 } p ip omode
  else do
    let r ← s.namei p.cwd path
    match r.1 with
    | none => do
        let s ← r.2.endOp
        pure (-1, { k with fs := s }, p)
    | some ip => do
        let s ← r.2.ilock ip
        if (s.inode ip).type = T_DIR ∧ omode ≠ O_RDONLY then do
          let s ← s.iunlockput ip
          let s ← s.endOp
          pure (-1, { k with fs := s }, p)
        else openInode { k with fs := s } p ip omode

/-- `sys_open` is `the_opener` on the arguments it fetched. -/
theorem sysOpen_eq_theOpener {p : Caller} {path : List UInt8} {omode : Int}
    (hpath : p.argstr 0 = some path) (hmode : p.argint 1 = some omode) :
    k.sysOpen p = k.theOpener p path (toUint32 omode) := by
  rw [sysOpen, hpath, hmode]
  rfl

/-- A path that names nothing, opened without `O_CREATE`: `-1`, after the transaction ends. -/
theorem theOpener_of_namei_none {p : Caller} {path : List UInt8} {omode : Nat} {s s' : Fs}
    (hmode : omode &&& O_CREATE = 0) (h : k.fs.beginOp.namei p.cwd path = .ok (none, s))
    (he : s.endOp = .ok s') : k.theOpener p path omode = .ok (-1, { k with fs := s' }, p) := by
  rw [theOpener, if_neg (not_not.2 hmode)]
  simp only [h, Except.ok_bind, he]
  rfl

/-- The opens of a checkpoint call, one per file name, in order, with the same mode. -/
def openAll (k : Kernel) (p : Caller) (omode : Nat) : List String →
    Except String (List Int × Kernel × Caller)
  | [] => pure ([], k, p)
  | name :: names => do
      let (fd, k, p) ← k.theOpener p (cstr name) omode
      let (fds, k, p) ← k.openAll p omode names
      pure (fd :: fds, k, p)

/-- The files of `sys_ildpcb`, in the order it opens them and reads their descriptors. -/
def ildpcbFiles : List String := ["pages", "context", "trapframe", "proc", "flag"]

/-- The opening part of `sys_ildpcb`: its five opens, and the five reads of `proc->ofile` at
the descriptors they returned. -/
def ildpcbOpen (k : Kernel) (p : Caller) :
    Except String (List (Option (Fin NFILE)) × Kernel × Caller) := do
  let (fds, k, p) ← k.openAll p O_RDONLY ildpcbFiles
  let fs ← fds.mapM p.ofileAt
  pure (fs, k, p)

/-- The opening part of `sys_isvpcb`: the two opens, the check of the first descriptor only
(`none` for its `exit()`), and the two reads of `proc->ofile`. -/
def isvpcbOpen (k : Kernel) (p : Caller) :
    Except String (Option (Option (Fin NFILE) × Option (Fin NFILE)) × Kernel × Caller) := do
  let (fd, k, p) ← k.theOpener p (cstr "pages") (O_CREATE ||| O_RDWR)
  let (fd2, k, p) ← k.theOpener p (cstr "flag") (O_CREATE ||| O_RDWR)
  if fd < 0 then pure (none, k, p)
  else do
    let f ← p.ofileAt fd
    let f2 ← p.ofileAt fd2
    pure (some (f, f2), k, p)

/-- `sys_ildpcb` reads `proc->ofile` at every descriptor its opens returned: when one of them
failed, out of bounds. -/
theorem ildpcbOpen_of_neg {fds : List Int} {k' : Kernel} {p p' : Caller}
    (h : k.openAll p O_RDONLY ildpcbFiles = .ok (fds, k', p')) (hneg : ∃ fd ∈ fds, fd < 0) :
    k.ildpcbOpen p = .error "proc->ofile[fd] out of bounds" := by
  rw [ildpcbOpen, h, Except.ok_bind]
  show (do let fs ← fds.mapM p'.ofileAt; pure (fs, k', p')) = _
  rw [Caller.mapM_ofileAt_of_neg hneg]
  rfl

/-- `sys_isvpcb` checks the first descriptor only: when the first open succeeds and the second
fails, it reads `proc->ofile[-1]`. -/
theorem isvpcbOpen_of_second_neg {fd fd2 : Int} {k₁ k₂ : Kernel} {p p₁ p₂ : Caller}
    (h1 : k.theOpener p (cstr "pages") (O_CREATE ||| O_RDWR) = .ok (fd, k₁, p₁))
    (h2 : k₁.theOpener p₁ (cstr "flag") (O_CREATE ||| O_RDWR) = .ok (fd2, k₂, p₂))
    (hfd : 0 ≤ fd ∧ fd < NOFILE) (hfd2 : fd2 < 0) :
    k.isvpcbOpen p = .error "proc->ofile[fd] out of bounds" := by
  have hf : p₂.ofileAt fd = .ok (p₂.ofile ⟨fd.toNat, by omega⟩) := by
    rw [Caller.ofileAt, dif_pos hfd]
  simp only [isvpcbOpen, h1, h2, Except.ok_bind]
  rw [if_neg (by omega), hf, Except.ok_bind, Caller.ofileAt_neg hfd2]
  rfl

end Kernel

/-- A disk whose root directory has no entry. -/
def emptyRootImage : Image where
  dinode := fun i => if i = ROOTINO then ⟨T_DIR, 0, 0, 1, 0, fun _ => 0⟩ else Dinode.zero
  bitmap := fun _ => false
  data := fun _ => Block.zero

/-- `sys_ildpcb` by `init`, in the root directory with no open file, when no checkpoint has
been saved: every open returns `-1`, and the first read of the table is `proc->ofile[-1]`. -/
theorem ildpcb_reads_before_ofile :
    ((Kernel.init Mkfs.sb (fun _ => ⟨none, none⟩) emptyRootImage).ildpcbOpen
        ⟨0, fun _ => 0, 0, fun _ => none, rootSlot⟩).map Prod.fst =
      .error "proc->ofile[fd] out of bounds" := by
  decide +kernel

end Xv6

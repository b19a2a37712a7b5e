import Xv6.Fs.Dir

/-!
# File-system calls (`log.c`, `file.c`, `syscall.c`, `sysfile.c`)

A system call runs in the kernel with the file system, the table of open files, and the
calling process: its size, its memory, the stack pointer it trapped with, its open files and
its working directory. Arguments are the words above the user stack pointer (`argint`);
`argptr` and `argstr` check that what they point to lies below `proc->sz`, in the source's
32-bit arithmetic.

`begin_op` and `end_op` bracket each call that writes. The model runs one call at a time,
so `begin_op` never waits; the `end_op` that brings `outstanding` to `0` commits, copying
the logged blocks of the block store to the disk.

A `read` returns, with its result, the address it copied to and the bytes it copied there,
so that a statement can say where in user memory the kernel wrote. Pipes are not modelled.
-/

namespace Xv6

namespace Fs

/-- `begin_op()`, admitted at once. -/
def beginOp (s : Fs) : Fs :=
  { s with log := { s.log with outstanding := s.log.outstanding + 1 } }

/-- `commit()` and the end of the committing `end_op`: the logged blocks are installed on
the disk and the header is cleared. -/
def commit (s : Fs) (log : Log) : Fs :=
  if 0 < log.lh.n then
    { s with disk := Image.installAll s.sb s.mem log.txBlocks s.disk, log := Log.commitDone log }
  else { s with log := Log.commitDone log }

/-- `end_op()`. -/
def endOp (s : Fs) : Except String Fs := do
  let r ← s.log.endOp
  if r.2 then pure (s.commit r.1) else pure { s with log := r.1 }

@[simp] theorem beginOp_inode (s : Fs) : s.beginOp.inode = s.inode := rfl
@[simp] theorem beginOp_mem (s : Fs) : s.beginOp.mem = s.mem := rfl
@[simp] theorem beginOp_sb (s : Fs) : s.beginOp.sb = s.sb := rfl

/-- The `end_op` of the only operation in progress, when it logged nothing: the commit has
nothing to install. -/
theorem endOp_last {s : Fs} (h1 : s.log.outstanding = 1) (hc : s.log.committing = false)
    (hn : s.log.lh.n = 0) :
    s.endOp = .ok { s with log := { s.log with outstanding := 0, committing := false,
                                                lh := { s.log.lh with n := 0 } } } := by
  simp only [endOp, Log.endOp, h1, hc, Nat.sub_self]
  simp only [Bool.false_eq_true, if_false, if_true, Except.ok_bind, commit, Log.commitDone, hn,
    Nat.lt_irrefl]
  rfl

/-- The `end_op` of an operation while another is in progress: it leaves the commit to the
last one. -/
theorem endOp_not_last {s : Fs} {n : Nat} (h2 : s.log.outstanding = n + 2)
    (hc : s.log.committing = false) :
    s.endOp = .ok { s with log := { s.log with outstanding := n + 1 } } := by
  simp only [endOp, Log.endOp, h2, hc, Bool.false_eq_true, if_false]
  rfl

end Fs

/-- `f->type`. -/
inductive FileType
  | none
  | inode
  deriving DecidableEq, Repr

/-- `struct file`. -/
structure File where
  type : FileType
  ref : Int
  readable : Bool
  writable : Bool
  ip : Fin NINODE
  off : Nat

/-- The kernel state the file-system calls share. -/
structure Kernel where
  fs : Fs
  file : Fin NFILE → File

/-- The calling process: `proc->sz`, its memory, `proc->tf->esp`, `proc->ofile` and
`proc->cwd`. -/
structure Caller where
  sz : Nat
  mem : Nat → UInt8
  esp : Nat
  ofile : Fin NOFILE → Option (Fin NFILE)
  cwd : Fin NINODE

/-- `(uint) i`. -/
def toUint32 (i : Int) : Nat := (i % 2 ^ 32).toNat

namespace Kernel

def setFile (k : Kernel) (f : Fin NFILE) (file : File) : Kernel :=
  { k with file := Function.update k.file f file }

@[simp] theorem setFile_fs (k : Kernel) (f : Fin NFILE) (file : File) : (k.setFile f file).fs = k.fs :=
  rfl

/-- `filealloc()`: the first file with no reference. -/
def filealloc (k : Kernel) : Option (Fin NFILE × Kernel) :=
  match (List.finRange NFILE).find? (fun f => decide ((k.file f).ref = 0)) with
  | none => none
  | some f => some (f, k.setFile f { k.file f with ref := 1 })

/-- `fileclose(f)`. -/
def fileclose (k : Kernel) (f : Fin NFILE) : Except String Kernel :=
  let file := k.file f
  if file.ref < 1 then .error "fileclose"
  else if 1 < file.ref then .ok (k.setFile f { file with ref := file.ref - 1 })
  else
    let k := k.setFile f { file with ref := 0, type := .none }
    if file.type = .inode then do
      let s ← k.fs.beginOp.iput file.ip
      let s ← s.endOp
      pure { k with fs := s }
    else .ok k

/-- `fileread(f, addr, n)`: the result and the bytes copied to `addr`. -/
def fileread (k : Kernel) (f : Fin NFILE) (n : Int) :
    Except String (Int × List UInt8 × Kernel) :=
  let file := k.file f
  if !file.readable then .ok (-1, [], k)
  else if file.type = .inode then do
    let s ← k.fs.ilock file.ip
    let r ← s.readi file.ip file.off (toUint32 n)
    let off := if 0 < r.1 then toUint32 (file.off + r.1) else file.off
    let s ← r.2.2.iunlock file.ip
    pure (r.1, r.2.1, { k with fs := s }.setFile f { file with off := off })
  else .error "fileread"

end Kernel

namespace Caller

/-- The little-endian word at `addr` in the process's memory. -/
def word (p : Caller) (addr : Nat) : Nat :=
  (p.mem addr).toNat + 256 * (p.mem (addr + 1)).toNat + 65536 * (p.mem (addr + 2)).toNat +
    16777216 * (p.mem (addr + 3)).toNat

/-- `fetchint(addr, &i)`. -/
def fetchint (p : Caller) (addr : Nat) : Option Int :=
  if p.sz ≤ addr ∨ p.sz < u32add addr 4 then none else some (toInt32 (p.word addr))

/-- `argint(n, &i)`. -/
def argint (p : Caller) (n : Nat) : Option Int :=
  p.fetchint (u32add (u32add p.esp 4) (4 * n))

/-- `argptr(n, &pp, size)`: the address, if the block of `size` bytes lies below `sz`. -/
def argptr (p : Caller) (n : Nat) (size : Int) : Option Nat := do
  let i ← p.argint n
  if p.sz ≤ toUint32 i ∨ p.sz < u32add (toUint32 i) (toUint32 size) then none
  else some (toUint32 i)

/-- `fetchstr(addr, &s)`: the bytes before the first NUL below `sz`. -/
def fetchstr (p : Caller) (addr : Nat) : Option (List UInt8) :=
  if p.sz ≤ addr then none
  else
    let s := (List.range (p.sz - addr)).map fun j => p.mem (addr + j)
    if 0 ∈ s then some (s.takeWhile (· != 0)) else none

/-- `argstr(n, &s)`. -/
def argstr (p : Caller) (n : Nat) : Option (List UInt8) := do
  let addr ← p.argint n
  p.fetchstr (toUint32 addr)

/-- A descriptor that passes the bounds check indexes the table. -/
theorem toNat_lt_NOFILE {fd : Int} (h : 0 ≤ fd ∧ fd < NOFILE) : fd.toNat < NOFILE := by omega

/-- `argfd(n, &fd, &f)`. -/
def argfd (p : Caller) (n : Nat) : Option (Nat × Fin NFILE) := do
  let fd ← p.argint n
  if h : 0 ≤ fd ∧ fd < NOFILE then
    let f ← p.ofile ⟨fd.toNat, toNat_lt_NOFILE h⟩
    some (fd.toNat, f)
  else none

/-- `fdalloc(f)`: the first free descriptor. -/
def fdalloc (p : Caller) (f : Fin NFILE) : Option (Nat × Caller) :=
  match (List.finRange NOFILE).find? (fun fd => (p.ofile fd).isNone) with
  | none => none
  | some fd => some (fd, { p with ofile := Function.update p.ofile fd (some f) })

end Caller

/-- The `end_op` of the only operation in progress, which logged blocks: `commit()` copies
them from the block store to the disk. -/
theorem Fs.endOp_commit {s : Fs} (h1 : s.log.outstanding = 1) (hc : s.log.committing = false)
    (hn : 0 < s.log.lh.n) :
    s.endOp = .ok { s with disk := Image.installAll s.sb s.mem s.log.txBlocks s.disk,
                           log := { s.log with outstanding := 0, committing := false,
                                               lh := { s.log.lh with n := 0 } } } := by
  simp only [Fs.endOp, Log.endOp, h1, hc, Nat.sub_self]
  simp only [Bool.false_eq_true, if_false, if_true, Except.ok_bind, Fs.commit, Log.commitDone]
  rw [if_pos hn]
  rfl

/-- `O_RDONLY`, `O_WRONLY`, `O_RDWR` and `O_CREATE` of `fcntl.h`. -/
def O_RDONLY : Nat := 0x000
def O_WRONLY : Nat := 0x001
def O_RDWR : Nat := 0x002
def O_CREATE : Nat := 0x200

namespace Fs

/-- `create(path, type, major, minor)`: the locked inode named by `path`, made if absent. -/
def create (s : Fs) (cwd : Fin NINODE) (path : List UInt8) (type : Nat) (major minor : Int) :
    Except String (Option (Fin NINODE) × Fs) := do
  let r ← s.nameiparent cwd path
  match r.1 with
  | none => pure (none, r.2)
  | some (dp, name) => do
      let s ← r.2.ilock dp
      let l ← s.dirlookup dp name
      match l.1 with
      | some (ip, _) => do
          let s ← l.2.iunlockput dp
          let s ← s.ilock ip
          if type = T_FILE ∧ (s.inode ip).type = T_FILE then pure (some ip, s)
          else do
            let s ← s.iunlockput ip
            pure (none, s)
      | none => do
          let a ← l.2.ialloc (l.2.inode dp).dev type
          let ip := a.1
          let s ← a.2.ilock ip
          let s := s.setInode ip { s.inode ip with major := major, minor := minor, nlink := 1 }
          let s ← s.iupdate ip
          let s ← if type = T_DIR then do
              -- for ".."; no ip->nlink++ for "."
              let s := s.setInode dp { s.inode dp with nlink := (s.inode dp).nlink + 1 }
              let s ← s.iupdate dp
              let d₁ ← s.dirlink ip ['.'.toUInt8] (s.inode ip).inum
              if d₁.1 < 0 then .error "create dots"
              else do
                let d₂ ← d₁.2.dirlink ip ['.'.toUInt8, '.'.toUInt8] (d₁.2.inode dp).inum
                if d₂.1 < 0 then .error "create dots" else pure d₂.2
            else pure s
          let d ← s.dirlink dp name (s.inode ip).inum
          if d.1 < 0 then .error "create: dirlink"
          else do
            let s ← d.2.iunlockput dp
            pure (some ip, s)

end Fs

namespace Kernel

/-- The end of `sys_open` once it holds the locked inode `ip`: a file and a descriptor. -/
def openInode (k : Kernel) (p : Caller) (ip : Fin NINODE) (omode : Nat) :
    Except String (Int × Kernel × Caller) :=
  match k.filealloc with
  | none => do
      let s ← k.fs.iunlockput ip
      let s ← s.endOp
      pure (-1, { k with fs := s }, p)
  | some (f, k₁) =>
      match p.fdalloc f with
      | none => do
          let k₂ ← k₁.fileclose f
          let s ← k₂.fs.iunlockput ip
          let s ← s.endOp
          pure (-1, { k₂ with fs := s }, p)
      | some (fd, p) => do
          let s ← k₁.fs.iunlock ip
          let s ← s.endOp
          let old := k₁.file f
          let new := { old with type := .inode, ip := ip, off := 0,
                                readable := omode &&& O_WRONLY = 0,
                                writable := omode &&& O_WRONLY ≠ 0 || omode &&& O_RDWR ≠ 0 }
          pure (fd, { k₁ with fs := s }.setFile f new, p)

/-- `sys_open()`. -/
def sysOpen (k : Kernel) (p : Caller) : Except String (Int × Kernel × Caller) :=
  match p.argstr 0, p.argint 1 with
  | some path, some omode =>
      let omode := toUint32 omode
      let s := k.fs.beginOp
      if omode &&& O_CREATE ≠ 0 then do
        let c ← s.create p.cwd path T_FILE 0 0
        match c.1 with
        | none => do
            let s ← c.2.endOp
            pure (-1, { k with fs := s }, p)
        | some ip => openInode { k with fs := c.2 } p ip omode
      else do
        let r ← s.namei p.cwd path
        match r.1 with
        | none => do
            let s ← r.2.endOp
            pure (-1, { k with fs := s }, p)
        | some ip => do
            let s ← r.2.ilock ip
            if (s.inode ip).type = T_DIR ∧ omode ≠ O_RDONLY then do
              let s ← s.iunlockput ip
              let s ← s.endOp
              pure (-1, { k with fs := s }, p)
            else openInode { k with fs := s } p ip omode
  | _, _ => .ok (-1, k, p)

/-- `sys_chdir()`: the caller's working directory becomes the directory named by the path. -/
def sysChdir (k : Kernel) (p : Caller) : Except String (Int × Kernel × Caller) :=
  let s := k.fs.beginOp
  match p.argstr 0 with
  | none => do
      let s ← s.endOp
      pure (-1, { k with fs := s }, p)
  | some path => do
      let r ← s.namei p.cwd path
      match r.1 with
      | none => do
          let s ← r.2.endOp
          pure (-1, { k with fs := s }, p)
      | some ip => do
          let s ← r.2.ilock ip
          if (s.inode ip).type ≠ T_DIR then do
            let s ← s.iunlockput ip
            let s ← s.endOp
            pure (-1, { k with fs := s }, p)
          else do
            let s ← s.iunlock ip
            let s ← s.iput p.cwd
            let s ← s.endOp
            pure (0, { k with fs := s }, { p with cwd := ip })

/-- `chdir` of a path that names nothing fails after its transaction ends. -/
theorem sysChdir_none {k : Kernel} {p : Caller} {path : List UInt8} {s s' : Fs}
    (hpath : p.argstr 0 = some path) (h : k.fs.beginOp.namei p.cwd path = .ok (none, s))
    (he : s.endOp = .ok s') : k.sysChdir p = .ok (-1, { k with fs := s' }, p) := by
  simp only [sysChdir, hpath, h, Except.ok_bind, he]
  rfl

/-- `sys_read()`: the result, the kernel, and the address and bytes `fileread` copied. -/
def sysRead (k : Kernel) (p : Caller) : Except String (Int × Kernel × Nat × List UInt8) :=
  match p.argfd 0, p.argint 2 with
  | some (_, f), some n =>
      match p.argptr 1 n with
      | some addr => do
          let r ← k.fileread f n
          pure (r.1, r.2.2, addr, r.2.1)
      | none => .ok (-1, k, 0, [])
  | _, _ => .ok (-1, k, 0, [])

/-- Once its arguments pass, `read` panics where `fileread` does. -/
theorem sysRead_of_fileread_error {k : Kernel} {p : Caller} {fd addr : Nat} {f : Fin NFILE}
    {n : Int} {e : String} (hfd : p.argfd 0 = some (fd, f)) (hn : p.argint 2 = some n)
    (hptr : p.argptr 1 n = some addr) (h : k.fileread f n = .error e) :
    k.sysRead p = .error e := by
  simp only [sysRead, hfd, hn, hptr, h]
  rfl

end Kernel

end Xv6

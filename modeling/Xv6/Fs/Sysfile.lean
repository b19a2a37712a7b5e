import Xv6.Fs.Syscall

/-!
# The calls that change the directory tree (`sysfile.c`)

`link`, `unlink`, `mkdir` and `mknod`, and `close`, which drops a descriptor. Each call that
touches the file system runs inside `begin_op` and `end_op`. The labels `bad:` of `sys_link`
and `sys_unlink` are the definitions `linkBad` and `unlinkBad`: every `goto bad` of the
source calls them with the state it has reached.
-/

namespace Xv6

/-- The `short` that an `int` becomes. -/
def toInt16 (i : Int) : Int := if i % 2 ^ 16 < 2 ^ 15 then i % 2 ^ 16 else i % 2 ^ 16 - 2 ^ 16

namespace Fs

/-- The loop of `isdirempty`: `false` at the first live entry. -/
def emptyDirFrom (s : Fs) (dp : Fin NINODE) : List Nat → Except String (Bool × Fs)
  | [] => .ok (true, s)
  | off :: offs => do
      let r ← s.readi dp off DIRENTSIZE
      if r.1 ≠ DIRENTSIZE then .error "isdirempty: readi"
      else if (Dirent.decode r.2.1).inum ≠ 0 then .ok (false, r.2.2)
      else emptyDirFrom r.2.2 dp offs

/-- `isdirempty(dp)`: the entries after `.` and `..` are all free. -/
def isdirempty (s : Fs) (dp : Fin NINODE) : Except String (Bool × Fs) :=
  s.emptyDirFrom dp ((dirOffsets (s.inode dp).size).drop 2)

end Fs

namespace Kernel

variable (k : Kernel) (p : Caller)

/-- `bad:` of `sys_link`: the link count taken on `ip` is given back. -/
def linkBad (s : Fs) (ip : Fin NINODE) : Except String (Int × Kernel × Caller) := do
  let s ← s.ilock ip
  let s ← (s.setInode ip { s.inode ip with nlink := (s.inode ip).nlink - 1 }).iupdate ip
  let s ← s.iunlockput ip
  let s ← s.endOp
  pure (-1, { k with fs := s }, p)

/-- `sys_link()`: the path `new` becomes a second name of the inode `old` names. -/
def sysLink : Except String (Int × Kernel × Caller) :=
  match p.argstr 0, p.argstr 1 with
  | some old, some new => do
      let r ← k.fs.beginOp.namei p.cwd old
      match r.1 with
      | none => do
          let s ← r.2.endOp
          pure (-1, { k with fs := s }, p)
      | some ip => do
          let s ← r.2.ilock ip
          if (s.inode ip).type = T_DIR then do
            let s ← s.iunlockput ip
            let s ← s.endOp
            pure (-1, { k with fs := s }, p)
          else do
            let s ← (s.setInode ip { s.inode ip with nlink := (s.inode ip).nlink + 1 }).iupdate ip
            let s ← s.iunlock ip
            let d ← s.nameiparent p.cwd new
            match d.1 with
            | none => linkBad k p d.2 ip
            | some (dp, name) => do
                let s ← d.2.ilock dp
                if (s.inode dp).dev ≠ (s.inode ip).dev then do
                  let s ← s.iunlockput dp
                  linkBad k p s ip
                else do
                  let l ← s.dirlink dp name (s.inode ip).inum
                  if l.1 < 0 then do
                    let s ← l.2.iunlockput dp
                    linkBad k p s ip
                  else do
                    let s ← l.2.iunlockput dp
                    let s ← s.iput ip
                    let s ← s.endOp
                    pure (0, { k with fs := s }, p)
  | _, _ => .ok (-1, k, p)

/-- `bad:` of `sys_unlink`: the parent is put back. -/
def unlinkBad (s : Fs) (dp : Fin NINODE) : Except String (Int × Kernel × Caller) := do
  let s ← s.iunlockput dp
  let s ← s.endOp
  pure (-1, { k with fs := s }, p)

/-- The end of `sys_unlink` once the entry at `off` of `dp` names the locked inode `ip`,
which is not a directory with entries: the entry is cleared and both link counts drop. -/
def unlinkEntry (s : Fs) (dp ip : Fin NINODE) (off : Nat) :
    Except String (Int × Kernel × Caller) := do
  let w ← s.writei dp (List.replicate DIRENTSIZE 0) off DIRENTSIZE
  if w.1 ≠ DIRENTSIZE then .error "unlink: writei"
  else do
    -- the entry `..` of a directory named its parent
    let s ← if (w.2.inode ip).type = T_DIR then
        (w.2.setInode dp { w.2.inode dp with nlink := (w.2.inode dp).nlink - 1 }).iupdate dp
      else pure w.2
    let s ← s.iunlockput dp
    let s ← (s.setInode ip { s.inode ip with nlink := (s.inode ip).nlink - 1 }).iupdate ip
    let s ← s.iunlockput ip
    let s ← s.endOp
    pure (0, { k with fs := s }, p)

/-- `sys_unlink()`. -/
def sysUnlink : Except String (Int × Kernel × Caller) :=
  match p.argstr 0 with
  | none => .ok (-1, k, p)
  | some path => do
      let r ← k.fs.beginOp.nameiparent p.cwd path
      match r.1 with
      | none => do
          let s ← r.2.endOp
          pure (-1, { k with fs := s }, p)
      | some (dp, name) => do
          let s ← r.2.ilock dp
          -- cannot unlink "." or ".."
          if Fs.namecmp name ['.'.toUInt8] = 0 ∨ Fs.namecmp name ['.'.toUInt8, '.'.toUInt8] = 0 then
            unlinkBad k p s dp
          else do
            let l ← s.dirlookup dp name
            match l.1 with
            | none => unlinkBad k p l.2 dp
            | some (ip, off) => do
                let s ← l.2.ilock ip
                if (s.inode ip).nlink < 1 then .error "unlink: nlink < 1"
                else do
                  let e ← if (s.inode ip).type = T_DIR then s.isdirempty ip else pure (true, s)
                  if e.1 then unlinkEntry k p e.2 dp ip off
                  else do
                    let s ← e.2.iunlockput ip
                    unlinkBad k p s dp

/-- The end that `sys_mkdir` and `sys_mknod` share once `create` has run: the new inode is
unlocked and put. -/
def createDone (c : Option (Fin NINODE) × Fs) : Except String (Int × Kernel × Caller) :=
  match c.1 with
  | none => do
      let s ← c.2.endOp
      pure (-1, { k with fs := s }, p)
  | some ip => do
      let s ← c.2.iunlockput ip
      let s ← s.endOp
      pure (0, { k with fs := s }, p)

/-- `sys_mkdir()`. -/
def sysMkdir : Except String (Int × Kernel × Caller) := do
  let s := k.fs.beginOp
  let c ← match p.argstr 0 with
    | none => pure (none, s)
    | some path => s.create p.cwd path T_DIR 0 0
  createDone k p c

/-- `sys_mknod()`: `create` takes the device numbers as `short`s. -/
def sysMknod : Except String (Int × Kernel × Caller) := do
  let s := k.fs.beginOp
  let c ← match p.argstr 0, p.argint 1, p.argint 2 with
    | some path, some major, some minor => s.create p.cwd path T_DEV (toInt16 major) (toInt16 minor)
    | _, _, _ => pure (none, s)
  createDone k p c

/-- `sys_close()`: the descriptor is cleared before the file is closed. -/
def sysClose : Except String (Int × Kernel × Caller) :=
  match p.argfd 0 with
  | none => .ok (-1, k, p)
  | some (fd, f) => do
      let k ← k.fileclose f
      pure (0, k, { p with ofile := fun i => if i.val = fd then none else p.ofile i })

end Kernel

end Xv6

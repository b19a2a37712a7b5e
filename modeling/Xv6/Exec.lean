import Xv6.Vm.Copy
import Xv6.Fs.Checkpoint

/-!
# `exec`

`exec(path, argv)` of `exec.c` reads the ELF header of the file at `path`, makes a new page
directory with `setupkvm`, and for each loadable program header grows the new address space
with `allocuvm` and reads the segment into it with `loaduvm`. It then adds two pages at the next
page boundary, the lower one made inaccessible to the user and the upper one the stack, copies
the argument strings and the array of their addresses onto the stack, and commits: the process
gets the new directory, size, entry point and stack pointer, and the old directory is freed.
Every failure jumps to `bad`, which frees the new directory if there is one and releases the
inode if it is still held, and returns `-1` with the process unchanged.

`setupkvm` returns `0` when it cannot have the page tables for the kernel's mappings, without
freeing the directory page it took: `exec` then has no directory to free, and the page is lost
(`exec_setupkvm_fails`). `loaduvm` panics on a segment whose `vaddr` is not page aligned, and
`exec` does not check it (`exec_unaligned_panics`).

The bytes of `elf` and `ph` that `readi` did not copy are zero here; in the kernel they are what
the stack held. `switchuvm`, which loads the new directory into the hardware, is not modelled.
-/

namespace Xv6

/-- `MAXARG`: the most arguments `exec` takes. -/
def MAXARG : Nat := 32

/-- `ELF_MAGIC`: `"\x7FELF"` in little endian. -/
def ELF_MAGIC : Nat := 0x464C457F

/-- The type of a loadable segment. -/
def ELF_PROG_LOAD : Nat := 1

/-- The little-endian `uint` at offset `i` of the bytes `b`. -/
def le32 (b : List UInt8) (i : Nat) : Nat :=
  (b.getD i 0).toNat + 256 * (b.getD (i + 1) 0).toNat + 65536 * (b.getD (i + 2) 0).toNat +
    16777216 * (b.getD (i + 3) 0).toNat

/-- The little-endian `ushort` at offset `i` of the bytes `b`. -/
def le16 (b : List UInt8) (i : Nat) : Nat := (b.getD i 0).toNat + 256 * (b.getD (i + 1) 0).toNat

/-- The four bytes of a `uint`, little-endian. -/
def u32bytes (v : Nat) : List UInt8 :=
  [UInt8.ofNat v, UInt8.ofNat (v / 256), UInt8.ofNat (v / 65536), UInt8.ofNat (v / 16777216)]

/-- The fields of `struct elfhdr` that `exec` reads. -/
structure Elfhdr where
  magic : Nat
  entry : Nat
  phoff : Nat
  phnum : Nat

namespace Elfhdr

/-- `sizeof(struct elfhdr)`. -/
def size : Nat := 52

def decode (b : List UInt8) : Elfhdr := ⟨le32 b 0, le32 b 24, le32 b 28, le16 b 44⟩

end Elfhdr

/-- The fields of `struct proghdr` that `exec` reads. -/
structure Proghdr where
  type : Nat
  off : Nat
  vaddr : Nat
  filesz : Nat
  memsz : Nat

namespace Proghdr

/-- `sizeof(struct proghdr)`. -/
def size : Nat := 32

def decode (b : List UInt8) : Proghdr := ⟨le32 b 0, le32 b 4, le32 b 8, le32 b 16, le32 b 20⟩

end Proghdr

/-- `strlen(s)`. -/
def strlen (s : List UInt8) : Nat := (s.takeWhile (· ≠ 0)).length

/-- `safestrcpy(dst, s, n)`: the bytes of `dst` before its NUL. -/
def safestrcpy (s : List UInt8) (n : Nat) : List UInt8 := (s.takeWhile (· ≠ 0)).take (n - 1)

/-- The loop of `exec` that finds the last element of the path: `last` is where it starts, `s`
what is left to scan. -/
def lastElem : List UInt8 → List UInt8 → List UInt8
  | last, [] => last
  | last, c :: s => if c = 0 then last else if c = '/'.toUInt8 then lastElem s s else lastElem last s

/-- The fields of `struct proc` that `exec` sets: the page directory, the size, the `eip` and
`esp` of the trap frame, and the name. -/
structure Uproc where
  pgdir : Nat
  sz : Nat
  eip : Nat
  esp : Nat
  name : List UInt8

namespace Kmem

/-- The loop of `loaduvm` from offset `i` of the segment: each page's bytes are read from the
file into the physical page that maps them. -/
def loadLoop (k : Kmem) (s : Fs) (pgdir addr : Nat) (ip : Fin NINODE) (offset sz i : Nat) :
    Except String (Int × Kmem × Fs) :=
  if i < sz then
    match k.walkpgdir pgdir ((addr + i) % 2 ^ 32) false with
    | (none, _) => .error "loaduvm: address should exist"
    | (some pte, k) =>
      let pa := PTE_ADDR (k.load pte)
      let n := if sz - i < PGSIZE then sz - i else PGSIZE
      match s.readi ip ((offset + i) % 2 ^ 32) n with
      | .error e => .error e
      | .ok (r, bytes, s) =>
        let k := k.write (p2v pa) bytes
        if toUint32 r ≠ n then .ok (-1, k, s)
        else k.loadLoop s pgdir addr ip offset sz (i + PGSIZE)
  else .ok (0, k, s)
termination_by sz - i
decreasing_by unfold PGSIZE; omega

/-- `loaduvm(pgdir, addr, ip, offset, sz)`. -/
def loaduvm (k : Kmem) (s : Fs) (pgdir addr : Nat) (ip : Fin NINODE) (offset sz : Nat) :
    Except String (Int × Kmem × Fs) :=
  if addr % PGSIZE ≠ 0 then .error "loaduvm: addr must be page aligned"
  else k.loadLoop s pgdir addr ip offset sz 0

/-- `clearpteu(pgdir, uva)`: `*pte &= ~PTE_U`. -/
def clearpteu (k : Kmem) (pgdir uva : Nat) : Except String Kmem :=
  match k.walkpgdir pgdir uva false with
  | (none, _) => .error "clearpteu"
  | (some pte, k) => .ok (k.store pte (k.load pte &&& (0xFFFFFFFF - PTE_U)))

/-- The loop of `exec` over the program headers, from header `i` at offset `off`, with an image
of `sz` bytes so far: `false` is a jump to `bad`. -/
def loadSegs (k : Kmem) (s : Fs) (pgdir : Nat) (ip : Fin NINODE) (phnum i off sz : Nat) :
    Except String (Bool × Nat × Kmem × Fs) :=
  if i < phnum then do
    let (r, bytes, s) ← s.readi ip off Proghdr.size
    if toUint32 r ≠ Proghdr.size then pure (false, sz, k, s)
    else
      let ph := Proghdr.decode bytes
      if ph.type ≠ ELF_PROG_LOAD then
        k.loadSegs s pgdir ip phnum (i + 1) ((off + Proghdr.size) % 2 ^ 32) sz
      else if ph.memsz < ph.filesz then pure (false, sz, k, s)
      else do
        let (sz, k) ← k.allocuvm pgdir sz ((ph.vaddr + ph.memsz) % 2 ^ 32)
        if sz = 0 then pure (false, sz, k, s)
        else do
          let (r, k, s) ← k.loaduvm s pgdir ph.vaddr ip ph.off ph.filesz
          if r < 0 then pure (false, sz, k, s)
          else k.loadSegs s pgdir ip phnum (i + 1) ((off + Proghdr.size) % 2 ^ 32) sz
  else pure (true, sz, k, s)
termination_by phnum - i

/-- The loop of `exec` that pushes the argument strings, from argument `argc` on, below `sp`:
the stack pointer, the addresses pushed, in order, and `false` for a jump to `bad`. -/
def pushArgs (k : Kmem) (pgdir : Nat) : List (List UInt8) → Nat → Nat → List Nat →
    Except String (Bool × Nat × List Nat × Kmem)
  | [], _, sp, ustack => .ok (true, sp, ustack, k)
  | arg :: argv, argc, sp, ustack =>
    if argc ≥ MAXARG then .ok (false, sp, ustack, k)
    else
      -- `(sp - (strlen(argv[argc]) + 1)) & ~3`
      let sp := (sp + 2 ^ 32 - (strlen arg + 1)) % 2 ^ 32 / 4 * 4
      do
        let (r, k) ← k.copyout pgdir sp (arg.takeWhile (· ≠ 0) ++ [0])
        if r < 0 then pure (false, sp, ustack, k)
        else k.pushArgs pgdir argv (argc + 1) sp (ustack ++ [sp])

/-- `bad:` of `exec`: free the new directory if there is one, release the inode if it is still
held, and return `-1`. -/
def execBad (k : Kmem) (s : Fs) (pgdir : Option Nat) (ip : Option (Fin NINODE)) (p : Uproc) :
    Except String (Int × Kmem × Fs × Uproc) := do
  let k ← match pgdir with
    | none => pure k
    | some pgdir => k.freevm pgdir
  match ip with
  | none => pure (-1, k, s, p)
  | some ip => do
    let s ← s.iunlockput ip
    let s ← s.endOp
    pure (-1, k, s, p)

/-- The end of `exec`, from the allocation of the stack: `sz` is the size of the loaded image,
and the inode is released. -/
def execStack (k : Kmem) (s : Fs) (p : Uproc) (pgdir sz entry : Nat) (path : List UInt8)
    (argv : List (List UInt8)) : Except String (Int × Kmem × Fs × Uproc) := do
  -- two pages at the next page boundary: the lower one inaccessible, the upper one the stack
  let sz := PGROUNDUP sz
  let (sz, k) ← k.allocuvm pgdir sz ((sz + 2 * PGSIZE) % 2 ^ 32)
  if sz = 0 then k.execBad s (some pgdir) none p
  else do
    let k ← k.clearpteu pgdir ((sz + 2 ^ 32 - 2 * PGSIZE) % 2 ^ 32)
    -- the argument strings, and the rest of the stack in `ustack`
    let (ok, sp, args, k) ← k.pushArgs pgdir argv 0 sz []
    if !ok then k.execBad s (some pgdir) none p
    else do
      let argc := args.length
      let ustack := [0xFFFFFFFF, argc, (sp + 2 ^ 32 - (argc + 1) * 4) % 2 ^ 32] ++ args ++ [0]
      let sp := (sp + 2 ^ 32 - (3 + argc + 1) * 4) % 2 ^ 32
      let (r, k) ← k.copyout pgdir sp (ustack.flatMap u32bytes)
      if r < 0 then k.execBad s (some pgdir) none p
      else do
        -- commit to the user image
        let k ← k.freevm p.pgdir
        pure (0, k, s, ⟨pgdir, sz, entry, sp, safestrcpy (lastElem path path) 16⟩)

/-- The middle of `exec`, once the ELF header `elf` of the locked inode `ip` is read and
checked: the new directory, and the program loaded into it. -/
def execLoad (k : Kmem) (s : Fs) (p : Uproc) (ip : Fin NINODE) (elf : Elfhdr)
    (path : List UInt8) (argv : List (List UInt8)) : Except String (Int × Kmem × Fs × Uproc) := do
  let (pgdir, k) ← k.setupkvm
  match pgdir with
  | none => k.execBad s none (some ip) p
  | some pgdir => do
    let (ok, sz, k, s) ← k.loadSegs s pgdir ip elf.phnum 0 elf.phoff 0
    if !ok then k.execBad s (some pgdir) (some ip) p
    else do
      let s ← s.iunlockput ip
      let s ← s.endOp
      k.execStack s p pgdir sz elf.entry path argv

/-- `exec(path, argv)` by the process `p` with working directory `cwd`. -/
def exec (k : Kmem) (s : Fs) (p : Uproc) (cwd : Fin NINODE) (path : List UInt8)
    (argv : List (List UInt8)) : Except String (Int × Kmem × Fs × Uproc) := do
  let s := s.beginOp
  let (ip, s) ← s.namei cwd path
  match ip with
  | none => do
    let s ← s.endOp
    pure (-1, k, s, p)
  | some ip => do
    let s ← s.ilock ip
    -- check the ELF header
    let (r, bytes, s) ← s.readi ip 0 Elfhdr.size
    let elf := Elfhdr.decode bytes
    if toUint32 r < Elfhdr.size then k.execBad s none (some ip) p
    else if elf.magic ≠ ELF_MAGIC then k.execBad s none (some ip) p
    else k.execLoad s p ip elf path argv

/-! ## The failures of `setupkvm` and `loaduvm` -/

section Steps

variable {k k' : Kmem} {s s' s1 s2 s3 s4 s5 : Fs} {p : Uproc} {cwd ip : Fin NINODE}
  {path : List UInt8} {argv : List (List UInt8)} {r : Int} {bytes : List UInt8} {elf : Elfhdr}
  {pgdir : Nat}

theorem execBad_inode :
    k.execBad s none (some ip) p = (do
      let s ← s.iunlockput ip
      let s ← s.endOp
      pure (-1, k, s, p)) := rfl

/-- Past an ELF header read whole and with the right magic, `exec` is `execLoad`. -/
theorem exec_of_elf (hn : s.beginOp.namei cwd path = .ok (some ip, s1))
    (hl : s1.ilock ip = .ok s2) (hr : s2.readi ip 0 Elfhdr.size = .ok (r, bytes, s3))
    (hr' : Elfhdr.size ≤ toUint32 r) (hmag : (Elfhdr.decode bytes).magic = ELF_MAGIC) :
    k.exec s p cwd path argv = k.execLoad s3 p ip (Elfhdr.decode bytes) path argv := by
  rw [exec]
  simp only [hn, Except.ok_bind]
  rw [hl, Except.ok_bind, hr, Except.ok_bind]
  dsimp only
  rw [if_neg (by omega), if_neg (not_not.2 hmag)]

theorem execLoad_of_setupkvm_none (hs : k.setupkvm = .ok (none, k')) :
    k.execLoad s p ip elf path argv = k'.execBad s none (some ip) p := by
  rw [execLoad, hs, Except.ok_bind]

theorem execLoad_of_loadSegs_error {e : String} (hs : k.setupkvm = .ok (some pgdir, k'))
    (hl : k'.loadSegs s pgdir ip elf.phnum 0 elf.phoff 0 = .error e) :
    k.execLoad s p ip elf path argv = .error e := by
  rw [execLoad, hs, Except.ok_bind]
  dsimp only
  rw [hl]
  rfl

/-- With one free page, `setupkvm` takes it for the directory and then fails: `exec` returns
`-1`, and the page is no longer free. -/
theorem exec_setupkvm_fails {m : Nat} (hn : s.beginOp.namei cwd path = .ok (some ip, s1))
    (hl : s1.ilock ip = .ok s2) (hr : s2.readi ip 0 Elfhdr.size = .ok (r, bytes, s3))
    (hr' : Elfhdr.size ≤ toUint32 r) (hmag : (Elfhdr.decode bytes).magic = ELF_MAGIC)
    (hfl : k.freelist = [m]) (hm : KERNBASE ≤ m) (hm' : m < KERNBASE + PHYSTOP)
    (hu : s3.iunlockput ip = .ok s4) (he : s4.endOp = .ok s5) :
    ∃ k', k.exec s p cwd path argv = .ok (-1, k', s5, p) ∧ k'.free = 0 := by
  obtain ⟨k', hs, hfree⟩ := setupkvm_one_free hfl hm hm'
  refine ⟨k', ?_, hfree⟩
  rw [exec_of_elf hn hl hr hr' hmag, execLoad_of_setupkvm_none hs, execBad_inode, hu,
    Except.ok_bind, he, Except.ok_bind]
  rfl

/-- A loadable segment whose `vaddr` is not page aligned, once `allocuvm` has grown the image
for it, makes `loaduvm` panic. -/
theorem loadSegs_unaligned {phnum i off sz sz' : Nat} {phb : List UInt8} {ph : Proghdr}
    (hi : i < phnum) (hrp : s.readi ip off Proghdr.size = .ok (r, phb, s'))
    (hr : toUint32 r = Proghdr.size) (hph : Proghdr.decode phb = ph)
    (ht : ph.type = ELF_PROG_LOAD) (hfm : ph.filesz ≤ ph.memsz)
    (ha : k.allocuvm pgdir sz ((ph.vaddr + ph.memsz) % 2 ^ 32) = .ok (sz', k'))
    (hsz : sz' ≠ 0) (hal : ph.vaddr % PGSIZE ≠ 0) :
    k.loadSegs s pgdir ip phnum i off sz = .error "loaduvm: addr must be page aligned" := by
  rw [loadSegs, if_pos hi, hrp, Except.ok_bind]
  dsimp only
  rw [if_neg (by omega), hph, if_neg (by omega), if_neg (by omega), ha, Except.ok_bind]
  dsimp only
  rw [if_neg hsz, loaduvm, if_pos hal]
  rfl

/-- `exec` does not check that a segment is page aligned: the first one that is not makes
the kernel panic. -/
theorem exec_unaligned_panics {phb : List UInt8} {ph : Proghdr} {r' : Int} {sz : Nat} {k1 : Kmem}
    (hn : s.beginOp.namei cwd path = .ok (some ip, s1)) (hl : s1.ilock ip = .ok s2)
    (hr : s2.readi ip 0 Elfhdr.size = .ok (r, bytes, s3)) (hr' : Elfhdr.size ≤ toUint32 r)
    (hmag : (Elfhdr.decode bytes).magic = ELF_MAGIC) (hs : k.setupkvm = .ok (some pgdir, k'))
    (hnum : 0 < (Elfhdr.decode bytes).phnum)
    (hrp : s3.readi ip (Elfhdr.decode bytes).phoff Proghdr.size = .ok (r', phb, s4))
    (hr2 : toUint32 r' = Proghdr.size) (hph : Proghdr.decode phb = ph)
    (ht : ph.type = ELF_PROG_LOAD) (hfm : ph.filesz ≤ ph.memsz)
    (ha : k'.allocuvm pgdir 0 ((ph.vaddr + ph.memsz) % 2 ^ 32) = .ok (sz, k1)) (hsz : sz ≠ 0)
    (hal : ph.vaddr % PGSIZE ≠ 0) :
    k.exec s p cwd path argv = .error "loaduvm: addr must be page aligned" := by
  rw [exec_of_elf hn hl hr hr' hmag]
  exact execLoad_of_loadSegs_error hs (loadSegs_unaligned hnum hrp hr2 hph ht hfm ha hsz hal)

/-! ## The argument strings -/

/-- The first argument string goes at `(sp - (strlen(argv[0]) + 1)) & ~3` as a `uint`: where the
directory has no page table there, `copyout` reads through the null pointer. -/
theorem pushArgs_absent {arg : List UInt8} {sp : Nat}
    (h : k.load (pgdir + 4 * PDX (PGROUNDDOWN ((sp + 2 ^ 32 - (strlen arg + 1)) % 2 ^ 32 / 4 * 4)))
      &&& PTE_P = 0) :
    k.pushArgs pgdir (arg :: argv) 0 sp [] = .error "uva2ka: *pte with pte = 0" := by
  rw [pushArgs, if_neg (by decide)]
  dsimp only
  rw [copyout_absent (by simp) h]
  rfl

/-- The stack is allocated and its guard page made inaccessible; an error of the loop over the
arguments is `exec`'s. -/
theorem execStack_of_pushArgs_error {sz sz' entry : Nat} {k₁ k₂ : Kmem} {e : String}
    (ha : k.allocuvm pgdir (PGROUNDUP sz) ((PGROUNDUP sz + 2 * PGSIZE) % 2 ^ 32) = .ok (sz', k₁))
    (hsz : sz' ≠ 0) (hc : k₁.clearpteu pgdir ((sz' + 2 ^ 32 - 2 * PGSIZE) % 2 ^ 32) = .ok k₂)
    (hp : k₂.pushArgs pgdir argv 0 sz' [] = .error e) :
    k.execStack s p pgdir sz entry path argv = .error e := by
  rw [execStack]
  simp only [ha, Except.ok_bind]
  rw [if_neg hsz, hc, Except.ok_bind, hp]
  rfl

end Steps

end Kmem

/-- A disk whose root directory has one entry, `init`, for inode `2`: a file of `52` bytes,
an ELF header with no program header. -/
def initImage : Image where
  dinode := fun i =>
    if i = ROOTINO then ⟨T_DIR, 0, 0, 1, DIRENTSIZE, fun j => if j = 0 then 60 else 0⟩
    else if i = 2 then ⟨T_FILE, 0, 0, 1, Elfhdr.size, fun j => if j = 0 then 61 else 0⟩
    else Dinode.zero
  bitmap := fun _ => false
  data := fun b =>
    if b = 60 then Block.zero.write 0 (Dirent.encode ⟨2, strncpy (cstr "init") DIRSIZ⟩)
    else if b = 61 then Block.zero.write 0 (u32bytes ELF_MAGIC)
    else Block.zero

/-- `sh`, with the one-page image of `Kmem.onePage`. -/
def shProc : Uproc := ⟨KERNBASE + 0x400000, 0x1000, 0, 0x1000, cstr "sh"⟩

/-- `exec("init", ["init"])` from the root, with one free page: `-1`, and no free page left. -/
theorem exec_loses_page :
    Kmem.onePageOneFree.free = 1 ∧
      ((Kmem.onePageOneFree.exec (Fs.init Mkfs.sb (fun _ => ⟨none, none⟩) initImage) shProc
        rootSlot (cstr "init") [cstr "init"]).map fun r => (r.1, r.2.1.free)) = .ok (-1, 0) := by
  decide +kernel

/-- Zeroed memory with the empty directory of `blankDir` and three free pages: the stack, its
guard page and their page table. -/
def Kmem.threeFree : Kmem :=
  { Kmem.blankDir with
    freelist := [KERNBASE + 0x500000, KERNBASE + 0x501000, KERNBASE + 0x502000] }

/-- A program with no loadable segment, run with one argument of `0x2100000` bytes: the stack
pointer goes to `0x2000 - 0x2100001`, which wraps to `0xFDF01FFC`, a page in the gap between the
kernel's memory and `DEVSPACE` that no directory maps. `exec` does not return `-1` there: it
reads through the null pointer. -/
theorem execStack_long_argument (s : Fs) (p : Uproc) (entry : Nat) (path : List UInt8) :
    Kmem.threeFree.execStack s p (KERNBASE + 0x400000) 0 entry path
      [List.replicate 0x2100000 0x41] = .error "uva2ka: *pte with pte = 0" := by
  -- the two pages and the guard page, run; the gap's directory entry is still empty after them
  have hrun : (do
      let (sz, k₁) ← Kmem.threeFree.allocuvm (KERNBASE + 0x400000) 0 (2 * PGSIZE)
      let k₂ ← k₁.clearpteu (KERNBASE + 0x400000) 0
      pure (sz, k₂.load (KERNBASE + 0x400000 + 4 * 1015) &&& PTE_P) :
        Except String (Nat × Nat)) = .ok (0x2000, 0) := by
    decide +kernel
  obtain ⟨⟨sz, k₁⟩, ha, hrest⟩ := Except.bind_eq_ok_iff.1 hrun
  obtain ⟨k₂, hc, hpure⟩ := Except.bind_eq_ok_iff.1 hrest
  obtain ⟨rfl, habs⟩ := Prod.mk.inj (Except.pure_eq_ok_iff.1 hpure)
  -- the string's length by rewriting: `simp` would build the list
  have hlen : strlen (List.replicate 0x2100000 (0x41 : UInt8)) = 0x2100000 := by
    have hc : decide ((0x41 : UInt8) ≠ 0) = true := by decide
    rw [strlen, List.takeWhile_replicate, if_pos hc, List.length_replicate]
  refine Kmem.execStack_of_pushArgs_error ha (by decide) hc (Kmem.pushArgs_absent ?_)
  rw [hlen]
  exact habs

end Xv6

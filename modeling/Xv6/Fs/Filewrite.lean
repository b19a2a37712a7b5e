import Xv6.Fs.WriteOk
import Xv6.Fs.Syscall

/-!
# Writes through a shared file

Processes that share one `struct file` (through `fork` or `dup`) call `filewrite` on it. A call
writes its `n` bytes in rounds of at most `max` bytes, and each round is a transaction:
`begin_op`, then, holding the inode's lock, `writei` at `f->off` and `f->off += r`, then
`end_op`. The holds of the inode's lock exclude each other, and `f->off` is read and moved
only under it, so a hold is one step; the `begin_op` and `end_op` of the calls are steps of
their own, and all of them interleave in any order.

A run keeps a history the code does not: `chunks`, each chunk `writei` accepted, with the call
that wrote it, the offset it was written at and its bytes, in the order of the holds. In every
reachable state from an empty file opened at offset `0` (`FileRun.Inv`, `FileRun.inv_of_reachable`)
the file holds the chunks one after the other: each was written where the previous ended,
`f->off` and the size are their total length, the content is their concatenation, and the
chunks of each call are the first bytes of its buffer, in order.
-/

namespace Xv6

namespace Fs

variable {s s' : Fs} {ip : Fin NINODE}

/-- The file `ip` holds the bytes `c`, laid out as `writei` needs: its layout is kept, every
block below its size is mapped, it is no device, and it stays in the cache. -/
structure Stores (s : Fs) (ip : Fin NINODE) (c : List UInt8) : Prop where
  fileOk : s.FileOk ip
  mapped : s.Mapped ip (s.inode ip).size
  content : s.content ip = c
  notDev : (s.inode ip).type ≠ T_DEV
  valid : (s.inode ip).valid = true
  ref : 1 ≤ (s.inode ip).ref
  sbSize : s.sb.size ≤ 2 ^ 32

theorem Stores.size {c : List UInt8} (h : s.Stores ip c) : (s.inode ip).size = c.length := by
  rw [← h.content, Fs.content, List.length_map, List.length_range]

/-- What leaves the blocks alone and changes at most the lock of `ip` keeps what it holds. -/
theorem Stores.congr {c : List UInt8} (h : s.Stores ip c) (hmem : s'.mem = s.mem)
    (hsb : s'.sb = s.sb) (hi : s'.inode ip = { s.inode ip with busy := (s'.inode ip).busy }) :
    s'.Stores ip c := by
  have ha : (s'.inode ip).addrs = (s.inode ip).addrs := by rw [hi]
  have hsize : (s'.inode ip).size = (s.inode ip).size := by rw [hi]
  have hblk : s'.blockOf ip = s.blockOf ip := blockOf_congr ha (by rw [hmem])
  refine ⟨h.fileOk.congr hblk (by rw [hmem]) (by rw [ha]) (hsize ▸ h.fileOk.size), ?_, ?_,
    by rw [hi]; exact h.notDev, by rw [hi]; exact h.valid, by rw [hi]; exact h.ref,
    hsb ▸ h.sbSize⟩
  · intro bn hbn
    rw [hblk]
    exact h.mapped bn (hsize ▸ hbn)
  · rw [← h.content, Fs.content, Fs.content, hsize, byteAt_congr ha (by rw [hmem])]

theorem Stores.beginOp {c : List UInt8} (h : s.Stores ip c) : s.beginOp.Stores ip c :=
  h.congr rfl rfl rfl

/-- `end_op` installs the log on the disk and keeps the cache of blocks and inodes. -/
theorem Stores.endOp {c : List UInt8} (h : s.Stores ip c) (he : s.endOp = .ok s') :
    s'.Stores ip c := by
  rw [Fs.endOp, Except.bind_eq_ok_iff] at he
  obtain ⟨r, -, he⟩ := he
  split_ifs at he
  · cases he
    unfold commit
    split_ifs
    · exact h.congr rfl rfl rfl
    · exact h.congr rfl rfl rfl
  · cases he
    exact h.congr rfl rfl rfl

/-- `ilock` of the cached inode only marks it busy. -/
theorem Stores.ilock {c : List UInt8} (h : s.Stores ip c) (he : s.ilock ip = .ok s') :
    s'.Stores ip c := by
  rw [Fs.ilock, if_neg (not_lt.mpr h.ref), if_pos h.valid] at he
  cases he
  exact h.congr rfl rfl (by simp)

theorem Stores.iunlock {c : List UInt8} (h : s.Stores ip c) (he : s.iunlock ip = .ok s') :
    s'.Stores ip c := by
  rw [Fs.iunlock] at he
  split_ifs at he
  cases he
  exact h.congr rfl rfl (by simp)

/-- The loop of `writei` reads only the first `n` bytes of its source. -/
theorem writeLoop_take (s : Fs) (ip : Fin NINODE) (src : List UInt8) (n off tot : Nat) :
    writeLoop s ip (src.take n) n off tot = writeLoop s ip src n off tot := by
  induction s, off, tot using writeLoop.induct n with
  | case1 s off tot htot ih =>
    -- the round copies at most `n - tot` bytes from `tot` on
    have hsrc : ((src.take n).drop tot).take (min (n - tot) (BSIZE - off % BSIZE)) =
        (src.drop tot).take (min (n - tot) (BSIZE - off % BSIZE)) := by
      rw [List.drop_take, List.take_take, min_eq_left (min_le_left _ _)]
    rw [writeLoop, writeLoop, if_pos htot, if_pos htot]
    simp only [hsrc, ih]
  | case2 s off tot htot =>
    rw [writeLoop, writeLoop, if_neg htot, if_neg htot]

/-- `writei` of a file reads only the first `n` bytes of its source. -/
theorem writei_take (ht : (s.inode ip).type ≠ T_DEV) (src : List UInt8) (off n : Nat) :
    s.writei ip (src.take n) off n = s.writei ip src off n := by
  unfold writei
  rw [if_neg ht, if_neg ht, writeLoop_take]

/-- A `writei` of `n` bytes of `src` at the end of the file, that returned: it wrote them and
returned `n` when they end within `MAXFILE` blocks, and returned `-1` and changed nothing
otherwise. -/
theorem Stores.writei {c src : List UInt8} {n : Nat} {r : Int} (h : s.Stores ip c)
    (hn : n ≤ src.length) (h32 : c.length + n < 2 ^ 32)
    (hw : s.writei ip src c.length n = .ok (r, s')) :
    (r = n ∧ s'.Stores ip (c ++ src.take n)) ∨ (r = -1 ∧ s' = s) := by
  have hlen : (src.take n).length = n := List.length_take_of_le hn
  by_cases hmax : c.length + n ≤ MAXFILE * BSIZE
  · have hw' : s.writei ip (src.take n) c.length (src.take n).length = .ok (r, s') := by
      rw [hlen, writei_take h.notDev]
      exact hw
    obtain ⟨hr, hc, -, hok, hmap, hsb, hkeep, -, -⟩ :=
      writei_eq_ok h.fileOk h.mapped h.notDev (h.size ▸ le_rfl) (by rw [hlen]; exact hmax)
        h.sbSize hw'
    -- `writei` keeps the fields of the inode other than its size and addresses
    have hshape := hkeep.shape
    refine .inl ⟨by rw [hr, hlen], hok, hmap, ?_, ?_, ?_, ?_, hsb ▸ h.sbSize⟩
    · rw [hc, h.content, List.take_length, List.drop_eq_nil_of_le (by simp), List.append_nil]
    · exact (congrArg Inode.type hshape).trans_ne h.notDev
    · exact (congrArg Inode.valid hshape).trans h.valid
    · exact (congrArg Inode.ref hshape).symm ▸ h.ref
  · have hu : u32add c.length n = c.length + n := Nat.mod_eq_of_lt h32
    rw [Fs.writei, if_neg h.notDev, if_neg (by rw [hu, h.size]; omega),
      if_pos (by rw [hu]; omega)] at hw
    cases hw
    exact .inr ⟨rfl, rfl⟩

end Fs

/-- `(uint) n` of a number below `2^32` is the number. -/
theorem toUint32_of_lt {n : Nat} (h : n < 2 ^ 32) : toUint32 n = n := by
  unfold toUint32
  omega

/-- `max` in `filewrite`: the bytes one transaction writes at most, so that the blocks it
logs (the data, the inode, the indirect block, the bitmap, and two for a write that is not
aligned) fit in the log. -/
def filewriteMax : Nat := ((LOGSIZE - 1 - 1 - 2) / 2) * 512

/-- `n1` of `filewrite`'s loop after `i` of the bytes `src`: `n - i`, at most `max`. -/
def chunkLen (src : List UInt8) (i : Nat) : Nat := min (src.length - i) filewriteMax

/-- `return i == n ? n : -1` at the end of `filewrite`. -/
def filewriteRet (i n : Nat) : Int := if i = n then n else -1

namespace Kernel

/-- A hold of the inode's lock in `filewrite`'s loop, after `i` of the bytes `src`: `ilock`,
`writei` of the next `n1` bytes at `f->off`, `f->off += r` when it wrote, and `iunlock`. The
result is `writei`'s. -/
def writeChunk (k : Kernel) (f : Fin NFILE) (src : List UInt8) (i : Nat) :
    Except String (Int × Kernel) := do
  let file := k.file f
  let s ← k.fs.ilock file.ip
  let r ← s.writei file.ip (src.drop i) file.off (chunkLen src i)
  let off := if 0 < r.1 then toUint32 (file.off + r.1) else file.off
  let s ← r.2.iunlock file.ip
  pure (r.1, { k with fs := s }.setFile f { file with off := off })

theorem chunkLen_add_lt {c : List UInt8} (hc : c.length ≤ MAXFILE * BSIZE) (src : List UInt8)
    (i : Nat) : c.length + chunkLen src i < 2 ^ 32 := by
  have hmax : chunkLen src i ≤ filewriteMax := min_le_right _ _
  have hb : MAXFILE * BSIZE + filewriteMax < 2 ^ 32 := by decide
  omega

/-- A hold of the lock at the end of a file that holds `c`, which returned: the bytes `d` it
added are the next `n1` bytes of the buffer, and it returned their number, or it added none
and returned `-1`; `f->off` moved to the new end. -/
theorem writeChunk_eq_ok {k k' : Kernel} {f : Fin NFILE} {ip : Fin NINODE} {c src : List UInt8}
    {i : Nat} {r : Int} (h : k.fs.Stores ip c) (hip : (k.file f).ip = ip)
    (hoff : (k.file f).off = c.length) (hw : k.writeChunk f src i = .ok (r, k')) :
    ∃ d : List UInt8, ((r = d.length ∧ d = (src.drop i).take (chunkLen src i)) ∨
        (r = -1 ∧ d = [])) ∧
      k'.fs.Stores ip (c ++ d) ∧
      k'.file = Function.update k.file f { k.file f with off := c.length + d.length } := by
  subst hip
  rw [writeChunk, hoff, Except.bind_eq_ok_iff] at hw
  obtain ⟨s₁, hl, hw⟩ := hw
  rw [Except.bind_eq_ok_iff] at hw
  obtain ⟨⟨r', s₂⟩, hwr, hw⟩ := hw
  rw [Except.bind_eq_ok_iff] at hw
  obtain ⟨s₃, hu, hw⟩ := hw
  cases hw
  have h₁ := h.ilock hl
  have hn : chunkLen src i ≤ (src.drop i).length := by
    rw [List.length_drop]
    exact min_le_left _ _
  have h32 := chunkLen_add_lt (h.size ▸ h.fileOk.size) src i
  rcases h₁.writei hn h32 hwr with ⟨rfl, h₂⟩ | ⟨rfl, rfl⟩
  · refine ⟨(src.drop i).take (chunkLen src i), .inl ⟨by rw [List.length_take_of_le hn], rfl⟩,
      h₂.iunlock hu, ?_⟩
    rw [List.length_take_of_le hn]
    -- `f->off += r` when `r > 0`, and `r = 0` adds nothing
    by_cases hpos : 0 < chunkLen src i
    · have hpos' : (0 : Int) < chunkLen src i := by exact_mod_cast hpos
      rw [if_pos hpos', ← Nat.cast_add, toUint32_of_lt h32]
      rfl
    · have hpos' : ¬(0 : Int) < chunkLen src i := by exact_mod_cast hpos
      rw [if_neg hpos', Nat.eq_zero_of_not_pos hpos, Nat.add_zero]
      rfl
  · refine ⟨[], .inr ⟨rfl, rfl⟩, by rw [List.append_nil]; exact h₁.iunlock hu, ?_⟩
    have hneg : ¬(0 : Int) < -1 := by decide
    rw [if_neg hneg, List.length_nil, Nat.add_zero]
    rfl

/-- A hold of the lock at the end of a file that holds `c` returns when the next `n1` bytes
fit in the file, the log and the free blocks: `writei` writes them all, and the log keeps its
count of operations in progress. -/
theorem writeChunk_of_room {k : Kernel} {f : Fin NFILE} {ip : Fin NINODE} {c src : List UInt8}
    {i : Nat} (h : k.fs.Stores ip c) (hip : (k.file f).ip = ip)
    (hoff : (k.file f).off = c.length) (hmax : c.length + chunkLen src i ≤ MAXFILE * BSIZE)
    (hbpb : k.fs.sb.size ≤ BPB)
    (hfits : k.fs.log.Fits [] (Fs.blocksTouched c.length (chunkLen src i) + 3))
    (hfree : Fs.blocksTouched c.length (chunkLen src i) + 1 ≤ k.fs.freeCount) :
    ∃ k', k.writeChunk f src i = .ok (chunkLen src i, k') ∧
      k'.fs.log.outstanding = k.fs.log.outstanding ∧ k'.fs.log.committing = k.fs.log.committing := by
  subst hip
  have hn : chunkLen src i ≤ (src.drop i).length := by
    rw [List.length_drop]
    exact min_le_left _ _
  have hlen : ((src.drop i).take (chunkLen src i)).length = chunkLen src i :=
    List.length_take_of_le hn
  -- `ilock`: the inode is referenced and valid
  have hl : k.fs.ilock (k.file f).ip =
      .ok (k.fs.setInode (k.file f).ip { k.fs.inode (k.file f).ip with busy := true }) := by
    rw [Fs.ilock, if_neg (not_lt.mpr h.ref), if_pos h.valid]
  have h₁ := h.ilock hl
  obtain ⟨s₂, hw, -⟩ := Fs.writei_of_room h₁.fileOk h₁.mapped h₁.notDev h₁.size.ge
    (by rw [hlen]; exact hmax) hbpb (by rw [hlen]; exact hfits) (by rw [hlen]; exact hfree)
  obtain ⟨-, -, -, -, -, -, hkeep, hgrow, -⟩ := Fs.writei_eq_ok h₁.fileOk h₁.mapped h₁.notDev
    h₁.size.ge (by rw [hlen]; exact hmax) h₁.sbSize hw
  rw [hlen, Fs.writei_take h₁.notDev] at hw
  -- `writei` keeps the lock and the reference of the inode: `iunlock` returns
  have hbusy : (s₂.inode (k.file f).ip).busy = true := by
    exact (congrArg Inode.busy hkeep.shape).trans (by simp [Inode.shape])
  have href : 1 ≤ (s₂.inode (k.file f).ip).ref := by
    have hr : (s₂.inode (k.file f).ip).ref = (k.fs.inode (k.file f).ip).ref :=
      (congrArg Inode.ref hkeep.shape).trans (by simp [Inode.shape])
    rw [hr]
    exact h.ref
  have hu : s₂.iunlock (k.file f).ip =
      .ok (s₂.setInode (k.file f).ip { s₂.inode (k.file f).ip with busy := false }) := by
    rw [Fs.iunlock, if_neg (by simp [hbusy, href])]
  apply Exists.intro
  refine ⟨?_, ?_, ?_⟩
  · rw [writeChunk, hoff, hl]
    simp only [bind, Except.bind, hw, hu]
    rfl
  · exact hgrow.outstanding
  · exact hgrow.committing

end Kernel

/-- Where a call of `filewrite` stands: not begun; at the test of its loop after `i` bytes; in
a transaction, before the inode's lock; in a transaction after the hold of the lock, `writei`
having returned `r`; or returned `r`. -/
inductive FileCall where
  | ready
  | loop (i : Nat)
  | inOp (i : Nat)
  | wrote (i : Nat) (r : Int)
  | returned (i : Nat) (r : Int)
  deriving DecidableEq, Repr

namespace FileCall

/-- The bytes of its buffer the call has written: those of the rounds it finished, and those of
a round whose transaction has yet to end. -/
def pos : FileCall → Nat
  | ready => 0
  | loop i => i
  | inOp i => i
  | wrote i r => i + r.toNat
  | returned i _ => i

/-- What a call that returned may have returned: `i == n ? n : -1`, or `-1` from a file not
open for writing. -/
def Ret (n : Nat) : FileCall → Prop
  | returned i r => r = filewriteRet i n ∨ r = -1
  | _ => True

end FileCall

/-- A chunk `writei` accepted: the call that wrote it, the offset `f->off` it was written at,
and its bytes. -/
structure Chunk (ι : Type*) where
  call : ι
  off : Nat
  data : List UInt8

/-- The chunks are written one after the other: each at the total length of those before it. -/
def Adjacent {ι : Type*} (cs : List (Chunk ι)) : Prop :=
  ∀ j (h : j < cs.length), cs[j].off = ((cs.take j).map Chunk.data).flatten.length

theorem Adjacent.nil {ι : Type*} : Adjacent ([] : List (Chunk ι)) := fun _ h => absurd h (by simp)

theorem Adjacent.append {ι : Type*} {cs : List (Chunk ι)} (h : Adjacent cs) {xs : List (Chunk ι)}
    (hxs : ∀ x ∈ xs, x.off = (cs.map Chunk.data).flatten.length) (hlen : xs.length ≤ 1) :
    Adjacent (cs ++ xs) := by
  intro j hj
  by_cases hjc : j < cs.length
  · rw [List.getElem_append_left hjc, List.take_append_of_le_length hjc.le]
    exact h j hjc
  · -- the one chunk added starts at the end of those before it
    have hj' : j = cs.length := by
      rw [List.length_append] at hj
      omega
    subst hj'
    rw [List.getElem_append_right (le_refl _), List.take_left' rfl]
    exact hxs _ (List.getElem_mem _)

/-- A kernel, the `filewrite` calls of a family indexed by `ι` on one file, and the chunks
written so far, in the order of the holds of the inode's lock. -/
structure FileRun (ι : Type*) where
  k : Kernel
  calls : ι → FileCall
  chunks : List (Chunk ι)

namespace FileRun

variable {ι : Type*} (src : ι → List UInt8) (f : Fin NFILE)

/-- A run starts with no call begun. -/
def init (k : Kernel) : FileRun ι := { k := k, calls := fun _ => .ready, chunks := [] }

/-- What a hold of call `c` at offset `off`, after `i` bytes, adds to the chunks when `writei`
returned `r`: the bytes of its buffer `writei` accepted. -/
def accepted (c : ι) (off i : Nat) (r : Int) : List (Chunk ι) :=
  if 0 < r then [⟨c, off, ((src c).drop i).take r.toNat⟩] else []

/-- The bytes of the chunks, in the order they were written. -/
def written (s : FileRun ι) : List UInt8 := (s.chunks.map Chunk.data).flatten

/-! ## The chunks -/

section Chunks

variable {src}

theorem written_of_chunks {s s' : FileRun ι} {xs : List (Chunk ι)}
    (h : s'.chunks = s.chunks ++ xs) : s'.written = s.written ++ (xs.map Chunk.data).flatten := by
  rw [written, written, h, List.map_append, List.flatten_append]

theorem accepted_call {c : ι} {off i : Nat} {r : Int} {x : Chunk ι}
    (hx : x ∈ accepted src c off i r) : x.call = c := by
  unfold accepted at hx
  split_ifs at hx
  · rw [List.mem_singleton.mp hx]
  · simp at hx

theorem accepted_off {c : ι} {off i : Nat} {r : Int} {x : Chunk ι}
    (hx : x ∈ accepted src c off i r) : x.off = off := by
  unfold accepted at hx
  split_ifs at hx
  · rw [List.mem_singleton.mp hx]
  · simp at hx

theorem length_accepted (c : ι) (off i : Nat) (r : Int) :
    (accepted src c off i r).length ≤ 1 := by
  unfold accepted
  split_ifs <;> simp

/-- The bytes a hold adds: the next `r` bytes of the buffer when `writei` returned `r > 0`. -/
theorem data_accepted (c : ι) (off i : Nat) (r : Int) :
    ((accepted src c off i r).map Chunk.data).flatten =
      if 0 < r then ((src c).drop i).take r.toNat else [] := by
  unfold accepted
  split_ifs <;> simp

end Chunks

variable [DecidableEq ι]

/-- One step of a call of `filewrite` on the file `f`: call `c` writes the bytes `src c`. -/
inductive Step : FileRun ι → FileRun ι → Prop
  /-- A file not open for writing: `return -1`. -/
  | refuse {s : FileRun ι} (c : ι) : s.calls c = .ready → (s.k.file f).writable = false →
      Step s { s with calls := Function.update s.calls c (.returned 0 (-1)) }
  /-- A file open for writing on an inode: the loop starts. -/
  | start {s : FileRun ι} (c : ι) : s.calls c = .ready → (s.k.file f).writable = true →
      (s.k.file f).type = .inode → Step s { s with calls := Function.update s.calls c (.loop 0) }
  /-- `while(i < n)` holds: `begin_op()`. -/
  | begin {s : FileRun ι} (c : ι) {i : Nat} : s.calls c = .loop i → i < (src c).length →
      Step s { s with k := { s.k with fs := s.k.fs.beginOp },
                      calls := Function.update s.calls c (.inOp i) }
  /-- The loop is over: `return i == n ? n : -1`. -/
  | exit {s : FileRun ι} (c : ι) {i : Nat} : s.calls c = .loop i → ¬i < (src c).length →
      Step s { s with calls := Function.update s.calls c
                                 (.returned i (filewriteRet i (src c).length)) }
  /-- The hold of the inode's lock. -/
  | write {s : FileRun ι} (c : ι) {i : Nat} {r : Int} {k : Kernel} : s.calls c = .inOp i →
      s.k.writeChunk f (src c) i = .ok (r, k) →
      Step s { k := k, calls := Function.update s.calls c (.wrote i r),
               chunks := s.chunks ++ accepted src c (s.k.file f).off i r }
  /-- `end_op()`; `writei` wrote all `n1` bytes: `i += r`. -/
  | next {s : FileRun ι} (c : ι) {i : Nat} {r : Int} {fs : Fs} : s.calls c = .wrote i r →
      s.k.fs.endOp = .ok fs → ¬r < 0 → r = chunkLen (src c) i →
      Step s { s with k := { s.k with fs := fs },
                      calls := Function.update s.calls c (.loop (i + r.toNat)) }
  /-- `end_op()`; `writei` failed: `break`, and `return -1`. -/
  | stop {s : FileRun ι} (c : ι) {i : Nat} {r : Int} {fs : Fs} : s.calls c = .wrote i r →
      s.k.fs.endOp = .ok fs → r < 0 →
      Step s { s with k := { s.k with fs := fs },
                      calls := Function.update s.calls c
                                 (.returned i (filewriteRet i (src c).length)) }

/-- The states of the runs from `k`. -/
def Reachable (k : Kernel) (s : FileRun ι) : Prop :=
  Relation.ReflTransGen (Step src f) (init k) s

/-- The bytes of the chunks of call `c`, in the order they were written. -/
def writtenBy (s : FileRun ι) (c : ι) : List UInt8 :=
  ((s.chunks.filter fun e => e.call = c).map Chunk.data).flatten

section Calls

variable {src}

/-- The chunks of call `c` a step adds go to the end of its own … -/
theorem writtenBy_of_chunks {s s' : FileRun ι} {c : ι} {xs : List (Chunk ι)}
    (h : s'.chunks = s.chunks ++ xs) (hxs : ∀ x ∈ xs, x.call = c) :
    s'.writtenBy c = s.writtenBy c ++ (xs.map Chunk.data).flatten := by
  have hall : xs.filter (fun e => e.call = c) = xs := List.filter_eq_self.2 (by simpa using hxs)
  rw [writtenBy, writtenBy, h, List.filter_append, hall, List.map_append, List.flatten_append]

/-- … and leave those of every other call as they were. -/
theorem writtenBy_of_chunks_of_ne {s s' : FileRun ι} {c c' : ι} (hc : c' ≠ c)
    {xs : List (Chunk ι)} (h : s'.chunks = s.chunks ++ xs) (hxs : ∀ x ∈ xs, x.call = c) :
    s'.writtenBy c' = s.writtenBy c' := by
  have hnone : xs.filter (fun e => e.call = c') = [] :=
    List.filter_eq_nil_iff.2 fun x hx => by simp [hxs x hx, Ne.symm hc]
  rw [writtenBy, writtenBy, h, List.filter_append, hnone, List.append_nil]

end Calls

/-- The file `f` is open on the empty file `ip`, at offset `0`. -/
structure Opened (k : Kernel) (ip : Fin NINODE) : Prop where
  inode : (k.file f).ip = ip
  off : (k.file f).off = 0
  stores : k.fs.Stores ip []

/-- What holds in every reachable state. -/
structure Inv (ip : Fin NINODE) (s : FileRun ι) : Prop where
  inode : (s.k.file f).ip = ip
  off : (s.k.file f).off = s.written.length
  stores : s.k.fs.Stores ip s.written
  adjacent : Adjacent s.chunks
  byCall : ∀ c, s.writtenBy c = (src c).take (s.calls c).pos
  pos_le : ∀ c, (s.calls c).pos ≤ (src c).length
  ret : ∀ c, (s.calls c).Ret (src c).length

/-! ## The invariant -/

section Invariant

variable {src f} {ip : Fin NINODE}

/-- Moving one call to a state that has written as many bytes moves no other. -/
theorem pos_update {calls : ι → FileCall} {c : ι} {x : FileCall} (hpos : x.pos = (calls c).pos)
    (c' : ι) : (Function.update calls c x c').pos = (calls c').pos := by
  by_cases hc : c' = c
  · subst hc
    rw [Function.update_self, hpos]
  · rw [Function.update_of_ne hc]

/-- A step that moves a call to a state that has written as many bytes, and keeps the file
table, the chunks and what the file holds, keeps the invariant. -/
theorem Inv.of_call {s s' : FileRun ι} (h : Inv src f ip s) {c : ι} {x : FileCall}
    (hcalls : s'.calls = Function.update s.calls c x) (hpos : x.pos = (s.calls c).pos)
    (hret : x.Ret (src c).length) (hfile : s'.k.file = s.k.file) (hchunks : s'.chunks = s.chunks)
    (hstores : s'.k.fs.Stores ip s.written) : Inv src f ip s' := by
  have hw : s'.written = s.written := by rw [FileRun.written, FileRun.written, hchunks]
  have hwb : ∀ c', s'.writtenBy c' = s.writtenBy c' := fun c' => by
    rw [FileRun.writtenBy, FileRun.writtenBy, hchunks]
  refine ⟨hfile ▸ h.inode, by rw [hfile, hw]; exact h.off, hw ▸ hstores, hchunks ▸ h.adjacent,
    fun c' => ?_, fun c' => ?_, fun c' => ?_⟩
  · rw [hwb, hcalls, pos_update hpos]
    exact h.byCall c'
  · rw [hcalls, pos_update hpos]
    exact h.pos_le c'
  · rw [hcalls]
    by_cases hc : c' = c
    · subst hc
      rw [Function.update_self]
      exact hret
    · rw [Function.update_of_ne hc]
      exact h.ret c'

/-- The hold of the inode's lock by call `c` keeps the invariant: the bytes `writei` accepted
are the next ones of its buffer, at the end of the file, and `f->off` moves past them. -/
theorem Inv.write {s : FileRun ι} (h : Inv src f ip s) {c : ι} {i : Nat} {r : Int} {k : Kernel}
    (hc : s.calls c = .inOp i) (hw : s.k.writeChunk f (src c) i = .ok (r, k)) :
    Inv src f ip { k := k, calls := Function.update s.calls c (.wrote i r),
                   chunks := s.chunks ++ accepted src c (s.k.file f).off i r } := by
  obtain ⟨d, hd, hstores, hfile⟩ := Kernel.writeChunk_eq_ok h.stores h.inode h.off hw
  -- what `writei` accepted is `d`, the next `r` bytes of the buffer
  have hr : r.toNat = d.length ∧ ((src c).drop i).take d.length = d ∧
      ((accepted src c (s.k.file f).off i r).map Chunk.data).flatten = d := by
    rcases hd with ⟨rfl, hd⟩ | ⟨rfl, rfl⟩
    · have htake : ((src c).drop i).take d.length = d := by
        rw [hd, List.take_eq_take_iff, List.length_take]
        omega
      refine ⟨Int.toNat_natCast _, htake, ?_⟩
      rw [data_accepted]
      split_ifs with hpos
      · rw [Int.toNat_natCast, htake]
      · exact (List.eq_nil_of_length_eq_zero (by omega)).symm
    · exact ⟨rfl, rfl, by rw [data_accepted, if_neg (by decide)]⟩
  obtain ⟨hrd, htake, hacc⟩ := hr
  have hwr : ({ k := k, calls := Function.update s.calls c (.wrote i r),
                chunks := s.chunks ++ accepted src c (s.k.file f).off i r } : FileRun ι).written =
      s.written ++ d :=
    (written_of_chunks (s := s) rfl).trans (by rw [hacc])
  have hi : i ≤ (src c).length := by simpa [hc, FileCall.pos] using h.pos_le c
  refine ⟨?_, ?_, hwr ▸ hstores, h.adjacent.append (fun x hx => ?_) (length_accepted _ _ _ _),
    fun c' => ?_, fun c' => ?_, fun c' => ?_⟩
  · rw [hfile, Function.update_self]
    exact h.inode
  · rw [hfile, Function.update_self, hwr, List.length_append, ← h.off]
  · rw [accepted_off hx, h.off]
    rfl
  · dsimp only
    by_cases hc' : c' = c
    · subst hc'
      rw [writtenBy_of_chunks rfl fun x hx => accepted_call hx, hacc, h.byCall, hc,
        Function.update_self]
      simp only [FileCall.pos]
      rw [hrd, List.take_add, htake]
    · rw [writtenBy_of_chunks_of_ne hc' rfl fun x hx => accepted_call hx, h.byCall,
        Function.update_of_ne hc']
  · dsimp only
    by_cases hc' : c' = c
    · subst hc'
      rw [Function.update_self]
      simp only [FileCall.pos]
      have hle : d.length ≤ (src c').length - i := by
        rw [← htake, List.length_take, List.length_drop]
        exact min_le_right _ _
      omega
    · rw [Function.update_of_ne hc']
      exact h.pos_le c'
  · dsimp only
    by_cases hc' : c' = c
    · subst hc'
      rw [Function.update_self]
      trivial
    · rw [Function.update_of_ne hc']
      exact h.ret c'

theorem Inv.step {s s' : FileRun ι} (h : Inv src f ip s) (hs : Step src f s s') :
    Inv src f ip s' := by
  cases hs with
  | refuse c hc _ => exact h.of_call rfl (by rw [hc]; rfl) (.inr rfl) rfl rfl h.stores
  | start c hc _ _ => exact h.of_call rfl (by rw [hc]; rfl) trivial rfl rfl h.stores
  | begin c hc _ => exact h.of_call rfl (by rw [hc]; rfl) trivial rfl rfl h.stores.beginOp
  | exit c hc _ => exact h.of_call rfl (by rw [hc]; rfl) (.inl rfl) rfl rfl h.stores
  | write c hc hw => exact h.write hc hw
  | next c hc he _ _ => exact h.of_call rfl (by rw [hc]; rfl) trivial rfl rfl (h.stores.endOp he)
  | @stop c i r _ hc he hr =>
    -- a failed `writei` wrote nothing
    have hpos : (s.calls c).pos = i := by
      rw [hc, FileCall.pos, Int.toNat_of_nonpos hr.le, Nat.add_zero]
    exact h.of_call rfl hpos.symm (.inl rfl) rfl rfl (h.stores.endOp he)

theorem inv_init {k : Kernel} (hk : Opened f k ip) : Inv src f ip (init k) where
  inode := hk.inode
  off := hk.off
  stores := hk.stores
  adjacent := Adjacent.nil
  byCall _ := rfl
  pos_le _ := Nat.zero_le _
  ret _ := trivial

theorem inv_of_reachable {k : Kernel} {s : FileRun ι} (hk : Opened f k ip)
    (hr : Reachable src f k s) : Inv src f ip s := by
  induction hr with
  | refl => exact inv_init hk
  | tail _ hs ih => exact ih.step hs

end Invariant

/-- **Writes through a shared file lose and overlap no bytes.** In every state of every run of
`filewrite` calls on a file `f` opened on an empty file `ip` at offset `0`: the chunks
`writei` accepted were written one after the other, each where the previous ended; `f->off`
and the size of the file are their total length, and the content is their concatenation in
the order of their transactions; the chunks of each call are the first bytes of its buffer,
in order; and a call that returned `n` wrote all of its `n` bytes. -/
theorem filewrite_shared {k : Kernel} {s : FileRun ι} (hk : Opened f k ip)
    (hr : Reachable src f k s) :
    (s.k.file f).off = s.written.length ∧ (s.k.fs.inode ip).size = s.written.length ∧
      s.k.fs.content ip = s.written ∧ Adjacent s.chunks ∧ (∀ c, s.writtenBy c <+: src c) ∧
      ∀ c i, s.calls c = .returned i (src c).length → s.writtenBy c = src c := by
  have hs := inv_of_reachable hk hr
  refine ⟨hs.off, hs.stores.size, hs.stores.content, hs.adjacent,
    fun c => hs.byCall c ▸ List.take_prefix _ _, fun c i hc => ?_⟩
  have hret := hs.ret c
  rw [hc, FileCall.Ret] at hret
  -- `i == n ? n : -1` returned `n`: the loop wrote all `n` bytes
  have hi : i = (src c).length := by
    by_contra hin
    rw [filewriteRet, if_neg hin] at hret
    omega
  rw [hs.byCall, hc, FileCall.pos, hi, List.take_length]

end FileRun

namespace Fs

/-- The empty file holds no byte. -/
theorem emptyFile_stores : emptyFile.Stores ⟨0, NINODE_pos⟩ [] where
  fileOk := emptyFile_fileOk
  mapped _ hbn := absurd hbn (Nat.not_lt_zero _)
  content := rfl
  notDev := by decide
  valid := rfl
  ref := by decide
  sbSize := by decide

end Fs

namespace FileRun

/-- The kernel of the test `sharedfd`: the empty file open for writing at offset `0` in every
slot of the file table. -/
def sharedfdKernel : Kernel :=
  ⟨Fs.emptyFile, fun _ => ⟨.inode, 1, false, true, ⟨0, NINODE_pos⟩, 0⟩⟩

theorem opened_sharedfd : Opened ⟨0, NFILE_pos⟩ sharedfdKernel ⟨0, NINODE_pos⟩ :=
  ⟨rfl, rfl, Fs.emptyFile_stores⟩

/-- Call `0` of the test `sharedfd` writes its ten bytes in one transaction and returns `10`. -/
theorem filewrite_shared_write :
    ∃ s : FileRun (Fin 2),
      Reachable (fun _ => List.replicate 10 0x63) ⟨0, NFILE_pos⟩ sharedfdKernel s ∧
      s.calls 0 = .returned 10 10 ∧ s.written = List.replicate 10 0x63 ∧
      (s.k.file ⟨0, NFILE_pos⟩).off = s.written.length ∧
      (s.k.fs.inode ⟨0, NINODE_pos⟩).size = s.written.length ∧
      s.k.fs.content ⟨0, NINODE_pos⟩ = s.written ∧ Adjacent s.chunks ∧
      (∀ c, s.writtenBy c <+: (fun _ => List.replicate 10 0x63 : Fin 2 → List UInt8) c) ∧
      ∀ c i, s.calls c =
          .returned i ((fun _ => List.replicate 10 0x63 : Fin 2 → List UInt8) c).length →
        s.writtenBy c = (fun _ => List.replicate 10 0x63 : Fin 2 → List UInt8) c := by
  -- the hold of the lock, in the transaction `begin_op` opened
  obtain ⟨k', hw, hout, hcomm⟩ := Kernel.writeChunk_of_room
    (k := { sharedfdKernel with fs := sharedfdKernel.fs.beginOp }) (f := ⟨0, NFILE_pos⟩)
    Fs.emptyFile_stores.beginOp rfl rfl
    (show [].length + chunkLen (List.replicate 10 0x63) 0 ≤ MAXFILE * BSIZE by decide)
    (by decide) ⟨by decide, by decide, by decide⟩
    (show _ ≤ Fs.emptyFile.freeCount by rw [Fs.emptyFile_freeCount]; decide)
  -- its `end_op` leaves one operation in progress and does not commit
  have he : k'.fs.endOp = .ok { k'.fs with log := { k'.fs.log with outstanding := 1 } } :=
    Fs.endOp_not_last (n := 0) hout hcomm
  have hr : Reachable (fun _ : Fin 2 => List.replicate 10 0x63) ⟨0, NFILE_pos⟩ sharedfdKernel
      { k := { k' with fs := { k'.fs with log := { k'.fs.log with outstanding := 1 } } },
        calls := Function.update (Function.update (Function.update (Function.update
          (Function.update (fun _ => .ready) 0 (.loop 0)) 0 (.inOp 0)) 0 (.wrote 0 10)) 0
            (.loop 10)) 0 (.returned 10 10),
        chunks := [] ++ accepted (fun _ => List.replicate 10 0x63) 0 0 0 10 } :=
    .tail (.tail (.tail (.tail (.tail .refl (.start 0 rfl rfl rfl)) (.begin 0 rfl (by decide)))
      (.write 0 rfl hw)) (.next 0 rfl he (by decide) rfl)) (.exit 0 rfl (by decide))
  exact ⟨_, hr, rfl, rfl, filewrite_shared (fun _ => List.replicate 10 0x63) ⟨0, NFILE_pos⟩
    opened_sharedfd hr⟩

end FileRun

end Xv6

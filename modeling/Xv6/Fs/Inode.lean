import Xv6.Fs.Layout
import Xv6.Log.Admission
import Xv6.Lib.Except

/-!
# Blocks and inodes (`fs.c`)

The kernel's file-system state: the disk, the blocks as `bread` returns them, the log, the
inode cache and the device switch. A block is read from `mem`, the logical store that the
buffer cache and the log together present; every change to a block is followed by a
`log_write` of its number, and the commit in `end_op` copies the logged blocks of `mem` to
the disk.

Each function of `fs.c` below returns `.error` with the source's message where the code
panics. The model runs one system call at a time, so `ilock` never waits: every call
unlocks what it locked before it returns.
-/

namespace Xv6

/-- `struct inode`: the cache's bookkeeping (`ref`, `I_BUSY`, `I_VALID`) and the copy of
the dinode. -/
structure Inode where
  dev : Nat
  inum : Nat
  ref : Int
  busy : Bool
  valid : Bool
  type : Nat
  major : Int
  minor : Int
  nlink : Int
  size : Nat
  addrs : Nat → Nat

/-- The fields of an inode that `iupdate` writes to its dinode. -/
def Inode.dinode (i : Inode) : Dinode := ⟨i.type, i.major, i.minor, i.nlink, i.size, i.addrs⟩

/-- `struct devsw`: a device's read and write functions, `none` for a null pointer. The read
function returns its result and the bytes it copied to `dst`. -/
structure Devsw where
  read : Option (Int → Int × List UInt8)
  write : Option (List UInt8 → Int → Int)

/-- The `int` that a `uint` becomes. -/
def toInt32 (n : Nat) : Int := if n < 2 ^ 31 then n else (n : Int) - 2 ^ 32

/-- `a + b` on `uint`s. -/
def u32add (a b : Nat) : Nat := (a + b) % 2 ^ 32

/-- The file-system state of the kernel. -/
structure Fs where
  sb : Superblock
  disk : Image
  mem : Image
  log : Log
  inode : Fin NINODE → Inode
  devsw : Nat → Devsw

namespace Log

/-- `log_write` with no operation in progress. -/
theorem logWrite_outside (log : Log) (b : Nat) (h0 : log.outstanding = 0)
    (hn : log.lh.n < LOGSIZE) (hsz : log.lh.n + 1 < log.size) :
    log.logWrite b = .error "log_write outside of trans" := by
  unfold logWrite
  rw [if_neg (by omega), if_pos (by omega)]

theorem logWrite_size {log log' : Log} {b : Nat} (h : log.logWrite b = .ok log') :
    log'.size = log.size := by
  unfold logWrite at h
  split_ifs at h
  cases h
  rfl

/-- Inside a transaction, with room in the header, `log_write` succeeds. -/
theorem logWrite_inside (log : Log) (b : Nat) (h1 : 1 ≤ log.outstanding)
    (hn : log.lh.n < LOGSIZE) (hsz : log.lh.n + 1 < log.size) : ∃ log', log.logWrite b = .ok log' := by
  unfold logWrite
  rw [if_neg (by omega), if_neg (by omega)]
  exact ⟨_, rfl⟩

end Log

namespace Fs

def setInode (s : Fs) (ip : Fin NINODE) (i : Inode) : Fs :=
  { s with inode := Function.update s.inode ip i }

/-- `ip->addrs[k] = a`. -/
def setAddr (s : Fs) (ip : Fin NINODE) (k a : Nat) : Fs :=
  s.setInode ip { s.inode ip with addrs := Function.update (s.inode ip).addrs k a }

@[simp] theorem setInode_self (s : Fs) (ip : Fin NINODE) (i : Inode) :
    (s.setInode ip i).inode ip = i := by simp [setInode]

theorem setInode_of_ne (s : Fs) {ip j : Fin NINODE} (i : Inode) (h : j ≠ ip) :
    (s.setInode ip i).inode j = s.inode j := by simp [setInode, h]

@[simp] theorem setInode_setInode (s : Fs) (ip : Fin NINODE) (i j : Inode) :
    (s.setInode ip i).setInode ip j = s.setInode ip j := by simp [setInode]

@[simp] theorem setInode_mem (s : Fs) (ip : Fin NINODE) (i : Inode) :
    (s.setInode ip i).mem = s.mem := rfl
@[simp] theorem setInode_disk (s : Fs) (ip : Fin NINODE) (i : Inode) :
    (s.setInode ip i).disk = s.disk := rfl
@[simp] theorem setInode_log (s : Fs) (ip : Fin NINODE) (i : Inode) :
    (s.setInode ip i).log = s.log := rfl
@[simp] theorem setInode_sb (s : Fs) (ip : Fin NINODE) (i : Inode) :
    (s.setInode ip i).sb = s.sb := rfl
@[simp] theorem setInode_devsw (s : Fs) (ip : Fin NINODE) (i : Inode) :
    (s.setInode ip i).devsw = s.devsw := rfl

/-- `log_write(bp)` for the buffer of block `b`. -/
def logWrite (s : Fs) (b : Nat) : Except String Fs := do
  let log ← s.log.logWrite b
  pure { s with log := log }

/-- `bzero(dev, bno)`. -/
def bzero (s : Fs) (bno : Nat) : Except String Fs :=
  { s with mem := s.mem.setData bno Block.zero }.logWrite bno

/-- The blocks of the bitmap scan of `balloc`, in the order it visits them: the outer loop
steps `b` by `BPB` and the inner one visits `b + bi` below `sb.size`. -/
def freeBlock (s : Fs) : Option Nat :=
  (List.range s.sb.size).find? fun b => !s.mem.bitmap b

/-- `balloc(dev)`: mark the first free block in use and zero it. -/
def balloc (s : Fs) : Except String (Nat × Fs) :=
  match s.freeBlock with
  | none => .error "balloc: out of blocks"
  | some b => do
      let s ← { s with mem := s.mem.setBit b true }.logWrite (BBLOCK b s.sb)
      let s ← s.bzero b
      pure (b, s)

/-- `bfree(dev, b)`. -/
def bfree (s : Fs) (b : Nat) : Except String Fs :=
  if s.mem.bitmap b then { s with mem := s.mem.setBit b false }.logWrite (BBLOCK b s.sb)
  else .error "freeing free block"

/-- `iupdate(ip)`: copy the inode to its dinode. -/
def iupdate (s : Fs) (ip : Fin NINODE) : Except String Fs :=
  { s with mem := s.mem.setDinode (s.inode ip).inum (s.inode ip).dinode }.logWrite
    (IBLOCK (s.inode ip).inum s.sb)

/-- `iget(dev, inum)`: the cached entry with a reference, or the first entry without one. -/
def iget (s : Fs) (dev inum : Nat) : Except String (Fin NINODE × Fs) :=
  match (List.finRange NINODE).find? (fun i =>
      decide (0 < (s.inode i).ref ∧ (s.inode i).dev = dev ∧ (s.inode i).inum = inum)) with
  | some i => .ok (i, s.setInode i { s.inode i with ref := (s.inode i).ref + 1 })
  | none =>
      match (List.finRange NINODE).find? (fun i => decide ((s.inode i).ref = 0)) with
      | some i =>
          .ok (i, s.setInode i
            { s.inode i with dev := dev, inum := inum, ref := 1, busy := false,
                             valid := false })
      | none => .error "iget: no inodes"

/-- `ialloc(dev, type)`: the first free dinode from `1` is allocated on disk and referenced. -/
def ialloc (s : Fs) (dev type : Nat) : Except String (Fin NINODE × Fs) :=
  match (List.range' 1 (s.sb.ninodes - 1)).find? (fun inum => (s.mem.dinode inum).type == 0) with
  | none => .error "ialloc: no inodes"
  | some inum => do
      let s ← { s with mem := s.mem.setDinode inum { Dinode.zero with type := type } }.logWrite
        (IBLOCK inum s.sb)
      s.iget dev inum

/-- `idup(ip)`. -/
def idup (s : Fs) (ip : Fin NINODE) : Fs :=
  s.setInode ip { s.inode ip with ref := (s.inode ip).ref + 1 }

/-- `ilock(ip)`: lock the inode and read its dinode the first time. -/
def ilock (s : Fs) (ip : Fin NINODE) : Except String Fs :=
  let i := s.inode ip
  if i.ref < 1 then .error "ilock"
  else if i.valid then .ok (s.setInode ip { i with busy := true })
  else
    let d := s.mem.dinode i.inum
    if d.type = 0 then .error "ilock: no type"
    else .ok (s.setInode ip
      { i with busy := true, valid := true, type := d.type, major := d.major, minor := d.minor,
               nlink := d.nlink, size := d.size, addrs := d.addrs })

/-- `iunlock(ip)`. -/
def iunlock (s : Fs) (ip : Fin NINODE) : Except String Fs :=
  let i := s.inode ip
  if !i.busy ∨ i.ref < 1 then .error "iunlock" else .ok (s.setInode ip { i with busy := false })

/-- Round `k` of the loop of `itrunc` over the direct addresses. -/
def truncDirect (ip : Fin NINODE) (s : Fs) (k : Nat) : Except String Fs :=
  let a := (s.inode ip).addrs k
  if a ≠ 0 then do
    let s ← s.bfree a
    pure (s.setAddr ip k 0)
  else pure s

/-- `itrunc(ip)`: free the data blocks, the indirect block and the blocks it lists. -/
def itrunc (s : Fs) (ip : Fin NINODE) : Except String Fs := do
  let s ← (List.range NDIRECT).foldlM (truncDirect ip) s
  let s ← if (s.inode ip).addrs NDIRECT ≠ 0 then do
      let ind := (s.inode ip).addrs NDIRECT
      let a := s.mem.data ind
      let s ← (List.range NINDIRECT).foldlM
        (fun s j => if a.getU32 j ≠ 0 then s.bfree (a.getU32 j) else pure s) s
      let s ← s.bfree ind
      pure (s.setAddr ip NDIRECT 0)
    else pure s
  (s.setInode ip { s.inode ip with size := 0 }).iupdate ip

/-- `iput(ip)`: drop a reference; the last reference to an inode without links frees it. -/
def iput (s : Fs) (ip : Fin NINODE) : Except String Fs := do
  let i := s.inode ip
  let s ← if i.ref = 1 ∧ i.valid ∧ i.nlink = 0 then
      if i.busy then .error "iput busy"
      else do
        let s ← (s.setInode ip { i with busy := true }).itrunc ip
        let s ← (s.setInode ip { s.inode ip with type := 0 }).iupdate ip
        pure (s.setInode ip { s.inode ip with busy := false, valid := false })
    else pure s
  pure (s.setInode ip { s.inode ip with ref := (s.inode ip).ref - 1 })

/-- `iput` of an inode that other references keep: only the count drops. -/
theorem iput_shared {s : Fs} {ip : Fin NINODE} (h : (s.inode ip).ref ≠ 1) :
    s.iput ip = .ok (s.setInode ip { s.inode ip with ref := (s.inode ip).ref - 1 }) := by
  rw [iput, if_neg (by simp [h])]
  rfl

/-- `iunlockput(ip)`. -/
def iunlockput (s : Fs) (ip : Fin NINODE) : Except String Fs := do
  let s ← s.iunlock ip
  s.iput ip

/-- `bmap(ip, bn)`: the disk block of file block `bn`, allocated if it has none. -/
def bmap (s : Fs) (ip : Fin NINODE) (bn : Nat) : Except String (Nat × Fs) :=
  if bn < NDIRECT then
    if (s.inode ip).addrs bn = 0 then do
      let r ← s.balloc
      pure (r.1, r.2.setAddr ip bn r.1)
    else pure ((s.inode ip).addrs bn, s)
  else if bn - NDIRECT < NINDIRECT then do
    -- load the indirect block, allocating if necessary
    let r ← if (s.inode ip).addrs NDIRECT = 0 then do
        let r ← s.balloc
        pure (r.1, r.2.setAddr ip NDIRECT r.1)
      else pure ((s.inode ip).addrs NDIRECT, s)
    let a := (r.2.mem.data r.1).getU32 (bn - NDIRECT)
    if a = 0 then do
      let r' ← r.2.balloc
      let blk := (r'.2.mem.data r.1).setU32 (bn - NDIRECT) r'.1
      let s := { r'.2 with mem := r'.2.mem.setData r.1 blk }
      let s ← s.logWrite r.1
      pure (r'.1, s)
    else pure (a, r.2)
  else .error "bmap: out of range"

/-- The loop of `readi`: `tot` bytes of `n` are in `dst` and `off` is the next offset. -/
def readLoop (s : Fs) (ip : Fin NINODE) (n off tot : Nat) (dst : List UInt8) :
    Except String (List UInt8 × Fs) :=
  if tot < n then do
    let r ← s.bmap ip (off / BSIZE)
    let m := min (n - tot) (BSIZE - off % BSIZE)
    readLoop r.2 ip n (off + m) (tot + m) (dst ++ (r.2.mem.data r.1).read (off % BSIZE) m)
  else pure (dst, s)
termination_by n - tot
decreasing_by
  have : off % BSIZE < BSIZE := Nat.mod_lt _ (by decide)
  omega

/-- `readi(ip, dst, off, n)`: the result and the bytes copied to `dst`. -/
def readi (s : Fs) (ip : Fin NINODE) (off n : Nat) : Except String (Int × List UInt8 × Fs) :=
  let i := s.inode ip
  if i.type = T_DEV then
    if i.major < 0 ∨ NDEV ≤ i.major then .ok (-1, [], s)
    else match (s.devsw i.major.toNat).read with
      | none => .ok (-1, [], s)
      | some rd => .ok ((rd (toInt32 n)).1, (rd (toInt32 n)).2, s)
  else if i.size < off ∨ u32add off n < off then .ok (-1, [], s)
  else
    let n := if i.size < u32add off n then i.size - off else n
    do
      let r ← readLoop s ip n off 0 []
      pure (toInt32 n, r.1, r.2)

/-- The loop of `writei`: `tot` bytes of `src` are written and `off` is the next offset; it
returns the final offset. -/
def writeLoop (s : Fs) (ip : Fin NINODE) (src : List UInt8) (n off tot : Nat) :
    Except String (Nat × Fs) :=
  if tot < n then do
    let r ← s.bmap ip (off / BSIZE)
    let m := min (n - tot) (BSIZE - off % BSIZE)
    let blk := (r.2.mem.data r.1).write (off % BSIZE) ((src.drop tot).take m)
    let s ← { r.2 with mem := r.2.mem.setData r.1 blk }.logWrite r.1
    writeLoop s ip src n (off + m) (tot + m)
  else pure (off, s)
termination_by n - tot
decreasing_by
  have : off % BSIZE < BSIZE := Nat.mod_lt _ (by decide)
  omega

/-- `writei(ip, src, off, n)`: the bytes `src` are those at the source address. -/
def writei (s : Fs) (ip : Fin NINODE) (src : List UInt8) (off n : Nat) :
    Except String (Int × Fs) :=
  let i := s.inode ip
  if i.type = T_DEV then
    if i.major < 0 ∨ NDEV ≤ i.major then .ok (-1, s)
    else match (s.devsw i.major.toNat).write with
      | none => .ok (-1, s)
      | some wr => .ok (wr src (toInt32 n), s)
  else if i.size < off ∨ u32add off n < off then .ok (-1, s)
  else if MAXFILE * BSIZE < u32add off n then .ok (-1, s)
  else do
    let r ← writeLoop s ip src n off 0
    if 0 < n ∧ (r.2.inode ip).size < r.1 then do
      let s ← (r.2.setInode ip { r.2.inode ip with size := r.1 }).iupdate ip
      pure (toInt32 n, s)
    else pure (toInt32 n, r.2)

/-! ## Spec lemmas -/

section Spec

variable {s : Fs} {ip : Fin NINODE}

theorem logWrite_of_ok {b : Nat} {l : Log} (h : s.log.logWrite b = .ok l) :
    s.logWrite b = .ok { s with log := l } := by
  simp only [logWrite, h, Except.ok_bind]; rfl

theorem logWrite_of_error {b : Nat} {e : String} (h : s.log.logWrite b = .error e) :
    s.logWrite b = .error e := by
  simp only [logWrite, h]; rfl

/-- Outside a transaction the first `log_write` of `balloc` panics. -/
theorem balloc_outside {b : Nat} (hb : s.freeBlock = some b) (h0 : s.log.outstanding = 0)
    (hn : s.log.lh.n < LOGSIZE) (hsz : s.log.lh.n + 1 < s.log.size) :
    s.balloc = .error "log_write outside of trans" := by
  rw [balloc, hb]
  simp only
  rw [logWrite_of_error (s := { s with mem := s.mem.setBit b true })
    (Log.logWrite_outside _ _ h0 hn hsz)]
  rfl

/-- `ilock` of a loaded inode only takes the lock. -/
theorem ilock_valid (hr : 1 ≤ (s.inode ip).ref) (hv : (s.inode ip).valid = true) :
    s.ilock ip = .ok (s.setInode ip { s.inode ip with busy := true }) := by
  rw [ilock, if_neg (by omega), if_pos hv]

/-- The block `balloc`'s scan found is free, below the size. -/
theorem freeBlock_some {b : Nat} (h : s.freeBlock = some b) :
    b < s.sb.size ∧ s.mem.bitmap b = false := by
  have hb := List.find?_some h
  simp only [Bool.not_eq_eq_eq_not, Bool.not_true] at hb
  exact ⟨List.mem_range.1 (List.mem_of_find?_eq_some h), hb⟩

/-- While the bitmap has a free block, `balloc`'s scan finds one. -/
theorem freeBlock_exists (h : ∃ b < s.sb.size, s.mem.bitmap b = false) :
    ∃ b, s.freeBlock = some b ∧ b < s.sb.size ∧ s.mem.bitmap b = false := by
  obtain ⟨b₀, hb₀, hfree⟩ := h
  cases hfind : s.freeBlock with
  | none =>
      have := List.find?_eq_none.1 hfind b₀ (List.mem_range.2 hb₀)
      simp [hfree] at this
  | some b => exact ⟨b, rfl, freeBlock_some hfind⟩

theorem iunlock_ok (hb : (s.inode ip).busy = true) (hr : 1 ≤ (s.inode ip).ref) :
    s.iunlock ip = .ok (s.setInode ip { s.inode ip with busy := false }) := by
  rw [iunlock, if_neg (by simp [hb]; omega)]

theorem bmap_mapped {bn : Nat} (hbn : bn < NDIRECT) (ha : (s.inode ip).addrs bn ≠ 0) :
    s.bmap ip bn = .ok ((s.inode ip).addrs bn, s) := by
  rw [bmap, if_pos hbn, if_neg ha]; rfl

theorem bmap_hole {bn : Nat} (hbn : bn < NDIRECT) (ha : (s.inode ip).addrs bn = 0) :
    s.bmap ip bn = (do let r ← s.balloc; pure (r.1, r.2.setAddr ip bn r.1)) := by
  rw [bmap, if_pos hbn, if_pos ha]

theorem readLoop_done {n off tot : Nat} {dst : List UInt8} (h : n ≤ tot) :
    s.readLoop ip n off tot dst = .ok (dst, s) := by
  rw [readLoop, if_neg (by omega)]; rfl

/-- A round of `readi` in a block that has an address reads it without changing anything. -/
theorem readLoop_mapped_step {n off tot : Nat} {dst : List UInt8} (htot : tot < n)
    (hbn : off / BSIZE < NDIRECT) (ha : (s.inode ip).addrs (off / BSIZE) ≠ 0) :
    s.readLoop ip n off tot dst =
      s.readLoop ip n (off + min (n - tot) (BSIZE - off % BSIZE))
        (tot + min (n - tot) (BSIZE - off % BSIZE))
        (dst ++ (s.mem.data ((s.inode ip).addrs (off / BSIZE))).read (off % BSIZE)
          (min (n - tot) (BSIZE - off % BSIZE))) := by
  rw [readLoop, if_pos htot, bmap_mapped hbn ha]; rfl

/-- When every block the read touches has a direct address, `readi`'s loop copies the bytes
and changes nothing. -/
theorem readLoop_mapped {n off tot : Nat} {dst : List UInt8}
    (hmap : ∀ k, off / BSIZE ≤ k → k * BSIZE < off + (n - tot) →
      k < NDIRECT ∧ (s.inode ip).addrs k ≠ 0) :
    ∃ bytes, s.readLoop ip n off tot dst = .ok (dst ++ bytes, s) ∧ bytes.length = n - tot := by
  induction hk : n - tot using Nat.strong_induction_on generalizing off tot dst with
  | _ k ih =>
    by_cases htot : tot < n
    · have hlo : off / BSIZE * BSIZE ≤ off := Nat.div_mul_le_self off BSIZE
      obtain ⟨hbn, ha⟩ := hmap (off / BSIZE) le_rfl (by omega)
      have hpos : 0 < BSIZE - off % BSIZE := by
        have : off % BSIZE < BSIZE := Nat.mod_lt _ (by decide)
        omega
      rw [readLoop_mapped_step htot hbn ha]
      obtain ⟨m, hm⟩ : ∃ m, m = min (n - tot) (BSIZE - off % BSIZE) := ⟨_, rfl⟩
      rw [← hm]
      have hm1 : 0 < m ∧ m ≤ n - tot := by omega
      -- the rest of the read starts at a later offset, in blocks the hypothesis covers
      have hrest : ∀ j, (off + m) / BSIZE ≤ j → j * BSIZE < off + m + (n - (tot + m)) →
          j < NDIRECT ∧ (s.inode ip).addrs j ≠ 0 := by
        intro j hj1 hj2
        exact hmap j (le_trans (Nat.div_le_div_right (by omega)) hj1) (by omega)
      obtain ⟨bytes, h, hl⟩ := ih (n - (tot + m)) (by omega) hrest rfl
      refine ⟨_, by rw [h, List.append_assoc], ?_⟩
      simp only [List.length_append, Block.length_read, hl]
      omega
    · exact ⟨[], by rw [readLoop_done (by omega), List.append_nil], by simp; omega⟩

/-- `readi` of a file that is not a device, from an offset within it, in blocks that all have
direct addresses: it returns the clamped count and changes nothing. -/
theorem readi_mapped {off n : Nat} (hn : n < 2 ^ 32) (ht : (s.inode ip).type ≠ T_DEV)
    (hoff : off ≤ (s.inode ip).size) (hwrap : off ≤ u32add off n)
    (hmap : ∀ k, off / BSIZE ≤ k → k * BSIZE < (s.inode ip).size →
      k < NDIRECT ∧ (s.inode ip).addrs k ≠ 0) :
    ∃ bytes, s.readi ip off n =
      .ok (toInt32 (if (s.inode ip).size < u32add off n then (s.inode ip).size - off else n),
        bytes, s) ∧
      bytes.length = if (s.inode ip).size < u32add off n then (s.inode ip).size - off else n := by
  -- the clamped count never reads past the end of the file
  have hend : off + (if (s.inode ip).size < u32add off n then (s.inode ip).size - off else n) ≤
      (s.inode ip).size := by
    unfold u32add at *
    split
    · omega
    · have := Nat.mod_le (off + n) (2 ^ 32); omega
  obtain ⟨bytes, h, hl⟩ := @readLoop_mapped s ip
    (if (s.inode ip).size < u32add off n then (s.inode ip).size - off else n) off 0 []
    (fun k hk1 hk2 => hmap k hk1 (by omega))
  refine ⟨bytes, ?_, by rw [hl]; rfl⟩
  rw [readi, if_neg ht, if_neg (by omega)]
  simp only [h, List.nil_append, Except.ok_bind]
  rfl

/-- A read that stays inside one block with an address copies that block's bytes. -/
theorem readLoop_in_block {n off tot : Nat} {dst : List UInt8} (htot : tot < n)
    (hfit : n - tot ≤ BSIZE - off % BSIZE) (hbn : off / BSIZE < NDIRECT)
    (ha : (s.inode ip).addrs (off / BSIZE) ≠ 0) :
    s.readLoop ip n off tot dst =
      .ok (dst ++ (s.mem.data ((s.inode ip).addrs (off / BSIZE))).read (off % BSIZE) (n - tot),
        s) := by
  rw [readLoop_mapped_step htot hbn ha, Nat.min_eq_left hfit, readLoop_done (by omega)]

/-- `readi` of `n` bytes inside one block of a file, below its size: the bytes of that block. -/
theorem readi_in_block {off n : Nat} (ht : (s.inode ip).type ≠ T_DEV) (hn : 0 < n)
    (hn31 : n < 2 ^ 31) (hend : off + n ≤ (s.inode ip).size) (hsize : (s.inode ip).size < 2 ^ 32)
    (hfit : n ≤ BSIZE - off % BSIZE) (hbn : off / BSIZE < NDIRECT)
    (ha : (s.inode ip).addrs (off / BSIZE) ≠ 0) :
    s.readi ip off n =
      .ok (n, (s.mem.data ((s.inode ip).addrs (off / BSIZE))).read (off % BSIZE) n, s) := by
  have hu : u32add off n = off + n := Nat.mod_eq_of_lt (by omega)
  rw [readi, if_neg ht, if_neg (by omega)]
  simp only [hu, if_neg (show ¬ (s.inode ip).size < off + n by omega)]
  rw [readLoop_in_block hn (by omega) hbn ha, toInt32, if_pos hn31]
  simp only [Nat.sub_zero, List.nil_append]
  rfl

/-- A read from a block before a hole, outside a transaction: the blocks up to the hole have
addresses, and at the hole the first `log_write` of `balloc` panics. -/
theorem readLoop_hole_outside {n off tot h b : Nat} {dst : List UInt8} (htot : tot < n)
    (hh : h < NDIRECT) (ha : (s.inode ip).addrs h = 0)
    (hmap : ∀ k, off / BSIZE ≤ k → k < h → (s.inode ip).addrs k ≠ 0)
    (hlo : off / BSIZE ≤ h) (hreach : h * BSIZE < off + (n - tot))
    (hb : s.freeBlock = some b) (h0 : s.log.outstanding = 0) (hlog : s.log.lh.n < LOGSIZE)
    (hsz : s.log.lh.n + 1 < s.log.size) :
    s.readLoop ip n off tot dst = .error "log_write outside of trans" := by
  induction hk : n - tot using Nat.strong_induction_on generalizing off tot dst with
  | _ k ih =>
    rcases Nat.lt_or_eq_of_le hlo with hlt | heq
    · -- a block before the hole: read it and go on
      have hbn : off / BSIZE < NDIRECT := by omega
      have hlo' : off / BSIZE * BSIZE ≤ off := Nat.div_mul_le_self off BSIZE
      have hmod : off % BSIZE < BSIZE := Nat.mod_lt _ (by decide)
      have hblk : off + (BSIZE - off % BSIZE) ≤ h * BSIZE := by
        have := Nat.div_add_mod off BSIZE
        have : (off / BSIZE + 1) * BSIZE ≤ h * BSIZE := Nat.mul_le_mul_right _ hlt
        rw [Nat.add_mul, Nat.one_mul, Nat.mul_comm] at this
        omega
      rw [readLoop_mapped_step htot hbn (hmap _ le_rfl hlt)]
      obtain ⟨m, hm⟩ : ∃ m, m = min (n - tot) (BSIZE - off % BSIZE) := ⟨_, rfl⟩
      rw [← hm]
      have hm1 : m < n - tot := by omega
      exact ih (n - (tot + m)) (by omega) (by omega)
        (fun j hj1 hj2 => hmap j (le_trans (Nat.div_le_div_right (by omega)) hj1) hj2)
        (Nat.div_le_of_le_mul (by rw [Nat.mul_comm BSIZE h]; omega)) (by omega) rfl
    · -- the hole itself
      rw [readLoop, if_pos htot, bmap_hole (heq ▸ hh) (heq ▸ ha), balloc_outside hb h0 hlog hsz]
      rfl

/-- `readi` outside a transaction, of a range that reaches a hole of the file below its size:
the read allocates, and `log_write` panics. -/
theorem readi_hole_outside {off n h b : Nat} (ht : (s.inode ip).type ≠ T_DEV)
    (hoff : off < (s.inode ip).size) (hn : 0 < n) (hwrap : off + n < 2 ^ 32)
    (hh : h < NDIRECT) (ha : (s.inode ip).addrs h = 0)
    (hmap : ∀ k, off / BSIZE ≤ k → k < h → (s.inode ip).addrs k ≠ 0)
    (hlo : off / BSIZE ≤ h) (hsize : h * BSIZE < (s.inode ip).size) (hreach : h * BSIZE < off + n)
    (hb : s.freeBlock = some b) (h0 : s.log.outstanding = 0) (hlog : s.log.lh.n < LOGSIZE)
    (hsz : s.log.lh.n + 1 < s.log.size) :
    s.readi ip off n = .error "log_write outside of trans" := by
  have hu : u32add off n = off + n := Nat.mod_eq_of_lt hwrap
  rw [readi, if_neg ht, if_neg (by omega)]
  simp only [hu]
  rw [readLoop_hole_outside (by split <;> omega) hh ha hmap hlo (by split <;> omega) hb h0 hlog hsz]
  rfl

/-- `balloc` inside a transaction with room in the log: the first free block is marked in the
bitmap, zeroed, and logged after its bitmap block. -/
theorem balloc_ok {b : Nat} {l₁ l₂ : Log} (hb : s.freeBlock = some b)
    (h₁ : s.log.logWrite (BBLOCK b s.sb) = .ok l₁) (h₂ : l₁.logWrite b = .ok l₂) :
    s.balloc =
      .ok (b, { s with mem := (s.mem.setBit b true).setData b Block.zero, log := l₂ }) := by
  simp only [balloc, hb, logWrite, h₁, bzero, pure_bind, h₂, Except.ok_bind]
  rfl

theorem bmap_hole_ok {bn b : Nat} {s' : Fs} (hbn : bn < NDIRECT) (ha : (s.inode ip).addrs bn = 0)
    (hb : s.balloc = .ok (b, s')) : s.bmap ip bn = .ok (b, s'.setAddr ip bn b) := by
  rw [bmap_hole hbn ha, hb]
  rfl

/-- A read inside one block that has no address, in a transaction: `bmap` allocates the
block, which only the in-memory inode records, and the read returns its bytes. -/
theorem readLoop_hole_in_block {n off tot b : Nat} {s' : Fs} {dst : List UInt8} (htot : tot < n)
    (hfit : n - tot ≤ BSIZE - off % BSIZE) (hbn : off / BSIZE < NDIRECT)
    (ha : (s.inode ip).addrs (off / BSIZE) = 0) (hb : s.balloc = .ok (b, s')) :
    s.readLoop ip n off tot dst =
      .ok (dst ++ (s'.mem.data b).read (off % BSIZE) (n - tot), s'.setAddr ip (off / BSIZE) b) := by
  rw [readLoop, if_pos htot, bmap_hole_ok hbn ha hb]
  simp only [Except.ok_bind, Nat.min_eq_left hfit]
  rw [readLoop_done (by omega)]
  rfl

/-- `readi` inside a transaction, of `n` bytes in one block with no address, below the size. -/
theorem readi_hole_inside {off n b : Nat} {s' : Fs} (ht : (s.inode ip).type ≠ T_DEV)
    (hn : 0 < n) (hn31 : n < 2 ^ 31) (hend : off + n ≤ (s.inode ip).size)
    (hsize : (s.inode ip).size < 2 ^ 32) (hfit : n ≤ BSIZE - off % BSIZE)
    (hbn : off / BSIZE < NDIRECT) (ha : (s.inode ip).addrs (off / BSIZE) = 0)
    (hb : s.balloc = .ok (b, s')) :
    s.readi ip off n = .ok (n, (s'.mem.data b).read (off % BSIZE) n, s'.setAddr ip (off / BSIZE) b) := by
  have hu : u32add off n = off + n := Nat.mod_eq_of_lt (by omega)
  rw [readi, if_neg ht, if_neg (by omega)]
  simp only [hu, if_neg (show ¬ (s.inode ip).size < off + n by omega)]
  rw [readLoop_hole_in_block hn (by omega) hbn ha hb, toInt32, if_pos hn31]
  simp only [Nat.sub_zero, List.nil_append]
  rfl

end Spec

end Fs

end Xv6

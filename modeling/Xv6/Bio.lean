import Xv6.Lib.Scan
import Xv6.Lib.Except
import Xv6.Fs.Layout

/-!
# The buffer cache (`bio.c`, `ide.c`)

`bcache.buf` holds `NBUF` buffers, on a list kept in most-recently-used order (`head.next`
first). A buffer caches one disk block and carries three flags: `B_BUSY` while a process
holds it, `B_VALID` once its data has been read from the disk, and `B_DIRTY` while its data
still has to go to the disk (from `log_write` until the commit writes it, and in `bwrite`
until the transfer is done). The disk driver serves `idequeue` one request at a time.

Processes use the cache through `bread`, `bwrite`, `brelse` and `log_write`, and `bget` and
`iderw` sleep. A step (`Bsys.step`) is one hold of `bcache.lock` or `idelock`: a process calls
`bread` (its `bget`, and the `iderw` that queues the read), runs `bget` again after a wakeup,
finds its disk request done, marks a buffer dirty, writes one, or releases one; or the disk
interrupt completes the request at the head of the queue. Any process may hold any number of
buffers between `bread` and `brelse`, and sleeps in `iderw` holding the buffer.

`bget` panics when no buffer caches the block and every buffer is busy or dirty
(`bget_eq_error_iff`). `iderw` panics on a request for disk 1 when `ideinit` did not find it,
and `idestart`, which `iderw` calls when the queue was empty and `ideintr` calls on the next
request, panics on a block past the file system. Nothing bounds the number of buffers held at once but the number of
processes, and `NPROC > NBUF`: readers that wait for the disk can hold every buffer, and the
next `bread` of a block not in the cache panics (`bget_no_buffers_reachable`).
-/

namespace Xv6

/-- `struct buf`: the flags `B_BUSY`, `B_VALID` and `B_DIRTY`, the block and its data. -/
structure Buf where
  busy : Bool
  valid : Bool
  dirty : Bool
  dev : Nat
  blockno : Nat
  data : Block

/-- `bcache`, the disk queue `idequeue`, the disk, by device and block number, and `havedisk1`,
whether `ideinit` found disk 1. -/
structure Bcache where
  buf : Fin NBUF → Buf
  lru : List (Fin NBUF)
  idequeue : List (Fin NBUF)
  disk : Nat → Nat → Block
  havedisk1 : Bool

namespace Bcache

/-- The buffers `binit` sets up: each is pushed to the front of the list, so `buf[NBUF-1]` is
the most recently used; `dev` is `-1` as a `uint`, and the data are as the loader left them.
`havedisk1` is a static of `ide.c`, `0` until `ideinit`. -/
def binit (data : Fin NBUF → Block) (disk : Nat → Nat → Block) : Bcache :=
  { buf := fun i => ⟨false, false, false, 2 ^ 32 - 1, 0, data i⟩,
    lru := (List.finRange NBUF).reverse, idequeue := [], disk := disk, havedisk1 := false }

def set (c : Bcache) (i : Fin NBUF) (b : Buf) : Bcache := { c with buf := Function.update c.buf i b }

@[simp] theorem set_buf_self (c : Bcache) (i : Fin NBUF) (b : Buf) : (c.set i b).buf i = b := by
  simp [set]

@[simp] theorem set_buf_of_ne (c : Bcache) {i j : Fin NBUF} (b : Buf) (h : j ≠ i) :
    (c.set i b).buf j = c.buf j := by
  simp [set, h]

@[simp] theorem set_lru (c : Bcache) (i : Fin NBUF) (b : Buf) : (c.set i b).lru = c.lru := rfl
@[simp] theorem set_idequeue (c : Bcache) (i : Fin NBUF) (b : Buf) :
    (c.set i b).idequeue = c.idequeue := rfl
@[simp] theorem set_havedisk1 (c : Bcache) (i : Fin NBUF) (b : Buf) :
    (c.set i b).havedisk1 = c.havedisk1 := rfl

end Bcache

/-- How `bget` ends: with buffer `i` held, or asleep on the busy buffer `i` that caches the
block. -/
inductive BgetEnd where
  | got (i : Fin NBUF)
  | sleep (i : Fin NBUF)
  deriving DecidableEq, Repr

/-- `bget(dev, blockno)`: the cached buffer of the block, most recently used first; else the
least recently used buffer that is neither busy nor dirty, recycled. -/
def bget (c : Bcache) (dev blockno : Nat) : Except String (BgetEnd × Bcache) :=
  match c.lru.find? (fun i => (c.buf i).dev = dev ∧ (c.buf i).blockno = blockno) with
  | some i =>
    if !(c.buf i).busy then .ok (.got i, c.set i { c.buf i with busy := true })
    else .ok (.sleep i, c)
  | none =>
    match c.lru.reverse.find? (fun i => !(c.buf i).busy && !(c.buf i).dirty) with
    | some i =>
      .ok (.got i, c.set i
        { c.buf i with dev := dev, blockno := blockno, busy := true, valid := false,
                       dirty := false })
    | none => .error "bget: no buffers"

/-- `ideinit()`: whether the probe of disk 1 found it. -/
def ideinit (c : Bcache) (disk1 : Bool) : Bcache := { c with havedisk1 := disk1 }

/-- `idestart(b)`: the disk takes requests for the `FSSIZE` blocks of the file system only. A
buffer is never null here, and a block is one sector. -/
def idestart (b : Buf) : Except String Unit :=
  if FSSIZE ≤ b.blockno then .error "incorrect blockno" else .ok ()

/-- `iderw(b)`: queue the request for a busy buffer that is dirty or not yet read, on disk 0 or
on disk 1 when there is one, and start the disk on it when the queue was empty. -/
def iderw (c : Bcache) (i : Fin NBUF) : Except String Bcache :=
  if !(c.buf i).busy then .error "iderw: buf not busy"
  else if (c.buf i).valid && !(c.buf i).dirty then .error "iderw: nothing to do"
  else if (c.buf i).dev ≠ 0 ∧ c.havedisk1 = false then .error "iderw: ide disk 1 not present"
  else if c.idequeue = [] then
    (idestart (c.buf i)).map fun _ => { c with idequeue := c.idequeue ++ [i] }
  else .ok { c with idequeue := c.idequeue ++ [i] }

/-- The request at the head of the queue is done: a write has put the data on the disk, a read
has brought them in. -/
def ideDone (c : Bcache) : Bcache :=
  match c.idequeue with
  | [] => c
  | i :: rest =>
    let b := c.buf i
    if b.dirty then
      { c.set i { b with valid := true, dirty := false } with
        idequeue := rest, disk := Function.update c.disk b.dev
          (Function.update (c.disk b.dev) b.blockno b.data) }
    else
      { c.set i { b with data := c.disk b.dev b.blockno, valid := true, dirty := false } with
        idequeue := rest }

/-- `ideintr()`: the request at the head of the queue is done, and the disk starts on the next
one. With the queue empty it does nothing. -/
def ideintr (c : Bcache) : Except String Bcache :=
  let c := ideDone c
  match c.idequeue with
  | [] => .ok c
  | j :: _ => (idestart (c.buf j)).map fun _ => c

/-- `bwrite(b)`: mark the buffer dirty and queue the write. -/
def bwrite (c : Bcache) (i : Fin NBUF) : Except String Bcache :=
  if !(c.buf i).busy then .error "bwrite"
  else iderw (c.set i { c.buf i with dirty := true }) i

/-- `brelse(b)`: the buffer goes to the front of the list and is no longer busy. -/
def brelse (c : Bcache) (i : Fin NBUF) : Except String Bcache :=
  if !(c.buf i).busy then .error "brelse"
  else .ok { c.set i { c.buf i with busy := false } with lru := i :: c.lru.erase i }

/-- `log_write(b)`, on the buffer: it stays dirty until the commit writes it. -/
def logWriteBuf (c : Bcache) (i : Fin NBUF) : Bcache :=
  c.set i { c.buf i with dirty := true }

/-- Where a process waits: in `bget`, on a busy buffer caching the block it asked for; or in
`iderw`, for its request on a buffer to be done. -/
inductive BWait where
  | bget (dev blockno : Nat)
  | disk (i : Fin NBUF)
  deriving DecidableEq, Repr

/-- The buffers a process holds, and where it waits, if it does. -/
structure BProc where
  held : List (Fin NBUF)
  wait : Option BWait

/-- The cache and the processes that use it. -/
structure Bsys where
  cache : Bcache
  proc : Fin NPROC → BProc

/-- One hold of `bcache.lock` or `idelock`. -/
inductive BAct where
  /-- `bread(dev, blockno)`. -/
  | bread (p : Fin NPROC) (dev blockno : Nat)
  /-- `bget` again, after the wakeup of the buffer it slept on. -/
  | retry (p : Fin NPROC)
  /-- `iderw` returns: the request is done. -/
  | done (p : Fin NPROC)
  | logWrite (p : Fin NPROC) (i : Fin NBUF)
  | bwrite (p : Fin NPROC) (i : Fin NBUF)
  | brelse (p : Fin NPROC) (i : Fin NBUF)
  | ideintr
  deriving DecidableEq, Repr

namespace Bsys

def setProc (s : Bsys) (p : Fin NPROC) (q : BProc) : Bsys :=
  { s with proc := Function.update s.proc p q }

/-- The system before any process has used the cache: `binit()`, then `ideinit()`, which found
disk 1 or not. -/
def boot (data : Fin NBUF → Block) (disk : Nat → Nat → Block) (disk1 : Bool) : Bsys :=
  ⟨ideinit (Bcache.binit data disk) disk1, fun _ => ⟨[], none⟩⟩

/-- `bget` for process `p`, and the `iderw` of `bread` when the buffer it gets is not valid:
the process holds the buffer, and waits for the disk if it queued a read. -/
def breadFor (s : Bsys) (p : Fin NPROC) (dev blockno : Nat) : Except String Bsys :=
  match bget s.cache dev blockno with
  | .error e => .error e
  | .ok (.sleep _, c) =>
    .ok ((⟨c, s.proc⟩ : Bsys).setProc p { s.proc p with wait := some (.bget dev blockno) })
  | .ok (.got i, c) =>
    if (c.buf i).valid then .ok ((⟨c, s.proc⟩ : Bsys).setProc p ⟨i :: (s.proc p).held, none⟩)
    else match iderw c i with
      | .error e => .error e
      | .ok c => .ok ((⟨c, s.proc⟩ : Bsys).setProc p ⟨i :: (s.proc p).held, some (.disk i)⟩)

/-- One step, `none` if it is not enabled: a process that waits can only resume, and a
process uses only the buffers it holds. -/
def step (s : Bsys) : BAct → Option (Except String Bsys)
  | .bread p dev blockno =>
    if (s.proc p).wait = none then some (s.breadFor p dev blockno) else none
  | .retry p =>
    match (s.proc p).wait with
    | some (.bget dev blockno) => some (s.breadFor p dev blockno)
    | _ => none
  | .done p =>
    match (s.proc p).wait with
    | some (.disk i) =>
      if (s.cache.buf i).valid && !(s.cache.buf i).dirty then
        some (.ok (s.setProc p { s.proc p with wait := none }))
      else none
    | _ => none
  | .logWrite p i =>
    if (s.proc p).wait = none ∧ i ∈ (s.proc p).held then
      some (.ok { s with cache := logWriteBuf s.cache i })
    else none
  | .bwrite p i =>
    if (s.proc p).wait = none ∧ i ∈ (s.proc p).held then
      some ((bwrite s.cache i).map fun c =>
        (⟨c, s.proc⟩ : Bsys).setProc p { s.proc p with wait := some (.disk i) })
    else none
  | .brelse p i =>
    if (s.proc p).wait = none ∧ i ∈ (s.proc p).held then
      some ((brelse s.cache i).map fun c =>
        (⟨c, s.proc⟩ : Bsys).setProc p { s.proc p with held := (s.proc p).held.erase i })
    else none
  | .ideintr => some ((ideintr s.cache).map fun c => { s with cache := c })

end Bsys

/-- The states reachable from the boot state without a panic. -/
inductive BReachable : Bsys → Prop
  | boot (data : Fin NBUF → Block) (disk : Nat → Nat → Block) (disk1 : Bool) :
      BReachable (Bsys.boot data disk disk1)
  | step {s s' : Bsys} (a : BAct) : BReachable s → s.step a = some (.ok s') → BReachable s'

end Xv6

namespace Xv6

/-! ## `bget` -/

section Bget

variable {c : Bcache} {dev blockno : Nat}

/-- No buffer on the list caches the block. -/
def Uncached (c : Bcache) (dev blockno : Nat) : Prop :=
  ∀ i ∈ c.lru, ¬((c.buf i).dev = dev ∧ (c.buf i).blockno = blockno)

/-- `bget` of a block no buffer caches recycles the first free and clean buffer from the
least recently used end. -/
theorem bget_of_uncached (hu : Uncached c dev blockno) {i : Fin NBUF}
    (hi : c.lru.reverse.find? (fun i => !(c.buf i).busy && !(c.buf i).dirty) = some i) :
    bget c dev blockno = .ok (.got i, c.set i
      { c.buf i with dev := dev, blockno := blockno, busy := true, valid := false,
                     dirty := false }) := by
  have hnone : c.lru.find? (fun i => (c.buf i).dev = dev ∧ (c.buf i).blockno = blockno) = none :=
    List.find?_eq_none.2 fun i hi => by simpa using hu i hi
  rw [bget, hnone]
  simp only [hi]

/-- `bget` panics exactly when no buffer caches the block and every buffer on the list is
busy or dirty. -/
theorem bget_eq_error_iff :
    bget c dev blockno = .error "bget: no buffers" ↔
      Uncached c dev blockno ∧ ∀ i ∈ c.lru, (c.buf i).busy = true ∨ (c.buf i).dirty = true := by
  constructor
  · intro h
    rw [bget] at h
    split at h
    · split_ifs at h
    · rename_i hnone
      refine ⟨fun i hi => by simpa using List.find?_eq_none.1 hnone i hi, fun i hi => ?_⟩
      split at h
      · cases h
      · rename_i hfree
        have := List.find?_eq_none.1 hfree i (List.mem_reverse.2 hi)
        cases hb : (c.buf i).busy <;> cases hd : (c.buf i).dirty <;> simp_all
  · rintro ⟨hu, hall⟩
    have hnone : c.lru.find? (fun i => (c.buf i).dev = dev ∧ (c.buf i).blockno = blockno) =
        none := List.find?_eq_none.2 fun i hi => by simpa using hu i hi
    have hfree : c.lru.reverse.find? (fun i => !(c.buf i).busy && !(c.buf i).dirty) = none :=
      List.find?_eq_none.2 fun i hi => by
        rcases hall i (List.mem_reverse.1 hi) with h | h <;> simp [h]
    rw [bget, hnone]
    simp only [hfree]

end Bget

/-! ## The disk -/

section Disk

variable {c c' : Bcache} {i j : Fin NBUF} {e : String}

theorem idestart_error {b : Buf} (h : idestart b = .error e) :
    e = "incorrect blockno" ∧ FSSIZE ≤ b.blockno := by
  unfold idestart at h
  split_ifs at h with hb
  cases h
  exact ⟨rfl, hb⟩

/-- A buffer that is dirty or not yet read has something for the disk to do. -/
theorem something_to_do {b : Buf} (hv : b.valid = false ∨ b.dirty = true) :
    ¬(b.valid && !b.dirty) = true := by
  rcases hv with hv | hv <;> simp [hv]

/-- `iderw` that returns has queued the request and changed nothing else. -/
theorem iderw_eq_ok (h : iderw c i = .ok c') : c' = { c with idequeue := c.idequeue ++ [i] } := by
  unfold iderw at h
  split_ifs at h
  · obtain ⟨-, -, rfl⟩ := Except.map_eq_ok_iff.1 h
    rfl
  · cases h
    rfl

/-- `iderw` of a busy buffer that is dirty or not yet read queues the request, when the request
is for disk 0 or there is a disk 1, and the disk either has a request to serve already or can
start on this one. -/
theorem iderw_ok (hb : (c.buf i).busy = true) (hv : (c.buf i).valid = false ∨ (c.buf i).dirty = true)
    (hd : (c.buf i).dev = 0 ∨ c.havedisk1 = true) (hq : c.idequeue ≠ [] ∨ (c.buf i).blockno < FSSIZE) :
    iderw c i = .ok { c with idequeue := c.idequeue ++ [i] } := by
  have hdisk1 : ¬((c.buf i).dev ≠ 0 ∧ c.havedisk1 = false) := by
    rcases hd with hd | hd <;> simp [hd]
  rw [iderw, if_neg (by simp [hb]), if_neg (something_to_do hv), if_neg hdisk1]
  rcases hq with hq | hq
  · rw [if_neg hq]
  · by_cases he : c.idequeue = []
    · rw [if_pos he, idestart, if_neg (Nat.not_le.2 hq)]
      rfl
    · rw [if_neg he]

/-- `iderw` of a busy buffer that is dirty or not yet read panics only when the request is for
disk 1 and there is none, or when it starts the disk on a block past the file system. -/
theorem iderw_error (hb : (c.buf i).busy = true)
    (hv : (c.buf i).valid = false ∨ (c.buf i).dirty = true) (h : iderw c i = .error e) :
    (e = "iderw: ide disk 1 not present" ∧ c.havedisk1 = false) ∨
      (e = "incorrect blockno" ∧ FSSIZE ≤ (c.buf i).blockno) := by
  rw [iderw, if_neg (by simp [hb]), if_neg (something_to_do hv)] at h
  split_ifs at h with hdisk1 hq
  · cases h
    exact .inl ⟨rfl, hdisk1.2⟩
  · -- the queue was empty: `idestart` ran
    cases hs : idestart (c.buf i) with
    | error e' =>
      rw [hs] at h
      cases h
      exact .inr (idestart_error hs)
    | ok u =>
      rw [hs] at h
      cases h

@[simp] theorem ideDone_idequeue : (ideDone c).idequeue = c.idequeue.tail := by
  unfold ideDone
  split
  · simp_all
  · rename_i hq
    dsimp only
    split_ifs <;> simp [hq]

@[simp] theorem ideDone_lru : (ideDone c).lru = c.lru := by
  unfold ideDone
  split
  · rfl
  · dsimp only
    split_ifs <;> rfl

/-- The disk changes the data and the flags `B_VALID` and `B_DIRTY` only. -/
theorem ideDone_buf (j : Fin NBUF) : ((ideDone c).buf j).dev = (c.buf j).dev ∧
    ((ideDone c).buf j).blockno = (c.buf j).blockno ∧ ((ideDone c).buf j).busy = (c.buf j).busy := by
  unfold ideDone
  split
  · exact ⟨rfl, rfl, rfl⟩
  · rename_i i rest _
    by_cases hji : j = i
    · subst hji
      dsimp only
      split_ifs <;> simp
    · dsimp only
      split_ifs <;> simp [Bcache.set_buf_of_ne _ _ hji]

theorem ideintr_eq_ok (h : ideintr c = .ok c') : c' = ideDone c := by
  unfold ideintr at h
  dsimp only at h
  split at h
  · cases h
    rfl
  · obtain ⟨-, -, rfl⟩ := Except.map_eq_ok_iff.1 h
    rfl

/-- `ideintr` panics only when it starts the disk on a queued block past the file system. -/
theorem ideintr_error (h : ideintr c = .error e) :
    e = "incorrect blockno" ∧ ∃ j ∈ c.idequeue, FSSIZE ≤ (c.buf j).blockno := by
  unfold ideintr at h
  dsimp only at h
  split at h
  · cases h
  · rename_i j rest hq
    cases hs : idestart ((ideDone c).buf j) with
    | error e' =>
      rw [hs] at h
      cases h
      obtain ⟨rfl, hblk⟩ := idestart_error hs
      refine ⟨rfl, j, ?_, (ideDone_buf j).2.1 ▸ hblk⟩
      rw [ideDone_idequeue] at hq
      exact List.mem_of_mem_tail (hq ▸ List.mem_cons_self)
    | ok u =>
      rw [hs] at h
      cases h

end Disk

namespace Bsys

theorem breadFor_of_error {s : Bsys} {p : Fin NPROC} {dev blockno : Nat} {e : String}
    (h : bget s.cache dev blockno = .error e) : s.breadFor p dev blockno = .error e := by
  rw [breadFor, h]

end Bsys

/-! ## Readers that hold every buffer -/

section Exhaust

variable (blk : Nat → Nat)

/-- What the first `k` readers of the blocks `blk 0, blk 1, …` leave: buffers `0 … k-1`
busy with those blocks, while the others are as `binit` left them and the processes from `k`
on have not used the cache; disk 1 is there, and the disk has a request once one reader has
queued one. -/
structure Filled (k : Nat) (s : Bsys) : Prop where
  lru : s.cache.lru = (List.finRange NBUF).reverse
  busy : ∀ i : Fin NBUF, i.val < k →
    (s.cache.buf i).busy = true ∧ (s.cache.buf i).dev = ROOTDEV ∧ (s.cache.buf i).blockno = blk i
  free : ∀ i : Fin NBUF, k ≤ i.val →
    (s.cache.buf i).busy = false ∧ (s.cache.buf i).dirty = false ∧
      (s.cache.buf i).dev = 2 ^ 32 - 1
  idle : ∀ p : Fin NPROC, k ≤ p.val → (s.proc p).wait = none
  disk1 : s.cache.havedisk1 = true
  queued : 0 < k → s.cache.idequeue ≠ []

variable {blk}

theorem filled_boot (data : Fin NBUF → Block) (disk : Nat → Nat → Block) :
    Filled blk 0 (Bsys.boot data disk true) where
  lru := rfl
  busy _ hi := absurd hi (Nat.not_lt_zero _)
  free _ _ := ⟨rfl, rfl, rfl⟩
  idle _ _ := rfl
  disk1 := rfl
  queued h := absurd h (lt_irrefl 0)

/-- In a filled state no buffer caches a block other than the first `k`. -/
theorem Filled.uncached {k : Nat} {s : Bsys} (hs : Filled blk k s) {b : Nat}
    (hb : ∀ i : Fin NBUF, i.val < k → blk i ≠ b) : Uncached s.cache ROOTDEV b := by
  intro i _ ⟨hdev, hno⟩
  by_cases hik : i.val < k
  · exact hb i hik ((hs.busy i hik).2.2.symm.trans hno)
  · rw [(hs.free i (by omega)).2.2] at hdev
    exact absurd hdev (by decide)

/-- The next reader, process `k`, recycles buffer `k` and waits for the disk. The first one
starts the disk on its block, which must be on the disk. -/
theorem Filled.bread {k : Nat} {s : Bsys} (hs : Filled blk k s) (hk : k < NBUF)
    (hb : ∀ i : Fin NBUF, i.val < k → blk i ≠ blk k) (h0 : blk 0 < FSSIZE) :
    ∃ s', s.step (.bread ⟨k, lt_trans hk (by decide)⟩ ROOTDEV (blk k)) = some (.ok s') ∧
      Filled blk (k + 1) s' := by
  set p : Fin NPROC := ⟨k, lt_trans hk (by decide)⟩
  set i : Fin NBUF := ⟨k, hk⟩
  -- buffer `k` is the first free one from the least recently used end
  have hfind : s.cache.lru.reverse.find? (fun i => !(s.cache.buf i).busy && !(s.cache.buf i).dirty) =
      some i := by
    rw [hs.lru, List.reverse_reverse]
    refine Scan.find?_finRange_of_first ?_ fun q hq => ?_
    · simp [(hs.free i le_rfl).1, (hs.free i le_rfl).2.1]
    · simp [(hs.busy q hq).1]
  have hget := bget_of_uncached (hs.uncached hb) hfind
  set c' := s.cache.set i
    { s.cache.buf i with dev := ROOTDEV, blockno := blk k, busy := true, valid := false,
                         dirty := false }
  -- the disk has a request already, or starts on this one
  have hq : c'.idequeue ≠ [] ∨ (c'.buf i).blockno < FSSIZE := by
    rcases Nat.eq_zero_or_pos k with rfl | hkpos
    · exact .inr (by simpa [c'] using h0)
    · exact .inl (by simpa [c'] using hs.queued hkpos)
  have hrw := iderw_ok (c := c') (i := i) (by simp [c']) (.inl (by simp [c']))
    (.inr (by simpa [c', Bcache.set] using hs.disk1)) hq
  refine ⟨(⟨{ c' with idequeue := c'.idequeue ++ [i] }, s.proc⟩ : Bsys).setProc p
    ⟨i :: (s.proc p).held, some (.disk i)⟩, ?_, ?_⟩
  · rw [Bsys.step, if_pos (hs.idle p le_rfl), Bsys.breadFor, hget]
    simp only [c', Bcache.set_buf_self, Bool.false_eq_true, if_false, hrw]
  · refine ⟨hs.lru, fun j hj => ?_, fun j hj => ?_, fun q hq => ?_,
      by simpa [c', Bcache.set, Bsys.setProc] using hs.disk1, fun _ => by simp [Bsys.setProc]⟩
    · by_cases hji : j = i
      · subst hji
        simp [c', Bsys.setProc, i]
      · have hjk : j.val < k := by
          have : j.val ≠ k := fun h => hji (Fin.ext h)
          omega
        simpa [c', Bsys.setProc, hji] using hs.busy j hjk
    · have hji : j ≠ i := fun h => by rw [h] at hj; exact absurd hj (by simp [i])
      simpa [c', Bsys.setProc, hji] using hs.free j (by omega)
    · have hqp : q ≠ p := fun h => by rw [h] at hq; exact absurd hq (by simp [p])
      simpa [Bsys.setProc, hqp] using hs.idle q (by omega)

/-- For every `k ≤ NBUF`, a run of `k` readers fills the first `k` buffers. -/
theorem filled_reachable (hblk : ∀ j k, j ≤ NBUF → k ≤ NBUF → blk j = blk k → j = k)
    (h0 : blk 0 < FSSIZE) : ∀ k ≤ NBUF, ∃ s, BReachable s ∧ Filled blk k s := by
  intro k
  induction k with
  | zero =>
    intro _
    exact ⟨_, .boot (fun _ _ => 0) (fun _ _ _ => 0) true, filled_boot _ _⟩
  | succ k ih =>
    intro hk
    obtain ⟨s, hr, hs⟩ := ih (by omega)
    obtain ⟨s', hstep, hs'⟩ := hs.bread (by omega) (fun i hi h =>
      absurd (hblk i k (by omega) (by omega) h) (by omega)) h0
    exact ⟨s', .step _ hr hstep, hs'⟩

/-- One of the blocks `0 … NBUF`, all on the disk, is none of `blk 1 … blk NBUF`. -/
theorem exists_first_block (blk : Nat → Nat) :
    ∃ b₀ < FSSIZE, ∀ j, 1 ≤ j → j ≤ NBUF → blk j ≠ b₀ := by
  obtain ⟨b₀, hb₀, hnot⟩ := Finset.exists_mem_notMem_of_card_lt_card
    (s := (Finset.Icc 1 NBUF).image blk) (t := Finset.range (NBUF + 1)) <| by
      calc ((Finset.Icc 1 NBUF).image blk).card ≤ (Finset.Icc 1 NBUF).card := Finset.card_image_le
        _ < (Finset.range (NBUF + 1)).card := by simp
  have hfs : NBUF + 1 < FSSIZE := by decide
  refine ⟨b₀, by simp at hb₀; omega, fun j hj1 hj hj' => hnot ?_⟩
  exact Finset.mem_image.2 ⟨j, Finset.mem_Icc.2 ⟨hj1, hj⟩, hj'⟩

/-- The "no buffers" panic of `bget` is reachable: `NBUF` readers of distinct blocks each
recycle a buffer and sleep in `iderw`, waiting for the disk with the buffer busy, and one
more reader, of a block not among theirs, finds no buffer that is neither busy nor dirty. The
first reader starts the disk, so it reads a block on the disk, one that is none of the others'. -/
theorem bget_no_buffers_reachable (hblk : ∀ j k, j ≤ NBUF → k ≤ NBUF → blk j = blk k → j = k) :
    ∃ s, BReachable s ∧
      s.step (.bread ⟨NBUF, by decide⟩ ROOTDEV (blk NBUF)) = some (.error "bget: no buffers") := by
  -- the first reader starts the disk on its block: it reads a block on the disk, none of the
  -- others', in place of `blk 0`
  obtain ⟨b₀, hb₀, hfresh⟩ := exists_first_block blk
  have hdist : ∀ j k, j ≤ NBUF → k ≤ NBUF →
      (if j = 0 then b₀ else blk j) = (if k = 0 then b₀ else blk k) → j = k := by
    intro j k hj hk h
    by_cases hj0 : j = 0 <;> by_cases hk0 : k = 0 <;> simp only [hj0, hk0, if_true, if_false] at h
    · omega
    · exact absurd h.symm (hfresh k (by omega) hk)
    · exact absurd h (hfresh j (by omega) hj)
    · exact hblk j k hj hk h
  obtain ⟨s, hr, hs⟩ := filled_reachable hdist (by simpa using hb₀) NBUF le_rfl
  refine ⟨s, hr, ?_⟩
  have hu : Uncached s.cache ROOTDEV (blk NBUF) := hs.uncached fun i hi h => by
    by_cases hi0 : i.val = 0
    · rw [if_pos hi0] at h
      exact hfresh NBUF (by decide) le_rfl h.symm
    · rw [if_neg hi0] at h
      exact absurd (hblk i NBUF (by omega) le_rfl h) (by omega)
  have herr : bget s.cache ROOTDEV (blk NBUF) = .error "bget: no buffers" :=
    bget_eq_error_iff.2 ⟨hu, fun i _ => .inl (hs.busy i i.isLt).1⟩
  rw [Bsys.step, if_pos (hs.idle _ le_rfl), Bsys.breadFor_of_error herr]

/-- The readers of the first `NBUF + 1` data blocks of the file system `mkfs` builds. -/
theorem bget_no_buffers_data_blocks :
    ∃ s, BReachable s ∧
      s.step (.bread ⟨NBUF, by decide⟩ ROOTDEV (NBUF + 59)) = some (.error "bget: no buffers") :=
  @bget_no_buffers_reachable (· + 59) (fun j k _ _ h => by omega)

end Exhaust

end Xv6

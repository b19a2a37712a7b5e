import Xv6.Param
import Xv6.Lib.Store
import Xv6.Lib.Crash

/-!
# The redo log on disk (`log.c`)

The disk is a map from block numbers to block contents together with the header block
at `log.start`. Every `bwrite` of `log.c` is one atomic step on it, so `commit()` and
`recover_from_log()` are lists of steps, run and interrupted with `Crash.run`. The steps
of `install_trans` read the log slot they copy from the disk they run on, as the code's
`bread` of the log block does.

`writeLog`, `writeHead`, `installTrans`, `readHead`, `commit` and `recoverFromLog` follow
the functions of the same names. The cache is a parameter `cache : Nat → α`: the buffer
of each logged block is pinned (`B_DIRTY`) from `log_write` to `install_trans`, so
`write_log`'s `bread` of a logged block returns the cached copy. The spec lemmas at the
end say what a prefix of each loop does to the disk as a `Store.writeList`.
-/

namespace Xv6

/-- `struct logheader`: the number of logged blocks and their block numbers. It is both
the on-disk header and the in-memory copy `log.lh`. -/
structure LogHeader where
  n : Nat
  block : Nat → Nat

/-- The disk: the contents of every block, and the log header block. -/
@[ext] structure Disk (α : Type*) where
  data : Nat → α
  head : LogHeader

/-- `struct log`: where the log lives on disk, the count of file-system calls in
progress, the commit flag and the in-memory header. -/
structure Log where
  start : Nat
  size : Nat
  outstanding : Nat
  committing : Bool
  lh : LogHeader

variable {α : Type*}

/-- One synchronous `bwrite` of block `b` with contents `x`. -/
def Disk.bwrite (b : Nat) (x : α) (d : Disk α) : Disk α :=
  { d with data := Function.update d.data b x }

@[simp] theorem Disk.bwrite_head (b : Nat) (x : α) (d : Disk α) :
    (d.bwrite b x).head = d.head := rfl

/-- The in-memory header with its count set to zero, as `commit` and `recover_from_log`
do before the final `write_head`. -/
def LogHeader.clear (lh : LogHeader) : LogHeader := { lh with n := 0 }

@[simp] theorem LogHeader.clear_n (lh : LogHeader) : lh.clear.n = 0 := rfl

namespace Log

/-- `write_head`: the header block, as read from disk, gets the in-memory count and the
first `n` block numbers. -/
def writeHead (lh : LogHeader) (d : Disk α) : Disk α :=
  { d with head := { n := lh.n, block := fun i => if i < lh.n then lh.block i else d.head.block i } }

@[simp] theorem writeHead_data (lh : LogHeader) (d : Disk α) :
    (writeHead lh d).data = d.data := rfl

@[simp] theorem writeHead_n (lh : LogHeader) (d : Disk α) :
    (writeHead lh d).head.n = lh.n := rfl

theorem writeHead_block_of_lt (lh : LogHeader) (d : Disk α) {i : Nat} (hi : i < lh.n) :
    (writeHead lh d).head.block i = lh.block i := by
  simp [writeHead, hi]

/-- Writing a header with count `0` copies no block number: only the count changes, and
doing it twice is doing it once. -/
theorem writeHead_zero_idem (lh lh' : LogHeader) (hn : lh.n = 0) (hn' : lh'.n = 0)
    (d : Disk α) : writeHead lh (writeHead lh' d) = writeHead lh' d := by
  ext <;> simp [writeHead, hn, hn']

/-- The log slot of the `tail`-th logged block. -/
def slot (log : Log) (tail : Nat) : Nat := log.start + tail + 1

/-- The block numbers of the transaction, in log order. -/
def txBlocks (log : Log) : List Nat := (List.range log.lh.n).map log.lh.block

/-- A home block: one outside the log area `[start, start + size)`. -/
def home (log : Log) (b : Nat) : Prop := b < log.start ∨ log.start + log.size ≤ b

instance (log : Log) (b : Nat) : Decidable (log.home b) :=
  inferInstanceAs (Decidable (_ ∨ _))

/-- The writes of `write_log`: slot `tail` gets the cached copy of `block[tail]`. -/
def logWrites (log : Log) (cache : Nat → α) : List (Nat × α) :=
  (List.range log.lh.n).map fun tail => (log.slot tail, cache (log.lh.block tail))

/-- `write_log`: one `bwrite` per logged block, into its log slot. -/
def writeLog (log : Log) (cache : Nat → α) : List (Disk α → Disk α) :=
  (logWrites log cache).map fun w => Disk.bwrite w.1 w.2

/-- One turn of `install_trans`'s loop: copy log slot `tail` to `block[tail]`. -/
def installStep (log : Log) (tail : Nat) (d : Disk α) : Disk α :=
  d.bwrite (log.lh.block tail) (d.data (log.slot tail))

/-- `install_trans`: copy every logged block from the log to its home location. -/
def installTrans (log : Log) : List (Disk α → Disk α) :=
  (List.range log.lh.n).map (installStep log)

/-- `commit`: nothing for an empty transaction; otherwise write the log, write the header
(the commit point), install, and write the header again with count zero. -/
def commit (log : Log) (cache : Nat → α) : List (Disk α → Disk α) :=
  if 0 < log.lh.n then
    writeLog log cache ++ writeHead log.lh :: (installTrans log ++ [writeHead log.lh.clear])
  else []

/-- `read_head`: the count and the first `n` block numbers come from the disk. -/
def readHead (lh : LogHeader) (d : Disk α) : LogHeader :=
  { n := d.head.n, block := fun i => if i < d.head.n then d.head.block i else lh.block i }

/-- `recover_from_log`: read the header, install what it names, clear the header. -/
def recoverFromLog (log : Log) (d : Disk α) : List (Disk α → Disk α) :=
  let log' := { log with lh := readHead log.lh d }
  installTrans log' ++ [writeHead log'.lh.clear]

/-- The home contents once every logged block has been installed over `data`. -/
def installed (log : Log) (cache : Nat → α) (data : Nat → α) (b : Nat) : α :=
  if b ∈ log.txBlocks then cache b else data b

/-! ## What the loops do -/

/-- Steps that each write a fixed value perform a `Store.writeList`. -/
theorem run_bwrites (ws : List (Nat × α)) (d : Disk α) :
    Crash.run (ws.map fun w => Disk.bwrite w.1 w.2) d =
      { d with data := Store.writeList ws d.data } := by
  induction ws generalizing d with
  | nil => rfl
  | cons w ws ih =>
      rw [List.map_cons, Crash.run_cons, ih]
      rfl

theorem slot_injective (log : Log) {i j : Nat} (h : log.slot i = log.slot j) : i = j := by
  simp only [Log.slot] at h
  omega

/-- A slot of the first `n` lies inside the log area when `n < size`. -/
theorem not_home_slot (log : Log) {i : Nat} (hi : i < log.lh.n) (hroom : log.lh.n < log.size) :
    ¬ log.home (log.slot i) := by
  simp only [Log.home, Log.slot]
  omega

/-- The prefix of `install_trans` that ran: when no logged block is a log slot, each
step reads the slot as it was at the start, so the prefix is a `Store.writeList`. -/
theorem run_installSteps (log : Log) (ts : List Nat)
    (hts : ∀ t ∈ ts, ∀ t' ∈ ts, log.lh.block t ≠ log.slot t') (d : Disk α) :
    Crash.run (ts.map (installStep log)) d =
      { d with data := Store.writeList (ts.map fun t => (log.lh.block t, d.data (log.slot t))) d.data } := by
  induction ts generalizing d with
  | nil => rfl
  | cons t ts ih =>
      have hrest : ∀ u ∈ ts, ∀ u' ∈ ts, log.lh.block u ≠ log.slot u' :=
        fun u hu u' hu' => hts u (List.mem_cons_of_mem _ hu) u' (List.mem_cons_of_mem _ hu')
      rw [List.map_cons, Crash.run_cons, ih hrest]
      have hslots : ∀ u ∈ ts, (installStep log t d).data (log.slot u) = d.data (log.slot u) := by
        intro u hu
        exact Function.update_of_ne (Ne.symm (hts t List.mem_cons_self u (List.mem_cons_of_mem _ hu))) _ _
      have hmap : (ts.map fun u => (log.lh.block u, (installStep log t d).data (log.slot u))) =
          ts.map fun u => (log.lh.block u, d.data (log.slot u)) :=
        List.map_congr_left fun u hu => by rw [hslots u hu]
      rw [hmap, List.map_cons, Store.writeList_cons]
      rfl

end Log

end Xv6

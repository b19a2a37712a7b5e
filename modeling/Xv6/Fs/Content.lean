import Xv6.Fs.Inode
import Xv6.Fs.Mkfs
import Xv6.Lib.Splice

/-!
# A file as an array of bytes (`readi`, `writei`)

The content of a file is the `size` bytes of the blocks `bmap` finds for it: `blockOf` reads
the direct addresses and the indirect block as `bmap` does, without allocating. On an inode
whose blocks are laid out as the file system keeps them (`FileOk`: distinct, in use in the
bitmap, the indirect block apart from them; `Mapped`: every block below the size has an
address), `readi` copies a slice of the content and changes nothing, and `writei` splices its
bytes into the content, allocating the blocks past the end as it goes.

`writei` runs inside a transaction, and every block it changes goes through `log_write`,
which panics once the header is full: the write goes through when the log has room for the
blocks it touches, the bitmap block, the indirect block and the inode's block
(`Log.Fits`), and the bitmap has a free block for each block it may allocate.
-/

namespace Xv6

namespace Log

instance (lh : LogHeader) (b : Nat) : Decidable (Logged lh b) :=
  inferInstanceAs (Decidable (∃ i < lh.n, lh.block i = b))

/-- The blocks of `S` that the header does not hold yet. -/
def unlogged (lh : LogHeader) (S : List Nat) : Nat :=
  (S.filter fun b => !decide (Logged lh b)).length

/-- Inside a transaction, the log can take the blocks of `S` and `k` other new blocks, and one
more `log_write` after them. -/
def Fits (log : Log) (S : List Nat) (k : Nat) : Prop :=
  1 ≤ log.outstanding ∧ log.lh.n + unlogged log.lh S + k < LOGSIZE ∧
    log.lh.n + unlogged log.lh S + k + 1 < log.size

variable {lh lh' : LogHeader} {S : List Nat}

/-- A header that keeps every logged block leaves no more of `S` unlogged. -/
theorem unlogged_le (hmono : ∀ c, Logged lh c → Logged lh' c) :
    unlogged lh' S ≤ unlogged lh S := by
  unfold unlogged
  induction S with
  | nil => simp
  | cons c S ih =>
    by_cases h : Logged lh c
    · simp [h, hmono c h]
      omega
    · by_cases h' : Logged lh' c <;> simp [h, h'] <;> omega

/-- … and one fewer when it also logs a block of `S` that was not logged. -/
theorem unlogged_lt {b : Nat} (hmono : ∀ c, Logged lh c → Logged lh' c) (hb : b ∈ S)
    (hnew : ¬ Logged lh b) (hb' : Logged lh' b) : unlogged lh' S < unlogged lh S := by
  unfold unlogged
  induction S with
  | nil => cases hb
  | cons c S ih =>
    have hle : unlogged lh' S ≤ unlogged lh S := unlogged_le hmono
    unfold unlogged at hle
    rcases List.mem_cons.1 hb with rfl | hbS
    · simp [hnew, hb']
      omega
    · have := ih hbS
      by_cases h : Logged lh c
      · simp [h, hmono c h]
        omega
      · by_cases h' : Logged lh' c <;> simp [h, h'] <;> omega

variable {log : Log} {k : Nat}

theorem Fits.mono {k' : Nat} (h : log.Fits S k) (hk : k' ≤ k) : log.Fits S k' :=
  ⟨h.1, by have := h.2.1; omega, by have := h.2.2; omega⟩

/-- Room for `k + S.length` new blocks is room for the blocks of `S` and `k` more. -/
theorem Fits.of_nil (h : log.Fits [] (k + S.length)) : log.Fits S k := by
  have hle : unlogged log.lh S ≤ S.length := List.length_filter_le _ _
  obtain ⟨h1, h2, h3⟩ := h
  simp only [unlogged, List.filter_nil, List.length_nil] at h2 h3
  exact ⟨h1, by omega, by omega⟩

/-- `log'` is `log` after `log_write`s: every logged block stays logged, and the rest of the
log is as it was. -/
structure Grows (log log' : Log) : Prop where
  mono : ∀ c, Logged log.lh c → Logged log'.lh c
  size : log'.size = log.size
  outstanding : log'.outstanding = log.outstanding
  committing : log'.committing = log.committing

theorem Grows.refl (log : Log) : Grows log log := ⟨fun _ h => h, rfl, rfl, rfl⟩

theorem Grows.trans {log₁ log₂ log₃ : Log} (h₁ : Grows log₁ log₂) (h₂ : Grows log₂ log₃) :
    Grows log₁ log₃ :=
  ⟨fun c h => h₂.mono c (h₁.mono c h), h₂.size.trans h₁.size,
    h₂.outstanding.trans h₁.outstanding, h₂.committing.trans h₁.committing⟩

/-- A `log_write` of a block that is logged or paid for in `S` keeps the room for `k` others. -/
theorem Fits.logWrite (h : log.Fits S k) {b : Nat} (hb : b ∈ S ∨ Logged log.lh b) :
    ∃ log', log.logWrite b = .ok log' ∧ log'.Fits S k ∧ Grows log log' ∧ Logged log'.lh b := by
  obtain ⟨h1, hL, hs⟩ := h
  obtain ⟨log', hw⟩ := Log.logWrite_inside log b h1 (by omega) (by omega)
  obtain ⟨hn, hold, hmono, hb', hout, hcom, -⟩ := Log.logWrite_ok hw
  have hsize := Log.logWrite_size hw
  refine ⟨log', hw, ⟨by omega, ?_⟩, ⟨hmono, hsize, hout, hcom⟩, hb'⟩
  have hle := unlogged_le (S := S) hmono
  by_cases hl : Logged log.lh b
  · have := hold hl
    constructor <;> omega
  · have := unlogged_lt hmono (hb.resolve_right hl) hl hb'
    constructor <;> omega

/-- A `log_write` of any block, paid from the room for `k + 1` others. -/
theorem Fits.logWrite_new (h : log.Fits S (k + 1)) (b : Nat) :
    ∃ log', log.logWrite b = .ok log' ∧ log'.Fits S k ∧ Grows log log' ∧ Logged log'.lh b := by
  obtain ⟨h1, hL, hs⟩ := h
  obtain ⟨log', hw⟩ := Log.logWrite_inside log b h1 (by omega) (by omega)
  obtain ⟨hn, -, hmono, hb', hout, hcom, -⟩ := Log.logWrite_ok hw
  have hsize := Log.logWrite_size hw
  have hle := unlogged_le (S := S) hmono
  exact ⟨log', hw, ⟨by omega, by omega, by omega⟩, ⟨hmono, hsize, hout, hcom⟩, hb'⟩

end Log

namespace Fs

/-- The disk block of file block `bn`, found as `bmap` finds it, `0` when it has none. -/
def blockOf (s : Fs) (ip : Fin NINODE) (bn : Nat) : Nat :=
  if bn < NDIRECT then (s.inode ip).addrs bn
  else if (s.inode ip).addrs NDIRECT = 0 then 0
  else (s.mem.data ((s.inode ip).addrs NDIRECT)).getU32 (bn - NDIRECT)

/-- The byte at offset `o` of the file. -/
def byteAt (s : Fs) (ip : Fin NINODE) (o : Nat) : UInt8 :=
  s.mem.data (s.blockOf ip (o / BSIZE)) (o % BSIZE)

/-- The content of the file: its first `size` bytes. -/
def content (s : Fs) (ip : Fin NINODE) : List UInt8 :=
  (List.range (s.inode ip).size).map (s.byteAt ip)

/-- The blocks below the size of the file system that the bitmap marks free. -/
def freeCount (s : Fs) : Nat :=
  (List.range s.sb.size).countP fun b => !s.mem.bitmap b

/-- The layout of an inode that `readi` and `writei` rely on: the file's blocks are distinct,
in use in the bitmap, and apart from its indirect block, which is in use too; block `0`,
the boot block, is in use, so `balloc` never returns it. -/
structure FileOk (s : Fs) (ip : Fin NINODE) : Prop where
  size : (s.inode ip).size ≤ MAXFILE * BSIZE
  inj : ∀ a b, a < MAXFILE → b < MAXFILE → s.blockOf ip a ≠ 0 →
    s.blockOf ip a = s.blockOf ip b → a = b
  used : ∀ bn < MAXFILE, s.blockOf ip bn ≠ 0 → s.mem.bitmap (s.blockOf ip bn) = true
  ind_used : (s.inode ip).addrs NDIRECT ≠ 0 → s.mem.bitmap ((s.inode ip).addrs NDIRECT) = true
  ind_ne : (s.inode ip).addrs NDIRECT ≠ 0 → ∀ bn < MAXFILE,
    s.blockOf ip bn ≠ (s.inode ip).addrs NDIRECT
  boot : s.mem.bitmap 0 = true

/-- Every block of the file below offset `E` has an address. -/
def Mapped (s : Fs) (ip : Fin NINODE) (E : Nat) : Prop :=
  ∀ bn, bn * BSIZE < E → s.blockOf ip bn ≠ 0

variable {s : Fs} {ip : Fin NINODE}

/-- The file's blocks and bytes depend only on its addresses and the blocks' data. -/
theorem blockOf_congr {s' : Fs} (ha : (s'.inode ip).addrs = (s.inode ip).addrs)
    (hd : s'.mem.data = s.mem.data) : s'.blockOf ip = s.blockOf ip := by
  funext bn
  simp [blockOf, ha, hd]

theorem byteAt_congr {s' : Fs} (ha : (s'.inode ip).addrs = (s.inode ip).addrs)
    (hd : s'.mem.data = s.mem.data) : s'.byteAt ip = s.byteAt ip := by
  funext o
  simp [byteAt, blockOf_congr ha hd, hd]

/-- The layout is a matter of the blocks, the bitmap and the indirect block, and of a size
within bounds. -/
theorem FileOk.congr {s' : Fs} (hok : s.FileOk ip) (hblk : s'.blockOf ip = s.blockOf ip)
    (hbm : s'.mem.bitmap = s.mem.bitmap)
    (hind : (s'.inode ip).addrs NDIRECT = (s.inode ip).addrs NDIRECT)
    (hsize : (s'.inode ip).size ≤ MAXFILE * BSIZE) : s'.FileOk ip := by
  refine ⟨hsize, ?_, ?_, ?_, ?_, ?_⟩ <;> simp only [hblk, hbm, hind]
  exacts [hok.inj, hok.used, hok.ind_used, hok.ind_ne, hok.boot]

/-! ## How the updates of `bmap` move the file's blocks -/

@[simp] theorem blockOf_log (l : Log) : { s with log := l }.blockOf ip = s.blockOf ip := rfl

@[simp] theorem blockOf_setBit (b : Nat) (v : Bool) :
    { s with mem := s.mem.setBit b v }.blockOf ip = s.blockOf ip := rfl

/-- Writing a block other than the indirect block moves none of the file's blocks. -/
theorem blockOf_setData {x : Nat} (blk : Block)
    (hx : (s.inode ip).addrs NDIRECT ≠ 0 → x ≠ (s.inode ip).addrs NDIRECT) :
    { s with mem := s.mem.setData x blk }.blockOf ip = s.blockOf ip := by
  funext bn
  unfold blockOf
  split_ifs with h₁ h₂
  · rfl
  · rfl
  · simp [Function.update_of_ne (Ne.symm (hx h₂))]

/-- Giving direct block `k` an address. -/
theorem blockOf_setAddr {k a : Nat} (hk : k < NDIRECT) (bn : Nat) :
    (s.setAddr ip k a).blockOf ip bn = if bn = k then a else s.blockOf ip bn := by
  unfold blockOf setAddr
  have hkn : NDIRECT ≠ k := by omega
  by_cases hbn : bn = k
  · subst bn
    simp [hk]
  · by_cases hlt : bn < NDIRECT <;> simp [hbn, hlt, Function.update_of_ne hkn]

/-- Storing address `v` in entry `j` of the indirect block. -/
theorem blockOf_setU32 {j v : Nat} (hind : (s.inode ip).addrs NDIRECT ≠ 0) (hv : v < 2 ^ 32)
    (bn : Nat) :
    ({ s with
        mem := s.mem.setData ((s.inode ip).addrs NDIRECT)
          ((s.mem.data ((s.inode ip).addrs NDIRECT)).setU32 j v) } : Fs).blockOf ip bn =
      if bn = NDIRECT + j then v else s.blockOf ip bn := by
  unfold blockOf
  by_cases hlt : bn < NDIRECT
  · simp [hlt, show bn ≠ NDIRECT + j by omega]
  · simp only [hlt, if_false, hind, Image.setData_data, Function.update_self]
    by_cases hj : bn = NDIRECT + j
    · subst bn
      simp [Block.getU32_setU32_self _ _ _ hv]
    · rw [if_neg hj, Block.getU32_setU32_of_ne _ _ (by omega)]

/-- A fresh, zeroed indirect block gives no block past the direct ones an address. -/
theorem blockOf_setAddr_ind {a : Nat} (ha : s.mem.data a = Block.zero) (bn : Nat) :
    (s.setAddr ip NDIRECT a).blockOf ip bn = if bn < NDIRECT then s.blockOf ip bn else 0 := by
  unfold blockOf setAddr
  by_cases hlt : bn < NDIRECT
  · simp [hlt, show bn ≠ NDIRECT by omega]
  · by_cases ha0 : a = 0 <;> simp [hlt, ha0, ha]

/-! ## `balloc` -/

/-- Marking one of the first `N` blocks in use leaves one free block fewer among them. -/
theorem countP_range_update {bm : Nat → Bool} {b : Nat} (hfree : bm b = false) :
    ∀ {N : Nat}, b < N →
      (List.range N).countP (fun x => !Function.update bm b true x) + 1 =
        (List.range N).countP (fun x => !bm x)
  | 0, h => absurd h (Nat.not_lt_zero _)
  | N + 1, h => by
    rw [List.range_succ, List.countP_append, List.countP_append]
    rcases Nat.lt_succ_iff_lt_or_eq.1 h with hlt | rfl
    · have ih := countP_range_update hfree hlt
      simp [Function.update_of_ne (show N ≠ b by omega)]
      omega
    · -- the last block is `b`; below it the bitmap is unchanged
      have hrest : (List.range b).countP (fun x => !Function.update bm b true x) =
          (List.range b).countP (fun x => !bm x) :=
        List.countP_congr fun x hx => by
          rw [Function.update_of_ne (Nat.ne_of_lt (List.mem_range.1 hx))]
      simp [hrest, hfree]

/-- Marking a free block in use, whatever else changes but the bitmap and the superblock. -/
theorem freeCount_mark {s' : Fs} {b : Nat} (hb : b < s.sb.size) (hfree : s.mem.bitmap b = false)
    (hsb : s'.sb = s.sb) (hbm : s'.mem.bitmap = Function.update s.mem.bitmap b true) :
    s'.freeCount + 1 = s.freeCount := by
  unfold freeCount
  rw [hsb, hbm]
  exact countP_range_update hfree hb

/-- `balloc` with a free block below the size and room in the log for one new block, its bitmap
block being paid for: it returns a block that was free, marked and zeroed, and logged. -/
theorem balloc_spec {S : List Nat} {k : Nat} (hfree : 0 < s.freeCount)
    (hfits : s.log.Fits S (k + 1)) (hbm : ∀ b < s.sb.size, BBLOCK b s.sb ∈ S) :
    ∃ b l, s.balloc =
        .ok (b, { s with mem := (s.mem.setBit b true).setData b Block.zero, log := l }) ∧
      b < s.sb.size ∧ s.mem.bitmap b = false ∧ l.Fits S k ∧ Log.Grows s.log l ∧
      Log.Logged l.lh b := by
  obtain ⟨b₀, hb₀, hfree₀⟩ : ∃ b < s.sb.size, s.mem.bitmap b = false := by
    obtain ⟨b, hb, hfb⟩ := List.countP_pos_iff.1 hfree
    exact ⟨b, List.mem_range.1 hb, by simpa using hfb⟩
  obtain ⟨b, hfind, hb, hfb⟩ := freeBlock_exists ⟨b₀, hb₀, hfree₀⟩
  obtain ⟨l₁, h₁, hfits₁, hg₁, -⟩ := hfits.logWrite (.inl (hbm b hb))
  obtain ⟨l₂, h₂, hfits₂, hg₂, hl₂⟩ := hfits₁.logWrite_new b
  exact ⟨b, l₂, balloc_ok hfind h₁ h₂, hb, hfb, hfits₂, hg₁.trans hg₂, hl₂⟩

/-! ## The layout after an allocation -/

/-- A block that was free is none of the file's blocks, and not its indirect block. -/
theorem FileOk.ne_of_free (hok : s.FileOk ip) {b : Nat} (hb : s.mem.bitmap b = false) :
    b ≠ 0 ∧ (∀ bn < MAXFILE, s.blockOf ip bn ≠ 0 → s.blockOf ip bn ≠ b) ∧
      ((s.inode ip).addrs NDIRECT ≠ 0 → (s.inode ip).addrs NDIRECT ≠ b) := by
  refine ⟨fun h => ?_, fun bn hbn h0 h => ?_, fun h0 h => ?_⟩
  · rw [h, hok.boot] at hb
    cases hb
  · rw [← h, hok.used bn hbn h0] at hb
    cases hb
  · rw [← h, hok.ind_used h0] at hb
    cases hb

/-- Giving file block `bn` a block `b` that was free, and marking it in use, keeps the layout. -/
theorem FileOk.of_alloc {s' : Fs} (hok : s.FileOk ip) {bn b : Nat}
    (hb : s.mem.bitmap b = false) (hbm : s'.mem.bitmap = Function.update s.mem.bitmap b true)
    (hblk : ∀ bn', s'.blockOf ip bn' = if bn' = bn then b else s.blockOf ip bn')
    (hind : (s'.inode ip).addrs NDIRECT = (s.inode ip).addrs NDIRECT)
    (hsize : (s'.inode ip).size = (s.inode ip).size) : s'.FileOk ip := by
  obtain ⟨hb0, hbf, hbi⟩ := hok.ne_of_free hb
  refine ⟨hsize ▸ hok.size, fun a c ha hc h0 h => ?_, fun bn' hbn' h0 => ?_, fun h0 => ?_,
    fun h0 bn' hbn' => ?_, ?_⟩
  · rw [hblk, hblk] at h
    rw [hblk] at h0
    by_cases hab : a = bn <;> by_cases hcb : c = bn
    · rw [hab, hcb]
    · -- `b` against a block the file had
      simp only [hab, hcb, if_true, if_false] at h h0
      exact absurd h.symm (hbf c hc (h ▸ hb0))
    · simp only [hab, hcb, if_true, if_false] at h h0
      exact absurd h (hbf a ha h0)
    · simp only [hab, hcb, if_false] at h h0
      exact hok.inj a c ha hc h0 h
  · rw [hbm, hblk]
    rw [hblk] at h0
    by_cases h' : bn' = bn
    · simp [h']
    · simp only [h', if_false] at h0 ⊢
      by_cases hx : s.blockOf ip bn' = b
      · simp [hx]
      · rw [Function.update_of_ne hx]
        exact hok.used bn' hbn' h0
  · rw [hind] at h0 ⊢
    rw [hbm, Function.update_of_ne (hbi h0)]
    exact hok.ind_used h0
  · rw [hind] at h0 ⊢
    rw [hblk]
    by_cases h' : bn' = bn
    · simp only [h', if_true]
      exact (hbi h0).symm
    · simp only [h', if_false]
      exact hok.ind_ne h0 bn' hbn'
  · rw [hbm, Function.update_of_ne (Ne.symm hb0)]
    exact hok.boot

/-- Giving a file without an indirect block a fresh, zeroed one keeps the layout. -/
theorem FileOk.of_alloc_ind {s' : Fs} (hok : s.FileOk ip) {b : Nat} (hb : s.mem.bitmap b = false)
    (hbm : s'.mem.bitmap = Function.update s.mem.bitmap b true)
    (hblk : s'.blockOf ip = s.blockOf ip) (hind : (s'.inode ip).addrs NDIRECT = b)
    (hsize : (s'.inode ip).size = (s.inode ip).size) : s'.FileOk ip := by
  obtain ⟨hb0, hbf, -⟩ := hok.ne_of_free hb
  refine ⟨hsize ▸ hok.size, fun a c ha hc h0 h => ?_, fun bn' hbn' h0 => ?_, fun _ => ?_,
    fun _ bn' hbn' => ?_, ?_⟩
  · rw [hblk] at h h0
    exact hok.inj a c ha hc h0 h
  · rw [hblk] at h0 ⊢
    rw [hbm, Function.update_of_ne (hbf bn' hbn' h0)]
    exact hok.used bn' hbn' h0
  · rw [hind, hbm, Function.update_self]
  · rw [hind, hblk]
    intro h
    exact hbf bn' hbn' (h ▸ hb0) h
  · rw [hbm, Function.update_of_ne (Ne.symm hb0)]
    exact hok.boot

/-! ## `bmap` -/

/-- What `bmap` of file block `bn` leaves, having returned the disk block `b`: `b` is the file's
block `bn` and has an address, the file's other blocks are where they were, and so are the
bytes of every block in use but the indirect block; the inode keeps its size, type and
i-number, and its layout. -/
structure Bmapped (s s' : Fs) (ip : Fin NINODE) (bn b : Nat) : Prop where
  self : s'.blockOf ip bn = b
  ne_zero : b ≠ 0
  other : ∀ bn', bn' ≠ bn → s'.blockOf ip bn' = s.blockOf ip bn'
  data : ∀ x, s.mem.bitmap x = true →
    ((s.inode ip).addrs NDIRECT ≠ 0 → x ≠ (s.inode ip).addrs NDIRECT) → s'.mem.data x = s.mem.data x
  fileOk : s'.FileOk ip
  size : (s'.inode ip).size = (s.inode ip).size
  type : (s'.inode ip).type = (s.inode ip).type
  inum : (s'.inode ip).inum = (s.inode ip).inum
  sb : s'.sb = s.sb

/-- A block that has an address: `bmap` returns it and changes nothing. -/
theorem bmap_of_mapped {bn : Nat} (hbn : bn < MAXFILE) (h : s.blockOf ip bn ≠ 0) :
    s.bmap ip bn = .ok (s.blockOf ip bn, s) := by
  by_cases hd : bn < NDIRECT
  · have ha : s.blockOf ip bn = (s.inode ip).addrs bn := by simp [blockOf, hd]
    rw [ha] at h ⊢
    exact bmap_mapped hd h
  · have hind : (s.inode ip).addrs NDIRECT ≠ 0 := fun h0 => h (by simp [blockOf, hd, h0])
    have ha : s.blockOf ip bn = (s.mem.data ((s.inode ip).addrs NDIRECT)).getU32 (bn - NDIRECT) := by
      simp [blockOf, hd, hind]
    rw [ha] at h ⊢
    have hlt : bn - NDIRECT < NINDIRECT := by unfold MAXFILE at hbn; omega
    simp only [bmap, hd, if_false, hlt, if_true, hind, pure_bind, h]
    rfl

theorem bmapped_of_mapped (hok : s.FileOk ip) {bn : Nat} (h : s.blockOf ip bn ≠ 0) :
    Bmapped s s ip bn (s.blockOf ip bn) :=
  ⟨rfl, h, fun _ _ => rfl, fun _ _ _ => rfl, hok, rfl, rfl, rfl, rfl⟩

@[simp] theorem setAddr_mem (k a : Nat) : (s.setAddr ip k a).mem = s.mem := rfl
@[simp] theorem setAddr_log (k a : Nat) : (s.setAddr ip k a).log = s.log := rfl
@[simp] theorem setAddr_sb (k a : Nat) : (s.setAddr ip k a).sb = s.sb := rfl

theorem setAddr_inode (k a : Nat) :
    (s.setAddr ip k a).inode ip =
      { s.inode ip with addrs := Function.update (s.inode ip).addrs k a } := by
  simp [setAddr]

/-- The state `balloc` leaves moves none of the file's blocks: the block it zeroes was free. -/
theorem blockOf_balloc (hok : s.FileOk ip) {b : Nat} (hb : s.mem.bitmap b = false) (l : Log) :
    ({ s with mem := (s.mem.setBit b true).setData b Block.zero, log := l } : Fs).blockOf ip =
      s.blockOf ip := by
  have hne := (hok.ne_of_free hb).2.2
  funext bn
  unfold blockOf
  split_ifs with h₁ h₂
  · rfl
  · rfl
  · simp [Function.update_of_ne (hne h₂)]

/-- `balloc` returned the free block `b`, and `bmap` gave it to direct block `bn`. -/
theorem bmapped_direct_alloc (hok : s.FileOk ip) {bn b : Nat} (hbn : bn < NDIRECT)
    (hbf : s.mem.bitmap b = false) (l : Log) :
    Bmapped s (({ s with mem := (s.mem.setBit b true).setData b Block.zero, log := l } : Fs).setAddr
      ip bn b) ip bn b := by
  set s₁ : Fs := { s with mem := (s.mem.setBit b true).setData b Block.zero, log := l }
  have hblk : ∀ bn', (s₁.setAddr ip bn b).blockOf ip bn' = if bn' = bn then b else s.blockOf ip bn' := by
    intro bn'
    rw [blockOf_setAddr hbn, blockOf_balloc hok hbf]
  refine ⟨by simp [hblk], (hok.ne_of_free hbf).1, fun bn' h => by simp [hblk, h],
    fun x hx _ => ?_, ?_, by simp [setAddr_inode, s₁], by simp [setAddr_inode, s₁],
    by simp [setAddr_inode, s₁], rfl⟩
  · have hxb : x ≠ b := fun h => by rw [h, hbf] at hx; cases hx
    simp [s₁, Function.update_of_ne hxb]
  · exact hok.of_alloc hbf (by simp [s₁]) hblk (by simp [setAddr_inode, s₁, show NDIRECT ≠ bn by omega])
      (by simp [setAddr_inode, s₁])

/-- A direct block without an address: `bmap` allocates it. -/
theorem bmap_direct_hole (hok : s.FileOk ip) {bn : Nat} {S : List Nat} {j : Nat}
    (hbn : bn < NDIRECT) (h0 : s.blockOf ip bn = 0) (hfree : 0 < s.freeCount)
    (hfits : s.log.Fits S (j + 1)) (hbm : ∀ b < s.sb.size, BBLOCK b s.sb ∈ S) :
    ∃ b s', s.bmap ip bn = .ok (b, s') ∧ Bmapped s s' ip bn b ∧ s.mem.bitmap b = false ∧
      Log.Logged s'.log.lh b ∧ s'.log.Fits S j ∧ Log.Grows s.log s'.log ∧
      s'.freeCount + 1 = s.freeCount ∧
      (s'.inode ip).addrs NDIRECT = (s.inode ip).addrs NDIRECT := by
  obtain ⟨b, l, hb, hbs, hbf, hfits', hg, hl⟩ := balloc_spec hfree hfits hbm
  have ha : (s.inode ip).addrs bn = 0 := by simpa [blockOf, hbn] using h0
  refine ⟨b, _, bmap_hole_ok hbn ha hb, bmapped_direct_alloc hok hbn hbf l, hbf, hl, hfits', hg,
    freeCount_mark hbs hbf rfl (by simp), by simp [setAddr_inode, show NDIRECT ≠ bn by omega]⟩

/-- `balloc` returned the free block `b`, and `bmap` recorded it as block `bn` in the file's
indirect block. -/
theorem bmapped_ind_alloc (hok : s.FileOk ip) {bn b : Nat} (hlo : NDIRECT ≤ bn)
    (hind : (s.inode ip).addrs NDIRECT ≠ 0) (hbf : s.mem.bitmap b = false) (hb32 : b < 2 ^ 32)
    (l l' : Log) :
    Bmapped s { ({ s with mem := (s.mem.setBit b true).setData b Block.zero, log := l } : Fs) with
      mem := ((s.mem.setBit b true).setData b Block.zero).setData ((s.inode ip).addrs NDIRECT)
        ((((s.mem.setBit b true).setData b Block.zero).data ((s.inode ip).addrs NDIRECT)).setU32
          (bn - NDIRECT) b),
      log := l' } ip bn b := by
  set s₁ : Fs := { s with mem := (s.mem.setBit b true).setData b Block.zero, log := l }
  -- the indirect block with entry `bn - NDIRECT` set to `b`
  set s₂ : Fs := { s₁ with
    mem := s₁.mem.setData ((s₁.inode ip).addrs NDIRECT)
      ((s₁.mem.data ((s₁.inode ip).addrs NDIRECT)).setU32 (bn - NDIRECT) b) }
  show Bmapped s { s₂ with log := l' } ip bn b
  have hblk : ∀ bn', ({ s₂ with log := l' } : Fs).blockOf ip bn' =
      if bn' = bn then b else s.blockOf ip bn' := by
    intro bn'
    rw [blockOf_log, blockOf_setU32 (s := s₁) hind hb32, blockOf_balloc hok hbf]
    by_cases h : bn' = bn <;> simp [h, show NDIRECT + (bn - NDIRECT) = bn by omega]
  refine ⟨by simp [hblk], (hok.ne_of_free hbf).1, fun bn' h => by simp [hblk, h],
    fun x hx hxi => ?_, ?_, rfl, rfl, rfl, rfl⟩
  · have hxb : x ≠ b := fun h => by rw [h, hbf] at hx; cases hx
    simp [s₂, s₁, Function.update_of_ne (hxi hind), Function.update_of_ne hxb]
  · exact hok.of_alloc hbf (by simp [s₂, s₁]) hblk rfl rfl

/-- A block past the direct ones without an address, in a file with an indirect block:
`bmap` allocates it and records it in the indirect block, which it logs. -/
theorem bmap_ind_hole (hok : s.FileOk ip) {bn : Nat} {S : List Nat} {j : Nat}
    (hlo : NDIRECT ≤ bn) (hbn : bn < MAXFILE) (hind : (s.inode ip).addrs NDIRECT ≠ 0)
    (h0 : s.blockOf ip bn = 0) (hfree : 0 < s.freeCount) (hfits : s.log.Fits S (j + 1))
    (hbm : ∀ b < s.sb.size, BBLOCK b s.sb ∈ S) (hsz : s.sb.size ≤ 2 ^ 32)
    (hpaid : (s.inode ip).addrs NDIRECT ∈ S ∨ Log.Logged s.log.lh ((s.inode ip).addrs NDIRECT)) :
    ∃ b s', s.bmap ip bn = .ok (b, s') ∧ Bmapped s s' ip bn b ∧ s.mem.bitmap b = false ∧
      Log.Logged s'.log.lh b ∧ s'.log.Fits S j ∧ Log.Grows s.log s'.log ∧
      s'.freeCount + 1 = s.freeCount ∧
      (s'.inode ip).addrs NDIRECT = (s.inode ip).addrs NDIRECT ∧
      Log.Logged s'.log.lh ((s.inode ip).addrs NDIRECT) := by
  have hd : ¬ bn < NDIRECT := by omega
  have hlt : bn - NDIRECT < NINDIRECT := by unfold MAXFILE at hbn; omega
  have ha : (s.mem.data ((s.inode ip).addrs NDIRECT)).getU32 (bn - NDIRECT) = 0 := by
    simpa [blockOf, hd, hind] using h0
  obtain ⟨b, l, hb, hbs, hbf, hfits₁, hg₁, hl₁⟩ := balloc_spec hfree hfits hbm
  set s₁ : Fs := { s with mem := (s.mem.setBit b true).setData b Block.zero, log := l }
  -- the indirect block with entry `bn - NDIRECT` set to `b`
  set s₂ : Fs := { s₁ with
    mem := s₁.mem.setData ((s₁.inode ip).addrs NDIRECT)
      ((s₁.mem.data ((s₁.inode ip).addrs NDIRECT)).setU32 (bn - NDIRECT) b) }
  obtain ⟨l', hw, hfits₂, hg₂, hl₂⟩ :=
    hfits₁.logWrite (b := (s.inode ip).addrs NDIRECT) (hpaid.imp id (hg₁.mono _))
  have hbmap : s.bmap ip bn = .ok (b, { s₂ with log := l' }) := by
    simp only [bmap, hd, if_false, hlt, if_true, hind, pure_bind, ha, hb, Except.ok_bind]
    exact congrArg (Except.map _) (logWrite_of_ok (s := s₂) hw)
  refine ⟨b, { s₂ with log := l' }, hbmap,
    bmapped_ind_alloc hok hlo hind hbf (by omega) l l', hbf,
    hg₂.mono b hl₁, hfits₂, hg₁.trans hg₂, freeCount_mark hbs hbf rfl (by simp [s₂, s₁]), rfl, hl₂⟩

/-- A block past the direct ones, in a file without an indirect block: `bmap` allocates the
indirect block first, zeroed, and then goes on as in a file that has one. -/
theorem bmap_no_ind {bn c : Nat} {s₁ : Fs} (hlo : NDIRECT ≤ bn) (hbn : bn < MAXFILE)
    (h0 : (s.inode ip).addrs NDIRECT = 0) (hb : s.balloc = .ok (c, s₁)) (hc : c ≠ 0) :
    s.bmap ip bn = (s₁.setAddr ip NDIRECT c).bmap ip bn := by
  have hd : ¬ bn < NDIRECT := by omega
  have hlt : bn - NDIRECT < NINDIRECT := by unfold MAXFILE at hbn; omega
  rw [bmap, bmap]
  simp [hd, hlt, h0, hb, hc, setAddr_inode]

section IndAlloc

variable {c : Nat} {l : Log}

/-- A fresh indirect block `c`, zeroed by `balloc`, gives no block past the direct ones an
address: the file's blocks are where they were. -/
theorem blockOf_ind_alloc (hok : s.FileOk ip) (hind : (s.inode ip).addrs NDIRECT = 0)
    (hcf : s.mem.bitmap c = false) :
    (({ s with mem := (s.mem.setBit c true).setData c Block.zero, log := l } : Fs).setAddr
      ip NDIRECT c).blockOf ip = s.blockOf ip := by
  funext bn'
  rw [blockOf_setAddr_ind (by simp), blockOf_balloc hok hcf]
  split_ifs with h
  · rfl
  · simp [blockOf, h, hind]

theorem fileOk_ind_alloc (hok : s.FileOk ip) (hind : (s.inode ip).addrs NDIRECT = 0)
    (hcf : s.mem.bitmap c = false) :
    (({ s with mem := (s.mem.setBit c true).setData c Block.zero, log := l } : Fs).setAddr
      ip NDIRECT c).FileOk ip :=
  hok.of_alloc_ind hcf (by simp) (blockOf_ind_alloc hok hind hcf) (by simp [setAddr_inode])
    (by simp [setAddr_inode])

/-- `bmap` gave the file the fresh indirect block `c` and then returned `b` from there: against
the state before, `b` is allocated as in one step. -/
theorem Bmapped.of_ind_alloc (hok : s.FileOk ip) (hind : (s.inode ip).addrs NDIRECT = 0)
    (hcf : s.mem.bitmap c = false) {s' : Fs} {bn b : Nat}
    (hbm' : Bmapped (({ s with mem := (s.mem.setBit c true).setData c Block.zero, log := l } :
      Fs).setAddr ip NDIRECT c) s' ip bn b) : Bmapped s s' ip bn b := by
  set s₂ : Fs := ({ s with mem := (s.mem.setBit c true).setData c Block.zero, log := l } : Fs).setAddr
    ip NDIRECT c
  have hblk₂ : s₂.blockOf ip = s.blockOf ip := blockOf_ind_alloc hok hind hcf
  have hind₂ : (s₂.inode ip).addrs NDIRECT = c := by simp [s₂, setAddr_inode]
  refine ⟨hbm'.self, hbm'.ne_zero, fun bn' h => by rw [hbm'.other bn' h, hblk₂],
    fun x hx _ => ?_, hbm'.fileOk, by rw [hbm'.size]; simp [s₂, setAddr_inode],
    by rw [hbm'.type]; simp [s₂, setAddr_inode], by rw [hbm'.inum]; simp [s₂, setAddr_inode],
    by rw [hbm'.sb]; rfl⟩
  -- a block in use was not the fresh indirect block
  have hxc : x ≠ c := fun h => by rw [h, hcf] at hx; cases hx
  rw [hbm'.data x (by simp [s₂, Function.update_of_ne hxc, hx]) (fun _ => by rw [hind₂]; exact hxc)]
  simp [s₂, Function.update_of_ne hxc]

/-- A block that was free after the fresh indirect block `c` was taken was free before, and is
not `c`. -/
theorem free_of_ind_alloc {b : Nat}
    (hbf : (({ s with mem := (s.mem.setBit c true).setData c Block.zero, log := l } : Fs).setAddr
      ip NDIRECT c).mem.bitmap b = false) : b ≠ c ∧ s.mem.bitmap b = false := by
  simp only [setAddr_mem, Image.setData_bitmap, Image.setBit_bitmap] at hbf
  by_cases h : b = c
  · simp [h] at hbf
  · rw [Function.update_of_ne h] at hbf
    exact ⟨h, hbf⟩

end IndAlloc

theorem bmap_no_ind_hole (hok : s.FileOk ip) {bn : Nat} {S : List Nat} {j : Nat}
    (hlo : NDIRECT ≤ bn) (hbn : bn < MAXFILE) (hind : (s.inode ip).addrs NDIRECT = 0)
    (hfree : 2 ≤ s.freeCount) (hfits : s.log.Fits S (j + 2))
    (hbm : ∀ b < s.sb.size, BBLOCK b s.sb ∈ S) (hsz : s.sb.size ≤ 2 ^ 32) :
    ∃ b s', s.bmap ip bn = .ok (b, s') ∧ Bmapped s s' ip bn b ∧ s.mem.bitmap b = false ∧
      Log.Logged s'.log.lh b ∧ s'.log.Fits S j ∧ Log.Grows s.log s'.log ∧
      s'.freeCount + 2 = s.freeCount ∧ (s'.inode ip).addrs NDIRECT ≠ 0 ∧
      Log.Logged s'.log.lh ((s'.inode ip).addrs NDIRECT) := by
  have hd : ¬ bn < NDIRECT := by omega
  obtain ⟨c, l, hb, hcs, hcf, hfits₁, hg₁, hl₁⟩ := balloc_spec (by omega) hfits hbm
  set s₂ : Fs := ({ s with mem := (s.mem.setBit c true).setData c Block.zero, log := l } : Fs).setAddr
    ip NDIRECT c
  have hc0 : c ≠ 0 := (hok.ne_of_free hcf).1
  have hblk₂ : s₂.blockOf ip = s.blockOf ip := blockOf_ind_alloc hok hind hcf
  have hind₂ : (s₂.inode ip).addrs NDIRECT = c := by simp [s₂, setAddr_inode]
  have hfree₂ : s₂.freeCount + 1 = s.freeCount := freeCount_mark hcs hcf rfl (by simp [s₂])
  have hok₂ : s₂.FileOk ip := fileOk_ind_alloc hok hind hcf
  obtain ⟨b, s', hbmap, hbm', hbf, hl, hfits', hg, hfree', hind', hlind⟩ :=
    bmap_ind_hole hok₂ hlo hbn (by rw [hind₂]; exact hc0)
      (by rw [hblk₂]; simp [blockOf, hd, hind]) (by omega) hfits₁ hbm hsz
      (.inr (by rw [hind₂]; exact hl₁))
  refine ⟨b, s', (bmap_no_ind hlo hbn hind hb hc0).trans hbmap, hbm'.of_ind_alloc hok hind hcf,
    (free_of_ind_alloc hbf).2, hl, hfits', hg₁.trans hg, by omega, by rw [hind']; rwa [hind₂],
    by rw [hind']; exact hlind⟩

/-! ## One round of `writei`'s loop -/

@[simp] theorem byteAt_log (l : Log) : ({ s with log := l } : Fs).byteAt ip = s.byteAt ip := rfl

/-- Writing the block `bmap` returned moves none of the file's blocks: it is not the indirect
block. -/
theorem Bmapped.blockOf_write {s₁ : Fs} {bn b : Nat} (hbm : Bmapped s s₁ ip bn b)
    (hbn : bn < MAXFILE) (blk : Block) :
    ({ s₁ with mem := s₁.mem.setData b blk } : Fs).blockOf ip = s₁.blockOf ip :=
  blockOf_setData _ fun h0 => hbm.self ▸ hbm.fileOk.ind_ne h0 _ hbn

/-- Copying `chunk` into the block that `bmap` returned for the block of offset `off`, the
chunk fitting in that block: below the end of the chunk and of the offsets that had blocks,
the file reads `chunk` at `off` and what it read before elsewhere, and every block there has an
address. -/
theorem Bmapped.write {s₁ : Fs} {off b E : Nat} (chunk : List UInt8) (hok : s.FileOk ip)
    (hbm : Bmapped s s₁ ip (off / BSIZE) b) (hkept : s.blockOf ip (off / BSIZE) ≠ 0 → s₁ = s)
    (hmap : s.Mapped ip E) (hoff : off ≤ E) (hfit : chunk.length ≤ BSIZE - off % BSIZE)
    (hmax : max E (off + chunk.length) ≤ MAXFILE * BSIZE) (hlen : 0 < chunk.length) :
    ({ s₁ with mem := s₁.mem.setData b ((s₁.mem.data b).write (off % BSIZE) chunk) } : Fs).Mapped ip
        (max E (off + chunk.length)) ∧
      ∀ o < max E (off + chunk.length),
        ({ s₁ with mem := s₁.mem.setData b ((s₁.mem.data b).write (off % BSIZE) chunk) } : Fs).byteAt
          ip o = Splice.overwrite (s.byteAt ip) off chunk o := by
  have hbn : off / BSIZE < MAXFILE := by unfold BSIZE at *; unfold MAXFILE NDIRECT NINDIRECT at *; omega
  -- the written block is not the indirect block, so no block of the file moves
  have hblk := hbm.blockOf_write hbn ((s₁.mem.data b).write (off % BSIZE) chunk)
  -- an offset outside the block of `off` was below `E`, and its block is another block in use
  have hout : ∀ o < max E (off + chunk.length), o / BSIZE ≠ off / BSIZE →
      o < E ∧ ¬ (off ≤ o ∧ o < off + chunk.length) := by
    intro o ho hq
    unfold BSIZE at *
    omega
  refine ⟨fun bn h => ?_, fun o ho => ?_⟩
  · rw [hblk]
    by_cases hq : bn = off / BSIZE
    · rw [hq, hbm.self]
      exact hbm.ne_zero
    · rw [hbm.other bn hq]
      exact hmap bn (by unfold BSIZE at *; omega)
  rw [byteAt, hblk]
  by_cases hq : o / BSIZE = off / BSIZE
  · rw [hq, hbm.self]
    simp only [Image.setData_data, Function.update_self, Block.write]
    by_cases hin : off ≤ o ∧ o < off + chunk.length
    · -- a byte of the chunk
      rw [if_pos (by unfold BSIZE at *; omega), Splice.overwrite_of_mem hin.1 hin.2,
        show o % BSIZE - off % BSIZE = o - off by unfold BSIZE at *; omega]
      exact List.getD_eq_getElem _ _ _
    · rw [if_neg (by unfold BSIZE at *; omega)]
      rw [show Splice.overwrite (s.byteAt ip) off chunk o = s.byteAt ip o by
        rcases Nat.lt_or_ge o off with h | h
        · exact Splice.overwrite_of_lt h
        · exact Splice.overwrite_of_le (by omega)]
      -- the block had an address: it was `E` that ended after `o`
      have hmapped : s.blockOf ip (off / BSIZE) ≠ 0 := fun h0 =>
        absurd (hmap (off / BSIZE)) (by
          intro hm
          have : ¬ (off / BSIZE * BSIZE < E) := fun hlt => hm hlt h0
          unfold BSIZE at *
          omega)
      obtain rfl := hkept hmapped
      rw [← hbm.self, byteAt, hq]
  · obtain ⟨hE, hin⟩ := hout o ho hq
    rw [Splice.overwrite_of_lt' hin, hbm.other _ hq]
    have hx0 : s.blockOf ip (o / BSIZE) ≠ 0 := hmap _ (by unfold BSIZE at *; omega)
    have hxb : s.blockOf ip (o / BSIZE) ≠ b := fun h => hq (hbm.fileOk.inj _ _
      (by unfold BSIZE at *; unfold MAXFILE NDIRECT NINDIRECT at *; omega) hbn
      (by rw [hbm.other _ hq]; exact hx0) (by rw [hbm.other _ hq, hbm.self]; exact h))
    have hoBn : o / BSIZE < MAXFILE := by
      unfold BSIZE at *; unfold MAXFILE NDIRECT NINDIRECT at *; omega
    simp only [Image.setData_data, Function.update_of_ne hxb]
    rw [hbm.data _ (hok.used _ hoBn hx0) (fun h0 => hok.ind_ne h0 _ hoBn), byteAt]

/-- The block `bmap` may still allocate as indirect block: one while the file has none. -/
def indReserve (s : Fs) (ip : Fin NINODE) : Nat :=
  if (s.inode ip).addrs NDIRECT = 0 then 1 else 0

/-- The indirect block, once the file has one, is paid for in `S` or already logged. -/
def IndPaid (s : Fs) (ip : Fin NINODE) (S : List Nat) : Prop :=
  (s.inode ip).addrs NDIRECT ≠ 0 →
    (s.inode ip).addrs NDIRECT ∈ S ∨ Log.Logged s.log.lh ((s.inode ip).addrs NDIRECT)

theorem IndPaid.grows {s' : Fs} {S : List Nat} (h : s.IndPaid ip S)
    (hind : (s'.inode ip).addrs NDIRECT = (s.inode ip).addrs NDIRECT) (hg : Log.Grows s.log s'.log) :
    s'.IndPaid ip S := fun h0 => by
  rw [hind] at h0 ⊢
  exact (h h0).imp id (hg.mono _)

/-- `bmap` of a block of the write, and the `log_write` of the block after the copy: they fit in
the room for one more block, besides the indirect block the file may still need, and leave the
room for the rest. -/
theorem bmap_step (hok : s.FileOk ip) {bn k : Nat} {S : List Nat} (hbn : bn < MAXFILE)
    (hfits : s.log.Fits S (k + 1 + s.indReserve ip)) (hfree : k + 1 + s.indReserve ip ≤ s.freeCount)
    (hbm : ∀ b < s.sb.size, BBLOCK b s.sb ∈ S) (hsz : s.sb.size ≤ 2 ^ 32) (hpaid : s.IndPaid ip S) :
    ∃ b s₁, s.bmap ip bn = .ok (b, s₁) ∧ Bmapped s s₁ ip bn b ∧ (s.blockOf ip bn ≠ 0 → s₁ = s) ∧
      Log.Grows s.log s₁.log ∧ s₁.IndPaid ip S ∧ k + s₁.indReserve ip ≤ s₁.freeCount ∧
      ∃ l, s₁.log.logWrite b = .ok l ∧ l.Fits S (k + s₁.indReserve ip) ∧ Log.Grows s₁.log l := by
  by_cases hm : s.blockOf ip bn ≠ 0
  · -- the block has an address: nothing is allocated, and its copy is a new block for the log
    obtain ⟨l, hw, hfits', hg, -⟩ := (hfits.mono (by omega) : s.log.Fits S (k + s.indReserve ip + 1)).logWrite_new
      (s.blockOf ip bn)
    exact ⟨_, s, bmap_of_mapped hbn hm, bmapped_of_mapped hok hm, fun _ => rfl, Log.Grows.refl _,
      hpaid, by omega, l, hw, hfits', hg⟩
  have h0 : s.blockOf ip bn = 0 := not_not.1 hm
  by_cases hd : bn < NDIRECT
  · obtain ⟨b, s₁, hb, hbm₁, -, hl, hfits₁, hg, hfree₁, hind⟩ :=
      bmap_direct_hole hok hd h0 (by omega) (hfits.mono (by omega) : s.log.Fits S (k + s.indReserve ip + 1)) hbm
    have hres : s₁.indReserve ip = s.indReserve ip := by simp [indReserve, hind]
    obtain ⟨l, hw, hfits', hg', -⟩ := hfits₁.logWrite (.inr hl)
    exact ⟨b, s₁, hb, hbm₁, fun h => absurd h0 h, hg, hpaid.grows hind hg, by omega, l, hw,
      by rwa [hres], hg'⟩
  by_cases hi : (s.inode ip).addrs NDIRECT = 0
  · -- no indirect block yet: the one reserved for it is spent now
    have hr : s.indReserve ip = 1 := by simp [indReserve, hi]
    rw [hr] at hfits hfree
    obtain ⟨b, s₁, hb, hbm₁, -, hl, hfits₁, hg, hfree₁, hind₁, hlind⟩ :=
      bmap_no_ind_hole hok (by omega) hbn hi (by omega) hfits hbm hsz
    have hres : s₁.indReserve ip = 0 := by simp [indReserve, hind₁]
    obtain ⟨l, hw, hfits', hg', -⟩ := hfits₁.logWrite (.inr hl)
    exact ⟨b, s₁, hb, hbm₁, fun h => absurd h0 h, hg, fun _ => .inr hlind, by omega, l, hw,
      by rwa [hres], hg'⟩
  · have hr : s.indReserve ip = 0 := by simp [indReserve, hi]
    rw [hr] at hfits hfree
    obtain ⟨b, s₁, hb, hbm₁, -, hl, hfits₁, hg, hfree₁, hind₁, hlind⟩ :=
      bmap_ind_hole hok (by omega) hbn hi h0 (by omega) hfits hbm hsz (hpaid hi)
    have hres : s₁.indReserve ip = 0 := by simp [indReserve, hind₁, hi]
    obtain ⟨l, hw, hfits', hg', -⟩ := hfits₁.logWrite (.inr hl)
    exact ⟨b, s₁, hb, hbm₁, fun h => absurd h0 h, hg, fun _ => .inr (hind₁ ▸ hlind), by omega, l,
      hw, by rwa [hres], hg'⟩

/-! ## `writei`'s loop -/

/-- The number of blocks that `len` bytes from offset `off` touch. -/
def blocksTouched (off len : Nat) : Nat :=
  if len = 0 then 0 else (off + len - 1) / BSIZE - off / BSIZE + 1

/-- A round of the loop copies up to the end of the first block. -/
theorem blocksTouched_step (off len : Nat) (hlen : 0 < len) :
    blocksTouched (off + min len (BSIZE - off % BSIZE)) (len - min len (BSIZE - off % BSIZE)) + 1 =
      blocksTouched off len := by
  unfold blocksTouched BSIZE
  split_ifs <;> omega

/-- The file after `writei`'s loop copied `tot` bytes of `src` from offset `off₀`, against the
state `s₀` it started from: the layout is kept and every block below the end of the copy has
an address; the file reads the copied bytes over what it read before; the inode keeps its
size, type and i-number. -/
structure Spliced (s₀ s : Fs) (ip : Fin NINODE) (src : List UInt8) (off₀ tot : Nat) : Prop where
  fileOk : s.FileOk ip
  mapped : s.Mapped ip (max (s₀.inode ip).size (off₀ + tot))
  bytes : ∀ o < max (s₀.inode ip).size (off₀ + tot),
    s.byteAt ip o = Splice.overwrite (s₀.byteAt ip) off₀ (src.take tot) o
  size : (s.inode ip).size = (s₀.inode ip).size
  type : (s.inode ip).type = (s₀.inode ip).type
  inum : (s.inode ip).inum = (s₀.inode ip).inum
  sb : s.sb = s₀.sb

/-- One round of the loop: `bmap` returned the block of offset `off₀ + tot`, and `m` bytes that
fit in it are copied there and logged. -/
theorem Spliced.round {s₀ s₁ : Fs} {src : List UInt8} {off₀ tot m b : Nat}
    (hsp : Spliced s₀ s ip src off₀ tot) (hbm : Bmapped s s₁ ip ((off₀ + tot) / BSIZE) b)
    (hkept : s.blockOf ip ((off₀ + tot) / BSIZE) ≠ 0 → s₁ = s) (hm : 0 < m)
    (hmb : m ≤ BSIZE - (off₀ + tot) % BSIZE) (hsrc : tot + m ≤ src.length)
    (hmax : off₀ + (tot + m) ≤ MAXFILE * BSIZE) (l : Log) :
    Spliced s₀ { ({ s₁ with mem := s₁.mem.setData b ((s₁.mem.data b).write ((off₀ + tot) % BSIZE)
      ((src.drop tot).take m)) } : Fs) with log := l } ip src off₀ (tot + m) := by
  set off := off₀ + tot with hoffdef
  set chunk := (src.drop tot).take m with hchunk
  have hclen : chunk.length = m := by simp [hchunk]; omega
  have hbn : off / BSIZE < MAXFILE := by
    unfold BSIZE at *; unfold MAXFILE NDIRECT NINDIRECT at *; omega
  have hE : max (max (s₀.inode ip).size (off₀ + tot)) (off + chunk.length) =
      max (s₀.inode ip).size (off₀ + (tot + m)) := by omega
  have hsize₀ : (s₀.inode ip).size ≤ MAXFILE * BSIZE := hsp.size ▸ hsp.fileOk.size
  obtain ⟨hmap₂, hbytes₂⟩ := Bmapped.write chunk hsp.fileOk hbm hkept hsp.mapped (by omega)
    (by rw [hclen]; exact hmb) (by rw [hE]; omega) (by rw [hclen]; exact hm)
  rw [hE] at hmap₂ hbytes₂
  have hblk₂ := hbm.blockOf_write hbn ((s₁.mem.data b).write (off % BSIZE) chunk)
  refine ⟨hbm.fileOk.congr hblk₂ rfl rfl (by rw [hbm.size]; exact hsp.fileOk.size), hmap₂,
    fun o ho => ?_, by rw [← hsp.size]; exact hbm.size, by rw [← hsp.type]; exact hbm.type,
    by rw [← hsp.inum]; exact hbm.inum, by rw [← hsp.sb]; exact hbm.sb⟩
  -- the copy so far, followed by this chunk
  rw [byteAt_log, hbytes₂ o ho, List.take_add, Splice.overwrite_append,
    List.length_take, Nat.min_eq_left (by omega), ← hoffdef]
  by_cases hin : off ≤ o ∧ o < off + chunk.length
  · rw [Splice.overwrite_of_mem hin.1 hin.2, Splice.overwrite_of_mem hin.1 hin.2]
  · rw [Splice.overwrite_of_lt' hin, Splice.overwrite_of_lt' hin]
    exact hsp.bytes o (by omega)

/-- Once all the bytes are copied, a state that reads as the loop left the file, with the size
grown to the end of the copy, holds the splice of the bytes into the content. -/
theorem Spliced.splice {s₀ s s' : Fs} {d : List UInt8} {off : Nat}
    (hsp : Spliced s₀ s ip d off d.length) (hoff : off ≤ (s₀.inode ip).size)
    (hbyte : s'.byteAt ip = s.byteAt ip)
    (hsize : (s'.inode ip).size = max (s₀.inode ip).size (off + d.length)) :
    s'.content ip = (s₀.content ip).take off ++ d ++ (s₀.content ip).drop (off + d.length) := by
  rw [Fs.content, Fs.content, hsize, hbyte, ← Splice.map_range_overwrite hoff]
  apply List.map_congr_left
  intro o ho
  rw [hsp.bytes o (List.mem_range.1 ho), List.take_length]

/-- The state of `writei`'s loop after `tot` bytes of `src` were copied from offset `off₀`,
against the state `s₀` it started from: the layout is kept and every block below the end of
the copy has an address; the file reads the copied bytes over what it read before; the log
and the bitmap have room for the blocks still to come. -/
structure WriteInv (s₀ s : Fs) (ip : Fin NINODE) (S : List Nat) (src : List UInt8)
    (off₀ n tot : Nat) : Prop where
  fileOk : s.FileOk ip
  mapped : s.Mapped ip (max (s₀.inode ip).size (off₀ + tot))
  bytes : ∀ o < max (s₀.inode ip).size (off₀ + tot),
    s.byteAt ip o = Splice.overwrite (s₀.byteAt ip) off₀ (src.take tot) o
  size : (s.inode ip).size = (s₀.inode ip).size
  type : (s.inode ip).type = (s₀.inode ip).type
  inum : (s.inode ip).inum = (s₀.inode ip).inum
  sb : s.sb = s₀.sb
  fits : s.log.Fits S (blocksTouched (off₀ + tot) (n - tot) + s.indReserve ip)
  free : blocksTouched (off₀ + tot) (n - tot) + s.indReserve ip ≤ s.freeCount
  paid : s.IndPaid ip S
  grows : Log.Grows s₀.log s.log

section Loop

variable {s₀ : Fs} {S : List Nat} {src : List UInt8} {off₀ n : Nat}

theorem WriteInv.spliced {tot : Nat} (h : WriteInv s₀ s ip S src off₀ n tot) :
    Spliced s₀ s ip src off₀ tot :=
  ⟨h.fileOk, h.mapped, h.bytes, h.size, h.type, h.inum, h.sb⟩

theorem writeInv_start (hok : s.FileOk ip) (hmap : s.Mapped ip (s.inode ip).size)
    (hoff : off₀ ≤ (s.inode ip).size)
    (hfits : s.log.Fits S (blocksTouched off₀ n + s.indReserve ip))
    (hfree : blocksTouched off₀ n + s.indReserve ip ≤ s.freeCount) (hpaid : s.IndPaid ip S) :
    WriteInv s s ip S src off₀ n 0 := by
  have hE : max (s.inode ip).size (off₀ + 0) = (s.inode ip).size := by omega
  refine ⟨hok, by rw [hE]; exact hmap, fun o _ => by simp, rfl, rfl, rfl, rfl, by simpa using hfits,
    by simpa using hfree, hpaid, Log.Grows.refl _⟩

/-- One round of the loop keeps the invariant, `m` more bytes copied. -/
theorem WriteInv.step {s : Fs} {tot : Nat} (hinv : WriteInv s₀ s ip S src off₀ n tot) (htot : tot < n)
    (hn : n ≤ src.length) (hmax : off₀ + n ≤ MAXFILE * BSIZE)
    (hbm : ∀ b < s₀.sb.size, BBLOCK b s₀.sb ∈ S) (hsz : s₀.sb.size ≤ 2 ^ 32) :
    ∃ s', s.writeLoop ip src n (off₀ + tot) tot =
        s'.writeLoop ip src n (off₀ + (tot + min (n - tot) (BSIZE - (off₀ + tot) % BSIZE)))
          (tot + min (n - tot) (BSIZE - (off₀ + tot) % BSIZE)) ∧
      WriteInv s₀ s' ip S src off₀ n (tot + min (n - tot) (BSIZE - (off₀ + tot) % BSIZE)) := by
  set off := off₀ + tot with hoffdef
  set m := min (n - tot) (BSIZE - off % BSIZE) with hmdef
  have hmod : off % BSIZE < BSIZE := Nat.mod_lt _ (by decide)
  have hm : 0 < m ∧ m ≤ n - tot ∧ m ≤ BSIZE - off % BSIZE := by omega
  have hbn : off / BSIZE < MAXFILE := by
    unfold BSIZE at *; unfold MAXFILE NDIRECT NINDIRECT at *; omega
  -- the blocks still to come: this one, and those of the rest of the copy
  have hbt := blocksTouched_step off (n - tot) (by omega)
  rw [← hmdef, show n - tot - m = n - (tot + m) by omega, show off + m = off₀ + (tot + m) by omega]
    at hbt
  have hfits := hinv.fits
  have hfree := hinv.free
  rw [← hbt] at hfits hfree
  rw [← hinv.sb] at hbm hsz
  obtain ⟨b, s₁, hb, hbm₁, hkept, hg₁, hpaid₁, hfree₁, l, hw, hfits₁, hg₂⟩ :=
    bmap_step hinv.fileOk hbn (by rwa [Nat.add_right_comm] at hfits) (by omega) hbm hsz hinv.paid
  set s₂ : Fs := { s₁ with mem := s₁.mem.setData b ((s₁.mem.data b).write (off % BSIZE)
    ((src.drop tot).take m)) }
  have hsp := hinv.spliced.round hbm₁ hkept hm.1 hm.2.2 (by omega) (by omega) l
  refine ⟨{ s₂ with log := l }, ?_, ?_⟩
  · rw [writeLoop, if_pos htot]
    simp only [hb, Except.ok_bind]
    rw [logWrite_of_ok (s := s₂) hw]
    simp only [Except.ok_bind, ← hmdef]
    rw [hoffdef, Nat.add_assoc]
  exact ⟨hsp.fileOk, hsp.mapped, hsp.bytes, hsp.size, hsp.type, hsp.inum, hsp.sb, hfits₁, hfree₁,
    hpaid₁.grows rfl hg₂, hinv.grows.trans (hg₁.trans hg₂)⟩

/-- The whole loop: from any round on, it copies the rest of the `n` bytes and returns the
offset past them. -/
theorem WriteInv.loop {s : Fs} {tot : Nat} (hinv : WriteInv s₀ s ip S src off₀ n tot)
    (htot : tot ≤ n) (hn : n ≤ src.length) (hmax : off₀ + n ≤ MAXFILE * BSIZE)
    (hbm : ∀ b < s₀.sb.size, BBLOCK b s₀.sb ∈ S) (hsz : s₀.sb.size ≤ 2 ^ 32) :
    ∃ s', s.writeLoop ip src n (off₀ + tot) tot = .ok (off₀ + n, s') ∧
      WriteInv s₀ s' ip S src off₀ n n := by
  -- induction on the bytes left, as the loop's termination measure
  induction hk : n - tot using Nat.strong_induction_on generalizing s tot with
  | _ k ih =>
    rcases Nat.lt_or_eq_of_le htot with hlt | rfl
    · obtain ⟨s', heq, hinv'⟩ := hinv.step hlt hn hmax hbm hsz
      have hm : 0 < min (n - tot) (BSIZE - (off₀ + tot) % BSIZE) := by
        have : (off₀ + tot) % BSIZE < BSIZE := Nat.mod_lt _ (by decide)
        omega
      obtain ⟨s'', hloop, hinv''⟩ := ih _ (by omega) hinv' (by omega) rfl
      exact ⟨s'', heq.trans hloop, hinv''⟩
    · refine ⟨s, ?_, hinv⟩
      rw [writeLoop, if_neg (lt_irrefl _)]
      rfl

end Loop

/-! ## `readi` -/

theorem toInt32_of_lt {n : Nat} (h : n < 2 ^ 31) : toInt32 n = n := by
  rw [toInt32, if_pos h]

/-- The bytes `readi` copies from one block are the file's bytes at those offsets. -/
theorem read_blockOf {off m : Nat} (hm : m ≤ BSIZE - off % BSIZE) :
    (s.mem.data (s.blockOf ip (off / BSIZE))).read (off % BSIZE) m =
      (List.range m).map fun j => s.byteAt ip (off + j) := by
  apply List.map_congr_left
  intro j hj
  have hj' := List.mem_range.1 hj
  -- the offsets from `off` up to the end of the copy stay in `off`'s block
  have hdiv : (off + j) / BSIZE = off / BSIZE := by unfold BSIZE at *; omega
  have hmod : (off + j) % BSIZE = off % BSIZE + j := by unfold BSIZE at *; omega
  rw [byteAt, hdiv, hmod]

/-- `readi`'s loop over blocks that all have addresses, direct or through the indirect
block: it appends the file's bytes from `off` on and changes nothing. -/
theorem readLoop_bytes {E n off tot : Nat} {dst : List UInt8} (hmap : s.Mapped ip E)
    (hE : E ≤ MAXFILE * BSIZE) (hend : off + (n - tot) ≤ E) :
    s.readLoop ip n off tot dst =
      .ok (dst ++ (List.range (n - tot)).map (fun j => s.byteAt ip (off + j)), s) := by
  induction hk : n - tot using Nat.strong_induction_on generalizing off tot dst with
  | _ k ih =>
    by_cases htot : tot < n
    · have hlo : off / BSIZE * BSIZE ≤ off := Nat.div_mul_le_self off BSIZE
      have hbn : off / BSIZE < MAXFILE := by unfold MAXFILE NDIRECT NINDIRECT BSIZE at *; omega
      have hmod : off % BSIZE < BSIZE := Nat.mod_lt _ (by decide)
      obtain ⟨m, hm⟩ : ∃ m, m = min (n - tot) (BSIZE - off % BSIZE) := ⟨_, rfl⟩
      have hm1 : 0 < m ∧ m ≤ n - tot ∧ m ≤ BSIZE - off % BSIZE := by omega
      -- the block at `off` has an address, so `bmap` returns it and allocates nothing
      rw [readLoop, if_pos htot, bmap_of_mapped hbn (hmap _ (by omega))]
      simp only [Except.ok_bind]
      rw [← hm, ih (n - (tot + m)) (by omega) (by omega) rfl, read_blockOf hm1.2.2]
      have hsplit : k = m + (n - (tot + m)) := by omega
      rw [hsplit, List.range_add, List.map_append, List.map_map, List.append_assoc]
      simp only [Function.comp_def, Nat.add_assoc]
    · rw [readLoop_done (by omega), hk.symm, Nat.sub_eq_zero_of_le (by omega)]
      simp

/-- The `k` bytes of the content from `off`, when they are below the size. -/
theorem content_slice {off k : Nat} (h : off + k ≤ (s.inode ip).size) :
    ((s.content ip).drop off).take k = (List.range k).map fun j => s.byteAt ip (off + j) := by
  apply List.ext_getElem
  · simp [Fs.content]
    omega
  · intro j h1 h2
    simp [Fs.content]

/-- **`readi` copies a slice of the file.** On a file that is not a device, with a block for
every offset below its size, a read from an offset within the file whose end does not wrap
past `2^32` returns `min(n, size - off)`, copies that many bytes of the content from `off`,
and changes nothing. -/
theorem readi_content (hok : s.FileOk ip) (hmap : s.Mapped ip (s.inode ip).size)
    (ht : (s.inode ip).type ≠ T_DEV) {off n : Nat} (hoff : off ≤ (s.inode ip).size)
    (hwrap : off + n < 2 ^ 32) :
    s.readi ip off n = .ok (((min n ((s.inode ip).size - off) : Nat) : Int),
      ((s.content ip).drop off).take (min n ((s.inode ip).size - off)), s) := by
  have hsz := hok.size
  have hu : u32add off n = off + n := Nat.mod_eq_of_lt hwrap
  -- `readi` clamps the count to the end of the file
  have hcnt : (if (s.inode ip).size < u32add off n then (s.inode ip).size - off else n) =
      min n ((s.inode ip).size - off) := by
    rw [hu]
    split <;> omega
  have hlt : min n ((s.inode ip).size - off) < 2 ^ 31 := by
    unfold MAXFILE NDIRECT NINDIRECT BSIZE at hsz
    omega
  rw [readi, if_neg ht, if_neg (by rw [hu]; omega)]
  simp only [hcnt, readLoop_bytes hmap hsz (show off + (min n ((s.inode ip).size - off) - 0) ≤ _
    by omega), Nat.sub_zero, List.nil_append, Except.ok_bind, toInt32_of_lt hlt]
  rw [content_slice (by omega)]
  rfl

/-! ## `writei` -/

/-- **`writei` splices its bytes into the file.** On a file that is not a device and is laid
out as the file system keeps it, a write of `d` from an offset within the file, ending within
`MAXFILE` blocks, inside a transaction whose log has room for the blocks it touches and with a
free block for each block it may allocate: `writei` returns `d.length`, the content becomes
`c[0:off] ++ d ++ c[off + d.length:]` and the size the larger of the two ends; the layout is
kept. -/
theorem writei_content (hok : s.FileOk ip) (hmap : s.Mapped ip (s.inode ip).size)
    (ht : (s.inode ip).type ≠ T_DEV) {off : Nat} {d : List UInt8} {S : List Nat}
    (hoff : off ≤ (s.inode ip).size) (hmax : off + d.length ≤ MAXFILE * BSIZE)
    (hfits : s.log.Fits S (blocksTouched off d.length + s.indReserve ip))
    (hfree : blocksTouched off d.length + s.indReserve ip ≤ s.freeCount)
    (hbm : ∀ b < s.sb.size, BBLOCK b s.sb ∈ S) (hsz : s.sb.size ≤ 2 ^ 32)
    (hpaid : s.IndPaid ip S) (hib : IBLOCK (s.inode ip).inum s.sb ∈ S) :
    ∃ s', s.writei ip d off d.length = .ok (d.length, s') ∧
      s'.content ip = (s.content ip).take off ++ d ++ (s.content ip).drop (off + d.length) ∧
      (s'.inode ip).size = max (s.inode ip).size (off + d.length) ∧
      s'.FileOk ip ∧ s'.Mapped ip (s'.inode ip).size ∧ (s'.inode ip).type = (s.inode ip).type := by
  have h31 : MAXFILE * BSIZE < 2 ^ 31 := by decide
  have hu : u32add off d.length = off + d.length := Nat.mod_eq_of_lt (by omega)
  have hstart : WriteInv s s ip S d off d.length 0 := writeInv_start hok hmap hoff hfits hfree hpaid
  obtain ⟨s₁, hloop, hinv⟩ := hstart.loop (Nat.zero_le _) le_rfl hmax hbm hsz
  rw [Nat.add_zero] at hloop
  have hret : toInt32 d.length = d.length := toInt32_of_lt (by omega)
  rw [writei, if_neg ht, if_neg (by rw [hu]; omega), if_neg (by rw [hu]; omega)]
  simp only [hloop, Except.ok_bind, hret]
  by_cases hgrow : 0 < d.length ∧ (s₁.inode ip).size < off + d.length
  · -- the file grew: `iupdate` writes the new size to the inode's block
    rw [if_pos hgrow]
    set X : Fs := s₁.setInode ip { s₁.inode ip with size := off + d.length }
    have hX : IBLOCK (X.inode ip).inum X.sb ∈ S := by
      simpa [X, hinv.inum, hinv.sb] using hib
    obtain ⟨l, hw, -, -, -⟩ := hinv.fits.logWrite (b := IBLOCK (X.inode ip).inum X.sb) (.inl hX)
    have hw' : X.log.logWrite (IBLOCK (X.inode ip).inum X.sb) = .ok l := hw
    have hsize : (X.inode ip).size = max (s.inode ip).size (off + d.length) := by
      simp only [X, setInode_self]
      rw [hinv.size] at hgrow
      omega
    set Y : Fs := { X with mem := X.mem.setDinode (X.inode ip).inum (X.inode ip).dinode, log := l }
    -- `iupdate` changes the dinode only: the file's blocks and bytes are those the loop left
    have hblk : Y.blockOf ip = s₁.blockOf ip := blockOf_congr (by simp [Y, X]) rfl
    refine ⟨Y, ?_, hinv.spliced.splice hoff (byteAt_congr (by simp [Y, X]) rfl) hsize, hsize,
      hinv.fileOk.congr hblk rfl (by simp [Y, X]) (by rw [hsize]; have := hok.size; omega),
      fun bn hbn => ?_, ?_⟩
    · simp only [iupdate, logWrite, hw']
      rfl
    · rw [hblk]
      exact hinv.mapped bn (by rw [← hsize]; exact hbn)
    · simp only [Y, X, setInode_self]
      exact hinv.type
  · rw [if_neg hgrow]
    have hsize : (s₁.inode ip).size = max (s.inode ip).size (off + d.length) := by
      rw [hinv.size] at hgrow ⊢
      omega
    exact ⟨s₁, rfl, hinv.spliced.splice hoff rfl hsize, hsize, hinv.fileOk,
      by rw [hsize]; exact hinv.mapped, hinv.type⟩

/-- `writei` in a transaction whose log has room for the blocks the write touches and three
more (the bitmap block, the inode's block and the indirect block), on a disk whose bitmap is
one block, with a free block for each block it may allocate. -/
theorem writei_of_room (hok : s.FileOk ip) (hmap : s.Mapped ip (s.inode ip).size)
    (ht : (s.inode ip).type ≠ T_DEV) {off : Nat} {d : List UInt8}
    (hoff : off ≤ (s.inode ip).size) (hmax : off + d.length ≤ MAXFILE * BSIZE)
    (hbpb : s.sb.size ≤ BPB) (hfits : s.log.Fits [] (blocksTouched off d.length + 3))
    (hfree : blocksTouched off d.length + 1 ≤ s.freeCount) :
    ∃ s', s.writei ip d off d.length = .ok (d.length, s') ∧
      s'.content ip = (s.content ip).take off ++ d ++ (s.content ip).drop (off + d.length) ∧
      (s'.inode ip).size = max (s.inode ip).size (off + d.length) ∧
      s'.FileOk ip ∧ s'.Mapped ip (s'.inode ip).size ∧ (s'.inode ip).type = (s.inode ip).type := by
  have hsz : s.sb.size ≤ 2 ^ 32 := by unfold BPB BSIZE at hbpb; omega
  -- every bit of the bitmap is in its first block
  have hbm : ∀ S : List Nat, s.sb.bmapstart ∈ S → ∀ b < s.sb.size, BBLOCK b s.sb ∈ S := by
    intro S hS b hb
    rw [BBLOCK, Nat.div_eq_of_lt (lt_of_lt_of_le hb hbpb), Nat.zero_add]
    exact hS
  by_cases hind : (s.inode ip).addrs NDIRECT = 0
  · -- no indirect block yet: the write pays for one as a new block
    have hr : s.indReserve ip = 1 := by simp [indReserve, hind]
    have hk : blocksTouched off d.length + s.indReserve ip +
        [s.sb.bmapstart, IBLOCK (s.inode ip).inum s.sb].length =
        blocksTouched off d.length + 3 := by simp [hr]
    exact writei_content hok hmap ht hoff hmax (Log.Fits.of_nil (by rw [hk]; exact hfits))
      (by omega) (hbm _ (by simp)) hsz (fun h => absurd hind h) (by simp)
  · -- the indirect block is one of the three the log has room for
    have hr : s.indReserve ip = 0 := by simp [indReserve, hind]
    have hk : blocksTouched off d.length + s.indReserve ip +
        [s.sb.bmapstart, IBLOCK (s.inode ip).inum s.sb, (s.inode ip).addrs NDIRECT].length =
        blocksTouched off d.length + 3 := by simp [hr]
    exact writei_content hok hmap ht hoff hmax (Log.Fits.of_nil (by rw [hk]; exact hfits))
      (by omega) (hbm _ (by simp)) hsz (fun _ => .inl (by simp)) (by simp)

/-! ## Requests out of range -/

/-- The sum of two `uint`s wraps exactly when it reaches `2^32`, and then it is below both. -/
theorem u32add_lt_of_wrap {a b : Nat} (ha : a < 2 ^ 32) (hb : b < 2 ^ 32)
    (h : 2 ^ 32 ≤ a + b) : u32add a b < a := by
  unfold u32add
  omega

/-- A read from past the end of a file, or whose end wraps past `2^32`, returns `-1`, copies
nothing and changes nothing. -/
theorem readi_reject (ht : (s.inode ip).type ≠ T_DEV) {off n : Nat} (hoff : off < 2 ^ 32)
    (hn : n < 2 ^ 32) (h : (s.inode ip).size < off ∨ 2 ^ 32 ≤ off + n) :
    s.readi ip off n = .ok (-1, [], s) := by
  rw [readi, if_neg ht]
  rcases h with h | h
  · rw [if_pos (.inl h)]
  · rw [if_pos (.inr (u32add_lt_of_wrap hoff hn h))]

/-- A write from past the end of a file, whose end wraps past `2^32` or lies past
`MAXFILE * BSIZE`, returns `-1` and changes nothing. -/
theorem writei_reject (ht : (s.inode ip).type ≠ T_DEV) (src : List UInt8) {off n : Nat}
    (hoff : off < 2 ^ 32) (hn : n < 2 ^ 32)
    (h : (s.inode ip).size < off ∨ 2 ^ 32 ≤ off + n ∨ MAXFILE * BSIZE < off + n) :
    s.writei ip src off n = .ok (-1, s) := by
  rw [writei, if_neg ht]
  by_cases hw : (s.inode ip).size < off ∨ u32add off n < off
  · rw [if_pos hw]
  · -- neither past the end nor wrapping: the end lies past `MAXFILE * BSIZE`
    have hnw : ¬ 2 ^ 32 ≤ off + n := fun h' => hw (.inr (u32add_lt_of_wrap hoff hn h'))
    have hu : u32add off n = off + n := Nat.mod_eq_of_lt (by omega)
    rw [if_neg hw, if_pos (by rw [hu]; omega)]

/-! ## The file as an array of bytes -/

/-- **`readi` and `writei` treat a file as an array of its `size` bytes.** On a file that is
not a device, laid out as the file system keeps it: a write of `d` from an offset within the
file, ending within `MAXFILE` blocks, in a transaction with room in the log for the blocks it
touches and three more and with a free block for each, returns `d.length` and splices `d`
into the content; a read from an offset within the file that does not wrap returns
`min(n, size - off)` and that slice of the content; a read or a write out of range returns
`-1` and changes nothing. -/
theorem readi_writei_bytes (hok : s.FileOk ip) (hmap : s.Mapped ip (s.inode ip).size)
    (ht : (s.inode ip).type ≠ T_DEV) :
    (∀ (off : Nat) (d : List UInt8), off ≤ (s.inode ip).size → off + d.length ≤ MAXFILE * BSIZE →
        s.sb.size ≤ BPB → s.log.Fits [] (blocksTouched off d.length + 3) →
        blocksTouched off d.length + 1 ≤ s.freeCount →
        ∃ s', s.writei ip d off d.length = .ok (d.length, s') ∧
          s'.content ip = (s.content ip).take off ++ d ++ (s.content ip).drop (off + d.length) ∧
          (s'.inode ip).size = max (s.inode ip).size (off + d.length)) ∧
    (∀ off n : Nat, off ≤ (s.inode ip).size → off + n < 2 ^ 32 →
        s.readi ip off n = .ok (((min n ((s.inode ip).size - off) : Nat) : Int),
          ((s.content ip).drop off).take (min n ((s.inode ip).size - off)), s)) ∧
    (∀ off n : Nat, off < 2 ^ 32 → n < 2 ^ 32 → ((s.inode ip).size < off ∨ 2 ^ 32 ≤ off + n) →
        s.readi ip off n = .ok (-1, [], s)) ∧
    (∀ (off n : Nat) (src : List UInt8), off < 2 ^ 32 → n < 2 ^ 32 →
        ((s.inode ip).size < off ∨ 2 ^ 32 ≤ off + n ∨ MAXFILE * BSIZE < off + n) →
        s.writei ip src off n = .ok (-1, s)) := by
  refine ⟨fun off d hoff hmax hbpb hfits hfree => ?_, fun off n hoff hwrap =>
    readi_content hok hmap ht hoff hwrap, fun off n ho hn h => readi_reject ht ho hn h,
    fun off n src ho hn h => writei_reject ht src ho hn h⟩
  obtain ⟨s', hw, hc, hsize, -, -, -⟩ := writei_of_room hok hmap ht hoff hmax hbpb hfits hfree
  exact ⟨s', hw, hc, hsize⟩

/-- An empty regular file, locked in the first entry of the inode cache, on the disk `mkfs`
lays out with only its metadata blocks in use, inside a transaction whose log holds no block
yet. -/
def emptyFile : Fs where
  sb := Mkfs.sb
  disk := ⟨fun _ => Dinode.zero, fun b => decide (b < Mkfs.nmeta), fun _ => Block.zero⟩
  mem := ⟨fun _ => Dinode.zero, fun b => decide (b < Mkfs.nmeta), fun _ => Block.zero⟩
  log := ⟨Mkfs.sb.logstart, Mkfs.sb.nlog, 1, false, ⟨0, fun _ => 0⟩⟩
  inode := fun i => if i.val = 0 then ⟨ROOTDEV, 2, 1, true, true, T_FILE, 0, 0, 1, 0, fun _ => 0⟩
    else ⟨0, 0, 0, false, false, 0, 0, 0, 0, 0, fun _ => 0⟩
  devsw := fun _ => ⟨none, none⟩

theorem emptyFile_blockOf (bn : Nat) : emptyFile.blockOf ⟨0, by decide⟩ bn = 0 := by
  simp [blockOf, emptyFile]

/-- The blocks past the metadata are free. -/
theorem emptyFile_freeCount : emptyFile.freeCount = Mkfs.sb.size - Mkfs.nmeta := by
  have hcount : ∀ n, (List.range n).countP (fun b => !decide (b < Mkfs.nmeta)) = n - Mkfs.nmeta := by
    intro n
    induction n with
    | zero => rfl
    | succ n ih =>
      rw [List.range_succ, List.countP_append, ih]
      by_cases hn : n < Mkfs.nmeta <;> simp [hn] <;> omega
  exact hcount _

theorem emptyFile_fileOk : emptyFile.FileOk ⟨0, by decide⟩ where
  size := by simp [emptyFile]
  inj a _ _ _ ha _ := absurd (emptyFile_blockOf a) ha
  used bn _ hb := absurd (emptyFile_blockOf bn) hb
  ind_used h := absurd (by simp [emptyFile]) h
  ind_ne h := absurd (by simp [emptyFile]) h
  boot := by decide

/-- The file after a write of three bytes into the empty file: it has a block, and meets the
layout `readi_writei_bytes` asks for. -/
theorem readi_writei_bytes_written :
    ∃ s, emptyFile.writei ⟨0, by decide⟩ [1, 2, 3] 0 3 = .ok (3, s) ∧
      s.content ⟨0, by decide⟩ = [1, 2, 3] ∧ (s.inode ⟨0, by decide⟩).size = 3 ∧
      s.FileOk ⟨0, by decide⟩ ∧ s.Mapped ⟨0, by decide⟩ (s.inode ⟨0, by decide⟩).size ∧
      (s.inode ⟨0, by decide⟩).type ≠ T_DEV ∧
      ((∀ (off : Nat) (d : List UInt8), off ≤ (s.inode ⟨0, by decide⟩).size →
        off + d.length ≤ MAXFILE * BSIZE → s.sb.size ≤ BPB →
        s.log.Fits [] (blocksTouched off d.length + 3) →
        blocksTouched off d.length + 1 ≤ s.freeCount →
        ∃ s', s.writei ⟨0, by decide⟩ d off d.length = .ok (d.length, s') ∧
          s'.content ⟨0, by decide⟩ = (s.content ⟨0, by decide⟩).take off ++ d ++
            (s.content ⟨0, by decide⟩).drop (off + d.length) ∧
          (s'.inode ⟨0, by decide⟩).size = max (s.inode ⟨0, by decide⟩).size (off + d.length)) ∧
      (∀ off n : Nat, off ≤ (s.inode ⟨0, by decide⟩).size → off + n < 2 ^ 32 →
        s.readi ⟨0, by decide⟩ off n =
          .ok (((min n ((s.inode ⟨0, by decide⟩).size - off) : Nat) : Int),
            ((s.content ⟨0, by decide⟩).drop off).take
              (min n ((s.inode ⟨0, by decide⟩).size - off)), s)) ∧
      (∀ off n : Nat, off < 2 ^ 32 → n < 2 ^ 32 →
        ((s.inode ⟨0, by decide⟩).size < off ∨ 2 ^ 32 ≤ off + n) →
        s.readi ⟨0, by decide⟩ off n = .ok (-1, [], s)) ∧
      (∀ (off n : Nat) (src : List UInt8), off < 2 ^ 32 → n < 2 ^ 32 →
        ((s.inode ⟨0, by decide⟩).size < off ∨ 2 ^ 32 ≤ off + n ∨
          MAXFILE * BSIZE < off + n) →
        s.writei ⟨0, by decide⟩ src off n = .ok (-1, s))) := by
  have hmap : emptyFile.Mapped ⟨0, by decide⟩ 0 := fun bn hbn => absurd hbn (Nat.not_lt_zero _)
  have ht : (emptyFile.inode ⟨0, by decide⟩).type ≠ T_DEV := by decide
  -- the write allocates the file's first block
  obtain ⟨s, hw, hc, hsize, hok, hmap', htype⟩ :=
    writei_of_room emptyFile_fileOk hmap ht (Nat.zero_le _)
      (show 0 + [(1 : UInt8), 2, 3].length ≤ MAXFILE * BSIZE by decide) (by decide)
      ⟨by decide, by decide, by decide⟩
      (by rw [emptyFile_freeCount]; decide)
  have ht' : (s.inode ⟨0, by decide⟩).type ≠ T_DEV := htype ▸ ht
  have hc' : s.content ⟨0, by decide⟩ = [1, 2, 3] := by
    rw [hc]
    rfl
  exact ⟨s, hw, hc', hsize, hok, hmap', ht', readi_writei_bytes hok hmap' ht'⟩

/-- A write of 27 blocks from the start of the empty file, in a transaction that has logged
nothing yet: the bitmap block, the indirect block and 27 data blocks fill the header up to
`log.size - 1`, and the next `log_write`, of the indirect block the header already holds,
panics, since `log_write` checks for room before it looks for the block. -/
theorem writei_too_big :
    (emptyFile.writei ⟨0, by decide⟩ (List.replicate (27 * BSIZE) 0) 0 (27 * BSIZE)) =
      .error "too big a transaction" := by
  apply Except.eq_error_of_error?
  decide +kernel

end Fs

end Xv6

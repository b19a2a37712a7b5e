import Xv6.Fs.Content

/-!
# What a successful `writei` did

`writei_content` says that `writei` succeeds when the log has room for the write and the
bitmap has free blocks. Another transaction in progress may take that room: `writei` then
panics part way, or goes through on blocks the other one has logged. This module takes a
successful `writei` apart, whatever the room was: each `log_write`, `balloc` and `bmap` that
returned has done what the code says (`logWrite_eq_ok`, `balloc_eq_ok`, `bmap_eq_ok`), so the
file holds the splice of the write and every block the write touched is in the log
(`writei_eq_ok`).
-/

namespace Xv6

namespace Log

/-- A `log_write` that returned grows the log and holds its block. -/
theorem logWrite_grows {log l : Log} {b : Nat} (h : log.logWrite b = .ok l) :
    Grows log l ∧ Logged l.lh b := by
  obtain ⟨-, -, hmono, hb, hout, hcom, -⟩ := logWrite_ok h
  exact ⟨⟨hmono, logWrite_size h, hout, hcom⟩, hb⟩

end Log

/-- A cache entry without its size and addresses: the part of it `writei` does not change. -/
def Inode.shape (i : Inode) : Inode := { i with size := 0, addrs := fun _ => 0 }

namespace Fs

variable {s : Fs} {ip : Fin NINODE}

theorem logWrite_eq_ok {b : Nat} {s' : Fs} (h : s.logWrite b = .ok s') :
    ∃ l, s.log.logWrite b = .ok l ∧ s' = { s with log := l } := by
  cases hl : s.log.logWrite b with
  | error e => rw [logWrite_of_error hl] at h; cases h
  | ok l =>
    rw [logWrite_of_ok hl] at h
    cases h
    exact ⟨l, rfl, rfl⟩

/-- A `balloc` that returned: the block was free below the size, and it is marked, zeroed and
logged. -/
theorem balloc_eq_ok {b : Nat} {s' : Fs} (h : s.balloc = .ok (b, s')) :
    b < s.sb.size ∧ s.mem.bitmap b = false ∧ ∃ l, Log.Grows s.log l ∧ Log.Logged l.lh b ∧
      s' = { s with mem := (s.mem.setBit b true).setData b Block.zero, log := l } := by
  cases hb : s.freeBlock with
  | none => simp [balloc, hb] at h
  | some c =>
    obtain ⟨hcs, hcf⟩ := freeBlock_some hb
    simp only [balloc, hb, bzero] at h
    obtain ⟨s₁, h₁, h₂⟩ := Except.bind_eq_ok_iff.1 h
    obtain ⟨s₂, h₂, h₃⟩ := Except.bind_eq_ok_iff.1 h₂
    obtain ⟨l₁, hl₁, rfl⟩ := logWrite_eq_ok h₁
    obtain ⟨l₂, hl₂, rfl⟩ := logWrite_eq_ok h₂
    obtain ⟨hg₁, -⟩ := Log.logWrite_grows hl₁
    obtain ⟨hg₂, hlog⟩ := Log.logWrite_grows hl₂
    cases h₃
    exact ⟨hcs, hcf, l₂, hg₁.trans hg₂, hlog, rfl⟩

/-! ## The inode cache -/

/-- `s'` has the inode cache and the drivers of `s`, but for the size and the addresses of
`ip`. -/
structure KeepsInodes (s s' : Fs) (ip : Fin NINODE) : Prop where
  shape : (s'.inode ip).shape = (s.inode ip).shape
  other : ∀ i, i ≠ ip → s'.inode i = s.inode i
  devsw : s'.devsw = s.devsw

theorem KeepsInodes.refl (s : Fs) (ip : Fin NINODE) : KeepsInodes s s ip :=
  ⟨rfl, fun _ _ => rfl, rfl⟩

theorem KeepsInodes.trans {s₁ s₂ s₃ : Fs} (h₁ : KeepsInodes s₁ s₂ ip) (h₂ : KeepsInodes s₂ s₃ ip) :
    KeepsInodes s₁ s₃ ip :=
  ⟨h₂.shape.trans h₁.shape, fun i hi => (h₂.other i hi).trans (h₁.other i hi),
    h₂.devsw.trans h₁.devsw⟩

theorem keepsInodes_of_inode {s' : Fs} (h : s'.inode = s.inode) (hd : s'.devsw = s.devsw) :
    KeepsInodes s s' ip :=
  ⟨by rw [h], fun _ _ => by rw [h], hd⟩

/-- Setting the size or an address of `ip` in a state with the cache of `s`. -/
theorem keepsInodes_setInode {s' : Fs} {i : Inode} (h : s'.inode = s.inode)
    (hd : s'.devsw = s.devsw) (hshape : i.shape = (s.inode ip).shape) :
    KeepsInodes s (s'.setInode ip i) ip :=
  ⟨by rw [setInode_self, hshape], fun j hj => by rw [setInode_of_ne _ _ hj, h], hd⟩

theorem keepsInodes_setAddr {s' : Fs} {k a : Nat} (h : s'.inode = s.inode)
    (hd : s'.devsw = s.devsw) : KeepsInodes s (s'.setAddr ip k a) ip :=
  keepsInodes_setInode h hd (by rw [h]; rfl)

/-- A `bmap` that returned, of a hole past the direct blocks of a file with an indirect block:
the block is as `bmapped_ind_alloc` says. -/
theorem bmap_ind_eq_ok (hok : s.FileOk ip) {bn b : Nat} {s₁ : Fs} (hlo : NDIRECT ≤ bn)
    (hbn : bn < MAXFILE) (hind : (s.inode ip).addrs NDIRECT ≠ 0) (h0 : s.blockOf ip bn = 0)
    (hsz : s.sb.size ≤ 2 ^ 32) (h : s.bmap ip bn = .ok (b, s₁)) :
    Bmapped s s₁ ip bn b ∧ Log.Grows s.log s₁.log ∧ KeepsInodes s s₁ ip := by
  have hd : ¬ bn < NDIRECT := by omega
  have hlt : bn - NDIRECT < NINDIRECT := by unfold MAXFILE at hbn; omega
  have ha : (s.mem.data ((s.inode ip).addrs NDIRECT)).getU32 (bn - NDIRECT) = 0 := by
    simpa [blockOf, hd, hind] using h0
  simp only [bmap, hd, if_false, hlt, if_true, hind, pure_bind, ha] at h
  obtain ⟨⟨c, s'⟩, hb, h⟩ := Except.bind_eq_ok_iff.1 h
  obtain ⟨hcs, hcf, l, hg, -, rfl⟩ := balloc_eq_ok hb
  obtain ⟨s₂, hw, h⟩ := Except.bind_eq_ok_iff.1 h
  obtain ⟨l', hl', rfl⟩ := logWrite_eq_ok hw
  cases h
  exact ⟨bmapped_ind_alloc hok hlo hind hcf (by omega) l l',
    hg.trans (Log.logWrite_grows hl').1, keepsInodes_of_inode rfl rfl⟩

/-- A `bmap` that returned, on a file laid out as the file system keeps it: the block it
returned is the file's block `bn` (`Bmapped`), nothing changed if that block had an address,
the log only grew, and of the inode cache only the addresses of `ip` changed. -/
theorem bmap_eq_ok (hok : s.FileOk ip) {bn b : Nat} {s₁ : Fs} (hbn : bn < MAXFILE)
    (hsz : s.sb.size ≤ 2 ^ 32) (h : s.bmap ip bn = .ok (b, s₁)) :
    Bmapped s s₁ ip bn b ∧ (s.blockOf ip bn ≠ 0 → s₁ = s) ∧ Log.Grows s.log s₁.log ∧
      KeepsInodes s s₁ ip := by
  by_cases hm : s.blockOf ip bn ≠ 0
  · -- the block has an address: `bmap` returns it and changes nothing
    rw [bmap_of_mapped hbn hm] at h
    cases h
    exact ⟨bmapped_of_mapped hok hm, fun _ => rfl, Log.Grows.refl _, KeepsInodes.refl s ip⟩
  have h0 : s.blockOf ip bn = 0 := not_not.1 hm
  suffices hsuff : Bmapped s s₁ ip bn b ∧ Log.Grows s.log s₁.log ∧ KeepsInodes s s₁ ip from
    ⟨hsuff.1, fun h' => absurd h0 h', hsuff.2⟩
  by_cases hd : bn < NDIRECT
  · -- a direct hole: `balloc` and the new address
    have ha : (s.inode ip).addrs bn = 0 := by simpa [blockOf, hd] using h0
    rw [bmap_hole hd ha] at h
    obtain ⟨⟨c, s'⟩, hb, h⟩ := Except.bind_eq_ok_iff.1 h
    obtain ⟨-, hcf, l, hg, -, rfl⟩ := balloc_eq_ok hb
    cases h
    exact ⟨bmapped_direct_alloc hok hd hcf l, hg, keepsInodes_setAddr rfl rfl⟩
  by_cases hi : (s.inode ip).addrs NDIRECT = 0
  · -- no indirect block yet: `balloc` gives one, then the hole is filled through it
    cases hb : s.balloc with
    | error e =>
      have hlt : bn - NDIRECT < NINDIRECT := by unfold MAXFILE at hbn; omega
      simp [bmap, hd, hlt, hi, hb] at h
    | ok r =>
      obtain ⟨c, s'⟩ := r
      obtain ⟨hcs, hcf, l, hg, -, rfl⟩ := balloc_eq_ok hb
      have hc0 : c ≠ 0 := (hok.ne_of_free hcf).1
      rw [bmap_no_ind (by omega) hbn hi hb hc0] at h
      obtain ⟨hbm, hg', hk⟩ := bmap_ind_eq_ok (fileOk_ind_alloc hok hi hcf) (by omega) hbn
        (by simp [setAddr_inode, hc0]) (by rw [blockOf_ind_alloc hok hi hcf]; exact h0) hsz h
      exact ⟨hbm.of_ind_alloc hok hi hcf, hg.trans hg',
        KeepsInodes.trans (by exact keepsInodes_setAddr rfl rfl) hk⟩
  · exact bmap_ind_eq_ok hok (by omega) hbn hi h0 hsz h

/-! ## `writei`'s loop -/

/-- The state of `writei`'s loop after `tot` bytes, whatever room the log had: the file reads
the copy (`Spliced`), the log grew from that of `s₀` and holds every block of the copy, and
only the addresses of `ip` changed in the inode cache. -/
structure Copied (s₀ s : Fs) (ip : Fin NINODE) (src : List UInt8) (off₀ tot : Nat) : Prop where
  spliced : Spliced s₀ s ip src off₀ tot
  grows : Log.Grows s₀.log s.log
  logged : ∀ o, off₀ ≤ o → o < off₀ + tot → Log.Logged s.log.lh (s.blockOf ip (o / BSIZE))
  keeps : KeepsInodes s₀ s ip

section Loop

variable {s₀ : Fs} {src : List UInt8} {off₀ n : Nat}

theorem copied_start (hok : s.FileOk ip) (hmap : s.Mapped ip (s.inode ip).size)
    (hoff : off₀ ≤ (s.inode ip).size) : Copied s s ip src off₀ 0 := by
  have hE : max (s.inode ip).size (off₀ + 0) = (s.inode ip).size := by omega
  exact ⟨⟨hok, by rw [hE]; exact hmap, fun o _ => by simp, rfl, rfl, rfl, rfl⟩,
    Log.Grows.refl _, fun o h1 h2 => absurd h2 (by omega), KeepsInodes.refl s ip⟩

/-- A round of the loop that returned keeps `Copied`, with the `m` bytes that fit in the block
of the offset copied. -/
theorem Copied.step {s : Fs} {tot : Nat} {r : Nat × Fs} (hc : Copied s₀ s ip src off₀ tot)
    (htot : tot < n) (hn : n ≤ src.length) (hmax : off₀ + n ≤ MAXFILE * BSIZE)
    (hsz : s₀.sb.size ≤ 2 ^ 32) (h : s.writeLoop ip src n (off₀ + tot) tot = .ok r) :
    ∃ s', Copied s₀ s' ip src off₀ (tot + min (n - tot) (BSIZE - (off₀ + tot) % BSIZE)) ∧
      s'.writeLoop ip src n (off₀ + (tot + min (n - tot) (BSIZE - (off₀ + tot) % BSIZE)))
        (tot + min (n - tot) (BSIZE - (off₀ + tot) % BSIZE)) = .ok r := by
  set off := off₀ + tot with hoffdef
  set m := min (n - tot) (BSIZE - off % BSIZE) with hmdef
  have hmod : off % BSIZE < BSIZE := Nat.mod_lt _ (by decide)
  have hm : 0 < m ∧ m ≤ n - tot ∧ m ≤ BSIZE - off % BSIZE := by omega
  have hbn : off / BSIZE < MAXFILE := by
    unfold BSIZE at *; unfold MAXFILE NDIRECT NINDIRECT at *; omega
  rw [writeLoop, if_pos htot] at h
  obtain ⟨⟨b, s₁⟩, hb, h⟩ := Except.bind_eq_ok_iff.1 h
  obtain ⟨hbm, hkept, hg₁, hk₁⟩ :=
    bmap_eq_ok hc.spliced.fileOk hbn (by rw [hc.spliced.sb]; exact hsz) hb
  obtain ⟨s₃, hw, h⟩ := Except.bind_eq_ok_iff.1 h
  obtain ⟨l, hl, rfl⟩ := logWrite_eq_ok hw
  obtain ⟨hg₂, hlog⟩ := Log.logWrite_grows hl
  have hsp := hc.spliced.round hbm hkept hm.1 hm.2.2 (by omega) (by omega) l
  -- the block of `off` is `b`, which the round logged; the blocks before it kept theirs
  have hblk := hbm.blockOf_write hbn ((s₁.mem.data b).write (off % BSIZE) ((src.drop tot).take m))
  refine ⟨_, ⟨hsp, hc.grows.trans (hg₁.trans hg₂), fun o h1 h2 => ?_,
    hc.keeps.trans (hk₁.trans (keepsInodes_of_inode rfl rfl))⟩, ?_⟩
  · rw [blockOf_log, hblk]
    by_cases hq : o / BSIZE = off / BSIZE
    · rw [hq, hbm.self]
      exact hlog
    · -- a byte in another block was copied before this round
      have hlt : o < off := by unfold BSIZE at *; omega
      rw [hbm.other _ hq]
      exact hg₂.mono _ (hg₁.mono _ (hc.logged o h1 hlt))
  · rw [← Nat.add_assoc]
    exact h

/-- The whole loop, when it returned: it returns the offset past the `n` bytes, and the state
holds the copy of all of them. -/
theorem Copied.loop {s s' : Fs} {tot off' : Nat} (hc : Copied s₀ s ip src off₀ tot)
    (htot : tot ≤ n) (hn : n ≤ src.length) (hmax : off₀ + n ≤ MAXFILE * BSIZE)
    (hsz : s₀.sb.size ≤ 2 ^ 32) (h : s.writeLoop ip src n (off₀ + tot) tot = .ok (off', s')) :
    off' = off₀ + n ∧ Copied s₀ s' ip src off₀ n := by
  -- induction on the bytes left, as the loop's termination measure
  induction hk : n - tot using Nat.strong_induction_on generalizing s tot with
  | _ k ih =>
    rcases Nat.lt_or_eq_of_le htot with hlt | rfl
    · obtain ⟨s₁, hc₁, h₁⟩ := hc.step hlt hn hmax hsz h
      have hm : 0 < min (n - tot) (BSIZE - (off₀ + tot) % BSIZE) := by
        have : (off₀ + tot) % BSIZE < BSIZE := Nat.mod_lt _ (by decide)
        omega
      exact ih _ (by omega) hc₁ (by omega) h₁ rfl
    · rw [writeLoop, if_neg (lt_irrefl _)] at h
      cases h
      exact ⟨rfl, hc⟩

end Loop

/-! ## `writei` -/

/-- **What a successful `writei` did.** On a file that is not a device and is laid out as the
file system keeps it, a write of `d` from an offset within the file, ending within `MAXFILE`
blocks, that returned, whatever room the log had: it returned `d.length`, spliced `d` into
the content and grew the size to the end of the write, kept the layout and the superblock,
changed nothing else in the inode cache, and left the log grown, holding every block of the
write. -/
theorem writei_eq_ok (hok : s.FileOk ip) (hmap : s.Mapped ip (s.inode ip).size)
    (ht : (s.inode ip).type ≠ T_DEV) {off : Nat} {d : List UInt8} {r : Int} {s' : Fs}
    (hoff : off ≤ (s.inode ip).size) (hmax : off + d.length ≤ MAXFILE * BSIZE)
    (hsz : s.sb.size ≤ 2 ^ 32) (h : s.writei ip d off d.length = .ok (r, s')) :
    r = d.length ∧
      s'.content ip = (s.content ip).take off ++ d ++ (s.content ip).drop (off + d.length) ∧
      (s'.inode ip).size = max (s.inode ip).size (off + d.length) ∧
      s'.FileOk ip ∧ s'.Mapped ip (s'.inode ip).size ∧ s'.sb = s.sb ∧ KeepsInodes s s' ip ∧
      Log.Grows s.log s'.log ∧
      ∀ o, off ≤ o → o < off + d.length → Log.Logged s'.log.lh (s'.blockOf ip (o / BSIZE)) := by
  have h31 : MAXFILE * BSIZE < 2 ^ 31 := by decide
  have hu : u32add off d.length = off + d.length := Nat.mod_eq_of_lt (by omega)
  have hret : toInt32 d.length = d.length := toInt32_of_lt (by omega)
  rw [writei, if_neg ht, if_neg (by rw [hu]; omega), if_neg (by rw [hu]; omega)] at h
  obtain ⟨⟨e, s₁⟩, hloop, h⟩ := Except.bind_eq_ok_iff.1 h
  have hc₀ : Copied s s ip d off 0 := copied_start hok hmap hoff
  obtain ⟨rfl, hc⟩ := hc₀.loop (Nat.zero_le _) le_rfl hmax hsz (by rwa [Nat.add_zero])
  have hsp := hc.spliced
  by_cases hgrow : 0 < d.length ∧ (s₁.inode ip).size < off + d.length
  · -- the file grew: `iupdate` logs the inode's block
    rw [if_pos hgrow] at h
    obtain ⟨s₂, hw, h⟩ := Except.bind_eq_ok_iff.1 h
    obtain ⟨l, hl, rfl⟩ := logWrite_eq_ok hw
    cases h
    set X : Fs := s₁.setInode ip { s₁.inode ip with size := off + d.length }
    have hsize : (X.inode ip).size = max (s.inode ip).size (off + d.length) := by
      simp only [X, setInode_self]
      rw [hsp.size] at hgrow
      omega
    set Y : Fs := { X with mem := X.mem.setDinode (X.inode ip).inum (X.inode ip).dinode, log := l }
    -- `iupdate` changes the dinode only: the file's blocks and bytes are those the loop left
    have hblk : Y.blockOf ip = s₁.blockOf ip := blockOf_congr (by simp [Y, X]) rfl
    have hX : KeepsInodes s₁ X ip := keepsInodes_setInode rfl rfl rfl
    refine ⟨hret, hsp.splice hoff (byteAt_congr (by simp [Y, X]) rfl) hsize, hsize,
      hsp.fileOk.congr hblk rfl (by simp [Y, X]) (by rw [hsize]; have := hok.size; omega),
      fun bn hbn => ?_, hsp.sb, hc.keeps.trans (hX.trans (keepsInodes_of_inode rfl rfl)),
      hc.grows.trans (Log.logWrite_grows hl).1, fun o h1 h2 => ?_⟩
    · rw [hblk]
      exact hsp.mapped bn (by rw [← hsize]; exact hbn)
    · rw [hblk]
      exact (Log.logWrite_grows hl).1.mono _ (hc.logged o h1 h2)
  · rw [if_neg hgrow] at h
    cases h
    have hsize : (s₁.inode ip).size = max (s.inode ip).size (off + d.length) := by
      rw [hsp.size] at hgrow ⊢
      omega
    exact ⟨hret, hsp.splice hoff rfl hsize, hsize, hsp.fileOk,
      by rw [hsize]; exact hsp.mapped, hsp.sb, hc.keeps, hc.grows, hc.logged⟩

end Fs

end Xv6

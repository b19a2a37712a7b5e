import Xv6.Fs.Syscall

/-!
# Where `read` writes

`argptr(n, &p, size)` checks `(uint) i >= proc->sz || (uint) i + size > proc->sz` with a
signed `size` that the sum converts to `uint`. A negative size wraps around: the check
passes whenever `i + size` is between `0` and `sz` (`argptr_of_neg`). `sys_read` then gives
the same `n` to `fileread`, which passes it to `readi` as a `uint` near `2^32`; `readi` cuts
it down to the rest of the file and copies that many bytes to `p`. With `p = sz - 1` and
`n = -1`, a read of a file of two bytes or more writes at `sz` and beyond
(`sysRead_writes_past_sz`).
-/

namespace Xv6

/-- `argptr` accepts a negative size whenever the pointer, moved back by it, is still an
address: the sum wraps around in 32 bits. -/
theorem Caller.argptr_of_neg {p : Caller} {n : Nat} {i size : Int} (hi : p.argint n = some i)
    (h0 : 0 ≤ i + size) (hneg : size < 0) (hsz : i < p.sz) (hsz32 : p.sz < 2 ^ 32) :
    p.argptr n size = some i.toNat := by
  unfold Caller.argptr
  rw [hi]
  simp only [Option.bind_eq_bind, Option.bind_some]
  have hu : toUint32 i = i.toNat := by unfold toUint32; omega
  have hw : u32add (toUint32 i) (toUint32 size) = (i + size).toNat := by
    unfold u32add toUint32; omega
  rw [hw, hu, if_neg (by omega)]

namespace Kernel

variable {k : Kernel} {f : Fin NFILE}

/-- `fileread` of a regular file, from its offset, in blocks that all have direct addresses:
`readi`'s count, clamped to the rest of the file, and the bytes. -/
theorem fileread_mapped {n : Int} (hrd : (k.file f).readable = true)
    (hty : (k.file f).type = .inode) (href : 1 ≤ (k.fs.inode (k.file f).ip).ref)
    (hvalid : (k.fs.inode (k.file f).ip).valid = true)
    (hdev : (k.fs.inode (k.file f).ip).type ≠ T_DEV)
    (hoff : (k.file f).off ≤ (k.fs.inode (k.file f).ip).size)
    (hwrap : (k.file f).off ≤ u32add (k.file f).off (toUint32 n))
    (hmap : ∀ j, (k.file f).off / BSIZE ≤ j → j * BSIZE < (k.fs.inode (k.file f).ip).size →
      j < NDIRECT ∧ (k.fs.inode (k.file f).ip).addrs j ≠ 0) :
    ∃ k' bytes, k.fileread f n = .ok (toInt32 (if (k.fs.inode (k.file f).ip).size <
        u32add (k.file f).off (toUint32 n) then (k.fs.inode (k.file f).ip).size - (k.file f).off
        else toUint32 n), bytes, k') ∧
      bytes.length = if (k.fs.inode (k.file f).ip).size < u32add (k.file f).off (toUint32 n)
        then (k.fs.inode (k.file f).ip).size - (k.file f).off else toUint32 n := by
  -- `ilock` finds the inode valid and only takes the lock
  have hilock : k.fs.ilock (k.file f).ip =
      .ok (k.fs.setInode (k.file f).ip { k.fs.inode (k.file f).ip with busy := true }) := by
    rw [Fs.ilock, if_neg (by omega), if_pos hvalid]
  obtain ⟨bytes, hreadi, hlen⟩ :=
    @Fs.readi_mapped (k.fs.setInode (k.file f).ip { k.fs.inode (k.file f).ip with busy := true })
      (k.file f).ip (k.file f).off (toUint32 n)
      (by unfold toUint32; omega) (by simpa using hdev) (by simpa using hoff) hwrap
      (fun j hj1 hj2 => by simpa using hmap j hj1 (by simpa using hj2))
  simp only [Fs.setInode_self] at hreadi hlen
  rw [fileread, if_neg (by simp [hrd]), if_pos hty]
  simp only [hilock, hreadi, Except.ok_bind, Fs.iunlock, Fs.setInode_self]
  rw [if_neg (by simp; omega)]
  exact ⟨_, bytes, rfl, hlen⟩

/-- `read(fd, sz - 1, -1)` on a regular file of two bytes or more, open at offset `0`:
`argptr` passes, and `readi` copies the whole file from `sz - 1`, past the end of the
process's memory. -/
theorem sysRead_writes_past_sz {p : Caller} {fd : Nat} (hfd : p.argfd 0 = some (fd, f))
    (hn : p.argint 2 = some (-1)) (hptr : p.argint 1 = some ((p.sz - 1 : Nat) : Int))
    (hsz : 2 ≤ p.sz) (hsz32 : p.sz < 2 ^ 32)
    (hrd : (k.file f).readable = true) (hty : (k.file f).type = .inode)
    (hoff : (k.file f).off = 0) (href : 1 ≤ (k.fs.inode (k.file f).ip).ref)
    (hvalid : (k.fs.inode (k.file f).ip).valid = true)
    (hdev : (k.fs.inode (k.file f).ip).type ≠ T_DEV)
    (hsize : 2 ≤ (k.fs.inode (k.file f).ip).size) (hsize31 : (k.fs.inode (k.file f).ip).size < 2 ^ 31)
    (hmap : ∀ j, j * BSIZE < (k.fs.inode (k.file f).ip).size →
      j < NDIRECT ∧ (k.fs.inode (k.file f).ip).addrs j ≠ 0) :
    ∃ k' bytes, k.sysRead p = .ok ((k.fs.inode (k.file f).ip).size, k', p.sz - 1, bytes) ∧
      bytes.length = (k.fs.inode (k.file f).ip).size ∧ p.sz < p.sz - 1 + bytes.length := by
  have hptr' : p.argptr 1 (-1) = some (p.sz - 1) := by
    simpa using Caller.argptr_of_neg hptr (by omega) (by omega) (by omega) hsz32
  -- as a uint, -1 reaches past the end of any file below 2^31 bytes
  have hwrap : u32add (k.file f).off (toUint32 (-1)) = 2 ^ 32 - 1 := by rw [hoff]; rfl
  obtain ⟨k', bytes, hread, hlen⟩ := fileread_mapped (n := -1) hrd hty href hvalid hdev
    (by omega) (by omega) (fun j _ hj => hmap j hj)
  rw [hwrap, if_pos (by omega), hoff, Nat.sub_zero] at hread hlen
  have hint : toInt32 (k.fs.inode (k.file f).ip).size = (k.fs.inode (k.file f).ip).size := by
    rw [toInt32, if_pos hsize31]
  refine ⟨k', bytes, ?_, hlen, by omega⟩
  simp only [sysRead, hfd, hn, hptr', hread, hint, Except.ok_bind]
  rfl

/-- A process of one page reads a file of sixteen bytes, open as descriptor `0`, to
address `4095` with `n = -1`: the kernel copies the sixteen bytes to `4095 .. 4110`. -/
theorem sysRead_past_page :
    ∃ k' bytes, Kernel.sysRead
      ⟨⟨⟨1000, 941, 200, 30, 2, 32, 58⟩, ⟨fun _ => Dinode.zero, fun _ => false, fun _ => Block.zero⟩,
        ⟨fun _ => Dinode.zero, fun _ => false, fun _ => Block.zero⟩,
        ⟨2, LOGSIZE, 0, false, ⟨0, fun _ => 0⟩⟩,
        fun _ => ⟨ROOTDEV, 2, 1, false, true, T_FILE, 0, 0, 1, 16, fun j => if j = 0 then 100 else 0⟩,
        fun _ => ⟨none, none⟩⟩,
       fun _ => ⟨.inode, 1, true, false, ⟨0, by decide⟩, 0⟩⟩
      ⟨4096, fun a => if a = 4008 then 0xFF else if a = 4009 then 0x0F
          else if 4012 ≤ a ∧ a < 4016 then 0xFF else 0,
        4000, fun fd => if fd.val = 0 then some ⟨0, by decide⟩ else none, ⟨0, by decide⟩⟩ =
        .ok (16, k', 4095, bytes) ∧ bytes.length = 16 ∧ 4096 < 4095 + bytes.length :=
  @sysRead_writes_past_sz _ ⟨0, by decide⟩ _ 0 (by decide) (by decide) (by decide) (by decide) (by decide)
    rfl rfl rfl (by decide) rfl (by decide) (by decide) (by decide)
    (fun j hj => by
      have hj0 : j = 0 := by change j * 512 < 16 at hj; omega
      subst hj0
      decide)

end Kernel

end Xv6

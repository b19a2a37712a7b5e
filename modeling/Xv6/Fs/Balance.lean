import Xv6.Fs.Refs

/-!
# Every call balances its references

The long-term references to the inode cache are those of the open inode files (one per
entry of the file table, however many descriptors share it) and of the working
directories. A system call may take references while it runs; the lemmas below show that
by the time it returns, the count of every cache entry has changed by exactly the long-term
references the call created and dropped: `open` adds its new file, `chdir` moves the
caller's working directory, `close` of the last descriptor drops its file, and `link`,
`unlink`, `mkdir`, `mknod` and `read` leave the counts as they found them.

The file table must keep one fact for this: an inode file is always open somewhere
(`FilesReferenced`). `sys_open` gives back a file it allocated when no descriptor is free,
and `fileclose` would put back the inode of that file if its entry still said `FD_INODE`.
-/

namespace Xv6

open Except (bind_eq_ok_iff pure_eq_ok_iff)

/-- The inode an entry of the file table holds. -/
def File.held (file : File) : Option (Fin NINODE) :=
  if file.type = .inode then some file.ip else none

theorem Fs.endOp_refs {s s' : Fs} (h : s.endOp = .ok s') : s'.refs = s.refs := by
  obtain ⟨r, -, h₂⟩ := bind_eq_ok_iff.1 h
  split at h₂ <;> cases pure_eq_ok_iff.1 h₂
  · unfold Fs.commit
    split <;> rfl
  · rfl

theorem Caller.fdalloc_cwd {p p' : Caller} {f : Fin NFILE} {fd : Nat}
    (h : p.fdalloc f = some (fd, p')) : p'.cwd = p.cwd := by
  unfold Caller.fdalloc at h
  split at h
  · cases h
  · cases h
    rfl

namespace Kernel

/-- The references the file table holds on each cache entry. -/
def fileRefs (k : Kernel) : Fin NINODE → Int := Tally.count fun f => (k.file f).held

/-- The long-term references of a kernel whose calling process is `p`. -/
def held (k : Kernel) (p : Caller) : Fin NINODE → Int := k.fileRefs + Pi.single p.cwd 1

/-- An inode file is open through some descriptor. -/
def FilesReferenced (k : Kernel) : Prop := ∀ f, (k.file f).type = .inode → 1 ≤ (k.file f).ref

variable {k k' : Kernel} {p p' : Caller} {f : Fin NFILE}

@[simp] theorem fileRefs_fs (k : Kernel) (s : Fs) : ({ k with fs := s } : Kernel).fileRefs = k.fileRefs :=
  rfl

@[simp] theorem filesReferenced_fs (k : Kernel) (s : Fs) :
    ({ k with fs := s } : Kernel).FilesReferenced ↔ k.FilesReferenced :=
  Iff.rfl

theorem fileRefs_setFile (k : Kernel) (f : Fin NFILE) (file : File) :
    (k.setFile f file).fileRefs = k.fileRefs - Tally.one (k.file f).held + Tally.one file.held := by
  have hupd : (fun g => ((k.setFile f file).file g).held) =
      Function.update (fun g => (k.file g).held) f file.held := by
    funext g
    by_cases hg : g = f
    · subst hg
      simp [setFile]
    · simp [setFile, hg]
  rw [fileRefs, hupd, Tally.count_update]
  rfl

theorem filesReferenced_setFile {file : File} (hinv : k.FilesReferenced)
    (h : file.type = .inode → 1 ≤ file.ref) : (k.setFile f file).FilesReferenced := by
  intro g hg
  by_cases hgf : g = f
  · subst hgf
    simp only [setFile, Function.update_self] at hg ⊢
    exact h hg
  · simp only [setFile, Function.update_of_ne hgf] at hg ⊢
    exact hinv g hg

/-- A free file holds no inode. -/
theorem held_of_ref_zero (hinv : k.FilesReferenced) (h : (k.file f).ref = 0) : (k.file f).held = none := by
  have : (k.file f).type ≠ .inode := fun ht => by have := hinv f ht; omega
  simp [File.held, this]

/-- `filealloc` hands out a free file, which holds no inode. -/
theorem filealloc_spec (hinv : k.FilesReferenced) (h : k.filealloc = some (f, k')) :
    k' = k.setFile f { k.file f with ref := 1 } ∧ (k.file f).held = none := by
  unfold filealloc at h
  split at h
  · cases h
  · rename_i g hg
    cases h
    exact ⟨rfl, held_of_ref_zero hinv (by simpa using List.find?_some hg)⟩

theorem filealloc_balance (hinv : k.FilesReferenced) (h : k.filealloc = some (f, k')) :
    k'.fs = k.fs ∧ k'.fileRefs = k.fileRefs ∧ k'.FilesReferenced ∧ (k'.file f).held = none ∧
      (k'.file f).ref = 1 := by
  obtain ⟨rfl, hheld⟩ := filealloc_spec hinv h
  refine ⟨rfl, ?_, filesReferenced_setFile hinv fun _ => le_rfl, ?_, by simp [setFile]⟩
  · rw [fileRefs_setFile, show ({ k.file f with ref := 1 } : File).held = (k.file f).held from rfl]
    simp
  · simpa [setFile, File.held] using hheld

/-- `fileclose` of the last descriptor of an inode file puts back its inode; any other
`fileclose` leaves the cache alone. -/
theorem fileclose_balance (hinv : k.FilesReferenced) (h : k.fileclose f = .ok k') :
    k'.fs.refs - k'.fileRefs = k.fs.refs - k.fileRefs ∧ k'.FilesReferenced := by
  unfold fileclose at h
  dsimp only at h
  split_ifs at h with h0 h1 hty
  · cases h
    refine ⟨?_, filesReferenced_setFile hinv fun _ => show 1 ≤ (k.file f).ref - 1 by omega⟩
    rw [setFile_fs, fileRefs_setFile, show ({ k.file f with ref := (k.file f).ref - 1 } : File).held =
      (k.file f).held from rfl]
    simp
  · -- the last reference to an inode file
    obtain ⟨s, hs, h₂⟩ := bind_eq_ok_iff.1 h
    obtain ⟨s', hs', h₃⟩ := bind_eq_ok_iff.1 h₂
    cases pure_eq_ok_iff.1 h₃
    refine ⟨?_, filesReferenced_setFile hinv fun h => by simp at h⟩
    simp only [fileRefs_fs, fileRefs_setFile, Fs.endOp_refs hs', Fs.iput_refs hs, Fs.refs_beginOp,
      setFile_fs, File.held, hty, if_true]
    simp
  · cases h
    refine ⟨?_, filesReferenced_setFile hinv fun h => by simp at h⟩
    simp [fileRefs_setFile, File.held, hty]

/-- A call that took `k` and `p` to `k'` and `p'` changed the count of every cache entry by
the long-term references it created and dropped, and kept the file table's invariant. -/
def Balanced (k : Kernel) (p : Caller) (k' : Kernel) (p' : Caller) : Prop :=
  k'.fs.refs - k'.held p' = k.fs.refs - k.held p ∧ k'.FilesReferenced

/-- The common exit of a call that changed nothing it keeps: `end_op` and return. -/
theorem balanced_endOp {s s' : Fs} (hinv : k.FilesReferenced) (hs : s.refs = k.fs.refs)
    (he : s.endOp = .ok s') : Balanced k p { k with fs := s' } p := by
  refine ⟨?_, hinv⟩
  simp [held, Fs.endOp_refs he, hs]

/-- The end of `sys_open`, entered with a reference on `ip`: the reference goes to the new
file, or is put back when no file or descriptor is free. -/
theorem openInode_balance {ip : Fin NINODE} {omode : Nat} {r : Int} (hinv : k.FilesReferenced)
    (h : k.openInode p ip omode = .ok (r, k', p')) :
    k'.fs.refs - k'.held p' = k.fs.refs - Pi.single ip 1 - k.held p ∧ k'.FilesReferenced := by
  unfold openInode at h
  split at h
  · obtain ⟨s, hs, h₂⟩ := bind_eq_ok_iff.1 h
    obtain ⟨s', hs', h₃⟩ := bind_eq_ok_iff.1 h₂
    cases pure_eq_ok_iff.1 h₃
    refine ⟨?_, hinv⟩
    simp only [held, fileRefs_fs, Fs.endOp_refs hs', Fs.iunlockput_refs hs]
  · rename_i f k₁ hf
    obtain ⟨hfs, hfr, hinv₁, hheld, href⟩ := filealloc_balance hinv hf
    split at h
    · -- no descriptor is free: the new file is closed again
      obtain ⟨k₂, hk₂, h₂⟩ := bind_eq_ok_iff.1 h
      obtain ⟨s, hs, h₃⟩ := bind_eq_ok_iff.1 h₂
      obtain ⟨s', hs', h₄⟩ := bind_eq_ok_iff.1 h₃
      cases pure_eq_ok_iff.1 h₄
      obtain ⟨hbal, hinv₂⟩ := fileclose_balance hinv₁ hk₂
      refine ⟨?_, hinv₂⟩
      rw [hfs, hfr] at hbal
      simp only [held, fileRefs_fs, Fs.endOp_refs hs', Fs.iunlockput_refs hs]
      linear_combination hbal
    · rename_i fd p₁ hfd
      obtain ⟨s, hs, h₂⟩ := bind_eq_ok_iff.1 h
      obtain ⟨s', hs', h₃⟩ := bind_eq_ok_iff.1 h₂
      cases pure_eq_ok_iff.1 h₃
      refine ⟨?_, filesReferenced_setFile hinv₁ fun _ => href.ge⟩
      rw [held, fileRefs_setFile, hheld]
      simp only [held, fileRefs_fs, setFile_fs, Fs.endOp_refs hs', Fs.iunlock_refs hs, hfs, hfr,
        Caller.fdalloc_cwd hfd, File.held, if_true, Tally.one_none, Tally.one_some]
      ring

theorem sysOpen_balance {r : Int} (hinv : k.FilesReferenced) (h : k.sysOpen p = .ok (r, k', p')) :
    Balanced k p k' p' := by
  unfold sysOpen at h
  split at h
  · dsimp only at h
    split_ifs at h
    · -- `O_CREATE`
      obtain ⟨c, hc, h₂⟩ := bind_eq_ok_iff.1 h
      have hcr := Fs.create_refs hc
      split at h₂
      · rename_i hnone
        obtain ⟨s', hs', h₃⟩ := bind_eq_ok_iff.1 h₂
        cases pure_eq_ok_iff.1 h₃
        exact balanced_endOp hinv (by simpa [hnone] using hcr) hs'
      · rename_i ip hip
        obtain ⟨hbal, hinv'⟩ := openInode_balance (k := { k with fs := c.2 }) hinv h₂
        refine ⟨?_, hinv'⟩
        rw [hbal]
        simp only [held, fileRefs_fs, hcr, hip, Fs.refOf_some, Fs.refs_beginOp]
        ring
    · obtain ⟨r₁, h₁, h₂⟩ := bind_eq_ok_iff.1 h
      have hr₁ := Fs.namei_refs h₁
      split at h₂
      · rename_i hnone
        obtain ⟨s', hs', h₃⟩ := bind_eq_ok_iff.1 h₂
        cases pure_eq_ok_iff.1 h₃
        exact balanced_endOp hinv (by simpa [hnone] using hr₁) hs'
      · rename_i ip hip
        obtain ⟨s, hs, h₃⟩ := bind_eq_ok_iff.1 h₂
        split_ifs at h₃
        · -- a directory opened for writing
          obtain ⟨s₁, hs₁, h₄⟩ := bind_eq_ok_iff.1 h₃
          obtain ⟨s', hs', h₅⟩ := bind_eq_ok_iff.1 h₄
          cases pure_eq_ok_iff.1 h₅
          refine balanced_endOp hinv ?_ hs'
          simp [Fs.iunlockput_refs hs₁, Fs.ilock_refs hs, hr₁, hip]
        · obtain ⟨hbal, hinv'⟩ := openInode_balance (k := { k with fs := s }) hinv h₃
          refine ⟨?_, hinv'⟩
          rw [hbal]
          simp only [held, fileRefs_fs, Fs.ilock_refs hs, hr₁, hip, Fs.refOf_some, Fs.refs_beginOp]
          ring
  · cases h
    exact ⟨rfl, hinv⟩

/-- `chdir` moves the caller's reference from its old working directory to the new one. -/
theorem sysChdir_balance {r : Int} (hinv : k.FilesReferenced) (h : k.sysChdir p = .ok (r, k', p')) :
    Balanced k p k' p' := by
  unfold sysChdir at h
  dsimp only at h
  split at h
  · obtain ⟨s', hs', h₂⟩ := bind_eq_ok_iff.1 h
    cases pure_eq_ok_iff.1 h₂
    exact balanced_endOp hinv (Fs.refs_beginOp k.fs) hs'
  · obtain ⟨r₁, h₁, h₂⟩ := bind_eq_ok_iff.1 h
    have hr₁ := Fs.namei_refs h₁
    split at h₂
    · rename_i hnone
      obtain ⟨s', hs', h₃⟩ := bind_eq_ok_iff.1 h₂
      cases pure_eq_ok_iff.1 h₃
      exact balanced_endOp hinv (by simpa [hnone] using hr₁) hs'
    · rename_i ip hip
      obtain ⟨s, hs, h₃⟩ := bind_eq_ok_iff.1 h₂
      split_ifs at h₃
      · obtain ⟨s₁, hs₁, h₄⟩ := bind_eq_ok_iff.1 h₃
        obtain ⟨s', hs', h₅⟩ := bind_eq_ok_iff.1 h₄
        cases pure_eq_ok_iff.1 h₅
        refine balanced_endOp hinv ?_ hs'
        simp [Fs.iunlockput_refs hs₁, Fs.ilock_refs hs, hr₁, hip]
      · -- the new directory keeps the reference `namei` took; the old one is put
        obtain ⟨s₁, hs₁, h₄⟩ := bind_eq_ok_iff.1 h₃
        obtain ⟨s₂, hs₂, h₅⟩ := bind_eq_ok_iff.1 h₄
        obtain ⟨s', hs', h₆⟩ := bind_eq_ok_iff.1 h₅
        cases pure_eq_ok_iff.1 h₆
        refine ⟨?_, hinv⟩
        simp only [held, fileRefs_fs, Fs.endOp_refs hs', Fs.iput_refs hs₂, Fs.iunlock_refs hs₁,
          Fs.ilock_refs hs, hr₁, hip, Fs.refOf_some, Fs.refs_beginOp]
        ring

/-- `close` drops the descriptor; the file's last descriptor takes its inode's reference. -/
theorem sysClose_balance {r : Int} (hinv : k.FilesReferenced) (h : k.sysClose p = .ok (r, k', p')) :
    Balanced k p k' p' := by
  unfold sysClose at h
  split at h
  · cases h
    exact ⟨rfl, hinv⟩
  · rename_i fd f hfd
    obtain ⟨k₁, hk₁, h₂⟩ := bind_eq_ok_iff.1 h
    cases pure_eq_ok_iff.1 h₂
    obtain ⟨hbal, hinv₁⟩ := fileclose_balance hinv hk₁
    refine ⟨?_, hinv₁⟩
    simp only [held]
    linear_combination hbal

/-- `read` locks and reads the file's inode and moves the file's offset. -/
theorem fileread_balance {n : Int} {r : Int × List UInt8 × Kernel} (hinv : k.FilesReferenced)
    (h : k.fileread f n = .ok r) :
    r.2.2.fs.refs = k.fs.refs ∧ r.2.2.fileRefs = k.fileRefs ∧ r.2.2.FilesReferenced := by
  unfold fileread at h
  dsimp only at h
  split_ifs at h
  · cases h
    exact ⟨rfl, rfl, hinv⟩
  · obtain ⟨s, hs, h₂⟩ := bind_eq_ok_iff.1 h
    obtain ⟨r₁, h₁, h₃⟩ := bind_eq_ok_iff.1 h₂
    obtain ⟨s', hs', h₄⟩ := bind_eq_ok_iff.1 h₃
    cases pure_eq_ok_iff.1 h₄
    refine ⟨?_, ?_, filesReferenced_setFile hinv fun _ => hinv f ‹_›⟩
    · simp [Fs.iunlock_refs hs', Fs.readi_refs h₁, Fs.ilock_refs hs]
    · rw [fileRefs_setFile]
      simp [File.held]

theorem linkBad_balance {s : Fs} {ip : Fin NINODE} {r : Int} (hinv : k.FilesReferenced)
    (hs : s.refs = k.fs.refs + Pi.single ip 1) (h : k.linkBad p s ip = .ok (r, k', p')) :
    Balanced k p k' p' := by
  obtain ⟨s₁, h₁, h₂⟩ := bind_eq_ok_iff.1 h
  obtain ⟨s₂, h₃, h₄⟩ := bind_eq_ok_iff.1 h₂
  obtain ⟨s₃, h₅, h₆⟩ := bind_eq_ok_iff.1 h₄
  obtain ⟨s₄, h₇, h₈⟩ := bind_eq_ok_iff.1 h₆
  cases pure_eq_ok_iff.1 h₈
  refine balanced_endOp hinv ?_ h₇
  simp [Fs.iunlockput_refs h₅, Fs.iupdate_refs h₃, Fs.ilock_refs h₁, hs]

/-- `link` holds the inode `old` names until the new entry is written or the attempt fails,
and then puts it back. -/
theorem sysLink_balance {r : Int} (hinv : k.FilesReferenced) (h : k.sysLink p = .ok (r, k', p')) :
    Balanced k p k' p' := by
  unfold sysLink at h
  split at h
  · obtain ⟨r₁, h₁, h₂⟩ := bind_eq_ok_iff.1 h
    have hr₁ := Fs.namei_refs h₁
    split at h₂
    · rename_i hnone
      obtain ⟨s', hs', h₃⟩ := bind_eq_ok_iff.1 h₂
      cases pure_eq_ok_iff.1 h₃
      exact balanced_endOp hinv (by simpa [hnone] using hr₁) hs'
    · rename_i ip hip
      simp only [hip, Fs.refOf_some, Fs.refs_beginOp] at hr₁
      obtain ⟨s, hs, h₃⟩ := bind_eq_ok_iff.1 h₂
      split_ifs at h₃
      · -- a directory cannot be linked
        obtain ⟨s₁, hs₁, h₄⟩ := bind_eq_ok_iff.1 h₃
        obtain ⟨s', hs', h₅⟩ := bind_eq_ok_iff.1 h₄
        cases pure_eq_ok_iff.1 h₅
        refine balanced_endOp hinv ?_ hs'
        simp [Fs.iunlockput_refs hs₁, Fs.ilock_refs hs, hr₁]
      · obtain ⟨s₁, hs₁, h₄⟩ := bind_eq_ok_iff.1 h₃
        obtain ⟨s₂, hs₂, h₅⟩ := bind_eq_ok_iff.1 h₄
        have hs₂' : s₂.refs = k.fs.refs + Pi.single ip 1 := by
          simp [Fs.iunlock_refs hs₂, Fs.iupdate_refs hs₁, Fs.ilock_refs hs, hr₁]
        obtain ⟨d, hd, h₆⟩ := bind_eq_ok_iff.1 h₅
        have hdr := Fs.nameiparent_refs hd
        split at h₆
        · rename_i hnone
          exact linkBad_balance hinv (by simpa [hnone, hs₂'] using hdr) h₆
        · rename_i dp name hdp
          simp only [hdp, Option.map_some, Fs.refOf_some, hs₂'] at hdr
          obtain ⟨s₃, hs₃, h₇⟩ := bind_eq_ok_iff.1 h₆
          split_ifs at h₇
          · -- the new name is on another device
            obtain ⟨s₄, hs₄, h₈⟩ := bind_eq_ok_iff.1 h₇
            exact linkBad_balance hinv (by simp [Fs.iunlockput_refs hs₄, Fs.ilock_refs hs₃, hdr]) h₈
          · obtain ⟨l, hl, h₈⟩ := bind_eq_ok_iff.1 h₇
            split_ifs at h₈
            · -- the new name is taken
              obtain ⟨s₄, hs₄, h₉⟩ := bind_eq_ok_iff.1 h₈
              refine linkBad_balance hinv ?_ h₉
              simp [Fs.iunlockput_refs hs₄, Fs.dirlink_refs hl, Fs.ilock_refs hs₃, hdr]
            · obtain ⟨s₄, hs₄, h₉⟩ := bind_eq_ok_iff.1 h₈
              obtain ⟨s₅, hs₅, h₁₀⟩ := bind_eq_ok_iff.1 h₉
              obtain ⟨s₆, hs₆, h₁₁⟩ := bind_eq_ok_iff.1 h₁₀
              cases pure_eq_ok_iff.1 h₁₁
              refine balanced_endOp hinv ?_ hs₆
              simp [Fs.iput_refs hs₅, Fs.iunlockput_refs hs₄, Fs.dirlink_refs hl, Fs.ilock_refs hs₃, hdr]
  · cases h
    exact ⟨rfl, hinv⟩

theorem unlinkBad_balance {s : Fs} {dp : Fin NINODE} {r : Int} (hinv : k.FilesReferenced)
    (hs : s.refs = k.fs.refs + Pi.single dp 1) (h : k.unlinkBad p s dp = .ok (r, k', p')) :
    Balanced k p k' p' := by
  obtain ⟨s₁, h₁, h₂⟩ := bind_eq_ok_iff.1 h
  obtain ⟨s₂, h₃, h₄⟩ := bind_eq_ok_iff.1 h₂
  cases pure_eq_ok_iff.1 h₄
  exact balanced_endOp hinv (by simp [Fs.iunlockput_refs h₁, hs]) h₃

theorem unlinkEntry_balance {s : Fs} {dp ip : Fin NINODE} {off : Nat} {r : Int}
    (hinv : k.FilesReferenced) (hs : s.refs = k.fs.refs + Pi.single dp 1 + Pi.single ip 1)
    (h : k.unlinkEntry p s dp ip off = .ok (r, k', p')) : Balanced k p k' p' := by
  unfold unlinkEntry at h
  obtain ⟨w, hw, h₂⟩ := bind_eq_ok_iff.1 h
  have hw' : w.2.refs = k.fs.refs + Pi.single dp 1 + Pi.single ip 1 := by rw [Fs.writei_refs hw, hs]
  -- both inodes are put back, after the link counts are written
  have htail : ∀ t : Fs, t.refs = w.2.refs →
      (do
        let s ← t.iunlockput dp
        let s ← (s.setInode ip { s.inode ip with nlink := (s.inode ip).nlink - 1 }).iupdate ip
        let s ← s.iunlockput ip
        let s ← s.endOp
        pure (0, { k with fs := s }, p)) = .ok (r, k', p') → Balanced k p k' p' := by
    intro t ht hj
    obtain ⟨s₁, h₁, h₃⟩ := bind_eq_ok_iff.1 hj
    obtain ⟨s₂, h₄, h₅⟩ := bind_eq_ok_iff.1 h₃
    obtain ⟨s₃, h₆, h₇⟩ := bind_eq_ok_iff.1 h₅
    obtain ⟨s₄, h₈, h₉⟩ := bind_eq_ok_iff.1 h₇
    cases pure_eq_ok_iff.1 h₉
    refine balanced_endOp hinv ?_ h₈
    rw [Fs.iunlockput_refs h₆, Fs.iupdate_setInode_refs h₄ rfl, Fs.iunlockput_refs h₁, ht, hw']
    ring
  dsimp only at h₂
  split_ifs at h₂
  · obtain ⟨s₁, h₃, h₄⟩ := bind_eq_ok_iff.1 h₂
    exact htail s₁ (Fs.iupdate_setInode_refs h₃ rfl) h₄
  · rw [pure_bind] at h₂
    exact htail w.2 rfl h₂

/-- `unlink` holds the parent and the inode it removes until both are written, on every
path out. -/
theorem sysUnlink_balance {r : Int} (hinv : k.FilesReferenced)
    (h : k.sysUnlink p = .ok (r, k', p')) : Balanced k p k' p' := by
  unfold sysUnlink at h
  split at h
  · cases h
    exact ⟨rfl, hinv⟩
  · obtain ⟨r₁, h₁, h₂⟩ := bind_eq_ok_iff.1 h
    have hr₁ := Fs.nameiparent_refs h₁
    split at h₂
    · rename_i hnone
      obtain ⟨s', hs', h₃⟩ := bind_eq_ok_iff.1 h₂
      cases pure_eq_ok_iff.1 h₃
      exact balanced_endOp hinv (by simpa [hnone] using hr₁) hs'
    · rename_i dp name hdp
      simp only [hdp, Option.map_some, Fs.refOf_some, Fs.refs_beginOp] at hr₁
      obtain ⟨s, hs, h₃⟩ := bind_eq_ok_iff.1 h₂
      have hs' : s.refs = k.fs.refs + Pi.single dp 1 := by rw [Fs.ilock_refs hs, hr₁]
      split_ifs at h₃
      · exact unlinkBad_balance hinv hs' h₃
      · obtain ⟨l, hl, h₄⟩ := bind_eq_ok_iff.1 h₃
        have hlr := Fs.dirlookup_refs hl
        split at h₄
        · rename_i hnone
          exact unlinkBad_balance hinv (by simp [hlr, hnone, hs']) h₄
        · rename_i ip off hip
          simp only [hip, Option.map_some, Fs.refOf_some, hs'] at hlr
          obtain ⟨s₁, hs₁, h₅⟩ := bind_eq_ok_iff.1 h₄
          have hs₁' : s₁.refs = k.fs.refs + Pi.single dp 1 + Pi.single ip 1 := by
            rw [Fs.ilock_refs hs₁, hlr]
          -- the entry is cleared, unless it names a directory with entries
          have htail : ∀ e : Bool × Fs, e.2.refs = s₁.refs →
              (if e.1 then k.unlinkEntry p e.2 dp ip off else do
                let s ← e.2.iunlockput ip
                k.unlinkBad p s dp) = .ok (r, k', p') → Balanced k p k' p' := by
            intro e he h₆
            split at h₆
            · exact unlinkEntry_balance hinv (by rw [he, hs₁']) h₆
            · obtain ⟨s₂, hs₂, h₇⟩ := bind_eq_ok_iff.1 h₆
              refine unlinkBad_balance hinv ?_ h₇
              rw [Fs.iunlockput_refs hs₂, he, hs₁']
              ring
          split at h₅
          · cases h₅
          · dsimp only at h₅
            split at h₅
            · obtain ⟨e, he, h₆⟩ := bind_eq_ok_iff.1 h₅
              exact htail e (Fs.isdirempty_refs he) h₆
            · rw [pure_bind] at h₅
              exact htail (true, s₁) rfl h₅

theorem createDone_balance {c : Option (Fin NINODE) × Fs} {r : Int} (hinv : k.FilesReferenced)
    (hc : c.2.refs = k.fs.refs + Fs.refOf c.1) (h : k.createDone p c = .ok (r, k', p')) :
    Balanced k p k' p' := by
  unfold createDone at h
  split at h
  · rename_i hnone
    obtain ⟨s', hs', h₂⟩ := bind_eq_ok_iff.1 h
    cases pure_eq_ok_iff.1 h₂
    exact balanced_endOp hinv (by simpa [hnone] using hc) hs'
  · rename_i ip hip
    obtain ⟨s₁, hs₁, h₂⟩ := bind_eq_ok_iff.1 h
    obtain ⟨s', hs', h₃⟩ := bind_eq_ok_iff.1 h₂
    cases pure_eq_ok_iff.1 h₃
    exact balanced_endOp hinv (by simp [Fs.iunlockput_refs hs₁, hc, hip]) hs'

theorem sysMkdir_balance {r : Int} (hinv : k.FilesReferenced) (h : k.sysMkdir p = .ok (r, k', p')) :
    Balanced k p k' p' := by
  unfold sysMkdir at h
  dsimp only at h
  split at h
  · rw [pure_bind] at h
    exact createDone_balance hinv (by simp) h
  · obtain ⟨c, hc, h₂⟩ := bind_eq_ok_iff.1 h
    exact createDone_balance hinv (by simpa using Fs.create_refs hc) h₂

theorem sysMknod_balance {r : Int} (hinv : k.FilesReferenced) (h : k.sysMknod p = .ok (r, k', p')) :
    Balanced k p k' p' := by
  unfold sysMknod at h
  dsimp only at h
  split at h
  · obtain ⟨c, hc, h₂⟩ := bind_eq_ok_iff.1 h
    exact createDone_balance hinv (by simpa using Fs.create_refs hc) h₂
  · rw [pure_bind] at h
    exact createDone_balance hinv (by simp) h

end Kernel

end Xv6

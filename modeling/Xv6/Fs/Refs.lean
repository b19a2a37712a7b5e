import Mathlib
import Xv6.Fs.Sysfile
import Xv6.Lib.Tally

/-!
# Inode references

`ip->ref` counts the pointers to a cache entry: open files, working directories, and the
inodes a call holds while it runs. This module follows the counts through every function
of the model. Each function either leaves every count as it is, or takes one reference
(`iget`, `idup`, `ialloc`, a `dirlookup` that finds its entry), or gives one back (`iput`).
A path walk gives back the reference it started from and hands the caller the reference
of the inode it ends at, and `create` does the same for the inode it returns.
-/

namespace Xv6

open Except (bind_eq_ok_iff pure_eq_ok_iff)

namespace Fs

/-- The reference counts of the inode cache. -/
def refs (s : Fs) (i : Fin NINODE) : Int := (s.inode i).ref

/-- The references a call returning the inode `r` hands to its caller. -/
def refOf (r : Option (Fin NINODE)) : Fin NINODE → Int := Tally.one r

@[simp] theorem refOf_none : refOf none = 0 := Tally.one_none

@[simp] theorem refOf_some (ip : Fin NINODE) : refOf (some ip) = Pi.single ip 1 := Tally.one_some ip

@[simp] theorem refs_setInode (s : Fs) (ip : Fin NINODE) (i : Inode) :
    (s.setInode ip i).refs = s.refs + Pi.single ip (i.ref - (s.inode ip).ref) := by
  funext j
  by_cases h : j = ip
  · subst h
    simp [refs]
  · simp [refs, setInode_of_ne _ _ h, h]

/-- Rewriting an entry without touching its count keeps every count. -/
theorem refs_setInode_of_ref {s : Fs} {ip : Fin NINODE} {i : Inode} (h : i.ref = (s.inode ip).ref) :
    (s.setInode ip i).refs = s.refs := by
  simp [refs_setInode, h]

@[simp] theorem refs_setAddr (s : Fs) (ip : Fin NINODE) (k a : Nat) :
    (s.setAddr ip k a).refs = s.refs :=
  refs_setInode_of_ref rfl

@[simp] theorem refs_beginOp (s : Fs) : s.beginOp.refs = s.refs := rfl

section Keep

variable {s s' : Fs} {ip : Fin NINODE}

theorem logWrite_refs {b : Nat} (h : s.logWrite b = .ok s') : s'.refs = s.refs := by
  obtain ⟨l, -, hs⟩ := bind_eq_ok_iff.1 h
  cases pure_eq_ok_iff.1 hs
  rfl

theorem bzero_refs {b : Nat} (h : s.bzero b = .ok s') : s'.refs = s.refs :=
  (logWrite_refs h).trans rfl

theorem balloc_refs {r : Nat × Fs} (h : s.balloc = .ok r) : r.2.refs = s.refs := by
  unfold balloc at h
  split at h
  · cases h
  · obtain ⟨s₁, h₁, h₂⟩ := bind_eq_ok_iff.1 h
    obtain ⟨s₂, h₃, h₄⟩ := bind_eq_ok_iff.1 h₂
    cases pure_eq_ok_iff.1 h₄
    rw [bzero_refs h₃, logWrite_refs h₁]
    rfl

theorem bfree_refs {b : Nat} (h : s.bfree b = .ok s') : s'.refs = s.refs := by
  unfold bfree at h
  split at h
  · exact (logWrite_refs h).trans rfl
  · cases h

theorem iupdate_refs (h : s.iupdate ip = .ok s') : s'.refs = s.refs :=
  (logWrite_refs h).trans rfl

/-- `iupdate` after a change to an entry that keeps its count. -/
theorem iupdate_setInode_refs {i : Inode} {ip' : Fin NINODE} (h : (s.setInode ip i).iupdate ip' = .ok s')
    (hi : i.ref = (s.inode ip).ref) : s'.refs = s.refs := by
  rw [iupdate_refs h, refs_setInode_of_ref hi]

theorem ilock_refs (h : s.ilock ip = .ok s') : s'.refs = s.refs := by
  unfold ilock at h
  dsimp only at h
  split_ifs at h <;> cases h <;> exact refs_setInode_of_ref rfl

theorem iunlock_refs (h : s.iunlock ip = .ok s') : s'.refs = s.refs := by
  unfold iunlock at h
  dsimp only at h
  split_ifs at h
  cases h
  exact refs_setInode_of_ref rfl

theorem truncDirect_refs {k : Nat} (h : truncDirect ip s k = .ok s') : s'.refs = s.refs := by
  unfold truncDirect at h
  dsimp only at h
  split_ifs at h
  · obtain ⟨s₁, h₁, h₂⟩ := bind_eq_ok_iff.1 h
    cases pure_eq_ok_iff.1 h₂
    rw [refs_setAddr, bfree_refs h₁]
  · cases pure_eq_ok_iff.1 h
    rfl

/-- The loop of `itrunc` over the indirect block. -/
theorem truncIndirect_refs {a : Block} {l : List Nat}
    (h : l.foldlM (fun s j => if a.getU32 j ≠ 0 then s.bfree (a.getU32 j) else pure s) s = .ok s') :
    s'.refs = s.refs := by
  refine Except.foldlM_invariant (fun _ c => c.refs = s.refs) (n := 0) ?_ rfl h
  intro _ j c c' _ _ hc hstep
  split_ifs at hstep
  · rw [bfree_refs hstep, hc]
  · rw [← pure_eq_ok_iff.1 hstep, hc]

theorem itrunc_refs (h : s.itrunc ip = .ok s') : s'.refs = s.refs := by
  unfold itrunc at h
  obtain ⟨s₁, h₁, h₂⟩ := bind_eq_ok_iff.1 h
  have hs₁ : s₁.refs = s.refs :=
    Except.foldlM_invariant (fun _ c => c.refs = s.refs) (n := 0)
      (fun _ k c c' _ _ hc hstep => (truncDirect_refs hstep).trans hc) rfl h₁
  dsimp only at h₂
  split_ifs at h₂
  · -- the indirect block and the blocks it lists are freed
    obtain ⟨s₂, h₃, h₄⟩ := bind_eq_ok_iff.1 h₂
    obtain ⟨s₃, h₅, h₆⟩ := bind_eq_ok_iff.1 h₄
    rw [pure_bind] at h₆
    simp [iupdate_refs h₆, bfree_refs h₅, truncIndirect_refs h₃, hs₁]
  · rw [pure_bind] at h₂
    simp [iupdate_refs h₂, hs₁]

/-- The second half of `bmap` for a block past the direct ones: the entry of the indirect
block `t.1`, allocated when it is `0`. -/
theorem bmap_entry_refs {bn : Nat} {t r : Nat × Fs}
    (h : (if (t.2.mem.data t.1).getU32 (bn - NDIRECT) = 0 then do
            let r' ← t.2.balloc
            let s := { r'.2 with
              mem := r'.2.mem.setData t.1 ((r'.2.mem.data t.1).setU32 (bn - NDIRECT) r'.1) }
            let s ← s.logWrite t.1
            pure (r'.1, s)
          else pure ((t.2.mem.data t.1).getU32 (bn - NDIRECT), t.2)) = .ok r) :
    r.2.refs = t.2.refs := by
  split_ifs at h
  · obtain ⟨r₁, h₁, h₂⟩ := bind_eq_ok_iff.1 h
    obtain ⟨s₂, h₃, h₄⟩ := bind_eq_ok_iff.1 h₂
    cases pure_eq_ok_iff.1 h₄
    rw [logWrite_refs h₃, ← balloc_refs h₁]
    rfl
  · cases pure_eq_ok_iff.1 h
    rfl

/-- A block that `bmap` hands out, newly allocated or not, changes no count. -/
theorem bmap_refs {bn : Nat} {r : Nat × Fs} (h : s.bmap ip bn = .ok r) : r.2.refs = s.refs := by
  unfold bmap at h
  split_ifs at h
  · -- a direct block without an address
    obtain ⟨r₁, h₁, h₂⟩ := bind_eq_ok_iff.1 h
    cases pure_eq_ok_iff.1 h₂
    rw [refs_setAddr, balloc_refs h₁]
  · cases pure_eq_ok_iff.1 h
    rfl
  · -- the indirect block has no address yet
    obtain ⟨r₁, h₁, h₂⟩ := bind_eq_ok_iff.1 h
    rw [pure_bind] at h₂
    rw [bmap_entry_refs h₂, refs_setAddr, balloc_refs h₁]
  · rw [pure_bind] at h
    exact bmap_entry_refs h

theorem readLoop_refs {n off tot : Nat} {dst : List UInt8} {r : List UInt8 × Fs}
    (h : s.readLoop ip n off tot dst = .ok r) : r.2.refs = s.refs := by
  fun_induction readLoop s ip n off tot dst generalizing r with
  | case1 s off tot dst htot ih =>
    obtain ⟨r₁, h₁, h₂⟩ := bind_eq_ok_iff.1 h
    rw [ih r₁ h₂, bmap_refs h₁]
  | case2 s off tot dst htot =>
    cases pure_eq_ok_iff.1 h
    rfl

theorem readi_refs {off n : Nat} {r : Int × List UInt8 × Fs} (h : s.readi ip off n = .ok r) :
    r.2.2.refs = s.refs := by
  unfold readi at h
  dsimp only at h
  split at h
  · -- a device: its driver reads, and the cache is left alone
    split at h
    · cases h
      rfl
    · split at h <;> cases h <;> rfl
  · split at h
    · cases h
      rfl
    · obtain ⟨r₁, h₁, h₂⟩ := bind_eq_ok_iff.1 h
      cases pure_eq_ok_iff.1 h₂
      exact readLoop_refs h₁

theorem writeLoop_refs {src : List UInt8} {n off tot : Nat} {r : Nat × Fs}
    (h : s.writeLoop ip src n off tot = .ok r) : r.2.refs = s.refs := by
  fun_induction writeLoop s ip src n off tot generalizing r with
  | case1 s off tot htot ih =>
    obtain ⟨r₁, h₁, h₂⟩ := bind_eq_ok_iff.1 h
    obtain ⟨s₂, h₃, h₄⟩ := bind_eq_ok_iff.1 h₂
    rw [ih s₂ h₄, logWrite_refs h₃, ← bmap_refs h₁]
    rfl
  | case2 s off tot htot =>
    cases pure_eq_ok_iff.1 h
    rfl

theorem writei_refs {src : List UInt8} {off n : Nat} {r : Int × Fs}
    (h : s.writei ip src off n = .ok r) : r.2.refs = s.refs := by
  unfold writei at h
  dsimp only at h
  split at h
  · split at h
    · cases h
      rfl
    · split at h <;> cases h <;> rfl
  · split at h
    · cases h
      rfl
    · split at h
      · cases h
        rfl
      · obtain ⟨r₁, h₁, h₂⟩ := bind_eq_ok_iff.1 h
        split_ifs at h₂
        · -- the file grew: its size is written back
          obtain ⟨s₂, h₃, h₄⟩ := bind_eq_ok_iff.1 h₂
          cases pure_eq_ok_iff.1 h₄
          simp [iupdate_refs h₃, writeLoop_refs h₁]
        · cases pure_eq_ok_iff.1 h₂
          exact writeLoop_refs h₁

end Keep

section Move

variable {s s' : Fs} {ip : Fin NINODE}

/-- `iget` takes one reference on the entry it returns. -/
theorem iget_refs {dev inum : Nat} {r : Fin NINODE × Fs} (h : s.iget dev inum = .ok r) :
    r.2.refs = s.refs + Pi.single r.1 1 := by
  unfold iget at h
  split at h
  · cases h
    simp
  · split at h
    · rename_i j hj
      cases h
      -- a free entry has no reference yet
      have h0 : (s.inode j).ref = 0 := by simpa using List.find?_some hj
      simp [h0]
    · cases h

theorem idup_refs : (s.idup ip).refs = s.refs + Pi.single ip 1 := by
  simp [idup]

theorem ialloc_refs {dev type : Nat} {r : Fin NINODE × Fs} (h : s.ialloc dev type = .ok r) :
    r.2.refs = s.refs + Pi.single r.1 1 := by
  unfold ialloc at h
  split at h
  · cases h
  · obtain ⟨s₁, h₁, h₂⟩ := bind_eq_ok_iff.1 h
    rw [iget_refs h₂, logWrite_refs h₁]
    rfl

/-- `iput` gives back one reference, whether or not it frees the inode. -/
theorem iput_refs (h : s.iput ip = .ok s') : s'.refs = s.refs - Pi.single ip 1 := by
  unfold iput at h
  dsimp only at h
  -- whatever comes first keeps the counts; then the count of `ip` drops
  have hlast : ∀ t : Fs, t.refs = s.refs →
      (pure (t.setInode ip { t.inode ip with ref := (t.inode ip).ref - 1 }) : Except String Fs) =
        .ok s' → s'.refs = s.refs - Pi.single ip 1 := by
    intro t ht hp
    cases pure_eq_ok_iff.1 hp
    simp [ht, sub_eq_add_neg, Pi.single_neg]
  split_ifs at h
  · obtain ⟨_, h₁, -⟩ := bind_eq_ok_iff.1 h
    cases h₁
  · -- the last reference to an inode without links: truncate and free it
    obtain ⟨s₂, h₃, h₄⟩ := bind_eq_ok_iff.1 h
    obtain ⟨s₃, h₅, h₆⟩ := bind_eq_ok_iff.1 h₄
    rw [pure_bind] at h₆
    exact hlast _ (by simp [iupdate_refs h₅, itrunc_refs h₃]) h₆
  · rw [pure_bind] at h
    exact hlast s rfl h

theorem iunlockput_refs (h : s.iunlockput ip = .ok s') : s'.refs = s.refs - Pi.single ip 1 := by
  obtain ⟨s₁, h₁, h₂⟩ := bind_eq_ok_iff.1 h
  rw [iput_refs h₂, iunlock_refs h₁]

end Move

section Dir

variable {s : Fs} {dp : Fin NINODE} {name : List UInt8}

/-- The scan of `dirlookup` reads entries and takes no reference. -/
theorem lookupFrom_refs {offs : List Nat} {r : Option (Nat × Nat) × Fs}
    (h : s.lookupFrom dp name offs = .ok r) : r.2.refs = s.refs := by
  induction offs generalizing s with
  | nil =>
    cases h
    rfl
  | cons off offs ih =>
    obtain ⟨r₁, h₁, h₂⟩ := bind_eq_ok_iff.1 h
    dsimp only at h₂
    split_ifs at h₂
    · exact (ih h₂).trans (readi_refs h₁)
    · cases h₂
      exact readi_refs h₁
    · exact (ih h₂).trans (readi_refs h₁)

/-- `dirlookup` takes one reference on the inode it finds. -/
theorem dirlookup_refs {r : Option (Fin NINODE × Nat) × Fs} (h : s.dirlookup dp name = .ok r) :
    r.2.refs = s.refs + refOf (r.1.map Prod.fst) := by
  unfold dirlookup at h
  split_ifs at h
  obtain ⟨r₁, h₁, h₂⟩ := bind_eq_ok_iff.1 h
  split at h₂
  · cases h₂
    simp [lookupFrom_refs h₁]
  · obtain ⟨g, h₃, h₄⟩ := bind_eq_ok_iff.1 h₂
    cases h₄
    simp [iget_refs h₃, lookupFrom_refs h₁]

theorem emptyFrom_refs {past : Nat} {offs : List Nat} {r : Nat × Fs}
    (h : s.emptyFrom dp past offs = .ok r) : r.2.refs = s.refs := by
  induction offs generalizing s with
  | nil =>
    cases h
    rfl
  | cons off offs ih =>
    obtain ⟨r₁, h₁, h₂⟩ := bind_eq_ok_iff.1 h
    split_ifs at h₂
    · cases h₂
      exact readi_refs h₁
    · exact (ih h₂).trans (readi_refs h₁)

/-- `dirlink` puts back the reference its check for the name took. -/
theorem dirlink_refs {inum : Nat} {r : Int × Fs} (h : s.dirlink dp name inum = .ok r) :
    r.2.refs = s.refs := by
  unfold dirlink at h
  obtain ⟨r₁, h₁, h₂⟩ := bind_eq_ok_iff.1 h
  have hr₁ := dirlookup_refs h₁
  split at h₂
  · rename_i ip off hr
    obtain ⟨s₂, h₃, h₄⟩ := bind_eq_ok_iff.1 h₂
    cases pure_eq_ok_iff.1 h₄
    simp [iput_refs h₃, hr₁, hr]
  · rename_i hr
    obtain ⟨e, h₃, h₄⟩ := bind_eq_ok_iff.1 h₂
    obtain ⟨w, h₅, h₆⟩ := bind_eq_ok_iff.1 h₄
    split_ifs at h₆
    cases pure_eq_ok_iff.1 h₆
    simp [writei_refs h₅, emptyFrom_refs h₃, hr₁, hr]

/-- A step of `isdirempty` reads entries and takes no reference. -/
theorem emptyDirFrom_refs {offs : List Nat} {r : Bool × Fs}
    (h : s.emptyDirFrom dp offs = .ok r) : r.2.refs = s.refs := by
  induction offs generalizing s with
  | nil =>
    cases h
    rfl
  | cons off offs ih =>
    obtain ⟨r₁, h₁, h₂⟩ := bind_eq_ok_iff.1 h
    split_ifs at h₂
    · cases h₂
      exact readi_refs h₁
    · exact (ih h₂).trans (readi_refs h₁)

theorem isdirempty_refs {r : Bool × Fs} (h : s.isdirempty dp = .ok r) : r.2.refs = s.refs :=
  emptyDirFrom_refs h

end Dir

section Path

variable {s : Fs} {ip : Fin NINODE}

/-- A walk from `ip` gives back the reference on `ip` it starts with, and hands the caller
one on the inode it ends at: each step takes the next inode before it puts the current one. -/
theorem namexWalk_refs {path name : List UInt8} {nameiparent : Bool}
    {r : Option (Fin NINODE × List UInt8) × Fs} (h : s.namexWalk ip path nameiparent name = .ok r) :
    r.2.refs + Pi.single ip 1 = s.refs + refOf (r.1.map Prod.fst) := by
  fun_induction namexWalk s ip path nameiparent name generalizing r with
  | case1 s ip path name hnone hparent =>
    obtain ⟨s₁, h₁, h₂⟩ := bind_eq_ok_iff.1 h
    cases pure_eq_ok_iff.1 h₂
    simp [iput_refs h₁]
  | case2 s ip path name hnone hparent =>
    cases pure_eq_ok_iff.1 h
    simp
  | case3 s ip path name elem rest hsome ih =>
    obtain ⟨s₁, h₁, h₂⟩ := bind_eq_ok_iff.1 h
    have hs₁ := ilock_refs h₁
    split_ifs at h₂
    · -- not a directory
      obtain ⟨s₂, h₃, h₄⟩ := bind_eq_ok_iff.1 h₂
      cases pure_eq_ok_iff.1 h₄
      simp [iunlockput_refs h₃, hs₁]
    · -- the parent of the last element
      obtain ⟨s₂, h₃, h₄⟩ := bind_eq_ok_iff.1 h₂
      cases pure_eq_ok_iff.1 h₄
      simp [iunlock_refs h₃, hs₁]
    · obtain ⟨r₂, h₃, h₄⟩ := bind_eq_ok_iff.1 h₂
      have hr₂ := dirlookup_refs h₃
      split at h₄
      · rename_i hnone
        obtain ⟨s₃, h₅, h₆⟩ := bind_eq_ok_iff.1 h₄
        cases pure_eq_ok_iff.1 h₆
        simp [iunlockput_refs h₅, hr₂, hnone, hs₁]
      · -- the reference on `next` is taken before the one on `ip` is put
        rename_i next off hnext
        obtain ⟨s₃, h₅, h₆⟩ := bind_eq_ok_iff.1 h₄
        have hrest := ih next s₃ h₆
        rw [iunlockput_refs h₅, hr₂, hnext, hs₁] at hrest
        simp only [Option.map_some, refOf_some] at hrest
        linear_combination hrest

/-- `namex` hands the caller one reference on the inode it returns, and keeps none else. -/
theorem namex_refs {cwd : Fin NINODE} {path : List UInt8} {nameiparent : Bool}
    {r : Option (Fin NINODE × List UInt8) × Fs} (h : s.namex cwd path nameiparent = .ok r) :
    r.2.refs = s.refs + refOf (r.1.map Prod.fst) := by
  unfold namex at h
  dsimp only at h
  -- the walk starts with a reference on the root or on the working directory
  split_ifs at h
  · obtain ⟨r₁, h₁, h₂⟩ := bind_eq_ok_iff.1 h
    linear_combination namexWalk_refs h₂ + iget_refs h₁
  · rw [pure_bind] at h
    linear_combination namexWalk_refs h + (idup_refs : (s.idup cwd).refs = s.refs + Pi.single cwd 1)

theorem namei_refs {cwd : Fin NINODE} {path : List UInt8} {r : Option (Fin NINODE) × Fs}
    (h : s.namei cwd path = .ok r) : r.2.refs = s.refs + refOf r.1 := by
  obtain ⟨r₁, h₁, h₂⟩ := bind_eq_ok_iff.1 h
  cases pure_eq_ok_iff.1 h₂
  exact namex_refs h₁

theorem nameiparent_refs {cwd : Fin NINODE} {path : List UInt8}
    {r : Option (Fin NINODE × List UInt8) × Fs} (h : s.nameiparent cwd path = .ok r) :
    r.2.refs = s.refs + refOf (r.1.map Prod.fst) :=
  namex_refs h

/-- `create` hands the caller one reference on the inode it returns, and keeps none else:
the reference on the parent is put back on every path. -/
theorem create_refs {cwd : Fin NINODE} {path : List UInt8} {type : Nat} {major minor : Int}
    {r : Option (Fin NINODE) × Fs} (h : s.create cwd path type major minor = .ok r) :
    r.2.refs = s.refs + refOf r.1 := by
  unfold create at h
  obtain ⟨r₁, h₁, h₂⟩ := bind_eq_ok_iff.1 h
  have hr₁ := nameiparent_refs h₁
  split at h₂
  · rename_i hnone
    cases pure_eq_ok_iff.1 h₂
    simp [hr₁, hnone]
  · rename_i dp name hdp
    simp only [hdp, Option.map_some, refOf_some] at hr₁
    obtain ⟨s₂, h₃, h₄⟩ := bind_eq_ok_iff.1 h₂
    obtain ⟨l, h₅, h₆⟩ := bind_eq_ok_iff.1 h₄
    have hl := dirlookup_refs h₅
    rw [ilock_refs h₃, hr₁] at hl
    split at h₆
    · -- the name is present: the parent is put back before the inode is locked
      rename_i ip off hip
      simp only [hip, Option.map_some, refOf_some] at hl
      obtain ⟨s₃, h₇, h₈⟩ := bind_eq_ok_iff.1 h₆
      obtain ⟨s₄, h₉, h₁₀⟩ := bind_eq_ok_iff.1 h₈
      have hs₄ : s₄.refs = s.refs + Pi.single ip 1 := by
        rw [ilock_refs h₉, iunlockput_refs h₇, hl]
        ring
      split_ifs at h₁₀
      · cases pure_eq_ok_iff.1 h₁₀
        simp [hs₄]
      · obtain ⟨s₅, h₁₁, h₁₂⟩ := bind_eq_ok_iff.1 h₁₀
        cases pure_eq_ok_iff.1 h₁₂
        simp [iunlockput_refs h₁₁, hs₄]
    · rename_i hnone
      simp only [hnone, Option.map_none, refOf_none, add_zero] at hl
      obtain ⟨a, h₇, h₈⟩ := bind_eq_ok_iff.1 h₆
      dsimp only at h₈
      obtain ⟨s₃, h₉, h₁₀⟩ := bind_eq_ok_iff.1 h₈
      obtain ⟨s₄, h₁₁, h₁₂⟩ := bind_eq_ok_iff.1 h₁₀
      -- the new inode is referenced once, as is the parent
      have hs₄ : s₄.refs = s.refs + Pi.single dp 1 + Pi.single a.1 1 := by
        simp [iupdate_refs h₁₁, ilock_refs h₉, ialloc_refs h₇, hl]
      -- the entry in the parent is written, then the parent is put back
      have hend : ∀ t : Fs, t.refs = s.refs + Pi.single dp 1 + Pi.single a.1 1 →
          (do
            let d ← t.dirlink dp name (t.inode a.1).inum
            if d.1 < 0 then Except.error "create: dirlink"
            else do
              let s ← d.2.iunlockput dp
              pure (some a.1, s)) = .ok r →
          r.2.refs = s.refs + refOf r.1 := by
        intro t ht hj
        obtain ⟨d, hd, hd'⟩ := bind_eq_ok_iff.1 hj
        split_ifs at hd'
        obtain ⟨s₅, h₅, h₆⟩ := bind_eq_ok_iff.1 hd'
        cases pure_eq_ok_iff.1 h₆
        rw [iunlockput_refs h₅, dirlink_refs hd, ht, refOf_some]
        ring
      split_ifs at h₁₂
      · -- a directory: the parent's link count grows, and "." and ".." are linked
        obtain ⟨s₅, h₁₃, h₁₄⟩ := bind_eq_ok_iff.1 h₁₂
        obtain ⟨d₁, h₁₅, h₁₆⟩ := bind_eq_ok_iff.1 h₁₄
        split_ifs at h₁₆
        · obtain ⟨_, he, -⟩ := bind_eq_ok_iff.1 h₁₆
          cases he
        · obtain ⟨d₂, h₁₇, h₁₈⟩ := bind_eq_ok_iff.1 h₁₆
          split_ifs at h₁₈
          · obtain ⟨_, he, -⟩ := bind_eq_ok_iff.1 h₁₈
            cases he
          · rw [pure_bind] at h₁₈
            refine hend d₂.2 ?_ h₁₈
            simp [dirlink_refs h₁₇, dirlink_refs h₁₅, iupdate_refs h₁₃, hs₄]
      · rw [pure_bind] at h₁₂
        exact hend s₄ hs₄ h₁₂

end Path

end Fs

end Xv6

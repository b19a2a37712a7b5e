import Mathlib

/-!
# Kernel parameters and on-disk constants

The numbers of `param.h`, `fs.h` and `stat.h` that the modelled code reads. They are
plain `Nat` definitions, so that statements mention them by the source's names and
`decide` evaluates them. The file system is the one `mkfs` builds (`mkfs.c` sets
`nlog = LOGSIZE` and `NINODES = 200`).
-/

namespace Xv6

/-- Maximum number of processes. -/
def NPROC : Nat := 64
/-- Maximum number of CPUs. -/
def NCPU : Nat := 8
/-- Open files per process. -/
def NOFILE : Nat := 16
/-- Open files per system. -/
def NFILE : Nat := 100
/-- Maximum number of active in-memory inodes. -/
def NINODE : Nat := 50
/-- Maximum major device number. -/
def NDEV : Nat := 10
/-- Device number of the file-system root disk. -/
def ROOTDEV : Nat := 1
/-- Maximum number of blocks any file-system operation writes. -/
def MAXOPBLOCKS : Nat := 10
/-- Maximum number of data blocks in the on-disk log. -/
def LOGSIZE : Nat := MAXOPBLOCKS * 3
/-- Size of the disk block cache. -/
def NBUF : Nat := MAXOPBLOCKS * 3
/-- Size of the file system in blocks. -/
def FSSIZE : Nat := 1000

/-- Root i-number. -/
def ROOTINO : Nat := 1
/-- Block size in bytes. -/
def BSIZE : Nat := 512
/-- Number of direct block addresses in an inode. -/
def NDIRECT : Nat := 12
/-- Number of block addresses held by the indirect block (`BSIZE / sizeof(uint)`). -/
def NINDIRECT : Nat := BSIZE / 4
/-- Maximum file size in blocks. -/
def MAXFILE : Nat := NDIRECT + NINDIRECT
/-- `sizeof(struct dinode)`: four shorts, a `uint` size and `NDIRECT+1` addresses. -/
def DINODESIZE : Nat := 4 * 2 + 4 + (NDIRECT + 1) * 4
/-- Inodes per block. -/
def IPB : Nat := BSIZE / DINODESIZE
/-- Bitmap bits per block. -/
def BPB : Nat := BSIZE * 8
/-- Length of a directory entry's name. -/
def DIRSIZ : Nat := 14
/-- `sizeof(struct dirent)`: a `ushort` i-number and `DIRSIZ` name bytes. -/
def DIRENTSIZE : Nat := 2 + DIRSIZ

/-- Inode types of `stat.h`; a free inode has type `0`. -/
def T_DIR : Nat := 1
def T_FILE : Nat := 2
def T_DEV : Nat := 3

/-- Number of inodes `mkfs` formats. -/
def NINODES : Nat := 200

/-- The tables are not empty: the first slots of the process, file, descriptor and inode
tables exist, and so do the processes `fork` makes first. -/
theorem NPROC_pos : 0 < NPROC := by decide
theorem one_lt_NPROC : 1 < NPROC := by decide
theorem two_lt_NPROC : 2 < NPROC := by decide
theorem NOFILE_pos : 0 < NOFILE := by decide
theorem NFILE_pos : 0 < NFILE := by decide
theorem NINODE_pos : 0 < NINODE := by decide
theorem NCPU_pos : 0 < NCPU := by decide
theorem NBUF_pos : 0 < NBUF := by decide

end Xv6

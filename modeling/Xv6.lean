import Xv6.Param
import Xv6.Lib.Store
import Xv6.Lib.Crash
import Xv6.Lib.Except
import Xv6.Lib.Tally
import Xv6.Lib.Ring
import Xv6.Lib.Scan
import Xv6.Log.Commit
import Xv6.Log.Crash
import Xv6.Log.Admission
import Xv6.Proc.Table
import Xv6.Proc.Kill
import Xv6.Proc.Invariants
import Xv6.Proc.Machine
import Xv6.Proc.Sleep
import Xv6.Proc.PidReuse
import Xv6.Pipe.Buffer
import Xv6.Pipe.Fifo
import Xv6.Fs.Layout
import Xv6.Bio
import Xv6.Fs.Mkfs
import Xv6.Fs.Inode
import Xv6.Fs.Dir
import Xv6.Fs.Syscall
import Xv6.Fs.ReadBounds
import Xv6.Fs.Boot
import Xv6.Fs.RootHole
import Xv6.Fs.Sysfile
import Xv6.Fs.Refs
import Xv6.Fs.Balance
import Xv6.Fs.Refcount
import Xv6.Lib.Splice
import Xv6.Fs.Content
import Xv6.Fs.WriteOk
import Xv6.Fs.Checkpoint
import Xv6.Fs.Path
import Xv6.Fs.Dirlink
import Xv6.Lib.History
import Xv6.Console.Input
import Xv6.Console.Run
import Xv6.Vm.Mmu
import Xv6.Vm.Kalloc
import Xv6.Vm.Uvm
import Xv6.Vm.Size
import Xv6.Vm.Copy
import Xv6.User.Umalloc
import Xv6.Exec
import Xv6.Lib.Atoms
import Xv6.User.Grep
import Xv6.Mp
import Xv6.Fs.Skipelem
import Xv6.Lib.Dll
import Xv6.Bio.Lru
import Xv6.Log.Absorb
import Xv6.Pipe.Alloc
import Xv6.Vm.Map
import Xv6.Memmove
import Xv6.Spinlock
import Xv6.Printint
import Xv6.User.Sh.Lex
import Xv6.User.Sh.Parse
import Xv6.User.Sh.Grammar
import Xv6.User.Sh.Parsecmd
import Xv6.Fs.Filewrite
import Xv6.Fs.Dirmap
import Xv6.Bio.Coherence
import Xv6.Lib.Chain
import Xv6.Vm.Freelist
import Xv6.User.Printf
import Xv6.User.Wc
import Xv6.Console.Cga
import Xv6.Lib.Tiling
import Xv6.User.Heap

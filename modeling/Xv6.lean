import Xv6.Lib.BlockDev
import Xv6.Lib.Bytes
import Xv6.Lib.Splice
import Xv6.Lib.Tiles
import Xv6.Lib.Trans
import Xv6.Lib.Ring
import Xv6.Lib.Cycle
import Xv6.Param
import Xv6.Log.Crash
import Xv6.Log.Group
import Xv6.Pipe
import Xv6.Vm.Copy
import Xv6.Fs.Names
import Xv6.Fs.Block
import Xv6.Fs.Inode
import Xv6.Fs.Mkfs
import Xv6.Fs.Alloc
import Xv6.Fs.File
import Xv6.Fs.Shared
import Xv6.Bio.Cache
import Xv6.Bio.Log
import Xv6.Bio.Callers
import Xv6.Proc.Table
import Xv6.Proc.Step
import Xv6.Proc.Inv
import Xv6.Proc.Sections
import Xv6.Proc.Frame
import Xv6.Proc.Sched
import Xv6.Proc.Tree
import Xv6.Proc.Pid
import Xv6.Lib.Refcount
import Xv6.Fs.Refs
import Xv6.Fs.Ftable
import Xv6.Fs.FtAcct
import Xv6.Dev.Console
import Xv6.Dev.Uart
import Xv6.Bio.Links
import Xv6.Vm.Translate
import Xv6.Vm.PageTree
import Xv6.Vm.Walk
import Xv6.User.Umalloc
import Xv6.Vm.Grow
import Xv6.Lib.Chunks
import Xv6.User.Ulib
import Xv6.User.Wc
import Xv6.User.Grep
import Xv6.Lib.Printf
import Xv6.Dev.Printf
import Xv6.User.Printf
import Xv6.User.Sh.Lex
import Xv6.User.Sh.Parse
import Xv6.User.Sh.Grammar
import Xv6.User.Sh.Parsecmd
import Xv6.Fs.Dir
import Xv6.String
import Xv6.Proc.Intr
import Xv6.Fs.Path
import Xv6.Dev.Virtio
import Xv6.Fs.FtInv
import Xv6.Fs.Itable
import Xv6.Vm.Fork
import Xv6.Vm.Free
import Xv6.Vm.Exec
import Xv6.Vm.SysExec

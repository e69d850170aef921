import Mathlib

/-!
# Sizes from `param.h` and `fs.h`

The compile-time constants the modelled code reads, under their source names.
-/

namespace Xv6

/-- `MAXOPBLOCKS`: the most blocks any file-system operation writes. -/
def maxOpBlocks : Nat := 10

/-- `LOGSIZE`: the data blocks of the on-disk log, as `param.h` sizes them. -/
def logSize : Nat := maxOpBlocks * 3

/-- `NBUF`: buffers in the buffer cache. -/
def nBuf : Nat := maxOpBlocks * 3

/-- `NPROC`: processes in the process table. -/
def nProc : Nat := 64

/-- `NCPU`: CPUs. -/
def nCpu : Nat := 8

/-- `BSIZE`: bytes in a disk block. -/
def bSize : Nat := 1024

/-- `NDIRECT`: direct block addresses in an inode. -/
def nDirect : Nat := 12

/-- `NINDIRECT`: block addresses in the indirect block (`BSIZE / sizeof(uint)`). -/
def nIndirect : Nat := bSize / 4

/-- `MAXFILE`: blocks a file can have. -/
def maxFile : Nat := nDirect + nIndirect

/-- `BPB`: bitmap bits per block. -/
def bpb : Nat := bSize * 8

/-- `FSSIZE`: blocks of the file system. -/
def fsSize : Nat := 2000

/-- `NINODE`: entries of the in-memory inode table. -/
def nInode : Nat := 50

/-- `NOFILE`: open files per process. -/
def noFile : Nat := 16

/-- `NFILE`: open files in the system. -/
def nFile : Nat := 100

/-- `NDEV`: the major device numbers. -/
def nDev : Nat := 10

/-- `ROOTINO`: the root directory's inode number. -/
def rootIno : Nat := 1

/-- `DIRSIZ`: bytes of a directory entry's name. -/
def dirSiz : Nat := 14

/-- `MAXARG`: the most arguments `exec` takes. -/
def maxArg : Nat := 32

/-- `MAXPATH`: bytes of a path name. -/
def maxPath : Nat := 128

/-- `USERSTACK`: pages of a user stack. -/
def userStack : Nat := 1

theorem logSize_eq : logSize = 30 := rfl

theorem maxFile_eq : maxFile = 268 := rfl

end Xv6

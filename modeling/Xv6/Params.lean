import Xv6.Bytes

/-!
The constants of `kernel/param.h`, `kernel/fs.h` and `kernel/fcntl.h`, and the blocks of the disk.
-/

namespace Xv6.Params

open Bytes

def BSIZE : ℕ := 1024
def MAXOPBLOCKS : ℕ := 10
def LOGBLOCKS : ℕ := MAXOPBLOCKS * 3

def MAXPATH : ℕ := 128

/-- Open files per process, in the system, and inodes in use. -/
def NOFILE : ℕ := 16
def NFILE : ℕ := 100
def NINODE : ℕ := 50

def NDEV : ℕ := 10

inductive FdType
  | FD_NONE | FD_PIPE | FD_INODE | FD_DEVICE
  deriving DecidableEq

def O_RDONLY : ℕ := 0x000
def O_WRONLY : ℕ := 0x001
def O_RDWR : ℕ := 0x002
def O_CREATE : ℕ := 0x200
def O_TRUNC : ℕ := 0x400

abbrev Block := Buf BSIZE

abbrev Disk := ℕ → Block

end Xv6.Params

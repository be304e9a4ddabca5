import Mathlib.Data.Nat.Notation

/-! Constants of param.h, fs.h and riscv.h, under the names of the source. -/
namespace Xv6

abbrev Byte := BitVec 8

instance : LawfulBEq Byte := inferInstance

def nproc : Nat := 64 -- NPROC, the number of process slots

def nofile : Nat := 16 -- NOFILE, the open files of a process

def nfile : Nat := 100 -- NFILE, the open files of the system

def ninode : Nat := 50 -- NINODE, the entries of the inode table

theorem ninode_pos : 0 < ninode := by decide

def ndev : Nat := 10 -- NDEV, the major device numbers

def rootino : Nat := 1 -- ROOTINO, the inode number of the root directory

def dirsiz : Nat := 14 -- DIRSIZ, the bytes of a name in a directory entry

def maxOpBlocks : Nat := 10 -- MAXOPBLOCKS, the blocks any file-system operation may write

def logBlocks : Nat := maxOpBlocks * 3 -- LOGBLOCKS, the data blocks of the on-disk log

def bsize : Nat := 1024 -- BSIZE, the bytes of a disk block

def fssize : Nat := 2000 -- FSSIZE, the blocks of a file system that mkfs builds

def ndirect : Nat := 12 -- NDIRECT, the direct block addresses of an inode

def nindirect : Nat := bsize / 4 -- NINDIRECT, the addresses in an indirect block

def maxfile : Nat := ndirect + nindirect -- MAXFILE, the blocks of the largest file

def ipb : Nat := bsize / 64 -- IPB, the inodes in a block

def bpb : Nat := bsize * 8 -- BPB, the bits in a block of the bitmap

end Xv6

import Xv6.Lib.Bytes

/-!
# Constants of the kernel

`param.h`, and the on-disk constants of `fs.h`. A disk block is an array of `BSIZE` bytes.
-/

namespace Xv6

def NOFILE : Nat := 16
def NFILE : Nat := 100
def NINODE : Nat := 50
def ROOTDEV : Nat := 1
def MAXOPBLOCKS : Nat := 10
def LOGSIZE : Nat := MAXOPBLOCKS * 3
def NBUF : Nat := MAXOPBLOCKS * 3
def FSSIZE : Nat := 1000

def ROOTINO : Nat := 1
def BSIZE : Nat := 512
def NDIRECT : Nat := 12
def NINDIRECT : Nat := BSIZE / 4
def MAXFILE : Nat := NDIRECT + NINDIRECT
def DIRSIZ : Nat := 14

def BPB : Nat := BSIZE * 8

abbrev Block := Lib.Bytes BSIZE

end Xv6

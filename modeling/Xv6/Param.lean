import Xv6.Bytes

/-!
# Kernel parameters

The constants of `param.h`, `fs.h`, `stat.h` and `fcntl.h` that the model uses, and the
type of disk blocks.
-/

namespace Xv6

/-- Block size. -/
def BSIZE : ℕ := 512

/-- Device number of the file system root disk. -/
def ROOTDEV : ℕ := 1

/-- Max number of blocks any file system operation writes. -/
def MAXOPBLOCKS : ℕ := 10

/-- Max data blocks in the on-disk log. -/
def LOGSIZE : ℕ := MAXOPBLOCKS * 3

/-- Size of the disk block cache. -/
def NBUF : ℕ := MAXOPBLOCKS * 3

/-- Size of the file system in blocks. -/
def FSSIZE : ℕ := 1000

/-- `O_RDONLY`. -/
def O_RDONLY : ℕ := 0x000

/-- `O_WRONLY`. -/
def O_WRONLY : ℕ := 0x001

/-- `O_RDWR`. -/
def O_RDWR : ℕ := 0x002

/-- `O_CREATE`. -/
def O_CREATE : ℕ := 0x200

/-- The contents of a disk block. -/
abbrev Block := Bytes BSIZE

/-- The contents of a disk, by block number. -/
abbrev Disk := ℕ → Block

/-- `memmove(dst, src, BSIZE)` between two block buffers. -/
def copyBlock (dst src : Block) : Block := dst.blit 0 (src.slice 0 BSIZE)

@[simp] theorem copyBlock_eq (dst src : Block) : copyBlock dst src = src := by
  refine Bytes.ext_get fun i hi => ?_
  have hk : i < (src.slice 0 BSIZE).length := by simpa using hi
  have h := Bytes.get_blit_of_lt dst 0 hk (by omega)
  rw [copyBlock, ← zero_add i, h]
  simp [Bytes.slice]

end Xv6

import Xv6.Directory
import Xv6.Outcome

/-!
# Making a file system

`mkfs.c` : the image is a file of sectors, blocks and inodes are handed out by two counters, and
every access to an inode or a block reads and writes a sector. A sector past the end of the file
cannot be read, and `mkfs` then exits.

The image has a history that no function reads : the inode numbers handed out, the block numbers
stored in inodes and indirect blocks, and the sectors written with what was written.
-/

namespace Xv6.Mkfs

/-- Number of inodes. -/
def NINODES : ℕ := 200

def nbitmap : ℕ := FSSIZE / (BSIZE * 8) + 1

def ninodeblocks : ℕ := NINODES / IPB + 1

def nlog : ℕ := LOGSIZE

/-- Number of meta blocks (boot, sb, nlog, inode, bitmap). -/
def nmeta : ℕ := 2 + nlog + ninodeblocks + nbitmap

/-- Number of data blocks. -/
def nblocks : ℕ := FSSIZE - nmeta

/-- The super block. -/
def sb : Superblock where
  size := FSSIZE
  nblocks := nblocks
  ninodes := NINODES
  nlog := nlog
  logstart := 2
  inodestart := 2 + nlog
  bmapstart := 2 + nlog + ninodeblocks

/-- The words of a super block. -/
def words (sb : Superblock) : List ℕ :=
  [sb.size, sb.nblocks, sb.ninodes, sb.nlog, sb.logstart, sb.inodestart, sb.bmapstart]

/-- What `readsb` of the kernel reads. -/
def readsb (blk : Block) : Superblock :=
  ⟨blk.word 0, blk.word 1, blk.word 2, blk.word 3, blk.word 4, blk.word 5, blk.word 6⟩

/-- What a sector was written with. -/
inductive Kind where
  | zeroes
  | super
  | inode
  | bitmap
  /-- A data block of an inode. -/
  | data (inum : ℕ)
  /-- The indirect block of an inode. -/
  | indirect (inum : ℕ)
deriving DecidableEq

/-- The image and the variables of `mkfs`. -/
structure Img where
  disk : Disk
  /-- The length of the file in sectors. -/
  len : ℕ
  freeinode : ℕ
  freeblock : ℕ
  /-- The inode numbers handed out. -/
  inums : List ℕ
  /-- The block numbers stored. -/
  addrs : List ℕ
  /-- The sectors written. -/
  writes : List (Kind × ℕ)

/-- The sector at the byte offset `sec * BSIZE`, an `uint`. -/
def sector (sec : ℕ) : ℕ := sec * BSIZE % 2 ^ 32 / BSIZE

namespace Img

def wsect (s : Img) (k : Kind) (sec : ℕ) (buf : Block) : Img :=
  { s with
    disk := Function.update s.disk (sector sec) buf
    len := max s.len (sector sec + 1)
    writes := s.writes ++ [(k, sector sec)] }

def rsect (s : Img) (sec : ℕ) : Except String Block :=
  if sector sec < s.len then .ok (s.disk (sector sec)) else .error "read"

/-- `IBLOCK(inum, sb)`. -/
def iblock (inum : ℕ) : ℕ := inum / IPB + sb.inodestart

def winode (s : Img) (inum : ℕ) (ip : Dinode) : Except String Img := do
  let buf ← s.rsect (iblock inum)
  return s.wsect .inode (iblock inum) (putDinodeIn buf (inum % IPB) ip)

def rinode (s : Img) (inum : ℕ) : Except String Dinode := do
  let buf ← s.rsect (iblock inum)
  return dinodeIn buf (inum % IPB)

def ialloc (s : Img) (type : Int16) : Except String (ℕ × Img) := do
  let inum := s.freeinode
  let s := { s with freeinode := (inum + 1) % 2 ^ 32, inums := s.inums ++ [inum] }
  let s ← s.winode inum ⟨type, 0, 0, 1, 0, fun _ => 0⟩
  return (inum, s)

/-- `freeblock++`, for a block number that is stored. -/
def takeBlock (s : Img) : ℕ × Img :=
  (s.freeblock,
    { s with freeblock := (s.freeblock + 1) % 2 ^ 32, addrs := s.addrs ++ [s.freeblock] })

/-- A new block for `addrs[i]`, if it has none. -/
def fillAddr (s : Img) (din : Dinode) (i : ℕ) : Dinode × Img :=
  if din.addr i = 0 then (din.setAddr i s.takeBlock.1, s.takeBlock.2) else (din, s)

/-- A new block for a word of the indirect block, if it has none. -/
def fillWord (s : Img) (inum addr : ℕ) (indirect : Block) (j : ℕ) : Block × Img :=
  if indirect.word j = 0 then
    (indirect.setWord j s.takeBlock.1,
      s.takeBlock.2.wsect (.indirect inum) addr (indirect.setWord j s.takeBlock.1))
  else (indirect, s)

/-- The block of `iappend` for file block `fbn`. -/
def blockFor (s : Img) (inum : ℕ) (din : Dinode) (fbn : ℕ) : Except String (Dinode × ℕ × Img) :=
  if fbn < NDIRECT then
    let (din, s) := s.fillAddr din fbn
    .ok (din, din.addr fbn, s)
  else do
    let (din, s) := s.fillAddr din NDIRECT
    let indirect ← s.rsect (din.addr NDIRECT)
    let (indirect, s) := s.fillWord inum (din.addr NDIRECT) indirect (fbn - NDIRECT)
    return (din, indirect.word (fbn - NDIRECT), s)

/-- A pass of the loop of `iappend`, with bytes left. -/
def appendPass (s : Img) (inum : ℕ) (din : Dinode) (off : ℕ) (p : List UInt8) :
    Except String (Dinode × Img) :=
  let fbn := off / BSIZE
  if MAXFILE ≤ fbn then .error "fbn < MAXFILE"
  else do
    let (din, x, s) ← s.blockFor inum din fbn
    let n1 := min p.length ((fbn + 1) * BSIZE - off)
    let buf ← s.rsect x
    return (din, s.wsect (.data inum) x (buf.blit (off - fbn * BSIZE) (p.take n1)))

/-- The loop of `iappend`, with a bound on its passes. -/
def appendLoop (inum : ℕ) : ℕ → Img → Dinode → ℕ → List UInt8 → Except String (Dinode × ℕ × Img)
  | 0, s, din, off, _ => .ok (din, off, s)
  | fuel + 1, s, din, off, p =>
    if p = [] then .ok (din, off, s)
    else do
      let (din, s) ← s.appendPass inum din off p
      let n1 := min p.length ((off / BSIZE + 1) * BSIZE - off)
      appendLoop inum fuel s din (off + n1) (p.drop n1)

def iappend (s : Img) (inum : ℕ) (p : List UInt8) : Except String Img := do
  let din ← s.rinode inum
  let (din, off, s) ← appendLoop inum p.length s din din.size.toNat p
  s.winode inum { din with size := UInt32.ofNat off }

/-- The bitmap block with the first `used` bits set. -/
def bitmap : ℕ → Block
  | 0 => Bytes.zero BSIZE
  | i + 1 => setBitIn (bitmap i) i

def balloc (s : Img) (used : ℕ) : Except String Img :=
  if used < BSIZE * 8 then .ok (s.wsect .bitmap sb.bmapstart (bitmap used))
  else .error "used < BSIZE*8"

end Img

/-- A file of the host : its name, and what the calls of `read` return before the end. -/
structure HostFile where
  name : List UInt8
  reads : List (List UInt8)
  name_ne : ∀ c ∈ name, c ≠ 0
  reads_length : ∀ r ∈ reads, 0 < r.length ∧ r.length ≤ BSIZE

/-- The bytes of the file. -/
def HostFile.bytes (f : HostFile) : List UInt8 := f.reads.flatten

/-- Skip a leading `_`. -/
def skipUnderscore (name : List UInt8) : List UInt8 :=
  if name.headD 0 = 95 then name.tail else name

/-- A file of the list of arguments. -/
def addFile (rootino : ℕ) (s : Img) (f : HostFile) : Except String Img :=
  if 47 ∈ f.name then .error "index(argv[i], '/') == 0"
  else do
    let (inum, s) ← s.ialloc T_FILE
    let s ← s.iappend rootino (Dirent.bytes ⟨inum, strncpy DIRSIZ (skipUnderscore f.name)⟩)
    f.reads.foldlM (fun s buf => s.iappend inum buf) s

/-- The empty image. -/
def empty : Img := ⟨fun _ => Bytes.zero BSIZE, 0, 1, nmeta, [], [], []⟩

/-- The first loop of `main`. -/
def zeroed : Img :=
  (List.range FSSIZE).foldl (fun s i => s.wsect .zeroes i (Bytes.zero BSIZE)) empty

/-- Fix the size of the root directory. -/
def fixRoot (s : Img) (rootino : ℕ) : Except String Img := do
  let din ← s.rinode rootino
  let off := (din.size.toNat / BSIZE + 1) * BSIZE
  s.winode rootino { din with size := UInt32.ofNat off }

/-- `main`, with the files that the arguments name. -/
def mkfs (files : List HostFile) : Except String Img := do
  let s := zeroed.wsect .super 1 ((Bytes.zero BSIZE).blit 0 (leWords (words sb)))
  let (rootino, s) ← s.ialloc T_DIR
  if rootino ≠ ROOTINO then throw "rootino == ROOTINO"
  let s ← s.iappend rootino (Dirent.bytes ⟨rootino, strncpy DIRSIZ dotName⟩)
  let s ← s.iappend rootino (Dirent.bytes ⟨rootino, strncpy DIRSIZ dotdotName⟩)
  let s ← files.foldlM (addFile rootino) s
  let s ← fixRoot s rootino
  s.balloc s.freeblock

end Xv6.Mkfs

import Xv6.Bytes
import Xv6.Ram
import Xv6.Runs
import Xv6.FreeList

/-!
# The memory allocator of user programs

`umalloc.c` on the memory of a process as bytes. A header is two words, `s.ptr` and `s.size`,
and pointers are numbers below `2 ^ 32`. The static header `base` is at the address `base`.

`sbrk` has a size in bytes, of which it takes the signed value, and gives the new size of the
process or -1 (`none`); `room` says whether the kernel has the memory. What it was asked for
is kept in `asked`, as a number that has not been reduced modulo `2 ^ 32`.

The pages below the size of the process are there (`State.Maps`) and an access to any other
page ends the process. The page under the stack, which has no `PTE_U`, is not told apart. A call
that ends the process has no result, and neither has one that loops for ever: the loops have a
bound on their rounds, `ROUNDS`, which is larger than the number of addresses.

A program calls `malloc` and `free` and writes to the blocks it has got (`Op`).
-/

namespace Xv6.Umalloc

/-- The word at an address. -/
def load (m : ℕ → UInt8) (a : ℕ) : ℕ := leNat ((List.range 4).map fun i => m (a + i))

def store (m : ℕ → UInt8) (a v : ℕ) : ℕ → UInt8 := Ram.write m a 4 fun i => (leBytes 4 v).getD i 0

/-- `p->s.ptr`. -/
def ptr (m : ℕ → UInt8) (p : ℕ) : ℕ := load m p

/-- `p->s.size`. -/
def size (m : ℕ → UInt8) (p : ℕ) : ℕ := load m (p + 4)

def setPtr (m : ℕ → UInt8) (p v : ℕ) : ℕ → UInt8 := store m p v

def setSize (m : ℕ → UInt8) (p v : ℕ) : ℕ → UInt8 := store m (p + 4) v

/-- `p + n`, for a pointer to a header. -/
def plus (p n : ℕ) : ℕ := (p + 8 * n) % 2 ^ 32

def ROUNDS : ℕ := 2 ^ 34

structure State where
  mem : ℕ → UInt8
  freep : ℕ
  /-- The size of the process, where the next memory from `sbrk` starts. -/
  sz : ℕ
  asked : List ℕ

/-- The `n` bytes from `p` on are on pages of the process. -/
def State.Maps (s : State) (p n : ℕ) : Prop := p + n ≤ (s.sz + 4095) / 4096 * 4096

instance (s : State) (p n : ℕ) : Decidable (s.Maps p n) :=
  inferInstanceAs (Decidable (p + n ≤ _))

/-- The loop of `free`, which finds the place of a block in the list. -/
def search (s : State) (bp : ℕ) : ℕ → ℕ → Option ℕ
  | 0, _ => none
  | n + 1, p =>
    if ¬s.Maps p 4 then none
    else if bp > p ∧ bp < ptr s.mem p then some p
    else if p ≥ ptr s.mem p ∧ (bp > p ∨ bp < ptr s.mem p) then some p
    else search s bp n (ptr s.mem p)

/-- The block at `p` gets the next block `q`, or takes it in if the two touch. -/
def link (m : ℕ → UInt8) (p q : ℕ) : ℕ → UInt8 :=
  if plus p (size m p) = q then
    let m := setSize m p ((size m p + size m q) % 2 ^ 32)
    setPtr m p (ptr m q)
  else setPtr m p q

def free (s : State) (ap : ℕ) : Option State :=
  let bp := (ap + (2 ^ 32 - 8)) % 2 ^ 32
  (search s bp ROUNDS s.freep).bind fun p =>
    let q := ptr s.mem p
    -- the header of `q` is read only if `bp` takes it in
    if s.Maps bp 8 ∧ s.Maps p 8 ∧ (plus bp (size s.mem bp) = q → s.Maps q 8) then
      some { s with mem := link (link s.mem bp q) p bp, freep := p }
    else none

/-- `sbrk`, with the effect of `growproc` on the size. -/
def sbrk (room : Bool) (sz n : ℕ) : Option ℕ :=
  if n = 0 then some sz
  else if n < 2 ^ 31 then
    if room ∧ sz + n < 2 ^ 32 then some (sz + n) else none
  else
    let newsz := min sz ((sz + n) % 2 ^ 32)
    if newsz = 0 then none else some newsz

def morecore (room : Bool) (s : State) (nu : ℕ) : Option (ℕ × State) :=
  let nu := if nu < 4096 then 4096 else nu
  let s := { s with asked := 8 * nu :: s.asked }
  match sbrk room s.sz (nu * 8 % 2 ^ 32) with
  | none => some (0, s)
  | some sz =>
    let hp := s.sz
    let s := { s with mem := setSize s.mem hp nu, sz := sz }
    if s.Maps hp 8 then (free s (plus hp 1)).map fun s => (s.freep, s) else none

/-- The loop of `malloc`. The header at `prevp` has been read before. -/
def mallocLoop (room : Bool) (nunits : ℕ) : ℕ → ℕ → ℕ → State → Option (ℕ × State)
  | 0, _, _, _ => none
  | n + 1, prevp, p, s =>
    if ¬s.Maps p 8 then none
    else if size s.mem p ≥ nunits then
      if size s.mem p = nunits then
        some (plus p 1, { s with mem := setPtr s.mem prevp (ptr s.mem p), freep := prevp })
      else
        let m := setSize s.mem p (size s.mem p - nunits)
        let p := plus p (size m p)
        if s.Maps p 8 then
          some (plus p 1, { s with mem := setSize m p nunits, freep := prevp })
        else none
    else if p = s.freep then
      (morecore room s nunits).bind fun (p, s) =>
        if p = 0 then some (0, s) else mallocLoop room nunits n p (ptr s.mem p) s
    else mallocLoop room nunits n p (ptr s.mem p) s

/-- The units for a number of bytes, and one for the header. -/
def nunits (nbytes : UInt32) : ℕ := (nbytes.toNat + 8 - 1) % 2 ^ 32 / 8 + 1

/-- The static header is part of the program, so there is no check before it is written. -/
def malloc (base : ℕ) (room : Bool) (s : State) (nbytes : UInt32) : Option (ℕ × State) :=
  let s := if s.freep = 0 then
      { s with mem := setSize (setPtr s.mem base base) base 0, freep := base }
    else s
  if s.Maps s.freep 4 then
    mallocLoop room (nunits nbytes) ROUNDS s.freep (ptr s.mem s.freep) s
  else none

/-! ## Programs that use the allocator -/

/-- The allocator, and the blocks that the program has got and not given back, with their
headers. -/
structure Heap extends State where
  live : List Region

inductive Op where
  | malloc (nbytes : UInt32) (room : Bool)
  | free (ap : ℕ)
  | write (a : ℕ) (v : UInt8)

/-- A block that is returned becomes live. -/
def Heap.got (live : List Region) (r : ℕ × State) : Heap :=
  if r.1 = 0 then ⟨r.2, live⟩ else ⟨r.2, ⟨r.1 - 8, 8 * size r.2.mem (r.1 - 8)⟩ :: live⟩

/-- `free` is called for live blocks, and the program writes to live blocks. -/
def step (base : ℕ) (s : Heap) : Op → Option Heap
  | .malloc nbytes room => (malloc base room s.toState nbytes).map (Heap.got s.live)
  | .free ap =>
    if ∃ b ∈ s.live, b.addr + 8 = ap then
      (free s.toState ap).map fun t => ⟨t, s.live.eraseP fun b => b.addr + 8 = ap⟩
    else none
  | .write a v =>
    if ∃ b ∈ s.live, b.addr + 8 ≤ a ∧ a < b.stop then
      some { s with mem := fun x => if x = a then v else s.mem x }
    else none

/-- The start of a program of size `sz`. -/
def boot (mem : ℕ → UInt8) (sz : ℕ) : Heap := ⟨⟨mem, 0, sz, []⟩, []⟩

-- The first block goes back, the third one is cut from what the second one has left.
example : (exec (step 4096) (boot (fun _ => 0) 4104)
    [.malloc 100 true, .malloc 10 true, .free 36768, .malloc 32000 true]).map
      (fun s => (s.live.map Region.addr, s.freep, s.sz)) = some ([4728, 36736], 4096, 36872) := by
  decide +kernel

end Xv6.Umalloc

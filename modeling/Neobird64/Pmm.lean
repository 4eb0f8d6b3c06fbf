import Neobird64.State

/-! `kern/mm/pmm.c`: the bitmap allocator of physical blocks. -/

namespace Neobird64

/-- `BLOCK_SIZE`. -/
def BLOCK_SIZE : Word := 4096

def addr2block (addr : Word) : Word := addr / BLOCK_SIZE

def block2addr (block : Word) : Word := block * BLOCK_SIZE

/-- `&pmm_bitmap[bit/8]`: C division rounds toward zero, and the index is sign-extended. -/
def bitmapPtr (s : State) (bit : Int) : Word := s.pmmBitmap + BitVec.ofInt 64 (bit.tdiv 8)

/-- `1 << (bit%8)` as a byte. C leaves the shift undefined where `bit` is negative and no multiple of 8: here it uses the low
    five bits of its count, while compiled code may take `bit & 7`. The address of the byte is the same either way. -/
def bitMask (bit : Int) : BitVec 8 := ((1 : BitVec 32) <<< (bit.tmod 8 % 32).toNat).setWidth 8

def mmapSet (s : State) (bit : Int) : State :=
  s.storeByte .identity (bitmapPtr s bit) (s.loadByte .identity (bitmapPtr s bit) ||| bitMask bit)

def mmapTest (s : State) (bit : Int) : Bool :=
  s.loadByte .identity (bitmapPtr s bit) &&& bitMask bit ≠ 0

def mmapUnset (s : State) (bit : Int) : State :=
  s.storeByte .identity (bitmapPtr s bit) (s.loadByte .identity (bitmapPtr s bit) &&& ~~~bitMask bit)

/-- `pmm_bitmap[i]`. -/
def bitmapByte (s : State) (i : Nat) : BitVec 8 :=
  s.loadByte .identity (s.pmmBitmap + BitVec.ofNat 64 i)

/-- `pmm_block_count / 8`, the bytes of the bitmap. -/
def bitmapBytes (s : State) : Nat := (s.pmmBlockCount / 8).toNat

/-- The inner loop of `find_free_block`: the first clear bit of byte `i`. -/
def findInByte (s : State) (i : Nat) : Option Word :=
  (List.range 8).findSome? fun j =>
    let bit : BitVec 8 := 1 <<< j
    if bitmapByte s i &&& bit = 0 then some (BitVec.ofNat 64 (i * 8 + j)) else none

/-- The first clear bit, or `(uint64_t)-1`. -/
def findFreeBlock (s : State) : Word :=
  ((List.range (bitmapBytes s)).findSome? fun i =>
    if bitmapByte s i ≠ 0xff then findInByte s i else none).getD (-1)

/-- The address of the block, 0 (NULL) when there is none. -/
def pmmAllocBlock (s : State) : Word × State :=
  let block := findFreeBlock s
  if block = -1 then (0, s)
  else (block * BLOCK_SIZE, mmapSet s (toInt block))

def pmmFreeBlock (s : State) (addr : Word) : State := mmapUnset s (toInt (addr2block addr))

/-! ### `pmm_init`, loop by loop -/

/-- Fetch memory size. -/
def memSize (entries : List MemmapEntry) (size : Word) : Word :=
  entries.foldl (fun size e => if e.type = .usable then size + e.length else size) size

/-- Parse memmap: `usable_found` and `pmm_usable_addr`. -/
def parseMemmap (entries : List MemmapEntry) (addr : Word) : Bool × Word :=
  entries.foldl (fun (found, addr) e =>
    if e.type = .usable ∧ found = false then (true, e.base) else (found, addr)) (false, addr)

/-- Set usable blocks in the bitmap. -/
def clearUsable (entries : List MemmapEntry) (s : State) : Except Halt State :=
  entries.foldlM (fun s e =>
    if e.type = .usable then
      forPages 0 e.length (fun s j => .ok (mmapUnset s (toInt (addr2block (e.base + j))))) s
    else .ok s) s

/-- Mark the space used by the bitmap as used: one block for each of its bytes. -/
def markBitmap (s : State) : State :=
  (List.range (bitmapBytes s)).foldl
    (fun s i => mmapSet s (toInt (addr2block s.pmmUsableAddr + BitVec.ofNat 64 i))) s

/-- The globals that `pmm_init` sets before it touches the bitmap. -/
def pmmLayout (entries : List MemmapEntry) (s : State) : State :=
  let size := memSize entries s.pmmMemSize
  let addr := (parseMemmap entries s.pmmUsableAddr).2
  { s with
    memmap := entries
    pmmMemSize := size
    pmmUsableAddr := addr
    pmmBlockCount := size / BLOCK_SIZE
    pmmBitmap := addr + s.hhdmoffset }

def pmmInit (b : Boot) (s : State) : Except Halt State :=
  match b.memmap with
  | none => .error (.panic "Memory map not recieved, halting")
  | some entries => do
    let s := pmmLayout entries s
    let s := memset .identity s s.pmmBitmap 0xFF (bitmapBytes s)
    let s ← clearUsable entries s
    return markBitmap s

def pmmFetchMem (s : State) : Word := s.pmmMemSize

end Neobird64

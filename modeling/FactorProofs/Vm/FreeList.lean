import FactorProofs.Vm.MarkBits
import Mathlib.Data.List.Sort
import Mathlib.Data.List.FinRange
import Mathlib.Data.Nat.Bitwise

namespace FactorProofs.Vm

def freeListCount : Nat := 32

def allocationPageSize : Nat := 1024

/-- The header `make_free` writes: the size with the low bit set. -/
def freeHeader (size : Nat) : Nat := size ||| 1

/-- `free_heap_block::size`: `header & ~7`. -/
def headerSize (header : Nat) : Nat := header / 8 * 8

/-- `free_heap_block::free_p`: `(header & 1) == 1`. -/
def headerFreeP (header : Nat) : Bool := header % 2 == 1

theorem freeHeader_of_even {size : Nat} (h : 2 ∣ size) : freeHeader size = size + 1 := by
  obtain ⟨k, rfl⟩ := h
  apply Nat.eq_of_testBit_eq
  intro i
  rw [freeHeader, Nat.testBit_lor]
  cases i with
  | zero => simp
  | succ i => simp [Nat.testBit_succ, Nat.mul_add_div]

theorem headerSize_freeHeader {size : Nat} (h : 8 ∣ size) : headerSize (freeHeader size) = size := by
  rw [freeHeader_of_even (Nat.dvd_trans (by decide) h), headerSize]
  omega

theorem headerFreeP_freeHeader {size : Nat} (h : 2 ∣ size) : headerFreeP (freeHeader size) = true := by
  rw [freeHeader_of_even h, headerFreeP]
  simp only [beq_iff_eq]
  omega

theorem bucket_lt {size : Nat} (h : size < freeListCount * dataAlignment) :
    size / dataAlignment < freeListCount :=
  Nat.div_lt_of_lt_mul (by rw [Nat.mul_comm]; exact h)

/-- `free_list_allocator`, over the region `[start, start + size)`. `memory`
is the word at each address, which holds the header of a block starting
there; each vector of `small_blocks` is kept with its last element first.
The allocator's mark bits cover the same region. -/
structure FreeListAllocator where
  start : Nat
  size : Nat
  smallBlocks : Fin freeListCount → List Nat
  largeBlocks : List Nat
  freeBlockCount : Nat
  freeSpace : Nat
  memory : Nat → Nat
  state : MarkBits
  state_start : state.start = start
  state_size : state.size = size

namespace FreeListAllocator

variable (s : FreeListAllocator)

/-- `end`. -/
def endAddr : Nat := s.start + s.size

def blockSize (block : Nat) : Nat := headerSize (s.memory block)

def freeP (block : Nat) : Bool := headerFreeP (s.memory block)

def makeFree (block size : Nat) : FreeListAllocator :=
  { s with memory := Function.update s.memory block (freeHeader size) }

def clearFreeList : FreeListAllocator :=
  { s with smallBlocks := fun _ => [], largeBlocks := [], freeBlockCount := 0, freeSpace := 0 }

def addToFreeList (block : Nat) : FreeListAllocator :=
  let size := s.blockSize block
  if h : size < freeListCount * dataAlignment then
    let bucket : Fin freeListCount := ⟨size / dataAlignment, bucket_lt h⟩
    { s with
      smallBlocks := Function.update s.smallBlocks bucket (block :: s.smallBlocks bucket)
      freeBlockCount := s.freeBlockCount + 1
      freeSpace := s.freeSpace + size }
  else
    { s with
      largeBlocks := s.largeBlocks.orderedInsert (fun a b => s.blockSize a < s.blockSize b) block
      freeBlockCount := s.freeBlockCount + 1
      freeSpace := s.freeSpace + size }

def initialFreeList (occupied : Nat) : FreeListAllocator :=
  let s := s.clearFreeList
  if occupied ≠ s.endAddr - s.start then
    let lastBlock := s.start + occupied
    (s.makeFree lastBlock (s.endAddr - lastBlock)).addToFreeList lastBlock
  else s

/-- The constructor over memory `memory`: fresh mark bits, and the whole
region one free block. -/
def new (size start : Nat) (memory : Nat → Nat) : FreeListAllocator :=
  initialFreeList ⟨start, size, fun _ => [], [], 0, 0, memory, MarkBits.new size start, rfl, rfl⟩ 0

def splitFreeBlock (block size : Nat) : FreeListAllocator :=
  if s.blockSize block ≠ size then
    let split := block + size
    ((s.makeFree split (s.blockSize block - size)).makeFree block size).addToFreeList split
  else s

/-- The large branch of `find_free_block`: `lower_bound` finds the first block
in size order with at least `size` bytes. -/
def findLargeBlock (size : Nat) : Option Nat × FreeListAllocator :=
  match s.largeBlocks.find? (fun b => size ≤ s.blockSize b) with
  | some block =>
    (some block,
      { s with
        largeBlocks := s.largeBlocks.erase block
        freeBlockCount := s.freeBlockCount - 1
        freeSpace := s.freeSpace - s.blockSize block })
  | none => (none, s)

/-- The loop of `find_free_block` that cuts `count` pieces of `size` bytes off
a block from `largeBlock` on and adds each to the free list. -/
def carve : FreeListAllocator → Nat → Nat → Nat → FreeListAllocator
  | s, _, _, 0 => s
  | s, largeBlock, size, count + 1 =>
    carve ((s.makeFree largeBlock size).addToFreeList largeBlock) (largeBlock + size) size count

/-- The refill of an empty small bucket in `find_free_block`: a block of
`large_block_size` bytes, at least `allocation_page_size`, so that the
recursive call takes the large branch, is cut into `large_block_size / size`
pieces of `size` bytes. -/
def refillSmallBucket (size : Nat) : Option FreeListAllocator :=
  let largeBlockSize := (allocationPageSize + size - 1) / size * size
  match s.findLargeBlock largeBlockSize with
  | (some largeBlock, s) =>
    some (carve (s.splitFreeBlock largeBlock largeBlockSize) largeBlock size (largeBlockSize / size))
  | (none, _) => none

/-- `blocks.back()` and `blocks.pop_back()` on bucket `i`, with the counters.
The bucket is never empty here: a refill leaves pieces in it. -/
def popSmallBlock (i : Fin freeListCount) : Option Nat × FreeListAllocator :=
  match s.smallBlocks i with
  | block :: blocks =>
    (some block,
      { s with
        smallBlocks := Function.update s.smallBlocks i blocks
        freeBlockCount := s.freeBlockCount - 1
        freeSpace := s.freeSpace - s.blockSize block })
  | [] => (none, s)

def findFreeBlock (size : Nat) : Option Nat × FreeListAllocator :=
  let bucket := size / dataAlignment
  if h : bucket < freeListCount then
    if s.smallBlocks ⟨bucket, h⟩ = [] then
      match s.refillSmallBucket size with
      | some s => s.popSmallBlock ⟨bucket, h⟩
      | none => (none, s)
    else s.popSmallBlock ⟨bucket, h⟩
  else s.findLargeBlock size

def allot (size : Nat) : Option Nat × FreeListAllocator :=
  let size := align size dataAlignment
  match s.findFreeBlock size with
  | (some block, s) => (some block, s.splitFreeBlock block size)
  | (none, s) => (none, s)

/-- `free`; `size` is `block->size()`, the size of the object freed. -/
def free (block size : Nat) : FreeListAllocator := (s.makeFree block size).addToFreeList block

def occupiedSpace : Nat := s.size - s.freeSpace

/-- `largest_free_block`: the last large block, or else the last block of the
highest non-empty small bucket. -/
def largestFreeBlock : Nat :=
  match s.largeBlocks.getLast? with
  | some block => s.blockSize block
  | none =>
    ((List.finRange freeListCount).reverse.findSome? fun i =>
      (s.smallBlocks i).head?.map s.blockSize).getD 0

def canAllotP (size : Nat) : Bool := max size allocationPageSize ≤ s.largestFreeBlock

/-- The loop of `sweep` from `start`, with `fuel` turns left. -/
def sweepFrom : FreeListAllocator → Nat → Nat → FreeListAllocator
  | s, _, 0 => s
  | s, start, fuel + 1 =>
    if start ≠ s.endAddr then
      let start := s.state.nextUnmarkedBlockAfter start
      if start ≠ s.endAddr then
        let size := s.state.unmarkedBlockSize start
        sweepFrom ((s.makeFree start size).addToFreeList start) (start + size) fuel
      else s
    else s

/-- `sweep`: each run of unmarked lines becomes one free block. Every turn
but the last passes at least one line. -/
def sweep : FreeListAllocator := sweepFrom s.clearFreeList s.start (s.size / dataAlignment + 1)

/-- The loop of `sweep(iter)`: as `sweepFrom`, and each free block made is
passed to `iter`; the calls are returned in order with the allocator. -/
def sweepIterFrom : FreeListAllocator → Nat → Nat → FreeListAllocator × List (Nat × Nat)
  | s, _, 0 => (s, [])
  | s, start, fuel + 1 =>
    if start ≠ s.endAddr then
      let start := s.state.nextUnmarkedBlockAfter start
      if start ≠ s.endAddr then
        let size := s.state.unmarkedBlockSize start
        let r := sweepIterFrom ((s.makeFree start size).addToFreeList start) (start + size) fuel
        (r.1, (start, size) :: r.2)
      else (s, [])
    else (s, [])

/-- `sweep(iter)`, of which `sweep()` is the case of an `iter` that does nothing. -/
def sweepIter : FreeListAllocator × List (Nat × Nat) :=
  sweepIterFrom s.clearFreeList s.start (s.size / dataAlignment + 1)

/-- `memmove(dest, src, size)`. -/
def memmove (dest src size : Nat) : FreeListAllocator :=
  { s with memory := fun a => if dest ≤ a ∧ a < dest + size then s.memory (src + (a - dest)) else s.memory a }

/-- `iterate` with the block function of `compact`, from `scan` with the
destination `destAddr`. The block size is `compaction_fixup::size`:
`objectSize` (the object's own size) at a marked address, and the distance
to the next marked line otherwise. Returns the `(block, dest_addr, size)`
triples passed to the iterator and the final `dest_addr`. -/
def compactFrom (objectSize : Nat → Nat) : Nat → Nat → Nat → List (Nat × Nat × Nat) × Nat
  | _, destAddr, 0 => ([], destAddr)
  | scan, destAddr, fuel + 1 =>
    if scan ≠ s.endAddr then
      let size := if s.state.markedP scan then objectSize scan else s.state.unmarkedBlockSize scan
      if !s.freeP scan && s.state.markedP scan then
        let rest := compactFrom objectSize (scan + size) (destAddr + size) fuel
        ((scan, destAddr, size) :: rest.1, rest.2)
      else compactFrom objectSize (scan + size) destAddr fuel
    else ([], destAddr)

def moveBlocks : FreeListAllocator → List (Nat × Nat × Nat) → FreeListAllocator
  | s, [] => s
  | s, (block, dest, size) :: moves => moveBlocks (if dest ≠ block then s.memmove dest block size else s) moves

/-- `compact`, after `compute_forwarding`: slide the marked blocks down in
address order, then leave one free block after them. -/
def compact (objectSize : Nat → Nat) : List (Nat × Nat × Nat) × FreeListAllocator :=
  let walk := s.compactFrom objectSize s.start s.start (s.size / dataAlignment + 1)
  (walk.1, (moveBlocks s walk.1).initialFreeList (walk.2 - s.start))

end FreeListAllocator

end FactorProofs.Vm

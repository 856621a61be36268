import X1.Lib.List
import X1.Lib.Macros

/-! # The boundary tag allocator of mem.c

Memory is a map from byte addresses to 32-bit words, read and written at the
addresses the C code computes; `NULL` is address 0. Tags, free list nodes and
payloads share these words exactly as in the source. `none` is a failed
assertion. The heap and the list head live at link-time addresses, of which only
what the C language promises is known. The mutex around each operation is left to
the callers' model: an operation here is one critical section.
-/
namespace X1.Mem
open X1.Word X1.Lib

structure Memory where
  word : ℕ → ℕ

instance : CoeFun Memory (fun _ => ℕ → ℕ) := ⟨Memory.word⟩

def store (m : Memory) (addr word : ℕ) : Memory := ⟨Function.update m addr word⟩

@[simp] theorem store_self (m : Memory) (addr word : ℕ) : store m addr word addr = word := by
  simp [store]

@[simp] theorem store_of_ne {m : Memory} {addr word a : ℕ} (h : a ≠ addr) :
    store m addr word a = m a := by
  simp [store,h]

/-- `struct list` in memory: `prev` is its first word, `next` its second. -/
instance : LinkStore Memory ℕ where
  next m p := m (add p 4)
  prev m p := m p
  setNext m p v := store m (add p 4) v
  setPrev m p v := store m p v

def MEM_HEAP_SIZE : ℕ := 32 * 1024 * 1024
def MEM_ALIGN : ℕ := 4
/-- Two tags of 4 bytes and a free list node of 8. -/
def MEM_BLOCK_MIN_SIZE : ℕ := p2Round (4 * 2 + 8) MEM_ALIGN
def MEM_BTAG_ALLOCATED_MASK : ℕ := 1
def MEM_BTAG_SIZE_MASK : ℕ := lnot MEM_BTAG_ALLOCATED_MASK

/-- Where the linker put `mem_heap` and `mem_free_list`. Neither object is at
`NULL` or wraps around the address space, and they do not overlap. -/
structure Layout where
  heap : ℕ
  freeList : ℕ
  heap_pos : 0 < heap
  heap_aligned : heap % 4 = 0
  heap_fits : heap + MEM_HEAP_SIZE < 2 ^ 32
  freeList_aligned : freeList % 4 = 0
  freeList_fits : freeList + 8 < 2 ^ 32
  disjoint : freeList + 8 ≤ heap ∨ heap + MEM_HEAP_SIZE ≤ freeList

def memAligned (value : ℕ) : Bool := p2Aligned value MEM_ALIGN

def memHeapEnd (L : Layout) : ℕ := add L.heap MEM_HEAP_SIZE

def memBtagAllocated (m : Memory) (btag : ℕ) : Bool := m btag &&& MEM_BTAG_ALLOCATED_MASK ≠ 0

def memBtagSetAllocated (m : Memory) (btag : ℕ) : Memory :=
  store m btag (m btag ||| MEM_BTAG_ALLOCATED_MASK)

def memBtagClearAllocated (m : Memory) (btag : ℕ) : Memory :=
  store m btag (m btag &&& lnot MEM_BTAG_ALLOCATED_MASK)

def memBtagSize (m : Memory) (btag : ℕ) : ℕ := m btag &&& MEM_BTAG_SIZE_MASK

def memBtagInit (m : Memory) (btag size : ℕ) : Memory := memBtagSetAllocated (store m btag size) btag

def memBlockSize (m : Memory) (block : ℕ) : ℕ := memBtagSize m block

def memBlockFromPayload (payload : ℕ) : ℕ := sub payload 4

def memBlockEnd (m : Memory) (block : ℕ) : ℕ := add block (memBlockSize m block)

def memBlockHeaderBtag (block : ℕ) : ℕ := block

def memBlockFooterBtag (m : Memory) (block : ℕ) : ℕ := sub (memBlockEnd m block) 4

def memBlockPrev (L : Layout) (m : Memory) (block : ℕ) : ℕ :=
  if block = L.heap then 0 else sub block (memBtagSize m (sub (memBlockHeaderBtag block) 4))

def memBlockNext (L : Layout) (m : Memory) (block : ℕ) : ℕ :=
  if memBlockEnd m block = memHeapEnd L then 0 else memBlockEnd m block

def memBlockAllocated (m : Memory) (block : ℕ) : Bool := memBtagAllocated m (memBlockHeaderBtag block)

def memBlockSetAllocated (m : Memory) (block : ℕ) : Memory :=
  let m := memBtagSetAllocated m (memBlockHeaderBtag block)
  memBtagSetAllocated m (memBlockFooterBtag m block)

def memBlockClearAllocated (m : Memory) (block : ℕ) : Memory :=
  let m := memBtagClearAllocated m (memBlockHeaderBtag block)
  memBtagClearAllocated m (memBlockFooterBtag m block)

def memBlockInit (m : Memory) (block size : ℕ) : Memory :=
  let m := memBtagInit m (memBlockHeaderBtag block) size
  memBtagInit m (memBlockFooterBtag m block) size

def memBlockPayload (block : ℕ) : ℕ := add block 4

def memBlockGetFreeNode (m : Memory) (block : ℕ) : Option ℕ := do
  guard (!memBlockAllocated m block)
  return memBlockPayload block

def memBlockInsideHeap (L : Layout) (m : Memory) (block : ℕ) : Bool :=
  L.heap ≤ block && memBlockPayload block < memHeapEnd L && memBlockEnd m block ≤ memHeapEnd L

def memFreeListAdd (L : Layout) (m : Memory) (block : ℕ) : Option Memory := do
  guard (memBlockAllocated m block)
  let m := memBlockClearAllocated m block
  let freeNode ← memBlockGetFreeNode m block
  return listInsertHead m L.freeList freeNode

def memFreeListRemove (m : Memory) (block : ℕ) : Option Memory := do
  guard (!memBlockAllocated m block)
  let freeNode ← memBlockGetFreeNode m block
  return memBlockSetAllocated (listRemove m freeNode) block

/-- The loop of `mem_free_list_find`, entered with the current node. -/
def memFreeListFindFrom (L : Layout) (m : Memory) (size : ℕ) : ℕ → ℕ → Option ℕ
  | 0, _ => none
  | fuel + 1, node =>
    if listEnd L.freeList node then some 0
    else if memBlockSize m (memBlockFromPayload node) ≥ size then some (memBlockFromPayload node)
    else memFreeListFindFrom L m size fuel (LinkStore.next m node)

/-- More free blocks than `MEM_HEAP_SIZE / MEM_BLOCK_MIN_SIZE` do not fit in the
heap, so a list walk that is longer does not end. -/
def memFreeListFind (L : Layout) (m : Memory) (size : ℕ) : Option ℕ :=
  memFreeListFindFrom L m size (MEM_HEAP_SIZE / MEM_BLOCK_MIN_SIZE + 1) (listFirst m L.freeList)

def memFreeListInit (L : Layout) (m : Memory) : Memory := listInit m L.freeList

def memBlockInside (m : Memory) (block addr : ℕ) : Bool := addr ≥ block && addr < memBlockEnd m block

def memBlockOverlap (m : Memory) (block1 block2 : ℕ) : Bool :=
  memBlockInside m block1 block2 || memBlockInside m block2 block1

/-- The new block (0 when the block is too small to split) and the memory. -/
def memBlockSplit (m : Memory) (block size : ℕ) : Option (ℕ × Memory) := do
  guard (memBlockAllocated m block)
  guard (memAligned size)
  if memBlockSize m block < add size MEM_BLOCK_MIN_SIZE then
    return (0, m)
  else
    let totalSize := memBlockSize m block
    let m := memBlockInit m block size
    let block2 := memBlockEnd m block
    return (block2, memBlockInit m block2 (sub totalSize size))

/-- The merged block (0 when one of the two is allocated) and the memory. -/
def memBlockMerge (L : Layout) (m : Memory) (block1 block2 : ℕ) : Option (ℕ × Memory) := do
  guard (!memBlockOverlap m block1 block2)
  if memBlockAllocated m block1 || memBlockAllocated m block2 then
    return (0, m)
  else
    let m ← memFreeListRemove m block1
    let m ← memFreeListRemove m block2
    let size := add (memBlockSize m block1) (memBlockSize m block2)
    let block1 := if block1 > block2 then block2 else block1
    let m ← memFreeListAdd L (memBlockInit m block1 size) block1
    return (block1, m)

def memSetup (L : Layout) (m : Memory) : Option Memory :=
  memFreeListAdd L (memFreeListInit L (memBlockInit m L.heap MEM_HEAP_SIZE)) L.heap

def memConvertToBlockSize (size : ℕ) : ℕ :=
  let size := add (p2Round size MEM_ALIGN) (4 * 2)
  if size < MEM_BLOCK_MIN_SIZE then MEM_BLOCK_MIN_SIZE else size

def memAlloc (L : Layout) (m : Memory) (size : ℕ) : Option (ℕ × Memory) :=
  if size = 0 then some (0, m)
  else do
    let size := memConvertToBlockSize size
    let block ← memFreeListFind L m size
    if block = 0 then
      return (0, m)
    else
      let m ← memFreeListRemove m block
      let (block2, m) ← memBlockSplit m block size
      let m ← if block2 ≠ 0 then memFreeListAdd L m block2 else some m
      guard (memAligned (memBlockPayload block))
      return (memBlockPayload block, m)

/-- The part of `mem_free` between `mem_block_prev` and `mem_block_next`: the block after a merge with
the previous one, and the memory. -/
def memFreeMergePrev (L : Layout) (m : Memory) (block : ℕ) : Option (ℕ × Memory) :=
  let tmp := memBlockPrev L m block
  if tmp ≠ 0 then do
    let (tmp, m) ← memBlockMerge L m block tmp
    return (if tmp ≠ 0 then tmp else block, m)
  else return (block, m)

/-- The rest of `mem_free`: the merge with the next block. -/
def memFreeMergeNext (L : Layout) (m : Memory) (block : ℕ) : Option Memory :=
  let tmp := memBlockNext L m block
  if tmp ≠ 0 then do
    let (_, m) ← memBlockMerge L m block tmp
    return m
  else return m

def memFree (L : Layout) (m : Memory) (ptr : ℕ) : Option Memory :=
  if ptr = 0 then some m
  else do
    guard (memAligned ptr)
    let block := memBlockFromPayload ptr
    guard (memBlockInsideHeap L m block)
    let m ← memFreeListAdd L m block
    let (block, m) ← memFreeMergePrev L m block
    memFreeMergeNext L m block

end X1.Mem

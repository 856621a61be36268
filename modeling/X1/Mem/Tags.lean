import X1.Mem.Blocks

/-! # Reading and writing boundary tags

What the accessors of mem.c compute on a block whose two tags are in memory, and
the three functions that rewrite both tags of a block as one operation, `setTags`.
-/
namespace X1.Mem
open X1.Word X1.Lib

/-- Both tags of the block are in memory. -/
structure Tagged (m : Memory) (b : Block) : Prop where
  header : m b.addr = b.tag
  footer : m b.footer = b.tag

/-- Both tags of the block written. -/
def setTags (m : Memory) (b : Block) : Memory := store (store m b.addr b.tag) b.footer b.tag

theorem lnot_one : lnot 1 = 2 ^ 32 - 2 ^ 1 := by decide

theorem blockMinSize_eq : MEM_BLOCK_MIN_SIZE = 16 := by decide

theorem heapSize_eq : MEM_HEAP_SIZE = 33554432 := by decide

namespace Block

variable {b : Block}

theorem tag_lt (hb : b.stop < 2 ^ 32) : b.tag < 2 ^ 32 := by
  have := b.size_aligned
  simp only [tag,stop] at *
  cases b.allocated <;> simp <;> omega

theorem size_of_tag (hb : b.stop < 2 ^ 32) : b.tag &&& lnot 1 = b.size := by
  rw [lnot_one,and_high_mask (tag_lt hb) (by norm_num)]
  have := b.size_aligned
  simp only [tag]
  cases b.allocated <;> simp <;> omega

theorem tag_or_one : b.tag ||| 1 = (b.mark true).tag := by
  rw [or_one]
  have := b.size_aligned
  simp only [tag,mark]
  cases b.allocated <;> simp <;> omega

theorem allocated_of_tag : decide (b.tag &&& 1 ≠ 0) = b.allocated := by
  have h1 : b.tag &&& 1 = b.tag % 2 := and_low_mask b.tag 1
  have := b.size_aligned
  rw [Bool.eq_iff_iff,decide_eq_true_iff,h1,tag]
  cases b.allocated <;> simp <;> omega

theorem footer_ne_addr : b.footer ≠ b.addr := by
  have := b.size_min
  simp only [footer]
  omega

end Block

variable {m m' : Memory} {b c : Block}

theorem memBlockSize_eq (h : m b.addr = b.tag) (hb : b.stop < 2 ^ 32) :
    memBlockSize m b.addr = b.size := by
  rw [memBlockSize,memBtagSize,h]
  exact Block.size_of_tag hb

theorem memBtagSize_footer (h : m b.footer = b.tag) (hb : b.stop < 2 ^ 32) :
    memBtagSize m b.footer = b.size := by
  rw [memBtagSize,h]
  exact Block.size_of_tag hb

theorem memBlockAllocated_eq (h : m b.addr = b.tag) : memBlockAllocated m b.addr = b.allocated := by
  rw [memBlockAllocated,memBlockHeaderBtag,memBtagAllocated,h]
  exact Block.allocated_of_tag

theorem memBlockEnd_eq (h : m b.addr = b.tag) (hb : b.stop < 2 ^ 32) :
    memBlockEnd m b.addr = b.stop := by
  rw [memBlockEnd,memBlockSize_eq h hb]
  exact add_of_lt hb

theorem memBlockFooterBtag_eq (h : m b.addr = b.tag) (hb : b.stop < 2 ^ 32) :
    memBlockFooterBtag m b.addr = b.footer := by
  rw [memBlockFooterBtag,memBlockEnd_eq h hb]
  have := b.size_min
  exact sub_of_le (by simp only [Block.stop]; omega) hb

theorem memBlockPayload_eq (hb : b.stop < 2 ^ 32) : memBlockPayload b.addr = b.node := by
  have := b.size_min
  exact add_of_lt (by simp only [Block.stop] at hb; omega)

theorem memBlockFromPayload_eq (hb : b.stop < 2 ^ 32) : memBlockFromPayload b.node = b.addr := by
  have := b.size_min
  rw [memBlockFromPayload,sub_of_le] <;> simp only [Block.node,Block.stop] at * <;> omega

theorem memBlockInit_eq (hb : b.stop < 2 ^ 32) (ha : b.allocated = true) :
    memBlockInit m b.addr b.size = setTags m b := by
  have hor : b.size ||| 1 = b.tag := by
    rw [or_one]
    have := b.size_aligned
    simp only [Block.tag,ha,Bool.toNat_true]
    omega
  have hinit : ∀ (m : Memory) (p : ℕ), memBtagInit m p b.size = store m p b.tag := by
    intro m p
    simp only [memBtagInit,memBtagSetAllocated,store_self,MEM_BTAG_ALLOCATED_MASK,hor]
    simp [store]
  rw [memBlockInit,memBlockHeaderBtag]
  simp only [hinit]
  rw [memBlockFooterBtag_eq (store_self ..) hb]
  rfl

theorem memBlockSetAllocated_eq (h : Tagged m b) (hb : b.stop < 2 ^ 32) :
    memBlockSetAllocated m b.addr = setTags m (b.mark true) := by
  have h1 : store m b.addr (m b.addr ||| 1) b.addr = (b.mark true).tag := by
    rw [store_self,h.header,Block.tag_or_one]
  have hf : memBlockFooterBtag (store m b.addr (m b.addr ||| 1)) b.addr = b.footer :=
    memBlockFooterBtag_eq (b := b.mark true) h1 hb
  simp only [memBlockSetAllocated,memBlockHeaderBtag,memBtagSetAllocated,MEM_BTAG_ALLOCATED_MASK]
  rw [hf,store_of_ne Block.footer_ne_addr,h.footer,h.header,Block.tag_or_one]
  rfl

theorem memBlockClearAllocated_eq (h : Tagged m b) (hb : b.stop < 2 ^ 32) :
    memBlockClearAllocated m b.addr = setTags m (b.mark false) := by
  have ht : b.tag &&& lnot 1 = (b.mark false).tag := Block.size_of_tag hb
  have h1 : store m b.addr (m b.addr &&& lnot 1) b.addr = (b.mark false).tag := by
    rw [store_self,h.header,ht]
  have hf : memBlockFooterBtag (store m b.addr (m b.addr &&& lnot 1)) b.addr = b.footer :=
    memBlockFooterBtag_eq (b := b.mark false) h1 hb
  simp only [memBlockClearAllocated,memBlockHeaderBtag,memBtagClearAllocated,MEM_BTAG_ALLOCATED_MASK]
  rw [hf,store_of_ne Block.footer_ne_addr,h.footer,h.header,ht]
  rfl

theorem tagged_setTags (m : Memory) (b : Block) : Tagged (setTags m b) b := by
  refine ⟨?_,store_self ..⟩
  rw [setTags,store_of_ne Block.footer_ne_addr.symm,store_self]

theorem setTags_of_ne {a : ℕ} (h : a ≠ b.addr) (hf : a ≠ b.footer) : setTags m b a = m a := by
  rw [setTags,store_of_ne hf,store_of_ne h]

theorem Tagged.congr (h : Tagged m b) (ha : m' b.addr = m b.addr) (hf : m' b.footer = m b.footer) :
    Tagged m' b := ⟨ha.trans h.header,hf.trans h.footer⟩

theorem Tagged.setTags_apart (h : Tagged m c) (hbc : b.Apart c) : Tagged (setTags m b) c := by
  have := b.size_min
  have := c.size_min
  refine h.congr (setTags_of_ne ?_ ?_) (setTags_of_ne ?_ ?_) <;>
    simp only [Block.Apart,Block.stop,Block.footer] at * <;> omega

end X1.Mem

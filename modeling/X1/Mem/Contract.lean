import X1.Mem.History

/-! # What every run of the allocator guarantees

The invariant of the heap words, read off the memory with the accessors of mem.c;
the size of what `mem_alloc` returns; and that neither operation touches the
payload of a live block it was not given.
-/
namespace X1.Mem
open X1.Word X1.Lib X1.Ring

/-- Walking from `block` by header sizes meets these blocks and ends at `mem_heap_end`. -/
def Walk (L : Layout) (m : Memory) : ℕ → List Block → Prop
  | block, [] => block = memHeapEnd L
  | block, b :: bs => b.addr = block ∧ memBlockSize m block = b.size ∧
      memBlockAllocated m block = b.allocated ∧ Walk L m (memBlockEnd m block) bs

/-- The heap words hold the blocks `bs` and a free list through `free`. The size constraints are
fields of `Block`. -/
structure HeapInvariant (L : Layout) (m : Memory) (bs free : List Block) : Prop where
  walk : Walk L m L.heap bs
  footer : ∀ b ∈ bs, m (memBlockFooterBtag m b.addr) = m (memBlockHeaderBtag b.addr)
  prev_next : ∀ b ∈ bs, memBlockNext L m b.addr ≠ 0 →
    memBlockPrev L m (memBlockNext L m b.addr) = b.addr
  coalesced : bs.IsChain (fun b c => b.allocated = true ∨ c.allocated = true)
  forward : IsRing (LinkStore.next m) (LinkStore.prev m) L.freeList
    (free.map fun b => memBlockPayload b.addr)
  backward : IsRing (LinkStore.prev m) (LinkStore.next m) L.freeList
    (free.map fun b => memBlockPayload b.addr).reverse
  free_iff : ∀ b, b ∈ free ↔ b ∈ bs ∧ b.allocated = false

theorem Represents.walk {L : Layout} {m : Memory} {bs free : List Block} (h : Represents L m bs free) :
    Walk L m L.heap bs := by
  have key : ∀ (cs : List Block) (a : ℕ), Tiles a cs (L.heap + MEM_HEAP_SIZE) → (∀ b ∈ cs, b ∈ bs) →
      Walk L m a cs := by
    intro cs
    induction cs with
    | nil => intro a ha _; exact ha.trans (Represents.memHeapEnd_eq L).symm
    | cons b cs ih =>
      rintro a ⟨rfl,ht⟩ hsub
      have hb := hsub b (by simp)
      have htag := (h.tagged b hb).header
      refine ⟨rfl,memBlockSize_eq htag (h.stop_lt hb),memBlockAllocated_eq htag,?_⟩
      rw [memBlockEnd_eq htag (h.stop_lt hb)]
      exact ih _ ht fun c hc => hsub c (by simp [hc])
  exact key bs L.heap h.tiles fun _ hb => hb

theorem Represents.prev_next {L : Layout} {m : Memory} {bs free : List Block} {b : Block}
    (h : Represents L m bs free) (hb : b ∈ bs) (hn : memBlockNext L m b.addr ≠ 0) :
    memBlockPrev L m (memBlockNext L m b.addr) = b.addr := by
  obtain ⟨pre,post,rfl⟩ := List.append_of_mem hb
  cases post with
  | nil => exact absurd (memBlockNext_last h) hn
  | cons c post => rw [memBlockNext_of h,memBlockPrev_of h]

theorem Sound.heapInvariant {L : Layout} {s : Heap} {bs free : List Block} (h : Sound L s bs free) :
    HeapInvariant L s.mem bs free := by
  have hnodes : (free.map fun b => memBlockPayload b.addr) = free.map Block.node := by
    refine List.map_congr_left fun b hb => memBlockPayload_eq (h.rep.stop_lt ?_)
    exact ((h.rep.free_iff b).mp hb).1
  refine ⟨h.rep.walk,fun b hb => ?_,fun b hb => h.rep.prev_next hb,h.coalesced,?_,?_,h.rep.free_iff⟩
  · have := h.rep.tagged b hb
    rw [memBlockFooterBtag_eq this.header (h.rep.stop_lt hb),this.footer,memBlockHeaderBtag,this.header]
  · rw [hnodes]
    exact h.rep.list
  · rw [hnodes]
    exact h.rep.list.reverse

/-- After every call of every run the heap invariant holds, and every valid call returns. -/
theorem heap_invariant_reachable (L : Layout) (s : Heap) (h : Reachable L s) :
    (∃ bs free, HeapInvariant L s.mem bs free) ∧
    (∀ size, size < 2 ^ 32 → ∃ ptr m', memAlloc L s.mem size = some (ptr,m')) ∧
    (∀ ptr, ptr = 0 ∨ ptr ∈ s.live → ∃ m', memFree L s.mem ptr = some m') := by
  obtain ⟨bs,free,hs⟩ := h.sound
  refine ⟨⟨bs,free,hs.heapInvariant⟩,fun size _ => ?_,fun ptr hp => ?_⟩
  · obtain ⟨ptr,m',h1,-⟩ := hs.alloc size
    exact ⟨ptr,m',h1⟩
  · rcases hp with rfl | hp
    · exact ⟨s.mem,by simp [memFree]⟩
    · obtain ⟨m',h1,-⟩ := hs.release hp
      exact ⟨m',h1⟩

/-- A kernel image linked at 1 MiB. -/
def sampleLayout : Layout where
  heap := 0x200000
  freeList := 0x100000
  heap_pos := by norm_num
  heap_aligned := by norm_num
  heap_fits := by rw [heapSize_eq]; norm_num
  freeList_aligned := by norm_num
  freeList_fits := by norm_num
  disjoint := by norm_num

/-- The state after `mem_setup`, `mem_alloc(100)` and `mem_alloc(8)`. -/
theorem sample_run : ∃ s, Reachable sampleLayout s ∧ s.live = [0x200070,0x200004] := by
  obtain ⟨m0,h0,r0⟩ := setup_spec sampleLayout ⟨fun _ => 0⟩
  have hfit : memConvertToBlockSize 100 + 16 ≤ (wholeHeap sampleLayout false).size := by
    simp [show memConvertToBlockSize 100 = 108 by decide,wholeHeap,heapSize_eq]
  have r0' : Represents sampleLayout m0 ([] ++ [wholeHeap sampleLayout false])
      [wholeHeap sampleLayout false] := r0
  obtain ⟨m1,h1,r1,-⟩ := r0'.alloc_split 100 (by norm_num)
    (by simp [show memConvertToBlockSize 100 = 108 by decide,wholeHeap,heapSize_eq]) hfit
  rw [List.nil_append,← List.singleton_append] at r1
  obtain ⟨m2,h2,-,-⟩ := r1.alloc_split 8 (by norm_num)
    (List.find?_cons_of_pos (by simp [show memConvertToBlockSize 100 = 108 by decide,
      show memConvertToBlockSize 8 = 16 by decide,wholeHeap,heapSize_eq,Block.high]))
    (by simp [show memConvertToBlockSize 100 = 108 by decide,
      show memConvertToBlockSize 8 = 16 by decide,wholeHeap,heapSize_eq,Block.high])
  have hp1 : (wholeHeap sampleLayout false).node = 0x200004 := rfl
  have hp2 : ((wholeHeap sampleLayout false).high _ hfit (convert_spec 100).2.1).node = 0x200070 := by
    simp [Block.node,Block.high,show memConvertToBlockSize 100 = 108 by decide,wholeHeap,sampleLayout]
  rw [hp1] at h1
  rw [Block.mark_node,hp2] at h2
  exact ⟨_,.alloc (.alloc (.setup h0) (by norm_num) h1) (by norm_num) h2,by simp⟩

theorem heap_invariant_sample : ∃ s, Reachable sampleLayout s ∧ s.live = [0x200070,0x200004] ∧
    ∃ bs free, HeapInvariant sampleLayout s.mem bs free := by
  obtain ⟨s,hs,hl⟩ := sample_run
  exact ⟨s,hs,hl,(heap_invariant_reachable sampleLayout s hs).1⟩

/-! ## The size of an allocation -/

/-- What a caller of `mem_alloc` relies on: a pointer that is not `NULL` is aligned, and the payload
of its block lies in the heap and holds the bytes asked for. -/
def AllocEnough (L : Layout) (m : Memory) (size : ℕ) : Prop :=
  ∀ ptr m', memAlloc L m size = some (ptr,m') → ptr ≠ 0 →
    ptr % 4 = 0 ∧ L.heap ≤ ptr ∧ ptr + payloadSize m' ptr ≤ memHeapEnd L ∧ size ≤ payloadSize m' ptr

/-- Within 11 bytes of `2 ^ 32` the conversion wraps around to the smallest block. -/
theorem convert_wrap {size : ℕ} (h : 0xFFFFFFF4 < size) (hs : size < 2 ^ 32) :
    memConvertToBlockSize size = 16 := by
  simp only [memConvertToBlockSize,blockMinSize_eq,MEM_ALIGN,p2Round_four hs,Word.add]
  split <;> omega

theorem convert_enough_iff {size : ℕ} (hs : size < 2 ^ 32) :
    size + 8 ≤ memConvertToBlockSize size ↔ size ≤ 0xFFFFFFF4 := by
  by_cases h : size ≤ 0xFFFFFFF4
  · rw [convert_eq h]
    omega
  · rw [convert_wrap (by omega) hs]
    omega

theorem Sound.payload_bounds {L : Layout} {s : Heap} {bs free : List Block} (h : Sound L s bs free)
    {p : ℕ} (hp : p ∈ s.live) :
    p % 4 = 0 ∧ L.heap ≤ p ∧ p + payloadSize s.mem p ≤ memHeapEnd L ∧
    payloadSize s.mem p ≤ MEM_HEAP_SIZE := by
  obtain ⟨b,hb,-,rfl,hsz⟩ := h.block_of_live hp
  have := h.rep.tiles.bounds hb
  have := h.rep.tiles.aligned L.heap_aligned hb
  have := b.size_min
  rw [hsz,Represents.memHeapEnd_eq]
  simp only [Block.node,Block.stop] at *
  omega

/-- The guarantee holds of exactly the requests that do not wrap around, and of no other unless the
free list is empty and nothing is returned. -/
theorem alloc_enough_iff (L : Layout) (s : Heap) (size : ℕ) (h : Reachable L s) (hs : 0 < size)
    (hlt : size < 2 ^ 32) :
    (AllocEnough L s.mem size ∧ size + 8 ≤ memConvertToBlockSize size ↔ size ≤ 0xFFFFFFF4) ∧
    (AllocEnough L s.mem size ↔ size ≤ 0xFFFFFFF4 ∨ listEmpty s.mem L.freeList = true) := by
  obtain ⟨bs,free,hsound⟩ := h.sound
  obtain ⟨ptr,m',h1,-,bs',free',hs',hnull,hblock⟩ := hsound.alloc size
  have hempty := listEmpty_iff hsound.rep.list
  -- a returned block has the converted size, which for requests that do not wrap is enough
  have hgood : size ≤ 0xFFFFFFF4 → AllocEnough L s.mem size := by
    rintro hle p m hp hp0
    obtain ⟨rfl,rfl⟩ : ptr = p ∧ m' = m := by simpa [h1] using hp
    have hlive : ptr ∈ (if ptr = 0 then s.live else ptr :: s.live) := by simp [hp0]
    obtain ⟨hal,hlo,hhi,-⟩ := hs'.payload_bounds hlive
    refine ⟨hal,hlo,hhi,?_⟩
    obtain ⟨b,hb,hbn,hbs⟩ := hblock hp0
    obtain ⟨c,hc,-,hcn,hsz⟩ := hs'.block_of_live hlive
    obtain rfl : c = b := hs'.rep.tiles.eq_of_addr hc hb (by simp only [Block.node] at *; omega)
    have := (convert_enough_iff hlt).mpr hle
    rw [hsz]
    omega
  -- past that bound any free block is taken, and no block is that large
  have hbad : ¬size ≤ 0xFFFFFFF4 → (AllocEnough L s.mem size ↔ listEmpty s.mem L.freeList = true) := by
    intro hle
    have hconv := convert_wrap (by omega) hlt
    constructor
    · intro hok
      by_cases hp0 : ptr = 0
      · refine hempty.mpr ?_
        have hsmall := (hnull hp0).resolve_left (by omega)
        cases free with
        | nil => rfl
        | cons b free =>
          have := hsmall b (by simp)
          have := b.size_min
          omega
      · have := (hok ptr m' h1 hp0).2.2.2
        have hpay : payloadSize m' ptr ≤ MEM_HEAP_SIZE :=
          (hs'.payload_bounds (p := ptr) (by simp [hp0])).2.2.2
        rw [heapSize_eq] at hpay
        omega
    · intro he p m hp hp0
      obtain ⟨rfl,rfl⟩ : ptr = p ∧ m' = m := by simpa [h1] using hp
      have hfree : free = [] := by simpa using hempty.mp he
      have hfail := hsound.rep.alloc_fail size (by omega) (by simp [hfree])
      rw [hfail] at h1
      exact absurd (by simpa using h1.symm : ptr = 0 ∧ _).1 hp0
  refine ⟨⟨fun hh => (convert_enough_iff hlt).mp hh.2,
    fun hle => ⟨hgood hle,(convert_enough_iff hlt).mpr hle⟩⟩,?_⟩
  by_cases hle : size ≤ 0xFFFFFFF4
  · simp [hle,hgood hle]
  · simpa [hle] using hbad hle

theorem alloc_enough_sample : ∃ s, Reachable sampleLayout s ∧ AllocEnough sampleLayout s.mem 100 := by
  obtain ⟨s,hs,-⟩ := sample_run
  exact ⟨s,hs,((alloc_enough_iff sampleLayout s 100 hs (by norm_num) (by norm_num)).1.mpr
    (by norm_num)).1⟩

/-- `mem_alloc(0xFFFFFFFD)` right after `mem_setup` returns a block with a payload of 8 bytes. -/
theorem alloc_wrap_undersized : ∃ m0 m1, memSetup sampleLayout ⟨fun _ => 0⟩ = some m0 ∧
    Reachable sampleLayout ⟨m0,[]⟩ ∧ memAlloc sampleLayout m0 0xFFFFFFFD = some (0x200004,m1) ∧
    payloadSize m1 0x200004 = 8 ∧ ¬AllocEnough sampleLayout m0 0xFFFFFFFD ∧
    memConvertToBlockSize 0xFFFFFFFD = 16 := by
  obtain ⟨m0,h0,r0⟩ := setup_spec sampleLayout ⟨fun _ => 0⟩
  have hconv : memConvertToBlockSize 0xFFFFFFFD = 16 := convert_wrap (by norm_num) (by norm_num)
  have r0' : Represents sampleLayout m0 ([] ++ [wholeHeap sampleLayout false])
      [wholeHeap sampleLayout false] := r0
  obtain ⟨m1,h1,r1,-⟩ := r0'.alloc_split 0xFFFFFFFD (by norm_num)
    (by simp [hconv,wholeHeap,heapSize_eq]) (by simp [hconv,wholeHeap,heapSize_eq])
  have hp1 : (wholeHeap sampleLayout false).node = 0x200004 := rfl
  rw [hp1] at h1
  have hsz : payloadSize m1 0x200004 = 8 := by
    have hb := r1.tagged _ (List.mem_append_right _ (List.mem_cons_self ..))
    have hlt := r1.stop_lt (List.mem_append_right _ (List.mem_cons_self ..))
    have := memBlockSize_eq hb.header hlt
    rw [payloadSize,show memBlockFromPayload 0x200004 = (wholeHeap sampleLayout false).addr by decide]
    simp only [Block.low,hconv] at this
    rw [this]
  refine ⟨m0,m1,h0,.setup h0,h1,hsz,fun hok => ?_,hconv⟩
  have := (hok _ _ h1 (by norm_num)).2.2.2
  omega

/-! ## Live payloads -/

theorem Sound.live_apart {L : Layout} {s : Heap} {bs free : List Block} (h : Sound L s bs free)
    {b d : Block} (hb : b ∈ bs) (hd : d ∈ bs) (hne : d ≠ b) {a : ℕ} (hlo : b.node ≤ a)
    (hhi : a < b.node + (b.size - 8)) : ¬(d.addr ≤ a ∧ a < d.stop) := by
  have := h.rep.tiles.apart hb hd (Ne.symm hne)
  have := b.size_min
  simp only [Block.Apart,Block.node,Block.stop] at *
  omega

/-- Memory outside the list head, the free blocks and the block being freed is kept, and a live
payload is outside all of them. -/
theorem Sound.payload_kept {L : Layout} {s : Heap} {bs free ds : List Block} {m' : Memory} {q a : ℕ}
    (h : Sound L s bs free) (hk : Keeps (Owned L ds) s.mem m') (hq : q ∈ s.live)
    (hds : ∀ d ∈ ds, d ∈ bs ∧ d.node ≠ q) (hlo : q ≤ a) (hhi : a < q + payloadSize s.mem q) :
    m' a = s.mem a := by
  obtain ⟨b,hb,-,rfl,hsz⟩ := h.block_of_live hq
  rw [hsz] at hhi
  refine hk a ?_
  rintro (rfl | rfl | ⟨d,hd,hin⟩)
  · have := h.rep.tiles.bounds hb
    have := L.disjoint
    have := b.size_min
    simp only [Block.node,Block.stop] at *
    omega
  · have := h.rep.tiles.bounds hb
    have := L.disjoint
    have := b.size_min
    simp only [Block.node,Block.stop] at *
    omega
  · obtain ⟨hdb,hdn⟩ := hds d hd
    exact h.live_apart hb hdb (fun he => hdn (by rw [he])) hlo hhi hin

/-- Neither operation changes a word of a live payload it was not given, and live payloads are disjoint. -/
theorem live_payloads_untouched (L : Layout) (s : Heap) (h : Reachable L s) :
    (∀ size, size < 2 ^ 32 → ∃ ptr m', memAlloc L s.mem size = some (ptr,m') ∧
      ∀ q ∈ s.live, ∀ a, q ≤ a → a < q + payloadSize s.mem q → m' a = s.mem a) ∧
    (∀ ptr, ptr = 0 ∨ ptr ∈ s.live → ∃ m', memFree L s.mem ptr = some m' ∧
      ∀ q ∈ s.live, q ≠ ptr → ∀ a, q ≤ a → a < q + payloadSize s.mem q → m' a = s.mem a) ∧
    (∀ p ∈ s.live, ∀ q ∈ s.live, p ≠ q →
      p + payloadSize s.mem p ≤ q ∨ q + payloadSize s.mem q ≤ p) := by
  obtain ⟨bs,free,hs⟩ := h.sound
  have hfree : ∀ q ∈ s.live, ∀ d ∈ free, d ∈ bs ∧ d.node ≠ q := by
    intro q hq d hd
    obtain ⟨hdb,hda⟩ := (hs.rep.free_iff d).mp hd
    refine ⟨hdb,fun he => ?_⟩
    obtain ⟨b,hb,hba,hbn,-⟩ := hs.block_of_live hq
    obtain rfl : d = b := hs.rep.tiles.eq_of_addr hdb hb (by simp only [Block.node] at *; omega)
    simp [hba] at hda
  refine ⟨fun size _ => ?_,fun ptr hp => ?_,fun p hp q hq hne => ?_⟩
  · obtain ⟨ptr,m',h1,hk,-⟩ := hs.alloc size
    exact ⟨ptr,m',h1,fun q hq a hlo hhi => hs.payload_kept hk hq (hfree q hq) hlo hhi⟩
  · rcases hp with rfl | hp
    · exact ⟨s.mem,by simp [memFree],fun _ _ _ _ _ _ => rfl⟩
    · obtain ⟨m',h1,⟨b,hb,rfl,hk⟩,-⟩ := hs.release hp
      refine ⟨m',h1,fun q hq hne a hlo hhi => hs.payload_kept hk hq (fun d hd => ?_) hlo hhi⟩
      rcases List.mem_cons.mp hd with rfl | hd
      · exact ⟨hb,Ne.symm hne⟩
      · exact hfree q hq d hd
  · obtain ⟨b,hb,-,rfl,hbs⟩ := hs.block_of_live hp
    obtain ⟨c,hc,-,rfl,hcs⟩ := hs.block_of_live hq
    have := hs.rep.tiles.apart hb hc (fun he => hne (by rw [he]))
    have := b.size_min
    have := c.size_min
    rw [hbs,hcs]
    simp only [Block.Apart,Block.node,Block.stop] at *
    omega

theorem live_payloads_sample : ∃ s m', Reachable sampleLayout s ∧ s.live = [0x200070,0x200004] ∧
    memFree sampleLayout s.mem 0x200004 = some m' ∧
    ∀ a, 0x200070 ≤ a → a < 0x200070 + payloadSize s.mem 0x200070 → m' a = s.mem a := by
  obtain ⟨s,hs,hl⟩ := sample_run
  obtain ⟨m',h1,h2⟩ := (live_payloads_untouched sampleLayout s hs).2.1 0x200004 (.inr (by simp [hl]))
  exact ⟨s,m',hs,hl,h1,h2 0x200070 (by simp [hl]) (by norm_num)⟩

end X1.Mem

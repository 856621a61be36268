import X1.Mem.Operations

/-! # Runs of the allocator

A run starts from `mem_setup` and goes on with calls of `mem_alloc` with any 32-bit
size, calls of `mem_free` with `NULL` or a live pointer, and stores of the clients
into the payloads of their live blocks. Between two calls the memory represents a
coalesced tiling whose allocated blocks are the live ones.
-/
namespace X1.Mem
open X1.Word X1.Lib X1.Ring

/-- The memory, and the pointers returned by `mem_alloc` and not yet given to `mem_free`. -/
structure Heap where
  mem : Memory
  live : List ℕ

/-- The number of payload bytes of the block a live pointer names: its size without the two tags. -/
def payloadSize (m : Memory) (ptr : ℕ) : ℕ := memBlockSize m (memBlockFromPayload ptr) - 8

inductive Reachable (L : Layout) : Heap → Prop where
  | setup {m m' : Memory} : memSetup L m = some m' → Reachable L ⟨m',[]⟩
  | alloc {s : Heap} {size ptr : ℕ} {m' : Memory} : Reachable L s → size < 2 ^ 32 →
      memAlloc L s.mem size = some (ptr,m') →
      Reachable L ⟨m',if ptr = 0 then s.live else ptr :: s.live⟩
  | free {s : Heap} {ptr : ℕ} {m' : Memory} : Reachable L s → ptr = 0 ∨ ptr ∈ s.live →
      memFree L s.mem ptr = some m' → Reachable L ⟨m',s.live.erase ptr⟩
  | write {s : Heap} {ptr addr word : ℕ} : Reachable L s → ptr ∈ s.live → ptr ≤ addr →
      addr + 4 ≤ ptr + payloadSize s.mem ptr → addr % 4 = 0 → word < 2 ^ 32 →
      Reachable L ⟨store s.mem addr word,s.live⟩

/-- No two neighbours are both free. -/
def Coalesced (bs : List Block) : Prop := bs.IsChain (fun b c => b.allocated = true ∨ c.allocated = true)

/-- What holds between two calls. -/
structure Sound (L : Layout) (s : Heap) (bs free : List Block) : Prop where
  rep : Represents L s.mem bs free
  coalesced : Coalesced bs
  live_iff : ∀ p, p ∈ s.live ↔ ∃ b ∈ bs, b.allocated = true ∧ b.node = p
  live_nodup : s.live.Nodup

theorem coalesced_middle {pre post : List Block} {b : Block} :
    Coalesced (pre ++ b :: post) ↔ Coalesced pre ∧ Coalesced post ∧
      (∀ p ∈ pre.getLast?, p.allocated = true ∨ b.allocated = true) ∧
      (∀ n ∈ post.head?, b.allocated = true ∨ n.allocated = true) := by
  simp only [Coalesced,List.isChain_append,List.isChain_cons,List.head?_cons,Option.mem_some_iff,
    forall_eq']
  tauto

/-- A block that is allocated may stand anywhere. -/
theorem coalesced_allocated {pre post : List Block} {b c : Block} (h : Coalesced (pre ++ b :: post))
    (hc : c.allocated = true) : Coalesced (pre ++ c :: post) := by
  rw [coalesced_middle] at h ⊢
  exact ⟨h.1,h.2.1,fun _ _ => .inr hc,fun _ _ => .inl hc⟩

theorem coalesced_split {pre post : List Block} {b lo hi : Block} (h : Coalesced (pre ++ b :: post))
    (hb : b.allocated = false) (hlo : lo.allocated = true) : Coalesced (pre ++ lo :: hi :: post) := by
  rw [coalesced_middle] at h ⊢
  refine ⟨h.1,List.IsChain.cons h.2.1 fun n hn => ?_,fun _ _ => .inr hlo,fun _ _ => .inl hlo⟩
  have := h.2.2.2 n hn
  simp_all

/-- Freeing a block leaves no free neighbours behind. -/
theorem coalesced_release {pre post free : List Block} {b : Block} (h : Coalesced (pre ++ b :: post)) :
    Coalesced (release pre b post free).1 := by
  obtain ⟨hpre,hpost,-,-⟩ := coalesced_middle.mp h
  have hprev : ∀ c fs, Coalesced (mergePrev pre c fs).1 ∧
      ∀ p ∈ (mergePrev pre c fs).1.getLast?, p.allocated = true := by
    intro c fs
    rcases List.eq_nil_or_concat' pre with rfl | ⟨pre,p,rfl⟩
    · simp [mergePrev,Coalesced]
    · cases hp : p.allocated with
      | true => simpa [mergePrev,hp] using hpre
      | false =>
        have := coalesced_middle.mp hpre
        refine ⟨by simpa [mergePrev,hp] using this.1,?_⟩
        simpa [mergePrev,hp] using this.2.2.1
  have hnext : ∀ c fs, Coalesced (mergeNext c post fs).2.1 ∧
      ∀ n ∈ (mergeNext c post fs).2.1.head?, n.allocated = true := by
    intro c fs
    cases post with
    | nil => simp [mergeNext,Coalesced]
    | cons n rest =>
      cases hn : n.allocated with
      | true => simpa [mergeNext,hn] using hpost
      | false =>
        have := List.isChain_cons.mp hpost
        exact ⟨by simpa [mergeNext,hn,Coalesced] using this.2,by simpa [mergeNext,hn] using this.1⟩
  rw [release,coalesced_middle]
  exact ⟨(hprev _ _).1,(hnext _ _).1,fun p hp => .inl ((hprev _ _).2 p hp),
    fun n hn => .inr ((hnext _ _).2 n hn)⟩

/-- Freeing a block takes it, and nothing else, from the allocated blocks. -/
theorem allocated_release {pre post free : List Block} {b c : Block} (hnd : (pre ++ b :: post).Nodup)
    (hc : c.allocated = true) :
    c ∈ (release pre b post free).1 ↔ c ∈ pre ++ b :: post ∧ c ≠ b := by
  have hprev : ∀ d fs, d.allocated = false → (c ∈ (mergePrev pre d fs).1 ↔ c ∈ pre) ∧
      (mergePrev pre d fs).2.1.allocated = false := by
    intro d fs hd
    rcases List.eq_nil_or_concat' pre with rfl | ⟨pre,p,rfl⟩
    · simp [mergePrev,hd]
    · cases hp : p.allocated with
      | true => simp [mergePrev,hp,hd]
      | false =>
        have : c ≠ p := fun he => by simp [← he,hc] at hp
        simp [mergePrev,hp,this]
  have hnext : ∀ d fs, d.allocated = false → (c ∈ (mergeNext d post fs).2.1 ↔ c ∈ post) ∧
      (mergeNext d post fs).1.allocated = false := by
    intro d fs hd
    cases post with
    | nil => simp [mergeNext,hd]
    | cons n rest =>
      cases hn : n.allocated with
      | true => simp [mergeNext,hn,hd]
      | false =>
        have : c ≠ n := fun he => by simp [← he,hc] at hn
        simp [mergeNext,hn,this]
  have h1 := hprev (b.mark false) free rfl
  have h2 := hnext _ (mergePrev pre (b.mark false) free).2.2 h1.2
  have hne : ∀ d : Block, d.allocated = false → c ≠ d := fun d hd he => by simp [← he,hc] at hd
  rw [List.nodup_middle,List.nodup_cons] at hnd
  simp only [release,List.mem_append,List.mem_cons,h1.1,h2.1,hne _ h2.2,false_or] at hnd ⊢
  constructor
  · intro h
    exact ⟨by tauto,fun he => hnd.1 (he ▸ h)⟩
  · tauto

/-- The whole heap as one block. -/
def wholeHeap (L : Layout) (allocated : Bool) : Block :=
  ⟨L.heap,MEM_HEAP_SIZE,allocated,by rw [heapSize_eq]; norm_num,by rw [heapSize_eq]⟩

theorem setup_spec (L : Layout) (m : Memory) :
    ∃ m', memSetup L m = some m' ∧ Represents L m' [wholeHeap L false] [wholeHeap L false] := by
  have hlt : (wholeHeap L true).stop < 2 ^ 32 := L.heap_fits
  have ht : Tiles L.heap [wholeHeap L true] (L.heap + MEM_HEAP_SIZE) := ⟨rfl,rfl⟩
  have hinit : memBlockInit m L.heap MEM_HEAP_SIZE = setTags m (wholeHeap L true) :=
    memBlockInit_eq (b := wholeHeap L true) hlt rfl
  have hrep : Represents L (memFreeListInit L (setTags m (wholeHeap L true))) [wholeHeap L true] [] := by
    refine ⟨ht,?_,isList_listInit (independent_nodes ht) (.inl rfl),by simp [wholeHeap]⟩
    intro b hb
    obtain rfl : b = wholeHeap L true := by simpa using hb
    have hne := tag_ne_node (p := L.freeList) ht hb (.inl rfl)
    have hadd := add_node (p := L.freeList) ht (.inl rfl)
    refine (tagged_setTags m _).congr ?_ ?_
    · change store (store _ _ _) (Word.add _ 4) _ _ = _
      rw [hadd,store_of_ne hne.2.1,store_of_ne hne.1]
    · change store (store _ _ _) (Word.add _ 4) _ _ = _
      rw [hadd,store_of_ne hne.2.2.2,store_of_ne hne.2.2.1]
  have hrep' : Represents L (memFreeListInit L (setTags m (wholeHeap L true)))
      ([] ++ [wholeHeap L true]) [] := hrep
  obtain ⟨m',h1,hr,-⟩ := hrep'.add rfl
  refine ⟨m',?_,hr⟩
  rw [memSetup,hinit]
  exact h1

namespace Sound
variable {L : Layout} {s : Heap} {bs free pre post : List Block} {b : Block}

theorem init {m m' : Memory} (h : memSetup L m = some m') :
    Sound L ⟨m',[]⟩ [wholeHeap L false] [wholeHeap L false] := by
  obtain ⟨m'',h',hr⟩ := setup_spec L m
  obtain rfl : m' = m'' := by simpa [h] using h'
  exact ⟨hr,List.isChain_singleton _,by simp [wholeHeap],List.nodup_nil⟩

theorem block_of_live (h : Sound L s bs free) {p : ℕ} (hp : p ∈ s.live) :
    ∃ b ∈ bs, b.allocated = true ∧ b.node = p ∧ payloadSize s.mem p = b.size - 8 := by
  obtain ⟨b,hb,ha,rfl⟩ := (h.live_iff p).mp hp
  refine ⟨b,hb,ha,rfl,?_⟩
  rw [payloadSize,memBlockFromPayload_eq (h.rep.stop_lt hb),
    memBlockSize_eq (h.rep.tagged b hb).header (h.rep.stop_lt hb)]

theorem node_fresh (h : Sound L s bs free) {b : Block} (hb : b ∈ bs) (ha : b.allocated = false) :
    b.node ∉ s.live := by
  intro hl
  obtain ⟨c,hc,hca,hcn⟩ := (h.live_iff _).mp hl
  have : c = b := h.rep.tiles.eq_of_addr hc hb (by simp only [Block.node] at hcn; omega)
  simp [this,ha] at hca

/-- A request served by cutting the first free block that is large enough. -/
theorem alloc_split (h : Sound L s (pre ++ b :: post) free) (size : ℕ) (hs : size ≠ 0)
    (hf : free.find? (fun b => memConvertToBlockSize size ≤ b.size) = some b)
    (hfit : memConvertToBlockSize size + 16 ≤ b.size) :
    ∃ m', memAlloc L s.mem size = some (b.node,m') ∧ Keeps (Owned L free) s.mem m' ∧
      Sound L ⟨m',b.node :: s.live⟩
        (pre ++ b.low _ (convert_spec size).1 (convert_spec size).2.1 ::
          (b.high _ hfit (convert_spec size).2.1).mark false :: post)
        ((b.high _ hfit (convert_spec size).2.1).mark false :: free.erase b) := by
  obtain ⟨hbm,hba⟩ := (h.rep.free_iff b).mp (List.mem_of_find?_eq_some hf)
  obtain ⟨m',h1,hr,hk⟩ := h.rep.alloc_split size hs hf hfit
  refine ⟨m',h1,hk,hr,coalesced_split h.coalesced hba rfl,fun p => ?_,
    List.nodup_cons.mpr ⟨h.node_fresh hbm hba,h.live_nodup⟩⟩
  have := h.live_iff p
  simp only [List.mem_cons,List.mem_append,this]
  constructor
  · rintro (rfl | ⟨c,hc,hca,rfl⟩)
    · exact ⟨b.low _ (convert_spec size).1 (convert_spec size).2.1,.inr (.inl rfl),rfl,rfl⟩
    · have hcb : c ≠ b := fun he => by simp [he,hba] at hca
      exact ⟨c,by tauto,hca,rfl⟩
  · rintro ⟨c,hc | rfl | rfl | hc,hca,rfl⟩
    · exact .inr ⟨c,by simp [hc],hca,rfl⟩
    · exact .inl rfl
    · simp at hca
    · exact .inr ⟨c,by simp [hc],hca,rfl⟩

/-- A request served by the whole of the first free block that is large enough. -/
theorem alloc_whole (h : Sound L s (pre ++ b :: post) free) (size : ℕ) (hs : size ≠ 0)
    (hf : free.find? (fun b => memConvertToBlockSize size ≤ b.size) = some b)
    (hfit : ¬memConvertToBlockSize size + 16 ≤ b.size) :
    ∃ m', memAlloc L s.mem size = some (b.node,m') ∧ Keeps (Owned L free) s.mem m' ∧
      Sound L ⟨m',b.node :: s.live⟩ (pre ++ b.mark true :: post) (free.erase b) := by
  obtain ⟨hbm,hba⟩ := (h.rep.free_iff b).mp (List.mem_of_find?_eq_some hf)
  obtain ⟨m',h1,hr,hk⟩ := h.rep.alloc_whole size hs hf hfit
  refine ⟨m',h1,hk,hr,coalesced_allocated h.coalesced rfl,fun p => ?_,
    List.nodup_cons.mpr ⟨h.node_fresh hbm hba,h.live_nodup⟩⟩
  have := h.live_iff p
  simp only [List.mem_cons,List.mem_append,this]
  constructor
  · rintro (rfl | ⟨c,hc,hca,rfl⟩)
    · exact ⟨b.mark true,.inr (.inl rfl),rfl,rfl⟩
    · have hcb : c ≠ b := fun he => by simp [he,hba] at hca
      exact ⟨c,by tauto,hca,rfl⟩
  · rintro ⟨c,hc | rfl | hc,hca,rfl⟩
    · exact .inr ⟨c,by simp [hc],hca,rfl⟩
    · exact .inl rfl
    · exact .inr ⟨c,by simp [hc],hca,rfl⟩

/-- `mem_alloc` never fails an assertion, keeps the invariant, and returns `NULL` or the payload of a
block of the converted size or more. -/
theorem alloc (h : Sound L s bs free) (size : ℕ) :
    ∃ ptr m', memAlloc L s.mem size = some (ptr,m') ∧ Keeps (Owned L free) s.mem m' ∧
      ∃ bs' free', Sound L ⟨m',if ptr = 0 then s.live else ptr :: s.live⟩ bs' free' ∧
        (ptr = 0 → size = 0 ∨ ∀ b ∈ free, b.size < memConvertToBlockSize size) ∧
        (ptr ≠ 0 → ∃ b ∈ bs', b.node = ptr ∧ memConvertToBlockSize size ≤ b.size) := by
  by_cases hs : size = 0
  · exact ⟨0,s.mem,by simp [memAlloc,hs],fun _ _ => rfl,bs,free,by simpa using h,by simp [hs],by simp⟩
  cases hf : free.find? (fun b => memConvertToBlockSize size ≤ b.size) with
  | none =>
    exact ⟨0,s.mem,h.rep.alloc_fail size hs hf,fun _ _ => rfl,bs,free,by simpa using h,
      fun _ => .inr (by simpa using hf),by simp⟩
  | some b =>
    have hle : memConvertToBlockSize size ≤ b.size := by simpa using List.find?_some hf
    have hbm := ((h.rep.free_iff b).mp (List.mem_of_find?_eq_some hf)).1
    obtain ⟨pre,post,rfl⟩ := List.append_of_mem hbm
    by_cases hfit : memConvertToBlockSize size + 16 ≤ b.size
    · obtain ⟨m',h1,hk,hsound⟩ := h.alloc_split size hs hf hfit
      refine ⟨b.node,m',h1,hk,_,_,by simpa [b.node_ne_zero] using hsound,
        fun h0 => absurd h0 b.node_ne_zero,fun _ => ?_⟩
      exact ⟨b.low _ (convert_spec size).1 (convert_spec size).2.1,by simp,rfl,le_rfl⟩
    · obtain ⟨m',h1,hk,hsound⟩ := h.alloc_whole size hs hf hfit
      exact ⟨b.node,m',h1,hk,_,_,by simpa [b.node_ne_zero] using hsound,
        fun h0 => absurd h0 b.node_ne_zero,fun _ => ⟨b.mark true,by simp,rfl,hle⟩⟩

theorem free_block (h : Sound L s (pre ++ b :: post) free) (ha : b.allocated = true) :
    ∃ m', memFree L s.mem b.node = some m' ∧ Keeps (Owned L (b :: free)) s.mem m' ∧
    Sound L ⟨m',s.live.erase b.node⟩ (Mem.release pre b post free).1
    (Mem.release pre b post free).2 := by
  obtain ⟨m',h1,hr,hk⟩ := h.rep.free_spec ha
  refine ⟨m',h1,hk,hr,coalesced_release h.coalesced,fun p => ?_,h.live_nodup.erase _⟩
  rw [h.live_nodup.mem_erase_iff,h.live_iff p]
  constructor
  · rintro ⟨hne,c,hc,hca,rfl⟩
    exact ⟨c,(allocated_release h.rep.tiles.nodup hca).mpr ⟨hc,fun he => hne (by rw [he])⟩,hca,rfl⟩
  · rintro ⟨c,hc,hca,rfl⟩
    obtain ⟨hc,hne⟩ := (allocated_release h.rep.tiles.nodup hca).mp hc
    refine ⟨fun he => hne (h.rep.tiles.eq_of_addr hc (by simp) ?_),c,hc,hca,rfl⟩
    simp only [Block.node] at he
    omega

/-- `mem_free` of a live pointer never fails an assertion and keeps the invariant. -/
theorem release (h : Sound L s bs free) {p : ℕ} (hp : p ∈ s.live) :
    ∃ m', memFree L s.mem p = some m' ∧ (∃ b ∈ bs, b.node = p ∧ Keeps (Owned L (b :: free)) s.mem m') ∧
      ∃ bs' free', Sound L ⟨m',s.live.erase p⟩ bs' free' := by
  obtain ⟨b,hb,ha,rfl⟩ := (h.live_iff p).mp hp
  obtain ⟨pre,post,rfl⟩ := List.append_of_mem hb
  obtain ⟨m',h1,hk,hsound⟩ := h.free_block ha
  exact ⟨m',h1,⟨b,hb,rfl,hk⟩,_,_,hsound⟩

theorem zero_not_live (h : Sound L s bs free) : (0 : ℕ) ∉ s.live := by
  intro h0
  obtain ⟨b,-,-,hb⟩ := (h.live_iff 0).mp h0
  exact b.node_ne_zero hb

theorem write (h : Sound L s bs free) {p addr word : ℕ} (hp : p ∈ s.live) (hlo : p ≤ addr)
    (hhi : addr + 4 ≤ p + payloadSize s.mem p) : Sound L ⟨store s.mem addr word,s.live⟩ bs free := by
  obtain ⟨b,hb,ha,rfl,hsz⟩ := h.block_of_live hp
  have hmin := b.size_min
  have hout : ∀ c ∈ bs, addr ≠ c.addr ∧ addr ≠ c.footer ∧
      (c.allocated = false → addr ≠ c.node ∧ addr ≠ c.node + 4) := by
    intro c hc
    by_cases hcb : c = b
    · subst hcb
      refine ⟨?_,?_,fun hf => absurd ha (by simp [hf])⟩
        <;> simp only [Block.node,Block.footer] at * <;> omega
    · have := h.rep.tiles.apart hb hc (Ne.symm hcb)
      have := c.size_min
      simp only [Block.Apart,Block.node,Block.footer,Block.stop] at *
      omega
  have hfl : addr ≠ L.freeList ∧ addr ≠ L.freeList + 4 := by
    have := h.rep.tiles.bounds hb
    have := L.disjoint
    simp only [Block.node,Block.stop] at *
    omega
  have hn : ∀ q ∈ L.freeList :: free.map Block.node, addr ≠ q ∧ addr ≠ q + 4 := by
    intro q hq
    rcases List.mem_cons.mp hq with rfl | hq
    · exact hfl
    · obtain ⟨c,hc,rfl⟩ := List.mem_map.mp hq
      obtain ⟨hcm,hca⟩ := (h.rep.free_iff c).mp hc
      exact (hout c hcm).2.2 hca
  refine ⟨⟨h.rep.tiles,fun c hc => ?_,?_,h.rep.free_iff⟩,h.coalesced,h.live_iff,h.live_nodup⟩
  · have := hout c hc
    exact (h.rep.tagged c hc).congr (store_of_ne this.1.symm) (store_of_ne this.2.1.symm)
  · refine IsRing.congr h.rep.list (fun q hq => ?_) (fun q hq => ?_)
    · change store s.mem addr word (Word.add q 4) = s.mem (Word.add q 4)
      rw [add_node h.rep.tiles (h.rep.isNode q hq)]
      exact store_of_ne (hn q hq).2.symm
    · exact store_of_ne (hn q hq).1.symm

end Sound

theorem Reachable.sound {L : Layout} {s : Heap} (h : Reachable L s) : ∃ bs free, Sound L s bs free := by
  induction h with
  | setup h => exact ⟨_,_,Sound.init h⟩
  | @alloc s size ptr m' _ _ h ih =>
    obtain ⟨bs,free,ih⟩ := ih
    obtain ⟨ptr',m'',h',-,bs',free',hs,-⟩ := ih.alloc size
    rw [h] at h'
    cases h'
    exact ⟨bs',free',hs⟩
  | @free s ptr m' _ hp h ih =>
    obtain ⟨bs,free,ih⟩ := ih
    rcases hp with rfl | hp
    · simp only [memFree,↓reduceIte,Option.some.injEq] at h
      subst h
      exact ⟨bs,free,by simpa [List.erase_of_not_mem ih.zero_not_live] using ih⟩
    · obtain ⟨m'',h',-,bs',free',hs⟩ := ih.release hp
      rw [h] at h'
      cases h'
      exact ⟨bs',free',hs⟩
  | write _ hp hlo hhi _ _ ih =>
    obtain ⟨bs,free,ih⟩ := ih
    exact ⟨bs,free,ih.write hp hlo hhi⟩

end X1.Mem

import X1.Mem.Contract

/-! # The reference first-fit allocator, and that mem.c refines it

The reference keeps an ordered list of free extents and knows nothing of tags,
nodes or memory. It is run in step with the allocator on the same calls; the
simulation shows that both give the same answers and that the free list in memory
is the reference's list, order included.
-/
namespace X1.Mem
open X1.Word X1.Lib X1.Ring

structure Extent where
  addr : ℕ
  size : ℕ
  deriving DecidableEq

/-- The free extents in search order, and the extents handed out. -/
structure Reference where
  free : List Extent
  live : List Extent

namespace Reference

def init (addr size : ℕ) : Reference := ⟨[⟨addr,size⟩],[]⟩

/-- Serve from the low end of the first extent that is large enough. -/
def request (r : Reference) (need : ℕ) : Option (Extent × Reference) :=
  match r.free.find? (fun e => need ≤ e.size) with
  | none => none
  | some e =>
    let rest := r.free.erase e
    if need + 16 ≤ e.size then
      some (⟨e.addr,need⟩,⟨⟨e.addr + need,e.size - need⟩ :: rest,⟨e.addr,need⟩ :: r.live⟩)
    else some (e,⟨rest,e :: r.live⟩)

def absorbBelow (fs : List Extent) (x : Extent) : List Extent × Extent :=
  match fs.find? (fun e => e.addr + e.size = x.addr) with
  | none => (fs,x)
  | some e => (fs.erase e,⟨e.addr,e.size + x.size⟩)

def absorbAbove (fs : List Extent) (x : Extent) : List Extent × Extent :=
  match fs.find? (fun e => e.addr = x.addr + x.size) with
  | none => (fs,x)
  | some e => (fs.erase e,⟨x.addr,x.size + e.size⟩)

/-- Coalesce the extent handed out at `addr` with its free neighbours and push the result. -/
def release (r : Reference) (addr : ℕ) : Reference :=
  match r.live.find? (fun e => e.addr = addr) with
  | none => r
  | some x =>
    let below := absorbBelow r.free x
    let above := absorbAbove below.1 below.2
    ⟨above.2 :: above.1,r.live.erase x⟩

end Reference

/-- The block size of a request: rounded up to 4, with 8 bytes of tags, at least 16. -/
def need (size : ℕ) : ℕ := max 16 ((size + 3) / 4 * 4 + 8)

/-- The free list read from its head, as extents. -/
def readFreeList (L : Layout) (m : Memory) : ℕ → ℕ → List Extent
  | 0, _ => []
  | fuel + 1, node =>
    if listEnd L.freeList node then []
    else ⟨memBlockFromPayload node,memBlockSize m (memBlockFromPayload node)⟩ ::
      readFreeList L m fuel (LinkStore.next m node)

def freeExtents (L : Layout) (m : Memory) : List Extent :=
  readFreeList L m (MEM_HEAP_SIZE / MEM_BLOCK_MIN_SIZE + 1) (listFirst m L.freeList)

/-- The allocator and the reference after the same calls. -/
inductive InStep (L : Layout) : Heap → Reference → Prop where
  | setup {m m' : Memory} : memSetup L m = some m' →
      InStep L ⟨m',[]⟩ (Reference.init L.heap MEM_HEAP_SIZE)
  | alloc {s : Heap} {r : Reference} {size ptr : ℕ} {m' : Memory} : InStep L s r → 1 ≤ size →
      size ≤ 0xFFFFFFF4 → memAlloc L s.mem size = some (ptr,m') →
      InStep L ⟨m',if ptr = 0 then s.live else ptr :: s.live⟩
        (((r.request (need size)).map Prod.snd).getD r)
  | free {s : Heap} {r : Reference} {ptr : ℕ} {m' : Memory} : InStep L s r → ptr = 0 ∨ ptr ∈ s.live →
      memFree L s.mem ptr = some m' →
      InStep L ⟨m',s.live.erase ptr⟩ (if ptr = 0 then r else r.release (memBlockFromPayload ptr))
  | write {s : Heap} {r : Reference} {ptr addr word : ℕ} : InStep L s r → ptr ∈ s.live → ptr ≤ addr →
      addr + 4 ≤ ptr + payloadSize s.mem ptr → addr % 4 = 0 → word < 2 ^ 32 →
      InStep L ⟨store s.mem addr word,s.live⟩ r

def Block.extent (b : Block) : Extent := ⟨b.addr,b.size⟩

theorem extent_inj {b c : Block} (h : b.extent = c.extent) (ha : b.allocated = c.allocated) : b = c := by
  simp only [Block.extent,Extent.mk.injEq] at h
  exact Block.ext h.1 h.2 ha

theorem map_erase_extent {fs : List Block} (hfs : ∀ c ∈ fs, c.allocated = false) {b : Block}
    (hb : b.allocated = false) :
    (fs.erase b).map Block.extent = (fs.map Block.extent).erase b.extent := by
  induction fs with
  | nil => rfl
  | cons c fs ih =>
    have hc := hfs c (by simp)
    by_cases hcb : c = b
    · subst hcb
      simp
    · have hne : ¬c.extent = b.extent := fun he => hcb (extent_inj he (hc.trans hb.symm))
      rw [List.erase_cons_tail (by simpa using hcb),List.map_cons,List.map_cons,
        List.erase_cons_tail (by simpa using hne),ih fun d hd => hfs d (by simp [hd])]

section
variable {p : Extent → Prop} [DecidablePred p]

theorem find?_erase_of_not {l : List Extent} {a : Extent} (ha : ¬p a) :
    (l.erase a).find? (fun e => decide (p e)) = l.find? (fun e => decide (p e)) := by
  induction l with
  | nil => rfl
  | cons c l ih =>
    by_cases hca : c = a
    · subst hca
      simp [ha]
    · rw [List.erase_cons_tail (by simpa using hca),List.find?_cons,List.find?_cons,ih]

/-- A predicate that only `b` can satisfy finds `b` if it is there. -/
theorem find?_extent {fs : List Block} {b : Block} (hb : b ∈ fs) (hp : p b.extent)
    (huniq : ∀ c ∈ fs, p c.extent → c = b) :
    (fs.map Block.extent).find? (fun e => decide (p e)) = some b.extent := by
  induction fs with
  | nil => simp at hb
  | cons c fs ih =>
    by_cases hc : p c.extent
    · obtain rfl := huniq c (by simp) hc
      simp [hc]
    · have hbc : b ≠ c := fun he => hc (he ▸ hp)
      rw [List.map_cons,List.find?_cons_of_neg (by simpa using hc)]
      exact ih (by simpa [hbc] using hb) fun d hd => huniq d (by simp [hd])

theorem find?_extent_none {fs : List Block} (h : ∀ c ∈ fs, ¬p c.extent) :
    (fs.map Block.extent).find? (fun e => decide (p e)) = none := by
  simpa using h

end

namespace Represents
variable {L : Layout} {m : Memory} {bs free pre post : List Block} {b : Block}

theorem readFreeList_from (h : Represents L m bs free) (fuel : ℕ) {l r : List Block} (hs : free = l ++ r)
    (hf : r.length < fuel) :
    readFreeList L m fuel ((r.map Block.node).headD L.freeList) = r.map Block.extent := by
  induction r generalizing l fuel with
  | nil =>
    obtain ⟨fuel,rfl⟩ : ∃ k, fuel = k + 1 := ⟨fuel - 1,by omega⟩
    simp [readFreeList,listEnd]
  | cons b r ih =>
    obtain ⟨fuel,rfl⟩ : ∃ k, fuel = k + 1 := ⟨fuel - 1,by simp at hf; omega⟩
    obtain ⟨hbm,hend,hnext⟩ := h.free_visit hs
    have hlt := h.stop_lt hbm
    simp only [List.map_cons,List.headD_cons,readFreeList,listEnd,hend,decide_false,Bool.false_eq_true,
      ↓reduceIte,memBlockFromPayload_eq hlt,memBlockSize_eq (h.tagged b hbm).header hlt,Block.extent]
    rw [hnext]
    congr 1
    exact ih fuel (l := l ++ [b]) (by simp [hs]) (by simp at hf; omega)

theorem freeExtents_eq (h : Represents L m bs free) : freeExtents L m = free.map Block.extent := by
  rw [freeExtents,listFirst,h.list.next_head]
  exact h.readFreeList_from _ (l := []) rfl h.free_length_lt

/-- The block below, when it is free, is the one extent that ends where the block starts. -/
theorem absorbBelow_eq (h : Represents L m (pre ++ b :: post) free) :
    Reference.absorbBelow (free.map Block.extent) b.extent =
    ((mergePrev pre (b.mark false) free).2.2.map Block.extent,
      (mergePrev pre (b.mark false) free).2.1.extent) := by
  have hmem : ∀ c ∈ free, c ∈ pre ++ b :: post ∧ c.allocated = false := fun c hc => (h.free_iff c).mp hc
  rcases List.eq_nil_or_concat' pre with rfl | ⟨pre,p,rfl⟩
  · have hnone : ∀ c ∈ free, ¬c.extent.addr + c.extent.size = b.extent.addr := by
      intro c hc
      have := h.tiles.bounds (hmem c hc).1
      have := h.tiles.1
      have := c.size_min
      simp only [Block.extent]
      omega
    simp only [Reference.absorbBelow,find?_extent_none
      (p := fun e => e.addr + e.size = b.extent.addr) hnone]
    simp [mergePrev,Block.extent]
  · rw [List.append_assoc,List.singleton_append] at h hmem
    have hnext := h.tiles.next_addr
    have huniq : ∀ c ∈ free, c.extent.addr + c.extent.size = b.extent.addr → c = p := by
      intro c hc he
      by_contra hne
      have := h.tiles.apart (hmem c hc).1 (show p ∈ _ by simp) hne
      have := c.size_min
      have := p.size_min
      simp only [Block.extent,Block.Apart,Block.stop] at *
      omega
    cases hp : p.allocated with
    | true =>
      have hnone : ∀ c ∈ free, ¬c.extent.addr + c.extent.size = b.extent.addr := by
        intro c hc he
        have := (hmem c hc).2
        rw [huniq c hc he,hp] at this
        cases this
      simp only [Reference.absorbBelow,find?_extent_none
        (p := fun e => e.addr + e.size = b.extent.addr) hnone]
      simp [mergePrev,hp,Block.extent]
    | false =>
      have hpf := (h.free_iff p).mpr ⟨by simp,hp⟩
      have hend : p.extent.addr + p.extent.size = b.extent.addr := hnext.symm
      simp only [Reference.absorbBelow,find?_extent (p := fun e => e.addr + e.size = b.extent.addr)
        hpf hend huniq]
      simp [mergePrev,hp,map_erase_extent (fun c hc => (hmem c hc).2) hp]
      rfl

/-- The block above, when it is free, is the one extent that starts where the block stops. Below, the
block may already have grown. -/
theorem absorbAbove_eq (h : Represents L m (pre ++ b :: post) free) {d : Block} {fs : List Block}
    (hstop : d.stop = b.stop) (hsub : ∀ c ∈ fs, c ∈ free) (hfs : ∀ n ∈ free, n ∈ post → n ∈ fs) :
    Reference.absorbAbove (fs.map Block.extent) d.extent =
      ((mergeNext d post fs).2.2.map Block.extent,(mergeNext d post fs).1.extent) := by
  have hmem : ∀ c ∈ fs, c ∈ pre ++ b :: post ∧ c.allocated = false :=
    fun c hc => (h.free_iff c).mp (hsub c hc)
  cases post with
  | nil =>
    have hnone : ∀ c ∈ fs, ¬c.extent.addr = d.extent.addr + d.extent.size := by
      intro c hc
      have := h.tiles.bounds (hmem c hc).1
      have := c.size_min
      obtain ⟨k,-,-,hend⟩ := tiles_append.mp h.tiles
      simp only [Tiles,Block.extent,Block.stop] at *
      omega
    simp only [Reference.absorbAbove,find?_extent_none
      (p := fun e => e.addr = d.extent.addr + d.extent.size) hnone]
    simp [mergeNext]
  | cons n post =>
    have hnext := h.tiles.next_addr
    have huniq : ∀ c ∈ fs, c.extent.addr = d.extent.addr + d.extent.size → c = n := by
      intro c hc he
      refine h.tiles.eq_of_addr (hmem c hc).1 (by simp) ?_
      simp only [Block.extent,Block.stop] at *
      omega
    cases hn : n.allocated with
    | true =>
      have hnone : ∀ c ∈ fs, ¬c.extent.addr = d.extent.addr + d.extent.size := by
        intro c hc he
        have := (hmem c hc).2
        rw [huniq c hc he,hn] at this
        cases this
      simp only [Reference.absorbAbove,find?_extent_none
        (p := fun e => e.addr = d.extent.addr + d.extent.size) hnone]
      simp [mergeNext,hn]
    | false =>
      have hnf := hfs n ((h.free_iff n).mpr ⟨by simp,hn⟩) (by simp)
      have hstart : n.extent.addr = d.extent.addr + d.extent.size := hnext.trans hstop.symm
      simp only [Reference.absorbAbove,find?_extent
        (p := fun e => e.addr = d.extent.addr + d.extent.size) hnf hstart huniq]
      simp [mergeNext,hn,map_erase_extent (fun c hc => (hmem c hc).2) hn]
      rfl

/-- Releasing an extent of the reference is releasing the block. -/
theorem release_eq (h : Represents L m (pre ++ b :: post) free) :
    let below := Reference.absorbBelow (free.map Block.extent) b.extent
    let above := Reference.absorbAbove below.1 below.2
    above.2 :: above.1 = (release pre b post free).2.map Block.extent := by
  have hnd := h.tiles.nodup
  rw [absorbBelow_eq h]
  have key : (mergePrev pre (b.mark false) free).2.1.stop = b.stop ∧
      (∀ c ∈ (mergePrev pre (b.mark false) free).2.2, c ∈ free) ∧
      ∀ n ∈ free, n ∈ post → n ∈ (mergePrev pre (b.mark false) free).2.2 := by
    rcases List.eq_nil_or_concat' pre with rfl | ⟨pre,p,rfl⟩
    · simp +contextual [mergePrev]
    · cases hp : p.allocated with
      | true => simp +contextual [mergePrev,hp]
      | false =>
        rw [List.append_assoc,List.singleton_append] at h hnd
        have hnext := h.tiles.next_addr
        have hnp : p ∉ post := fun hmem => by
          rw [List.nodup_middle,List.nodup_cons] at hnd
          simp_all
        refine ⟨?_,?_,?_⟩
        · simp only [Block.stop] at hnext
          simp only [mergePrev,List.getLast?_concat,hp,Bool.false_eq_true,↓reduceIte,
            Block.stop,Block.join,Block.mark_size,Block.mark_addr]
          omega
        · simpa [mergePrev,hp] using fun c hc => List.mem_of_mem_erase hc
        · intro n hn hnpost
          have : n ≠ p := fun he => hnp (he ▸ hnpost)
          simpa [mergePrev,hp] using (List.mem_erase_of_ne this).mpr hn
  simp only [absorbAbove_eq h key.1 key.2.1 key.2.2]
  rfl

end Represents

/-- The simulation: the reference's extents are the free blocks in list order, and every live block
is the extent it holds under that address. -/
structure Agrees (L : Layout) (s : Heap) (r : Reference) (bs free : List Block) : Prop where
  sound : Sound L s bs free
  free_eq : r.free = free.map Block.extent
  live_eq : ∀ b ∈ bs, b.allocated = true → r.live.find? (fun e => e.addr = b.addr) = some b.extent

namespace Agrees
variable {L : Layout} {s : Heap} {r : Reference} {bs free pre post : List Block} {b : Block}

theorem request (h : Agrees L s r bs free) {size : ℕ} (hs : 1 ≤ size) (hle : size ≤ 0xFFFFFFF4) :
    ∃ ptr m', memAlloc L s.mem size = some (ptr,m') ∧
      ptr = ((r.request (need size)).map fun x => x.1.addr + 4).getD 0 ∧
      (r.request (need size) = none ↔ ptr = 0) ∧
      ∃ bs' free', Agrees L ⟨m',if ptr = 0 then s.live else ptr :: s.live⟩
        (((r.request (need size)).map Prod.snd).getD r) bs' free' := by
  have hconv : memConvertToBlockSize size = need size := convert_eq hle
  have hfind : r.free.find? (fun e => need size ≤ e.size) =
      (free.find? fun b => memConvertToBlockSize size ≤ b.size).map Block.extent := by
    rw [h.free_eq,List.find?_map,hconv]
    rfl
  cases hf : free.find? (fun b => memConvertToBlockSize size ≤ b.size) with
  | none =>
    have hnone : r.request (need size) = none := by simp [Reference.request,hfind,hf]
    exact ⟨0,s.mem,h.sound.rep.alloc_fail size (by omega) hf,by simp [hnone],by simp [hnone],bs,free,
      by simpa [hnone] using h⟩
  | some b =>
    obtain ⟨hbm,hba⟩ := (h.sound.rep.free_iff b).mp (List.mem_of_find?_eq_some hf)
    obtain ⟨pre,post,rfl⟩ := List.append_of_mem hbm
    have herase : r.free.erase b.extent = (free.erase b).map Block.extent := by
      rw [h.free_eq,map_erase_extent (fun c hc => ((h.sound.rep.free_iff c).mp hc).2) hba]
    have hother : ∀ c ∈ pre ++ post, c.addr ≠ b.addr := by
      intro c hc he
      have hcb := h.sound.rep.tiles.eq_of_addr (c := b) (by simp at hc ⊢; tauto) (by simp) he
      have := h.sound.rep.tiles.nodup
      rw [List.nodup_middle,List.nodup_cons] at this
      exact this.1 (hcb ▸ hc)
    have hlive : ∀ d : Block, d.addr = b.addr → ∀ c ∈ pre ++ post, c.allocated = true →
        (d.extent :: r.live).find? (fun e => e.addr = c.addr) = some c.extent := by
      intro d hd c hc hca
      rw [List.find?_cons_of_neg (by simpa [Block.extent,hd] using Ne.symm (hother c hc))]
      exact h.live_eq c (by simp at hc ⊢; tauto) hca
    by_cases hfit : memConvertToBlockSize size + 16 ≤ b.size
    · obtain ⟨m',h1,-,hsound⟩ := h.sound.alloc_split size (by omega) hf hfit
      have hsome : r.request (need size) =
          some (⟨b.addr,need size⟩,⟨⟨b.addr + need size,b.size - need size⟩ :: r.free.erase b.extent,
            ⟨b.addr,need size⟩ :: r.live⟩) := by
        rw [hconv] at hfit
        simp [Reference.request,hfind,hf,Block.extent,hfit]
      refine ⟨b.node,m',h1,by simp [hsome,Block.node],by simp [hsome,b.node_ne_zero],_,_,
        by simpa [b.node_ne_zero] using hsound,?_,?_⟩
      · simp only [hsome,Option.map_some,Option.getD_some,List.map_cons,herase]
        simp [Block.extent,Block.high,hconv]
      · intro c hc hca
        simp only [hsome,Option.map_some,Option.getD_some]
        have hlow : (⟨b.addr,need size⟩ : Extent) =
            (b.low _ (convert_spec size).1 (convert_spec size).2.1).extent := by
          simp [Block.extent,Block.low,hconv]
        simp only [List.mem_append,List.mem_cons] at hc
        rw [hlow]
        rcases hc with hc | rfl | rfl | hc
        · exact hlive (b.low _ (convert_spec size).1 (convert_spec size).2.1) rfl c (by simp [hc]) hca
        · simp [Block.extent]
        · simp at hca
        · exact hlive (b.low _ (convert_spec size).1 (convert_spec size).2.1) rfl c (by simp [hc]) hca
    · obtain ⟨m',h1,-,hsound⟩ := h.sound.alloc_whole size (by omega) hf hfit
      have hsome : r.request (need size) = some (b.extent,
          ⟨r.free.erase b.extent,b.extent :: r.live⟩) := by
        rw [hconv] at hfit
        simp [Reference.request,hfind,hf,Block.extent,hfit]
      refine ⟨b.node,m',h1,by simp [hsome,Block.node,Block.extent],by simp [hsome,b.node_ne_zero],_,_,
        by simpa [b.node_ne_zero] using hsound,?_,?_⟩
      · simp [hsome,herase]
      · intro c hc hca
        simp only [hsome,Option.map_some,Option.getD_some]
        simp only [List.mem_append,List.mem_cons] at hc
        rcases hc with hc | rfl | hc
        · exact hlive b rfl c (by simp [hc]) hca
        · simp [Block.extent]
        · exact hlive b rfl c (by simp [hc]) hca

theorem release (h : Agrees L s r bs free) {ptr : ℕ} (hp : ptr ∈ s.live) :
    ∃ m', memFree L s.mem ptr = some m' ∧ ∃ bs' free', Agrees L ⟨m',s.live.erase ptr⟩
      (r.release (memBlockFromPayload ptr)) bs' free' := by
  obtain ⟨b,hb,hba,rfl⟩ := (h.sound.live_iff ptr).mp hp
  rw [memBlockFromPayload_eq (h.sound.rep.stop_lt hb)]
  have hfound := h.live_eq b hb hba
  obtain ⟨pre,post,rfl⟩ := List.append_of_mem hb
  obtain ⟨m',h1,-,hsound⟩ := h.sound.free_block hba
  refine ⟨m',h1,_,_,hsound,?_,?_⟩
  · simp only [Reference.release,hfound,h.free_eq]
    exact h.sound.rep.release_eq
  · intro c hc hca
    obtain ⟨hcm,hcb⟩ := (allocated_release h.sound.rep.tiles.nodup hca).mp hc
    have hne : ¬b.extent.addr = c.addr := fun he => hcb (h.sound.rep.tiles.eq_of_addr hcm hb he.symm)
    simp only [Reference.release,hfound]
    rw [find?_erase_of_not (p := fun e => e.addr = c.addr) hne]
    exact h.live_eq c hcm hca

end Agrees

theorem InStep.agrees {L : Layout} {s : Heap} {r : Reference} (h : InStep L s r) :
    ∃ bs free, Agrees L s r bs free := by
  induction h with
  | setup h => exact ⟨_,_,Sound.init h,rfl,by simp [wholeHeap]⟩
  | alloc _ hs hle h ih =>
    obtain ⟨bs,free,ih⟩ := ih
    obtain ⟨ptr',m'',h',-,-,bs',free',hagree⟩ := ih.request hs hle
    rw [h] at h'
    cases h'
    exact ⟨bs',free',hagree⟩
  | @free s r ptr m' _ hp h ih =>
    obtain ⟨bs,free,ih⟩ := ih
    by_cases h0 : ptr = 0
    · subst h0
      simp only [memFree,↓reduceIte,Option.some.injEq] at h
      subst h
      exact ⟨bs,free,by simpa [List.erase_of_not_mem ih.sound.zero_not_live] using ih⟩
    · obtain ⟨m'',h',bs',free',hagree⟩ := ih.release (hp.resolve_left h0)
      rw [h] at h'
      cases h'
      exact ⟨bs',free',by simpa [h0] using hagree⟩
  | write _ hp hlo hhi _ _ ih =>
    obtain ⟨bs,free,ih⟩ := ih
    exact ⟨bs,free,ih.sound.write hp hlo hhi,ih.free_eq,ih.live_eq⟩

/-- The allocator refines first-fit: after the same calls the free list in memory is the reference's
list, the next request gets the reference's answer, and every valid release goes through. -/
theorem mem_refines_first_fit (L : Layout) (s : Heap) (r : Reference) (h : InStep L s r) :
    freeExtents L s.mem = r.free ∧
    (∀ size, 1 ≤ size → size ≤ 0xFFFFFFF4 → ∃ ptr m', memAlloc L s.mem size = some (ptr,m') ∧
      (ptr = 0 ↔ r.request (need size) = none) ∧
      ∀ e r', r.request (need size) = some (e,r') → ptr = e.addr + 4) ∧
    (∀ ptr, ptr = 0 ∨ ptr ∈ s.live → ∃ m', memFree L s.mem ptr = some m') := by
  obtain ⟨bs,free,hagree⟩ := h.agrees
  refine ⟨?_,fun size hs hle => ?_,fun ptr hp => ?_⟩
  · rw [hagree.sound.rep.freeExtents_eq,hagree.free_eq]
  · obtain ⟨ptr,m',h1,hptr,hnone,-⟩ := hagree.request hs hle
    refine ⟨ptr,m',h1,hnone.symm,fun e r' hr => ?_⟩
    rw [hptr,hr]
    rfl
  · rcases hp with rfl | hp
    · exact ⟨s.mem,by simp [memFree]⟩
    · obtain ⟨m',h1,-⟩ := hagree.release hp
      exact ⟨m',h1⟩

/-- After `mem_setup` and `mem_alloc(100)` the free list is the rest of the heap. -/
theorem mem_refines_first_fit_sample : ∃ s, InStep sampleLayout s ⟨[⟨0x20006C,0x1FFFF94⟩],[⟨0x200000,108⟩]⟩ ∧
    freeExtents sampleLayout s.mem = [⟨0x20006C,0x1FFFF94⟩] := by
  obtain ⟨m0,h0,-⟩ := setup_spec sampleLayout ⟨fun _ => 0⟩
  have start := InStep.setup h0
  obtain ⟨-,halloc,-⟩ := mem_refines_first_fit sampleLayout _ _ start
  obtain ⟨ptr,m1,h1,-,-⟩ := halloc 100 (by norm_num) (by norm_num)
  have hreq : (((Reference.init sampleLayout.heap MEM_HEAP_SIZE).request (need 100)).map Prod.snd).getD
      (Reference.init sampleLayout.heap MEM_HEAP_SIZE) = ⟨[⟨0x20006C,0x1FFFF94⟩],[⟨0x200000,108⟩]⟩ := by
    rw [heapSize_eq]
    rfl
  have hstep := InStep.alloc start (by norm_num) (by norm_num) h1
  rw [hreq] at hstep
  exact ⟨_,hstep,(mem_refines_first_fit sampleLayout _ _ hstep).1⟩

end X1.Mem

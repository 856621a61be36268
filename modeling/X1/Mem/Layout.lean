import X1.Mem.Contract

/-! # The layout of the heap is that of the live blocks

Free blocks are never neighbours, so the maximal runs of bytes outside the live blocks are
exactly the free blocks. Two things follow: a request fails only when no such run is large
enough, and the blocks met by a walk through the heap depend on the live blocks alone, not
on the calls that led there.
-/
namespace X1.Mem
open X1.Word X1.Lib X1.Ring

/-! ## Bytes outside the live blocks -/

/-- The byte is in the block of a live pointer. -/
def LiveByte (s : Heap) (a : ℕ) : Prop :=
  ∃ p ∈ s.live, memBlockFromPayload p ≤ a ∧ a < memBlockEnd s.mem (memBlockFromPayload p)

/-- A maximal run of heap bytes outside the live blocks. -/
structure FreeRun (L : Layout) (s : Heap) (lo hi : ℕ) : Prop where
  inside : L.heap ≤ lo ∧ lo < hi ∧ hi ≤ memHeapEnd L
  free : ∀ a, lo ≤ a → a < hi → ¬LiveByte s a
  maximal_lo : lo = L.heap ∨ LiveByte s (lo - 1)
  maximal_hi : hi = memHeapEnd L ∨ LiveByte s hi

theorem Tiles.exists_block {a e x : ℕ} {bs : List Block} (h : Tiles a bs e) (hlo : a ≤ x) (hhi : x < e) :
    ∃ b ∈ bs, b.addr ≤ x ∧ x < b.stop := by
  induction bs generalizing a with
  | nil =>
    have hae : a = e := h
    omega
  | cons b bs ih =>
    obtain ⟨rfl,h⟩ := h
    by_cases hx : x < b.stop
    · exact ⟨b,by simp,hlo,hx⟩
    · obtain ⟨c,hc,hin⟩ := ih h (by omega)
      exact ⟨c,by simp [hc],hin⟩

theorem Tiles.eq_of_byte {a e x : ℕ} {bs : List Block} {b c : Block} (h : Tiles a bs e)
    (hb : b ∈ bs) (hc : c ∈ bs) (hbx : b.addr ≤ x ∧ x < b.stop) (hcx : c.addr ≤ x ∧ x < c.stop) :
    b = c := by
  by_contra hne
  have := h.apart hb hc hne
  simp only [Block.Apart] at this
  omega

namespace Sound
variable {L : Layout} {s : Heap} {bs free : List Block} {b : Block} {a : ℕ}

theorem liveByte_iff (h : Sound L s bs free) (hb : b ∈ bs) (hlo : b.addr ≤ a) (hhi : a < b.stop) :
    LiveByte s a ↔ b.allocated = true := by
  constructor
  · rintro ⟨p,hp,hplo,hphi⟩
    obtain ⟨c,hc,hca,rfl⟩ := (h.live_iff p).mp hp
    have hlt := h.rep.stop_lt hc
    rw [memBlockFromPayload_eq hlt] at hplo hphi
    rw [memBlockEnd_eq (h.rep.tagged c hc).header hlt] at hphi
    rwa [h.rep.tiles.eq_of_byte hb hc ⟨hlo,hhi⟩ ⟨hplo,hphi⟩]
  · intro ha
    refine ⟨b.node,(h.live_iff _).mpr ⟨b,hb,ha,rfl⟩,?_⟩
    have hlt := h.rep.stop_lt hb
    rw [memBlockFromPayload_eq hlt,memBlockEnd_eq (h.rep.tagged b hb).header hlt]
    exact ⟨hlo,hhi⟩

/-- The block behind a free block is allocated, or the heap ends. -/
theorem behind_free (h : Sound L s bs free) (hb : b ∈ bs) (hfree : b.allocated = false) :
    b.stop = memHeapEnd L ∨ LiveByte s b.stop := by
  obtain ⟨pre,post,rfl⟩ := List.append_of_mem hb
  cases post with
  | nil =>
    left
    obtain ⟨_,-,-,hend⟩ := tiles_append.mp h.rep.tiles
    rw [Represents.memHeapEnd_eq]
    exact hend
  | cons c post =>
    right
    have hc : c.allocated = true := by
      have := (coalesced_middle.mp h.coalesced).2.2.2 c rfl
      simpa [hfree] using this
    have haddr := h.rep.tiles.next_addr
    have := c.size_min
    refine (h.liveByte_iff (b := c) (by simp) haddr.le ?_).mpr hc
    simp only [Block.stop] at *
    omega

theorem before_free (h : Sound L s bs free) (hb : b ∈ bs) (hfree : b.allocated = false) :
    b.addr = L.heap ∨ LiveByte s (b.addr - 1) := by
  obtain ⟨pre,post,rfl⟩ := List.append_of_mem hb
  rcases List.eq_nil_or_concat' pre with rfl | ⟨pre,c,rfl⟩
  · exact .inl h.rep.tiles.1
  · right
    have hc : c.allocated = true := by
      have := (coalesced_middle.mp h.coalesced).2.2.1 c (by simp)
      simpa [hfree] using this
    have htiles := h.rep.tiles
    rw [List.append_assoc] at htiles
    have haddr : b.addr = c.stop := Tiles.next_addr htiles
    have := c.size_min
    refine (h.liveByte_iff (b := c) (by simp) ?_ ?_).mpr hc
    · simp only [Block.stop] at *
      omega
    · simp only [Block.stop] at *
      omega

/-- The maximal runs of free bytes are the free blocks. -/
theorem freeRun_iff (h : Sound L s bs free) (lo hi : ℕ) :
    FreeRun L s lo hi ↔ ∃ b ∈ bs, b.allocated = false ∧ b.addr = lo ∧ b.stop = hi := by
  have hend := Represents.memHeapEnd_eq L
  constructor
  · intro hr
    obtain ⟨hlo,hlt,hhi⟩ := hr.inside
    obtain ⟨b,hb,hbx⟩ := h.rep.tiles.exists_block hlo (by omega)
    have hfree : b.allocated = false := by
      have := hr.free lo le_rfl hlt
      rw [h.liveByte_iff hb hbx.1 hbx.2] at this
      simpa using this
    have hbounds := h.rep.tiles.bounds hb
    refine ⟨b,hb,hfree,?_,?_⟩
    · by_contra hne
      rcases hr.maximal_lo with heq | hlive
      · omega
      · rw [h.liveByte_iff hb (by omega) (by omega),hfree] at hlive
        cases hlive
    · by_contra hne
      by_cases hshort : hi < b.stop
      · rcases hr.maximal_hi with heq | hlive
        · omega
        · rw [h.liveByte_iff hb (by omega) hshort,hfree] at hlive
          cases hlive
      · rcases h.behind_free hb hfree with heq | hlive
        · omega
        · exact hr.free b.stop (by omega) (by omega) hlive
  · rintro ⟨b,hb,hfree,rfl,rfl⟩
    have hbounds := h.rep.tiles.bounds hb
    have := b.size_min
    refine ⟨⟨hbounds.1,?_,hend ▸ hbounds.2⟩,fun a hlo hhi => ?_,h.before_free hb hfree,
      h.behind_free hb hfree⟩
    · simp only [Block.stop]
      omega
    · rw [h.liveByte_iff hb hlo hhi,hfree]
      simp

theorem alloc_null (h : Sound L s bs free) {size : ℕ} {m' : Memory}
    (halloc : memAlloc L s.mem size = some (0,m')) : m' = s.mem := by
  by_cases hs : size = 0
  · simp only [memAlloc,hs,if_true,Option.some.injEq,Prod.mk.injEq] at halloc
    exact halloc.2.symm
  obtain ⟨ptr,m₁,h1,-,-,-,-,hnull,-⟩ := h.alloc size
  rw [h1] at halloc
  cases halloc
  have hsmall : ∀ b ∈ free, b.size < memConvertToBlockSize size := (hnull rfl).resolve_left hs
  rw [h.rep.alloc_fail size hs (by simpa using hsmall)] at h1
  cases h1
  rfl

end Sound

/-- `mem_alloc` returns `NULL` exactly when no run of free bytes can hold the block, and then nothing
has changed. -/
theorem alloc_null_iff (L : Layout) (s : Heap) (size : ℕ) (h : Reachable L s) (hpos : 0 < size)
    (hle : size ≤ 0xFFFFFFF4) :
    ∃ ptr m', memAlloc L s.mem size = some (ptr,m') ∧
      (ptr = 0 ↔ ∀ lo hi, FreeRun L s lo hi → hi - lo < max 16 ((size + 3) / 4 * 4 + 8)) ∧
      (ptr = 0 → m' = s.mem) := by
  obtain ⟨bs,free,hs⟩ := h.sound
  have hneed := convert_eq hle
  have hruns : (∀ lo hi, FreeRun L s lo hi → hi - lo < memConvertToBlockSize size) ↔
      ∀ b ∈ free, b.size < memConvertToBlockSize size := by
    constructor
    · intro hall b hb
      obtain ⟨hbm,hba⟩ := (hs.rep.free_iff b).mp hb
      have := hall b.addr b.stop ((hs.freeRun_iff _ _).mpr ⟨b,hbm,hba,rfl,rfl⟩)
      simpa [Block.stop] using this
    · intro hall lo hi hr
      obtain ⟨b,hb,hba,rfl,rfl⟩ := (hs.freeRun_iff _ _).mp hr
      simpa [Block.stop] using hall b ((hs.rep.free_iff b).mpr ⟨hb,hba⟩)
  rw [← hneed,hruns]
  obtain ⟨ptr,m',h1,-,-,-,-,hnull,-⟩ := hs.alloc size
  have hfail : (∀ b ∈ free, b.size < memConvertToBlockSize size) →
      memAlloc L s.mem size = some (0,s.mem) := by
    intro hall
    refine hs.rep.alloc_fail size (by omega) ?_
    simpa using hall
  have hsmall : ptr = 0 → ∀ b ∈ free, b.size < memConvertToBlockSize size := fun h0 =>
    (hnull h0).resolve_left (by omega)
  refine ⟨ptr,m',h1,⟨hsmall,fun hall => ?_⟩,fun h0 => ?_⟩
  · have := hfail hall
    rw [h1] at this
    cases this
    rfl
  · subst h0
    exact hs.alloc_null h1

theorem alloc_null_sample : ∃ s, Reachable sampleLayout s ∧ ∃ ptr m', memAlloc sampleLayout s.mem 100 = some (ptr,m') ∧
    (ptr = 0 ↔ ∀ lo hi, FreeRun sampleLayout s lo hi → hi - lo < 108) := by
  obtain ⟨s,hs,-⟩ := sample_run
  obtain ⟨ptr,m',h1,h2,-⟩ := alloc_null_iff sampleLayout s 100 hs (by norm_num) (by norm_num)
  exact ⟨s,hs,ptr,m',h1,h2⟩

/-! ## The walk through the heap -/

/-- What the two tags of a block say. -/
structure Entry where
  addr : ℕ
  size : ℕ
  allocated : Bool
  footerSize : ℕ
  footerAllocated : Bool
  deriving DecidableEq

def entry (m : Memory) (block : ℕ) : Entry where
  addr := block
  size := memBlockSize m block
  allocated := memBlockAllocated m block
  footerSize := memBtagSize m (memBlockFooterBtag m block)
  footerAllocated := memBtagAllocated m (memBlockFooterBtag m block)

/-- The blocks from `block` on, by `mem_block_next`. -/
def walkFrom (L : Layout) (m : Memory) : ℕ → ℕ → List Entry
  | 0, _ => []
  | fuel + 1, block =>
    entry m block :: if memBlockNext L m block = 0 then [] else walkFrom L m fuel
      (memBlockNext L m block)

/-- The walk from `mem_heap`. More blocks than `MEM_HEAP_SIZE / MEM_BLOCK_MIN_SIZE` do not fit. -/
def heapWalk (L : Layout) (m : Memory) : List Entry := walkFrom L m (MEM_HEAP_SIZE / MEM_BLOCK_MIN_SIZE) L.heap

def Block.entry (b : Block) : Entry := ⟨b.addr,b.size,b.allocated,b.size,b.allocated⟩

namespace Represents
variable {L : Layout} {m : Memory} {bs free pre post : List Block} {b : Block}

theorem entry_eq (h : Represents L m bs free) (hb : b ∈ bs) : Mem.entry m b.addr = b.entry := by
  have htag := h.tagged b hb
  have hlt := h.stop_lt hb
  have hfooter := memBlockFooterBtag_eq htag.header hlt
  have hsame : m b.footer = m b.addr := htag.footer.trans htag.header.symm
  have hsize : memBlockSize m b.addr = b.size := memBlockSize_eq htag.header hlt
  have halloc : memBlockAllocated m b.addr = b.allocated := memBlockAllocated_eq htag.header
  have hsize' : memBtagSize m b.footer = b.size := by
    rw [memBtagSize,hsame]
    exact hsize
  have halloc' : memBtagAllocated m b.footer = b.allocated := by
    rw [memBtagAllocated,hsame]
    exact halloc
  rw [Mem.entry,hfooter,hsize,halloc,hsize',halloc']
  rfl

/-- The walk meets the blocks, from any of them on. -/
theorem walkFrom_eq (h : Represents L m bs free) (fuel : ℕ) (hbs : bs = pre ++ b :: post)
    (hfuel : post.length < fuel) : walkFrom L m fuel b.addr = (b :: post).map Block.entry := by
  induction post generalizing pre b fuel with
  | nil =>
    obtain ⟨fuel,rfl⟩ : ∃ k, fuel = k + 1 := ⟨fuel - 1,by omega⟩
    have hlast := (hbs ▸ h).memBlockNext_last
    rw [walkFrom,hlast,h.entry_eq (by simp [hbs])]
    rfl
  | cons c post ih =>
    rw [List.length_cons] at hfuel
    obtain ⟨fuel,rfl⟩ : ∃ k, fuel = k + 1 := ⟨fuel - 1,by omega⟩
    have hnext := (hbs ▸ h).memBlockNext_of
    have hne : memBlockNext L m b.addr ≠ 0 := by
      rw [hnext]
      exact h.addr_pos (by simp [hbs])
    have hrest : bs = (pre ++ [b]) ++ c :: post := by simp [hbs]
    rw [walkFrom,if_neg hne,hnext,h.entry_eq (by simp [hbs]),ih fuel hrest (by omega)]
    rfl

theorem heapWalk_eq (h : Represents L m bs free) : heapWalk L m = bs.map Block.entry := by
  have hlen := h.tiles.length_le
  have hfuel : MEM_HEAP_SIZE / MEM_BLOCK_MIN_SIZE = 2097152 := by
    rw [blockMinSize_eq,heapSize_eq]
  cases bs with
  | nil =>
    have htiles := h.tiles
    rw [Tiles,heapSize_eq] at htiles
    omega
  | cons b bs =>
    have haddr : b.addr = L.heap := h.tiles.1
    rw [heapWalk,← haddr]
    have hwhole : b :: bs = [] ++ b :: bs := rfl
    refine h.walkFrom_eq _ hwhole ?_
    rw [heapSize_eq,List.length_cons] at *
    omega

end Represents

/-- Of two such tilings that begin with a free block, neither has the shorter one. -/
theorem Tiles.stop_le {a e : ℕ} {bs cs : List Block} {b c : Block} (hb : Tiles a (b :: bs) e)
    (hc : Tiles a (c :: cs) e) (hbs : Coalesced (b :: bs)) (hfree : b.allocated = false)
    (hsame : ∀ d : Block, d.allocated = true → d ∈ b :: bs → d ∈ c :: cs)
    (hcfree : c.allocated = false) : c.stop ≤ b.stop := by
  by_contra hlt
  have hce := (hc.bounds (List.mem_cons_self ..)).2
  cases bs with
  | nil =>
    have hbe : b.stop = e := hb.2
    omega
  | cons d bs =>
    have hda : d.allocated = true := by
      have := (List.isChain_cons_cons.mp hbs).1
      simpa [hfree] using this
    have hdaddr : d.addr = b.stop := hb.2.1
    have hdc := hsame d hda (by simp)
    have hne : d ≠ c := by
      rintro rfl
      rw [hda] at hcfree
      cases hcfree
    have hapart := hc.apart hdc (List.mem_cons_self ..) hne
    have hbaddr : b.addr = a := hb.1
    have hcaddr : c.addr = a := hc.1
    have := b.size_min
    have := d.size_min
    simp only [Block.Apart,Block.stop] at *
    omega

/-- A tiling without free neighbours is given by its allocated blocks. -/
theorem Tiles.eq_of_allocated {a e : ℕ} {bs cs : List Block} (hb : Tiles a bs e) (hc : Tiles a cs e)
    (hbs : Coalesced bs) (hcs : Coalesced cs)
    (hsame : ∀ d : Block, d.allocated = true → (d ∈ bs ↔ d ∈ cs)) : bs = cs := by
  induction bs generalizing a cs with
  | nil =>
    cases cs with
    | nil => rfl
    | cons c cs =>
      have hae : a = e := hb
      have hcbounds := hc.bounds (List.mem_cons_self ..)
      have := c.size_min
      simp only [Block.stop] at hcbounds
      omega
  | cons b bs ih =>
    cases cs with
    | nil =>
      have hae : a = e := hc
      have hbbounds := hb.bounds (List.mem_cons_self ..)
      have := b.size_min
      simp only [Block.stop] at hbbounds
      omega
    | cons c cs =>
      have haddr : b.addr = c.addr := hb.1.trans hc.1.symm
      have hbc : b = c := by
        by_cases hba : b.allocated = true
        · exact hc.eq_of_addr ((hsame b hba).mp (by simp)) (by simp) haddr
        by_cases hca : c.allocated = true
        · exact hb.eq_of_addr (by simp) ((hsame c hca).mpr (by simp)) haddr
        rw [Bool.not_eq_true] at hba hca
        have hle := hb.stop_le hc hbs hba (fun d hd => (hsame d hd).mp) hca
        have hge := hc.stop_le hb hcs hca (fun d hd => (hsame d hd).mpr) hba
        refine Block.ext haddr ?_ (hba.trans hca.symm)
        simp only [Block.stop] at hle hge
        omega
      subst hbc
      rw [ih hb.2 hc.2 (List.isChain_cons.mp hbs).2 (List.isChain_cons.mp hcs).2]
      intro d hd
      have hdb := hsame d hd
      have hnb := List.nodup_cons.mp hb.nodup
      have hnc := List.nodup_cons.mp hc.nodup
      simp only [List.mem_cons] at hdb
      constructor
      · intro hm
        refine (hdb.mp (.inr hm)).resolve_left ?_
        rintro rfl
        exact hnb.1 hm
      · intro hm
        refine (hdb.mpr (.inr hm)).resolve_left ?_
        rintro rfl
        exact hnc.1 hm

/-! ## Histories with the same live blocks -/

/-- A live pointer names a block with this start and this size. -/
def LiveBlock (s : Heap) (addr size : ℕ) : Prop :=
  ∃ p ∈ s.live, memBlockFromPayload p = addr ∧ memBlockSize s.mem addr = size

/-- `mem_free` of one pointer after the other. -/
def freeAll (L : Layout) (s : Heap) (ptrs : List ℕ) : Option Heap :=
  ptrs.foldlM (fun s ptr => (memFree L s.mem ptr).map fun m => ⟨m,s.live.erase ptr⟩) s

namespace Sound
variable {L : Layout} {s s' : Heap} {bs bs' free free' : List Block}

theorem liveBlock_iff (h : Sound L s bs free) (addr size : ℕ) :
    LiveBlock s addr size ↔ ∃ b ∈ bs, b.allocated = true ∧ b.addr = addr ∧ b.size = size := by
  constructor
  · rintro ⟨p,hp,rfl,rfl⟩
    obtain ⟨b,hb,ha,rfl⟩ := (h.live_iff p).mp hp
    have hlt := h.rep.stop_lt hb
    rw [memBlockFromPayload_eq hlt]
    exact ⟨b,hb,ha,rfl,(memBlockSize_eq (h.rep.tagged b hb).header hlt).symm⟩
  · rintro ⟨b,hb,ha,rfl,rfl⟩
    have hlt := h.rep.stop_lt hb
    exact ⟨b.node,(h.live_iff _).mpr ⟨b,hb,ha,rfl⟩,memBlockFromPayload_eq hlt,
      memBlockSize_eq (h.rep.tagged b hb).header hlt⟩

theorem blocks_eq (h : Sound L s bs free) (h' : Sound L s' bs' free')
    (hlive : ∀ addr size, LiveBlock s addr size ↔ LiveBlock s' addr size) : bs = bs' := by
  refine h.rep.tiles.eq_of_allocated h'.rep.tiles h.coalesced h'.coalesced fun d hd => ?_
  have hd₁ := h.liveBlock_iff d.addr d.size
  have hd₂ := h'.liveBlock_iff d.addr d.size
  have heq : ∀ {cs : List Block}, d ∈ cs ↔ ∃ b ∈ cs, b.allocated = true ∧ b.addr = d.addr ∧
      b.size = d.size := by
    intro cs
    constructor
    · exact fun hm => ⟨d,hm,hd,rfl,rfl⟩
    · rintro ⟨b,hb,ha,haddr,hsize⟩
      rwa [← Block.ext haddr hsize (ha.trans hd.symm)]
  rw [heq,heq,← hd₁,← hd₂]
  exact hlive d.addr d.size

theorem liveBlock_free (h : Sound L s bs free) {p : ℕ} (hp : p ∈ s.live) :
    ∃ m', memFree L s.mem p = some m' ∧ ∀ addr size, LiveBlock ⟨m',s.live.erase p⟩ addr size ↔
      LiveBlock s addr size ∧ addr ≠ memBlockFromPayload p := by
  obtain ⟨b,hb,ha,rfl⟩ := (h.live_iff p).mp hp
  obtain ⟨pre,post,rfl⟩ := List.append_of_mem hb
  obtain ⟨m',h1,-,hs'⟩ := h.free_block ha
  refine ⟨m',h1,fun addr size => ?_⟩
  rw [hs'.liveBlock_iff,h.liveBlock_iff,memBlockFromPayload_eq (h.rep.stop_lt hb)]
  constructor
  · rintro ⟨c,hc,hca,rfl,rfl⟩
    obtain ⟨hc,hne⟩ := (allocated_release h.rep.tiles.nodup hca).mp hc
    exact ⟨⟨c,hc,hca,rfl,rfl⟩,fun he => hne (h.rep.tiles.eq_of_addr hc hb he)⟩
  · rintro ⟨⟨c,hc,hca,rfl,rfl⟩,hne⟩
    exact ⟨c,(allocated_release h.rep.tiles.nodup hca).mpr ⟨hc,fun he => hne (by rw [he])⟩,hca,rfl,rfl⟩

theorem liveBlock_alloc (h : Sound L s bs free) {size p : ℕ} {m' : Memory}
    (halloc : memAlloc L s.mem size = some (p,m')) (hp : p ≠ 0) (addr sz : ℕ) :
    LiveBlock ⟨m',p :: s.live⟩ addr sz ∧ addr ≠ memBlockFromPayload p ↔ LiveBlock s addr sz := by
  by_cases hs : size = 0
  · simp only [memAlloc,hs,if_true,Option.some.injEq,Prod.mk.injEq] at halloc
    exact absurd halloc.1.symm hp
  cases hf : free.find? (fun b => memConvertToBlockSize size ≤ b.size) with
  | none =>
    rw [h.rep.alloc_fail size hs hf] at halloc
    cases halloc
    exact absurd rfl hp
  | some b =>
    obtain ⟨hbm,hba⟩ := (h.rep.free_iff b).mp (List.mem_of_find?_eq_some hf)
    obtain ⟨pre,post,rfl⟩ := List.append_of_mem hbm
    -- The other allocated blocks are where they were.
    have hother : ∀ {cs : List Block}, (∀ c : Block, c.allocated = true → c.addr ≠ b.addr →
        (c ∈ cs ↔ c ∈ pre ++ b :: post)) →
        ((∃ c ∈ cs, c.allocated = true ∧ c.addr = addr ∧ c.size = sz) ∧ addr ≠ b.addr ↔
          ∃ c ∈ pre ++ b :: post, c.allocated = true ∧ c.addr = addr ∧ c.size = sz) := by
      intro cs hcs
      constructor
      · rintro ⟨⟨c,hc,hca,rfl,rfl⟩,hne⟩
        exact ⟨c,(hcs c hca hne).mp hc,hca,rfl,rfl⟩
      · rintro ⟨c,hc,hca,rfl,rfl⟩
        have hne : c.addr ≠ b.addr := by
          intro he
          rw [h.rep.tiles.eq_of_addr hc hbm he,hba] at hca
          cases hca
        exact ⟨⟨c,(hcs c hca hne).mpr hc,hca,rfl,rfl⟩,hne⟩
    have hneb : ∀ c : Block, c.allocated = true → c ≠ b := by
      rintro c hca rfl
      rw [hba] at hca
      cases hca
    have hpayload : memBlockFromPayload b.node = b.addr := memBlockFromPayload_eq (h.rep.stop_lt hbm)
    by_cases hfit : memConvertToBlockSize size + 16 ≤ b.size
    · obtain ⟨m₁,h1,-,hs'⟩ := h.alloc_split size hs hf hfit
      rw [h1] at halloc
      cases halloc
      rw [hpayload,hs'.liveBlock_iff,h.liveBlock_iff]
      refine hother fun c hca hne => ?_
      have hlow : c ≠ b.low _ (convert_spec size).1 (convert_spec size).2.1 :=
        fun he => hne (by rw [he]; rfl)
      have hhigh : c ≠ (b.high _ hfit (convert_spec size).2.1).mark false := by
        rintro rfl
        cases hca
      simp [hlow,hhigh,hneb c hca]
    · obtain ⟨m₁,h1,-,hs'⟩ := h.alloc_whole size hs hf hfit
      rw [h1] at halloc
      cases halloc
      rw [hpayload,hs'.liveBlock_iff,h.liveBlock_iff]
      refine hother fun c hca hne => ?_
      have hmark : c ≠ b.mark true := fun he => hne (by rw [he]; rfl)
      simp [hmark,hneb c hca]

end Sound

/-- The live blocks determine the walk. -/
theorem heapWalk_eq_of_live {L : Layout} {s s' : Heap} (h : Reachable L s) (h' : Reachable L s')
    (hlive : ∀ addr size, LiveBlock s addr size ↔ LiveBlock s' addr size) :
    heapWalk L s.mem = heapWalk L s'.mem := by
  obtain ⟨bs,free,hs⟩ := h.sound
  obtain ⟨bs',free',hs'⟩ := h'.sound
  rw [hs.rep.heapWalk_eq,hs'.rep.heapWalk_eq,hs.blocks_eq hs' hlive]

/-- `mem_free` undoes the `mem_alloc` before it, but for the order of the free list. -/
theorem alloc_free_restores {L : Layout} {s : Heap} (h : Reachable L s) {size p : ℕ} {m m' : Memory}
    (hsize : size < 2 ^ 32) (halloc : memAlloc L s.mem size = some (p,m)) (hp : p ≠ 0)
    (hfree : memFree L m p = some m') :
    Reachable L ⟨m',s.live⟩ ∧ (∀ addr sz, LiveBlock ⟨m',s.live⟩ addr sz ↔ LiveBlock s addr sz) ∧
      heapWalk L m' = heapWalk L s.mem := by
  have hreach : Reachable L ⟨m,p :: s.live⟩ := by
    have := Reachable.alloc h hsize halloc
    rwa [if_neg hp] at this
  have hreach' : Reachable L ⟨m',s.live⟩ := by
    have := Reachable.free hreach (.inr (List.mem_cons_self ..)) hfree
    rwa [List.erase_cons_head] at this
  obtain ⟨bs,free,hs⟩ := h.sound
  obtain ⟨bs₁,free₁,hs₁⟩ := hreach.sound
  obtain ⟨m₁,h1,hblocks⟩ := hs₁.liveBlock_free (p := p) (by simp)
  rw [hfree] at h1
  cases h1
  rw [List.erase_cons_head] at hblocks
  have hlive : ∀ addr sz, LiveBlock ⟨m',s.live⟩ addr sz ↔ LiveBlock s addr sz := fun addr sz =>
    (hblocks addr sz).trans (hs.liveBlock_alloc halloc hp addr sz)
  exact ⟨hreach',hlive,heapWalk_eq_of_live hreach' h hlive⟩

/-- Any live pointers can be freed one after the other, and the other live blocks stay. -/
theorem freeAll_spec {L : Layout} {s : Heap} (h : Reachable L s) (ptrs : List ℕ) (hnd : ptrs.Nodup)
    (hlive : ∀ p ∈ ptrs, p ∈ s.live) :
    ∃ s', freeAll L s ptrs = some s' ∧ Reachable L s' ∧ ∀ addr size, LiveBlock s' addr size ↔
    LiveBlock s addr size ∧ ∀ p ∈ ptrs, addr ≠ memBlockFromPayload p := by
  induction ptrs generalizing s with
  | nil => exact ⟨s,rfl,h,by simp⟩
  | cons p ptrs ih =>
    obtain ⟨hp,hnd⟩ := List.nodup_cons.mp hnd
    obtain ⟨bs,free,hs⟩ := h.sound
    obtain ⟨m',h1,hblocks⟩ := hs.liveBlock_free (hlive p (by simp))
    have hreach : Reachable L ⟨m',s.live.erase p⟩ := .free h (.inr (hlive p (by simp))) h1
    obtain ⟨s',h2,hr,hrest⟩ := ih hreach hnd fun q hq => by
      refine (hs.live_nodup.mem_erase_iff).mpr ⟨?_,hlive q (by simp [hq])⟩
      rintro rfl
      exact hp hq
    refine ⟨s',?_,hr,fun addr size => ?_⟩
    · rw [freeAll,List.foldlM_cons,h1]
      exact h2
    · rw [hrest,hblocks]
      simp only [List.mem_cons,forall_eq_or_imp,and_assoc]

/-- The blocks met by a walk depend on the live blocks alone; so the order of frees does not matter,
and without live blocks there is one free block. -/
theorem layout_from_live (L : Layout) (s₁ s₂ : Heap) (h₁ : Reachable L s₁) (h₂ : Reachable L s₂) :
    ((∀ addr size, LiveBlock s₁ addr size ↔ LiveBlock s₂ addr size) → heapWalk L s₁.mem = heapWalk L s₂.mem) ∧
    (∀ ptrs ptrs' : List ℕ, ptrs.Perm ptrs' → ptrs.Nodup → (∀ p ∈ ptrs, p ∈ s₁.live) →
      ∃ s s', freeAll L s₁ ptrs = some s ∧ freeAll L s₁ ptrs' = some s' ∧ heapWalk L s.mem = heapWalk L s'.mem) ∧
    (s₁.live = [] → heapWalk L s₁.mem = [⟨L.heap,MEM_HEAP_SIZE,false,MEM_HEAP_SIZE,false⟩] ∧
      IsRing (LinkStore.next s₁.mem) (LinkStore.prev s₁.mem) L.freeList [memBlockPayload L.heap]) := by
  refine ⟨heapWalk_eq_of_live h₁ h₂,fun ptrs ptrs' hperm hnd hlive => ?_,fun hempty => ?_⟩
  · obtain ⟨s,hfree,hs,hblocks⟩ := freeAll_spec h₁ ptrs hnd hlive
    obtain ⟨s',hfree',hs',hblocks'⟩ := freeAll_spec h₁ ptrs' (hperm.nodup_iff.mp hnd) fun p hp =>
      hlive p (hperm.mem_iff.mpr hp)
    refine ⟨s,s',hfree,hfree',heapWalk_eq_of_live hs hs' fun addr size => ?_⟩
    rw [hblocks,hblocks']
    simp only [hperm.mem_iff]
  · obtain ⟨bs,free,hs⟩ := h₁.sound
    obtain ⟨m₀,hm₀,-⟩ := setup_spec L s₁.mem
    have hnone : ∀ {s : Heap}, s.live = [] → ∀ addr size, ¬LiveBlock s addr size := by
      rintro s hs addr size ⟨p,hp,-⟩
      simp [hs] at hp
    have hbs : bs = [wholeHeap L false] :=
      hs.blocks_eq (Sound.init hm₀) fun addr size => iff_of_false (hnone hempty _ _) (hnone rfl _ _)
    have hfree : free = [wholeHeap L false] := by
      have hmem : ∀ b, b ∈ free ↔ b = wholeHeap L false := by
        intro b
        rw [hs.rep.free_iff,hbs,List.mem_singleton]
        constructor
        · exact And.left
        · rintro rfl
          exact ⟨rfl,rfl⟩
      refine (List.perm_singleton.mp ?_)
      refine (List.perm_ext_iff_of_nodup hs.rep.free_nodup (List.nodup_singleton _)).mpr fun b => ?_
      rw [hmem,List.mem_singleton]
    refine ⟨?_,?_⟩
    · rw [hs.rep.heapWalk_eq,hbs]
      rfl
    · have hring := hs.heapInvariant.forward
      rw [hfree] at hring
      exact hring

/-- Two live blocks freed in both orders. -/
theorem layout_from_live_sample : ∃ s s₁ s₂, Reachable sampleLayout s ∧ s.live = [0x200070,0x200004] ∧
    freeAll sampleLayout s [0x200070,0x200004] = some s₁ ∧ freeAll sampleLayout s [0x200004,0x200070] = some s₂ ∧
    heapWalk sampleLayout s₁.mem = heapWalk sampleLayout s₂.mem := by
  obtain ⟨s,hs,hl⟩ := sample_run
  obtain ⟨s₁,s₂,h₁,h₂,heq⟩ := (layout_from_live sampleLayout s s hs hs).2.1 [0x200070,0x200004]
    [0x200004,0x200070]
    (List.Perm.swap _ _ _) (by simp) (by simp [hl])
  exact ⟨s,s₁,s₂,hs,hl,h₁,h₂,heq⟩

end X1.Mem

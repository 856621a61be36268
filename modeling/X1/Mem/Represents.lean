import X1.Mem.Tags

/-! # The representation of a block list in memory

`Represents L m bs free` says that the words of `m` hold the tags of the blocks
`bs`, which tile the heap, and a well-formed free list whose nodes are in the
payloads of `free`, exactly the blocks marked free. Two free neighbours are
allowed, so the relation also holds between the steps of one operation. Each of the
four steps of the allocator (take a block off the list, put one on, cut a block,
join two) is one theorem: the code succeeds, the new lists are the expected ones,
and only words of the blocks it owns change.
-/
namespace X1.Mem
open X1.Word X1.Lib X1.Ring

structure Represents (L : Layout) (m : Memory) (bs free : List Block) : Prop where
  tiles : Tiles L.heap bs (L.heap + MEM_HEAP_SIZE)
  tagged : ∀ b ∈ bs, Tagged m b
  list : IsList m L.freeList (free.map Block.node)
  free_iff : ∀ b, b ∈ free ↔ b ∈ bs ∧ b.allocated = false

/-- The words of the list head and of the blocks `ds`. -/
def Owned (L : Layout) (ds : List Block) (a : ℕ) : Prop :=
  a = L.freeList ∨ a = L.freeList + 4 ∨ ∃ d ∈ ds, d.addr ≤ a ∧ a < d.stop

/-- Every word of the blocks is a word of other blocks. -/
theorem Owned.mono {L : Layout} {ds ds' : List Block} {a : ℕ} (h : Owned L ds a)
    (hds : ∀ d ∈ ds, d.addr ≤ a ∧ a < d.stop → ∃ e ∈ ds', e.addr ≤ a ∧ a < e.stop) : Owned L ds' a := by
  rcases h with h | h | ⟨d,hd,h⟩
  · exact .inl h
  · exact .inr (.inl h)
  · exact .inr (.inr (hds d hd h))

/-- The words of the list head and of the nodes in the blocks `ds`. -/
def NodeWord (L : Layout) (ds : List Block) (a : ℕ) : Prop :=
  ∃ p ∈ L.freeList :: ds.map Block.node, a = p ∨ a = p + 4

theorem owned_of_nodeWord {L : Layout} {ds : List Block} (a : ℕ) (h : NodeWord L ds a) :
    Owned L ds a := by
  obtain ⟨p,hp,ha⟩ := h
  rcases List.mem_cons.mp hp with rfl | hp
  · rcases ha with ha | ha
    · exact .inl ha
    · exact .inr (.inl ha)
  · obtain ⟨d,hd,rfl⟩ := List.mem_map.mp hp
    have := d.size_min
    refine .inr (.inr ⟨d,hd,?_⟩)
    simp only [Block.node,Block.stop] at *
    omega

theorem owned_mark {L : Layout} {ds : List Block} {b : Block} {x : Bool} (a : ℕ)
    (h : Owned L (b.mark x :: ds) a) : Owned L (b :: ds) a := by
  refine h.mono fun d hd hin => ?_
  rcases List.mem_cons.mp hd with rfl | hd
  · exact ⟨b,List.mem_cons_self,hin⟩
  · exact ⟨d,List.mem_cons_of_mem b hd,hin⟩

/-- Words outside `P` are the same in both memories. -/
def Keeps (P : ℕ → Prop) (m m' : Memory) : Prop := ∀ a, ¬P a → m' a = m a

theorem Keeps.trans {P : ℕ → Prop} {m m' m'' : Memory} (h : Keeps P m m') (h' : Keeps P m' m'') :
    Keeps P m m'' := fun a ha => (h' a ha).trans (h a ha)

theorem Keeps.mono {P Q : ℕ → Prop} {m m' : Memory} (h : Keeps P m m') (hPQ : ∀ a, P a → Q a) :
    Keeps Q m m' := fun a ha => h a fun hp => ha (hPQ a hp)

/-- The nodes a list operation may meet: the head and one node in each block. -/
def IsNode (L : Layout) (bs : List Block) (p : ℕ) : Prop := p = L.freeList ∨ ∃ b ∈ bs, p = b.node

section
variable {L : Layout} {m : Memory} {bs free pre post l r : List Block} {b c : Block} {p q a : ℕ}

theorem stop_lt (h : Tiles L.heap bs (L.heap + MEM_HEAP_SIZE)) (hb : b ∈ bs) : b.stop < 2 ^ 32 :=
  (h.bounds hb).2.trans_lt L.heap_fits

theorem add_node (h : Tiles L.heap bs (L.heap + MEM_HEAP_SIZE)) (hp : IsNode L bs p) :
    add p 4 = p + 4 := by
  refine add_of_lt ?_
  rcases hp with rfl | ⟨b,hb,rfl⟩
  · have := L.freeList_fits
    omega
  · have := stop_lt h hb
    have := b.size_min
    simp only [Block.node,Block.stop] at *
    omega

theorem node_ne_next (h : Tiles L.heap bs (L.heap + MEM_HEAP_SIZE)) (hp : IsNode L bs p)
    (hq : IsNode L bs q) : q ≠ p + 4 := by
  have hd := L.disjoint
  rcases hp with rfl | ⟨b,hb,rfl⟩ <;> rcases hq with rfl | ⟨c,hc,rfl⟩
  · omega
  · have := h.bounds hc
    have := c.size_min
    simp only [Block.node,Block.stop] at *
    omega
  · have := h.bounds hb
    have := b.size_min
    simp only [Block.node,Block.stop] at *
    omega
  · by_cases hbc : b = c
    · subst hbc
      omega
    · have := h.apart hb hc hbc
      have := b.size_min
      have := c.size_min
      simp only [Block.Apart,Block.node,Block.stop] at *
      omega

theorem independent_nodes (h : Tiles L.heap bs (L.heap + MEM_HEAP_SIZE)) :
    Independent Memory (IsNode L bs) where
  next_setNext_self m a v _ := store_self ..
  next_setNext_ne m a b v ha hb hne := by
    refine store_of_ne ?_
    rw [add_node h ha,add_node h hb]
    omega
  next_setPrev m a b v ha hb := by
    refine store_of_ne ?_
    rw [add_node h hb]
    exact (node_ne_next h hb ha).symm
  prev_setPrev_self m a v _ := store_self ..
  prev_setPrev_ne m a b v _ _ hne := store_of_ne hne
  prev_setNext m a b v ha hb := by
    refine store_of_ne ?_
    rw [add_node h ha]
    exact node_ne_next h ha hb

/-- Tags are outside the words of the list nodes. -/
theorem tag_ne_node (h : Tiles L.heap bs (L.heap + MEM_HEAP_SIZE)) (hb : b ∈ bs) (hp : IsNode L bs p) :
    b.addr ≠ p ∧ b.addr ≠ p + 4 ∧ b.footer ≠ p ∧ b.footer ≠ p + 4 := by
  have hd := L.disjoint
  have := h.bounds hb
  have := b.size_min
  rcases hp with rfl | ⟨c,hc,rfl⟩
  · simp only [Block.footer,Block.stop] at *
    omega
  · by_cases hbc : b = c
    · subst hbc
      simp only [Block.footer,Block.node] at *
      omega
    · have := h.apart hb hc hbc
      have := c.size_min
      simp only [Block.Apart,Block.footer,Block.node,Block.stop] at *
      omega

theorem listAdd_of_ne {n x : ℕ} (hn : a ≠ n) (hx4 : a ≠ add x 4) (hp4 : a ≠ add p 4) (hx : a ≠ x) :
    listAdd m p n x a = m a := by
  have h1 : listAdd m p n x = store (store (store (store m n x) (add x 4) n) (add p 4) x) x p := rfl
  rw [h1,store_of_ne hx,store_of_ne hp4,store_of_ne hx4,store_of_ne hn]

end

namespace Represents
variable {L : Layout} {m : Memory} {bs free pre post l r : List Block} {b c : Block}

theorem stop_lt (h : Represents L m bs free) (hb : b ∈ bs) : b.stop < 2 ^ 32 := X1.Mem.stop_lt h.tiles hb

theorem free_nodup (h : Represents L m bs free) : free.Nodup := h.list.nodup_nodes.of_map _

theorem isNode (h : Represents L m bs free) :
    ∀ p ∈ L.freeList :: free.map Block.node, IsNode L bs p := by
  intro p hp
  rcases List.mem_cons.mp hp with rfl | hp
  · exact .inl rfl
  · obtain ⟨b,hb,rfl⟩ := List.mem_map.mp hp
    exact .inr ⟨b,((h.free_iff b).mp hb).1,rfl⟩

/-- Writing the tags of a block of the tiling leaves the free list alone. -/
theorem isList_setTags (h : Tiles L.heap bs (L.heap + MEM_HEAP_SIZE)) (hb : b ∈ bs) {nodes : List ℕ}
    (hn : ∀ p ∈ L.freeList :: nodes, IsNode L bs p) (hl : IsList m L.freeList nodes) :
    IsList (setTags m b) L.freeList nodes := by
  refine IsRing.congr hl (fun p hp => ?_) (fun p hp => ?_)
  · have := tag_ne_node h hb (hn p hp)
    change setTags m b (add p 4) = m (add p 4)
    rw [add_node h (hn p hp)]
    exact setTags_of_ne this.2.1.symm this.2.2.2.symm
  · have := tag_ne_node h hb (hn p hp)
    exact setTags_of_ne this.1.symm this.2.2.1.symm

theorem keeps_setTags {ds : List Block} (hb : ∃ d ∈ ds, d.addr ≤ b.addr ∧ b.stop ≤ d.stop) :
    Keeps (Owned L ds) m (setTags m b) := by
  obtain ⟨d,hd,h1,h2⟩ := hb
  have := b.size_min
  intro a ha
  have hnot : ¬(d.addr ≤ a ∧ a < d.stop) := fun hh => ha (.inr (.inr ⟨d,hd,hh⟩))
  refine setTags_of_ne ?_ ?_ <;> simp only [Block.footer,Block.stop] at * <;> omega

theorem tagged_setTags_all (h : Tiles L.heap (pre ++ b :: post) (L.heap + MEM_HEAP_SIZE))
    (ht : ∀ c ∈ pre ++ post, Tagged m c) : ∀ c ∈ pre ++ b :: post, Tagged (setTags m b) c := by
  intro c hc
  by_cases hbc : c = b
  · subst hbc
    exact tagged_setTags m c
  · exact (ht c ((mem_middle.mp hc).resolve_left hbc)).setTags_apart (h.apart (by simp) hc (Ne.symm hbc))

/-- A list operation on these blocks keeps every tag. -/
theorem tagged_of_keeps {m' : Memory} (h : Tiles L.heap bs (L.heap + MEM_HEAP_SIZE))
    (hfree : ∀ c ∈ free, c ∈ bs) (hk : Keeps (NodeWord L free) m m') (hb : b ∈ bs) (ht : Tagged m b) :
    Tagged m' b := by
  have hn : ∀ p ∈ L.freeList :: free.map Block.node, IsNode L bs p := by
    intro p hp
    rcases List.mem_cons.mp hp with rfl | hp
    · exact .inl rfl
    · obtain ⟨c,hc,rfl⟩ := List.mem_map.mp hp
      exact .inr ⟨c,hfree c hc,rfl⟩
  refine ht.congr (hk _ ?_) (hk _ ?_)
  · rintro ⟨p,hp,hpa⟩
    have := tag_ne_node h hb (hn p hp)
    tauto
  · rintro ⟨p,hp,hpa⟩
    have := tag_ne_node h hb (hn p hp)
    tauto

theorem keeps_listRemove (h : Represents L m bs (l ++ b :: r)) :
    Keeps (NodeWord L (l ++ b :: r)) m (listRemove m b.node) := by
  intro a ha
  have hn := h.isNode
  have hl := h.list
  have hpm : (l.map Block.node).getLastD L.freeList ∈ L.freeList :: (l ++ b :: r).map Block.node := by
    rw [List.map_append]
    exact getLastD_mem_append _ _ _
  have hqm : (r.map Block.node).headD L.freeList ∈ L.freeList :: (l ++ b :: r).map Block.node := by
    simpa using headD_mem_append L.freeList ((l ++ [b]).map Block.node) (r.map Block.node)
  have hp4 := add_node h.tiles (hn _ hpm)
  rw [List.map_append,List.map_cons] at hn hl
  rw [listRemove_eq (independent_nodes h.tiles) hn hl]
  change store (store m (add _ 4) _) _ _ _ = _
  rw [store_of_ne fun he => ha ⟨_,hqm,.inl he⟩,store_of_ne fun he => ha ⟨_,hpm,.inr (he.trans hp4)⟩]

theorem keeps_listInsertHead (h : Tiles L.heap bs (L.heap + MEM_HEAP_SIZE))
    (hl : IsList m L.freeList (free.map Block.node)) (hb : b ∈ bs) :
    Keeps (NodeWord L (b :: free)) m (listInsertHead m L.freeList b.node) := by
  intro a ha
  have hqm : (free.map Block.node).headD L.freeList ∈ L.freeList :: free.map Block.node :=
    headD_mem_cons _ _
  have hx : a ≠ b.node := fun he => ha ⟨_,by simp,.inl he⟩
  have hx4 : a ≠ add b.node 4 := by
    rw [add_node h (.inr ⟨b,hb,rfl⟩)]
    exact fun he => ha ⟨_,by simp,.inr he⟩
  have hp4 : a ≠ add L.freeList 4 := by
    rw [add_node h (.inl rfl)]
    exact fun he => ha ⟨_,by simp,.inr he⟩
  refine listAdd_of_ne ?_ hx4 hp4 hx
  rw [hl.next_head]
  refine fun he => ha ⟨_,?_,.inl he⟩
  simp only [List.map_cons,List.mem_cons] at hqm ⊢
  tauto

theorem isNode_of_free (h : ∀ c, c ∈ free ↔ c ∈ bs ∧ c.allocated = false) :
    ∀ p ∈ L.freeList :: free.map Block.node, IsNode L bs p := by
  intro p hp
  rcases List.mem_cons.mp hp with rfl | hp
  · exact .inl rfl
  · obtain ⟨b,hb,rfl⟩ := List.mem_map.mp hp
    exact .inr ⟨b,((h b).mp hb).1,rfl⟩

/-- Taking a block off the free list and marking it allocated. -/
theorem remove (h : Represents L m (pre ++ b :: post) (l ++ b :: r)) :
    ∃ m', memFreeListRemove m b.addr = some m' ∧
      Represents L m' (pre ++ b.mark true :: post) (l ++ r) ∧ Keeps (Owned L (l ++ b :: r)) m m' := by
  have hbm : b ∈ pre ++ b :: post := by simp
  have hfree : b.allocated = false := ((h.free_iff b).mp (by simp)).2
  have hlt := h.stop_lt hbm
  have hlist : IsList (listRemove m b.node) L.freeList ((l ++ r).map Block.node) := by
    have hn := h.isNode
    have hl := h.list
    rw [List.map_append,List.map_cons] at hn hl
    simpa using isList_listRemove (independent_nodes h.tiles) hn hl
  have hk := h.keeps_listRemove
  have htag : ∀ c ∈ pre ++ b :: post, Tagged (listRemove m b.node) c := fun c hc =>
    tagged_of_keeps h.tiles (fun d hd => ((h.free_iff d).mp hd).1) hk hc (h.tagged c hc)
  have ht := h.tiles.remark true
  have hfree' : ∀ c, c ∈ l ++ r ↔ c ∈ pre ++ b.mark true :: post ∧ c.allocated = false := by
    intro c
    have hnd := h.free_nodup
    have hnb := h.tiles.nodup
    have hiff := h.free_iff c
    rw [List.nodup_middle,List.nodup_cons] at hnd hnb
    rw [mem_middle,mem_middle] at hiff
    rw [mem_middle]
    constructor
    · intro hc
      obtain ⟨hcm,hca⟩ := hiff.mp (.inr hc)
      exact ⟨.inr (hcm.resolve_left fun he => hnd.1 (he ▸ hc)),hca⟩
    · rintro ⟨rfl | hc,hca⟩
      · simp at hca
      · exact (hiff.mpr ⟨.inr hc,hca⟩).resolve_left fun he => hnb.1 (he ▸ hc)
  refine ⟨setTags (listRemove m b.node) (b.mark true),?_,⟨ht,?_,?_,?_⟩,?_⟩
  · have ha := memBlockAllocated_eq (h.tagged b hbm).header
    simp [memFreeListRemove,memBlockGetFreeNode,guard,ha,hfree,memBlockPayload_eq hlt,
      memBlockSetAllocated_eq (htag b hbm) hlt]
  · exact tagged_setTags_all ht fun c hc => htag c (mem_middle.mpr (.inr hc))
  · exact isList_setTags ht (by simp) (isNode_of_free hfree') hlist
  · exact hfree'
  · exact (hk.mono owned_of_nodeWord).trans (keeps_setTags ⟨b,by simp,le_rfl,le_rfl⟩)

/-- Marking a block free and putting it at the head of the free list. -/
theorem add (h : Represents L m (pre ++ b :: post) free) (hb : b.allocated = true) :
    ∃ m', memFreeListAdd L m b.addr = some m' ∧
      Represents L m' (pre ++ b.mark false :: post) (b.mark false :: free) ∧
      Keeps (Owned L (b :: free)) m m' := by
  have hbm : b ∈ pre ++ b :: post := by simp
  have hlt := h.stop_lt hbm
  have ht := h.tiles.remark false
  have hfb : ∀ c ∈ free, c ∈ pre ++ b.mark false :: post := by
    intro c hc
    obtain ⟨hcm,hca⟩ := (h.free_iff c).mp hc
    have hcb : c ≠ b := by
      rintro rfl
      simp [hb] at hca
    exact mem_middle.mpr (.inr ((mem_middle.mp hcm).resolve_left hcb))
  have hn : ∀ p ∈ L.freeList :: free.map Block.node, IsNode L (pre ++ b.mark false :: post) p := by
    intro p hp
    rcases List.mem_cons.mp hp with rfl | hp
    · exact .inl rfl
    · obtain ⟨c,hc,rfl⟩ := List.mem_map.mp hp
      exact .inr ⟨c,hfb c hc,rfl⟩
  have htag : ∀ c ∈ pre ++ b.mark false :: post, Tagged (setTags m (b.mark false)) c :=
    tagged_setTags_all ht fun c hc => h.tagged c (mem_middle.mpr (.inr hc))
  have hl : IsList (setTags m (b.mark false)) L.freeList (free.map Block.node) :=
    isList_setTags ht (by simp) hn h.list
  have hk := keeps_listInsertHead ht hl (b := b.mark false) (by simp)
  have hnew : b.node ∉ L.freeList :: free.map Block.node := by
    intro hm
    rcases List.mem_cons.mp hm with he | hm
    · have := h.tiles.bounds hbm
      have := L.disjoint
      have := b.size_min
      simp only [Block.node,Block.stop] at *
      omega
    · obtain ⟨c,hc,hcb⟩ := List.mem_map.mp hm
      have hcm := (h.free_iff c).mp hc
      have : c = b := h.tiles.eq_of_addr hcm.1 hbm (by simp only [Block.node] at hcb; omega)
      simp [this,hb] at hcm
  refine ⟨listInsertHead (setTags m (b.mark false)) L.freeList b.node,?_,⟨ht,?_,?_,?_⟩,?_⟩
  · have ha := memBlockAllocated_eq (h.tagged b hbm).header
    have ha' : memBlockAllocated (setTags m (b.mark false)) b.addr = false :=
      memBlockAllocated_eq (tagged_setTags m (b.mark false)).header
    simp [memFreeListAdd,memBlockGetFreeNode,guard,ha,ha',hb,memBlockPayload_eq hlt,
      memBlockClearAllocated_eq (h.tagged b hbm) hlt]
  · intro c hc
    refine tagged_of_keeps ht ?_ hk hc (htag c hc)
    intro d hd
    rcases List.mem_cons.mp hd with rfl | hd
    · simp
    · exact hfb d hd
  · exact isList_listInsertHead (independent_nodes ht) hn (.inr ⟨b.mark false,by simp,rfl⟩) hl hnew
  · intro c
    constructor
    · intro hc
      rcases List.mem_cons.mp hc with rfl | hc
      · exact ⟨by simp,rfl⟩
      · exact ⟨hfb c hc,((h.free_iff c).mp hc).2⟩
    · rintro ⟨hc,hca⟩
      rcases mem_middle.mp hc with rfl | hc
      · exact List.mem_cons_self
      · exact List.mem_cons_of_mem _ ((h.free_iff c).mpr ⟨mem_middle.mpr (.inr hc),hca⟩)
  · have hk' := (hk.mono owned_of_nodeWord).mono owned_mark
    exact (keeps_setTags (b := b.mark false) ⟨b,by simp,le_rfl,le_rfl⟩).trans hk'

/-- Free blocks outlive a replacement of allocated blocks by allocated blocks. -/
theorem free_iff_replace (cs ds : List Block) (h : Represents L m (pre ++ cs ++ post) free)
    (hcs : ∀ c ∈ cs, c.allocated = true) (hds : ∀ d ∈ ds, d.allocated = true) (c : Block) :
    c ∈ free ↔ c ∈ pre ++ ds ++ post ∧ c.allocated = false := by
  have hiff := h.free_iff c
  have h1 := hcs c
  have h2 := hds c
  simp only [List.mem_append] at hiff ⊢
  cases hc : c.allocated <;> simp [hc] at * <;> tauto

/-- Cutting an allocated block in two. -/
theorem split (h : Represents L m (pre ++ b :: post) free) (hb : b.allocated = true) {size : ℕ}
    (hmin : 16 ≤ size) (hal : size % 4 = 0) (hfit : size + 16 ≤ b.size) :
    ∃ m', memBlockSplit m b.addr size = some (b.addr + size,m') ∧
      Represents L m' (pre ++ b.low size hmin hal :: b.high size hfit hal :: post) free ∧
      Keeps (Owned L [b]) m m' := by
  have hbm : b ∈ pre ++ b :: post := by simp
  have hlt := h.stop_lt hbm
  have ht := h.tiles.split hmin hal hfit
  have hiff := free_iff_replace [b] [b.low size hmin hal,b.high size hfit hal]
    (by simpa using h) (by simpa using hb) (by simp [Block.low,Block.high])
  simp only [List.append_assoc,List.cons_append,List.nil_append] at hiff
  have hn := isNode_of_free (L := L) hiff
  generalize hlo : b.low size hmin hal = lo at *
  generalize hhi : b.high size hfit hal = hi at *
  have hloa : lo.addr = b.addr ∧ lo.size = size ∧ lo.allocated = true := by
    subst hlo
    exact ⟨rfl,rfl,rfl⟩
  have hhia : hi.addr = b.addr + size ∧ hi.size = b.size - size ∧ hi.allocated = true := by
    subst hhi
    exact ⟨rfl,rfl,rfl⟩
  have hlos : lo.stop < 2 ^ 32 := X1.Mem.stop_lt ht (by simp)
  have hhis : hi.stop < 2 ^ 32 := X1.Mem.stop_lt ht (by simp)
  refine ⟨setTags (setTags m lo) hi,?_,⟨ht,?_,?_,hiff⟩,?_⟩
  · have hsz := memBlockSize_eq (h.tagged b hbm).header hlt
    have ha := memBlockAllocated_eq (h.tagged b hbm).header
    have hadd : Word.add size MEM_BLOCK_MIN_SIZE = size + 16 := by
      rw [blockMinSize_eq]
      exact add_of_lt (by simp only [Block.stop] at hlt; omega)
    have hal' : memAligned size = true := (p2Aligned_four size).mpr hal
    have h1 : memBlockInit m b.addr size = setTags m lo := by
      rw [← hloa.1,← hloa.2.1]
      exact memBlockInit_eq hlos hloa.2.2
    have hend : memBlockEnd (setTags m lo) b.addr = hi.addr := by
      rw [← hloa.1,memBlockEnd_eq (tagged_setTags m lo).header hlos,Block.stop,hloa.1,hloa.2.1,hhia.1]
    have hsub : sub b.size size = hi.size := by
      rw [hhia.2.1]
      exact sub_of_le (by omega) (by simp only [Block.stop] at hlt; omega)
    have h2 : memBlockInit (setTags m lo) hi.addr hi.size = setTags (setTags m lo) hi :=
      memBlockInit_eq hhis hhia.2.2
    rw [hhia.1] at h2 hend
    simp [memBlockSplit,guard,ha,hb,hal',hsz,hadd,show ¬b.size < size + 16 by omega,h1,h2,hend,hsub]
  · have h1 : ∀ c ∈ pre ++ lo :: post, Tagged (setTags m lo) c := by
      intro c hc
      by_cases hcl : c = lo
      · subst hcl
        exact tagged_setTags m c
      · have hrest : c ∈ pre ++ post := (mem_middle.mp hc).resolve_left hcl
        have hcm : c ∈ pre ++ lo :: hi :: post := mem_middle.mpr (.inr (mem_middle.mpr (.inr hrest)))
        exact (h.tagged c (mem_middle.mpr (.inr hrest))).setTags_apart
          (ht.apart (by simp) hcm (Ne.symm hcl))
    have ht' : Tiles L.heap ((pre ++ [lo]) ++ hi :: post) (L.heap + MEM_HEAP_SIZE) := by simpa using ht
    have := tagged_setTags_all ht' fun c hc => h1 c (by simpa using hc)
    simpa using this
  · exact isList_setTags ht (by simp) hn (isList_setTags ht (by simp) hn h.list)
  · refine (keeps_setTags ⟨b,by simp,?_,?_⟩).trans (keeps_setTags ⟨b,by simp,?_,?_⟩) <;>
      simp only [Block.stop,hloa,hhia] <;> omega

/-- Two allocated neighbours become one block when the tags of both are rewritten. -/
theorem joined (h : Represents L m (pre ++ b :: c :: post) free) (hb : b.allocated = true)
    (hc : c.allocated = true) :
    memBlockInit m b.addr (b.size + c.size) = setTags m (b.join c) ∧
      Represents L (setTags m (b.join c)) (pre ++ b.join c :: post) free ∧
      Keeps (Owned L [b,c]) m (setTags m (b.join c)) := by
  have ht := h.tiles.joined
  have hiff := free_iff_replace [b,c] [b.join c] (by simpa using h)
    (by simp [hb,hc]) (by simp [Block.join])
  simp only [List.append_assoc,List.cons_append,List.nil_append] at hiff
  have hnext := h.tiles.next_addr
  refine ⟨memBlockInit_eq (b := b.join c) (X1.Mem.stop_lt ht (by simp)) rfl,⟨ht,?_,?_,hiff⟩,?_⟩
  · exact tagged_setTags_all ht fun d hd => h.tagged d (mem_middle.mpr (.inr (mem_middle.mpr (.inr hd))))
  · exact isList_setTags ht (by simp) (isNode_of_free hiff) h.list
  · intro a ha
    have h1 : ¬(b.addr ≤ a ∧ a < b.stop) := fun hh => ha (.inr (.inr ⟨b,by simp,hh⟩))
    have h2 : ¬(c.addr ≤ a ∧ a < c.stop) := fun hh => ha (.inr (.inr ⟨c,by simp,hh⟩))
    have := b.size_min
    have := c.size_min
    refine setTags_of_ne ?_ ?_ <;> simp only [Block.footer,Block.join,Block.stop] at * <;> omega

end Represents
end X1.Mem

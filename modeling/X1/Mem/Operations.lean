import X1.Mem.Represents
import Mathlib.Data.List.Perm.Subperm

/-! # mem_alloc and mem_free on represented heaps

Each public operation is assembled from the four steps of `Represents`: the
search returns the first block of the free list that fits, a merge of two free
neighbours yields their join, and the two operations succeed with the block lists
the abstract heap prescribes.
-/
namespace X1.Mem
open X1.Word X1.Lib X1.Ring

/-- A tiling has room for at most one block in 16 bytes. -/
theorem Tiles.length_le {a e : ℕ} {bs : List Block} (h : Tiles a bs e) : a + 16 * bs.length ≤ e := by
  induction bs generalizing a with
  | nil => exact h.le
  | cons b bs ih =>
    obtain ⟨rfl,h⟩ := h
    have := ih h
    have := b.size_min
    simp only [Block.stop,List.length_cons] at *
    omega

theorem convert_spec (size : ℕ) :
    16 ≤ memConvertToBlockSize size ∧ memConvertToBlockSize size % 4 = 0 ∧
      memConvertToBlockSize size < 2 ^ 32 := by
  have hr : p2Round size MEM_ALIGN % 4 = 0 := by
    have h : neg 4 = 2 ^ 32 - 2 ^ 2 := by decide
    rw [p2Round,MEM_ALIGN,h,and_high_mask (show neg size < 2 ^ 32 from sub_lt 0 size) (by norm_num)]
    simp only [neg,sub]
    omega
  simp only [memConvertToBlockSize,blockMinSize_eq,Word.add]
  split <;> omega

/-- Requests that do not come near `2 ^ 32` are rounded up to 4 and get room for the tags. -/
theorem convert_eq {size : ℕ} (h : size ≤ 0xFFFFFFF4) :
    memConvertToBlockSize size = max 16 ((size + 3) / 4 * 4 + 8) := by
  simp only [memConvertToBlockSize,blockMinSize_eq,MEM_ALIGN,p2Round_four (show size < 2 ^ 32 by omega),
    Word.add]
  split <;> omega

namespace Represents
variable {L : Layout} {m : Memory} {bs free pre post : List Block} {b c : Block}

theorem free_length_le (h : Represents L m bs free) : free.length ≤ bs.length :=
  (List.subperm_of_subset h.free_nodup fun b hb => ((h.free_iff b).mp hb).1).length_le

/-- A walk along the free list has fuel for all of it. -/
theorem free_length_lt (h : Represents L m bs free) :
    free.length < MEM_HEAP_SIZE / MEM_BLOCK_MIN_SIZE + 1 := by
  have hlen := h.free_length_le
  have htiles := h.tiles.length_le
  have hfuel : MEM_HEAP_SIZE / MEM_BLOCK_MIN_SIZE = 2097152 := by
    rw [blockMinSize_eq,heapSize_eq]
  rw [heapSize_eq] at *
  omega

/-- A block of the free list is not its head, and the next one comes behind it. -/
theorem free_visit (h : Represents L m bs free) {l r : List Block} (hs : free = l ++ b :: r) :
    b ∈ bs ∧ ¬L.freeList = b.node ∧ LinkStore.next m b.node = (r.map Block.node).headD L.freeList := by
  have hl := h.list
  rw [hs,List.map_append,List.map_cons] at hl
  exact ⟨((h.free_iff b).mp (by simp [hs])).1,fun he => hl.head_not_mem (by simp [he]),hl.next_node⟩

theorem find_from (h : Represents L m bs free) (size fuel : ℕ) {l r : List Block} (hs : free = l ++ r)
    (hf : r.length < fuel) :
    memFreeListFindFrom L m size fuel ((r.map Block.node).headD L.freeList) =
      some (((r.find? fun b => size ≤ b.size).map Block.addr).getD 0) := by
  induction r generalizing l fuel with
  | nil =>
    obtain ⟨fuel,rfl⟩ : ∃ k, fuel = k + 1 := ⟨fuel - 1,by omega⟩
    simp [memFreeListFindFrom,listEnd]
  | cons b r ih =>
    obtain ⟨fuel,rfl⟩ : ∃ k, fuel = k + 1 := ⟨fuel - 1,by simp at hf; omega⟩
    obtain ⟨hbm,hend,hnext⟩ := h.free_visit hs
    have hlt := h.stop_lt hbm
    simp only [List.map_cons,List.headD_cons,memFreeListFindFrom,listEnd,hend,decide_false,
      Bool.false_eq_true,↓reduceIte,memBlockFromPayload_eq hlt,
        memBlockSize_eq (h.tagged b hbm).header hlt]
    by_cases hfit : size ≤ b.size
    · simp [hfit]
    · rw [if_neg hfit,List.find?_cons_of_neg (by simpa using hfit),hnext]
      exact ih fuel (l := l ++ [b]) (by simp [hs]) (by simp at hf; omega)

theorem find (h : Represents L m bs free) (size : ℕ) :
    memFreeListFind L m size = some (((free.find? fun b => size ≤ b.size).map Block.addr).getD 0) := by
  rw [memFreeListFind,listFirst,h.list.next_head]
  exact h.find_from size _ (l := []) rfl h.free_length_lt

theorem remove_erase (h : Represents L m (pre ++ b :: post) free) (hb : b ∈ free) :
    ∃ m', memFreeListRemove m b.addr = some m' ∧
      Represents L m' (pre ++ b.mark true :: post) (free.erase b) ∧ Keeps (Owned L free) m m' := by
  obtain ⟨l,r,rfl⟩ := List.append_of_mem hb
  have hnd := h.free_nodup
  have hbl : b ∉ l := by
    rw [List.nodup_middle,List.nodup_cons] at hnd
    simp_all
  rw [List.erase_append_right _ hbl,List.erase_cons_head]
  exact h.remove

theorem owned_join {ds : List Block} (hb : b ∈ ds) (hc : c ∈ ds) (hnext : c.addr = b.stop)
    {fs : List Block} (hfs : ∀ d ∈ fs, d ∈ ds) (a : ℕ) (h : Owned L (b.join c :: fs) a) :
    Owned L ds a := by
  refine h.mono fun d hd hin => ?_
  rcases List.mem_cons.mp hd with rfl | hd
  · by_cases ha : a < b.stop
    · exact ⟨b,hb,hin.1,ha⟩
    · refine ⟨c,hc,?_⟩
      simp only [Block.join,Block.stop] at *
      omega
  · exact ⟨d,hfs d hd,hin⟩

/-- The end of a merge: both blocks are off the list, the joined block goes on it. -/
theorem merge_tail (h : Represents L m (pre ++ b :: c :: post) free) (hb : b.allocated = true)
    (hc : c.allocated = true) :
    ∃ m', memFreeListAdd L (memBlockInit m b.addr (b.size + c.size)) b.addr = some m' ∧
      Represents L m' (pre ++ (b.join c).mark false :: post) ((b.join c).mark false :: free) ∧
      Keeps (Owned L (b :: c :: free)) m m' := by
  obtain ⟨hinit,hj,hk⟩ := h.joined hb hc
  obtain ⟨m',hadd,hr,hk'⟩ := hj.add rfl
  refine ⟨m',by rw [hinit]; exact hadd,hr,?_⟩
  refine (hk.mono fun a ha => ?_).trans (hk'.mono
    (owned_join (by simp) (by simp) h.tiles.next_addr (by simp +contextual)))
  exact ha.mono fun d hd hin => ⟨d,by simp at hd ⊢; tauto,hin⟩

theorem not_overlap (h : Represents L m bs free) (hb : b ∈ bs) (hc : c ∈ bs) (hne : b ≠ c) :
    memBlockOverlap m b.addr c.addr = false := by
  have := h.tiles.apart hb hc hne
  have := b.size_min
  have := c.size_min
  simp only [memBlockOverlap,memBlockInside,memBlockEnd_eq (h.tagged b hb).header (h.stop_lt hb),
    memBlockEnd_eq (h.tagged c hc).header (h.stop_lt hc),Block.Apart,Block.stop] at *
  simp only [Bool.or_eq_false_iff,Bool.and_eq_false_iff,decide_eq_false_iff_not]
  omega

/-- A merge with an allocated neighbour does nothing. -/
theorem merge_allocated (h : Represents L m bs free) (hb : b ∈ bs) (hc : c ∈ bs) (hne : b ≠ c)
    (ha : b.allocated = true ∨ c.allocated = true) : memBlockMerge L m b.addr c.addr = some (0,m) := by
  have hba := memBlockAllocated_eq (h.tagged b hb).header
  have hca := memBlockAllocated_eq (h.tagged c hc).header
  simp only [memBlockMerge,h.not_overlap hb hc hne,hba,hca,guard]
  rcases ha with ha | ha <;> simp [ha]

/-- A merge of two free neighbours, the block first named `x` and the other `y`: whichever order the
two are taken off the list in, their join goes on it. -/
theorem merge_of_removed {m1 m2 : Memory} {x y : Block} {fs : List Block}
    (h : Represents L m (pre ++ b :: c :: post) free) (hb : b.allocated = false)
    (hc : c.allocated = false) (hxy : x = b ∧ y = c ∨ x = c ∧ y = b)
    (h1 : memFreeListRemove m x.addr = some m1) (h2 : memFreeListRemove m1 y.addr = some m2)
    (hr : Represents L m2 (pre ++ b.mark true :: c.mark true :: post) fs) (hfs : ∀ d ∈ fs, d ∈ free)
    (hk : Keeps (Owned L free) m m2) :
    ∃ m', memBlockMerge L m x.addr y.addr = some (b.addr,m') ∧
    Represents L m' (pre ++ (b.join c).mark false :: post) ((b.join c).mark false :: fs) ∧
    Keeps (Owned L free) m m' := by
  have hbm : b ∈ pre ++ b :: c :: post := by simp
  have hcm : c ∈ pre ++ b :: c :: post := by simp
  have hnext := h.tiles.next_addr
  have hbs := b.size_min
  have hne : b ≠ c := by
    rintro rfl
    simp only [Block.stop] at hnext
    omega
  have hxm : x ∈ pre ++ b :: c :: post := by rcases hxy with ⟨rfl,-⟩ | ⟨rfl,-⟩ <;> assumption
  have hym : y ∈ pre ++ b :: c :: post := by rcases hxy with ⟨-,rfl⟩ | ⟨-,rfl⟩ <;> assumption
  have hxy' : x ≠ y := by
    rcases hxy with ⟨rfl,rfl⟩ | ⟨rfl,rfl⟩
    · exact hne
    · exact hne.symm
  have hxa : memBlockAllocated m x.addr = false := by
    rw [memBlockAllocated_eq (h.tagged x hxm).header]
    rcases hxy with ⟨rfl,-⟩ | ⟨rfl,-⟩ <;> assumption
  have hya : memBlockAllocated m y.addr = false := by
    rw [memBlockAllocated_eq (h.tagged y hym).header]
    rcases hxy with ⟨-,rfl⟩ | ⟨-,rfl⟩ <;> assumption
  have hsb : memBlockSize m2 b.addr = b.size :=
    memBlockSize_eq (b := b.mark true) (hr.tagged _ (by simp)).header (hr.stop_lt (by simp))
  have hsc : memBlockSize m2 c.addr = c.size :=
    memBlockSize_eq (b := c.mark true) (hr.tagged _ (by simp)).header (hr.stop_lt (by simp))
  have hsum : Word.add (memBlockSize m2 x.addr) (memBlockSize m2 y.addr) = b.size + c.size := by
    have hcs := h.stop_lt hcm
    rcases hxy with ⟨rfl,rfl⟩ | ⟨rfl,rfl⟩ <;> rw [hsb,hsc,add_of_lt] <;>
      simp only [Block.stop] at * <;> omega
  have hlow : (if x.addr > y.addr then y.addr else x.addr) = b.addr := by
    rcases hxy with ⟨rfl,rfl⟩ | ⟨rfl,rfl⟩ <;> simp only [Block.stop] at hnext <;> split <;> omega
  obtain ⟨m3,h3,hr3,hk3⟩ := hr.merge_tail rfl rfl
  refine ⟨m3,?_,hr3,hk.trans (hk3.mono fun a ha => ?_)⟩
  · simp only [Block.mark_addr,Block.mark_size] at h3
    simp only [memBlockMerge,h.not_overlap hxm hym hxy',hxa,hya,guard,hlow]
    simp [h1,h2,hsum,h3]
  · refine ha.mono fun d hd hin => ?_
    simp only [List.mem_cons] at hd
    rcases hd with rfl | rfl | hd
    · exact ⟨b,(h.free_iff b).mpr ⟨hbm,hb⟩,hin⟩
    · exact ⟨c,(h.free_iff c).mpr ⟨hcm,hc⟩,hin⟩
    · exact ⟨d,hfs d hd,hin⟩

/-- A merge of two free neighbours, in either order. -/
theorem merge {x y : Block} (h : Represents L m (pre ++ b :: c :: post) free) (hb : b.allocated = false)
    (hc : c.allocated = false) (hxy : x = b ∧ y = c ∨ x = c ∧ y = b) :
    ∃ m', memBlockMerge L m x.addr y.addr = some (b.addr,m') ∧
      Represents L m' (pre ++ (b.join c).mark false :: post)
        ((b.join c).mark false :: (free.erase b).erase c) ∧ Keeps (Owned L free) m m' := by
  have hbf := (h.free_iff b).mpr ⟨by simp,hb⟩
  have hcf := (h.free_iff c).mpr ⟨by simp,hc⟩
  have hne : b ≠ c := by
    rintro rfl
    have := h.tiles.next_addr
    have := b.size_min
    simp only [Block.stop] at *
    omega
  have hsub : ∀ d ∈ (free.erase b).erase c, d ∈ free := fun d hd =>
    List.mem_of_mem_erase (List.mem_of_mem_erase hd)
  have hown : ∀ d a, Owned L (free.erase d) a → Owned L free a := fun d a ha =>
    ha.mono fun e he hin => ⟨e,List.mem_of_mem_erase he,hin⟩
  have hc' : Represents L m ((pre ++ [b]) ++ c :: post) free := by simpa using h
  rcases hxy with ⟨rfl,rfl⟩ | ⟨rfl,rfl⟩
  · obtain ⟨m1,h1,hr1,hk1⟩ := h.remove_erase hbf
    have hr1' : Represents L m1 ((pre ++ [x.mark true]) ++ y :: post) (free.erase x) := by
      simpa using hr1
    obtain ⟨m2,h2,hr2,hk2⟩ := hr1'.remove_erase ((List.mem_erase_of_ne hne.symm).mpr hcf)
    exact h.merge_of_removed hb hc (.inl ⟨rfl,rfl⟩) h1 h2 (by simpa using hr2) hsub
      (hk1.trans (hk2.mono (hown _)))
  · obtain ⟨m1,h1,hr1,hk1⟩ := hc'.remove_erase hcf
    have hr1' : Represents L m1 (pre ++ y :: x.mark true :: post) (free.erase x) := by simpa using hr1
    obtain ⟨m2,h2,hr2,hk2⟩ := hr1'.remove_erase ((List.mem_erase_of_ne hne).mpr hbf)
    rw [List.erase_comm] at hr2
    exact h.merge_of_removed hb hc (.inr ⟨rfl,rfl⟩) h1 h2 hr2 hsub (hk1.trans (hk2.mono (hown _)))

theorem memBlockPrev_first (h : Represents L m (b :: post) free) : memBlockPrev L m b.addr = 0 := by
  rw [memBlockPrev,if_pos h.tiles.1]

theorem memBlockPrev_of (h : Represents L m (pre ++ b :: c :: post) free) :
    memBlockPrev L m c.addr = b.addr := by
  have hbm : b ∈ pre ++ b :: c :: post := by simp
  have hcm : c ∈ pre ++ b :: c :: post := by simp
  have hnext := h.tiles.next_addr
  have hbnd := h.tiles.bounds hbm
  have hmin := b.size_min
  have hlt := h.stop_lt hcm
  have hfoot : sub (memBlockHeaderBtag c.addr) 4 = b.footer := by
    rw [memBlockHeaderBtag,sub_of_le] <;> simp only [Block.footer,Block.stop] at * <;> omega
  rw [memBlockPrev,if_neg (by simp only [Block.stop] at *; omega),hfoot,
    memBtagSize_footer (h.tagged b hbm).footer (h.stop_lt hbm),sub_of_le]
  all_goals simp only [Block.stop] at *; omega

theorem memHeapEnd_eq (L : Layout) : memHeapEnd L = L.heap + MEM_HEAP_SIZE := add_of_lt L.heap_fits

theorem memBlockNext_last (h : Represents L m (pre ++ [b]) free) : memBlockNext L m b.addr = 0 := by
  have hbm : b ∈ pre ++ [b] := by simp
  obtain ⟨k,-,-,hstop⟩ := tiles_append.mp h.tiles
  rw [memBlockNext,memBlockEnd_eq (h.tagged b hbm).header (h.stop_lt hbm),if_pos]
  rw [memHeapEnd_eq]
  exact hstop

theorem memBlockNext_of (h : Represents L m (pre ++ b :: c :: post) free) :
    memBlockNext L m b.addr = c.addr := by
  have hbm : b ∈ pre ++ b :: c :: post := by simp
  have hcm : c ∈ pre ++ b :: c :: post := by simp
  have hnext := h.tiles.next_addr
  have hbnd := h.tiles.bounds hcm
  have hmin := c.size_min
  rw [memBlockNext,memBlockEnd_eq (h.tagged b hbm).header (h.stop_lt hbm),if_neg,hnext]
  rw [memHeapEnd_eq]
  simp only [Block.stop] at *
  omega

theorem addr_pos (h : Represents L m bs free) (hb : b ∈ bs) : b.addr ≠ 0 := by
  have := (h.tiles.bounds hb).1
  have := L.heap_pos
  omega

end Represents

/-- Coalescing with the block below: the blocks before, the block, and the rest of the free list. -/
def mergePrev (pre : List Block) (b : Block) (free : List Block) : List Block × Block × List Block :=
  match pre.getLast? with
  | none => (pre,b,free)
  | some p => if p.allocated then (pre,b,free)
    else (pre.dropLast,(p.join b).mark false,free.erase p)

/-- Coalescing with the block above: the block, the blocks after, and the rest of the free list. -/
def mergeNext (b : Block) (post free : List Block) : Block × List Block × List Block :=
  match post with
  | [] => (b,[],free)
  | n :: rest => if n.allocated then (b,n :: rest,free)
    else ((b.join n).mark false,rest,free.erase n)

/-- The blocks and the free list after the block `b` is released. -/
def release (pre : List Block) (b : Block) (post free : List Block) : List Block × List Block :=
  let lower := mergePrev pre (b.mark false) free
  let upper := mergeNext lower.2.1 post lower.2.2
  (lower.1 ++ upper.1 :: upper.2.1,upper.1 :: upper.2.2)

namespace Represents
variable {L : Layout} {m : Memory} {bs free pre post : List Block} {b c : Block}

/-- The first half of the coalescing in `mem_free`. -/
theorem coalesce_prev (h : Represents L m (pre ++ b :: post) (b :: free)) :
    ∃ m', memFreeMergePrev L m b.addr = some ((mergePrev pre b free).2.1.addr,m') ∧
      Represents L m' ((mergePrev pre b free).1 ++ (mergePrev pre b free).2.1 :: post)
        ((mergePrev pre b free).2.1 :: (mergePrev pre b free).2.2) ∧
      Keeps (Owned L (b :: free)) m m' := by
  have hbf : b.allocated = false := ((h.free_iff b).mp (by simp)).2
  rcases List.eq_nil_or_concat' pre with rfl | ⟨pre,p,rfl⟩
  · refine ⟨m,?_,by simpa [mergePrev] using h,fun _ _ => rfl⟩
    simp [memFreeMergePrev,memBlockPrev_first h,mergePrev]
  · rw [List.append_assoc,List.singleton_append] at h
    have hpm : p ∈ pre ++ p :: b :: post := by simp
    have hpb : p ≠ b := by
      have := h.tiles.nodup
      rw [List.nodup_append'] at this
      rintro rfl
      simp at this
    simp only [memFreeMergePrev,memBlockPrev_of h,ne_eq,h.addr_pos hpm,not_false_eq_true,↓reduceIte]
    cases hp : p.allocated with
    | true =>
      refine ⟨m,?_,by simpa [mergePrev,hp] using h,fun _ _ => rfl⟩
      rw [h.merge_allocated (by simp) hpm hpb.symm (.inr hp)]
      simp [mergePrev,hp]
    | false =>
      obtain ⟨m',hmerge,hr,hk⟩ := h.merge hp hbf (.inr ⟨rfl,rfl⟩)
      rw [List.erase_cons_tail (by simpa using hpb.symm),List.erase_cons_head] at hr
      refine ⟨m',?_,by simpa [mergePrev,hp] using hr,hk⟩
      rw [hmerge]
      simp [mergePrev,hp,h.addr_pos hpm,Block.join]

/-- The second half. -/
theorem coalesce_next (h : Represents L m (pre ++ b :: post) (b :: free)) :
    ∃ m', memFreeMergeNext L m b.addr = some m' ∧
      Represents L m' (pre ++ (mergeNext b post free).1 :: (mergeNext b post free).2.1)
        ((mergeNext b post free).1 :: (mergeNext b post free).2.2) ∧
      Keeps (Owned L (b :: free)) m m' := by
  have hbf : b.allocated = false := ((h.free_iff b).mp (by simp)).2
  cases post with
  | nil =>
    refine ⟨m,?_,by simpa [mergeNext] using h,fun _ _ => rfl⟩
    simp [memFreeMergeNext,memBlockNext_last h]
  | cons n post =>
    have hnm : n ∈ pre ++ b :: n :: post := by simp
    have hnb : n ≠ b := by
      have := h.tiles.nodup
      rw [List.nodup_append'] at this
      rintro rfl
      simp at this
    simp only [memFreeMergeNext,memBlockNext_of h,ne_eq,h.addr_pos hnm,not_false_eq_true,↓reduceIte]
    cases hn : n.allocated with
    | true =>
      refine ⟨m,?_,by simpa [mergeNext,hn] using h,fun _ _ => rfl⟩
      rw [h.merge_allocated (by simp) hnm hnb.symm (.inr hn)]
      simp
    | false =>
      obtain ⟨m',hmerge,hr,hk⟩ := h.merge hbf hn (.inl ⟨rfl,rfl⟩)
      rw [List.erase_cons_head] at hr
      refine ⟨m',?_,by simpa [mergeNext,hn] using hr,hk⟩
      rw [hmerge]
      simp

theorem alloc_fail (h : Represents L m bs free) (size : ℕ) (hs : size ≠ 0)
    (hf : free.find? (fun b => memConvertToBlockSize size ≤ b.size) = none) :
    memAlloc L m size = some (0,m) := by
  simp [memAlloc,hs,h.find,hf]

theorem node_aligned (h : Represents L m bs free) (hb : b ∈ bs) : memAligned b.node = true := by
  refine (p2Aligned_four _).mpr ?_
  have := h.tiles.aligned L.heap_aligned hb
  simp only [Block.node]
  omega

/-- The first free block that is large enough is cut, and the remainder goes to the head of the list. -/
theorem alloc_split (h : Represents L m (pre ++ b :: post) free) (size : ℕ) (hs : size ≠ 0)
    (hf : free.find? (fun b => memConvertToBlockSize size ≤ b.size) = some b)
    (hfit : memConvertToBlockSize size + 16 ≤ b.size) :
    ∃ m', memAlloc L m size = some (b.node,m') ∧
      Represents L m'
        (pre ++ b.low _ (convert_spec size).1 (convert_spec size).2.1 ::
          (b.high _ hfit (convert_spec size).2.1).mark false :: post)
        ((b.high _ hfit (convert_spec size).2.1).mark false :: free.erase b) ∧
      Keeps (Owned L free) m m' := by
  have hbm : b ∈ pre ++ b :: post := by simp
  have hbf : b ∈ free := List.mem_of_find?_eq_some hf
  obtain ⟨m1,h1,hr1,hk1⟩ := h.remove_erase hbf
  obtain ⟨m2,h2,hr2,hk2⟩ := hr1.split rfl (convert_spec size).1 (convert_spec size).2.1 hfit
  have hr2' : Represents L m2 ((pre ++ [b.low _ (convert_spec size).1 (convert_spec size).2.1]) ++
      b.high _ hfit (convert_spec size).2.1 :: post) (free.erase b) := by
    rw [List.append_assoc]
    exact hr2
  obtain ⟨m3,h3,hr3,hk3⟩ := hr2'.add rfl
  refine ⟨m3,?_,by simpa using hr3,?_⟩
  · simp only [Block.high] at h3
    simp only [Block.mark_addr] at h2
    simp [memAlloc,hs,h.find,hf,h.addr_pos hbm,h1,h2,h3,guard,h.node_aligned hbm,
      memBlockPayload_eq (h.stop_lt hbm)]
  · have hown : ∀ ds : List Block, (∀ d ∈ ds, d ∈ free ∨ b.addr ≤ d.addr ∧ d.stop ≤ b.stop) →
        ∀ a, Owned L ds a → Owned L free a := by
      intro ds hds a ha
      refine ha.mono fun d hd hin => ?_
      rcases hds d hd with hd | hd
      · exact ⟨d,hd,hin⟩
      · exact ⟨b,hbf,by omega⟩
    refine (hk1.trans (hk2.mono (hown _ ?_))).trans (hk3.mono (hown _ ?_))
    · simp
    · intro d hd
      rcases List.mem_cons.mp hd with rfl | hd
      · right
        simp only [Block.high,Block.stop]
        omega
      · exact .inl (List.mem_of_mem_erase hd)

/-- The first free block that is large enough is too small to cut and is handed out whole. -/
theorem alloc_whole (h : Represents L m (pre ++ b :: post) free) (size : ℕ) (hs : size ≠ 0)
    (hf : free.find? (fun b => memConvertToBlockSize size ≤ b.size) = some b)
    (hfit : ¬memConvertToBlockSize size + 16 ≤ b.size) :
    ∃ m', memAlloc L m size = some (b.node,m') ∧
      Represents L m' (pre ++ b.mark true :: post) (free.erase b) ∧ Keeps (Owned L free) m m' := by
  have hbm : b ∈ pre ++ b :: post := by simp
  have hbf : b ∈ free := List.mem_of_find?_eq_some hf
  have hle : memConvertToBlockSize size ≤ b.size := by simpa using List.find?_some hf
  obtain ⟨m1,h1,hr1,hk1⟩ := h.remove_erase hbf
  refine ⟨m1,?_,hr1,hk1⟩
  have htag := hr1.tagged (b.mark true) (by simp)
  have hsz : memBlockSize m1 b.addr = b.size :=
    memBlockSize_eq (b := b.mark true) htag.header (hr1.stop_lt (by simp))
  have hal : memAligned (memConvertToBlockSize size) = true :=
    (p2Aligned_four _).mpr (convert_spec size).2.1
  have ha : memBlockAllocated m1 b.addr = true := memBlockAllocated_eq htag.header
  have hadd : Word.add (memConvertToBlockSize size) MEM_BLOCK_MIN_SIZE =
      memConvertToBlockSize size + 16 := by
    rw [blockMinSize_eq]
    have := (h.tiles.bounds hbm)
    have := L.heap_fits
    have := L.heap_pos
    refine add_of_lt ?_
    rw [heapSize_eq] at *
    simp only [Block.stop] at *
    omega
  have hsplit : memBlockSplit m1 b.addr (memConvertToBlockSize size) = some (0,m1) := by
    simp [memBlockSplit,guard,ha,hal,hsz,hadd,show b.size < memConvertToBlockSize size + 16 by omega]
  simp [memAlloc,hs,h.find,hf,h.addr_pos hbm,h1,hsplit,guard,h.node_aligned hbm,
    memBlockPayload_eq (h.stop_lt hbm)]

theorem owned_mergePrev (h : Represents L m (pre ++ b :: post) (b :: free)) (a : ℕ)
    (ha : Owned L ((mergePrev pre b free).2.1 :: (mergePrev pre b free).2.2) a) :
    Owned L (b :: free) a := by
  rcases List.eq_nil_or_concat' pre with rfl | ⟨pre,p,rfl⟩
  · simpa [mergePrev] using ha
  · rw [List.append_assoc,List.singleton_append] at h
    cases hp : p.allocated with
    | true => simpa [mergePrev,hp] using ha
    | false =>
      have hpf := (h.free_iff p).mpr ⟨by simp,hp⟩
      have ha' : Owned L (p.join b :: free.erase p) a := by simpa [mergePrev,hp,Owned] using ha
      exact owned_join hpf (List.mem_cons_self ..) h.tiles.next_addr
        (fun d hd => List.mem_cons_of_mem _ (List.mem_of_mem_erase hd)) a ha'

/-- `mem_free` of an allocated block coalesces it with its free neighbours and puts the result at the
head of the free list. -/
theorem free_spec (h : Represents L m (pre ++ b :: post) free) (hb : b.allocated = true) :
    ∃ m', memFree L m b.node = some m' ∧
      Represents L m' (release pre b post free).1 (release pre b post free).2 ∧
      Keeps (Owned L (b :: free)) m m' := by
  have hbm : b ∈ pre ++ b :: post := by simp
  have hlt := h.stop_lt hbm
  have hmin := b.size_min
  have hbnd := h.tiles.bounds hbm
  obtain ⟨m1,h1,hr1,hk1⟩ := h.add hb
  obtain ⟨m2,h2,hr2,hk2⟩ := hr1.coalesce_prev
  obtain ⟨m3,h3,hr3,hk3⟩ := hr2.coalesce_next
  refine ⟨m3,?_,hr3,?_⟩
  · have hal := h.node_aligned hbm
    have hin : memBlockInsideHeap L m b.addr = true := by
      simp only [memBlockInsideHeap,memBlockEnd_eq (h.tagged b hbm).header hlt,memHeapEnd_eq,
        memBlockPayload_eq hlt,Bool.and_eq_true,decide_eq_true_iff]
      simp only [Block.node,Block.stop] at *
      omega
    simp only [Block.mark_addr] at h2
    rw [memFree,if_neg (by simp only [Block.node]; omega)]
    simp [memBlockFromPayload_eq hlt,hal,hin,h1,h2,h3,guard]
  · exact (hk1.trans (hk2.mono owned_mark)).trans
      (hk3.mono fun a ha => owned_mark a (owned_mergePrev hr1 a ha))

end Represents
end X1.Mem

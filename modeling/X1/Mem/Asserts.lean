import X1.Mem.Contract

/-! # The assertions of mem.c

The assertions that a call executes, in their order, each with the memory it is executed
in. An operation of the model returns if and only if all of them hold, and in `mem_alloc` the
walk through the free list ends. The flags of the blocks change in the middle of the
operations, so that an assertion is about the memory of its moment, not that of the call.
-/
namespace X1.Mem
open X1.Word X1.Lib

/-- The assertions, by the function they stand in. -/
inductive Check where
  | getFreeNode (block : ℕ)
  | freeListAdd (block : ℕ)
  | freeListRemove (block : ℕ)
  | splitAllocated (block : ℕ)
  | splitAligned (size : ℕ)
  | merge (block1 block2 : ℕ)
  | allocAligned (ptr : ℕ)
  | freeAligned (ptr : ℕ)
  | freeInside (block : ℕ)

def Check.holds (L : Layout) (m : Memory) : Check → Bool
  | getFreeNode block => !memBlockAllocated m block
  | freeListAdd block => memBlockAllocated m block
  | freeListRemove block => !memBlockAllocated m block
  | splitAllocated block => memBlockAllocated m block
  | splitAligned size => memAligned size
  | merge block1 block2 => !memBlockOverlap m block1 block2
  | allocAligned ptr => memAligned ptr
  | freeAligned ptr => memAligned ptr
  | freeInside block => memBlockInsideHeap L m block

/-- The assertions of what follows an operation, which may not return. -/
def followed {α : Type} (r : Option α) (f : α → List (Check × Memory)) : List (Check × Memory) :=
  match r with
  | none => []
  | some a => f a

def memFreeListAddChecks (m : Memory) (block : ℕ) : List (Check × Memory) :=
  [(.freeListAdd block,m),(.getFreeNode block,memBlockClearAllocated m block)]

def memFreeListRemoveChecks (m : Memory) (block : ℕ) : List (Check × Memory) :=
  [(.freeListRemove block,m),(.getFreeNode block,m)]

def memBlockSplitChecks (m : Memory) (block size : ℕ) : List (Check × Memory) :=
  [(.splitAllocated block,m),(.splitAligned size,m)]

def memBlockMergeChecks (m : Memory) (block1 block2 : ℕ) : List (Check × Memory) :=
  (.merge block1 block2,m) ::
    if memBlockAllocated m block1 || memBlockAllocated m block2 then []
    else
      memFreeListRemoveChecks m block1 ++ followed (memFreeListRemove m block1) fun m =>
      memFreeListRemoveChecks m block2 ++ followed (memFreeListRemove m block2) fun m =>
      let size := add (memBlockSize m block1) (memBlockSize m block2)
      let block1 := if block1 > block2 then block2 else block1
      memFreeListAddChecks (memBlockInit m block1 size) block1

def memSetupChecks (L : Layout) (m : Memory) : List (Check × Memory) :=
  memFreeListAddChecks (memFreeListInit L (memBlockInit m L.heap MEM_HEAP_SIZE)) L.heap

def memAllocChecks (L : Layout) (m : Memory) (size : ℕ) : List (Check × Memory) :=
  if size = 0 then []
  else
    let size := memConvertToBlockSize size
    followed (memFreeListFind L m size) fun block =>
    if block = 0 then []
    else
      memFreeListRemoveChecks m block ++ followed (memFreeListRemove m block) fun m =>
      memBlockSplitChecks m block size ++ followed (memBlockSplit m block size) fun (block2,m) =>
      (if block2 ≠ 0 then memFreeListAddChecks m block2 else []) ++
      followed (if block2 ≠ 0 then memFreeListAdd L m block2 else some m) fun m =>
      [(.allocAligned (memBlockPayload block),m)]

def memFreeMergePrevChecks (L : Layout) (m : Memory) (block : ℕ) : List (Check × Memory) :=
  let tmp := memBlockPrev L m block
  if tmp ≠ 0 then memBlockMergeChecks m block tmp else []

def memFreeMergeNextChecks (L : Layout) (m : Memory) (block : ℕ) : List (Check × Memory) :=
  let tmp := memBlockNext L m block
  if tmp ≠ 0 then memBlockMergeChecks m block tmp else []

def memFreeChecks (L : Layout) (m : Memory) (ptr : ℕ) : List (Check × Memory) :=
  if ptr = 0 then []
  else
    let block := memBlockFromPayload ptr
    (.freeAligned ptr,m) :: (.freeInside block,m) ::
      (memFreeListAddChecks m block ++ followed (memFreeListAdd L m block) fun m =>
      memFreeMergePrevChecks L m block ++ followed (memFreeMergePrev L m block) fun (block,m) =>
      memFreeMergeNextChecks L m block)

/-- All the assertions of a list hold. -/
def Pass (L : Layout) (cs : List (Check × Memory)) : Prop := ∀ c ∈ cs, c.1.holds L c.2 = true

section
variable {L : Layout} {m : Memory}

@[simp] theorem pass_nil : Pass L [] := by simp [Pass]

@[simp] theorem pass_cons {c : Check × Memory} {cs : List (Check × Memory)} :
    Pass L (c :: cs) ↔ c.1.holds L c.2 = true ∧ Pass L cs := by
  simp [Pass]

@[simp] theorem pass_append {cs ds : List (Check × Memory)} :
    Pass L (cs ++ ds) ↔ Pass L cs ∧ Pass L ds := by
  simp [Pass,or_imp,forall_and]

theorem isSome_guard {α : Type} {p : Prop} [Decidable p] {r : Option α} :
    (guard p >>= fun _ => r).isSome = true ↔ p ∧ r.isSome = true := by
  by_cases hp : p
  · simp [hp]
  · simp [hp]

/-- Two operations, one after the other. -/
theorem isSome_bind {α β : Type} {r : Option α} {f : α → Option β} {cs : List (Check × Memory)}
    {g : α → List (Check × Memory)} (hr : r.isSome = true ↔ Pass L cs)
    (hf : ∀ a, r = some a → ((f a).isSome = true ↔ Pass L (g a))) :
    (r >>= f).isSome = true ↔ Pass L (cs ++ followed r g) := by
  rw [pass_append,← hr]
  cases hra : r with
  | none => simp
  | some a => simpa [followed] using hf a hra

/-- What is computed from a result asserts nothing. -/
theorem isSome_bind_return {α β : Type} (r : Option α) (f : α → β) :
    (r >>= fun a => some (f a)).isSome = r.isSome := by
  cases r <;> rfl

theorem memFreeListAdd_isSome (block : ℕ) :
    (memFreeListAdd L m block).isSome = true ↔ Pass L (memFreeListAddChecks m block) := by
  simp only [memFreeListAdd,memBlockGetFreeNode,bind_assoc,pure_bind]
  rw [isSome_guard,isSome_guard]
  simp [memFreeListAddChecks,Check.holds]

theorem memFreeListRemove_isSome (block : ℕ) :
    (memFreeListRemove m block).isSome = true ↔ Pass L (memFreeListRemoveChecks m block) := by
  simp only [memFreeListRemove,memBlockGetFreeNode,bind_assoc,pure_bind]
  rw [isSome_guard,isSome_guard]
  simp [memFreeListRemoveChecks,Check.holds]

theorem memBlockSplit_isSome (block size : ℕ) :
    (memBlockSplit m block size).isSome = true ↔ Pass L (memBlockSplitChecks m block size) := by
  simp only [memBlockSplit]
  rw [isSome_guard,isSome_guard]
  have hret : (if memBlockSize m block < add size MEM_BLOCK_MIN_SIZE then some (0,m)
      else some (memBlockEnd (memBlockInit m block size) block,
        memBlockInit (memBlockInit m block size) (memBlockEnd (memBlockInit m block size) block)
          (sub (memBlockSize m block) size))).isSome = true := by
    split <;> rfl
  simp only [memBlockSplitChecks,pass_cons,pass_nil,Check.holds,and_true]
  exact and_congr_right fun _ => and_iff_left hret

theorem memBlockMerge_isSome (block1 block2 : ℕ) :
    (memBlockMerge L m block1 block2).isSome = true ↔ Pass L (memBlockMergeChecks m block1 block2) := by
  simp only [memBlockMerge,memBlockMergeChecks,pass_cons]
  rw [isSome_guard]
  refine and_congr_right fun _ => ?_
  split
  · simp
  · refine isSome_bind (memFreeListRemove_isSome block1) fun m₁ _ => ?_
    refine isSome_bind (memFreeListRemove_isSome block2) fun m₂ _ => ?_
    rw [← memFreeListAdd_isSome]
    exact Bool.eq_iff_iff.mp (isSome_bind_return _ _)

theorem memSetup_isSome : (memSetup L m).isSome = true ↔ Pass L (memSetupChecks L m) :=
  memFreeListAdd_isSome L.heap

/-- `mem_alloc` returns if and only if its walk through the free list ends and its assertions hold. -/
theorem memAlloc_isSome (size : ℕ) :
    (memAlloc L m size).isSome = true ↔
    (size = 0 ∨ (memFreeListFind L m (memConvertToBlockSize size)).isSome = true) ∧
    Pass L (memAllocChecks L m size) := by
  unfold memAlloc memAllocChecks
  by_cases hs : size = 0
  · simp [hs]
  · rw [if_neg hs,if_neg hs]
    dsimp only
    cases hf : memFreeListFind L m (memConvertToBlockSize size) with
    | none => simp [hs]
    | some block =>
      have hwalk : size = 0 ∨ (some block).isSome = true := .inr rfl
      rw [and_iff_right hwalk]
      change (if block = 0 then _ else _ : Option (ℕ × Memory)).isSome = true ↔
        Pass L (if block = 0 then _ else _)
      by_cases hb : block = 0
      · simp [hb]
      · rw [if_neg hb,if_neg hb]
        refine isSome_bind (memFreeListRemove_isSome block) fun m₁ _ => ?_
        refine isSome_bind (memBlockSplit_isSome block _) fun r _ => ?_
        have hend : ∀ m₂ : Memory, (guard (memAligned (memBlockPayload block) = true) >>= fun _ =>
            some (memBlockPayload block,m₂)).isSome = true ↔
              Pass L [(.allocAligned (memBlockPayload block),m₂)] := by
          intro m₂
          rw [isSome_guard]
          simp [Check.holds]
        by_cases hr : r.1 ≠ 0
        · simp only [if_pos hr]
          exact isSome_bind (memFreeListAdd_isSome r.1) fun m₂ _ => hend m₂
        · simp only [if_neg hr]
          exact hend r.2

theorem memFreeMergePrev_isSome (block : ℕ) :
    (memFreeMergePrev L m block).isSome = true ↔ Pass L (memFreeMergePrevChecks L m block) := by
  unfold memFreeMergePrev memFreeMergePrevChecks
  by_cases ht : memBlockPrev L m block ≠ 0
  · simp only [if_pos ht]
    rw [← memBlockMerge_isSome]
    exact Bool.eq_iff_iff.mp (isSome_bind_return _ _)
  · simp [ht]

theorem memFreeMergeNext_isSome (block : ℕ) :
    (memFreeMergeNext L m block).isSome = true ↔ Pass L (memFreeMergeNextChecks L m block) := by
  unfold memFreeMergeNext memFreeMergeNextChecks
  by_cases ht : memBlockNext L m block ≠ 0
  · simp only [if_pos ht]
    rw [← memBlockMerge_isSome]
    exact Bool.eq_iff_iff.mp (isSome_bind_return _ _)
  · simp [ht]

theorem memFree_isSome (ptr : ℕ) : (memFree L m ptr).isSome = true ↔ Pass L (memFreeChecks L m ptr) := by
  unfold memFree memFreeChecks
  by_cases hp : ptr = 0
  · simp [hp]
  · simp only [if_neg hp,pass_cons]
    rw [isSome_guard,isSome_guard]
    refine and_congr Iff.rfl (and_congr Iff.rfl ?_)
    refine isSome_bind (memFreeListAdd_isSome _) fun m₁ _ => ?_
    exact isSome_bind (memFreeMergePrev_isSome _) fun r _ => memFreeMergeNext_isSome r.1

end

/-- Every assertion executed by `mem_setup`, and in every state of every run by `mem_alloc` and by
`mem_free` of NULL or a live pointer, holds at its moment, and the calls return. -/
theorem asserts_hold (L : Layout) :
    (∀ m, (memSetup L m).isSome = true ∧ Pass L (memSetupChecks L m)) ∧
    ∀ s, Reachable L s →
      (∀ size, size < 2 ^ 32 → (memAlloc L s.mem size).isSome = true ∧ Pass L (memAllocChecks L s.mem size)) ∧
      ∀ ptr, ptr = 0 ∨ ptr ∈ s.live → (memFree L s.mem ptr).isSome = true ∧ Pass L (memFreeChecks L s.mem ptr) := by
  refine ⟨fun m => ?_,fun s h => ?_⟩
  · obtain ⟨m',hm',-⟩ := setup_spec L m
    have hsome : (memSetup L m).isSome = true := by rw [hm']; rfl
    exact ⟨hsome,memSetup_isSome.mp hsome⟩
  · obtain ⟨bs,free,hs⟩ := h.sound
    refine ⟨fun size _ => ?_,fun ptr hp => ?_⟩
    · obtain ⟨ptr,m',h1,-⟩ := hs.alloc size
      have hsome : (memAlloc L s.mem size).isSome = true := by rw [h1]; rfl
      exact ⟨hsome,((memAlloc_isSome size).mp hsome).2⟩
    · have hsome : (memFree L s.mem ptr).isSome = true := by
        rcases hp with rfl | hp
        · rfl
        · obtain ⟨m',h1,-⟩ := hs.release hp
          rw [h1]
          rfl
      exact ⟨hsome,(memFree_isSome ptr).mp hsome⟩

theorem asserts_hold_sample : ∃ s, Reachable sampleLayout s ∧ s.live = [0x200070,0x200004] ∧
    Pass sampleLayout (memAllocChecks sampleLayout s.mem 100) ∧
    Pass sampleLayout (memFreeChecks sampleLayout s.mem 0x200004) := by
  obtain ⟨s,hs,hl⟩ := sample_run
  obtain ⟨halloc,hfree⟩ := (asserts_hold sampleLayout).2 s hs
  exact ⟨s,hs,hl,(halloc 100 (by norm_num)).2,(hfree 0x200004 (.inr (by simp [hl]))).2⟩

end X1.Mem

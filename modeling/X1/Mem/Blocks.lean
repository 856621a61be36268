import X1.Mem.Model

/-! # Blocks that tile an interval

The abstract heap: a list of blocks in address order, each starting where the
previous one ends. A block carries its size constraints, so a block that could
not hold two tags and a free list node cannot be written down.
-/
namespace X1.Mem

@[ext] structure Block where
  addr : ℕ
  size : ℕ
  allocated : Bool
  size_min : 16 ≤ size
  size_aligned : size % 4 = 0
  deriving DecidableEq

namespace Block

def stop (b : Block) : ℕ := b.addr + b.size

def footer (b : Block) : ℕ := b.addr + b.size - 4

/-- The address of the free list node in the payload. -/
def node (b : Block) : ℕ := b.addr + 4

/-- The boundary tag: the size with the allocation flag in its lowest bit. -/
def tag (b : Block) : ℕ := b.size + b.allocated.toNat

def mark (b : Block) (allocated : Bool) : Block := { b with allocated := allocated }

@[simp] theorem mark_addr (b : Block) (f : Bool) : (b.mark f).addr = b.addr := rfl
@[simp] theorem mark_size (b : Block) (f : Bool) : (b.mark f).size = b.size := rfl
@[simp] theorem mark_allocated (b : Block) (f : Bool) : (b.mark f).allocated = f := rfl
@[simp] theorem mark_footer (b : Block) (f : Bool) : (b.mark f).footer = b.footer := rfl
@[simp] theorem mark_stop (b : Block) (f : Bool) : (b.mark f).stop = b.stop := rfl
@[simp] theorem mark_node (b : Block) (f : Bool) : (b.mark f).node = b.node := rfl

/-- The low part of an allocated block cut at `size`. -/
def low (b : Block) (size : ℕ) (h : 16 ≤ size) (ha : size % 4 = 0) : Block := ⟨b.addr,size,true,h,ha⟩

def high (b : Block) (size : ℕ) (h : size + 16 ≤ b.size) (ha : size % 4 = 0) : Block :=
  ⟨b.addr + size,b.size - size,true,by omega,by have := b.size_aligned; omega⟩

/-- Two blocks seen as one allocated block. -/
def join (b c : Block) : Block :=
  ⟨b.addr,b.size + c.size,true,by have := b.size_min; omega,
    by have := b.size_aligned; have := c.size_aligned; omega⟩

def Apart (b c : Block) : Prop := b.stop ≤ c.addr ∨ c.stop ≤ b.addr

instance : Std.Symm Apart := ⟨fun _ _ h => Or.symm h⟩

theorem node_ne_zero (b : Block) : b.node ≠ 0 := Nat.succ_ne_zero _

end Block

theorem mem_middle {pre post : List Block} {b c : Block} :
    c ∈ pre ++ b :: post ↔ c = b ∨ c ∈ pre ++ post := by
  rw [List.perm_middle.mem_iff,List.mem_cons]

/-- The blocks follow each other from `a` to `e` without gap or overlap. -/
def Tiles : ℕ → List Block → ℕ → Prop
  | a, [], e => a = e
  | a, b :: bs, e => b.addr = a ∧ Tiles b.stop bs e

theorem tiles_append {a e : ℕ} {bs cs : List Block} :
    Tiles a (bs ++ cs) e ↔ ∃ k, Tiles a bs k ∧ Tiles k cs e := by
  induction bs generalizing a with
  | nil => simp [Tiles]
  | cons b bs ih => simp [Tiles,ih,and_assoc]

namespace Tiles

variable {a e : ℕ} {bs pre post : List Block} {b c : Block}

theorem le (h : Tiles a bs e) : a ≤ e := by
  induction bs generalizing a with
  | nil => exact h.le
  | cons b bs ih =>
    have := ih h.2
    have := h.1
    simp only [Block.stop] at *
    omega

theorem bounds (h : Tiles a bs e) (hb : b ∈ bs) : a ≤ b.addr ∧ b.stop ≤ e := by
  induction bs generalizing a with
  | nil => simp at hb
  | cons c bs ih =>
    obtain ⟨rfl,h⟩ := h
    rcases List.mem_cons.mp hb with rfl | hb
    · exact ⟨le_rfl,h.le⟩
    · have := ih h hb
      simp only [Block.stop] at *
      omega

theorem aligned (h : Tiles a bs e) (ha : a % 4 = 0) (hb : b ∈ bs) : b.addr % 4 = 0 := by
  induction bs generalizing a with
  | nil => simp at hb
  | cons c bs ih =>
    obtain ⟨rfl,h⟩ := h
    rcases List.mem_cons.mp hb with rfl | hb
    · exact ha
    · exact ih h (by have := c.size_aligned; simp only [Block.stop]; omega) hb

theorem pairwise (h : Tiles a bs e) : bs.Pairwise (fun b c => b.stop ≤ c.addr) := by
  induction bs generalizing a with
  | nil => exact .nil
  | cons c bs ih => exact List.pairwise_cons.mpr ⟨fun d hd => (h.2.bounds hd).1,ih h.2⟩

theorem nodup (h : Tiles a bs e) : bs.Nodup :=
  h.pairwise.imp fun {b c} hbc he => by
    subst he
    have := b.size_min
    simp only [Block.stop] at hbc
    omega

theorem apart (h : Tiles a bs e) (hb : b ∈ bs) (hc : c ∈ bs) (hne : b ≠ c) : b.Apart c := by
  have hp : bs.Pairwise Block.Apart := h.pairwise.imp Or.inl
  exact hp.forall hb hc hne

theorem eq_of_addr (h : Tiles a bs e) (hb : b ∈ bs) (hc : c ∈ bs) (he : b.addr = c.addr) : b = c := by
  by_contra hne
  have := h.apart hb hc hne
  have := b.size_min
  have := c.size_min
  simp only [Block.Apart,Block.stop] at *
  omega

/-- Replacing one block by blocks over the same interval. -/
theorem replace (h : Tiles a (pre ++ b :: post) e) {cs : List Block} (hc : Tiles b.addr cs b.stop) :
    Tiles a (pre ++ cs ++ post) e := by
  obtain ⟨k,hpre,rfl,hpost⟩ := tiles_append.mp h
  rw [List.append_assoc]
  exact tiles_append.mpr ⟨_,hpre,tiles_append.mpr ⟨_,hc,hpost⟩⟩

theorem remark (h : Tiles a (pre ++ b :: post) e) (f : Bool) : Tiles a (pre ++ b.mark f :: post) e := by
  have : Tiles b.addr [b.mark f] b.stop := ⟨rfl,rfl⟩
  simpa using h.replace this

theorem split (h : Tiles a (pre ++ b :: post) e) {size : ℕ} (hmin : 16 ≤ size) (hal : size % 4 = 0)
    (hfit : size + 16 ≤ b.size) :
    Tiles a (pre ++ b.low size hmin hal :: b.high size hfit hal :: post) e := by
  have : Tiles b.addr [b.low size hmin hal,b.high size hfit hal] b.stop :=
    ⟨rfl,rfl,by simp only [Tiles,Block.stop,Block.high]; omega⟩
  simpa using h.replace this

theorem joined (h : Tiles a (pre ++ b :: c :: post) e) : Tiles a (pre ++ b.join c :: post) e := by
  obtain ⟨k,hpre,rfl,hc,hpost⟩ := tiles_append.mp h
  refine tiles_append.mpr ⟨_,hpre,rfl,?_⟩
  rwa [show (b.join c).stop = c.stop by simp only [Block.stop,Block.join] at *; omega]

/-- In the middle of a tiling the next block starts where this one stops. -/
theorem next_addr (h : Tiles a (pre ++ b :: c :: post) e) : c.addr = b.stop := by
  obtain ⟨_,-,-,hc,-⟩ := tiles_append.mp h
  exact hc

end Tiles
end X1.Mem

import X1.Base.Ring

/-! # The doubly linked lists of lib/list.h

The functions of the header are written once over any store that holds a `prev`
and a `next` link for each node: the raw words of the heap, or a table of
records. A raw store lets the two words of one node overlap another node's, so
the ring lemmas ask for a set of nodes on which the four accesses are independent.
-/
namespace X1.Lib
open X1.Ring

/-- The two links of `struct list`, wherever they are stored. -/
class LinkStore (σ : Type*) (N : outParam Type*) where
  next : σ → N → N
  prev : σ → N → N
  setNext : σ → N → N → σ
  setPrev : σ → N → N → σ

open LinkStore

variable {σ N : Type*} [LinkStore σ N]

def listInit (s : σ) (list : N) : σ := setNext (setPrev s list list) list list

def listFirst (s : σ) (list : N) : N := next s list

def listNext (s : σ) (node : N) : N := next s node

def listEnd [DecidableEq N] (list node : N) : Bool := list = node

def listEmpty [DecidableEq N] (s : σ) (list : N) : Bool := list = next s list

def listAdd (s : σ) (prv nxt node : N) : σ :=
  let s := setPrev s nxt node
  let s := setNext s node nxt
  let s := setNext s prv node
  setPrev s node prv

def listInsertHead (s : σ) (list node : N) : σ := listAdd s list (next s list) node

def listInsertTail (s : σ) (list node : N) : σ := listAdd s (prev s list) list node

def listInsertBefore (s : σ) (nxt node : N) : σ := listAdd s (prev s nxt) nxt node

def listRemove (s : σ) (node : N) : σ :=
  let s := setNext s (prev s node) (next s node)
  setPrev s (next s node) (prev s node)

/-- On these nodes a write to one link changes that link and no other. -/
structure Independent (σ : Type*) {N : Type*} [LinkStore σ N] (S : N → Prop) : Prop where
  next_setNext_self : ∀ (s : σ) a v, S a → next (setNext s a v) a = v
  next_setNext_ne : ∀ (s : σ) a b v, S a → S b → b ≠ a → next (setNext s a v) b = next s b
  next_setPrev : ∀ (s : σ) a b v, S a → S b → next (setPrev s a v) b = next s b
  prev_setPrev_self : ∀ (s : σ) a v, S a → prev (setPrev s a v) a = v
  prev_setPrev_ne : ∀ (s : σ) a b v, S a → S b → b ≠ a → prev (setPrev s a v) b = prev s b
  prev_setNext : ∀ (s : σ) a b v, S a → S b → prev (setNext s a v) b = prev s b

/-- The ring of the list headed by `list`, with the given nodes. -/
def IsList (s : σ) (list : N) (nodes : List N) : Prop := IsRing (next s) (prev s) list nodes

variable {S : N → Prop} {s : σ} {p n x b list : N} {nodes l r : List N}

theorem next_listAdd (hS : Independent σ S) (hp : S p) (hn : S n) (hx : S x) (hb : S b) (hpx : p ≠ x) :
    (b = p → next (listAdd s p n x) b = x) ∧ (b = x → next (listAdd s p n x) b = n) ∧
      (b ≠ p → b ≠ x → next (listAdd s p n x) b = next s b) := by
  unfold listAdd
  refine ⟨?_,?_,?_⟩
  · rintro rfl
    rw [hS.next_setPrev _ _ _ _ hx hb,hS.next_setNext_self _ _ _ hb]
  · rintro rfl
    rw [hS.next_setPrev _ _ _ _ hx hb,hS.next_setNext_ne _ _ _ _ hp hb hpx.symm,
      hS.next_setNext_self _ _ _ hb]
  · intro hbp hbx
    rw [hS.next_setPrev _ _ _ _ hx hb,hS.next_setNext_ne _ _ _ _ hp hb hbp,
      hS.next_setNext_ne _ _ _ _ hx hb hbx,hS.next_setPrev _ _ _ _ hn hb]

theorem prev_listAdd (hS : Independent σ S) (hp : S p) (hn : S n) (hx : S x) (hb : S b) (hnx : n ≠ x) :
    (b = n → prev (listAdd s p n x) b = x) ∧ (b = x → prev (listAdd s p n x) b = p) ∧
      (b ≠ n → b ≠ x → prev (listAdd s p n x) b = prev s b) := by
  unfold listAdd
  refine ⟨?_,?_,?_⟩
  · rintro rfl
    rw [hS.prev_setPrev_ne _ _ _ _ hx hb hnx,hS.prev_setNext _ _ _ _ hp hb,
      hS.prev_setNext _ _ _ _ hx hb,hS.prev_setPrev_self _ _ _ hb]
  · rintro rfl
    rw [hS.prev_setPrev_self _ _ _ hb]
  · intro hbn hbx
    rw [hS.prev_setPrev_ne _ _ _ _ hx hb hbx,hS.prev_setNext _ _ _ _ hp hb,
      hS.prev_setNext _ _ _ _ hx hb,hS.prev_setPrev_ne _ _ _ _ hn hb hbn]

/-- `list_add` between the last node of `l` and the first node of `r`. -/
theorem isList_listAdd (hS : Independent σ S) (hm : ∀ a ∈ list :: (l ++ r), S a) (hx : S x)
    (h : IsList s list (l ++ r)) (hxm : x ∉ list :: (l ++ r)) :
    IsList (listAdd s (l.getLastD list) (r.headD list) x) list (l ++ x :: r) := by
  have hpm : l.getLastD list ∈ list :: (l ++ r) := getLastD_mem_append list l r
  have hnm : r.headD list ∈ list :: (l ++ r) := headD_mem_append list l r
  have hpx : l.getLastD list ≠ x := fun he => hxm (he ▸ hpm)
  have hnx : r.headD list ≠ x := fun he => hxm (he ▸ hnm)
  have hnext := fun {b} hb => next_listAdd (s := s) (b := b) hS (hm _ hpm) (hm _ hnm) hx hb hpx
  have hprev := fun {b} hb => prev_listAdd (s := s) (b := b) hS (hm _ hpm) (hm _ hnm) hx hb hnx
  refine IsRing.insert h hxm ((hnext (hm _ hpm)).1 rfl) ((hnext hx).2.1 rfl) ((hprev hx).2.1 rfl)
    ((hprev (hm _ hnm)).1 rfl) (fun a ha hne => ?_) (fun a ha hne => ?_)
  · exact (hnext (hm a ha)).2.2 hne fun he => hxm (he ▸ ha)
  · exact (hprev (hm a ha)).2.2 hne fun he => hxm (he ▸ ha)

theorem isList_listInsertHead (hS : Independent σ S) (hm : ∀ a ∈ list :: nodes, S a) (hx : S x)
    (h : IsList s list nodes) (hxm : x ∉ list :: nodes) :
    IsList (listInsertHead s list x) list (x :: nodes) := by
  have := isList_listAdd (l := []) (r := nodes) hS hm hx h hxm
  rwa [List.nil_append,← h.next_head] at this

theorem isList_listInsertTail (hS : Independent σ S) (hm : ∀ a ∈ list :: nodes, S a) (hx : S x)
    (h : IsList s list nodes) (hxm : x ∉ list :: nodes) :
    IsList (listInsertTail s list x) list (nodes ++ [x]) := by
  have := isList_listAdd (l := nodes) (r := []) hS (by simpa using hm) hx (by simpa using h)
    (by simpa using hxm)
  rwa [← h.prev_head] at this

theorem isList_listInsertBefore (hS : Independent σ S) (hm : ∀ a ∈ list :: (l ++ r), S a) (hx : S x)
    (h : IsList s list (l ++ r)) (hxm : x ∉ list :: (l ++ r)) :
    IsList (listInsertBefore s (r.headD list) x) list (l ++ x :: r) := by
  have := isList_listAdd hS hm hx h hxm
  rwa [← h.prev_first] at this

theorem listRemove_eq (hS : Independent σ S) (hm : ∀ a ∈ list :: (l ++ x :: r), S a)
    (h : IsList s list (l ++ x :: r)) :
    listRemove s x =
      setPrev (setNext s (l.getLastD list) (r.headD list)) (r.headD list) (l.getLastD list) := by
  have hxs : S x := hm x (by simp)
  have hpm : l.getLastD list ∈ list :: (l ++ x :: r) := getLastD_mem_append list l (x :: r)
  have hpx : x ≠ l.getLastD list := by
    intro he
    have := getLastD_not_mem h.nodup
    rw [← he] at this
    simp at this
  unfold listRemove
  rw [h.prev_node,h.next_node]
  simp only
  rw [hS.next_setNext_ne _ _ _ _ (hm _ hpm) hxs hpx,hS.prev_setNext _ _ _ _ (hm _ hpm) hxs,
    h.prev_node,h.next_node]

theorem isList_listRemove (hS : Independent σ S) (hm : ∀ a ∈ list :: (l ++ x :: r), S a)
    (h : IsList s list (l ++ x :: r)) : IsList (listRemove s x) list (l ++ r) := by
  have hpm : l.getLastD list ∈ list :: (l ++ r) := getLastD_mem_append list l r
  have hnm : r.headD list ∈ list :: (l ++ r) := headD_mem_append list l r
  have hsub : ∀ {a : N}, a ∈ list :: (l ++ r) → S a := by
    intro a ha
    refine hm a ?_
    simp only [List.mem_cons,List.mem_append] at ha ⊢
    tauto
  rw [listRemove_eq hS hm h]
  refine IsRing.remove h ?_ ?_ (fun a ha hne => ?_) (fun a ha hne => ?_)
  · rw [hS.next_setPrev _ _ _ _ (hsub hnm) (hsub hpm),hS.next_setNext_self _ _ _ (hsub hpm)]
  · rw [hS.prev_setPrev_self _ _ _ (hsub hnm)]
  · rw [hS.next_setPrev _ _ _ _ (hsub hnm) (hsub ha),hS.next_setNext_ne _ _ _ _ (hsub hpm) (hsub ha) hne]
  · rw [hS.prev_setPrev_ne _ _ _ _ (hsub hnm) (hsub ha) hne,hS.prev_setNext _ _ _ _ (hsub hpm) (hsub ha)]

/-- A list that shares no node with the list being edited is left alone. -/
theorem isList_listInsertTail_frame {other : N} {others : List N} (hS : Independent σ S)
    (hm : ∀ a ∈ list :: nodes, S a) (ho : ∀ a ∈ other :: others, S a) (hx : S x)
    (h : IsList s list nodes) (h' : IsList s other others)
    (hd : ∀ a ∈ other :: others, a ∉ list :: nodes) (hxm : x ∉ list :: nodes)
    (hxo : x ∉ other :: others) : IsList (listInsertTail s list x) other others := by
  have hlast : nodes.getLastD list ∈ list :: nodes := getLastD_mem_cons list nodes
  unfold listInsertTail
  rw [h.prev_head]
  refine IsRing.congr h' (fun a ha => ?_) (fun a ha => ?_)
  · exact (next_listAdd hS (hm _ hlast) (hm list (by simp)) hx (ho a ha) fun he => hxm (he ▸ hlast)).2.2
      (fun he => hd a ha (he ▸ hlast)) (fun he => hxo (he ▸ ha))
  · exact (prev_listAdd hS (hm _ hlast) (hm list (by simp)) hx (ho a ha) fun he => hxm
      (by simp [he])).2.2
      (fun he => hd a ha (by simp [he])) (fun he => hxo (he ▸ ha))

theorem isList_listRemove_frame {other : N} {others : List N} (hS : Independent σ S)
    (hm : ∀ a ∈ list :: (l ++ x :: r), S a) (ho : ∀ a ∈ other :: others, S a)
    (h : IsList s list (l ++ x :: r)) (h' : IsList s other others)
    (hd : ∀ a ∈ other :: others, a ∉ list :: (l ++ x :: r)) : IsList (listRemove s x) other others := by
  have hpm : l.getLastD list ∈ list :: (l ++ x :: r) := getLastD_mem_append list l (x :: r)
  have hnm : r.headD list ∈ list :: (l ++ x :: r) := by
    simpa using headD_mem_append list (l ++ [x]) r
  rw [listRemove_eq hS hm h]
  refine IsRing.congr h' (fun a ha => ?_) (fun a ha => ?_)
  · rw [hS.next_setPrev _ _ _ _ (hm _ hnm) (ho a ha),
      hS.next_setNext_ne _ _ _ _ (hm _ hpm) (ho a ha) fun he => hd a ha (he ▸ hpm)]
  · rw [hS.prev_setPrev_ne _ _ _ _ (hm _ hnm) (ho a ha) fun he => hd a ha (he ▸ hnm),
      hS.prev_setNext _ _ _ _ (hm _ hpm) (ho a ha)]

theorem isList_listInit_frame {other : N} {others : List N} (hS : Independent σ S) (hm : S list)
    (ho : ∀ a ∈ other :: others, S a) (h : IsList s other others) (hl : list ∉ other :: others) :
    IsList (listInit s list) other others := by
  refine IsRing.congr h (fun a ha => ?_) (fun a ha => ?_)
  · unfold listInit
    rw [hS.next_setNext_ne _ _ _ _ hm (ho a ha) fun he => hl (he ▸ ha),
      hS.next_setPrev _ _ _ _ hm (ho a ha)]
  · unfold listInit
    rw [hS.prev_setNext _ _ _ _ hm (ho a ha),hS.prev_setPrev_ne _ _ _ _ hm (ho a ha) fun he => hl
      (he ▸ ha)]

theorem isList_listInit (hS : Independent σ S) (hm : S list) : IsList (listInit s list) list [] := by
  refine ⟨by simp,?_,?_⟩
  · simpa [listInit] using hS.next_setNext_self _ _ _ hm
  · intro a ha
    obtain rfl : a = list := by simpa using ha
    unfold listInit
    rw [hS.next_setNext_self _ _ _ hm,hS.prev_setNext _ _ _ _ hm hm,hS.prev_setPrev_self _ _ _ hm]

theorem listEmpty_iff [DecidableEq N] (h : IsList s list nodes) :
    listEmpty s list = true ↔ nodes = [] := by
  rw [listEmpty,decide_eq_true_iff,eq_comm]
  exact h.eq_nil_iff

/-! ## Links kept in records -/

/-- A table of `struct list` records, one for each node. -/
structure Links (N : Type*) where
  nextOf : N → N
  prevOf : N → N

instance [DecidableEq N] : LinkStore (Links N) N where
  next s := s.nextOf
  prev s := s.prevOf
  setNext s a v := { s with nextOf := Function.update s.nextOf a v }
  setPrev s a v := { s with prevOf := Function.update s.prevOf a v }

/-- Records never overlap. -/
theorem independent_links [DecidableEq N] : Independent (Links N) (fun _ : N => True) where
  next_setNext_self s a v _ := by simp [next,setNext]
  next_setNext_ne s a b v _ _ h := by simp [next,setNext,h]
  next_setPrev s a b v _ _ := rfl
  prev_setPrev_self s a v _ := by simp [prev,setPrev]
  prev_setPrev_ne s a b v _ _ h := by simp [prev,setPrev,h]
  prev_setNext s a b v _ _ := rfl

end X1.Lib

import Mathlib.Data.List.Chain
import Mathlib.Data.List.Nodup
import Mathlib.Tactic.Tauto

/-! # Circular doubly linked lists

A ring is a head node and the nodes met by following `next` from it until the
head comes back, with `prev` undoing `next` all the way round. Nothing is said
of where the links are stored: the two link functions may be read off records or
off raw memory words. Insertion and removal are stated for any new pair of link
functions that differs from the old one only where the edit says.
-/
namespace X1.Ring

variable {N : Type*} {next prev next' prev' : N → N} {head : N}

/-- The nodes of the ring at `head`, in `next` order. -/
structure IsRing (next prev : N → N) (head : N) (xs : List N) : Prop where
  nodup : (head :: xs).Nodup
  chain : (head :: (xs ++ [head])).IsChain (fun a b => next a = b)
  back : ∀ a ∈ head :: xs, prev (next a) = a

theorem isChain_congr {f g : N → N} {l : List N} (h : l.IsChain (fun a b => f a = b))
    (hfg : ∀ a ∈ l.dropLast, g a = f a) : l.IsChain (fun a b => g a = b) := by
  induction l with
  | nil => exact .nil
  | cons a l ih =>
    cases l with
    | nil => exact .singleton _
    | cons b l =>
      rw [List.isChain_cons_cons] at h ⊢
      refine ⟨(hfg a (by simp)).trans h.1,ih h.2 fun c hc => hfg c ?_⟩
      rw [List.dropLast_cons_cons]
      exact List.mem_cons_of_mem _ hc

theorem getLastD_mem_cons (a : N) (l : List N) : l.getLastD a ∈ a :: l := by
  induction l generalizing a with
  | nil => simp
  | cons b l ih =>
    rw [List.getLastD_cons]
    exact List.mem_cons_of_mem _ (ih b)

theorem headD_mem_cons (a : N) (l : List N) : l.headD a ∈ a :: l := by cases l <;> simp

theorem getLastD_mem_append (a : N) (l r : List N) : l.getLastD a ∈ a :: (l ++ r) :=
  List.mem_append_left r (getLastD_mem_cons a l)

theorem headD_mem_append (a : N) (l r : List N) : r.headD a ∈ a :: (l ++ r) := by
  rcases List.mem_cons.mp (headD_mem_cons a r) with h | h
  · rw [h]
    exact List.mem_cons_self
  · exact List.mem_cons_of_mem a (List.mem_append_right l h)

/-- The chain of a ring cut at any place: the two halves and the link between them. -/
theorem chain_cut {l r : List N} :
    (head :: ((l ++ r) ++ [head])).IsChain (fun a b => next a = b) ↔
      (head :: l).IsChain (fun a b => next a = b) ∧
      (r ++ [head]).IsChain (fun a b => next a = b) ∧ next (l.getLastD head) = r.headD head := by
  have hs : head :: ((l ++ r) ++ [head]) = (head :: l) ++ (r ++ [head]) := by simp
  rw [hs,List.isChain_append]
  have hl : (head :: l).getLast? = some (l.getLastD head) := by
    cases l <;> simp [List.getLast?_cons]
  have hr : (r ++ [head]).head? = some (r.headD head) := by cases r <;> simp
  simp [hl,hr]

/-- In a list without repetitions the last node of a prefix is not in the rest. -/
theorem getLastD_not_mem {l r : List N} (h : (head :: (l ++ r)).Nodup) : l.getLastD head ∉ r := by
  have hd : List.Disjoint (head :: l) r := by
    have : ((head :: l) ++ r).Nodup := by simpa using h
    exact (List.nodup_append'.mp this).2.2
  exact fun hr => hd (getLastD_mem_cons head l) hr

theorem ne_getLastD_of_mem_dropLast {l : List N} (h : (head :: l).Nodup) {a : N}
    (ha : a ∈ (head :: l).dropLast) : a ≠ l.getLastD head := by
  have hs : (head :: l).dropLast ++ [l.getLastD head] = head :: l := by
    have := List.dropLast_append_getLast (l := head :: l) (by simp)
    rwa [show (head :: l).getLast (by simp) = l.getLastD head by
      cases l <;> simp [List.getLast_eq_iff_getLast?_eq_some,List.getLast?_cons]] at this
  rw [← hs,List.nodup_append'] at h
  exact fun he => h.2.2 ha (by simp [he])

namespace IsRing

variable {xs ys l r : List N} {x : N}

theorem head_not_mem (h : IsRing next prev head xs) : head ∉ xs := (List.nodup_cons.mp h.nodup).1

theorem nodup_nodes (h : IsRing next prev head xs) : xs.Nodup := (List.nodup_cons.mp h.nodup).2

theorem next_last (h : IsRing next prev head (l ++ r)) : next (l.getLastD head) = r.headD head :=
  (chain_cut.mp h.chain).2.2

theorem prev_first (h : IsRing next prev head (l ++ r)) : prev (r.headD head) = l.getLastD head := by
  rw [← h.next_last]
  exact h.back _ (getLastD_mem_append head l r)

theorem next_head (h : IsRing next prev head xs) : next head = xs.headD head := by
  simpa using next_last (l := []) (r := xs) h

theorem prev_head (h : IsRing next prev head xs) : prev head = xs.getLastD head := by
  simpa using prev_first (l := xs) (r := []) (by simpa using h)

theorem next_node (h : IsRing next prev head (l ++ x :: r)) : next x = r.headD head := by
  simpa using next_last (l := l ++ [x]) (r := r) (by simpa using h)

theorem prev_node (h : IsRing next prev head (l ++ x :: r)) : prev x = l.getLastD head := by
  simpa using prev_first h

theorem next_mem (h : IsRing next prev head xs) {a : N} (ha : a ∈ head :: xs) : next a ∈ head :: xs := by
  rcases List.mem_cons.mp ha with rfl | ha
  · rw [h.next_head]
    exact headD_mem_cons _ _
  · obtain ⟨l,r,rfl⟩ := List.append_of_mem ha
    rw [h.next_node]
    simpa using headD_mem_append head (l ++ [a]) r

/-- The nodes are what is met on the way from the head. -/
theorem mem_iff_iterate (h : IsRing next prev head xs) (a : N) :
    a ∈ head :: xs ↔ ∃ n, next^[n] head = a := by
  constructor
  · intro hmem
    rcases List.mem_cons.mp hmem with rfl | ha
    · exact ⟨0,rfl⟩
    · obtain ⟨l,r,hxs⟩ := List.append_of_mem ha
      clear ha hmem
      induction l using List.reverseRecOn generalizing a r with
      | nil =>
        subst hxs
        exact ⟨1,h.next_head⟩
      | append_singleton l b ih =>
        rw [List.append_assoc] at hxs
        obtain ⟨n,hn⟩ := ih b (a :: r) hxs
        subst hxs
        refine ⟨n + 1,?_⟩
        rw [Function.iterate_succ_apply',hn]
        exact h.next_node
  · rintro ⟨n,rfl⟩
    induction n with
    | zero => exact List.mem_cons_self
    | succ n ih =>
      rw [Function.iterate_succ_apply']
      exact h.next_mem ih

theorem congr (h : IsRing next prev head xs) (hn : ∀ a ∈ head :: xs, next' a = next a)
    (hp : ∀ a ∈ head :: xs, prev' a = prev a) : IsRing next' prev' head xs := by
  refine ⟨h.nodup,isChain_congr h.chain fun a ha => hn a ?_,fun a ha => ?_⟩
  · rwa [← List.cons_append,List.dropLast_concat] at ha
  · rw [hn a ha,hp _ (h.next_mem ha),h.back a ha]

theorem eq_nil_iff (h : IsRing next prev head xs) : next head = head ↔ xs = [] := by
  rw [h.next_head]
  cases xs with
  | nil => simp
  | cons a xs =>
    have := h.head_not_mem
    simp only [List.mem_cons,not_or] at this
    simp [Ne.symm this.1]

/-- Linking `x` in between the last node of `l` and the first node of `r`. -/
theorem insert (h : IsRing next prev head (l ++ r)) (hx : x ∉ head :: (l ++ r))
    (hpx : next' (l.getLastD head) = x) (hxn : next' x = r.headD head)
    (hxp : prev' x = l.getLastD head) (hnx : prev' (r.headD head) = x)
    (hn : ∀ a ∈ head :: (l ++ r), a ≠ l.getLastD head → next' a = next a)
    (hp : ∀ a ∈ head :: (l ++ r), a ≠ r.headD head → prev' a = prev a) :
    IsRing next' prev' head (l ++ x :: r) := by
  obtain ⟨hl,hr,-⟩ := chain_cut.mp h.chain
  have hnd : (head :: l).Nodup := by
    have := h.nodup
    rw [← List.cons_append] at this
    exact (List.nodup_append'.mp this).1
  refine ⟨?_,chain_cut.mpr ⟨isChain_congr hl fun a ha => ?_,?_,by simpa using hpx⟩,?_⟩
  · exact List.nodup_middle.mpr (List.nodup_cons.mpr ⟨hx,h.nodup⟩ : (x :: (head :: l ++ r)).Nodup)
  · have hm := List.dropLast_subset _ ha
    exact hn a (by simpa using List.mem_append_left r hm) (ne_getLastD_of_mem_dropLast hnd ha)
  · rw [List.cons_append]
    refine List.IsChain.cons (isChain_congr hr fun a ha => ?_) ?_
    · rw [List.dropLast_concat] at ha
      exact hn a (by simp [ha]) fun he => getLastD_not_mem h.nodup (he ▸ ha)
    · cases r <;> simp_all
  · intro a ha
    by_cases hax : a = x
    · rw [hax,hxn,hnx]
    · have ham : a ∈ head :: (l ++ r) := by
        simp only [List.mem_cons,List.mem_append] at ha ⊢
        tauto
      by_cases hal : a = l.getLastD head
      · rw [hal,hpx,hxp]
      · have hne : next a ≠ r.headD head := by
          intro he
          have := h.back a ham
          rw [he,h.prev_first] at this
          exact hal this.symm
        rw [hn a ham hal,hp _ (h.next_mem ham) hne,h.back a ham]

/-- Taking `x` out by joining its two neighbours. -/
theorem remove (h : IsRing next prev head (l ++ x :: r))
    (hpn : next' (l.getLastD head) = r.headD head) (hnp : prev' (r.headD head) = l.getLastD head)
    (hn : ∀ a ∈ head :: (l ++ r), a ≠ l.getLastD head → next' a = next a)
    (hp : ∀ a ∈ head :: (l ++ r), a ≠ r.headD head → prev' a = prev a) :
    IsRing next' prev' head (l ++ r) := by
  obtain ⟨hl,hr,-⟩ := chain_cut.mp h.chain
  have hmid : (x :: (head :: l ++ r)).Nodup := List.nodup_middle.mp h.nodup
  obtain ⟨hxm,hnd⟩ : x ∉ head :: (l ++ r) ∧ (head :: (l ++ r)).Nodup := List.nodup_cons.mp hmid
  have hsub : ∀ {a : N}, a ∈ head :: (l ++ r) → a ∈ head :: (l ++ x :: r) := by
    intro a ha
    simp only [List.mem_cons,List.mem_append] at ha ⊢
    tauto
  have hndl : (head :: l).Nodup := by
    rw [← List.cons_append] at hnd
    exact (List.nodup_append'.mp hnd).1
  refine ⟨hnd,chain_cut.mpr ⟨isChain_congr hl fun a ha => ?_,?_,hpn⟩,?_⟩
  · have hm := List.dropLast_subset _ ha
    exact hn a (by simpa using List.mem_append_left r hm) (ne_getLastD_of_mem_dropLast hndl ha)
  · rw [List.cons_append] at hr
    refine isChain_congr hr.tail fun a ha => ?_
    rw [List.dropLast_concat] at ha
    exact hn a (by simp [ha]) fun he => getLastD_not_mem hnd (he ▸ ha)
  · intro a ha
    by_cases hal : a = l.getLastD head
    · rw [hal,hpn,hnp]
    · have hb := h.back a (hsub ha)
      have hne : next a ≠ r.headD head := by
        intro he
        have hxb := h.back x (by simp)
        rw [h.next_node,← he,hb] at hxb
        exact hxm (hxb ▸ ha)
      have hnx : next a ≠ x := by
        intro he
        rw [he,h.prev_node] at hb
        exact hal hb.symm
      have hm := h.next_mem (hsub ha)
      have hm' : next a ∈ head :: (l ++ r) := by
        simp only [List.mem_cons,List.mem_append] at hm ⊢
        tauto
      rw [hn a ha hal,hp _ hm' hne,hb]

theorem reverse (h : IsRing next prev head xs) : IsRing prev next head xs.reverse := by
  refine ⟨by simpa using h.nodup,?_,?_⟩
  · have hs : head :: (xs.reverse ++ [head]) = (head :: (xs ++ [head])).reverse := by simp
    rw [hs,List.isChain_reverse]
    have hb : ∀ l : List N, (∀ a ∈ l.dropLast, prev (next a) = a) →
        l.IsChain (fun a b => next a = b) → l.IsChain (fun a b => prev b = a) := by
      intro l
      induction l with
      | nil => intro _ _; exact .nil
      | cons a l ih =>
        cases l with
        | nil => intro _ _; exact .singleton _
        | cons b l =>
          intro hl hc
          rw [List.dropLast_cons_cons] at hl
          rw [List.isChain_cons_cons] at hc ⊢
          exact ⟨by rw [← hc.1]; exact hl a (by simp),
            ih (fun c hc => hl c (List.mem_cons_of_mem _ hc)) hc.2⟩
    refine hb _ (fun a ha => h.back a ?_) h.chain
    rwa [← List.cons_append,List.dropLast_concat] at ha
  · intro a ha
    rcases List.mem_cons.mp ha with rfl | ha
    · have := h.prev_head
      have hl := next_last (l := xs) (r := []) (by simpa using h)
      rw [this]
      simpa using hl
    · obtain ⟨l,r,rfl⟩ := List.append_of_mem (List.mem_reverse.mp ha)
      rw [h.prev_node]
      simpa using h.next_last

theorem unique (h : IsRing next prev head xs) (h' : IsRing next prev head ys) : xs = ys := by
  have key : ∀ (a : N) (l m : List N), (a :: (l ++ [head])).IsChain (fun a b => next a = b) →
      (a :: (m ++ [head])).IsChain (fun a b => next a = b) → head ∉ l → head ∉ m → l = m := by
    intro a l
    induction l generalizing a with
    | nil =>
      intro m hl hm _ hh
      cases m with
      | nil => rfl
      | cons b m => simp_all
    | cons b l ih =>
      intro m hl hm hh hh'
      cases m with
      | nil => simp_all
      | cons c m =>
        simp only [List.cons_append,List.isChain_cons_cons,List.mem_cons,not_or] at hl hm hh hh'
        obtain rfl : b = c := hl.1.symm.trans hm.1
        rw [ih b m hl.2 hm.2 hh.2 hh'.2]
  exact key head xs ys h.chain h'.chain h.head_not_mem h'.head_not_mem

end IsRing
end X1.Ring

import OperatingSystemLabs.Foundation.BuddyTree
import OperatingSystemLabs.Buddy.Search
import OperatingSystemLabs.Buddy.Splitting

namespace OperatingSystemLabs.Buddy

open Loop Links BuddyTree

theorem toSizeT_nonneg {size : Int32} (h : toSizeT size ≤ 2 ^ maxOrder) : 0 ≤ size.toInt := by
  have hlow := Int32.le_toInt size
  simp only [toSizeT,maxOrder] at h
  omega

theorem blockOrder_spec {j : Nat} (h : j < 32) : ∃ s, blockOrder (2 ^ j) = .ok (j,s) := by
  let Inv (s : Nat × Nat) : Prop := ∃ i d, i + d = j ∧ s = (d,2 ^ i)
  have hround : ∀ s, Inv s → (Except.ok (decide (s.2 / 2 ≥ 1)) : Except Stuck Bool) = .ok false ∨
      (Except.ok (decide (s.2 / 2 ≥ 1)) : Except Stuck Bool) = .ok true ∧
        ∃ t, Except.ok (s.1 + 1,s.2 / 2) = (.ok t : Except Stuck (Nat × Nat)) ∧ Inv t ∧ j - t.1 < j - s.1 := by
    rintro _ ⟨i,d,hj,rfl⟩
    cases i with
    | zero => exact .inl (by simp)
    | succ i =>
      refine .inr ⟨?_,_,rfl,⟨i,d + 1,by omega,by rw [half_pow]⟩,by show j - (d + 1) < j - d; omega⟩
      rw [half_pow,decide_eq_true Nat.one_le_two_pow]
  obtain ⟨_,he,⟨i,d,hj,rfl⟩,hstop⟩ :=
    repeatWhile_total (fun s : Nat × Nat => j - s.1) hround ⟨j,0,rfl,rfl⟩
      (Nat.lt_of_le_of_lt (Nat.sub_le j 0) h)
  cases i with
  | zero =>
    rw [Nat.zero_add] at hj
    exact ⟨_,hj ▸ he⟩
  | succ i =>
    rw [half_pow,decide_eq_true Nat.one_le_two_pow] at hstop
    cases hstop

theorem minimumBlockSizeToFind_spec {size : Int32} (h : 0 ≤ size.toInt) :
    ∃ s, minimumBlockSizeToFind size = .ok s := by
  let Inv (s : Int) : Prop := ∃ i : Nat, s = (2 ^ i : Nat)
  have hround : ∀ s, Inv s → (Except.ok (decide (s / 2 > size.toInt)) : Except Stuck Bool) = .ok false ∨
      (Except.ok (decide (s / 2 > size.toInt)) : Except Stuck Bool) = .ok true ∧
        ∃ t, Except.ok (s / 2) = (.ok t : Except Stuck Int) ∧ Inv t ∧ t.toNat.log2 < s.toNat.log2 := by
    rintro _ ⟨i,rfl⟩
    by_cases ht : ((2 ^ i : Nat) : Int) / 2 > size.toInt
    · obtain ⟨i,rfl⟩ : ∃ k, i = k + 1 := Nat.exists_eq_succ_of_ne_zero (by rintro rfl; simp at ht; omega)
      have hhalf : ((2 ^ (i + 1) : Nat) : Int) / 2 = (2 ^ i : Nat) := by rw [← half_pow i]; rfl
      refine .inr ⟨by rw [decide_eq_true ht],_,rfl,⟨i,hhalf⟩,?_⟩
      rw [hhalf,Int.toNat_natCast,Int.toNat_natCast,Nat.log2_two_pow,Nat.log2_two_pow]
      exact Nat.lt_succ_self i
    · exact .inl (by rw [decide_eq_false ht])
  obtain ⟨s,he,_⟩ := repeatWhile_total (fun s : Int => s.toNat.log2) hround
    (s := 2 ^ maxOrder) ⟨maxOrder,rfl⟩ (show (2 ^ maxOrder : Int).toNat.log2 < 32 by decide)
  exact ⟨s,he⟩

theorem setBlockOrder_same {a : Arena} {p : Address} {b : MemBlock} {j : Nat} (h : a.heap[p]? = some b)
    (hsize : b.blockSize = 2 ^ j) (horder : b.order = j) (hj : j < 32) : setBlockOrder a (some p) = .ok a := by
  obtain ⟨s,hs⟩ := blockOrder_spec hj
  rw [← hsize] at hs
  rw [setBlockOrder,bind_ok _ (deref_ok h),bind_ok _ hs]
  show a.write (some p) { b with order := j } = .ok a
  subst horder
  obtain ⟨hlt,rfl⟩ := List.getElem?_eq_some_iff.mp h
  rw [write_ok _ h,List.set_getElem_self]

structure Tiled (a : Arena) (cells : List Cell) : Prop where
  laid : Laid a cells
  sized : ∀ c ∈ cells, c.2.blockSize = 2 ^ c.2.order
  least : ∀ c ∈ cells, minOrder ≤ c.2.order
  tree : ∃ t : BuddyTree maxOrder, t.leaves = cells.map (·.2.order)
  lst : a.lst = { buddyInit.lst with listSize := cells.length - 1 }

theorem tiled_init : Tiled buddyInit [(0,wholeBlock)] where
  laid := laid_init
  sized := by simp [wholeBlock]
  least := by simp [wholeBlock,minOrder,maxOrder]
  tree := ⟨whole maxOrder,rfl⟩
  lst := rfl

structure Handed (a : Arena) (size : Int32) (val : Char) (l : List Cell) (p : Address) (b : MemBlock)
    (r : List Cell) (j : Nat) (a' : Arena) (b' : MemBlock) (pieces : List Cell) : Prop where
  reply : buddyAlloc a size val = .ok (a',.allocated (some p))
  halved : ∃ a₁, Halved a l p b r b.order j a₁ b' pieces ∧ a'.lst = a₁.lst
  laid : Laid a' (l ++ (p,b'.allotted size val) :: (pieces ++ r))
  least : minOrder ≤ j
  fits : toSizeT size ≤ b.blockSize → toSizeT size ≤ 2 ^ j
  tight : minOrder < j → 2 ^ (j - 1) < toSizeT size

theorem Tiled.le_max {a : Arena} {cells : List Cell} (h : Tiled a cells) :
    ∀ c ∈ cells, c.2.order ≤ maxOrder := by
  obtain ⟨t,ht⟩ := h.tree
  intro c hc
  exact t.leaves_le c.2.order (ht ▸ List.mem_map_of_mem (f := (·.2.order)) hc)

theorem Tiled.size_le {a : Arena} {cells : List Cell} (h : Tiled a cells) :
    ∀ c ∈ cells, c.2.blockSize ≤ 2 ^ maxOrder := by
  intro c hc
  rw [h.sized c hc]
  exact Nat.pow_le_pow_right (by decide) (h.le_max c hc)

theorem Tiled.free_memory {a : Arena} {cells : List Cell} (h : Tiled a cells) :
    a.lst.freeMemory = 2 ^ maxOrder := by
  rw [h.lst]
  rfl

theorem Tiled.head {a : Arena} {cells : List Cell} (h : Tiled a cells) :
    ∃ c cs, cells = c :: cs ∧ a.lst.head = some c.1 := by
  cases cells with
  | nil =>
    obtain ⟨t,ht⟩ := h.tree
    exact absurd ht t.leaves_ne_nil
  | cons c cs => exact ⟨c,cs,rfl,h.laid.linked.1⟩

theorem handed_of_found {a : Arena} {l : List Cell} {p : Address} {b : MemBlock} {r : List Cell} {size : Int32}
    (h : Tiled a (l ++ (p,b) :: r)) (hsize : toSizeT size ≤ 2 ^ maxOrder)
    (hfound : findFreeBlock a size = .ok (some p)) (val : Char) :
    ∃ j a' b' pieces, Handed a size val l p b r j a' b' pieces := by
  have hmem : (p,b) ∈ l ++ (p,b) :: r := by simp
  have hmax := h.le_max _ hmem
  obtain ⟨s,hmin⟩ := minimumBlockSizeToFind_spec (toSizeT_nonneg hsize)
  obtain ⟨j,a₁,b',pieces,hloop,hh,hleast,hfits,htight⟩ :=
    halving_spec size h.laid (h.sized _ hmem) rfl (h.least _ hmem) hmax
  have hb' := hh.laid.heap_at
  have hlaid : Laid ⟨a₁.heap.set p (b'.allotted size val),a₁.lst⟩ (l ++ (p,b'.allotted size val) :: (pieces ++ r)) :=
    hh.laid.overwrite rfl
  have hmark := hlaid.heap_at
  have hj : j ≤ maxOrder := hh.le.trans hmax
  have horder := setBlockOrder_same hmark (j := j) hh.size hh.order (Nat.lt_of_le_of_lt hj (by decide))
  have hfits' : toSizeT size ≤ b.blockSize → toSizeT size ≤ 2 ^ j := fun hf => hfits (h.sized _ hmem ▸ hf)
  refine ⟨j,⟨a₁.heap.set p (b'.allotted size val),a₁.lst⟩,b',pieces,?_,⟨a₁,hh,rfl⟩,hlaid,hleast,hfits',htight⟩
  have hrange : (b'.allotted size val).blockSize ≥ 2 ^ minOrder ∧ (b'.allotted size val).blockSize ≤ 2 ^ maxOrder := by
    show b'.blockSize ≥ 2 ^ minOrder ∧ b'.blockSize ≤ 2 ^ maxOrder
    rw [hh.size]
    exact ⟨Nat.pow_le_pow_right (by decide) hleast,Nat.pow_le_pow_right (by decide) hj⟩
  rw [buddyAlloc,if_neg (by rw [h.free_memory]; exact Nat.not_lt.mpr hsize),bind_ok _ hmin,bind_ok _ hfound,
    if_neg (by simp),bind_ok _ hloop]
  dsimp only
  rw [bind_ok _ (deref_ok hb'),bind_ok _ (write_ok _ hb'),bind_ok _ horder,bind_ok _ (deref_ok hmark),if_pos hrange]
  rfl

theorem buddyAlloc_refused {a : Arena} {cells : List Cell} {size : Int32} (h : Tiled a cells)
    (hsize : 2 ^ maxOrder < toSizeT size) (val : Char) :
    buddyAlloc a size val = .ok (a,.notEnoughMemory) := by
  rw [buddyAlloc,if_pos (by rw [h.free_memory]; exact hsize)]
  rfl

theorem buddyAlloc_handed {a : Arena} {cells : List Cell} {size : Int32} (h : Tiled a cells)
    (hsize : toSizeT size ≤ 2 ^ maxOrder) (val : Char) :
    ∃ l p b r j a' b' pieces, cells = l ++ (p,b) :: r ∧ Handed a size val l p b r j a' b' pieces ∧
      (BestFit (toSizeT size) cells (p,b) ∨ ∀ d ∈ cells, ¬ Suits (toSizeT size) d) := by
  rcases findFreeBlock_spec h.laid hsize h.size_le with ⟨he,hnone⟩ | ⟨⟨p,b⟩,he,hbest⟩
  · obtain ⟨⟨p,b⟩,cs,rfl,hhead⟩ := h.head
    obtain ⟨j,a',b',pieces,hh⟩ := handed_of_found (l := []) h hsize (he.trans (congrArg _ hhead)) val
    exact ⟨[],p,b,cs,j,a',b',pieces,rfl,hh,.inr hnone⟩
  · obtain ⟨l,r,rfl⟩ := List.append_of_mem hbest.1
    obtain ⟨j,a',b',pieces,hh⟩ := handed_of_found h hsize he val
    exact ⟨l,p,b,r,j,a',b',pieces,rfl,hh,.inl hbest⟩

theorem Tiled.handed {a : Arena} {size : Int32} {val : Char} {l : List Cell} {p : Address} {b : MemBlock}
    {r : List Cell} {j : Nat} {a' : Arena} {b' : MemBlock} {pieces : List Cell}
    (h : Tiled a (l ++ (p,b) :: r)) (hh : Handed a size val l p b r j a' b' pieces) :
    Tiled a' (l ++ (p,b'.allotted size val) :: (pieces ++ r)) := by
  obtain ⟨a₁,hc,hlst⟩ := hh.halved
  have hold (P : Cell → Prop) (hl : ∀ c ∈ l ++ (p,b) :: r, P c) (hp : P (p,b'.allotted size val))
      (hq : ∀ c ∈ pieces, P c) : ∀ c ∈ l ++ (p,b'.allotted size val) :: (pieces ++ r), P c := by
    simp only [List.forall_mem_append,List.forall_mem_cons] at hl ⊢
    exact ⟨hl.1,hp,hq,hl.2.2⟩
  refine ⟨hh.laid,hold _ h.sized ?_ hc.sized,hold _ h.least ?_ fun c hcp => ?_,?_,?_⟩
  · show b'.blockSize = 2 ^ b'.order
    rw [hc.size,hc.order]
  · show minOrder ≤ b'.order
    rw [hc.order]
    exact hh.least
  · have hmem : c.2.order ∈ List.range' j (b.order - j) := hc.orders ▸ List.mem_map_of_mem (f := (·.2.order)) hcp
    exact hh.least.trans (List.mem_range'_1.mp hmem).1
  · obtain ⟨t,ht⟩ := h.tree
    obtain ⟨d,hd⟩ := Nat.exists_eq_add_of_le hc.le
    rw [List.map_append,List.map_cons,hd] at ht
    obtain ⟨t',ht'⟩ := t.leaves_graft ht (leftmost j d)
    refine ⟨t',ht'.trans ?_⟩
    rw [leftmost_leaves,List.map_append,List.map_cons,List.map_append,hc.orders,hd,Nat.add_sub_cancel_left]
    show _ = l.map (·.2.order) ++ b'.order :: _
    rw [hc.order]
    simp
  · rw [hlst,hc.lst,h.lst]
    simp only [List.length_append,List.length_cons]
    congr 1
    omega

end OperatingSystemLabs.Buddy

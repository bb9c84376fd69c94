import OperatingSystemLabs.Buddy.Tiling

namespace OperatingSystemLabs.Buddy

open Loop

structure CutMinimally (size : Int32) (chosen left : MemBlock) (pieces : List Cell) : Prop where
  least : ∃ j, minOrder ≤ j ∧ left.blockSize = 2 ^ j ∧ toSizeT size ≤ 2 ^ j ∧
    ∀ i, minOrder ≤ i → toSizeT size ≤ 2 ^ i → left.blockSize ≤ 2 ^ i
  wasted : left.wasted.toInt = left.blockSize - size.toInt ∧ 0 ≤ left.wasted.toInt
  free : ∀ c ∈ pieces, c.2.inUse = false
  doubling : pieces.map (·.2.blockSize) = (List.range pieces.length).map (left.blockSize * 2 ^ ·)
  upToHalf : chosen.blockSize = left.blockSize * 2 ^ pieces.length

variable {a a' : Arena} {size : Int32} {val : Char} {l r : List Cell} {p : Address} {b b' : MemBlock} {j : Nat}
  {pieces : List Cell}

theorem toSizeT_cast (h : toSizeT size ≤ 2 ^ maxOrder) : (toSizeT size : Int) = size.toInt := by
  have h0 := toSizeT_nonneg h
  have hlt := Int32.toInt_lt size
  simp only [toSizeT]
  omega

theorem Handed.le_of_fits (h : Handed a size val l p b r j a' b' pieces) {i : Nat} (hmin : minOrder ≤ i)
    (hi : toSizeT size ≤ 2 ^ i) : j ≤ i := by
  by_contra hlt
  have htight := h.tight (Nat.lt_of_le_of_lt hmin (Nat.lt_of_not_le hlt))
  have hpow : 2 ^ i ≤ 2 ^ (j - 1) := Nat.pow_le_pow_right (by decide) (by omega)
  omega

theorem Handed.cutMinimally (h : Handed a size val l p b r j a' b' pieces) (hmax : b.order ≤ maxOrder)
    (hsize : b.blockSize = 2 ^ b.order) (hs : Suits (toSizeT size) (p,b)) :
    CutMinimally size b (b'.allotted size val) pieces := by
  obtain ⟨a₁,hc,-⟩ := h.halved
  have hfits := h.fits hs.2
  have hj : j ≤ maxOrder := hc.le.trans hmax
  have hle : toSizeT size ≤ 2 ^ maxOrder := hfits.trans (Nat.pow_le_pow_right (by decide) hj)
  have hleft : (b'.allotted size val).blockSize = 2 ^ j := hc.size
  have hlength := hc.pieces_length
  refine ⟨⟨j,h.least,hleft,hfits,fun i hmin hi => ?_⟩,?_,hc.free,?_,?_⟩
  · rw [hleft]
    exact Nat.pow_le_pow_right (by decide) (h.le_of_fits hmin hi)
  · have hcast := toSizeT_cast hle
    have hpow : (2 : Nat) ^ j ≤ 2 ^ maxOrder := Nat.pow_le_pow_right (by decide) hj
    have hwasted : (b'.allotted size val).wasted.toInt = (b'.blockSize : Int) - toSizeT size := by
      refine Int32.toInt_ofInt_of_le ?_ ?_ <;> (rw [hc.size]; simp only [maxOrder] at hle hpow; omega)
    rw [hwasted,hcast,hc.size,hleft]
    refine ⟨rfl,?_⟩
    omega
  · have hsizes : pieces.map (·.2.blockSize) = (pieces.map (·.2.order)).map (2 ^ ·) := by
      rw [List.map_map]
      exact List.map_congr_left hc.sized
    rw [hsizes,hc.orders,hleft,hlength,List.range'_eq_map_range,List.map_map]
    exact List.map_congr_left (fun i _ => Nat.pow_add 2 j i)
  · rw [hleft,hlength,hsize,← Nat.pow_add,Nat.add_sub_cancel' hc.le]

theorem buddy_alloc_best_fit (requests : List (Int32 × Char)) (size : Int32) (val : Char) :
    ∃ a cells, allocAll buddyInit requests = .ok a ∧ Laid a cells ∧
      ((∃ c ∈ cells, Suits (toSizeT size) c) → ∃ l p b r a' left pieces,
        cells = l ++ (p,b) :: r ∧ findFreeBlock a size = .ok (some p) ∧ b.inUse = false ∧
        (∀ d ∈ cells, d.2.inUse = false → ¬ (toSizeT size ≤ d.2.blockSize ∧ d.2.blockSize < b.blockSize)) ∧
        buddyAlloc a size val = .ok (a',.allocated (some p)) ∧ Laid a' (l ++ (p,left) :: (pieces ++ r)) ∧
        CutMinimally size b left pieces ∧
        ∀ s, Rounds (largeEnough size) (fun s => splitBlock s.1 s.2) (a,some p) s →
          largeEnough size s = .ok true → ∃ a₁ q, splitBlock s.1 s.2 = .ok (a₁,some q)) := by
  obtain ⟨a,cells,he,h⟩ := allocAll_tiled tiled_init requests
  refine ⟨a,cells,he,h.laid,fun ⟨c,hc,hsuits⟩ => ?_⟩
  have hsize : toSizeT size ≤ 2 ^ maxOrder := hsuits.2.trans (h.size_le c hc)
  rcases findFreeBlock_spec h.laid hsize h.size_le with ⟨-,hnone⟩ | ⟨⟨p,b⟩,hfound,hbest⟩
  · exact absurd hsuits (hnone c hc)
  · obtain ⟨l,r,rfl⟩ := List.append_of_mem hbest.1
    obtain ⟨j,a',b',pieces,hh⟩ := handed_of_found h hsize hfound val
    have hb := h.sized _ hbest.1
    refine ⟨l,p,b,r,a',b'.allotted size val,pieces,rfl,hfound,hbest.2.1.1,fun d hd hfree hbetween => ?_,
      hh.reply,hh.laid,hh.cutMinimally (h.le_max _ hbest.1) hb hbest.2.1,fun s hrounds hgo => ?_⟩
    · exact absurd (hbest.2.2 d hd ⟨hfree,hbetween.1⟩) (Nat.not_le.mpr hbetween.2)
    · obtain ⟨a₁,hsplit⟩ := halving_never_null size h.laid hb rfl (h.least _ hbest.1) hrounds hgo
      exact ⟨a₁,p,hsplit⟩

-- Of the seven free blocks 8192, 16384, ..., 524288 the second smallest is the best fit.
theorem buddy_alloc_best_fit_second : ∃ a a' p b left pieces, allocAll buddyInit [(5000,'A')] = .ok a ∧
    (a.heap.filter fun b => b.inUse = false).length = 7 ∧ a.heap[p]? = some b ∧ b.blockSize = 16384 ∧
    buddyAlloc a 10000 'B' = .ok (a',.allocated (some p)) ∧ CutMinimally 10000 b left pieces := by
  obtain ⟨a,cells,he,hl,hfit⟩ := buddy_alloc_best_fit [(5000,'A')] 10000 'B'
  obtain ⟨a₀,cells₀,he₀,ht⟩ := allocAll_tiled tiled_init [(5000,'A')]
  cases he.symm.trans he₀
  have hcompute : (allocAll buddyInit [(5000,'A')] >>= fun a => .ok (findFreeBlock a 10000,a.lst.head,
      (a.heap.filter fun b => b.inUse = false).length,a.heap[6]?.map (·.blockSize))) =
      .ok (Except.ok (some 6),some 0,7,some 16384) := by decide
  rw [bind_ok _ he] at hcompute
  simp only [Except.ok.injEq,Prod.mk.injEq] at hcompute
  obtain ⟨hfind,hhead,hfree,hsize⟩ := hcompute
  obtain rfl := hl.unique ht.laid
  rcases findFreeBlock_spec hl (show toSizeT 10000 ≤ 2 ^ maxOrder by decide) ht.size_le with ⟨hnone,-⟩ | ⟨c,-,hbest⟩
  · rw [hfind,hhead] at hnone
    cases hnone
  · obtain ⟨l,p,b,r,a',left,pieces,hcells,hfound,-,-,hreply,-,hcut,-⟩ := hfit ⟨c,hbest.1,hbest.2.1⟩
    cases hfind.symm.trans hfound
    have hheld : a.heap[6]? = some b := hl.held (6,b) (by rw [hcells]; simp)
    rw [hheld] at hsize
    exact ⟨a,a',6,b,left,pieces,he,hfree,hheld,Option.some.inj hsize,hreply,hcut⟩

end OperatingSystemLabs.Buddy

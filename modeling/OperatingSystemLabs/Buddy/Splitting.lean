import OperatingSystemLabs.Buddy.Layout

namespace OperatingSystemLabs.Buddy

open Loop Links

theorem half_pow (i : Nat) : 2 ^ (i + 1) / 2 = 2 ^ i := by
  rw [Nat.pow_succ,Nat.mul_div_cancel _ (by decide)]

structure Halved (a : Arena) (l : List Cell) (p : Address) (b : MemBlock) (r : List Cell) (k j : Nat)
    (a' : Arena) (b' : MemBlock) (pieces : List Cell) : Prop where
  laid : Laid a' (l ++ (p,b') :: (pieces ++ r))
  le : j ≤ k
  size : b'.blockSize = 2 ^ j
  order : b'.order = j
  inUse : b'.inUse = b.inUse
  value : b'.value = b.value
  free : ∀ c ∈ pieces, c.2.inUse = false
  sized : ∀ c ∈ pieces, c.2.blockSize = 2 ^ c.2.order
  orders : pieces.map (·.2.order) = List.range' j (k - j)
  grown : a.heap.length ≤ a'.heap.length
  fresh : ∀ c ∈ pieces, a.heap.length ≤ c.1
  lst : a'.lst = { a.lst with listSize := a.lst.listSize + pieces.length }

theorem Halved.pieces_length {a a' : Arena} {l r pieces : List Cell} {p : Address} {b b' : MemBlock} {k j : Nat}
    (h : Halved a l p b r k j a' b' pieces) : pieces.length = k - j := by
  rw [← List.length_map (f := (·.2.order)),h.orders,List.length_range']

section

variable {a : Arena} {l r : List Cell} {p : Address} {b : MemBlock} {k : Nat}

theorem halved_refl (h : Laid a (l ++ (p,b) :: r)) (hsize : b.blockSize = 2 ^ k) (horder : b.order = k) :
    Halved a l p b r k k a b [] where
  laid := h
  le := le_rfl
  size := hsize
  order := horder
  inUse := rfl
  value := rfl
  free := by simp
  sized := by simp
  orders := by simp
  grown := le_rfl
  fresh := by simp
  lst := rfl

theorem splitBlock_spec (h : Laid a (l ++ (p,b) :: r)) (hne : b.blockSize ≠ 2 ^ minOrder) :
    ∃ a', splitBlock a (some p) = .ok (a',some p) ∧
      Laid a' (l ++ (p,b.blockLeft (some a.heap.length)) :: (a.heap.length,b.blockRight (some p)) :: r) ∧
      a'.heap.length = a.heap.length + 1 ∧ a'.lst = { a.lst with listSize := a.lst.listSize + 1 } := by
  have hb := h.heap_at
  have hp := heap_lt hb
  let right := b.blockRight (some p)
  let left := b.blockLeft (some a.heap.length)
  have hold (q : Address) (c : MemBlock) (hc : a.heap[q]? = some c) (hq : q ≠ p) :
      ((a.heap ++ [right]).set p left)[q]? = some c := by
    rw [List.getElem?_set_ne (Ne.symm hq),List.getElem?_append_left (heap_lt hc),hc]
  have hleft : ((a.heap ++ [right]).set p left)[p]? = some left :=
    List.getElem?_set_self (by rw [List.length_append]; exact Nat.lt_add_right _ hp)
  have hright : ((a.heap ++ [right]).set p left)[a.heap.length]? = some right := by
    rw [List.getElem?_set_ne (Nat.ne_of_lt hp),List.getElem?_concat_length]
  let a' : Arena := ⟨(a.heap ++ [right]).set p left,{ a.lst with listSize := a.lst.listSize + 1 }⟩
  refine ⟨a',?_,⟨?_,fun c hc => ?_⟩,by simp [a'],rfl⟩
  · rw [splitBlock,bind_ok _ (deref_ok hb),if_neg hne]
    have hw : (a.new right).1.write (some p) left = .ok { a with heap := (a.heap ++ [right]).set p left } :=
      write_ok left (by simpa [Arena.new,List.getElem?_append_left hp] using hb)
    exact bind_ok _ hw
  · rw [List.map_append,List.map_cons,List.map_cons]
    have hlinked : Chain a.next a.lst.head (l.map Prod.fst ++ p :: r.map Prod.fst) := by simpa using h.linked
    refine chain_insert hlinked (fun x hx => ?_) ?_ ?_
    · rw [← List.map_append] at hx
      obtain ⟨c,hc,rfl⟩ := List.mem_map.mp hx
      have hheld := h.held c (by simp only [List.mem_append,List.mem_cons] at hc ⊢; tauto)
      rw [next_of_heap hheld]
      exact next_of_heap (a := a') (hold c.1 c.2 hheld (h.apart c hc))
    · exact next_of_heap (a := a') hleft
    · rw [next_of_heap hb]
      exact next_of_heap (a := a') (b := right) hright
  · have hrest (hc : c ∈ l ++ r) : ((a.heap ++ [right]).set p left)[c.1]? = some c.2 :=
      hold c.1 c.2 (h.held c (by simp only [List.mem_append,List.mem_cons] at hc ⊢; tauto)) (h.apart c hc)
    simp only [List.mem_append,List.mem_cons] at hc
    rcases hc with hc | rfl | rfl | hc
    · exact hrest (by simp [hc])
    · exact hleft
    · exact hright
    · exact hrest (by simp [hc])

theorem halved_round {j : Nat} {a' : Arena} {b' : MemBlock} {pieces : List Cell}
    (h : Halved a l p b r k (j + 1) a' b' pieces) (hmin : minOrder ≤ j) :
    ∃ a'', splitBlock a' (some p) = .ok (a'',some p) ∧
      Halved a l p b r k j a'' (b'.blockLeft (some a'.heap.length))
        ((a'.heap.length,b'.blockRight (some p)) :: pieces) := by
  have hne : b'.blockSize ≠ 2 ^ minOrder := by
    rw [h.size]
    exact Nat.ne_of_gt (Nat.pow_lt_pow_right (by decide) (Nat.lt_succ_of_le hmin))
  have hhalf : b'.blockSize / 2 = 2 ^ j := by rw [h.size,half_pow]
  have hpred : b'.order - 1 = j := by rw [h.order,Nat.add_sub_cancel]
  obtain ⟨a'',hsplit,hlaid,hlen,hlst⟩ := splitBlock_spec h.laid hne
  refine ⟨a'',hsplit,hlaid,(Nat.le_succ j).trans h.le,hhalf,hpred,h.inUse,h.value,?_,?_,?_,?_,?_,?_⟩
  · exact List.forall_mem_cons.mpr ⟨rfl,h.free⟩
  · refine List.forall_mem_cons.mpr ⟨?_,h.sized⟩
    show b'.blockSize / 2 = 2 ^ (b'.order - 1)
    rw [hhalf,hpred]
  · have hk : k - j = k - (j + 1) + 1 := by
      have := h.le
      omega
    rw [List.map_cons,h.orders,hk,List.range'_succ]
    exact congrArg (· :: _) hpred
  · exact h.grown.trans (by omega)
  · exact List.forall_mem_cons.mpr ⟨h.grown,h.fresh⟩
  · rw [hlst,h.lst,List.length_cons,Nat.add_assoc]

theorem largeEnough_at {a' : Arena} {b' : MemBlock} (size : Int32) (h : a'.heap[p]? = some b') :
    largeEnough size (a',some p) =
      .ok (decide (b'.blockSize / 2 ≥ toSizeT size ∧ b'.blockSize / 2 ≥ 2 ^ minOrder)) :=
  bind_ok _ (deref_ok h)

theorem halving_round {size : Int32} {j : Nat} {a' : Arena} {b' : MemBlock} {pieces : List Cell}
    (h : Halved a l p b r k j a' b' pieces) (hj : minOrder ≤ j) (hgo : largeEnough size (a',some p) = .ok true) :
    ∃ i a'', j = i + 1 ∧ minOrder ≤ i ∧ toSizeT size ≤ 2 ^ i ∧ splitBlock a' (some p) = .ok (a'',some p) ∧
      Halved a l p b r k i a'' (b'.blockLeft (some a'.heap.length))
        ((a'.heap.length,b'.blockRight (some p)) :: pieces) := by
  rw [largeEnough_at size h.laid.heap_at] at hgo
  have ht := of_decide_eq_true (Except.ok.inj hgo)
  have hlt : minOrder < j := by
    by_contra hn
    obtain rfl : j = minOrder := Nat.le_antisymm (Nat.le_of_not_lt hn) hj
    rw [h.size] at ht
    exact absurd ht.2 (by decide)
  obtain ⟨i,rfl⟩ := Nat.exists_eq_succ_of_ne_zero (Nat.ne_of_gt (Nat.zero_lt_of_lt hlt))
  have hmin := Nat.le_of_lt_succ hlt
  obtain ⟨a'',hsplit,h'⟩ := halved_round h hmin
  refine ⟨i,a'',rfl,hmin,?_,hsplit,h'⟩
  rw [← h'.size]
  exact ht.1

theorem halving_spec (size : Int32) (h : Laid a (l ++ (p,b) :: r)) (hsize : b.blockSize = 2 ^ k)
    (horder : b.order = k) (hmin : minOrder ≤ k) (hmax : k ≤ maxOrder) :
    ∃ j a' b' pieces,
      repeatWhile .endless (largeEnough size) (fun s => splitBlock s.1 s.2) 64 (a,some p) = .ok (a',some p) ∧
      Halved a l p b r k j a' b' pieces ∧ minOrder ≤ j ∧
      (toSizeT size ≤ 2 ^ k → toSizeT size ≤ 2 ^ j) ∧ (minOrder < j → 2 ^ (j - 1) < toSizeT size) := by
  let Inv (s : Arena × Ptr) : Prop := ∃ j b' pieces, s.2 = some p ∧ Halved a l p b r k j s.1 b' pieces ∧
    minOrder ≤ j ∧ (toSizeT size ≤ 2 ^ k → toSizeT size ≤ 2 ^ j)
  -- Every round takes one from the order of the block that is split.
  let variant (s : Arena × Ptr) : Nat := ((s.1.deref s.2).map MemBlock.order).toOption.getD 0
  have hvariant {s : Arena × Ptr} {b' : MemBlock} (hp : s.2 = some p) (hb : s.1.heap[p]? = some b') :
      variant s = b'.order := by
    simp only [variant,hp,deref_ok hb]
    rfl
  have hround : ∀ s, Inv s → largeEnough size s = .ok false ∨ largeEnough size s = .ok true ∧
      ∃ t, splitBlock s.1 s.2 = .ok t ∧ Inv t ∧ variant t < variant s := by
    rintro ⟨a',p'⟩ ⟨j,b',pieces,rfl,hh,hj,hle⟩
    have htest := largeEnough_at size hh.laid.heap_at
    cases hgo : decide (b'.blockSize / 2 ≥ toSizeT size ∧ b'.blockSize / 2 ≥ 2 ^ minOrder) with
    | false => exact .inl (hgo ▸ htest)
    | true =>
      obtain ⟨i,a'',rfl,hi,hsize',hsplit,hh'⟩ := halving_round hh hj (hgo ▸ htest)
      refine .inr ⟨hgo ▸ htest,_,hsplit,⟨i,_,_,rfl,hh',hi,fun _ => hsize'⟩,?_⟩
      rw [hvariant rfl hh.laid.heap_at,hvariant rfl hh'.laid.heap_at,hh.order,hh'.order]
      exact Nat.lt_succ_self i
  have hfuel : variant (a,some p) < 64 := by
    rw [hvariant rfl h.heap_at,horder]
    exact Nat.lt_of_le_of_lt hmax (by decide)
  obtain ⟨⟨a',p'⟩,he,⟨j,b',pieces,rfl,hh,hj,hle⟩,hstop⟩ :=
    repeatWhile_total variant hround ⟨k,b,[],rfl,halved_refl h hsize horder,hmin,id⟩ hfuel
  refine ⟨j,a',b',pieces,he,hh,hj,hle,fun hlt => ?_⟩
  rw [largeEnough_at size hh.laid.heap_at,hh.size] at hstop
  have hno := of_decide_eq_false (Except.ok.inj hstop)
  have hhalf : 2 ^ j / 2 = 2 ^ (j - 1) := by
    obtain ⟨i,rfl⟩ := Nat.exists_eq_succ_of_ne_zero (Nat.ne_of_gt (Nat.zero_lt_of_lt hlt))
    rw [half_pow,Nat.succ_sub_one]
  rw [hhalf] at hno
  exact Nat.lt_of_not_le fun hge => hno ⟨hge,Nat.pow_le_pow_right (by decide) (by omega)⟩

theorem halving_never_null (size : Int32) (h : Laid a (l ++ (p,b) :: r)) (hsize : b.blockSize = 2 ^ k)
    (horder : b.order = k) (hmin : minOrder ≤ k) {s : Arena × Ptr}
    (hs : Rounds (largeEnough size) (fun s => splitBlock s.1 s.2) (a,some p) s)
    (hgo : largeEnough size s = .ok true) : ∃ a', splitBlock s.1 s.2 = .ok (a',some p) := by
  let Inv (s : Arena × Ptr) : Prop := ∃ j b' pieces, s.2 = some p ∧ Halved a l p b r k j s.1 b' pieces ∧ minOrder ≤ j
  have hround : ∀ s t, Inv s → largeEnough size s = .ok true → splitBlock s.1 s.2 = .ok t → Inv t := by
    rintro ⟨a',p'⟩ t ⟨j,b',pieces,rfl,hh,hj⟩ hgo hsplit
    obtain ⟨i,a'',rfl,hi,-,hsplit',hh'⟩ := halving_round hh hj hgo
    obtain rfl := Except.ok.inj (hsplit'.symm.trans hsplit)
    exact ⟨i,_,_,rfl,hh',hi⟩
  obtain ⟨a',p'⟩ := s
  obtain ⟨j,b',pieces,rfl,hh,hj⟩ :=
    hs.invariant hround (⟨k,b,[],rfl,halved_refl h hsize horder,hmin⟩ : Inv (a,some p))
  obtain ⟨i,a'',-,-,-,hsplit,-⟩ := halving_round hh hj hgo
  exact ⟨a'',hsplit⟩

end

end OperatingSystemLabs.Buddy

import OperatingSystemLabs.Buddy.Layout

namespace OperatingSystemLabs.Buddy

open Loop Links

def Suits (size : Nat) (c : Cell) : Prop := c.2.inUse = false ∧ size ≤ c.2.blockSize

instance (size : Nat) (c : Cell) : Decidable (Suits size c) := inferInstanceAs (Decidable (_ ∧ _))

def BestFit (size : Nat) (cells : List Cell) (c : Cell) : Prop :=
  c ∈ cells ∧ Suits size c ∧ ∀ d ∈ cells, Suits size d → c.2.blockSize ≤ d.2.blockSize

theorem findLoop_spec {a : Arena} {size fuel : Nat} {cur closest : Ptr} {closestSize : Nat} {cells : List Cell}
    (hlinked : Chain a.next cur (cells.map Prod.fst)) (hheld : ∀ c ∈ cells, a.heap[c.1]? = some c.2)
    (hsize : size ≤ closestSize) (hfuel : cells.length < fuel) :
    (findLoop a size fuel cur closest closestSize = .ok closest ∧
        ∀ d ∈ cells, Suits size d → closestSize < d.2.blockSize) ∨
      ∃ c, findLoop a size fuel cur closest closestSize = .ok (some c.1) ∧
        c.2.blockSize ≤ closestSize ∧ BestFit size cells c := by
  induction cells generalizing fuel cur closest closestSize with
  | nil =>
    obtain ⟨fuel,rfl⟩ := Nat.exists_eq_succ_of_ne_zero (Nat.ne_of_gt hfuel)
    obtain rfl : cur = none := hlinked
    exact .inl ⟨rfl,by simp⟩
  | cons c cs ih =>
    obtain ⟨p,b⟩ := c
    obtain ⟨fuel,rfl⟩ := Nat.exists_eq_succ_of_ne_zero (Nat.ne_of_gt (Nat.zero_lt_of_lt hfuel))
    obtain ⟨rfl,hrest⟩ := hlinked
    have hb : a.heap[p]? = some b := hheld (p,b) (by simp)
    rw [next_of_heap hb] at hrest
    have hheld' : ∀ c ∈ cs, a.heap[c.1]? = some c.2 := fun c hc => hheld c (by simp [hc])
    have hfuel' : cs.length < fuel := by simpa using hfuel
    rw [findLoop,bind_ok _ (deref_ok hb)]
    have hskip (hno : Suits size (p,b) → closestSize < b.blockSize) :
        (findLoop a size fuel b.next closest closestSize = .ok closest ∧
            ∀ d ∈ (p,b) :: cs, Suits size d → closestSize < d.2.blockSize) ∨
          ∃ c, findLoop a size fuel b.next closest closestSize = .ok (some c.1) ∧
            c.2.blockSize ≤ closestSize ∧ BestFit size ((p,b) :: cs) c := by
      rcases ih hrest hheld' hsize hfuel' with ⟨he,hall⟩ | ⟨c,he,hle,hc,hs,hbest⟩
      · exact .inl ⟨he,List.forall_mem_cons.mpr ⟨hno,hall⟩⟩
      · refine .inr ⟨c,he,hle,List.mem_cons_of_mem _ hc,hs,List.forall_mem_cons.mpr ⟨fun h => ?_,hbest⟩⟩
        exact hle.trans (hno h).le
    by_cases hfree : b.inUse = false
    · rw [if_pos hfree]
      by_cases hexact : b.blockSize = size
      · rw [if_pos hexact]
        refine .inr ⟨(p,b),rfl,hexact.trans_le hsize,List.mem_cons_self,⟨hfree,hexact.ge⟩,fun d _ hd => ?_⟩
        exact hexact.trans_le hd.2
      · rw [if_neg hexact]
        by_cases hclose : b.blockSize ≥ size ∧ b.blockSize ≤ closestSize
        · rw [if_pos hclose]
          have hsuits : Suits size (p,b) := ⟨hfree,hclose.1⟩
          rcases ih hrest hheld' hclose.1 hfuel' with ⟨he,hall⟩ | ⟨c,he,hle,hc,hs,hbest⟩
          · refine .inr ⟨(p,b),he,hclose.2,List.mem_cons_self,hsuits,?_⟩
            exact List.forall_mem_cons.mpr ⟨fun _ => le_rfl,fun d hd hds => (hall d hd hds).le⟩
          · refine .inr ⟨c,he,hle.trans hclose.2,List.mem_cons_of_mem _ hc,hs,?_⟩
            exact List.forall_mem_cons.mpr ⟨fun _ => hle,hbest⟩
        · rw [if_neg hclose]
          exact hskip fun h => Nat.lt_of_not_le fun hle => hclose ⟨h.2,hle⟩
    · rw [if_neg hfree]
      exact hskip fun h => absurd h.1 hfree

theorem findFreeBlock_spec {a : Arena} {size : Int32} {cells : List Cell} (h : Laid a cells)
    (hsize : toSizeT size ≤ 2 ^ maxOrder) (hmax : ∀ c ∈ cells, c.2.blockSize ≤ 2 ^ maxOrder) :
    (findFreeBlock a size = .ok a.lst.head ∧ ∀ d ∈ cells, ¬ Suits (toSizeT size) d) ∨
      ∃ c, findFreeBlock a size = .ok (some c.1) ∧ BestFit (toSizeT size) cells c := by
  rcases findLoop_spec h.linked h.held hsize (Nat.lt_succ_of_le h.length_le) with ⟨he,hall⟩ | ⟨c,he,_,hbest⟩
  · exact .inl ⟨he,fun d hd hs => Nat.not_lt.mpr (hmax d hd) (hall d hd hs)⟩
  · exact .inr ⟨c,he,hbest⟩

end OperatingSystemLabs.Buddy

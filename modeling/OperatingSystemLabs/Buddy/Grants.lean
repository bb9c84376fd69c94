import OperatingSystemLabs.Buddy.Tiling

namespace OperatingSystemLabs.Buddy

structure Marks (size : Int32) (val : Char) (before after : List Cell) (p : Address) : Prop where
  wasFree : ∃ b, (p,b) ∈ before ∧ b.inUse = false
  marked : ∃ b, (p,b) ∈ after ∧ b.inUse = true ∧ b.value = val ∧ toSizeT size ≤ b.blockSize
  alone : ∀ c ∈ after, c.2.inUse = true → c.1 = p ∨ ∃ d ∈ before, d.1 = c.1 ∧ d.2.inUse = true
  kept : ∀ c ∈ before, c.2.inUse = true → ∃ d ∈ after, d.1 = c.1 ∧ d.2.inUse = c.2.inUse ∧
    d.2.value = c.2.value ∧ d.2.usedSpace = c.2.usedSpace ∧ d.2.wasted = c.2.wasted ∧
    d.2.blockSize = c.2.blockSize

def HandsOutOnce (size : Int32) (val : Char) (a : Arena) (before : List Cell) (a' : Arena) (reply : Reply)
    (after : List Cell) : Prop :=
  (∃ p, Marks size val before after p) ∨
    (∀ c ∈ before, ¬ Suits (toSizeT size) c) ∧ (∀ p, reply ≠ .allocated p) ∧ a' = a

section

variable {a a' : Arena} {size : Int32} {val : Char} {l r : List Cell} {p : Address} {b b' : MemBlock} {j : Nat}
  {pieces : List Cell}

theorem mem_handed {c : Cell} (hc : c ∈ l ++ (p,b'.allotted size val) :: (pieces ++ r)) :
    c ∈ l ++ (p,b) :: r ∧ c ≠ (p,b) ∨ c = (p,b) ∨ c = (p,b'.allotted size val) ∨ c ∈ pieces := by
  by_cases he : c = (p,b)
  · exact .inr (.inl he)
  · simp only [List.mem_append,List.mem_cons] at hc ⊢
    tauto

theorem Handed.marks (h : Handed a size val l p b r j a' b' pieces)
    (hs : Suits (toSizeT size) (p,b)) :
    Marks size val (l ++ (p,b) :: r) (l ++ (p,b'.allotted size val) :: (pieces ++ r)) p := by
  obtain ⟨a₁,hc,_⟩ := h.halved
  refine ⟨⟨b,by simp,hs.1⟩,⟨b'.allotted size val,by simp,rfl,rfl,?_⟩,fun c hmem hu => ?_,fun c hmem hu => ?_⟩
  · show toSizeT size ≤ b'.blockSize
    rw [hc.size]
    exact h.fits hs.2
  · rcases mem_handed (b := b) hmem with ⟨hold,_⟩ | rfl | rfl | hpiece
    · exact .inr ⟨c,hold,rfl,hu⟩
    · exact .inl rfl
    · exact .inl rfl
    · exact absurd hu (by rw [hc.free c hpiece]; decide)
  · have hne : c ≠ (p,b) := by
      rintro rfl
      exact absurd hu (by rw [hs.1]; decide)
    refine ⟨c,?_,rfl,rfl,rfl,rfl,rfl,rfl⟩
    simp only [List.mem_append,List.mem_cons] at hmem ⊢
    tauto

-- Splitting only ever shrinks a block, so the marked block is no larger than it was.
theorem Handed.not_marks (h : Handed a size val l p b r j a' b' pieces) (hlaid : Laid a (l ++ (p,b) :: r))
    (hsize : b.blockSize = 2 ^ b.order) (hnone : ∀ d ∈ l ++ (p,b) :: r, ¬ Suits (toSizeT size) d) (q : Address) :
    ¬ Marks size val (l ++ (p,b) :: r) (l ++ (p,b'.allotted size val) :: (pieces ++ r)) q := by
  rintro ⟨⟨b₀,hmem₀,hfree⟩,⟨b₁,hmem₁,hused,_,hfits⟩,_,_⟩
  obtain ⟨a₁,hc,_⟩ := h.halved
  have hsmall : b₀.blockSize < toSizeT size := Nat.lt_of_not_le fun hle => hnone _ hmem₀ ⟨hfree,hle⟩
  have hsame {c : MemBlock} (hmem : (q,c) ∈ l ++ (p,b) :: r) : b₀ = c :=
    Option.some.inj ((hlaid.held _ hmem₀).symm.trans (hlaid.held _ hmem))
  have hpb : (p,b) ∈ l ++ (p,b) :: r := by simp
  rcases mem_handed (b := b) hmem₁ with ⟨hold,_⟩ | he | he | hpiece
  · exact absurd hfits (Nat.not_le.mpr (hsame hold ▸ hsmall))
  · obtain ⟨rfl,rfl⟩ := Prod.mk.inj he
    exact absurd hfits (Nat.not_le.mpr (hsame hpb ▸ hsmall))
  · obtain ⟨rfl,rfl⟩ := Prod.mk.inj he
    have hle : b'.blockSize ≤ b.blockSize := by
      rw [hc.size,hsize]
      exact Nat.pow_le_pow_right (by decide) hc.le
    exact absurd (hfits.trans hle) (Nat.not_le.mpr (hsame hpb ▸ hsmall))
  · exact absurd hused (by rw [hc.free _ hpiece]; decide)

end

theorem handsOutOnce_iff {a : Arena} {cells : List Cell} (h : Tiled a cells) (size : Int32) (val : Char) :
    ∃ a' reply cells', buddyAlloc a size val = .ok (a',reply) ∧ Tiled a' cells' ∧
      (HandsOutOnce size val a cells a' reply cells' ↔
        2 ^ maxOrder < toSizeT size ∨ ∃ c ∈ cells, Suits (toSizeT size) c) := by
  by_cases hsize : toSizeT size ≤ 2 ^ maxOrder
  · obtain ⟨l,p,b,r,j,a',b',pieces,rfl,hh,hpick⟩ := buddyAlloc_handed h hsize val
    refine ⟨a',_,_,hh.reply,h.handed hh,?_⟩
    rcases hpick with hbest | hnone
    · exact iff_of_true (.inl ⟨p,hh.marks hbest.2.1⟩) (.inr ⟨(p,b),hbest.1,hbest.2.1⟩)
    · refine iff_of_false ?_ ?_
      · rintro (⟨q,hq⟩ | ⟨_,hreply,_⟩)
        · exact hh.not_marks h.laid (h.sized (p,b) (by simp)) hnone q hq
        · exact hreply _ rfl
      · rintro (hlt | ⟨c,hc,hs⟩)
        · exact Nat.not_lt.mpr hsize hlt
        · exact hnone c hc hs
  · have hlt := Nat.lt_of_not_le hsize
    refine ⟨a,_,cells,buddyAlloc_refused h hlt val,h,iff_of_true (.inr ⟨fun c hc hs => ?_,nofun,rfl⟩) (.inl hlt)⟩
    exact Nat.not_le.mpr hlt (hs.2.trans (h.size_le c hc))

theorem buddy_alloc_hands_out_once (before after : List (Int32 × Char)) (size : Int32) (val : Char) :
    (∃ last, allocAll buddyInit (before ++ (size,val) :: after) = .ok last) ∧
      ∃ a cells a' reply cells', allocAll buddyInit before = .ok a ∧ Laid a cells ∧
        buddyAlloc a size val = .ok (a',reply) ∧ Laid a' cells' ∧
        (HandsOutOnce size val a cells a' reply cells' ↔
          2 ^ maxOrder < toSizeT size ∨ ∃ c ∈ cells, Suits (toSizeT size) c) := by
  obtain ⟨last,_,hlast,_⟩ := allocAll_tiled tiled_init (before ++ (size,val) :: after)
  obtain ⟨a,cells,he,h⟩ := allocAll_tiled tiled_init before
  obtain ⟨a',reply,cells',hreply,h',hiff⟩ := handsOutOnce_iff h size val
  exact ⟨⟨last,hlast⟩,a,cells,a',reply,cells',he,h.laid,hreply,h'.laid,hiff⟩

theorem block_in_use_handed_out :
    ¬ ∀ (before : List (Int32 × Char)) (size : Int32) (val : Char) (a : Arena) (cells : List Cell) (a' : Arena)
      (reply : Reply) (cells' : List Cell), allocAll buddyInit before = .ok a → Laid a cells →
      buddyAlloc a size val = .ok (a',reply) → Laid a' cells' → HandsOutOnce size val a cells a' reply cells' := by
  intro hall
  obtain ⟨a,cells,he,h⟩ := allocAll_tiled tiled_init [(1048576,'A')]
  obtain ⟨a',reply,cells',hreply,h',hiff⟩ := handsOutOnce_iff h 1 'B'
  have hwhole : a = ⟨[wholeBlock.allotted 1048576 'A'],buddyInit.lst⟩ :=
    Except.ok.inj (he.symm.trans (by decide))
  have hcells : cells = [(0,wholeBlock.allotted 1048576 'A')] :=
    h.laid.unique ⟨by rw [hwhole]; exact ⟨rfl,rfl⟩,by rw [hwhole]; simp⟩
  rcases hiff.mp (hall _ 1 'B' a cells a' reply cells' he h.laid hreply h'.laid) with hlt | ⟨c,hc,hs⟩
  · exact absurd hlt (by decide)
  · rw [hcells,List.mem_singleton] at hc
    rw [hc] at hs
    exact absurd hs (by decide)

end OperatingSystemLabs.Buddy

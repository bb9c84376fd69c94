import OperatingSystemLabs.Foundation.Interleaving
import OperatingSystemLabs.Buddy.Tiling

namespace OperatingSystemLabs.Buddy

open Loop Links Interleaving

def Arena.prev (a : Arena) (p : Address) : Ptr := a.heap[p]?.bind MemBlock.prev

structure LinkedBothWays (a : Arena) (ps : List Address) : Prop where
  forward : Chain a.next a.lst.head ps
  first : ∀ p ∈ a.lst.head, a.prev p = none
  back : ∀ p ∈ ps, ∀ q ∈ a.next p, a.prev q = some p
  backward : Chain a.prev ps.getLast? ps.reverse

def DoublyLinked (a : Arena) : Prop := ∃ ps, LinkedBothWays a ps

def Allocates (a : Arena) (request : Int32 × Char) (a' : Arena) : Prop :=
  ∃ reply, buddyAlloc a request.1 request.2 = .ok (a',reply)

-- The test of the splitting loop, for a block of this size.
def Splits (size : Int32) (blockSize : Nat) : Prop :=
  blockSize / 2 ≥ toSizeT size ∧ blockSize / 2 ≥ 2 ^ minOrder

def KeepsLinks (a : Arena) (request : Int32 × Char) : Prop :=
  toSizeT request.1 > a.lst.freeMemory ∨
    ∃ p b, findFreeBlock a request.1 = .ok (some p) ∧ a.heap[p]? = some b ∧
      (¬ Splits request.1 b.blockSize ∨ b.next = none ∧ ¬ Splits request.1 (b.blockSize / 2))

structure Appended (p : Address) (a a' : Arena) : Prop where
  grown : a.heap.length ≤ a'.heap.length
  old : ∀ q < a.heap.length, a'.prev q = a.prev q
  new : ∀ q, a.heap.length ≤ q → q < a'.heap.length → a'.prev q = some p

variable {a a' a'' : Arena} {p : Address} {b b' : MemBlock} {size : Int32} {val : Char} {l r pieces : List Cell}
  {j : Nat} {cells : List Cell}

theorem prev_of_heap (h : a.heap[p]? = some b) : a.prev p = b.prev := by
  simp [Arena.prev,h]

theorem deref_inv {x : Ptr} (h : a.deref x = .ok b) : ∃ p, x = some p ∧ a.heap[p]? = some b := by
  cases x with
  | none => cases h
  | some p =>
    simp only [Arena.deref] at h
    split at h
    · next hb =>
      cases h
      exact ⟨p,rfl,hb⟩
    · cases h

theorem appended_refl (p : Address) (a : Arena) : Appended p a a where
  grown := le_rfl
  old _ _ := rfl
  new _ hq hlt := absurd hlt (Nat.not_lt.mpr hq)

theorem Appended.trans (h : Appended p a a') (h' : Appended p a' a'') : Appended p a a'' where
  grown := h.grown.trans h'.grown
  old q hq := (h'.old q (hq.trans_le h.grown)).trans (h.old q hq)
  new q hq hlt := by
    by_cases hq' : q < a'.heap.length
    · exact (h'.old q hq').trans (h.new q hq hq')
    · exact h'.new q (Nat.le_of_not_lt hq') hlt

theorem prev_set {q : Address} (hb : a.heap[p]? = some b) (hprev : b'.prev = b.prev) :
    Arena.prev { a with heap := a.heap.set p b' } q = a.prev q := by
  by_cases hq : q = p
  · subst hq
    rw [prev_of_heap hb,← hprev]
    exact prev_of_heap (by simp [heap_lt hb])
  · simp [Arena.prev,Ne.symm hq]

theorem write_inv {x : Ptr} (hb : a.deref x = .ok b) (h : a.write x b' = .ok a') (hprev : b'.prev = b.prev) :
    a'.heap.length = a.heap.length ∧ ∀ q, a'.prev q = a.prev q := by
  obtain ⟨p,rfl,hp⟩ := deref_inv hb
  rw [write_ok b' hp] at h
  cases h
  exact ⟨List.length_set,fun q => prev_set hp hprev⟩

theorem splitBlock_appended {x y : Ptr} (h : splitBlock a x = .ok (a',y)) :
    y = none ∨ ∃ p, x = some p ∧ y = some p ∧ Appended p a a' := by
  obtain ⟨b,hb,h⟩ := ok_of_bind h
  obtain ⟨p,rfl,hp⟩ := deref_inv hb
  have hlt := heap_lt hp
  by_cases hmin : b.blockSize = 2 ^ minOrder
  · rw [if_pos hmin] at h
    cases h
    exact .inl rfl
  · rw [if_neg hmin] at h
    obtain ⟨a₁,hw,h⟩ := ok_of_bind h
    cases h
    have hp' : (a.heap ++ [b.blockRight (some p)])[p]? = some b := by rw [List.getElem?_append_left hlt,hp]
    obtain ⟨hlen,hprev⟩ := write_inv (b := b) (deref_ok hp') hw rfl
    refine .inr ⟨p,rfl,rfl,?_,fun q hq => (hprev q).trans ?_,fun q hq hq' => (hprev q).trans ?_⟩
    · simp only [List.length_append] at hlen
      show a.heap.length ≤ a₁.heap.length
      omega
    · simp only [Arena.prev,List.getElem?_append_left hq]
    · simp only [List.length_append,List.length_singleton] at hlen
      obtain rfl : q = a.heap.length := by
        have : q < a₁.heap.length := hq'
        omega
      simp [Arena.prev,MemBlock.blockRight]

theorem halving_appended {s : Arena × Ptr}
    (h : Rounds (largeEnough size) (fun s => splitBlock s.1 s.2) (a,some p) s) :
    s.2 = none ∨ s.2 = some p ∧ Appended p a s.1 := by
  let Inv (s : Arena × Ptr) : Prop := s.2 = none ∨ s.2 = some p ∧ Appended p a s.1
  have hround : ∀ s t, Inv s → largeEnough size s = .ok true → splitBlock s.1 s.2 = .ok t → Inv t := by
    rintro ⟨a₁,x⟩ ⟨a₂,y⟩ (rfl | ⟨rfl,hx⟩) hgo hsplit
    · cases hgo
    · rcases splitBlock_appended hsplit with hy | ⟨p',hp,hy,happ⟩
      · exact .inl hy
      · cases hp
        exact .inr ⟨hy,hx.trans happ⟩
  exact h.invariant hround (.inr ⟨rfl,appended_refl p a⟩ : Inv (a,some p))

theorem setBlockOrder_prev {x : Ptr} (h : setBlockOrder a x = .ok a') :
    a'.heap.length = a.heap.length ∧ ∀ q, a'.prev q = a.prev q := by
  obtain ⟨b,hb,h⟩ := ok_of_bind h
  obtain ⟨⟨order,rest⟩,-,h⟩ := ok_of_bind h
  exact write_inv hb h rfl

theorem buddyAlloc_appended (h : buddyAlloc a size val = .ok (a',.allocated (some p))) :
    findFreeBlock a size = .ok (some p) ∧ Appended p a a' ∧
      ∀ b, a.heap[p]? = some b → b.blockSize < toSizeT size → a'.heap.length = a.heap.length := by
  rw [buddyAlloc] at h
  split at h
  · cases h
  obtain ⟨minimum,-,h⟩ := ok_of_bind h
  obtain ⟨x,hfound,h⟩ := ok_of_bind h
  split at h
  · cases h
  obtain ⟨⟨a₁,y⟩,hloop,h⟩ := ok_of_bind h
  obtain ⟨b₁,hb₁,h⟩ := ok_of_bind h
  obtain ⟨a₂,hwrite,h⟩ := ok_of_bind h
  obtain ⟨a₃,horder,h⟩ := ok_of_bind h
  obtain ⟨b₃,-,h⟩ := ok_of_bind h
  split at h
  · cases h
    obtain ⟨hlen₂,hprev₂⟩ := write_inv hb₁ hwrite rfl
    obtain ⟨hlen₃,hprev₃⟩ := setBlockOrder_prev horder
    have hlen : a'.heap.length = a₁.heap.length := hlen₃.trans hlen₂
    have hprev (q : Address) : a'.prev q = a₁.prev q := (hprev₃ q).trans (hprev₂ q)
    obtain ⟨q,rfl⟩ := Option.ne_none_iff_exists'.mp (by assumption : ¬ x = none)
    obtain ⟨hrounds,-⟩ := rounds_of_repeatWhile hloop
    rcases halving_appended hrounds with hy | ⟨hy,happ⟩
    · cases hy
    · cases hy
      refine ⟨hfound,⟨hlen ▸ happ.grown,fun q hq => (hprev q).trans (happ.old q hq),fun q hq hlt => ?_⟩,
        fun b hb hsmall => ?_⟩
      · exact (hprev q).trans (happ.new q hq (hlen ▸ hlt))
      · have hstop : largeEnough size (a,some p) = .ok false := by
          rw [largeEnough_at size hb,decide_eq_false]
          exact fun hgo => Nat.not_le.mpr hsmall (hgo.1.trans (Nat.div_le_self _ 2))
        rw [repeatWhile_stop hstop] at hloop
        cases hloop
        exact hlen
  · cases h

theorem doublyLinked_iff (h : Laid a cells) : DoublyLinked a ↔ Back a.prev none (cells.map Prod.fst) := by
  constructor
  · rintro ⟨ps,hforward,hfirst,hback,-⟩
    obtain rfl := chain_unique hforward h.linked
    exact (back_next hforward).mpr ⟨hfirst,hback⟩
  · intro hb
    obtain ⟨hfirst,hback⟩ := (back_next h.linked).mp hb
    have hend : Chain a.prev none [] := rfl
    exact ⟨_,h.linked,hfirst,hback,by simpa using back_walk hb hend⟩

theorem Handed.pieces_between (h : Handed a size val l p b r j a' b' pieces) :
    ∀ c ∈ pieces, a.heap.length ≤ c.1 ∧ c.1 < a'.heap.length := by
  obtain ⟨a₁,hc,-⟩ := h.halved
  exact fun c hmem => ⟨hc.fresh c hmem,heap_lt (h.laid.held c (by simp [hmem]))⟩

theorem Handed.fits_of_split (h : Handed a size val l p b r j a' b' pieces) (hb : a.heap[p]? = some b)
    (hne : pieces ≠ []) : toSizeT size ≤ 2 ^ j := by
  refine h.fits (Nat.le_of_not_lt fun hsmall => ?_)
  have hlen := (buddyAlloc_appended h.reply).2.2 b hb hsmall
  obtain ⟨c,hc⟩ := List.exists_mem_of_ne_nil pieces hne
  obtain ⟨hle,hlt⟩ := h.pieces_between c hc
  exact Nat.not_lt.mpr hle (hlen ▸ hlt)

theorem splits_pow {i : Nat} : Splits size (2 ^ i) ↔ ∃ k, i = k + 1 ∧ minOrder ≤ k ∧ toSizeT size ≤ 2 ^ k := by
  cases i with
  | zero => exact iff_of_false (fun h => absurd h.2 (by decide)) (by simp)
  | succ k =>
    have hpow : 2 ^ k ≥ 2 ^ minOrder ↔ minOrder ≤ k := Nat.pow_le_pow_iff_right (by decide)
    rw [Splits,half_pow,hpow]
    simp [and_comm]

theorem Handed.splits_iff (h : Handed a size val l p b r j a' b' pieces) (hb : a.heap[p]? = some b) (d : Nat) :
    Splits size (2 ^ (b.order - d)) ↔ d < pieces.length := by
  obtain ⟨a₁,hc,-⟩ := h.halved
  have hlength := hc.pieces_length
  rw [splits_pow]
  constructor
  · rintro ⟨k,hk,hmin,hfits⟩
    by_contra hle
    have htight := h.tight (by omega)
    have hpow : 2 ^ k ≤ 2 ^ (j - 1) := Nat.pow_le_pow_right (by decide) (by omega)
    omega
  · intro hlt
    have hfits := h.fits_of_split hb (List.ne_nil_of_length_pos (by omega))
    refine ⟨b.order - d - 1,by omega,h.least.trans (by omega),hfits.trans ?_⟩
    exact Nat.pow_le_pow_right (by decide) (by omega)

theorem Tiled.addresses_lt (h : Tiled a cells) : ∀ q ∈ cells.map Prod.fst, q < a.heap.length := by
  intro q hq
  obtain ⟨c,hc,rfl⟩ := List.mem_map.mp hq
  exact heap_lt (h.laid.held c hc)

theorem Handed.back_iff (h : Handed a size val l p b r j a' b' pieces) (ht : Tiled a (l ++ (p,b) :: r))
    (hback : Back a.prev none ((l ++ (p,b) :: r).map Prod.fst)) :
    Back a'.prev none ((l ++ (p,b'.allotted size val) :: (pieces ++ r)).map Prod.fst) ↔
      pieces = [] ∨ pieces.length = 1 ∧ r = [] := by
  obtain ⟨-,happ,-⟩ := buddyAlloc_appended h.reply
  have hlt := ht.addresses_lt
  have hnew {c : Cell} (hc : c ∈ pieces) : a'.prev c.1 = some p ∧ c.1 ≠ p := by
    obtain ⟨hge,hlt'⟩ := h.pieces_between c hc
    exact ⟨happ.new c.1 hge hlt',(Nat.lt_of_lt_of_le (hlt p (by simp)) hge).ne'⟩
  simp only [List.map_append,List.map_cons] at hback hlt ⊢
  rw [back_append] at hback
  have hleft : Back a'.prev none (l.map Prod.fst ++ [p]) :=
    (back_congr fun q hq => happ.old q (hlt q (by
      simp only [List.mem_append,List.mem_cons] at hq ⊢
      tauto))).mpr hback.1
  have hright : Back a'.prev (some p) (r.map Prod.fst) :=
    (back_congr fun q hq => happ.old q (hlt q (by simp only [List.mem_append,List.mem_cons]; tauto))).mpr hback.2
  rw [back_append,and_iff_right hleft]
  cases pieces with
  | nil => simpa using hright
  | cons c cs =>
    have hc := hnew (c := c) (by simp)
    cases cs with
    | cons d cs =>
      have hd := hnew (c := d) (by simp)
      have hne : ¬ p = c.1 := hc.2.symm
      simp [Back,hd.1,hne]
    | nil =>
      cases r with
      | nil => simp [Back,hc.1]
      | cons e r =>
        have he : a'.prev e.1 = some p := hright.1
        have hne : ¬ p = c.1 := hc.2.symm
        simp [Back,he,hne]

theorem Laid.next_none_iff (h : Laid a (l ++ (p,b) :: r)) : b.next = none ↔ r = [] := by
  have hlinked := h.linked
  rw [List.map_append,List.map_cons] at hlinked
  have hrest := (chain_suffix hlinked).2
  rw [next_of_heap h.heap_at] at hrest
  cases r with
  | nil => exact iff_of_true hrest rfl
  | cons c r => exact iff_of_false (by rw [hrest.1]; simp) (by simp)

theorem Handed.keepsLinks_iff (h : Handed a size val l p b r j a' b' pieces) (ht : Tiled a (l ++ (p,b) :: r))
    (hsize : toSizeT size ≤ 2 ^ maxOrder) :
    KeepsLinks a (size,val) ↔ pieces = [] ∨ pieces.length = 1 ∧ r = [] := by
  have hb := ht.laid.heap_at
  obtain ⟨hfound,-,-⟩ := buddyAlloc_appended h.reply
  have hwhole : Splits size b.blockSize ↔ 0 < pieces.length := by
    rw [ht.sized (p,b) (by simp)]
    exact h.splits_iff hb 0
  have hhalf : Splits size (b.blockSize / 2) ↔ 1 < pieces.length := by
    obtain ⟨k,hk⟩ : ∃ k, b.order = k + 1 := Nat.exists_eq_succ_of_ne_zero (by
      have := ht.least (p,b) (by simp)
      rintro h0
      rw [h0] at this
      exact absurd this (by decide))
    have hpow := h.splits_iff hb 1
    rw [hk,Nat.add_sub_cancel] at hpow
    rw [ht.sized (p,b) (by simp),hk,half_pow]
    exact hpow
  have hrefused : ¬ toSizeT size > a.lst.freeMemory := by
    rw [ht.free_memory]
    exact Nat.not_lt.mpr hsize
  have hnext := ht.laid.next_none_iff
  constructor
  · rintro (hlt | ⟨q,c,hq,hc,hkeep⟩)
    · exact absurd hlt hrefused
    · obtain rfl : p = q := Option.some.inj (Except.ok.inj (hfound.symm.trans hq))
      obtain rfl : b = c := Option.some.inj (hb.symm.trans hc)
      rw [hwhole,hhalf,hnext] at hkeep
      rcases hkeep with hnone | ⟨hlast,hone⟩
      · exact .inl (List.eq_nil_of_length_eq_zero (Nat.eq_zero_of_not_pos hnone))
      · by_cases hnil : pieces = []
        · exact .inl hnil
        · exact .inr ⟨Nat.le_antisymm (Nat.le_of_not_lt hone) (List.length_pos_iff.mpr hnil),hlast⟩
  · intro hpieces
    refine .inr ⟨p,b,hfound,hb,?_⟩
    rw [hwhole,hhalf,hnext]
    rcases hpieces with rfl | ⟨hone,hlast⟩
    · exact .inl (by simp)
    · exact .inr ⟨hlast,by omega⟩

theorem allocates_links {request : Int32 × Char} (h : Tiled a cells) (hback : Back a.prev none (cells.map Prod.fst))
    (hstep : Allocates a request a') :
    ∃ cells', Tiled a' cells' ∧ (Back a'.prev none (cells'.map Prod.fst) ↔ KeepsLinks a request) := by
  obtain ⟨reply,hreply⟩ := hstep
  by_cases hsize : toSizeT request.1 ≤ 2 ^ maxOrder
  · obtain ⟨l,p,b,r,j,a₁,b',pieces,rfl,hh,-⟩ := buddyAlloc_handed h hsize request.2
    cases hh.reply.symm.trans hreply
    exact ⟨_,h.handed hh,(hh.back_iff h hback).trans (hh.keepsLinks_iff h hsize).symm⟩
  · have hlt := Nat.lt_of_not_le hsize
    cases (buddyAlloc_refused h hlt request.2).symm.trans hreply
    exact ⟨cells,h,iff_of_true hback (.inl (by rw [h.free_memory]; exact hlt))⟩

theorem requests_trace (requests : List (Int32 × Char)) {tr : List (Arena × (Int32 × Char))}
    (htr : Trace Allocates buddyInit tr a) (h : Tiled a cells) :
    ∃ tr' a', Trace Allocates buddyInit (tr ++ tr') a' ∧ tr'.map Prod.snd = requests := by
  induction requests generalizing tr a cells with
  | nil => exact ⟨[],a,by simpa using htr,rfl⟩
  | cons request requests ih =>
    obtain ⟨a₁,reply,cells₁,hreply,h₁⟩ := buddyAlloc_tiled h request.1 request.2
    obtain ⟨tr',a',htr',hmap⟩ := ih (htr.snoc ⟨reply,hreply⟩) h₁
    exact ⟨(a,request) :: tr',a',by simpa using htr',by rw [List.map_cons,hmap]⟩

theorem chain_links_iff (requests : List (Int32 × Char)) :
    ∃ tr a, Trace Allocates buddyInit tr a ∧ tr.map Prod.snd = requests ∧
      (Always DoublyLinked tr a ↔ Throughout KeepsLinks tr) := by
  obtain ⟨tr,a,htr,hmap⟩ := requests_trace requests .start tiled_init
  refine ⟨tr,a,htr,hmap,?_⟩
  let Inv (a : Arena) : Prop := ∃ cells, Tiled a cells ∧ Back a.prev none (cells.map Prod.fst)
  refine htr.always_iff (I := Inv) ⟨_,tiled_init,rfl,trivial⟩ ?_ ?_ ?_
  · rintro a ⟨cells,h,hback⟩
    exact (doublyLinked_iff h.laid).mpr hback
  · rintro a request a' ⟨cells,h,hback⟩ hstep hkeep
    obtain ⟨cells',h',hiff⟩ := allocates_links h hback hstep
    exact ⟨cells',h',hiff.mpr hkeep⟩
  · rintro a request a' ⟨cells,h,hback⟩ hstep hkeep hlinked
    obtain ⟨cells',h',hiff⟩ := allocates_links h hback hstep
    exact hkeep (hiff.mp ((doublyLinked_iff h'.laid).mp hlinked))

-- The first request of main halves the whole block three times.
theorem first_request_breaks_links : ¬ ∀ (requests : List (Int32 × Char)) (tr : List (Arena × (Int32 × Char)))
    (a : Arena), Trace Allocates buddyInit tr a → tr.map Prod.snd = requests → Always DoublyLinked tr a := by
  intro hall
  obtain ⟨a',reply,-,hreply,-⟩ := buddyAlloc_tiled tiled_init 89267 'A'
  have hstep : Allocates buddyInit (89267,'A') a' := ⟨reply,hreply⟩
  have hlinked := (hall [(89267,'A')] _ a' (.snoc .start hstep) rfl).2
  obtain ⟨cells',h',hiff⟩ := allocates_links tiled_init ⟨rfl,trivial⟩ hstep
  rcases hiff.mp ((doublyLinked_iff h'.laid).mp hlinked) with hlt | ⟨p,b,hfound,hb,hkeep⟩
  · exact absurd hlt (by decide)
  · cases (by decide : findFreeBlock buddyInit 89267 = .ok (some 0)).symm.trans hfound
    cases hb
    rcases hkeep with hwhole | ⟨-,hhalf⟩
    · exact hwhole (by simp [Splits]; decide)
    · exact hhalf (by simp [Splits]; decide)

end OperatingSystemLabs.Buddy

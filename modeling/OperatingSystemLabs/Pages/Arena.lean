import Mathlib.Data.List.Chain
import OperatingSystemLabs.Pages.Allocation

namespace OperatingSystemLabs.Pages

structure Block where
  start : Nat
  order : Nat
  deriving DecidableEq, Repr

def Block.Covers (b : Block) (a : Nat) : Prop := b.start ≤ a ∧ a < b.start + 2 ^ b.order

instance (b : Block) (a : Nat) : Decidable (b.Covers a) := inferInstanceAs (Decidable (_ ∧ _))

def Block.Fits (b : Block) : Prop := 2 ^ b.order ∣ b.start ∧ b.start + 2 ^ b.order ≤ 2 ^ maxOrder

def Block.Disjoint (b c : Block) : Prop := ∀ a, ¬ (b.Covers a ∧ c.Covers a)

variable (L : Layout) (m : Memory)

-- The nodes on each free list stand for the free blocks, a node for the block its page starts.
structure Partitions (taken free : List Block) : Prop where
  ordered : ∀ b ∈ free, minOrder ≤ b.order ∧ b.order ≤ maxOrder
  fits : ∀ b ∈ free, b.Fits
  listed : ∀ o, minOrder ≤ o → o ≤ maxOrder → List.IsChain (Linked L m)
    (L.freeAreaAt o :: ((free.filter (·.order = o)).map (fun b => L.pageAt (b.start / pageSize)) ++ [L.freeAreaAt o]))
  covered : ∀ a < 2 ^ maxOrder, (taken ++ free).countP (·.Covers a) = 1

structure Grants (size : Int) (block : Address) (b : Block) : Prop where
  address : block = L.gMemory.start + b.start
  fits : b.Fits
  least : IsLeast {o : Nat | size ≤ 2 ^ o} b.order

def Serves (taken : List Block) (m : Memory) : List Int → Prop
  | [] => ∃ free, Partitions L m taken free
  | size :: sizes => (∃ free, Partitions L m taken free) ∧
      ∃ block m', buddyAlloc L size m = .ok (block,m') ∧
        (block = 0 ∧ Serves taken m' sizes ∨
          ∃ b, Grants L size block b ∧ (∀ c ∈ taken, b.Disjoint c) ∧ Serves (b :: taken) m' sizes)

def ServesAfterInit (sizes : List Int) : Prop := ∃ m', buddyInit L m = .ok m' ∧ Serves L [] m' sizes

variable {L : Layout} {m m' : Memory} {size : Int} {block : Address}

theorem whole_partitions (hempty : ∀ o, minOrder ≤ o → o < maxOrder → Linked L m (L.freeAreaAt o) (L.freeAreaAt o))
    (hfirst : Linked L m (L.freeAreaAt maxOrder) (L.pageAt 0))
    (hlast : Linked L m (L.pageAt 0) (L.freeAreaAt maxOrder)) : Partitions L m [] [⟨0,maxOrder⟩] where
  ordered := by simp [minOrder,maxOrder]
  fits := by simp [Block.Fits]
  listed o ho ho' := by
    rcases ho'.eq_or_lt with rfl | hlt
    · simpa using ⟨hfirst,hlast⟩
    · simpa [hlt.ne'] using hempty o ho hlt
  covered a ha := by simpa [Block.Covers] using ha

theorem grants_inside {b : Block} (h : Grants L size block b) : L.gMemory.Holds block := by
  have hpow : 0 < 2 ^ b.order := Nat.two_pow_pos _
  have hend := h.fits.2
  rw [Object.Holds,L.gMemory_bytes,h.address]
  omega

theorem init_serves (L : Layout) (m : Memory) : ServesAfterInit L m [] := by
  obtain ⟨m',hinit,hempty,hfirst,hlast⟩ := buddyInit_spec L m
  exact ⟨m',hinit,_,whole_partitions hempty hfirst hlast⟩

theorem first_call_lost (L : Layout) (m : Memory) {size : Int} (hsize : size ≤ 2 ^ maxOrder) (sizes : List Int) :
    ¬ ServesAfterInit L m (size :: sizes) := by
  rintro ⟨m',hinit,-,block,m'',hcall,hserves⟩
  obtain ⟨m₁,hinit',-,hfirst,-⟩ := buddyInit_spec L m
  obtain rfl := Except.ok.inj (hinit.symm.trans hinit')
  rcases buddyAlloc_returns_head hcall with ⟨-,hempty⟩ | ⟨j,-,hj,rfl⟩
  · have hself := hempty maxOrder ((order_least size).2 hsize) le_rfl
    rw [hfirst.1] at hself
    exact pageAt_ne_freeAreaAt L (by decide) le_rfl hself
  · rcases hserves with ⟨hnull,-⟩ | ⟨b,hgrants,-⟩
    · exact freeAreaAt_ne_null L hj hnull
    · exact L.area_memory.ne (freeAreaAt_held L hj).1 (grants_inside hgrants) rfl

theorem buddy_alloc_serves_iff (L : Layout) (m : Memory) (sizes : List Int)
    (hsizes : ∀ size ∈ sizes, 2 ^ minOrder ≤ size ∧ size ≤ 2 ^ maxOrder) :
    ServesAfterInit L m sizes ↔ sizes = [] := by
  constructor
  · intro h
    cases sizes with
    | nil => rfl
    | cons size sizes => exact absurd h (first_call_lost L m (hsizes size (by simp)).2 sizes)
  · rintro rfl
    exact init_serves L m

def lowGlobals : Layout where
  pointerSize := 4
  freeArea := ⟨4096,168⟩
  gMemory := ⟨1048576,1048576⟩
  gPages := ⟨8192,2048⟩
  mapped p := 4096 ≤ p ∧ p < 2097152
  pointerSize_pos := by decide
  freeArea_bytes := rfl
  gMemory_bytes := rfl
  gPages_bytes := rfl
  null_unmapped := rfl
  freeArea_mapped _ hp := decide_eq_true ⟨hp.1,hp.2.trans (by decide)⟩
  gMemory_mapped _ hp := decide_eq_true ⟨le_trans (by decide) hp.1,hp.2⟩
  gPages_mapped _ hp := decide_eq_true ⟨le_trans (by decide) hp.1,hp.2.trans (by decide)⟩
  area_memory := .inl (by decide)
  area_pages := .inl (by decide)
  memory_pages := .inr (by decide)

theorem buddy_alloc_serves_iff_low : ServesAfterInit lowGlobals (fun _ => 0) [2 ^ 20] ↔ [(2 : Int) ^ 20] = [] :=
  buddy_alloc_serves_iff lowGlobals (fun _ => 0) [2 ^ 20] (by simp [minOrder,maxOrder])

theorem whole_arena_not_granted : ¬ ∀ L m (sizes : List Int),
    (∀ size ∈ sizes, 2 ^ minOrder ≤ size ∧ size ≤ 2 ^ maxOrder) → ServesAfterInit L m sizes := by
  intro h
  have hserves := h lowGlobals (fun _ => 0) [2 ^ maxOrder] (by simp [minOrder,maxOrder])
  exact first_call_lost lowGlobals (fun _ => 0) le_rfl [] hserves

end OperatingSystemLabs.Pages

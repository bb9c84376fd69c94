import Mathlib.Data.Finset.Max
import Mathlib.Data.Finset.BooleanAlgebra
import Mathlib.Order.WithBot

namespace OperatingSystemLabs.LockOrder

variable {ι κ β : Type}

def Waits (wants : ι → Option κ) (holds : ι → κ → Prop) (i j : ι) : Prop :=
  ∃ k, wants i = some k ∧ holds j k

def CircularWait (wants : ι → Option κ) (holds : ι → κ → Prop) (s : Finset ι) : Prop :=
  s.Nonempty ∧ ∀ i ∈ s, ∃ j ∈ s, Waits wants holds i j

def Ascending [LT β] (rank : κ → β) (wants : ι → Option κ) (holds : ι → κ → Prop) : Prop :=
  ∀ i k l, wants i = some k → holds i l → rank l < rank k

variable [LinearOrder β] {rank : κ → β} {wants : ι → Option κ} {holds : ι → κ → Prop}

theorem no_circular_wait (h : Ascending rank wants holds) (s : Finset ι) :
    ¬ CircularWait wants holds s := by
  rintro ⟨hne,hwait⟩
  let goal (i : ι) : WithBot β := (wants i).elim ⊥ (fun k => (rank k : WithBot β))
  obtain ⟨i,hi,hmax⟩ := s.exists_max_image goal hne
  obtain ⟨j,hj,k,hik,hjk⟩ := hwait i hi
  obtain ⟨-,-,l,hjl,-⟩ := hwait j hj
  have hlt := h j l k hjl hjk
  have hle := hmax j hj
  simp only [goal,hik,hjl,Option.elim_some,WithBot.coe_le_coe] at hle
  exact absurd hle (not_le.mpr hlt)

theorem exists_unblocked [Fintype ι] [Nonempty ι] (h : Ascending rank wants holds) :
    ∃ i, ∀ j, ¬ Waits wants holds i j := by
  by_contra hall
  simp only [not_exists,not_forall,not_not] at hall
  refine no_circular_wait h Finset.univ ⟨Finset.univ_nonempty,fun i _ => ?_⟩
  obtain ⟨j,hj⟩ := hall i
  exact ⟨j,Finset.mem_univ j,hj⟩

end OperatingSystemLabs.LockOrder

import Mathlib.Data.List.Perm.Subperm
import OperatingSystemLabs.Foundation.Links
import OperatingSystemLabs.Buddy.Memory

namespace OperatingSystemLabs.Buddy

open Loop Links

abbrev Cell := Address × MemBlock

def Arena.next (a : Arena) (p : Address) : Ptr := a.heap[p]?.bind MemBlock.next

structure Laid (a : Arena) (cells : List Cell) : Prop where
  linked : Chain a.next a.lst.head (cells.map Prod.fst)
  held : ∀ c ∈ cells, a.heap[c.1]? = some c.2

theorem deref_ok {a : Arena} {p : Address} {b : MemBlock} (h : a.heap[p]? = some b) :
    a.deref (some p) = .ok b := by
  simp [Arena.deref,h]

theorem write_ok {a : Arena} {p : Address} {b : MemBlock} (b' : MemBlock) (h : a.heap[p]? = some b) :
    a.write (some p) b' = .ok { a with heap := a.heap.set p b' } := by
  obtain ⟨hlt,_⟩ := List.getElem?_eq_some_iff.mp h
  simp [Arena.write,hlt]

theorem next_of_heap {a : Arena} {p : Address} {b : MemBlock} (h : a.heap[p]? = some b) :
    a.next p = b.next := by
  simp [Arena.next,h]

theorem heap_lt {a : Arena} {p : Address} {b : MemBlock} (h : a.heap[p]? = some b) : p < a.heap.length :=
  (List.getElem?_eq_some_iff.mp h).1

theorem laid_init : Laid buddyInit [(0,wholeBlock)] where
  linked := ⟨rfl,rfl⟩
  held := by simp [buddyInit]

namespace Laid

variable {a : Arena} {cells l r : List Cell} {p : Address} {b b' : MemBlock}

theorem nodup (h : Laid a cells) : (cells.map Prod.fst).Nodup := chain_nodup h.linked

theorem reread (h : Laid a cells) :
    (cells.map Prod.fst).map (fun p => (p,(a.heap[p]?).getD wholeBlock)) = cells := by
  rw [List.map_map]
  exact (List.map_congr_left fun c hc => by simp [h.held c hc]).trans (List.map_id cells)

theorem unique {cells' : List Cell} (h : Laid a cells) (k : Laid a cells') : cells = cells' := by
  rw [← h.reread,← k.reread,chain_unique h.linked k.linked]

theorem heap_at (h : Laid a (l ++ (p,b) :: r)) : a.heap[p]? = some b := h.held (p,b) (by simp)

theorem apart (h : Laid a (l ++ (p,b) :: r)) : ∀ c ∈ l ++ r, c.1 ≠ p := by
  have hn := h.nodup
  rw [List.map_append,List.map_cons,List.nodup_middle,← List.map_append] at hn
  intro c hc he
  exact (List.nodup_cons.mp hn).1 (List.mem_map.mpr ⟨c,hc,he⟩)

theorem overwrite (h : Laid a (l ++ (p,b) :: r)) (hn : b'.next = b.next) :
    Laid { a with heap := a.heap.set p b' } (l ++ (p,b') :: r) := by
  have hp := heap_lt h.heap_at
  refine ⟨?_,fun c hc => ?_⟩
  · have hnext : ∀ x ∈ (l ++ (p,b) :: r).map Prod.fst,
        Arena.next { a with heap := a.heap.set p b' } x = a.next x := by
      intro x _
      by_cases hx : x = p
      · subst hx
        rw [next_of_heap h.heap_at,← hn]
        exact next_of_heap (by simp [hp])
      · simp [Arena.next,Ne.symm hx]
    simpa using chain_congr hnext h.linked
  · rcases List.mem_append.mp hc with hc | hc
    · have := h.apart c (by simp [hc])
      simpa [List.getElem?_set,Ne.symm this] using h.held c (by simp [hc])
    · rcases List.mem_cons.mp hc with rfl | hc
      · simp [hp]
      · have := h.apart c (by simp [hc])
        simpa [List.getElem?_set,Ne.symm this] using h.held c (by simp [hc])

theorem length_le (h : Laid a cells) : cells.length ≤ a.heap.length := by
  have hsub : cells.map Prod.fst ⊆ List.range a.heap.length := by
    intro p hp
    obtain ⟨c,hc,rfl⟩ := List.mem_map.mp hp
    exact List.mem_range.mpr (heap_lt (h.held c hc))
  simpa using (h.nodup.subperm hsub).length_le

end Laid

end OperatingSystemLabs.Buddy

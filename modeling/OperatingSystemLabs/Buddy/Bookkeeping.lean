import OperatingSystemLabs.Buddy.Tiling

namespace OperatingSystemLabs.Buddy

open Links

abbrev PrintedRow := Nat × Nat × Char × Bool

-- while (i < lst->list_size): `n` rounds are left.
def printFrom (a : Arena) : Nat → Nat → Ptr → Except Stuck (List PrintedRow)
  | 0, _, _ => .ok []
  | n + 1, i, current => do
      let b ← a.deref current
      let rows ← printFrom a n (i + 1) b.next
      return (i,b.blockSize,b.value,b.inUse) :: rows

def printList (a : Arena) : Except Stuck (List PrintedRow) := printFrom a a.lst.listSize 0 a.lst.head

def rowsFrom : Nat → List Cell → List PrintedRow
  | _, [] => []
  | i, c :: cells => (i,c.2.blockSize,c.2.value,c.2.inUse) :: rowsFrom (i + 1) cells

def heldBytes (inUse : Bool) (cells : List Cell) : Nat :=
  ((cells.filter (·.2.inUse = inUse)).map (·.2.blockSize)).sum

structure Bookkept (a : Arena) (cells : List Cell) : Prop where
  counted : a.lst.listSize = cells.length
  printed : printList a = .ok (rowsFrom 0 cells)
  free : a.lst.freeMemory = heldBytes false cells
  allocated : a.lst.allocatedMemory = heldBytes true cells
  total : a.lst.freeMemory + a.lst.allocatedMemory = 2 ^ maxOrder

variable {a : Arena} {cells : List Cell}

theorem printFrom_spec {i n : Nat} {cur : Ptr} (hlinked : Chain a.next cur (cells.map Prod.fst))
    (hheld : ∀ c ∈ cells, a.heap[c.1]? = some c.2) (hn : n ≤ cells.length) :
    printFrom a n i cur = .ok (rowsFrom i (cells.take n)) := by
  induction n generalizing i cur cells with
  | zero => rfl
  | succ n ih =>
    cases cells with
    | nil => exact absurd hn (by simp)
    | cons c cells =>
      obtain ⟨rfl,hrest⟩ := hlinked
      obtain ⟨hc,hheld⟩ := List.forall_mem_cons.mp hheld
      rw [next_of_heap hc] at hrest
      rw [printFrom,bind_ok _ (deref_ok hc),bind_ok _ (ih hrest hheld (Nat.le_of_succ_le_succ hn))]
      rfl

theorem printList_spec (h : Laid a cells) (hn : a.lst.listSize ≤ cells.length) :
    printList a = .ok (rowsFrom 0 (cells.take a.lst.listSize)) :=
  printFrom_spec h.linked h.held hn

theorem heldBytes_cons (inUse : Bool) (c : Cell) (cells : List Cell) :
    heldBytes inUse (c :: cells) = (if c.2.inUse = inUse then c.2.blockSize else 0) + heldBytes inUse cells := by
  by_cases hc : c.2.inUse = inUse
  · simp [heldBytes,hc]
  · simp [heldBytes,hc]

theorem heldBytes_add (cells : List Cell) :
    heldBytes false cells + heldBytes true cells = (cells.map (·.2.blockSize)).sum := by
  induction cells with
  | nil => rfl
  | cons c cells ih =>
    rw [heldBytes_cons,heldBytes_cons,List.map_cons,List.sum_cons,← ih]
    cases c.2.inUse <;> simp <;> omega

theorem heldBytes_used_zero (hpos : ∀ c ∈ cells, 0 < c.2.blockSize) :
    heldBytes true cells = 0 ↔ ∀ c ∈ cells, c.2.inUse = false := by
  induction cells with
  | nil => exact iff_of_true rfl (by simp)
  | cons c cells ih =>
    obtain ⟨hc,hpos⟩ := List.forall_mem_cons.mp hpos
    rw [heldBytes_cons,List.forall_mem_cons,Nat.add_eq_zero_iff,ih hpos]
    cases c.2.inUse
    · simp
    · simp [hc.ne']

theorem Tiled.counted (h : Tiled a cells) : a.lst.listSize + 1 = cells.length := by
  obtain ⟨c,cs,rfl,-⟩ := h.head
  rw [h.lst]
  rfl

theorem Tiled.printed (h : Tiled a cells) : printList a = .ok (rowsFrom 0 cells.dropLast) := by
  have hn := h.counted
  rw [printList_spec h.laid (by omega),List.dropLast_eq_take]
  congr 3
  omega

theorem Tiled.positive (h : Tiled a cells) : ∀ c ∈ cells, 0 < c.2.blockSize := by
  intro c hc
  rw [h.sized c hc]
  exact Nat.two_pow_pos _

theorem Tiled.allocated_memory (h : Tiled a cells) : a.lst.allocatedMemory = 0 := by
  rw [h.lst]
  rfl

theorem bookkeeping_off_by_one (requests : List (Int32 × Char)) :
    ∃ a cells, allocAll buddyInit requests = .ok a ∧ Laid a cells ∧ ¬ Bookkept a cells ∧
      a.lst.listSize + 1 = cells.length ∧ printList a = .ok (rowsFrom 0 cells.dropLast) ∧
      (a.lst.freeMemory = heldBytes false cells ↔ ∀ c ∈ cells, c.2.inUse = false) ∧
      (a.lst.allocatedMemory = heldBytes true cells ↔ ∀ c ∈ cells, c.2.inUse = false) ∧
      a.lst.freeMemory + a.lst.allocatedMemory = 2 ^ maxOrder := by
  obtain ⟨a,cells,he,h⟩ := allocAll_tiled tiled_init requests
  have hused := heldBytes_used_zero h.positive
  have hsum : heldBytes false cells + heldBytes true cells = 2 ^ maxOrder := (heldBytes_add cells).trans h.total
  have hcount := h.counted
  refine ⟨a,cells,he,h.laid,fun hb => ?_,hcount,h.printed,?_,?_,?_⟩
  · have := hb.counted
    omega
  · rw [h.free_memory,← hused]
    omega
  · rw [h.allocated_memory,← hused]
    omega
  · rw [h.free_memory,h.allocated_memory,Nat.add_zero]

theorem fresh_list_counts_no_block : ¬ ∀ (requests : List (Int32 × Char)) (a : Arena) (cells : List Cell),
    allocAll buddyInit requests = .ok a → Laid a cells → Bookkept a cells := by
  intro h
  have hbook := h [] buddyInit [(0,wholeBlock)] rfl laid_init
  exact absurd hbook.counted (by decide)

end OperatingSystemLabs.Buddy

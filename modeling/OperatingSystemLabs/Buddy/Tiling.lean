import OperatingSystemLabs.Buddy.Allocation

namespace OperatingSystemLabs.Buddy

open BuddyTree

theorem buddyAlloc_tiled {a : Arena} {cells : List Cell} (h : Tiled a cells) (size : Int32) (val : Char) :
    ∃ a' reply cells', buddyAlloc a size val = .ok (a',reply) ∧ Tiled a' cells' := by
  by_cases hsize : toSizeT size ≤ 2 ^ maxOrder
  · obtain ⟨l,p,b,r,j,a',b',pieces,rfl,hh,_⟩ := buddyAlloc_handed h hsize val
    exact ⟨a',_,_,hh.reply,h.handed hh⟩
  · exact ⟨a,_,cells,buddyAlloc_refused h (Nat.lt_of_not_le hsize) val,h⟩

theorem allocAll_tiled {a : Arena} {cells : List Cell} (h : Tiled a cells) (requests : List (Int32 × Char)) :
    ∃ a' cells', allocAll a requests = .ok a' ∧ Tiled a' cells' := by
  induction requests generalizing a cells with
  | nil => exact ⟨a,cells,rfl,h⟩
  | cons request requests ih =>
    obtain ⟨a₁,reply,cells₁,he,h₁⟩ := buddyAlloc_tiled h request.1 request.2
    obtain ⟨a',cells',he',h'⟩ := ih h₁
    exact ⟨a',cells',(bind_ok _ he).trans he',h'⟩

theorem Tiled.sizes {a : Arena} {cells l : List Cell} (h : Tiled a cells) (hl : ∀ c ∈ l, c ∈ cells) :
    (l.map (·.2.blockSize)).sum = extent (l.map (·.2.order)) := by
  rw [extent,List.map_map]
  exact congrArg List.sum (List.map_congr_left fun c hc => h.sized c (hl c hc))

theorem Tiled.total {a : Arena} {cells : List Cell} (h : Tiled a cells) :
    (cells.map (·.2.blockSize)).sum = 2 ^ maxOrder := by
  obtain ⟨t,ht⟩ := h.tree
  rw [h.sizes (fun _ hc => hc),← ht,t.leaves_extent]

theorem Tiled.aligned {a : Arena} {l r : List Cell} {c : Cell} (h : Tiled a (l ++ c :: r)) :
    c.2.blockSize ∣ (l.map (·.2.blockSize)).sum := by
  obtain ⟨t,ht⟩ := h.tree
  rw [h.sizes (fun d hd => by simp [hd]),h.sized c (by simp)]
  exact t.leaves_aligned (by rw [ht,List.map_append,List.map_cons])

theorem buddy_list_tiles (requests : List (Int32 × Char)) :
    ∃ a cells, allocAll buddyInit requests = .ok a ∧ Laid a cells ∧
      (∀ c ∈ cells, (∃ k, minOrder ≤ k ∧ k ≤ maxOrder ∧ c.2.blockSize = 2 ^ k) ∧
        c.2.order = c.2.blockSize.log2) ∧
      (cells.map (·.2.blockSize)).sum = 2 ^ maxOrder ∧
      (∀ l c r, cells = l ++ c :: r → c.2.blockSize ∣ (l.map (·.2.blockSize)).sum) ∧
      ∃ t : BuddyTree maxOrder, t.leaves = cells.map (·.2.order) := by
  obtain ⟨a,cells,he,h⟩ := allocAll_tiled tiled_init requests
  refine ⟨a,cells,he,h.laid,fun c hc => ⟨⟨c.2.order,h.least c hc,h.le_max c hc,h.sized c hc⟩,?_⟩,h.total,?_,h.tree⟩
  · rw [h.sized c hc,Nat.log2_two_pow]
  · rintro l c r rfl
    exact h.aligned

end OperatingSystemLabs.Buddy

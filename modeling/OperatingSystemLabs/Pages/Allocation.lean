import Mathlib.Data.Nat.Bitwise
import Mathlib.Order.Bounds.Basic
import Mathlib.Algebra.Order.Ring.Int
import OperatingSystemLabs.Pages.Memory

namespace OperatingSystemLabs.Pages

variable {L : Layout} {m m' : Memory} {size : Int} {block : Address}

-- for (i = 0; (1 << i) < size; i++);
def orderFrom (size : Int) (i : Nat) : Nat :=
  if 2 ^ i < size then orderFrom size (i + 1) else i
termination_by (size - 2 ^ i).toNat
decreasing_by
  have hlt : (2 : Int) ^ i < 2 ^ (i + 1) := by
    rw [pow_succ]
    have := pow_pos (show (0 : Int) < 2 by decide) i
    omega
  omega

def order (size : Int) : Nat := orderFrom size 0

theorem orderFrom_least (size : Int) (i : Nat) (hbelow : ∀ j < i, ¬ size ≤ 2 ^ j) :
    IsLeast {o : Nat | size ≤ 2 ^ o} (orderFrom size i) := by
  fun_induction orderFrom size i with
  | case1 i hlt ih =>
    refine ih fun j hj => ?_
    rcases Nat.lt_succ_iff_lt_or_eq.mp hj with hj | rfl
    · exact hbelow j hj
    · exact not_le.mpr hlt
  | case2 i hge => exact ⟨not_lt.mp hge,fun j hj => not_lt.mp fun hlt => hbelow j hlt hj⟩

theorem order_least (size : Int) : IsLeast {o : Nat | size ≤ 2 ^ o} (order size) :=
  orderFrom_least size 0 (by simp)

theorem order_pow (k : Nat) : order (2 ^ k) = k := by
  refine (order_least _).unique ⟨le_refl ((2 : Int) ^ k),fun j hj => ?_⟩
  exact (pow_le_pow_iff_right₀ (show (1 : Int) < 2 by decide)).mp hj

def buddyInit (L : Layout) (m : Memory) : Except Fault Memory := do
  let m ← (List.range nPages).foldlM (fun m i => initListHead L (L.pageAt i) m) m
  let m ← (List.range' minOrder (maxOrder + 1 - minOrder)).foldlM (fun m i => initListHead L (L.freeAreaAt i) m) m
  listAdd L (L.pageAt 0) (L.freeAreaAt maxOrder) m

-- 0 is NULL; the cast to int is assumed to keep the pointer.
def buddyAlloc (L : Layout) (size : Int) (m : Memory) : Except Fault (Address × Memory) :=
  if order size > maxOrder then .ok (0,m)
  else do
    if !(← listEmpty L (L.freeAreaAt (order size)) m) then
      let block := L.freeAreaAt (order size)
      let m ← listDelInit L (L.freeAreaAt (order size)) m
      return (block,m)
    else
      let (block,m) ← buddyAlloc L (2 ^ (order size + 1)) m
      if block ≠ 0 then
        let buddy := block ^^^ 2 ^ order size
        let m ← listAdd L buddy (L.freeAreaAt (order size)) m
        return (block,m)
      else return (block,m)
termination_by maxOrder + 1 - order size
decreasing_by
  rw [order_pow]
  omega

theorem buddyInit_spec (L : Layout) (m : Memory) : ∃ m', buddyInit L m = .ok m' ∧
    (∀ o, minOrder ≤ o → o < maxOrder → Linked L m' (L.freeAreaAt o) (L.freeAreaAt o)) ∧
    Linked L m' (L.freeAreaAt maxOrder) (L.pageAt 0) ∧ Linked L m' (L.pageAt 0) (L.freeAreaAt maxOrder) := by
  have hzero : 0 < nPages := by decide
  have horders {o : Nat} (ho : minOrder ≤ o) (ho' : o ≤ maxOrder) :
      o ∈ List.range' minOrder (maxOrder + 1 - minOrder) := by
    rw [List.mem_range'_1]
    omega
  obtain ⟨m₁,hpages,-,-⟩ := initAll_spec L.gPages.start (List.range nPages)
    (fun i hi => pageAt_accessible L (List.mem_range.mp hi)) m
  obtain ⟨m₂,hlists,hlinked,-⟩ := initAll_spec L.freeArea.start
    (List.range' minOrder (maxOrder + 1 - minOrder)) (fun i hi => freeAreaAt_accessible L (by
      rw [List.mem_range'_1] at hi
      omega)) m₁
  have hpage := pageAt_held L hzero
  have hoff {o : Nat} (ho : o ≤ maxOrder) :
      L.Outside (next (L.freeAreaAt o)) (L.pageAt 0) ∧ L.Outside (L.prev (L.freeAreaAt o)) (L.pageAt 0) := by
    have hhead := freeAreaAt_held L ho
    exact ⟨⟨L.area_pages.ne hhead.1 hpage.1,L.area_pages.ne hhead.1 hpage.2⟩,
      L.area_pages.ne hhead.2 hpage.1,L.area_pages.ne hhead.2 hpage.2⟩
  obtain ⟨m₃,hadd,hfirst,hlast,hframe⟩ := listAdd_empty (freeAreaAt_accessible L le_rfl) (pageAt_accessible L hzero)
    (hoff le_rfl).1 (hoff le_rfl).2 (hlinked maxOrder (horders (by decide) le_rfl))
  refine ⟨m₃,?_,fun o ho hlt => ?_,hfirst,hlast⟩
  · exact (bind_ok _ hpages).trans ((bind_ok _ hlists).trans hadd)
  · have hslot := slot_outside L L.freeArea.start (Nat.ne_of_lt hlt)
    have hpage := hoff hlt.le
    exact (hlinked o (horders ho hlt.le)).frame (hframe _ hslot.1 hpage.1) (hframe _ hslot.2 hpage.2)

theorem buddyAlloc_beyond (h : maxOrder < order size) : buddyAlloc L size m = .ok (0,m) := by
  rw [buddyAlloc,if_pos h]

theorem listEmpty_ok {head : Address} {empty : Bool} (h : listEmpty L head m = .ok empty) :
    empty = true ↔ m (next head) = head := by
  obtain ⟨after,hload,hret⟩ := ok_of_bind h
  obtain rfl := load_ok hload
  cases hret
  exact beq_iff_eq

theorem buddyAlloc_cases (hle : order size ≤ maxOrder) (h : buddyAlloc L size m = .ok (block,m')) :
    (m (next (L.freeAreaAt (order size))) ≠ L.freeAreaAt (order size) ∧ block = L.freeAreaAt (order size)) ∨
    (m (next (L.freeAreaAt (order size))) = L.freeAreaAt (order size) ∧
      ∃ m'', buddyAlloc L (2 ^ (order size + 1)) m = .ok (block,m'')) := by
  rw [buddyAlloc,if_neg (not_lt.mpr hle)] at h
  obtain ⟨empty,hempty,h⟩ := ok_of_bind h
  cases empty with
  | false =>
    obtain ⟨m₁,-,hret⟩ := ok_of_bind h
    cases hret
    exact .inl ⟨fun hself => Bool.false_ne_true ((listEmpty_ok hempty).mpr hself),rfl⟩
  | true =>
    obtain ⟨⟨block',m₁⟩,hcall,h⟩ := ok_of_bind h
    refine .inr ⟨(listEmpty_ok hempty).mp rfl,m₁,?_⟩
    rw [hcall]
    simp only at h
    split at h
    · obtain ⟨m₂,-,hret⟩ := ok_of_bind h
      cases hret
      rfl
    · cases h
      rfl

theorem buddyAlloc_returns_head (h : buddyAlloc L size m = .ok (block,m')) :
    (block = 0 ∧ ∀ j, order size ≤ j → j ≤ maxOrder → m (next (L.freeAreaAt j)) = L.freeAreaAt j) ∨
    ∃ j, order size ≤ j ∧ j ≤ maxOrder ∧ block = L.freeAreaAt j := by
  induction hk : maxOrder + 1 - order size generalizing size m' with
  | zero =>
    rw [buddyAlloc_beyond (by omega)] at h
    cases h
    exact .inl ⟨rfl,fun j hj hj' => absurd (hj.trans hj') (by omega)⟩
  | succ k ih =>
    rcases buddyAlloc_cases (by omega) h with ⟨-,rfl⟩ | ⟨hself,m₁,hcall⟩
    · exact .inr ⟨order size,le_rfl,by omega,rfl⟩
    · rcases ih hcall (by rw [order_pow]; omega) with ⟨rfl,hempty⟩ | ⟨j,hj,hj',rfl⟩
      · rw [order_pow] at hempty
        refine .inl ⟨rfl,fun j hj hj' => ?_⟩
        rcases hj.eq_or_lt with rfl | hlt
        · exact hself
        · exact hempty j hlt hj'
      · rw [order_pow] at hj
        exact .inr ⟨j,(Nat.le_succ _).trans hj,hj',rfl⟩

end OperatingSystemLabs.Pages

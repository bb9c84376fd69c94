import OperatingSystemLabs.Pages.Arena

namespace OperatingSystemLabs.Pages

inductive Hazard where
  | shiftTooFar (count : Nat)
  | listOutOfRange (i : Nat)
  | fault (f : Fault)
  deriving DecidableEq, Repr

-- 1 << count is an int as long as count is below 31.
def checkShift (count : Nat) : Except Hazard Unit := if count < 31 then .ok () else .error (.shiftTooFar count)

-- The lists that buddy_init initialises.
def checkList (i : Nat) : Except Hazard Unit :=
  if minOrder ≤ i ∧ i ≤ maxOrder then .ok () else .error (.listOutOfRange i)

def searchOrder (size : Int) (i : Nat) : Except Hazard Nat :=
  if i < 31 then
    if 2 ^ i < size then searchOrder size (i + 1) else .ok i
  else .error (.shiftTooFar i)
termination_by 31 - i

theorem searchOrder_eq (size : Int) {i : Nat} (hi : i ≤ 31) :
    searchOrder size i = if orderFrom size i < 31 then .ok (orderFrom size i) else .error (.shiftTooFar 31) := by
  fun_induction searchOrder size i with
  | case1 i hlt hgo ih =>
    rw [orderFrom,if_pos hgo]
    exact ih hlt
  | case2 i hlt hstop => rw [orderFrom,if_neg hstop,if_pos hlt]
  | case3 i hge =>
    obtain rfl : i = 31 := Nat.le_antisymm hi (Nat.le_of_not_lt hge)
    have hle : 31 ≤ orderFrom size 31 := by
      have hmono (k : Nat) : k ≤ orderFrom size k := by
        fun_induction orderFrom size k with
        | case1 k _ ih => exact (Nat.le_succ k).trans ih
        | case2 k _ => exact le_rfl
      exact hmono 31
    rw [if_neg (Nat.not_lt.mpr hle)]

theorem order_le_iff {size : Int} {k : Nat} : order size ≤ k ↔ size ≤ 2 ^ k := by
  constructor
  · intro h
    exact (order_least size).1.trans (pow_le_pow_right₀ (by decide) h)
  · intro h
    exact (order_least size).2 h

theorem search_spec (size : Int) :
    searchOrder size 0 = if order size < 31 then .ok (order size) else .error (.shiftTooFar 31) :=
  searchOrder_eq size (by decide)

theorem search_ok {size : Int} (h : size ≤ 2 ^ 30) : searchOrder size 0 = .ok (order size) := by
  rw [search_spec,if_pos (Nat.lt_succ_of_le (order_le_iff.mpr h))]

theorem search_too_far {size : Int} (h : 2 ^ 30 < size) : searchOrder size 0 = .error (.shiftTooFar 31) := by
  rw [search_spec,if_neg fun hlt => not_lt.mpr (order_le_iff.mp (Nat.le_of_lt_succ hlt)) h]

theorem search_order {size : Int} {i : Nat} (h : searchOrder size 0 = .ok i) : order size = i := by
  rw [search_spec] at h
  split at h
  · exact Except.ok.inj h
  · cases h

def passOn {α : Type} (x : Except Fault α) : Except Hazard α := x.mapError Hazard.fault

-- buddy_alloc with a check before each shift and each use of free_area.
def checkedAlloc (L : Layout) (size : Int) (m : Memory) : Except Hazard (Address × Memory) :=
  match _hi : searchOrder size 0 with
  | .error e => .error e
  | .ok i =>
      if i > maxOrder then .ok (0,m)
      else do
        checkList i
        if !(← passOn (listEmpty L (L.freeAreaAt i) m)) then
          let block := L.freeAreaAt i
          let m ← passOn (listDelInit L (L.freeAreaAt i) m)
          return (block,m)
        else
          checkShift (i + 1)
          let (block,m) ← checkedAlloc L (2 ^ (i + 1)) m
          if block ≠ 0 then
            checkShift i
            let buddy := block ^^^ 2 ^ i
            let m ← passOn (listAdd L buddy (L.freeAreaAt i) m)
            return (block,m)
          else return (block,m)
termination_by maxOrder + 1 - order size
decreasing_by
  rw [order_pow,search_order ‹_›]
  omega

variable {L : Layout} {m m' : Memory} {size : Int}

theorem passOn_bind {α β : Type} (x : Except Fault α) (f : α → Except Fault β) :
    passOn (x >>= f) = passOn x >>= fun a => passOn (f a) := by
  cases x <;> rfl

theorem checkedAlloc_beyond (hsize : size ≤ 2 ^ 30) (hlt : maxOrder < order size) :
    checkedAlloc L size m = .ok (0,m) := by
  rw [checkedAlloc]
  split
  · next e he => cases (search_ok hsize).symm.trans he
  · next i hi => rw [← search_order hi,if_pos hlt]

theorem checkedAlloc_unlisted (hsize : size ≤ 2 ^ 30) (hlt : order size < minOrder) :
    checkedAlloc L size m = .error (.listOutOfRange (order size)) := by
  rw [checkedAlloc]
  split
  · next e he => cases (search_ok hsize).symm.trans he
  · next i hi =>
    have hmax : ¬ order size > maxOrder := Nat.not_lt.mpr (hlt.le.trans (by decide))
    rw [← search_order hi,if_neg hmax,checkList,if_neg fun h => Nat.not_lt.mpr h.1 hlt]
    rfl

theorem checkedAlloc_eq (hsize : size ≤ 2 ^ 30) (hmin : minOrder ≤ order size) :
    checkedAlloc L size m = passOn (buddyAlloc L size m) := by
  induction hk : maxOrder + 1 - order size generalizing size m with
  | zero =>
    have hlt : maxOrder < order size := by omega
    rw [checkedAlloc_beyond hsize hlt,buddyAlloc_beyond hlt]
    rfl
  | succ k ih =>
    have hmax : order size ≤ maxOrder := by omega
    have hcount : order size + 1 < 30 := Nat.lt_of_le_of_lt (Nat.succ_le_succ hmax) (by decide)
    have hnext (m : Memory) :
        checkedAlloc L (2 ^ (order size + 1)) m = passOn (buddyAlloc L (2 ^ (order size + 1)) m) :=
      ih (pow_le_pow_right₀ (by decide) hcount.le) (by rw [order_pow]; omega) (by rw [order_pow]; omega)
    have hlist : checkList (order size) = .ok () := if_pos ⟨hmin,hmax⟩
    have hshift : checkShift (order size + 1) = .ok () := if_pos (hcount.trans (Nat.lt_succ_self 30))
    have hshift' : checkShift (order size) = .ok () := if_pos (by omega)
    have hfull : ¬ (!true) = true := Bool.false_ne_true
    rw [checkedAlloc,buddyAlloc]
    split
    · next e he => cases (search_ok hsize).symm.trans he
    · next i hi =>
      obtain rfl := search_order hi
      rw [if_neg (Nat.not_lt.mpr hmax),if_neg (Nat.not_lt.mpr hmax),bind_ok _ hlist,passOn_bind]
      congr 1
      funext empty
      cases empty with
      | false =>
        rw [if_pos Bool.not_false,if_pos Bool.not_false,passOn_bind]
        rfl
      | true =>
        rw [if_neg hfull,if_neg hfull,bind_ok _ hshift,passOn_bind,hnext]
        congr 1
        funext answer
        obtain ⟨block,m⟩ := answer
        dsimp only
        by_cases hblock : block ≠ 0
        · rw [if_pos hblock,if_pos hblock,bind_ok _ hshift',passOn_bind]
          rfl
        · rw [if_neg hblock,if_neg hblock]
          rfl

structure SafeCall (L : Layout) (m : Memory) (size : Int) : Prop where
  searched : ∃ i, searchOrder size 0 = .ok i
  inRange : ∀ e, checkedAlloc L size m = .error e → ∃ f, e = .fault f
  refused : 2 ^ maxOrder < size → checkedAlloc L size m = .ok (0,m)

theorem passOn_error {α : Type} {x : Except Fault α} {e : Hazard} (h : passOn x = .error e) : ∃ f, e = .fault f := by
  cases x with
  | error f =>
    cases h
    exact ⟨f,rfl⟩
  | ok a => cases h

theorem safeCall_iff (L : Layout) (m : Memory) (size : Int) :
    SafeCall L m size ↔ 2 ^ (minOrder - 1) < size ∧ size ≤ 2 ^ 30 := by
  constructor
  · intro h
    have hsize : size ≤ 2 ^ 30 := by
      by_contra hgt
      obtain ⟨i,hi⟩ := h.searched
      cases (search_too_far (not_le.mp hgt)).symm.trans hi
    refine ⟨?_,hsize⟩
    by_contra hle
    have horder : order size < minOrder := Nat.lt_of_le_of_lt (order_le_iff.mpr (not_lt.mp hle)) (by decide)
    obtain ⟨f,hf⟩ := h.inRange _ (checkedAlloc_unlisted (L := L) (m := m) hsize horder)
    cases hf
  · rintro ⟨hmin,hsize⟩
    have horder : minOrder ≤ order size := by
      by_contra hlt
      exact not_le.mpr hmin (order_le_iff.mp (by omega))
    refine ⟨⟨_,search_ok hsize⟩,fun e he => ?_,fun hbeyond => ?_⟩
    · rw [checkedAlloc_eq hsize horder] at he
      exact passOn_error he
    · refine checkedAlloc_beyond hsize (Nat.lt_of_not_le fun hle => ?_)
      exact not_lt.mpr (order_le_iff.mp hle) hbeyond

theorem request_size_safe_iff (L : Layout) (m : Memory) (size : Int32) :
    SafeCall L m size.toInt ↔ 2 ^ (minOrder - 1) < size.toInt ∧ size.toInt ≤ 2 ^ 30 :=
  safeCall_iff L m size.toInt

theorem one_byte_not_safe : ¬ ∀ (L : Layout) (m m' : Memory) (size : Int32), buddyInit L m = .ok m' →
    SafeCall L m' size.toInt := by
  intro h
  obtain ⟨m',hinit,-⟩ := buddyInit_spec lowGlobals (fun _ => 0)
  exact absurd ((safeCall_iff _ _ _).mp (h _ _ m' 1 hinit)).1 (by decide)

end OperatingSystemLabs.Pages

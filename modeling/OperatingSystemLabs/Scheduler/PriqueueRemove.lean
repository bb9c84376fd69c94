import Mathlib.Data.List.Count
import OperatingSystemLabs.Foundation.Loop
import OperatingSystemLabs.Scheduler.PriqueueOrder

namespace OperatingSystemLabs.Scheduler

variable {α ρ : Type}

-- Reading a local that has no value yet.
inductive Misread where
  | uninitialised
  deriving DecidableEq, Repr

-- `kept` are the nodes before `temp` that stay. `previous` is the last of them, NULL if there is
-- none, and has no value until the first node stays. Where `temp` goes, both branches of the test
-- on `previous` leave the chain without it.
def removeFrom (compared : α → Int) : Option (List α) → List α → Int → Except Misread (List α × Int)
  | kept, [], numRemoved => .ok (kept.getD [],numRemoved)
  | kept, temp :: next, numRemoved =>
      if compared temp = 0 then
        match kept with
        | none => .error .uninitialised
        | some kept => removeFrom compared (some kept) next (numRemoved + 1)
      else removeFrom compared (some (kept.getD [] ++ [temp])) next numRemoved

def priqueueRemove (mem : α → ρ) (q : PriqueueT α ρ) (ptr : α) :
    Except Misread (PriqueueT α ρ × Int) := do
  let (head,numRemoved) ← removeFrom (fun temp => q.cmp (mem temp) (mem ptr)) none q.head 0
  return ({ q with head := head },numRemoved)

section

variable {compared : α → Int}

theorem removeFrom_kept (compared : α → Int) (kept next : List α) (n : Int) :
    removeFrom compared (some kept) next n =
      .ok (kept ++ next.filter (compared · ≠ 0),n + next.countP (compared · = 0)) := by
  induction next generalizing kept n with
  | nil => simp [removeFrom]
  | cons temp next ih =>
    by_cases h : compared temp = 0
    · rw [removeFrom,if_pos h,ih,List.filter_cons_of_neg (by simpa using h),List.countP_cons_of_pos (by simpa using h),
        Nat.cast_succ,Int.add_assoc,Int.add_comm 1]
    · rw [removeFrom,if_neg h,ih,List.filter_cons_of_pos (by simpa using h),
        List.countP_cons_of_neg (by simpa using h)]
      simp

theorem removeFrom_head_kept {head : List α} (h : ∀ x ∈ head.head?, compared x ≠ 0) :
    removeFrom compared none head 0 =
      .ok (head.filter (compared · ≠ 0),head.countP (compared · = 0)) := by
  cases head with
  | nil => rfl
  | cons x next =>
    have hx : compared x ≠ 0 := h x rfl
    rw [removeFrom,if_neg hx,removeFrom_kept,List.filter_cons_of_pos (by simpa using hx),
      List.countP_cons_of_neg (by simpa using hx)]
    simp

theorem removeFrom_head_removed {x : α} (next : List α) (h : compared x = 0) :
    removeFrom compared none (x :: next) 0 = .error .uninitialised := if_pos h

end

theorem filter_eq_filter_iff {p r : α → Bool} {xs : List α} :
    xs.filter p = xs.filter r ↔ ∀ x ∈ xs, p x = r x := by
  refine ⟨fun h x hx => ?_,List.filter_congr⟩
  have hmem : x ∈ xs.filter p ↔ x ∈ xs.filter r := by rw [h]
  rw [List.mem_filter,List.mem_filter,and_iff_right hx,and_iff_right hx] at hmem
  exact Bool.eq_iff_iff.mpr hmem

theorem priqueueRemove_head_kept {mem : α → ρ} {q : PriqueueT α ρ} {ptr : α}
    (h : ∀ x ∈ q.head.head?, q.cmp (mem x) (mem ptr) ≠ 0) :
    priqueueRemove mem q ptr = .ok ({ q with head := q.head.filter (fun x => q.cmp (mem x) (mem ptr) ≠ 0) },
      q.head.countP (fun x => q.cmp (mem x) (mem ptr) = 0)) := by
  rw [priqueueRemove,bind_ok _ (removeFrom_head_kept h)]
  rfl

theorem head_kept_of_ok {mem : α → ρ} {q : PriqueueT α ρ} {ptr : α} {r : PriqueueT α ρ × Int}
    (h : priqueueRemove mem q ptr = .ok r) : ∀ x ∈ q.head.head?, q.cmp (mem x) (mem ptr) ≠ 0 := by
  intro x hx h0
  obtain ⟨next,hq⟩ := List.head?_eq_some_iff.mp hx
  rw [priqueueRemove,hq,removeFrom_head_removed next h0] at h
  cases h

variable [DecidableEq α]

def RemovesAll (mem : α → ρ) (q : PriqueueT α ρ) (ptr : α) : Prop :=
  priqueueRemove mem q ptr = .ok ({ q with head := q.head.filter (· ≠ ptr) },q.head.count ptr)

theorem priqueue_remove_by_identity (mem : α → ρ) (q : PriqueueT α ρ) (ptr : α) :
    RemovesAll mem q ptr ↔
      (∀ x ∈ q.head, q.cmp (mem x) (mem ptr) = 0 ↔ x = ptr) ∧ ∀ x ∈ q.head.head?, x ≠ ptr := by
  constructor
  · intro h
    have hfirst := head_kept_of_ok h
    rw [RemovesAll,priqueueRemove_head_kept hfirst] at h
    have hsame : q.head.filter (fun x => q.cmp (mem x) (mem ptr) ≠ 0) = q.head.filter (· ≠ ptr) :=
      congrArg PriqueueT.head (congrArg Prod.fst (Except.ok.inj h))
    have hiff : ∀ x ∈ q.head, q.cmp (mem x) (mem ptr) = 0 ↔ x = ptr := by
      intro x hx
      simpa using filter_eq_filter_iff.mp hsame x hx
    refine ⟨hiff,fun x hx he => ?_⟩
    exact hfirst x hx ((hiff x (List.mem_of_mem_head? hx)).mpr he)
  · rintro ⟨hiff,hfirst⟩
    have hkept : ∀ x ∈ q.head.head?, q.cmp (mem x) (mem ptr) ≠ 0 := by
      intro x hx h0
      exact hfirst x hx ((hiff x (List.mem_of_mem_head? hx)).mp h0)
    rw [RemovesAll,priqueueRemove_head_kept hkept]
    have hfilter : q.head.filter (fun x => q.cmp (mem x) (mem ptr) ≠ 0) = q.head.filter (· ≠ ptr) :=
      List.filter_congr (fun x hx => by simp [hiff x hx])
    have hcount : q.head.countP (fun x => q.cmp (mem x) (mem ptr) = 0) = q.head.count ptr :=
      List.countP_congr (fun x hx => by simp [hiff x hx])
    rw [hfilter,hcount]

-- The comparer of queuetest.c, and the only element of the queue.
theorem head_not_removed : ¬ ∀ (mem : Int → Int) (q : PriqueueT Int Int) (ptr : Int), RemovesAll mem q ptr := by
  intro h
  have hone := h id { cmp := fun a b => a - b, head := [12] } 12
  rw [RemovesAll,priqueueRemove,removeFrom_head_removed [] (by decide)] at hone
  cases hone

end OperatingSystemLabs.Scheduler

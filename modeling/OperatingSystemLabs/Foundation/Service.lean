import Mathlib.Algebra.BigOperators.Ring.Finset
import Mathlib.Algebra.Order.BigOperators.Group.Finset

namespace OperatingSystemLabs.Service

open Finset

variable {ι : Type} {release work : ι → ℕ} {serves : ℕ → ι → Prop} [∀ n, DecidablePred (serves n)]
variable {jobs : Finset ι} {w : ι → ℕ} {j : ι} {n : ℕ}

-- What is left of each job before each time unit; a job that is not out yet has nothing left.
def left (release work : ι → ℕ) (serves : ℕ → ι → Prop) [∀ n, DecidablePred (serves n)] : ℕ → ι → ℕ
  | 0, j => if release j = 0 then work j else 0
  | n + 1, j =>
      if release j = n + 1 then work j
      else left release work serves n j - if serves n j then 1 else 0

def alive (jobs : Finset ι) (w : ι → ℕ) : Finset ι := jobs.filter (fun j => 0 < w j)

def Single (jobs : Finset ι) (serves : ℕ → ι → Prop) : Prop :=
  ∀ n, ∀ j ∈ jobs, ∀ k ∈ jobs, serves n j → serves n k → j = k

@[simp] theorem mem_alive : j ∈ alive jobs w ↔ j ∈ jobs ∧ 0 < w j := by simp [alive]

theorem alive_subset (jobs : Finset ι) (w : ι → ℕ) : alive jobs w ⊆ jobs := filter_subset _ _

theorem left_unreleased : ∀ n, n < release j → left release work serves n j = 0
  | 0, h => by simp [left,h.ne']
  | n + 1, h => by simp [left,h.ne',left_unreleased n (Nat.lt_of_succ_lt h)]

theorem Single.sum_le [DecidableEq ι] (h : Single jobs serves) (n : ℕ) (w : ι → ℕ) (A : Finset ι) :
    ∑ j ∈ jobs \ A, w j ≤ ∑ j ∈ jobs \ A, (w j - if serves n j then 1 else 0) + 1 := by
  have hone : ∑ j ∈ jobs \ A, (if serves n j then 1 else 0) ≤ 1 := by
    rw [sum_boole,Nat.cast_id,card_le_one]
    intro j hj k hk
    simp only [mem_filter,mem_sdiff] at hj hk
    exact h n j hj.1.1 k hk.1.1 hj.2 hk.2
  calc ∑ j ∈ jobs \ A, w j
      ≤ ∑ j ∈ jobs \ A, ((w j - if serves n j then 1 else 0) + if serves n j then 1 else 0) :=
        sum_le_sum fun j _ => by omega
    _ = ∑ j ∈ jobs \ A, (w j - if serves n j then 1 else 0) +
          ∑ j ∈ jobs \ A, (if serves n j then 1 else 0) := sum_add_distrib
    _ ≤ _ := Nat.add_le_add_left hone _

end OperatingSystemLabs.Service

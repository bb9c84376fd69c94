import OperatingSystemLabs.Foundation.Service

namespace OperatingSystemLabs.ShortestFirst

open Finset Service

variable {ι : Type} [DecidableEq ι]

-- Whatever set of jobs is left out of v, no more is left of u outside some set that is no larger.
def Ahead (jobs : Finset ι) (u v : ι → ℕ) : Prop :=
  ∀ A : Finset ι, ∃ B : Finset ι, B.card ≤ A.card ∧ ∑ j ∈ jobs \ B, u j ≤ ∑ j ∈ jobs \ A, v j

def Shortest (jobs : Finset ι) (release work : ι → ℕ) (serves : ℕ → ι → Prop) [∀ n, DecidablePred (serves n)] : Prop :=
  ∀ n, (alive jobs (left release work serves n)).Nonempty → ∃ j ∈ alive jobs (left release work serves n),
    serves n j ∧ ∀ k ∈ alive jobs (left release work serves n),
      left release work serves n j ≤ left release work serves n k

variable {jobs A B : Finset ι} {u v w u' v' : ι → ℕ} {i j k : ι} {release work : ι → ℕ}
variable {serves serves' : ℕ → ι → Prop} [∀ n, DecidablePred (serves n)] [∀ n, DecidablePred (serves' n)]

theorem ahead_refl (jobs : Finset ι) (w : ι → ℕ) : Ahead jobs w w := fun A => ⟨A,le_rfl,le_rfl⟩

theorem Ahead.of_le (h : Ahead jobs u v) (hle : ∀ j ∈ jobs, w j ≤ u j) : Ahead jobs w v := by
  intro A
  obtain ⟨B,hcard,hsum⟩ := h A
  exact ⟨B,hcard,(sum_le_sum fun j hj => hle j (mem_sdiff.mp hj).1).trans hsum⟩

theorem Ahead.alive_le (h : Ahead jobs u v) : (alive jobs u).card ≤ (alive jobs v).card := by
  obtain ⟨B,hcard,hsum⟩ := h (alive jobs v)
  have hnone : ∑ j ∈ jobs \ alive jobs v, v j = 0 := by
    refine sum_eq_zero fun j hj => ?_
    simp only [mem_sdiff,mem_alive,not_and,not_lt,Nat.le_zero] at hj
    exact hj.2 hj.1
  rw [hnone,Nat.le_zero,sum_eq_zero_iff] at hsum
  refine (card_le_card fun j hj => ?_).trans hcard
  by_contra hB
  obtain ⟨hjobs,hpos⟩ := mem_alive.mp hj
  exact hpos.ne' (hsum j (mem_sdiff.mpr ⟨hjobs,hB⟩))

theorem Ahead.admit {r : ι → Prop} [DecidablePred r] (h : Ahead jobs u v) (hv : ∀ j, r j → v j = 0)
    (p : ι → ℕ) :
    Ahead jobs (fun j => if r j then p j else u j) (fun j => if r j then p j else v j) := by
  intro A
  obtain ⟨B,hcard,hsum⟩ := h (A.filter (¬ r ·))
  refine ⟨B ∪ A.filter r,?_,?_⟩
  · have hunion := card_union_le B (A.filter r)
    have hsplit := card_filter_add_card_filter_not (s := A) r
    omega
  · rw [sum_ite,sum_ite]
    refine add_le_add (sum_le_sum_of_subset fun j hj => ?_) ?_
    · simp only [mem_filter,mem_sdiff,mem_union,not_or,not_and] at hj ⊢
      exact ⟨⟨hj.1.1,fun hA => hj.1.2.2 hA hj.2⟩,hj.2⟩
    calc ∑ j ∈ (jobs \ (B ∪ A.filter r)).filter (¬ r ·), u j ≤ ∑ j ∈ jobs \ B, u j := by
          refine sum_le_sum_of_subset fun j hj => ?_
          simp only [mem_filter,mem_sdiff,mem_union,not_or] at hj ⊢
          exact ⟨hj.1.1,hj.1.2.1⟩
      _ ≤ ∑ j ∈ jobs \ A.filter (¬ r ·), v j := hsum
      _ = ∑ j ∈ (jobs \ A).filter (¬ r ·), v j := by
          refine (sum_subset (fun j hj => ?_) fun j hj hnot => hv j ?_).symm
          · simp only [mem_filter,mem_sdiff,not_and] at hj ⊢
            exact ⟨hj.1.1,fun hA => absurd hA hj.1.2⟩
          · simp only [mem_filter,mem_sdiff,not_and,not_not] at hj hnot
            by_contra hr
            exact hr (hnot ⟨hj.1,fun hA => hr (hj.2 hA)⟩)

theorem sum_update_pred {s : Finset ι} (hj : j ∈ s) (hpos : 0 < w j) :
    ∑ i ∈ s, Function.update w j (w j - 1) i + 1 = ∑ i ∈ s, w i := by
  rw [sum_update_of_mem hj,← sum_sdiff (singleton_subset_iff.mpr hj) (f := w),sum_singleton]
  omega

theorem sum_exchange (hj : j ∈ jobs) (hB : j ∈ B) (hk : k ∈ jobs \ B) :
    ∑ i ∈ jobs \ insert k (B.erase j), w i + w k = ∑ i ∈ jobs \ B, w i + w j := by
  obtain ⟨hkjobs,hkB⟩ := mem_sdiff.mp hk
  have hset : insert k (jobs \ insert k (B.erase j)) = insert j (jobs \ B) := by
    ext i
    simp only [mem_insert,mem_sdiff,mem_erase]
    grind
  have hsum := congrArg (fun s => ∑ i ∈ s, w i) hset
  rw [sum_insert (by simp),sum_insert (by simp [hB])] at hsum
  omega

theorem ahead_of_finished (h : alive jobs u = ∅) (v : ι → ℕ) : Ahead jobs u v := by
  refine fun A => ⟨A,le_rfl,(sum_eq_zero fun j hj => ?_).trans_le (Nat.zero_le _)⟩
  by_contra hpos
  have hmem : j ∈ alive jobs u := mem_alive.mpr ⟨(mem_sdiff.mp hj).1,Nat.pos_of_ne_zero hpos⟩
  simp [h] at hmem

-- If the least job left is in B, then some unfinished job outside B has at least as much left: swap the two.
theorem Ahead.serve (h : Ahead jobs u v) (hj : j ∈ alive jobs u) (hleast : ∀ k ∈ alive jobs u, u j ≤ u k)
    (hv : ∀ A, ∑ i ∈ jobs \ A, v i ≤ ∑ i ∈ jobs \ A, v' i + 1) :
    Ahead jobs (Function.update u j (u j - 1)) v' := by
  intro A
  obtain ⟨hjobs,hpos⟩ := mem_alive.mp hj
  obtain ⟨B,hcard,hsum⟩ := h A
  have hright := hv A
  by_cases hB : j ∈ B
  · by_cases hrest : ∑ k ∈ jobs \ B, u k = 0
    · refine ⟨B,hcard,?_⟩
      rw [sum_update_of_notMem (fun hmem => (mem_sdiff.mp hmem).2 hB),hrest]
      exact Nat.zero_le _
    obtain ⟨k,hk,hkpos⟩ := exists_ne_zero_of_sum_ne_zero hrest
    refine ⟨insert k (B.erase j),?_,?_⟩
    · have hinsert := card_insert_le k (B.erase j)
      have herase := card_erase_add_one hB
      omega
    · have hle := hleast k (mem_alive.mpr ⟨(mem_sdiff.mp hk).1,Nat.pos_of_ne_zero hkpos⟩)
      have hswap := sum_exchange (w := u) hjobs hB hk
      have hmem : j ∈ jobs \ insert k (B.erase j) := by
        simp only [mem_sdiff,mem_insert,mem_erase,ne_eq,not_true,false_and,or_false]
        exact ⟨hjobs,fun heq => (mem_sdiff.mp hk).2 (heq ▸ hB)⟩
      have hleft := sum_update_pred hmem hpos
      omega
  · refine ⟨B,hcard,?_⟩
    have hleft := sum_update_pred (mem_sdiff.mpr ⟨hjobs,hB⟩) hpos
    omega

theorem shortest_stays_ahead (h : Shortest jobs release work serves) (h' : Single jobs serves') : ∀ n,
    Ahead jobs (left release work serves n) (left release work serves' n)
  | 0 => ahead_refl jobs _
  | n + 1 => by
    have ih := shortest_stays_ahead h h' n
    refine Ahead.admit (r := fun j => release j = n + 1)
      (u := fun j => left release work serves n j - if serves n j then 1 else 0)
      (v := fun j => left release work serves' n j - if serves' n j then 1 else 0) ?_ (fun j hj => ?_) work
    rotate_left
    · have hnone : left release work serves' n j = 0 := left_unreleased n (by omega)
      simp [hnone]
    rcases (alive jobs (left release work serves n)).eq_empty_or_nonempty with hnone | hsome
    · exact (ahead_of_finished hnone _).of_le fun j _ => Nat.sub_le _ _
    obtain ⟨j,hj,hserves,hleast⟩ := h n hsome
    refine (ih.serve hj hleast (h'.sum_le n _)).of_le fun k _ => ?_
    by_cases hk : k = j
    · simp [hk,hserves]
    · rw [Function.update_of_ne hk]
      exact Nat.sub_le _ _

theorem shortest_fewest_alive (h : Shortest jobs release work serves) (h' : Single jobs serves') (n : ℕ) :
    (alive jobs (left release work serves n)).card ≤ (alive jobs (left release work serves' n)).card :=
  (shortest_stays_ahead h h' n).alive_le

end OperatingSystemLabs.ShortestFirst

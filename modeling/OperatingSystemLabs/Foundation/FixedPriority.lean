import OperatingSystemLabs.Foundation.Service

namespace OperatingSystemLabs.FixedPriority

open Finset Service

variable {ι ι' κ : Type} [LinearOrder κ]

def Ranked (jobs : Finset ι) (key : ι → κ) (servers : ℕ) (release work : ι → ℕ) (serves : ℕ → ι → Prop)
    [∀ n, DecidablePred (serves n)] : Prop :=
  ∀ n, ∀ j ∈ jobs, serves n j ↔ 0 < left release work serves n j ∧
    ((alive jobs (left release work serves n)).filter (key · < key j)).card < servers

-- The jobs of one history among those of another, as far as who goes before whom and who is out when.
structure Embeds (jobs : Finset ι) (key : ι → κ) (release : ι → ℕ) (jobs' : Finset ι') (key' : ι' → κ)
    (release' : ι' → ℕ) (f : ι' → ι) : Prop where
  maps : ∀ j ∈ jobs', f j ∈ jobs
  injective : Set.InjOn f jobs'
  key : ∀ j ∈ jobs', key (f j) = key' j
  release : ∀ j ∈ jobs', release (f j) = release' j

variable {jobs : Finset ι} {jobs' : Finset ι'} {key : ι → κ} {key' : ι' → κ} {servers servers' : ℕ}
variable {release work : ι → ℕ} {release' work' : ι' → ℕ} {f : ι' → ι} {w : ι → ℕ} {w' : ι' → ℕ}
variable {serves : ℕ → ι → Prop} {serves' : ℕ → ι' → Prop}
variable [∀ n, DecidablePred (serves n)] [∀ n, DecidablePred (serves' n)] {j : ι'}

theorem Embeds.outranked_le (hf : Embeds jobs key release jobs' key' release' f)
    (hw : ∀ k ∈ jobs', w' k ≤ w (f k)) (hj : j ∈ jobs') :
    ((alive jobs' w').filter (key' · < key' j)).card ≤ ((alive jobs w).filter (key · < key (f j))).card := by
  refine card_le_card_of_injOn f (fun k hk => ?_) (hf.injective.mono fun k hk => ?_)
  · simp only [mem_coe,mem_filter,mem_alive] at hk ⊢
    obtain ⟨⟨hk,hpos⟩,hlt⟩ := hk
    rw [hf.key k hk,hf.key j hj]
    exact ⟨⟨hf.maps k hk,hpos.trans_le (hw k hk)⟩,hlt⟩
  · exact (mem_alive.mp (mem_filter.mp hk).1).1

theorem Embeds.outranked_ge (hf : Embeds jobs key release jobs' key' release' f)
    (hw : ∀ k ∈ jobs', w' k = w (f k)) (hj : j ∈ jobs')
    (hbest : ∀ k ∈ jobs, key k < key (f j) → ∃ k' ∈ jobs', f k' = k) :
    ((alive jobs w).filter (key · < key (f j))).card ≤ ((alive jobs' w').filter (key' · < key' j)).card := by
  refine card_le_card_of_surjOn f (fun k hk => ?_)
  simp only [mem_coe,mem_filter,mem_alive] at hk
  obtain ⟨⟨hk,hpos⟩,hlt⟩ := hk
  obtain ⟨k',hk',rfl⟩ := hbest k hk hlt
  refine ⟨k',?_,rfl⟩
  simp only [mem_coe,mem_filter,mem_alive]
  rw [hf.key k' hk',hf.key j hj] at hlt
  exact ⟨⟨hk',(hw k' hk').symm ▸ hpos⟩,hlt⟩

theorem ranked_monotone (h : Ranked jobs key servers release work serves)
    (h' : Ranked jobs' key' servers' release' work' serves') (hf : Embeds jobs key release jobs' key' release' f)
    (hservers : servers ≤ servers') (hwork : ∀ j ∈ jobs', work' j ≤ work (f j)) : ∀ n, ∀ j ∈ jobs',
    left release' work' serves' n j ≤ left release work serves n (f j)
  | 0, j, hj => by
    rw [left,left,hf.release j hj]
    split
    · exact hwork j hj
    · exact le_rfl
  | n + 1, j, hj => by
    have ih := ranked_monotone h h' hf hservers hwork n
    rw [left,left,hf.release j hj]
    split
    · exact hwork j hj
    have hle := ih j hj
    by_cases hpos : 0 < left release' work' serves' n j
    · by_cases hserves : serves n (f j)
      · have hrank := ((h n (f j) (hf.maps j hj)).mp hserves).2
        have hserves' : serves' n j :=
          (h' n j hj).mpr ⟨hpos,((hf.outranked_le ih hj).trans_lt hrank).trans_le hservers⟩
        rw [if_pos hserves,if_pos hserves']
        exact Nat.sub_le_sub_right hle 1
      · rw [if_neg hserves]
        exact (Nat.sub_le _ _).trans hle
    · omega

theorem ranked_isolated (h : Ranked jobs key servers release work serves)
    (h' : Ranked jobs' key' servers release' work' serves') (hf : Embeds jobs key release jobs' key' release' f)
    (hwork : ∀ j ∈ jobs', work' j = work (f j))
    (hbest : ∀ j ∈ jobs', ∀ k ∈ jobs, key k < key (f j) → ∃ k' ∈ jobs', f k' = k) : ∀ n, ∀ j ∈ jobs',
    left release' work' serves' n j = left release work serves n (f j) ∧ (serves' n j ↔ serves n (f j)) := by
  have hserves (n : ℕ) (hw : ∀ j ∈ jobs', left release' work' serves' n j = left release work serves n (f j))
      (j : ι') (hj : j ∈ jobs') : serves' n j ↔ serves n (f j) := by
    have hrank := le_antisymm (hf.outranked_le (fun k hk => (hw k hk).le) hj) (hf.outranked_ge hw hj (hbest j hj))
    rw [h' n j hj,h n (f j) (hf.maps j hj),hw j hj,hrank]
  have hleft : ∀ n, ∀ j ∈ jobs', left release' work' serves' n j = left release work serves n (f j) := by
    intro n
    induction n with
    | zero =>
      intro j hj
      rw [left,left,hf.release j hj,hwork j hj]
    | succ n ih =>
      intro j hj
      simp only [left,hf.release j hj,hwork j hj,ih j hj,hserves n ih j hj]
  exact fun n j hj => ⟨hleft n j hj,hserves n (hleft n) j hj⟩

end OperatingSystemLabs.FixedPriority

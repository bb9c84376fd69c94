import OperatingSystemLabs.Scheduler.Occupancy

namespace OperatingSystemLabs.Scheduler

open Insertion Keyed

def Evicts (scheme : SchemeT) (cores : Nat) (jobs : List JobT) (t : Int) (new v : JobT) : Prop :=
  scheme.preemptive = true ∧ ∃ front wait, jobs = front ++ v :: wait ∧ front.length + 1 = cores ∧
    (∀ j ∈ front ++ [v], Running j) ∧
    ¬ Placed scheme.compare new ((front ++ [v]).map (·.charged t)) []

variable {scheme : SchemeT} {cores : Nat} {b b' : Board} {ret id t run pri : Int} {v : JobT}

theorem evicts_of_core (h : Step scheme cores (.newJob id t run pri) b ret b') (hs : Sound cores b.jobs)
    (hv : v ∈ b.jobs) (hr : Running v) (hc : v.coreId = ret) :
    Evicts scheme cores b.jobs t (JobT.new id t run pri) v := by
  cases h with
  | startIdle _ _ _ _ hidle => exact absurd hc (hidle v hv)
  | @preempt _ _ _ _ _ front l r wait w hp hsplit hlen hf hplaced _ hfront hw _ =>
    have hwv : w = v := Sound.core_injective hs (by simp [hsplit]) hv hc.symm hw
    subst hwv
    refine ⟨hp,front,wait,hsplit,hlen,forall_mem_snoc hfront hw,?_⟩
    rw [List.map_append,hf,List.map_singleton,List.append_assoc]
    cases r with
    | nil => exact not_placed_past hplaced
    | cons y r => exact not_placed_past hplaced
  | queueBehind => exact absurd hc hr
  | queueUp => exact absurd hc hr

theorem running_le_of_free {jobs : List JobT} {c : Int} (hs : Sound cores jobs) (h0 : 0 ≤ c)
    (hc : c < cores) (hfree : ∀ j ∈ jobs, j.coreId ≠ c) : (jobs.filter (Running ·)).length + 1 ≤ cores := by
  have hnew : c ∉ (jobs.filter (Running ·)).map JobT.coreId := by
    intro h
    obtain ⟨j,hj,hjc⟩ := List.mem_map.mp h
    exact hfree j (List.mem_of_mem_filter hj) hjc
  have hnodup := List.nodup_cons.mpr ⟨hnew,running_cores_nodup hs⟩
  have hle := length_le_of_bounded (n := cores) hnodup (fun d hd => ?_)
  · simpa using hle
  · rcases List.mem_cons.mp hd with rfl | hd
    · exact ⟨h0,hc⟩
    · exact running_cores_valid hs d hd

theorem core_of_evicts (h : Step scheme cores (.newJob id t run pri) b ret b') (hs : Sound cores b.jobs)
    (he : Evicts scheme cores b.jobs t (JobT.new id t run pri) v) :
    v.coreId = ret := by
  obtain ⟨hp,front,wait,hjobs,hlen,hrun,hnot⟩ := he
  cases h with
  | startIdle _ _ h0 hc hidle =>
    have hle := running_le_of_free hs h0 hc hidle
    have hsplit : b.jobs = (front ++ [v]) ++ wait := by simp [hjobs]
    rw [hsplit,List.filter_append,filter_self (fun j hj => decide_eq_true (hrun j hj))] at hle
    simp only [List.length_append,List.length_singleton] at hle
    omega
  | @preempt _ _ _ _ _ front' l r wait' w _ hsplit hlen' _ _ _ _ _ _ =>
    have hfront := List.append_inj (hjobs.symm.trans hsplit) (by omega)
    exact congrArg JobT.coreId (List.cons.inj hfront.2).1
  | @queueBehind _ _ _ _ _ front' l r _ hsplit hlen' hplaced _ _ _ =>
    have hsplit' : (front ++ [v]) ++ wait = front' ++ (l ++ r) := by
      rw [← hsplit,hjobs]
      simp
    have hfront := (List.append_inj hsplit' (by simp; omega)).1
    rw [hfront] at hnot
    have hne : front'.map (·.charged t) ≠ [] := by simp [← hfront]
    exact absurd (placed_past hne hplaced) hnot
  | queueUp hnp => exact absurd (hp.symm.trans hnp) (by decide)

end OperatingSystemLabs.Scheduler

import Mathlib.Data.List.Induction
import OperatingSystemLabs.Simulator.Agreement

namespace OperatingSystemLabs.Simulator

open Scheduler Transition

structure Finishable (o : Options) (m : Machine) (job : SimulatorJobListT) : Prop where
  arrived : job.arrived = true
  queued : ∃ k ∈ m.lib.jobs, k.jobId = job.jobId
  seated : 0 ≤ job.coreId ∧ job.coreId < o.cores

def FinishesOnly (o : Options) (m : Machine) : Prop :=
  ∀ i job, m.pc = .checkFinished i → m.jobs[i]? = some job → job.runTime = 0 → Finishable o m job

def Simulated (o : Options) (rows : List Row) : Prop :=
  ∀ m, Visits o rows m → (∃ m', step o m = .ok m') ∧ FinishesOnly o m

variable {o : Options} {m m' : Machine} {rows : List Row}

structure Kept (o : Options) (m : Machine) : Prop where
  followed : Followed o m
  phased : PhasedBy (fun p q => p → q) m

theorem kept_step (hcores : 1 ≤ o.cores) : Preserved (step o) (Kept o) := by
  intro m h
  obtain ⟨m',hm,hmove⟩ := step_move h.followed h.phased dates_imp hcores
  exact ⟨m',hm,move_followed h.followed hmove,move_phased_by dates_imp h.phased hmove⟩

theorem Kept.finishes (h : Kept o m) : FinishesOnly o m := by
  intro i job hpc hget hrun
  have hphased := h.phased
  rw [PhasedBy,hpc] at hphased
  have hmem := List.mem_of_getElem? hget
  have hcore := hphased.2.2 job hmem hrun
  have harrived := h.followed.arrived_of_seated hmem hcore
  obtain ⟨k,hk,hid,-⟩ := h.followed.record hmem harrived
  exact ⟨harrived,⟨k,hk,hid⟩,h.followed.valid hmem hcore⟩

theorem start_kept (o : Options) (h : ∀ row ∈ rows, row.runTime ≠ 0) : Kept o (start o rows) where
  followed := start_followed o rows
  phased := by
    refine ⟨fun job hj harrived => ?_,by simp [Unfinished],fun job hj hrun => ?_⟩
    · rw [(mem_loadJobs hj).2.2.1] at harrived
      cases harrived
    · obtain ⟨-,-,-,row,hrow,-,hrun'⟩ := mem_loadJobs hj
      exact absurd (hrun'.symm.trans hrun) (h row hrow)

theorem visits_first_pass (o : Options) {l r : List SimulatorJobListT} (hjobs : loadJobs 0 rows = l ++ r)
    (hrun : Unfinished l) : Visits o rows { start o rows with pc := .checkFinished l.length } := by
  induction l using List.reverseRecOn generalizing r with
  | nil => exact Reach.refl (step o) _
  | append_singleton l job ih =>
    rw [List.append_assoc] at hjobs
    have hbefore := ih hjobs (fun k hk => hrun k (List.mem_append_left _ hk))
    have hget : (start o rows).jobs[l.length]? = some job := by
      show (loadJobs 0 rows)[l.length]? = some job
      simp [hjobs]
    refine hbefore.tail ?_
    simp only [step,checkFinished,hget]
    rw [if_neg (hrun job (by simp)),List.length_append,List.length_singleton]

theorem simulated_nonzero (o : Options) (h : Simulated o rows) : ∀ row ∈ rows, row.runTime ≠ 0 := by
  intro row hrow hzero
  have hsome : ((loadJobs 0 rows).find? (fun job => job.runTime = 0)).isSome := by
    rw [← loadJobs_rows 0 rows] at hrow
    obtain ⟨job,hj,rfl⟩ := List.mem_map.mp hrow
    exact List.find?_isSome.mpr ⟨job,hj,decide_eq_true hzero⟩
  obtain ⟨job,hfind⟩ := Option.isSome_iff_exists.mp hsome
  obtain ⟨hrun,l,r,hjobs,hl⟩ := List.find?_eq_some_iff_append.mp hfind
  have hvisits := visits_first_pass o hjobs (fun k hk => by simpa using hl k hk)
  have hget : (start o rows).jobs[l.length]? = some job := by
    show (loadJobs 0 rows)[l.length]? = some job
    simp [hjobs]
  have harrived := ((h _ hvisits).2 l.length job rfl hget (of_decide_eq_true hrun)).arrived
  rw [(mem_loadJobs (hjobs ▸ List.mem_append_right l List.mem_cons_self)).2.2.1] at harrived
  cases harrived

theorem simulated_iff_nonzero (hcores : 1 ≤ o.cores) (rows : List Row) :
    Simulated o rows ↔ ∀ row ∈ rows, row.runTime ≠ 0 := by
  refine ⟨simulated_nonzero o,fun h m hv => ?_⟩
  have hkept := (kept_step hcores).reach (start_kept o h) hv
  obtain ⟨m',hm,-⟩ := kept_step hcores m hkept
  exact ⟨⟨m',hm⟩,hkept.finishes⟩

theorem simulated_iff_nonzero_negative : Simulated ⟨2,.rr,2⟩ [⟨0,3,1⟩,⟨-4,-1,0⟩,⟨1,-2,5⟩] :=
  (simulated_iff_nonzero (by decide) _).mpr (by simp)

theorem zero_row_dereferences_null : ¬ ∀ o rows, 1 ≤ o.cores → Simulated o rows := by
  intro h
  obtain ⟨⟨m',hm⟩,-⟩ := h ⟨1,.fcfs,0⟩ [⟨0,0,0⟩] (by decide) _ (Reach.refl _ _)
  have hfault : step ⟨1,.fcfs,0⟩ (start ⟨1,.fcfs,0⟩ [⟨0,0,0⟩]) = .error .nullDereference := rfl
  rw [hfault] at hm
  cases hm

end OperatingSystemLabs.Simulator

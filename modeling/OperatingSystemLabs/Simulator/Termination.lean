import Mathlib.Algebra.Order.BigOperators.Group.List
import Mathlib.Algebra.Order.Ring.Nat
import OperatingSystemLabs.Simulator.Chronicle

namespace OperatingSystemLabs.Simulator

open Scheduler Keyed Transition

def workLeft (jobs : List SimulatorJobListT) : Nat := (jobs.map (fun job => job.runTime.toNat)).sum

def ticksLeft (last : Int) (m : Machine) : Nat := workLeft m.jobs + (last + 1 - m.time).toNat

def phaseRank (o : Options) (m : Machine) : Nat × Nat :=
  match m.pc with
  | .checkFinished i => (3,m.jobs.length - i)
  | .checkQuantums i => (2,o.cores - i)
  | .checkArrivals i => (1,m.jobs.length - i)
  | .runTimeUnit => (0,0)
  | .done => (0,0)

def rank (o : Options) (last : Int) (m : Machine) : Nat × Nat × Nat := (ticksLeft last m,phaseRank o m)

def Below : Nat × Nat × Nat → Nat × Nat × Nat → Prop := Prod.Lex (· < ·) (Prod.Lex (· < ·) (· < ·))

def lastArrival (rows : List Row) : Int := (rows.map (·.arrivalTime)).foldr max 0

def totalRunTime (rows : List Row) : Int := (rows.map (·.runTime)).sum

-- Until the last arrival the simulation is in time; after it every tick works something off.
structure Timely (last total : Int) (m : Machine) : Prop where
  owed : workLeft m.jobs ≤ total
  bound : m.time ≤ last ∨ m.time + workLeft m.jobs ≤ last + total

def Event.newJob? : Event → Option Int
  | .called (.newJob id _ _ _) _ => some id
  | _ => none

def Event.jobFinished? : Event → Option Int
  | .called (.jobFinished _ id _) _ => some id
  | _ => none

def newJobs (log : List Event) : List Int := log.filterMap Event.newJob?

def jobsFinished (log : List Event) : List Int := log.filterMap Event.jobFinished?

def admitted (jobs : List SimulatorJobListT) : List Int := (jobs.filter (·.arrived)).map (·.jobId)

structure Reported (rows : List Row) (m : Machine) : Prop where
  entered : (newJobs m.log).Perm (admitted m.jobs ++ jobsFinished m.log)
  whole : ((loadJobs 0 rows).map (·.jobId)).Perm (m.jobs.map (·.jobId) ++ jobsFinished m.log)

variable {o : Options} {rows : List Row} {m m' : Machine} {last total : Int} {log : List Event}
variable {jobs l r : List SimulatorJobListT} {job : SimulatorJobListT}
variable {f : SimulatorJobListT → SimulatorJobListT}

theorem below_wellFounded : WellFounded Below :=
  Nat.lt_wfRel.wf.prod_lex (Nat.lt_wfRel.wf.prod_lex Nat.lt_wfRel.wf)

theorem below_of_phase {n p q i k : Nat} (h : p < q) : Below (n,p,i) (n,q,k) :=
  .right n (.left i k h)

theorem below_of_index {n p i k : Nat} (h : i < k) : Below (n,p,i) (n,p,k) := .right n (.right p h)

theorem workLeft_map (h : ∀ job, (f job).runTime = job.runTime) : workLeft (jobs.map f) = workLeft jobs := by
  rw [workLeft,List.map_map]
  congr 1
  exact List.map_congr_left (fun job _ => congrArg Int.toNat (h job))

theorem workLeft_perm (h : l.Perm r) : workLeft l = workLeft r := (h.map _).sum_eq

theorem workLeft_split : workLeft (l ++ job :: r) = job.runTime.toNat + workLeft (l ++ r) := by
  rw [workLeft_perm List.perm_middle]
  exact List.sum_cons

theorem work_runTime_le (job : SimulatorJobListT) : (work job).runTime ≤ job.runTime := by
  unfold work
  split
  · simp only
    omega
  · exact le_refl _

theorem workLeft_work_le : workLeft (jobs.map work) ≤ workLeft jobs := by
  rw [workLeft,List.map_map]
  exact List.sum_le_sum (fun job _ => Int.toNat_le_toNat (work_runTime_le job))

theorem workLeft_work_lt (hj : job ∈ jobs) (hc : job.coreId ≠ -1) (hrun : 1 ≤ job.runTime) :
    workLeft (jobs.map work) < workLeft jobs := by
  rw [workLeft,List.map_map]
  refine List.sum_lt_sum _ _ (fun k _ => Int.toNat_le_toNat (work_runTime_le k)) ⟨job,hj,?_⟩
  rw [Function.comp_apply,work,if_pos hc]
  simp only
  omega

theorem Steady.working (hs : Steady o m) (hcores : 1 ≤ o.cores) (hpc : m.pc = .runTimeUnit)
    (hlast : ∀ job ∈ m.jobs, job.arrivalTime ≤ m.time) : workLeft (m.jobs.map work) < workLeft m.jobs := by
  obtain ⟨ht,hp⟩ := hs
  rw [Phased,hpc] at hp
  obtain ⟨hadmitted,hunfinished,hne⟩ := hp
  obtain ⟨job,hj⟩ := List.exists_mem_of_ne_nil _ hne
  have halive : 0 < m.jobsAlive := by
    rw [ht.alive_entries]
    have harrived := (hadmitted job hj).mpr (hlast job hj)
    exact Int.natCast_pos.mpr (List.length_pos_of_mem (mem_entries.mpr ⟨job,hj,harrived,rfl⟩))
  obtain ⟨k,hk,hkc⟩ := ht.somebody hcores halive
  refine workLeft_work_lt hk hkc ?_
  have := ht.owed k hk
  have := hunfinished k hk
  omega

theorem move_work (hm : Move o m m') :
    (workLeft m'.jobs = workLeft m.jobs ∧ m'.time = m.time) ∨
      m.pc = .runTimeUnit ∧ m'.jobs = m.jobs.map work ∧ m'.time = m.time + 1 := by
  cases hm with
  | @finished l r r' job lib' ret _ hj hrun hperm =>
    refine .inl ⟨?_,rfl⟩
    rw [workLeft_map (reseats_seat ret job.coreId).runTime,workLeft_perm (hperm.append_left l),hj,
      workLeft_split,hrun]
    exact (Nat.zero_add _).symm
  | @expired i job lib' ret =>
    refine .inl ⟨?_,rfl⟩
    rw [List.map_map]
    exact workLeft_map (reseats_comp (reseats_leave i) (reseats_seat ret i)).runTime
  | @arrived l r job lib' ret _ hj =>
    refine .inl ⟨?_,rfl⟩
    rw [workLeft_split,← List.map_append,workLeft_map (reseats_leave ret).runTime,hj,workLeft_split]
  | ran diagram hpc => exact .inr ⟨hpc,rfl,rfl⟩
  | _ => exact .inl ⟨rfl,rfl⟩

theorem move_ticks (hm : Move o m m') (hpc : m.pc ≠ .runTimeUnit) :
    ticksLeft last m' = ticksLeft last m := by
  rcases move_work hm with ⟨hwork,htime⟩ | ⟨hunit,-⟩
  · rw [ticksLeft,hwork,htime,ticksLeft]
  · exact absurd hunit hpc

theorem move_below (hs : Steady o m) (hcores : 1 ≤ o.cores)
    (hlast : ∀ job ∈ m.jobs, job.arrivalTime ≤ last) (hpc : m.pc ≠ .done) (hm : Move o m m') :
    Below (rank o last m') (rank o last m) := by
  by_cases hunit : m.pc = .runTimeUnit
  · cases hm with
    | ran diagram =>
      have hle : workLeft (m.jobs.map work) ≤ workLeft m.jobs := workLeft_work_le
      refine .left _ _ ?_
      simp only [ticksLeft]
      by_cases hpast : m.time ≤ last
      · omega
      · -- every job has arrived, so some core works
        have hlt := hs.working hcores hunit (fun job hj => by have := hlast job hj; omega)
        omega
    | stopped hpc' => exact absurd hpc' hpc
    | _ => cases hunit.symm.trans ‹m.pc = _›
  · rw [rank,move_ticks hm hunit,rank]
    cases hm with
    | @unfinished l r job hpc' hj =>
      simp only [phaseRank,hpc']
      refine below_of_index ?_
      rw [hj,List.length_append,List.length_cons]
      omega
    | @finished l r r' job lib' ret hpc' hj hrun hperm =>
      simp only [phaseRank,hpc']
      refine below_of_index ?_
      rw [hj,List.length_map,List.length_append,List.length_append,List.length_cons,hperm.length_eq]
      omega
    | allFinished hpc' =>
      simp only [phaseRank,hpc']
      exact below_of_phase (by decide)
    | toQuantums hpc' =>
      simp only [phaseRank,hpc']
      exact below_of_phase (by decide)
    | unexpired hpc' _ hi =>
      simp only [phaseRank,hpc']
      exact below_of_index (by omega)
    | expired hpc' _ hi =>
      simp only [phaseRank,hpc']
      exact below_of_index (by omega)
    | toArrivals hpc' =>
      simp only [phaseRank,hpc']
      exact below_of_phase (by decide)
    | @elsewhen l r job hpc' hj =>
      simp only [phaseRank,hpc']
      refine below_of_index ?_
      rw [hj,List.length_append,List.length_cons]
      omega
    | @arrived l r job lib' ret hpc' hj =>
      simp only [phaseRank,hpc']
      refine below_of_index ?_
      simp only [hj,List.length_append,List.length_cons,List.length_map]
      omega
    | toUnit hpc' =>
      simp only [phaseRank,hpc']
      exact below_of_phase (by decide)
    | ran diagram hpc' => exact absurd hpc' hunit
    | stopped hpc' => exact absurd hpc' hpc

theorem exists_last (jobs : List SimulatorJobListT) : ∃ last, ∀ job ∈ jobs, job.arrivalTime ≤ last := by
  induction jobs with
  | nil => exact ⟨0,nofun⟩
  | cons job jobs ih =>
    obtain ⟨last,hlast⟩ := ih
    refine ⟨max job.arrivalTime last,fun k hk => ?_⟩
    rcases List.mem_cons.mp hk with rfl | hk
    · exact le_max_left _ _
    · exact (hlast k hk).trans (le_max_right _ _)

theorem simulator_ends (hcores : 1 ≤ o.cores) (h : Runnable rows) : ∃ m, Ends o rows m := by
  obtain ⟨last,hlast⟩ := exists_last (loadJobs 0 rows)
  have hstep : ∀ m, Steady o m ∧ Recorded rows m → ¬ m.pc = .done → ∃ m', step o m = .ok m' ∧
      (Steady o m' ∧ Recorded rows m') ∧ Below (rank o last m') (rank o last m) := by
    rintro m ⟨hs,hr⟩ hpc
    obtain ⟨m',hm',hmove,hs'⟩ := steady_move hs hcores
    refine ⟨m',hm',⟨hs',move_recorded hs hr hmove⟩,move_below hs hcores (fun job hj => ?_) hpc hmove⟩
    obtain ⟨loaded,hl,hc⟩ := hr.origin job hj
    exact hc.arrivalTime ▸ hlast loaded hl
  obtain ⟨m,hreach,-,hdone⟩ := reach_final below_wellFounded (rank o last) hstep
    ⟨start_steady o h,start_recorded o h⟩
  exact ⟨m,hreach,hdone⟩

theorem arrival_le_last {row : Row} (h : row ∈ rows) : row.arrivalTime ≤ lastArrival rows := by
  induction rows with
  | nil => cases h
  | cons first rows ih =>
    rcases List.mem_cons.mp h with rfl | h
    · exact le_max_left _ _
    · exact (ih h).trans (le_max_right _ _)

theorem lastArrival_nonneg (rows : List Row) : 0 ≤ lastArrival rows := by
  induction rows with
  | nil => exact le_refl _
  | cons row rows ih => exact ih.trans (le_max_right _ _)

theorem loaded_work (n : Int) (h : Runnable rows) : workLeft (loadJobs n rows) = totalRunTime rows := by
  induction rows generalizing n with
  | nil => rfl
  | cons row rows ih =>
    have hrun := (h row List.mem_cons_self).1
    have hrest := ih (n + 1) (fun k hk => h k (List.mem_cons_of_mem row hk))
    simp only [workLeft,totalRunTime,loadJobs,List.map_cons,List.sum_cons] at hrest ⊢
    omega

theorem move_timely (hs : Steady o m) (hcores : 1 ≤ o.cores)
    (hlast : ∀ job ∈ m.jobs, job.arrivalTime ≤ last) (h : Timely last total m) (hm : Move o m m') :
    Timely last total m' := by
  obtain ⟨howed,hbound⟩ := h
  rcases move_work hm with ⟨hwork,htime⟩ | ⟨hpc,hjobs,htime⟩
  · exact ⟨hwork ▸ howed,by rw [hwork,htime]; exact hbound⟩
  · have hle : workLeft (m.jobs.map work) ≤ workLeft m.jobs := workLeft_work_le
    rw [← hjobs] at hle
    refine ⟨by omega,?_⟩
    by_cases hpast : m.time < last
    · exact .inl (by omega)
    · have hlt := hs.working hcores hpc (fun job hj => by have := hlast job hj; omega)
      rw [← hjobs] at hlt
      exact .inr (by omega)

theorem visits_timely (hcores : 1 ≤ o.cores) (h : Runnable rows) (hv : Visits o rows m) :
    Timely (lastArrival rows) (totalRunTime rows) m := by
  refine visits_induction hcores h ⟨(loaded_work 0 h).le,.inl (lastArrival_nonneg rows)⟩ ?_ hv
  intro m m' hv hs ht hm
  refine move_timely hs hcores (fun job hj => ?_) ht hm
  obtain ⟨loaded,hl,hc⟩ := (visits_recorded hcores h hv).origin job hj
  obtain ⟨-,-,-,row,hrow,harr,-⟩ := mem_loadJobs hl
  rw [← hc.arrivalTime,harr]
  exact arrival_le_last hrow

theorem newJobs_called (call : Call) (ret : Int) :
    newJobs (log ++ [.called call ret]) = newJobs log ++ (Event.newJob? (.called call ret)).toList := by
  rw [newJobs,List.filterMap_append]
  cases call <;> rfl

theorem jobsFinished_called (call : Call) (ret : Int) :
    jobsFinished (log ++ [.called call ret]) =
      jobsFinished log ++ (Event.jobFinished? (.called call ret)).toList := by
  rw [jobsFinished,List.filterMap_append]
  cases call <;> rfl

theorem filterMap_executions {f : Event → Option Int} (hf : ∀ t id core, f (.executed t id core) = none)
    (time : Int) (jobs : List SimulatorJobListT) :
    (log ++ executions time jobs).filterMap f = log.filterMap f := by
  have hnone : (executions time jobs).filterMap f = [] := by
    refine List.filterMap_eq_nil_iff.mpr (fun e he => ?_)
    obtain ⟨job,-,-,rfl⟩ := mem_executions he
    exact hf time job.jobId job.coreId
  rw [List.filterMap_append,hnone,List.append_nil]

theorem admitted_append : admitted (l ++ r) = admitted l ++ admitted r := by
  rw [admitted,List.filter_append,List.map_append]
  rfl

theorem admitted_cons_arrived (h : job.arrived = true) : admitted (job :: r) = job.jobId :: admitted r := by
  rw [admitted,List.filter_cons_of_pos h,List.map_cons]
  rfl

theorem admitted_cons_pending (h : job.arrived = false) : admitted (job :: r) = admitted r := by
  rw [admitted,List.filter_cons_of_neg (by simp [h])]
  rfl

theorem admitted_perm (h : l.Perm r) : (admitted l).Perm (admitted r) := (h.filter _).map _

theorem admitted_map (harr : ∀ job, (f job).arrived = job.arrived) (hid : ∀ job, (f job).jobId = job.jobId) :
    admitted (jobs.map f) = admitted jobs := by
  have hkeep : (fun job => (f job).arrived) = (·.arrived) := funext harr
  rw [admitted,List.filter_map,List.map_map,Function.comp_def,Function.comp_def,hkeep]
  exact List.map_congr_left (fun job _ => hid job)

theorem Reported.finished {r' : List SimulatorJobListT} {ret : Int} (h : Reported rows m)
    (hj : m.jobs = l ++ job :: r) (hp : r'.Perm r) (ha : job.arrived = true) (hf : Reseats f)
    (hjobs : m'.jobs = (l ++ r').map f)
    (hlog : m'.log = m.log ++ [.called (.jobFinished job.coreId job.jobId m.time) ret]) :
    Reported rows m' := by
  have hperm := hp.append_left l
  refine ⟨?_,?_⟩
  · rw [hlog,newJobs_called,jobsFinished_called,hjobs,admitted_map hf.arrived hf.jobId]
    refine .trans (.of_eq (List.append_nil _)) (h.entered.trans ?_)
    rw [hj,admitted_append,admitted_cons_arrived ha,← List.append_assoc]
    refine (List.perm_middle.append_right _).trans ?_
    rw [← admitted_append]
    exact ((admitted_perm hperm.symm).append_right _).cons _ |>.trans (List.perm_append_singleton _ _).symm
  · rw [hlog,jobsFinished_called,hjobs,ids_map hf.jobId]
    refine h.whole.trans ?_
    rw [hj,← List.append_assoc]
    refine ((List.perm_middle.map _).append_right _).trans ?_
    exact (((hperm.symm.map _).append_right _).cons _).trans (List.perm_append_singleton _ _).symm

theorem Reported.keep (h : Reported rows m) (hids : m'.jobs.map (·.jobId) = m.jobs.map (·.jobId))
    (hadmitted : admitted m'.jobs = admitted m.jobs) (hnew : newJobs m'.log = newJobs m.log)
    (hdone : jobsFinished m'.log = jobsFinished m.log) : Reported rows m' := by
  refine ⟨?_,?_⟩
  · rw [hnew,hadmitted,hdone]
    exact h.entered
  · rw [hids,hdone]
    exact h.whole

theorem Reported.arrived {ret : Int} (h : Reported rows m) (hj : m.jobs = l ++ job :: r)
    (ha : job.arrived = false) (hf : Reseats f)
    (hjobs : m'.jobs = l.map f ++ { job with arrived := true, coreId := ret } :: r.map f)
    (hlog : m'.log = m.log ++ [.called (.newJob job.jobId m.time job.runTime job.priority) ret]) :
    Reported rows m' := by
  refine ⟨?_,?_⟩
  · have hold : admitted m.jobs = admitted l ++ admitted r := by
      rw [hj,admitted_append,admitted_cons_pending ha]
    rw [hlog,newJobs_called,jobsFinished_called,hjobs,admitted_append,admitted_cons_arrived rfl,
      admitted_map hf.arrived hf.jobId,admitted_map hf.arrived hf.jobId]
    refine (h.entered.append_right _).trans ?_
    rw [hold]
    refine (List.perm_append_singleton _ _).trans ?_
    simp only [Event.jobFinished?,Option.toList_none,List.append_nil,List.append_assoc,List.cons_append]
    exact List.perm_middle.symm
  · have hids : m'.jobs.map (·.jobId) = m.jobs.map (·.jobId) := by
      rw [hjobs,hj,List.map_append,List.map_cons,ids_map hf.jobId,ids_map hf.jobId,List.map_append,
        List.map_cons]
    have hdone : jobsFinished m'.log = jobsFinished m.log := by
      rw [hlog,jobsFinished_called]
      exact List.append_nil _
    rw [hids,hdone]
    exact h.whole

theorem move_reported (ht : Tracked o m) (h : Reported rows m) (hm : Move o m m') : Reported rows m' := by
  cases hm with
  | finished _ hj _ hp hc _ =>
    have ha := ht.arrived_of_seated (by simp [hj]) hc
    exact h.finished hj hp ha (reseats_seat _ _) rfl rfl
  | @expired i job lib' ret =>
    have hleave := reseats_leave i
    have hseat := reseats_seat ret i
    refine h.keep ?_ ?_ ?_ ?_
    · rw [ids_map hseat.jobId,ids_map hleave.jobId]
    · rw [admitted_map hseat.arrived hseat.jobId,admitted_map hleave.arrived hleave.jobId]
    · exact (newJobs_called _ _).trans (List.append_nil _)
    · exact (jobsFinished_called _ _).trans (List.append_nil _)
  | arrived _ hj _ ha _ => exact h.arrived hj ha (reseats_leave _) rfl rfl
  | ran =>
    refine h.keep ?_ ?_ ?_ ?_
    · exact ids_map (fun job => (work_carries job).1)
    · exact admitted_map (fun job => (work_carries job).2.2.1) (fun job => (work_carries job).1)
    · exact filterMap_executions (fun _ _ _ => rfl) _ _
    · exact filterMap_executions (fun _ _ _ => rfl) _ _
  | _ => exact h.keep rfl rfl rfl rfl

theorem start_reported (o : Options) (rows : List Row) : Reported rows (start o rows) := by
  have hnone : admitted (loadJobs 0 rows) = [] := by
    rw [admitted,List.map_eq_nil_iff,List.filter_eq_nil_iff]
    intro job hj
    simp [(mem_loadJobs hj).2.2.1]
  exact ⟨.of_eq (by rw [start,hnone]; rfl),.of_eq (List.append_nil _).symm⟩

theorem ends_reported (hcores : 1 ≤ o.cores) (h : Runnable rows) (he : Ends o rows m) :
    (newJobs m.log).Perm ((loadJobs 0 rows).map (·.jobId)) ∧
    (jobsFinished m.log).Perm ((loadJobs 0 rows).map (·.jobId)) := by
  obtain ⟨hv,hpc⟩ := he
  have hr : Reported rows m := visits_induction hcores h (start_reported o rows)
    (fun _ _ _ hs hr hm => move_reported hs.1 hr hm) hv
  have hp := (visits_steady hcores h hv).2
  rw [Phased,hpc] at hp
  obtain ⟨hentered,hwhole⟩ := hr
  rw [hp] at hentered hwhole
  exact ⟨hentered.trans hwhole.symm,hwhole.symm⟩

theorem simulation_is_bounded (hcores : 1 ≤ o.cores) (h : Runnable rows) : (∃ m, Ends o rows m) ∧
    ∀ m, Ends o rows m →
      m.time ≤ lastArrival rows + totalRunTime rows ∧
      ∀ job ∈ loadJobs 0 rows,
        (newJobs m.log).count job.jobId = 1 ∧ (jobsFinished m.log).count job.jobId = 1 := by
  refine ⟨simulator_ends hcores h,fun m he => ⟨?_,fun job hj => ?_⟩⟩
  · obtain ⟨howed,hbound⟩ := visits_timely hcores h he.1
    omega
  · obtain ⟨hnew,hdone⟩ := ends_reported hcores h he
    have honce := List.count_eq_one_of_mem (loadJobs_distinct 0 rows) (List.mem_map_of_mem hj)
    exact ⟨(hnew.count_eq _).trans honce,(hdone.count_eq _).trans honce⟩

theorem simulation_is_bounded_idling :
    ∃ m, Ends ⟨2,.rr,2⟩ [⟨0,3,1⟩,⟨9,2,1⟩] m ∧ m.time ≤ 14 ∧ (jobsFinished m.log).count 1 = 1 := by
  obtain ⟨⟨m,hm⟩,hall⟩ := simulation_is_bounded (o := ⟨2,.rr,2⟩) (by decide)
    (show Runnable [⟨0,3,1⟩,⟨9,2,1⟩] by simp [Runnable])
  obtain ⟨htime,honce⟩ := hall m hm
  exact ⟨m,hm,htime,(honce ⟨1,9,2,1,-1,false⟩ (by decide)).2⟩

end OperatingSystemLabs.Simulator

import OperatingSystemLabs.Simulator.Phases
import OperatingSystemLabs.Simulator.Tracking

namespace OperatingSystemLabs.Simulator

open Scheduler Keyed Transition

variable {o : Options} {m m' : Machine} {call : Call} {ret : Int} {lib' : Lib} {job : SimulatorJobListT}

def SimulatorJobListT.row (job : SimulatorJobListT) : Row := ⟨job.arrivalTime,job.runTime,job.priority⟩

def Runnable (rows : List Row) : Prop := ∀ row ∈ rows, 1 ≤ row.runTime ∧ 0 ≤ row.arrivalTime

theorem mem_loadJobs {rows : List Row} {n : Int} (h : job ∈ loadJobs n rows) :
    n ≤ job.jobId ∧ job.coreId = -1 ∧ job.arrived = false ∧
      ∃ row ∈ rows, job.arrivalTime = row.arrivalTime ∧ job.runTime = row.runTime := by
  induction rows generalizing n with
  | nil => simp [loadJobs] at h
  | cons row rows ih =>
    rcases List.mem_cons.mp h with rfl | h
    · exact ⟨le_refl n,rfl,rfl,row,List.mem_cons_self,rfl,rfl⟩
    · obtain ⟨hn,hc,ha,row',hrow,hrest⟩ := ih h
      exact ⟨by omega,hc,ha,row',List.mem_cons_of_mem _ hrow,hrest⟩

theorem loadJobs_rows (n : Int) (rows : List Row) : (loadJobs n rows).map (·.row) = rows := by
  induction rows generalizing n with
  | nil => rfl
  | cons row rows ih => exact congrArg (row :: ·) (ih (n + 1))

theorem loaded_row {rows : List Row} {n : Int} (h : job ∈ loadJobs n rows) : job.row ∈ rows := by
  have hrow := List.mem_map_of_mem (f := (·.row)) h
  rwa [loadJobs_rows] at hrow

theorem loadJobs_map {β : Type} (g : Row → β) (n : Int) (rows : List Row) :
    (loadJobs n rows).map (fun job => g job.row) = rows.map g := by
  rw [← loadJobs_rows n rows,List.map_map,loadJobs_rows]
  rfl

theorem loadJobs_distinct (n : Int) (rows : List Row) : ((loadJobs n rows).map (·.jobId)).Nodup := by
  induction rows generalizing n with
  | nil => exact List.nodup_nil
  | cons row rows ih =>
    refine List.nodup_cons.mpr ⟨fun h => ?_,ih (n + 1)⟩
    obtain ⟨job,hj,hid⟩ := List.mem_map.mp h
    have hid : job.jobId = n := hid
    have := (mem_loadJobs hj).1
    omega

theorem start_entries (o : Options) (rows : List Row) : entries (start o rows).jobs = [] := by
  rw [entries,List.filter_eq_nil_iff.mpr]
  · rfl
  · intro job hj
    simp [(mem_loadJobs hj).2.2.1]

theorem start_followed (o : Options) (rows : List Row) : Followed o (start o rows) where
  run := .start
  past := nofun
  coupled := by
    rw [start_entries]
    exact .nil
  distinct := loadJobs_distinct 0 rows
  numbered job hj := (mem_loadJobs hj).1
  pending job hj _ := ⟨(mem_loadJobs hj).2.1,by simp [start,calls,Arrived]⟩
  alive := rfl
  clocks := List.length_replicate

theorem start_tracked {rows : List Row} (o : Options) (h : Runnable rows) : Tracked o (start o rows) where
  toFollowed := start_followed o rows
  owed job hj := by
    obtain ⟨-,-,-,row,hrow,-,hrun⟩ := mem_loadJobs hj
    have := (h row hrow).1
    omega

theorem start_phased {rows : List Row} (o : Options) (h : Runnable rows) : Phased (start o rows) := by
  refine ⟨fun job hj => ?_,by simp [Unfinished],fun job hj hrun => ?_⟩
  · obtain ⟨-,-,ha,row,hrow,harr,-⟩ := mem_loadJobs hj
    have := (h row hrow).2
    simp only [ha,Bool.false_eq_true,false_iff,not_lt,harr]
    exact this
  · obtain ⟨-,-,-,row,hrow,-,hrun'⟩ := mem_loadJobs hj
    have := (h row hrow).1
    omega

def Steady (o : Options) (m : Machine) : Prop := Tracked o m ∧ Phased m

theorem steady_move (h : Steady o m) (hcores : 1 ≤ o.cores) :
    ∃ m', step o m = .ok m' ∧ Move o m m' ∧ Steady o m' := by
  obtain ⟨m',hm,hmove⟩ := step_move h.1.toFollowed (phased_iff.mp h.2) dates_iff hcores
  exact ⟨m',hm,hmove,move_tracked h.1 h.2 hmove,move_phased h.2 hmove⟩

theorem steady_preserved (hcores : 1 ≤ o.cores) : Preserved (step o) (Steady o) := by
  intro m h
  obtain ⟨m',hm,-,h'⟩ := steady_move h hcores
  exact ⟨m',hm,h'⟩

theorem start_steady {rows : List Row} (o : Options) (h : Runnable rows) : Steady o (start o rows) :=
  ⟨start_tracked o h,start_phased o h⟩

theorem visits_steady {rows : List Row} (hcores : 1 ≤ o.cores) (h : Runnable rows)
    (hv : Visits o rows m) : Steady o m :=
  (steady_preserved hcores).reach (start_steady o h) hv

def SameCores (m : Machine) : Prop :=
  ∀ job ∈ m.jobs, (job.arrived = false → job.coreId = -1) ∧
    (job.arrived = true → (∃ k ∈ m.lib.jobs, k.jobId = job.jobId) ∧
      ∀ k ∈ m.lib.jobs, k.jobId = job.jobId → k.coreId = job.coreId)

theorem Tracked.sameCores (h : Tracked o m) : SameCores m := by
  intro job hj
  refine ⟨fun ha => (h.pending job hj ha).1,fun ha => ?_⟩
  obtain ⟨k,hk,hid,hc,-⟩ := h.record hj ha
  refine ⟨⟨k,hk,hid⟩,fun k' hk' hid' => ?_⟩
  have hsame := h.run.governed.sound.job_injective hk' hk (hid'.trans hid.symm)
  rw [hsame,hc]

theorem simulator_keeps_cores {rows : List Row} (hcores : 1 ≤ o.cores) (h : Runnable rows) (n : Nat) :
    ∃ m, iterate (step o) n (start o rows) = .ok m ∧ SameCores m := by
  obtain ⟨m,hm,hs⟩ := (steady_preserved hcores).iterate (start_steady o h) n
  exact ⟨m,hm,hs.1.sameCores⟩

theorem simulator_keeps_cores_preempting :
    ∃ m, iterate (step ⟨2,.psjf,0⟩) 30 (start ⟨2,.psjf,0⟩ [⟨0,8,1⟩,⟨1,8,1⟩,⟨3,4,2⟩]) = .ok m ∧
      SameCores m :=
  simulator_keeps_cores (by decide) (by simp [Runnable]) 30

def SameRemaining (m : Machine) : Prop :=
  ∀ k ∈ m.lib.jobs, 0 ≤ remaining m.time k ∧
    ∃ job ∈ m.jobs, job.jobId = k.jobId ∧ job.runTime = remaining m.time k

def Uncharged (jobs jobs' : List JobT) : Prop :=
  ∀ k ∈ jobs, k.coreId = -1 → ∀ k' ∈ jobs', k'.jobId = k.jobId → k'.timeRemaining = k.timeRemaining

theorem Tracked.sameRemaining (h : Tracked o m) : SameRemaining m := by
  intro k hk
  obtain ⟨job,hj,-,he⟩ := mem_entries.mp (h.coupled.mem_iff.mpr (List.mem_map_of_mem hk))
  have hid : job.jobId = k.jobId := congrArg Entry.jobId he
  have hleft : job.runTime = remaining m.time k := congrArg Entry.left he
  exact ⟨hleft ▸ h.owed job hj,job,hj,hid,hleft⟩

theorem Served.uncharged (h : Tracked o m) (hs : Served o m call lib' ret) :
    Uncharged m.lib.jobs lib'.jobs := by
  intro k hk hc k' hk' hid
  have hg := h.run.governed
  rcases step_touched hs.stepped (hg.admissible hs.legal) hk' with hnew | ⟨j,hj,ht⟩
  · cases hnew
    all_goals exact absurd hid.symm ((hg.admissible hs.legal).2 k hk)
  · have hjk {x : JobT} (hx : k' = x) (hxid : x.jobId = j.jobId) : j = k :=
      hg.sound.job_injective hj hk (by rw [← hxid,← hx,hid])
    cases ht with
    | same => rw [hjk rfl rfl]
    | charged hr => exact absurd (hjk rfl rfl ▸ hc) hr
    | preempted hr => exact absurd (hjk rfl rfl ▸ hc) hr
    | woken =>
      have hj : j = k := hjk rfl rfl
      rw [← hj]
      rfl
    | expired hr => exact absurd (hjk rfl rfl ▸ hc) hr
    | cycled _ _ hr => exact absurd (hjk rfl rfl ▸ hc) hr

theorem move_uncharged (h : Tracked o m) (hm : Move o m m') : Uncharged m.lib.jobs m'.lib.jobs := by
  have hsame : Uncharged m.lib.jobs m.lib.jobs := by
    intro k hk _ k' hk' hid
    rw [h.run.governed.sound.job_injective hk' hk hid]
  cases hm with
  | finished _ _ _ _ _ hs => exact Served.uncharged h hs
  | expired _ _ _ _ _ _ hs => exact Served.uncharged h hs
  | arrived _ _ _ _ hs => exact Served.uncharged h hs
  | _ => exact hsame

theorem simulator_keeps_remaining {rows : List Row} (hcores : 1 ≤ o.cores) (h : Runnable rows) (n : Nat) :
    ∃ m m', iterate (step o) n (start o rows) = .ok m ∧ step o m = .ok m' ∧ SameRemaining m ∧
      Uncharged m.lib.jobs m'.lib.jobs := by
  obtain ⟨m,hm,hs⟩ := (steady_preserved hcores).iterate (start_steady o h) n
  obtain ⟨m',hm',hmove,-⟩ := steady_move hs hcores
  exact ⟨m,m',hm,hm',hs.1.sameRemaining,move_uncharged hs.1 hmove⟩

theorem simulator_keeps_remaining_expiring :
    ∃ m m', iterate (step ⟨1,.rr,2⟩) 25 (start ⟨1,.rr,2⟩ [⟨0,5,1⟩,⟨1,3,1⟩]) = .ok m ∧
      step ⟨1,.rr,2⟩ m = .ok m' ∧ SameRemaining m ∧ Uncharged m.lib.jobs m'.lib.jobs :=
  simulator_keeps_remaining (by decide) (by simp [Runnable]) 25

end OperatingSystemLabs.Simulator

import OperatingSystemLabs.Scheduler.Fifo
import OperatingSystemLabs.Simulator.Chronicle

namespace OperatingSystemLabs.Simulator

open Scheduler Keyed Transition

structure Stamped (rows : List Row) (m : Machine) : Prop where
  loaded : ∀ job ∈ m.jobs, ∃ loaded ∈ loadJobs 0 rows,
    loaded.jobId = job.jobId ∧ loaded.priority = job.priority
  called : ∀ id t run pri ret, (.newJob id t run pri,ret) ∈ calls m.log →
    ∃ loaded ∈ loadJobs 0 rows, loaded.jobId = id ∧ loaded.priority = pri

def IntSized (rows : List Row) : Prop := ∀ row ∈ rows, row.arrivalTime < 2 ^ 31 ∧ row.runTime < 2 ^ 31

def ConstantKey (rows : List Row) : SchemeT → Prop
  | .fcfs => True
  | .rr => True
  | .sjf => ∀ a ∈ rows, ∀ b ∈ rows, a.runTime = b.runTime
  | .psjf => ∀ a ∈ rows, ∀ b ∈ rows, a.runTime = b.runTime
  | .pri => ∀ a ∈ rows, ∀ b ∈ rows, a.priority = b.priority
  | .ppri => ∀ a ∈ rows, ∀ b ∈ rows, a.priority = b.priority

def Orderly (o : Options) (m : Machine) : Prop :=
  ∀ job ∈ m.jobs, job.arrived = false → job.arrivalTime = m.time →
    Latest o.scheme m.lib.jobs job.jobId m.time job.runTime job.priority

def DistinctTimes (rows : List Row) : Prop := (rows.map (·.arrivalTime)).Nodup

variable {o : Options} {rows : List Row} {m m' : Machine} {call : Call} {ret : Int}
variable {loaded job : SimulatorJobListT} {k : JobT}

theorem Reseats.priority {f : SimulatorJobListT → SimulatorJobListT} (hf : Reseats f)
    (job : SimulatorJobListT) : (f job).priority = job.priority := by
  obtain ⟨c,hc⟩ := hf job
  rw [hc]

theorem work_priority (job : SimulatorJobListT) : (work job).priority = job.priority := by
  unfold work
  split <;> rfl

theorem Stamped.keep (h : Stamped rows m)
    (hjobs : ∀ job' ∈ m'.jobs, ∃ job ∈ m.jobs, job'.jobId = job.jobId ∧ job'.priority = job.priority)
    (hcalls : ∀ id t run pri ret, (.newJob id t run pri,ret) ∈ calls m'.log →
      (.newJob id t run pri,ret) ∈ calls m.log ∨ ∃ job ∈ m.jobs, job.jobId = id ∧ job.priority = pri) :
    Stamped rows m' := by
  refine ⟨fun job' hj' => ?_,fun id t run pri ret hmem => ?_⟩
  · obtain ⟨job,hj,hid,hpri⟩ := hjobs job' hj'
    obtain ⟨loaded,hl,hlid,hlpri⟩ := h.loaded job hj
    exact ⟨loaded,hl,hlid.trans hid.symm,hlpri.trans hpri.symm⟩
  · rcases hcalls id t run pri ret hmem with hmem | ⟨job,hj,rfl,rfl⟩
    · exact h.called id t run pri ret hmem
    · exact h.loaded job hj

theorem old_call {log : List Event} {id t run pri answer : Int}
    (h : (.newJob id t run pri,answer) ∈ calls (log ++ [.called call ret]))
    (hnew : ∀ id t run pri, call ≠ .newJob id t run pri) :
    (.newJob id t run pri,answer) ∈ calls log := by
  rw [calls_called] at h
  rcases List.mem_append.mp h with h | h
  · exact h
  · exact absurd (Prod.mk.inj (List.mem_singleton.mp h)).1.symm (hnew id t run pri)

theorem move_stamped (h : Stamped rows m) (hm : Move o m m') : Stamped rows m' := by
  have hmapped {f : SimulatorJobListT → SimulatorJobListT} {jobs : List SimulatorJobListT}
      (hid : ∀ job, (f job).jobId = job.jobId) (hpri : ∀ job, (f job).priority = job.priority)
      (hsub : ∀ job ∈ jobs, job ∈ m.jobs) : ∀ job' ∈ jobs.map f, ∃ job ∈ m.jobs,
        job'.jobId = job.jobId ∧ job'.priority = job.priority := by
    intro job' hj'
    obtain ⟨job,hj,rfl⟩ := List.mem_map.mp hj'
    exact ⟨job,hsub job hj,hid job,hpri job⟩
  have hsame : ∀ job' ∈ m.jobs, ∃ job ∈ m.jobs, job'.jobId = job.jobId ∧ job'.priority = job.priority :=
    fun job hj => ⟨job,hj,rfl,rfl⟩
  cases hm with
  | @finished l r r' job lib' ret _ hj _ hp =>
    have hf := reseats_seat ret job.coreId
    refine h.keep (hmapped hf.jobId hf.priority (fun k hk => ?_)) (fun _ _ _ _ _ hmem => .inl ?_)
    · exact hj ▸ mem_split ((hp.append_left l).mem_iff.mp hk)
    · exact old_call hmem nofun
  | @expired i job lib' ret =>
    have hf := reseats_comp (reseats_leave i) (reseats_seat ret i)
    refine h.keep ?_ (fun _ _ _ _ _ hmem => .inl (old_call hmem nofun))
    rw [List.map_map]
    exact hmapped hf.jobId hf.priority (fun k hk => hk)
  | @arrived l r job lib' ret _ hj =>
    have hf := reseats_leave ret
    refine h.keep (fun k hk => ?_) (fun id t run pri answer hmem => ?_)
    · rcases mem_middle_map.mp hk with rfl | ⟨k',hk',rfl⟩
      · exact ⟨job,by simp [hj],rfl,rfl⟩
      · exact ⟨k',hj ▸ mem_split hk',hf.jobId k',hf.priority k'⟩
    · rw [calls_called] at hmem
      rcases List.mem_append.mp hmem with hmem | hmem
      · exact .inl hmem
      · obtain ⟨hid,-,-,hpri⟩ := (Call.newJob.injEq ..).mp (Prod.mk.inj (List.mem_singleton.mp hmem)).1
        exact .inr ⟨job,by simp [hj],hid.symm,hpri.symm⟩
  | ran =>
    refine h.keep (hmapped (fun job => (work_carries job).1) work_priority (fun k hk => hk)) ?_
    simp only [calls_executions]
    exact fun _ _ _ _ _ hmem => .inl hmem
  | _ => exact h.keep hsame (fun _ _ _ _ _ hmem => .inl hmem)

theorem visits_stamped (hcores : 1 ≤ o.cores) (h : Runnable rows) (hv : Visits o rows m) : Stamped rows m :=
  visits_induction hcores h ⟨fun job hj => ⟨job,hj,rfl,rfl⟩,nofun⟩ (fun _ _ _ _ hs hm => move_stamped hs hm) hv

theorem Stamped.record (h : Stamped rows m) (hr : Recorded rows m) (ht : Tracked o m) (hk : k ∈ m.lib.jobs) :
    ∃ loaded ∈ loadJobs 0 rows, loaded.jobId = k.jobId ∧ loaded.arrivalTime = k.arrivalTime ∧
      loaded.runTime = k.runTime ∧ loaded.priority = k.priority := by
  obtain ⟨ret,hret⟩ := ht.run.governed.ticketed k hk
  obtain ⟨loaded,hl,hid,harr,hrun⟩ := hr.ticketed _ _ _ _ _ hret
  obtain ⟨loaded',hl',hid',hpri⟩ := h.called _ _ _ _ _ hret
  rw [loaded_unique hl' hl (hid'.trans hid.symm)] at hpri
  exact ⟨loaded,hl,hid,harr,hrun,hpri⟩

theorem Stamped.pending (h : Stamped rows m) (hr : Recorded rows m) (ht : Tracked o m) (hj : job ∈ m.jobs)
    (ha : job.arrived = false) : job ∈ loadJobs 0 rows := by
  obtain ⟨loaded,hl,hc⟩ := hr.origin job hj
  obtain ⟨loaded',hl',hid',hpri⟩ := h.loaded job hj
  rw [loaded_unique hl' hl (hid'.trans hc.jobId.symm)] at hpri
  obtain ⟨-,hcore,harr,-⟩ := mem_loadJobs hl
  have hrun := hc.runTime
  rw [hc.untouched ha,List.length_nil] at hrun
  have hsame : loaded = job := by
    cases loaded
    cases job
    simp only [SimulatorJobListT.mk.injEq]
    exact ⟨hc.jobId,hc.arrivalTime,by simpa using hrun,hpri,hcore.trans (ht.pending _ hj ha).1.symm,
      harr.trans ha.symm⟩
  exact hsame ▸ hl

theorem loaded_arrival_unique (hd : DistinctTimes rows) {a b : SimulatorJobListT}
    (ha : a ∈ loadJobs 0 rows) (hb : b ∈ loadJobs 0 rows) (h : a.arrivalTime = b.arrivalTime) : a = b := by
  have hdistinct : ((loadJobs 0 rows).map (·.arrivalTime)).Nodup :=
    (loadJobs_map (·.arrivalTime) 0 rows).symm ▸ hd
  exact key_injective hdistinct ha hb h

theorem Tracked.older (ht : Tracked o m) (hr : Recorded rows m) (h : Runnable rows) (hd : DistinctTimes rows)
    (hsized : IntSized rows) (hj : job ∈ m.jobs) (ha : job.arrived = false)
    (hnow : job.arrivalTime = m.time) : Older m.lib.jobs m.time := by
  intro k hk
  obtain ⟨ret,hret⟩ := ht.run.governed.ticketed k hk
  obtain ⟨loaded,hl,hid,harr,-⟩ := hr.ticketed _ _ _ _ _ hret
  obtain ⟨origin,ho,hc⟩ := hr.origin job hj
  have hle : k.arrivalTime ≤ m.time := ht.past _ hret
  have hne : k.arrivalTime ≠ m.time := by
    intro heq
    have hsame := loaded_arrival_unique hd hl ho (harr.trans (heq.trans (hnow.symm.trans hc.arrivalTime.symm)))
    refine (ht.pending job hj ha).2 ⟨k.arrivalTime,k.runTime,k.priority,ret,?_⟩
    rw [← hc.jobId,← hsame,hid]
    exact hret
  have hnonneg : 0 ≤ loaded.arrivalTime := (h _ (loaded_row hl)).2
  have hbound : origin.arrivalTime < 2 ^ 31 := (hsized _ (loaded_row ho)).1
  have := hc.arrivalTime
  refine ⟨by omega,?_⟩
  simp only [Fits]
  omega

theorem Tracked.drained (ht : Tracked o m) (hk : k ∈ m.lib.jobs) : Drained m.time k := by
  obtain ⟨hstarted,howed⟩ := run_drained ht.run
  have hleft : entry m.time k ∈ entries m.jobs := ht.coupled.mem_iff.mpr (List.mem_map_of_mem hk)
  obtain ⟨job,hj,-,he⟩ := mem_entries.mp hleft
  have hremaining : job.runTime = remaining m.time k := congrArg Entry.left he
  refine ⟨hremaining ▸ ht.owed job hj,?_,howed k hk⟩
  by_cases hr : Running k
  · obtain ⟨e,he,hstart⟩ := hstarted k hk hr
    have := ht.past e he
    rw [remaining_running m.time hr]
    omega
  · rw [remaining_waiting m.time (not_not.mp hr)]

theorem constant_orderly (hkey : ConstantKey rows o.scheme) (h : Runnable rows) (hd : DistinctTimes rows)
    (hsized : IntSized rows) (ht : Tracked o m) (hr : Recorded rows m) (hs : Stamped rows m) :
    Orderly o m := by
  intro job hj ha hnow
  have holder := ht.older hr h hd hsized hj ha hnow
  have hloaded := hs.pending hr ht hj ha
  have hrow {k : JobT} (hk : k ∈ m.lib.jobs) :
      ∃ row ∈ rows, row.runTime = k.runTime ∧ row.priority = k.priority := by
    obtain ⟨loaded,hl,-,-,hrun,hpri⟩ := hs.record hr ht hk
    exact ⟨loaded.row,loaded_row hl,hrun,hpri⟩
  cases hscheme : o.scheme with
  | fcfs => exact latest_fcfs holder
  | rr => exact latest_rr
  | sjf =>
    rw [hscheme] at hkey
    refine latest_sjf holder (fun k hk => ?_)
    obtain ⟨row,hrow,hsame,-⟩ := hrow hk
    exact hsame.symm.trans (hkey row hrow _ (loaded_row hloaded))
  | psjf =>
    rw [hscheme] at hkey
    refine latest_psjf holder (fun k hk => ?_) (hsized _ (loaded_row hloaded)).2 (fun k hk => ht.drained hk)
    obtain ⟨row,hrow,hsame,-⟩ := hrow hk
    exact hsame.symm.trans (hkey row hrow _ (loaded_row hloaded))
  | pri =>
    rw [hscheme] at hkey
    refine latest_priority holder (fun k hk => ?_)
    obtain ⟨row,hrow,-,hsame⟩ := hrow hk
    exact hsame.symm.trans (hkey row hrow _ (loaded_row hloaded))
  | ppri =>
    rw [hscheme] at hkey
    refine latest_priority holder (fun k hk => ?_)
    obtain ⟨row,hrow,-,hsame⟩ := hrow hk
    exact hsame.symm.trans (hkey row hrow _ (loaded_row hloaded))

end OperatingSystemLabs.Simulator

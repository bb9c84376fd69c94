import OperatingSystemLabs.Scheduler.CoreAssignment
import OperatingSystemLabs.Simulator.Machine

namespace OperatingSystemLabs.Simulator

open Scheduler Keyed

def simEntry (job : SimulatorJobListT) : Entry := ⟨job.jobId,job.coreId,job.runTime⟩

def entries (jobs : List SimulatorJobListT) : List Entry := (jobs.filter (·.arrived)).map simEntry

def Reseats (f : SimulatorJobListT → SimulatorJobListT) : Prop :=
  ∀ job, ∃ c, f job = { job with coreId := c }

def seat (jobId coreId : Int) (job : SimulatorJobListT) : SimulatorJobListT :=
  if job.jobId = jobId ∧ job.arrived = true then { job with coreId := coreId } else job

variable {jobs l r : List SimulatorJobListT} {job : SimulatorJobListT} {id core : Int}

@[simp] theorem simEntry_jobId (job : SimulatorJobListT) : (simEntry job).jobId = job.jobId := rfl

@[simp] theorem simEntry_coreId (job : SimulatorJobListT) : (simEntry job).coreId = job.coreId := rfl

@[simp] theorem simEntry_left (job : SimulatorJobListT) : (simEntry job).left = job.runTime := rfl

theorem mem_entries {e : Entry} :
    e ∈ entries jobs ↔ ∃ job ∈ jobs, job.arrived = true ∧ simEntry job = e := by
  simp [entries,and_assoc]

theorem entries_append : entries (l ++ r) = entries l ++ entries r := by
  rw [entries,List.filter_append,List.map_append]
  rfl

theorem entries_cons_arrived (h : job.arrived = true) :
    entries (job :: r) = simEntry job :: entries r := by
  rw [entries,List.filter_cons_of_pos h,List.map_cons]
  rfl

theorem entries_cons_pending (h : job.arrived = false) : entries (job :: r) = entries r := by
  rw [entries,List.filter_cons_of_neg (by simp [h])]
  rfl

theorem entries_perm (h : l.Perm r) : (entries l).Perm (entries r) := (h.filter _).map _

theorem entries_map {f : SimulatorJobListT → SimulatorJobListT} {g : Entry → Entry}
    (harr : ∀ job ∈ jobs, (f job).arrived = job.arrived)
    (hentry : ∀ job ∈ jobs, job.arrived = true → simEntry (f job) = g (simEntry job)) :
    entries (jobs.map f) = (entries jobs).map g := by
  induction jobs with
  | nil => rfl
  | cons job jobs ih =>
    have hrest := ih (fun j hj => harr j (List.mem_cons_of_mem _ hj))
      (fun j hj => hentry j (List.mem_cons_of_mem _ hj))
    have hj := harr job List.mem_cons_self
    rw [List.map_cons]
    cases ha : job.arrived with
    | true =>
      rw [entries_cons_arrived (hj.trans ha),entries_cons_arrived ha,hrest,List.map_cons,
        hentry job List.mem_cons_self ha]
    | false => rw [entries_cons_pending (hj.trans ha),entries_cons_pending ha,hrest]

theorem ids_map {f : SimulatorJobListT → SimulatorJobListT} (hid : ∀ job, (f job).jobId = job.jobId) :
    (jobs.map f).map (·.jobId) = jobs.map (·.jobId) := by
  rw [List.map_map]
  exact List.map_congr_left (fun job _ => hid job)

theorem reseats_seat (id core : Int) : Reseats (seat id core) := by
  intro job
  unfold seat
  split
  · exact ⟨core,rfl⟩
  · exact ⟨job.coreId,rfl⟩

theorem reseats_leave (core : Int) : Reseats (leave core) := by
  intro job
  unfold leave
  split
  · exact ⟨-1,rfl⟩
  · exact ⟨job.coreId,rfl⟩

section Reseating

variable {f : SimulatorJobListT → SimulatorJobListT} (hf : Reseats f)

include hf

theorem Reseats.jobId (job : SimulatorJobListT) : (f job).jobId = job.jobId := by
  obtain ⟨c,hc⟩ := hf job
  rw [hc]

theorem Reseats.arrivalTime (job : SimulatorJobListT) : (f job).arrivalTime = job.arrivalTime := by
  obtain ⟨c,hc⟩ := hf job
  rw [hc]

theorem Reseats.runTime (job : SimulatorJobListT) : (f job).runTime = job.runTime := by
  obtain ⟨c,hc⟩ := hf job
  rw [hc]

theorem Reseats.arrived (job : SimulatorJobListT) : (f job).arrived = job.arrived := by
  obtain ⟨c,hc⟩ := hf job
  rw [hc]

theorem Reseats.jobIds (jobs : List SimulatorJobListT) :
    (jobs.map f).map (·.jobId) = jobs.map (·.jobId) := ids_map hf.jobId

end Reseating

theorem entries_seat : entries (jobs.map (seat id core)) = (entries jobs).map (occupy id core) := by
  refine entries_map (fun job _ => (reseats_seat id core).arrived job) (fun job _ ha => ?_)
  by_cases h : job.jobId = id
  · rw [seat,if_pos ⟨h,ha⟩,occupy,simEntry_jobId,if_pos h]
    rfl
  · rw [seat,if_neg (fun hh => h hh.1),occupy,simEntry_jobId,if_neg h]

theorem leave_of_ne (h : job.coreId ≠ core) : leave core job = job := if_neg h

theorem entries_leave : entries (jobs.map (leave core)) = (entries jobs).map (vacate core) := by
  refine entries_map (fun job _ => (reseats_leave core).arrived job) (fun job _ _ => ?_)
  by_cases h : job.coreId = core
  · rw [leave,if_pos h,vacate,simEntry_coreId,if_pos h]
    rfl
  · rw [leave,if_neg h,vacate,simEntry_coreId,if_neg h]

theorem setActiveJob_seat (hd : (jobs.map (·.jobId)).Nodup)
    (h : ∃ job ∈ jobs, job.jobId = id ∧ job.arrived = true) :
    setActiveJob id core jobs = some (jobs.map (seat id core)) := by
  induction jobs with
  | nil => simp at h
  | cons job jobs ih =>
    rw [List.map_cons] at hd
    obtain ⟨hnew,hrest⟩ := List.nodup_cons.mp hd
    rw [setActiveJob,List.map_cons]
    by_cases hm : job.jobId = id ∧ job.arrived = true
    · have hothers : ∀ k ∈ jobs, seat id core k = k := by
        intro k hk
        have hne : k.jobId ≠ id := fun he => hnew (List.mem_map.mpr ⟨k,hk,he.trans hm.1.symm⟩)
        exact if_neg (fun h => hne h.1)
      rw [if_pos hm,map_self hothers,seat,if_pos hm]
    · obtain ⟨k,hk,hkm⟩ := h
      have hk' : k ∈ jobs := by
        rcases List.mem_cons.mp hk with rfl | hk
        · exact absurd hkm hm
        · exact hk
      rw [if_neg hm,ih hrest ⟨k,hk',hkm⟩,seat,if_neg hm]
      rfl

theorem setNewJob_seat (complaint : Int → Complaint) (core : Int) (hd : (jobs.map (·.jobId)).Nodup)
    (hn : ∀ job ∈ jobs, job.jobId ≠ -1) (h : id = -1 ∨ ∃ e ∈ entries jobs, e.jobId = id) :
    setNewJob complaint id core jobs = .ok (jobs.map (seat id core)) := by
  by_cases hid : id = -1
  · have hsame : ∀ job ∈ jobs, seat id core job = job :=
      fun job hj => if_neg (fun h => hn job hj (h.1.trans hid))
    rw [setNewJob,if_pos hid,map_self hsame]
  · obtain ⟨e,he,heid⟩ := h.resolve_left hid
    obtain ⟨job,hj,ha,rfl⟩ := mem_entries.mp he
    rw [setNewJob,if_neg hid,setActiveJob_seat hd ⟨job,hj,heid,ha⟩]

theorem releaseFirst_leave (hl : ∀ job ∈ l, job.coreId ≠ core) (hr : ∀ job ∈ r, job.coreId ≠ core)
    (hc : job.coreId = core) : releaseFirst core (l ++ job :: r) = (l ++ job :: r).map (leave core) := by
  induction l with
  | nil =>
    rw [List.nil_append,releaseFirst,if_pos hc,List.map_cons,leave,if_pos hc,
      map_self (fun k hk => leave_of_ne (hr k hk))]
  | cons k l ih =>
    have hk := hl k List.mem_cons_self
    rw [List.cons_append,releaseFirst,if_neg hk,List.map_cons,leave_of_ne hk,
      ih (fun j hj => hl j (List.mem_cons_of_mem _ hj))]

theorem deleteJob_split (l : List SimulatorJobListT) (job : SimulatorJobListT)
    (r : List SimulatorJobListT) :
    ∃ r', deleteJob (l ++ job :: r) l.length = l ++ r' ∧ r'.Perm r := by
  rcases List.eq_nil_or_concat' r with rfl | ⟨r,last,rfl⟩
  · exact ⟨[],by simp [deleteJob],.nil⟩
  · refine ⟨last :: r,?_,(List.perm_append_singleton last r).symm⟩
    have hassoc : l ++ job :: (r ++ [last]) = (l ++ job :: r) ++ [last] := by simp
    have hlast : (l ++ job :: (r ++ [last])).getLast? = some last := by
      rw [hassoc,List.getLast?_concat]
    have hne : l.length ≠ (l ++ job :: (r ++ [last])).length - 1 := by
      simp only [List.length_append,List.length_cons]
      omega
    have hset : (l ++ job :: (r ++ [last])).set l.length last = (l ++ last :: r) ++ [last] := by simp
    rw [deleteJob,hlast]
    simp only
    rw [if_pos hne,hset,List.dropLast_concat]

end OperatingSystemLabs.Simulator

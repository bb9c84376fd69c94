import OperatingSystemLabs.Foundation.Service
import OperatingSystemLabs.Simulator.Backlog

namespace OperatingSystemLabs.Simulator

open Scheduler Keyed Transition Service

def leftAt (log : List Event) (t : Int) (job : SimulatorJobListT) : Int :=
  if job.arrivalTime ≤ t then job.runTime - ((ticks job.jobId log).filter (· < t)).length else 0

def releaseOf (job : SimulatorJobListT) : ℕ := job.arrivalTime.toNat

def workOf (job : SimulatorJobListT) : ℕ := job.runTime.toNat

def executes (log : List Event) (n : ℕ) (job : SimulatorJobListT) : Prop := (n : Int) ∈ ticks job.jobId log

instance (log : List Event) (n : ℕ) : DecidablePred (executes log n) :=
  fun job => inferInstanceAs (Decidable ((n : Int) ∈ ticks job.jobId log))

def leftOver (log : List Event) : ℕ → SimulatorJobListT → ℕ := left releaseOf workOf (executes log)

variable {o : Options} {rows : List Row} {m : Machine} {log : List Event} {loaded job : SimulatorJobListT} {t : Int}

theorem leftAt_ran (log : List Event) {time : Int} {jobs : List SimulatorJobListT}
    (hd : (jobs.map (·.jobId)).Nodup) (ht : t ≤ time) (job : SimulatorJobListT) :
    leftAt (log ++ executions time jobs) t job = leftAt log t job := by
  rcases ticks_ran log time hd job.jobId with hidle | ⟨-,hran⟩
  · rw [leftAt,hidle,leftAt]
  · rw [leftAt,hran,List.filter_append,leftAt]
    simp [not_lt.mpr ht]

theorem Recorded.leftAt_now (hr : Recorded rows m) (harr : b.arrivalTime ≤ m.time) :
    leftAt m.log m.time b = b.runTime - (ticks b.jobId m.log).length := by
  rw [leftAt,if_pos harr,List.filter_eq_self.mpr (fun u hu => by simpa using hr.past _ u hu)]

theorem unfinished_queued (hr : Recorded rows m) (hs : Steady o m) (hpc : m.pc = .runTimeUnit)
    (hl : loaded ∈ loadJobs 0 rows) : 0 < leftAt m.log m.time loaded ↔
      ∃ job ∈ m.jobs, job.jobId = loaded.jobId ∧ job.arrived = true := by
  have hp := hs.2
  rw [Phased,hpc] at hp
  constructor
  · intro hleft
    have hout : loaded.arrivalTime ≤ m.time := by
      by_contra hlate
      rw [leftAt,if_neg hlate] at hleft
      exact lt_irrefl _ hleft
    rw [hr.leftAt_now hout] at hleft
    rcases hr.census loaded hl with ⟨job,hj,hid⟩ | ⟨t,hdone⟩
    · obtain ⟨origin,ho,hc⟩ := hr.origin job hj
      obtain rfl := loaded_unique ho hl (hc.jobId.trans hid)
      exact ⟨job,hj,hid,(hp.1 job hj).mpr (by rw [← hc.arrivalTime]; exact hout)⟩
    · rw [hdone.runTime] at hleft
      omega
  · rintro ⟨job,hj,hid,ha⟩
    obtain ⟨origin,ho,hc⟩ := hr.origin job hj
    obtain rfl := loaded_unique ho hl (hc.jobId.trans hid)
    rw [hr.leftAt_now (by rw [hc.arrivalTime]; exact (hp.1 job hj).mp ha)]
    have := hc.owes hs hj hp.2.1
    omega

theorem length_filter_lt_succ {ts : List Int} (h : ts.Pairwise (· < ·)) (t : Int) :
    (ts.filter (· < t + 1)).length = (ts.filter (· < t)).length + if t ∈ ts then 1 else 0 := by
  induction h with
  | nil => rfl
  | @cons u us hu _ ih =>
    by_cases heq : u = t
    · subst heq
      have hnot : u ∉ us := fun hmem => lt_irrefl u (hu u hmem)
      have hlt : u < u + 1 := Int.lt_add_one_of_le le_rfl
      rw [if_neg hnot] at ih
      simp only [List.filter_cons,List.mem_cons,hlt,lt_irrefl,true_or,decide_true,decide_false,Bool.false_eq_true,
        if_true,if_false,List.length_cons]
      omega
    · have hiff : u < t + 1 ↔ u < t := by omega
      simp only [List.filter_cons,List.mem_cons,Ne.symm heq,false_or,hiff]
      by_cases hlt : u < t
      · simp only [hlt,decide_true,if_true,List.length_cons]
        omega
      · simpa only [hlt,decide_false,Bool.false_eq_true,if_false] using ih

theorem leftOver_eq_leftAt (h : Runnable rows) (hr : Recorded rows m)
    (hj : job ∈ loadJobs 0 rows) (hle : ((ticks job.jobId m.log).length : Int) ≤ job.runTime) (n : ℕ) :
    (leftOver m.log n job : Int) = leftAt m.log n job := by
  obtain ⟨-,-,-,row,hrow,harr,hrun⟩ := mem_loadJobs hj
  have hzero : 0 ≤ job.arrivalTime := harr ▸ (h row hrow).2
  have hpos : 1 ≤ job.runTime := hrun ▸ (h row hrow).1
  have hearly (t : Int) (ht : t ≤ job.arrivalTime) : (ticks job.jobId m.log).filter (· < t) = [] := by
    refine List.filter_eq_nil_iff.mpr (fun u hu => ?_)
    have := hr.begun job hj u hu
    simp only [decide_eq_true_eq,not_lt]
    omega
  induction n with
  | zero =>
    rw [leftOver,left,leftAt,releaseOf,workOf]
    by_cases hout : job.arrivalTime ≤ (0 : ℕ)
    · rw [if_pos (by omega),if_pos hout,hearly _ (by omega)]
      simp only [List.length_nil]
      omega
    · rw [if_neg (by omega),if_neg hout]
      rfl
  | succ n ih =>
    rw [leftOver] at ih ⊢
    rw [left,leftAt,releaseOf,workOf]
    by_cases hnow : job.arrivalTime.toNat = n + 1
    · rw [if_pos hnow,if_pos (by omega),hearly _ (by omega)]
      simp only [List.length_nil]
      omega
    · have hcount : ((ticks job.jobId m.log).filter (· < (n : Int) + 1)).length =
          ((ticks job.jobId m.log).filter (· < (n : Int))).length + if executes m.log n job then 1 else 0 :=
        length_filter_lt_succ (hr.ordered job.jobId) (n : Int)
      have hbound := List.length_filter_le (fun u => decide (u < ((n : Int) + 1))) (ticks job.jobId m.log)
      rw [leftAt] at ih
      rw [if_neg hnow]
      push_cast at ih ⊢
      by_cases hout : job.arrivalTime ≤ n
      · rw [if_pos hout] at ih
        rw [if_pos (show job.arrivalTime ≤ (n : Int) + 1 by omega)]
        by_cases hmem : executes m.log n job
        · rw [if_pos hmem] at hcount ⊢
          omega
        · rw [if_neg hmem] at hcount ⊢
          omega
      · have hnot : ¬ executes m.log n job := fun hmem => hout (hr.begun job hj _ hmem)
        rw [if_neg hout] at ih
        rw [if_neg (show ¬ job.arrivalTime ≤ (n : Int) + 1 by omega),if_neg hnot]
        omega

theorem Concluded.unfinished_iff (hc : Concluded m.log job t) (hr : Recorded rows m) (n : Int) :
    0 < leftAt m.log n job ↔ job.arrivalTime ≤ n ∧ n < t := by
  rw [leftAt,hc.runTime]
  have hsplit := List.length_eq_length_filter_add (l := ticks job.jobId m.log) (fun u => decide (u < n))
  have hlast : 0 < ((ticks job.jobId m.log).filter (fun u => !decide (u < n))).length ↔ n < t := by
    rw [List.length_pos_iff_exists_mem]
    simp only [List.mem_filter,Bool.not_eq_true',decide_eq_false_iff_not,not_lt]
    constructor
    · rintro ⟨u,hu,hle⟩
      have := le_last (hr.ordered job.jobId) hc.latest hu
      omega
    · exact fun hlt => ⟨t - 1,List.mem_of_getLast? hc.latest,by omega⟩
  split
  · next hout => rw [← hlast]; omega
  · next hout => exact ⟨fun h => absurd h (lt_irrefl 0),fun h => absurd h.1 hout⟩

theorem ends_alive (hcores : 1 ≤ o.cores) (h : Runnable rows) (he : Ends o rows m) {n : ℕ} :
    job ∈ alive (loadJobs 0 rows).toFinset (leftOver m.log n) ↔
      job ∈ loadJobs 0 rows ∧ job.arrivalTime ≤ n ∧ (n : Int) < completion job.jobId m.log := by
  have hr := visits_recorded hcores h he.1
  rw [mem_alive,List.mem_toFinset]
  refine and_congr_right (fun hj => ?_)
  have hc := ends_concluded hcores h he job hj
  rw [← hc.unfinished_iff hr,← leftOver_eq_leftAt h hr hj hc.runTime.ge]
  omega

end OperatingSystemLabs.Simulator

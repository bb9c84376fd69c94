import OperatingSystemLabs.Simulator.Accounting
import OperatingSystemLabs.Simulator.Diagram

namespace OperatingSystemLabs.Simulator

open Scheduler Keyed Transition

def released (rows : List Row) (time : Int) : Int :=
  (rows.map (fun row => if row.arrivalTime ≤ time then row.runTime else 0)).sum

-- What one core has worked off by a tick when it works whenever released work is left.
def served (rows : List Row) : Nat → Int
  | 0 => 0
  | t + 1 => if served rows t < released rows t then served rows t + 1 else served rows t

def workedOff (rows : List Row) (log : List Event) : Int :=
  ((loadJobs 0 rows).map (fun job => ((ticks job.jobId log).length : Int))).sum

structure Backlogged (rows : List Row) (m : Machine) (n : Nat) : Prop where
  time : m.time = n
  workedOff : workedOff rows m.log = served rows n
  unfinished : ∀ t < n, served rows t < totalRunTime rows
  busy : ∀ t, Busy m.log 0 t ↔ ∃ k : Nat, k < n ∧ t = k ∧ served rows k < released rows k

variable {o : Options} {rows : List Row} {m m' : Machine} {log : List Event} {loaded job : SimulatorJobListT}

theorem released_loaded (rows : List Row) (time : Int) : released rows time =
    ((loadJobs 0 rows).map (fun job => if job.arrivalTime ≤ time then job.runTime else 0)).sum :=
  congrArg List.sum (loadJobs_map (fun row => if row.arrivalTime ≤ time then row.runTime else 0) 0 rows).symm

theorem total_loaded (rows : List Row) :
    totalRunTime rows = ((loadJobs 0 rows).map (fun job => job.runTime)).sum :=
  congrArg List.sum (loadJobs_map (·.runTime) 0 rows).symm

theorem Concluded.arrived {t : Int} (h : Concluded m.log loaded t) (hr : Recorded rows m)
    (hl : loaded ∈ loadJobs 0 rows) : loaded.arrivalTime < m.time := by
  have hlast := List.mem_of_getLast? h.latest
  have := hr.begun loaded hl _ hlast
  have := hr.past loaded.jobId _ hlast
  omega

theorem unreleased_ticks (hr : Recorded rows m) (hl : loaded ∈ loadJobs 0 rows)
    (hlate : m.time < loaded.arrivalTime) : ticks loaded.jobId m.log = [] := by
  refine List.eq_nil_iff_forall_not_mem.mpr (fun t ht => ?_)
  have := hr.begun loaded hl t ht
  have := hr.past loaded.jobId t ht
  omega

theorem workedOff_le (hr : Recorded rows m) (hs : Steady o m) (hl : loaded ∈ loadJobs 0 rows) :
    ((ticks loaded.jobId m.log).length : Int) ≤ loaded.runTime := by
  rcases hr.census loaded hl with ⟨k,hk,hid⟩ | ⟨t,ht⟩
  · obtain ⟨origin,ho,hc⟩ := hr.origin k hk
    have hrun := hc.runTime
    have howed := hs.1.owed k hk
    rw [loaded_unique ho hl (hc.jobId.trans hid),hid] at hrun
    omega
  · exact ht.runTime.ge

theorem Continues.owes (hc : Continues m.log m.time loaded job) (hs : Steady o m) (hj : job ∈ m.jobs)
    (hu : Unfinished m.jobs) : ((ticks loaded.jobId m.log).length : Int) < loaded.runTime := by
  have hrun := hc.runTime
  have := hs.1.owed job hj
  have := hu job hj
  rw [← hc.jobId] at hrun
  omega

theorem workedOff_lt_total (hr : Recorded rows m) (hs : Steady o m) (hu : Unfinished m.jobs)
    (hne : m.jobs ≠ []) : workedOff rows m.log < totalRunTime rows := by
  obtain ⟨job,hj⟩ := List.exists_mem_of_ne_nil _ hne
  obtain ⟨loaded,hl,hc⟩ := hr.origin job hj
  rw [total_loaded]
  exact List.sum_lt_sum _ _ (fun k hk => workedOff_le hr hs hk) ⟨loaded,hl,hc.owes hs hj hu⟩

theorem workedOff_lt_released (hr : Recorded rows m) (hs : Steady o m) (hpc : m.pc = .runTimeUnit) :
    workedOff rows m.log < released rows m.time ↔ ∃ job ∈ m.jobs, job.arrived = true := by
  have hp := hs.2
  rw [Phased,hpc] at hp
  obtain ⟨hadmitted,hunfinished,-⟩ := hp
  rw [released_loaded]
  constructor
  · intro hlt
    by_contra hnone
    refine absurd hlt (not_lt.mpr (List.sum_le_sum (fun loaded hl => ?_)))
    split
    · next harr =>
      rcases hr.census loaded hl with ⟨k,hk,hid⟩ | ⟨t,ht⟩
      · obtain ⟨origin,ho,hc⟩ := hr.origin k hk
        have hsame := loaded_unique ho hl (hc.jobId.trans hid)
        exact absurd ⟨k,hk,(hadmitted k hk).mpr (by rw [← hc.arrivalTime,hsame]; exact harr)⟩ hnone
      · exact ht.runTime.le
    · exact Int.natCast_nonneg _
  · rintro ⟨job,hj,ha⟩
    obtain ⟨loaded,hl,hc⟩ := hr.origin job hj
    have harr : loaded.arrivalTime ≤ m.time := by
      rw [hc.arrivalTime]
      exact (hadmitted job hj).mp ha
    refine List.sum_lt_sum _ _ (fun k hk => ?_) ⟨loaded,hl,by rw [if_pos harr]; exact hc.owes hs hj hunfinished⟩
    split
    · exact workedOff_le hr hs hk
    · next hlate => rw [unreleased_ticks hr hk (by omega)]; exact le_refl _

section OneCore

variable (hone : o.cores = 1)

include hone

theorem Tracked.core_zero (ht : Tracked o m) (hj : job ∈ m.jobs) (hc : job.coreId ≠ -1) : job.coreId = 0 := by
  have := ht.valid hj hc
  omega

theorem busy_iff_backlog (hr : Recorded rows m) (hs : Steady o m) (hpc : m.pc = .runTimeUnit) :
    (∃ job ∈ m.jobs, job.coreId = 0) ↔ workedOff rows m.log < released rows m.time := by
  rw [workedOff_lt_released hr hs hpc]
  constructor
  · rintro ⟨job,hj,hc⟩
    exact ⟨job,hj,hs.1.arrived_of_seated hj (by omega)⟩
  · rintro ⟨job,hj,ha⟩
    have halive : 0 < m.jobsAlive := by
      rw [hs.1.alive_entries]
      exact Int.natCast_pos.mpr (List.length_pos_of_mem (mem_entries.mpr ⟨job,hj,ha,rfl⟩))
    obtain ⟨k,hk,hkc⟩ := hs.1.somebody hone.ge halive
    exact ⟨k,hk,hs.1.core_zero hone hk hkc⟩

theorem workedOff_ran_busy (hr : Recorded rows m) (ht : Tracked o m) (hj : job ∈ m.jobs)
    (hc : job.coreId = 0) :
    workedOff rows (m.log ++ executions m.time m.jobs) = workedOff rows m.log + 1 := by
  have hrun : job.coreId ≠ -1 := by omega
  obtain ⟨loaded,hl,hcont⟩ := hr.origin job hj
  refine sum_change ((loadJobs_distinct 0 rows).of_map _) hl ?_ (fun other ho hne => ?_)
  · rw [hcont.jobId,ticks_ran_running m.log m.time ht.distinct hj hrun,List.length_append]
    rfl
  · rw [ticks_ran_idle (fun k hk hid => ?_)]
    by_contra hkc
    have hkj := ht.seat_injective hk hj ((ht.core_zero hone hk hkc).trans hc.symm) hkc
    exact hne (loaded_unique ho hl (by rw [← hid,hkj,hcont.jobId]))

theorem ran_backlogged {n : Nat} {clock : List Int} {diagram : List (List Char)} {pc : Phase}
    (h : Backlogged rows m n) (hr : Recorded rows m) (hs : Steady o m) (hpc : m.pc = .runTimeUnit) :
    Backlogged rows { m with
      jobs := m.jobs.map work, quantumClock := clock, coreTimingDiagram := diagram
      time := m.time + 1, pc := pc, log := m.log ++ executions m.time m.jobs } (n + 1) := by
  have hp := hs.2
  rw [Phased,hpc] at hp
  have hlt := workedOff_lt_total hr hs hp.2.1 hp.2.2
  have hbusy := busy_iff_backlog hone hr hs hpc
  rw [h.workedOff,h.time] at hbusy
  refine ⟨by simp [h.time],?_,fun t ht => ?_,fun t => ?_⟩
  · rw [served]
    split
    · next hback =>
      obtain ⟨job,hj,hc⟩ := hbusy.mpr hback
      rw [workedOff_ran_busy hone hr hs.1 hj hc,h.workedOff]
    · next hback =>
      have hidle : ∀ job ∈ m.jobs, job.coreId = -1 := by
        intro job hj
        by_contra hc
        exact hback (hbusy.mp ⟨job,hj,hs.1.core_zero hone hj hc⟩)
      rw [← h.workedOff,workedOff,workedOff]
      congr 1
      exact List.map_congr_left (fun loaded _ => by rw [ticks_ran_idle (fun job hj _ => hidle job hj)])
  · rcases Nat.lt_succ_iff_lt_or_eq.mp ht with ht | rfl
    · exact h.unfinished t ht
    · rw [← h.workedOff]
      exact hlt
  · simp only
    rw [busy_append,busy_executions (by decide),h.busy,hbusy,h.time]
    constructor
    · rintro (⟨k,hk,rfl,hback⟩ | ⟨rfl,hback⟩)
      · exact ⟨k,Nat.lt_succ_of_lt hk,rfl,hback⟩
      · exact ⟨n,Nat.lt_succ_self n,rfl,hback⟩
    · rintro ⟨k,hk,rfl,hback⟩
      rcases Nat.lt_succ_iff_lt_or_eq.mp hk with hk | rfl
      · exact .inl ⟨k,hk,rfl,hback⟩
      · exact .inr ⟨rfl,hback⟩

theorem visits_backlogged (h : Runnable rows) (hv : Visits o rows m) : ∃ n, Backlogged rows m n := by
  refine visits_induction hone.ge h (Q := fun m => ∃ n, Backlogged rows m n) ⟨0,rfl,?_,nofun,fun t => ?_⟩ ?_ hv
  · exact List.sum_eq_zero (fun x hx => by obtain ⟨job,-,rfl⟩ := List.mem_map.mp hx; rfl)
  · exact ⟨nofun,fun ⟨k,hk,_⟩ => absurd hk (Nat.not_lt_zero k)⟩
  · intro m m' hv hs ⟨n,hb⟩ hm
    have hkeep (hlog : ∀ id, ticks id m'.log = ticks id m.log) (htime : m'.time = m.time)
        (hbusy : ∀ t, Busy m'.log 0 t ↔ Busy m.log 0 t) : ∃ n, Backlogged rows m' n := by
      refine ⟨n,htime.trans hb.time,?_,hb.unfinished,fun t => (hbusy t).trans (hb.busy t)⟩
      rw [← hb.workedOff,workedOff,workedOff]
      simp only [hlog]
    cases hm with
    | finished => exact hkeep (fun _ => ticks_called) rfl (fun _ => busy_called _ _)
    | expired => exact hkeep (fun _ => ticks_called) rfl (fun _ => busy_called _ _)
    | arrived => exact hkeep (fun _ => ticks_called) rfl (fun _ => busy_called _ _)
    | ran _ hpc => exact ⟨n + 1,ran_backlogged hone hb (visits_recorded hone.ge h hv) hs hpc⟩
    | _ => exact hkeep (fun _ => rfl) rfl (fun _ => Iff.rfl)

theorem ends_backlogged (h : Runnable rows) (he : Ends o rows m) :
    ∃ n, Backlogged rows m n ∧ served rows n = totalRunTime rows := by
  obtain ⟨n,hb⟩ := visits_backlogged hone h he.1
  refine ⟨n,hb,?_⟩
  rw [← hb.workedOff,workedOff,total_loaded]
  congr 1
  exact List.map_congr_left (fun job hj => (ends_concluded hone.ge h he job hj).runTime.symm)

end OneCore

theorem busy_ticks_agree (h : Runnable rows) (scheme scheme' : SchemeT) (quantum quantum' : Int) :
    (∃ m, Ends ⟨1,scheme,quantum⟩ rows m) ∧ (∃ m', Ends ⟨1,scheme',quantum'⟩ rows m') ∧
    ∀ m m', Ends ⟨1,scheme,quantum⟩ rows m → Ends ⟨1,scheme',quantum'⟩ rows m' →
      m'.time = m.time ∧ (∀ t, Busy m'.log 0 t ↔ Busy m.log 0 t) ∧ ∃ n : Nat, m.time = n ∧
        m.coreTimingDiagram[0]? = some (tickTexts m.log 0 n).flatten ∧
        m'.coreTimingDiagram[0]? = some (tickTexts m'.log 0 n).flatten ∧
        ∀ t : Nat, (tickTexts m'.log 0 n)[t]? = some ['-'] ↔ (tickTexts m.log 0 n)[t]? = some ['-'] := by
  refine ⟨simulator_ends (le_refl 1) h,simulator_ends (le_refl 1) h,fun m m' he he' => ?_⟩
  obtain ⟨n,hb,hdone⟩ := ends_backlogged rfl h he
  obtain ⟨n',hb',hdone'⟩ := ends_backlogged rfl h he'
  have hn : n' = n := by
    rcases Nat.lt_trichotomy n' n with hlt | heq | hlt
    · exact absurd hdone' (hb.unfinished n' hlt).ne
    · exact heq
    · exact absurd hdone (hb'.unfinished n hlt).ne
  subst hn
  have hbusy (t : Int) : Busy m'.log 0 t ↔ Busy m.log 0 t := (hb'.busy t).trans (hb.busy t).symm
  have htexts (t : Nat) : (tickTexts m'.log 0 n')[t]? = some ['-'] ↔ (tickTexts m.log 0 n')[t]? = some ['-'] := by
    simp only [tickTexts_dash,hbusy]
  have hshown {scheme : SchemeT} {quantum : Int} {m : Machine} (hv : Visits ⟨1,scheme,quantum⟩ rows m)
      (hb : Backlogged rows m n') : m.coreTimingDiagram[0]? = some (tickTexts m.log 0 n').flatten := by
    obtain ⟨k,hk,hall⟩ := (visits_pictured (le_refl 1) h hv).elapsed
    have hkn : k = n' := Int.ofNat_inj.mp (hk.symm.trans hb.time)
    exact hkn ▸ hall 0 Nat.zero_lt_one
  exact ⟨hb'.time.trans hb.time.symm,hbusy,n',hb.time,hshown he.1 hb,hshown he'.1 hb',htexts⟩

theorem busy_ticks_agree_preempting :
    ∃ m m', Ends ⟨1,.psjf,0⟩ [⟨0,5,1⟩,⟨2,1,1⟩,⟨9,2,1⟩] m ∧ Ends ⟨1,.rr,2⟩ [⟨0,5,1⟩,⟨2,1,1⟩,⟨9,2,1⟩] m' ∧
      m'.time = m.time ∧ ∀ t, Busy m'.log 0 t ↔ Busy m.log 0 t := by
  obtain ⟨⟨m,hm⟩,⟨m',hm'⟩,hall⟩ := busy_ticks_agree
    (show Runnable [⟨0,5,1⟩,⟨2,1,1⟩,⟨9,2,1⟩] by simp [Runnable]) .psjf .rr 0 2
  obtain ⟨htime,hbusy,-⟩ := hall m m' hm hm'
  exact ⟨m,m',hm,hm',htime,hbusy⟩

end OperatingSystemLabs.Simulator

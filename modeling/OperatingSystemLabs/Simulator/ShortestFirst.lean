import Mathlib.Algebra.BigOperators.Intervals
import OperatingSystemLabs.Foundation.ShortestFirst
import OperatingSystemLabs.Simulator.LargeQuantum
import OperatingSystemLabs.Simulator.Leftover

namespace OperatingSystemLabs.Simulator

open Scheduler Insertion Keyed Transition Service ShortestFirst Finset

def Alone (rows : List Row) (log : List Event) : Prop :=
  ∀ a ∈ loadJobs 0 rows, ∀ b ∈ loadJobs 0 rows, ∀ t ∈ ticks a.jobId log, t ∈ ticks b.jobId log → a = b

def Greedy (rows : List Row) (m : Machine) : Prop :=
  ∀ t < m.time, ∀ b ∈ loadJobs 0 rows, 0 < leftAt m.log t b →
    ∃ a ∈ loadJobs 0 rows, t ∈ ticks a.jobId m.log ∧ leftAt m.log t a ≤ leftAt m.log t b

def unfinishedAt (rows : List Row) (log : List Event) (n : ℕ) : List SimulatorJobListT :=
  (loadJobs 0 rows).filter (fun job => job.arrivalTime ≤ (n : Int) ∧ (n : Int) < completion job.jobId log)

variable {o : Options} {rows : List Row} {m m' : Machine} {a b job : SimulatorJobListT} {jobs : List JobT}

theorem psjfCompare_reads_fresh {x y : JobT} {t : Int} (hf : Fits (x.timeRemaining - y.timeRemaining))
    (hx : remaining t x = x.timeRemaining) (hy : remaining t y = y.timeRemaining) :
    Reads psjfCompare (remaining t) x y := by
  rw [Reads,hx,hy,psjfCompare,compareBy,intSub_of_fits hf]
  split
  · next heq => exact ⟨fun _ => by omega,fun _ => by omega,fun _ => by omega⟩
  · next hne => exact ⟨fun h => by omega,fun h => by omega,fun h => by omega⟩

theorem none_queued (hs : Sound 1 jobs) (hfree : ¬ Full 1 jobs) : jobs = [] := by
  refine List.eq_nil_iff_forall_not_mem.mpr (fun j hj => hfree ?_)
  by_cases hr : Running j
  · intro c h0 hc
    have := hs.valid_of_running hj hr
    exact ⟨j,hj,by omega⟩
  · exact hs.busy hj (not_not.mp hr)

theorem visits_shortest_sorted (hone : o.cores = 1) (hscheme : o.scheme = .psjf) (h : Runnable rows)
    (hsized : IntSized rows) (hv : Visits o rows m) : Sorted (remaining m.time) m.lib.jobs := by
  refine visits_induction hone.ge h (Q := fun m => Sorted (remaining m.time) m.lib.jobs) .nil ?_ hv
  intro m m' hv hs hsort hm
  have hg := hs.1.run.governed
  have hp : o.scheme.preemptive = true := by rw [hscheme]; rfl
  cases hm with
  | finished _ _ _ _ _ hserved =>
    exact step_sorted remaining_ranking hp hserved.stepped (hg.admissible hserved.legal) trivial hsort
  | expired _ hexpire => rw [hscheme] at hexpire; cases hexpire
  | @arrived l r job lib' ret _ hj hnow ha hserved =>
    refine step_sorted remaining_ranking hp hserved.stepped (hg.admissible hserved.legal) ⟨?_,?_⟩ hsort
    · intro hfree k hk
      have hnil : m.lib.board.jobs = [] := none_queued (hone ▸ hg.sound) (hone ▸ hfree)
      rw [hnil] at hk
      cases hk
    intro _ k hk
    have hr := visits_recorded hone.ge h hv
    have hnew := loaded_row ((visits_stamped hone.ge h hv).pending hr hs.1 (by simp [hj]) ha)
    obtain ⟨loaded,hl,-,-,hrun⟩ := hr.record hs.1 hk
    obtain ⟨hnonneg,hstale,howed⟩ := hs.1.drained hk
    have hbound : loaded.runTime < 2 ^ 31 := (hsized _ (loaded_row hl)).2
    have hbound' : job.runTime < 2 ^ 31 := (hsized _ hnew).2
    have hpos : 1 ≤ job.runTime := (h _ hnew).1
    rw [hscheme]
    split
    · next hrunning =>
      have hkey : remaining m.time (k.charged m.time) = (k.charged m.time).timeRemaining :=
        (remaining_ranking.charged m.time k hrunning).trans (remaining_running m.time hrunning)
      have hsame := remaining_ranking.charged m.time k hrunning
      refine psjfCompare_reads_fresh ?_ rfl hkey
      rw [← hkey,hsame]
      simp only [Fits,JobT.new]
      omega
    · next hwaiting =>
      have hkey := remaining_waiting m.time (not_not.mp hwaiting)
      refine psjfCompare_reads_fresh ?_ rfl hkey
      rw [← hkey]
      simp only [Fits,JobT.new]
      omega
  | ran => exact sorted_later (hg.leading hp) (Int.le_add_one le_rfl) hsort
  | _ => exact hsort

theorem visits_alone (hone : o.cores = 1) (h : Runnable rows) (hv : Visits o rows m) : Alone rows m.log := by
  refine visits_induction hone.ge h (Q := fun m => Alone rows m.log) ?_ ?_ hv
  · intro a _ b _ t ht
    cases ht
  intro m m' hv hs halone hm
  have hkeep (hlog : ∀ id, ticks id m'.log = ticks id m.log) : Alone rows m'.log := by
    simpa only [Alone,hlog] using halone
  cases hm with
  | finished => exact hkeep (fun _ => ticks_called)
  | expired => exact hkeep (fun _ => ticks_called)
  | arrived => exact hkeep (fun _ => ticks_called)
  | ran =>
    have hr := visits_recorded hone.ge h hv
    intro a ha b hb t hta htb
    rw [mem_ticks_ran m.log m.time hs.1.distinct] at hta htb
    rcases hta with hta | ⟨rfl,j,hj,hja,hjc⟩
    · rcases htb with htb | ⟨rfl,-⟩
      · exact halone a ha b hb t hta htb
      · exact absurd (hr.past _ _ hta) (lt_irrefl _)
    · rcases htb with htb | ⟨-,k,hk,hkb,hkc⟩
      · exact absurd (hr.past _ _ htb) (lt_irrefl _)
      · have hsame := (hs.1.core_zero hone hj hjc).trans (hs.1.core_zero hone hk hkc).symm
        exact loaded_unique ha hb (by rw [← hja,hs.1.seat_injective hj hk hsame hjc,hkb])
  | _ => exact hkeep (fun _ => rfl)

theorem ran_greedy (hone : o.cores = 1) (hr : Recorded rows m) (hs : Steady o m)
    (hsort : o.scheme.preemptive = true ∧ Sorted (remaining m.time) m.lib.jobs) (hpc : m.pc = .runTimeUnit)
    (hb : b ∈ loadJobs 0 rows) (hleft : 0 < leftAt m.log m.time b) :
    ∃ a ∈ loadJobs 0 rows, (∃ job ∈ m.jobs, job.jobId = a.jobId ∧ job.coreId ≠ -1) ∧
      leftAt m.log m.time a ≤ leftAt m.log m.time b := by
  have hp := hs.2
  rw [Phased,hpc] at hp
  have hnow (job : SimulatorJobListT) (hj : job ∈ m.jobs) (ha : job.arrived = true) :
      ∃ loaded ∈ loadJobs 0 rows, loaded.jobId = job.jobId ∧ leftAt m.log m.time loaded = job.runTime := by
    obtain ⟨loaded,hl,hc⟩ := hr.origin job hj
    have hout : loaded.arrivalTime ≤ m.time := by
      rw [hc.arrivalTime]
      exact (hp.1 job hj).mp ha
    exact ⟨loaded,hl,hc.jobId,by rw [hr.leftAt_now hout,hc.runTime,hc.jobId]; omega⟩
  obtain ⟨w,hw,hwb,hwarr⟩ := (unfinished_queued hr hs hpc hb).mp hleft
  obtain ⟨origin,ho,hid,hwleft⟩ := hnow w hw hwarr
  obtain rfl := loaded_unique ho hb (hid.trans hwb)
  obtain ⟨kw,hkw,hkwid,hkwcore,hkwleft⟩ := hs.1.record hw hwarr
  have halive : 0 < m.jobsAlive := by
    rw [hs.1.alive]
    exact Int.natCast_pos.mpr (List.length_pos_of_mem hkw)
  obtain ⟨r,hrj,hrc⟩ := hs.1.somebody hone.ge halive
  have hrarr := hs.1.arrived_of_seated hrj hrc
  obtain ⟨kr,hkr,hkrid,hkrcore,hkrleft⟩ := hs.1.record hrj hrarr
  obtain ⟨a,ha,haid,haleft⟩ := hnow r hrj hrarr
  refine ⟨a,ha,⟨r,hrj,haid.symm,hrc⟩,?_⟩
  rw [haleft,hwleft,← hkrleft,← hkwleft]
  by_cases hwc : w.coreId = -1
  · exact sorted_running_le hsort.2 (hs.1.run.governed.leading hsort.1) hkr hkw
      (by rw [Running,hkrcore]; exact hrc) (hkwcore.trans hwc)
  · have hsame := (hs.1.core_zero hone hrj hrc).trans (hs.1.core_zero hone hw hwc).symm
    rw [hkrleft,hkwleft,hs.1.seat_injective hrj hw hsame hrc]

theorem visits_greedy (hone : o.cores = 1) (hscheme : o.scheme = .psjf) (h : Runnable rows)
    (hsized : IntSized rows) (hv : Visits o rows m) : Greedy rows m := by
  refine visits_induction hone.ge h (Q := Greedy rows) ?_ ?_ hv
  · intro t ht b hb hleft
    obtain ⟨-,-,-,row,hrow,harr,-⟩ := mem_loadJobs hb
    have hlate : ¬ b.arrivalTime ≤ t := by
      have := (h row hrow).2
      have : t < 0 := ht
      omega
    rw [leftAt,if_neg hlate] at hleft
    exact absurd hleft (lt_irrefl 0)
  intro m m' hv hs hgreedy hm
  have hkeep (htime : m'.time = m.time) (hlog : ∀ id, ticks id m'.log = ticks id m.log) : Greedy rows m' := by
    simpa only [Greedy,leftAt,htime,hlog] using hgreedy
  cases hm with
  | finished => exact hkeep rfl (fun _ => ticks_called)
  | expired => exact hkeep rfl (fun _ => ticks_called)
  | arrived => exact hkeep rfl (fun _ => ticks_called)
  | ran _ hpc =>
    have hd := hs.1.distinct
    have hsort := visits_shortest_sorted hone hscheme h hsized hv
    intro t ht b hb hleft
    rw [leftAt_ran m.log hd (Int.lt_add_one_iff.mp ht)] at hleft ⊢
    rcases (Int.lt_add_one_iff.mp ht).lt_or_eq with hbefore | rfl
    · obtain ⟨a,ha,hat,hle⟩ := hgreedy t hbefore b hb hleft
      exact ⟨a,ha,(mem_ticks_ran m.log m.time hd).mpr (.inl hat),by rwa [leftAt_ran m.log hd hbefore.le]⟩
    · obtain ⟨a,ha,hrun,hle⟩ := ran_greedy hone (visits_recorded hone.ge h hv) hs
        ⟨by rw [hscheme]; rfl,hsort⟩ hpc hb hleft
      exact ⟨a,ha,(mem_ticks_ran m.log m.time hd).mpr (.inr ⟨rfl,hrun⟩),by rwa [leftAt_ran m.log hd le_rfl]⟩
  | _ => exact hkeep rfl (fun _ => rfl)

section Final

variable (hone : o.cores = 1) (h : Runnable rows) (he : Ends o rows m)

include hone h he

theorem ends_unfinished (n : ℕ) : (unfinishedAt rows m.log n).length =
    (alive (loadJobs 0 rows).toFinset (leftOver m.log n)).card := by
  rw [unfinishedAt,← List.toFinset_card_of_nodup (((loadJobs_distinct 0 rows).of_map _).filter _)]
  congr 1
  ext job
  rw [ends_alive hone.ge h he,List.mem_toFinset,List.mem_filter,decide_eq_true_eq]

theorem ends_turnaround {N : ℕ} (hN : m.time ≤ N) : m.lib.turnaroundTime =
    ∑ n ∈ range N, ((alive (loadJobs 0 rows).toFinset (leftOver m.log n)).card : Int) := by
  have hr := visits_recorded hone.ge h he.1
  have hspan (job : SimulatorJobListT) (hj : job ∈ loadJobs 0 rows) : completion job.jobId m.log - job.arrivalTime =
      ∑ n ∈ range N, if job ∈ alive (loadJobs 0 rows).toFinset (leftOver m.log n) then (1 : Int) else 0 := by
    have hc := ends_concluded hone.ge h he job hj
    have hlast := List.mem_of_getLast? hc.latest
    have hbegun := hr.begun job hj _ hlast
    have hpast := hr.past job.jobId _ hlast
    obtain ⟨-,-,-,row,hrow,harr,-⟩ := mem_loadJobs hj
    have hzero := (h row hrow).2
    have hrange : (range N).filter (fun n => job ∈ alive (loadJobs 0 rows).toFinset (leftOver m.log n)) =
        Ico job.arrivalTime.toNat (completion job.jobId m.log).toNat := by
      ext n
      simp only [mem_filter,mem_range,ends_alive hone.ge h he,mem_Ico]
      constructor
      · rintro ⟨-,-,hle,hlt⟩
        omega
      · exact fun hn => ⟨by omega,hj,by omega,by omega⟩
    rw [sum_boole,hrange,Nat.card_Ico]
    omega
  have htotal := (ends_totals hone.ge h he).2.1
  rw [tally_done (ends_concluded hone.ge h he),← List.sum_toFinset _ ((loadJobs_distinct 0 rows).of_map _)] at htotal
  rw [htotal,sum_congr rfl (fun job hj => hspan job (List.mem_toFinset.mp hj)),sum_comm]
  refine sum_congr rfl (fun n _ => ?_)
  rw [sum_boole,filter_mem_eq_inter,inter_eq_right.mpr (alive_subset _ _)]

theorem ends_waiting : m.lib.waitingTime = m.lib.turnaroundTime - totalRunTime rows := by
  obtain ⟨hwait,hturn,-⟩ := ends_totals hone.ge h he
  have hc := ends_concluded hone.ge h he
  have hd : (loadJobs 0 rows).Nodup := (loadJobs_distinct 0 rows).of_map _
  rw [hwait,hturn,tally_done hc,tally_done hc,total_loaded,← List.sum_toFinset _ hd,← List.sum_toFinset _ hd,
    ← List.sum_toFinset _ hd,← sum_sub_distrib]

theorem ends_shortest (hscheme : o.scheme = .psjf) (hsized : IntSized rows) :
    Shortest (loadJobs 0 rows).toFinset releaseOf workOf (executes m.log) := by
  intro n ⟨b,hb⟩
  have hr := visits_recorded hone.ge h he.1
  have halone := visits_alone hone h he.1
  have hc := ends_concluded hone.ge h he
  have hleft (job : SimulatorJobListT) (hj : job ∈ loadJobs 0 rows) :=
    leftOver_eq_leftAt h hr hj (hc job hj).runTime.ge n
  have hmin (k : SimulatorJobListT) (hk : k ∈ alive (loadJobs 0 rows).toFinset (leftOver m.log n)) :
      ∃ a ∈ loadJobs 0 rows, executes m.log n a ∧ leftAt m.log n a ≤ leftAt m.log n k := by
    obtain ⟨hkl,hkarr,hklt⟩ := (ends_alive hone.ge h he).mp hk
    have hpast := hr.past k.jobId _ (List.mem_of_getLast? (hc k hkl).latest)
    exact visits_greedy hone hscheme h hsized he.1 n (by omega) k hkl
      (((hc k hkl).unfinished_iff hr n).mpr ⟨hkarr,hklt⟩)
  obtain ⟨a,ha,hat,-⟩ := hmin b hb
  have haalive : a ∈ alive (loadJobs 0 rows).toFinset (leftOver m.log n) := by
    have := le_last (hr.ordered a.jobId) (hc a ha).latest hat
    exact (ends_alive hone.ge h he).mpr ⟨ha,hr.begun a ha _ hat,by omega⟩
  refine ⟨a,haalive,hat,fun k hk => ?_⟩
  obtain ⟨a',ha',hat',hle⟩ := hmin k hk
  rw [← halone a ha a' ha' n hat hat',← hleft a ha,← hleft k ((ends_alive hone.ge h he).mp hk).1] at hle
  exact_mod_cast hle

theorem ends_single : Single (loadJobs 0 rows).toFinset (executes m.log) :=
  fun n a ha b hb hat hbt => visits_alone hone h he.1 a (List.mem_toFinset.mp ha) b (List.mem_toFinset.mp hb) n hat hbt

end Final

theorem preemptive_shortest_is_optimal (h : Runnable rows) (hsized : IntSized rows) (quantum quantum' : Int)
    (scheme : SchemeT) : (∃ m, Ends ⟨1,.psjf,quantum⟩ rows m) ∧ (∃ m', Ends ⟨1,scheme,quantum'⟩ rows m') ∧
    ∀ m m', Ends ⟨1,.psjf,quantum⟩ rows m → Ends ⟨1,scheme,quantum'⟩ rows m' →
      m.lib.turnaroundTime ≤ m'.lib.turnaroundTime ∧ m.lib.waitingTime ≤ m'.lib.waitingTime ∧
      schedulerAverageTurnaroundTime m.lib ≤ schedulerAverageTurnaroundTime m'.lib ∧
      schedulerAverageWaitingTime m.lib ≤ schedulerAverageWaitingTime m'.lib ∧
      ∀ n, (unfinishedAt rows m.log n).length ≤ (unfinishedAt rows m'.log n).length := by
  refine ⟨simulator_ends (le_refl 1) h,simulator_ends (le_refl 1) h,fun m m' he he' => ?_⟩
  have hfewest := shortest_fewest_alive (ends_shortest rfl h he rfl hsized) (ends_single rfl h he')
  have hturn : m.lib.turnaroundTime ≤ m'.lib.turnaroundTime := by
    rw [ends_turnaround rfl h he (N := (max m.time m'.time).toNat) (by omega),
      ends_turnaround rfl h he' (N := (max m.time m'.time).toNat) (by omega)]
    exact sum_le_sum fun n _ => by exact_mod_cast hfewest n
  have hwait : m.lib.waitingTime ≤ m'.lib.waitingTime := by
    rw [ends_waiting rfl h he,ends_waiting rfl h he']
    omega
  have hnum : m.lib.numJobs = m'.lib.numJobs :=
    (ends_numJobs (le_refl 1) h he).trans (ends_numJobs (le_refl 1) h he').symm
  have hpos : (0 : Rat) ≤ m'.lib.numJobs := by
    rw [ends_numJobs (le_refl 1) h he']
    positivity
  refine ⟨hturn,hwait,?_,?_,fun n => ?_⟩
  · rw [schedulerAverageTurnaroundTime,schedulerAverageTurnaroundTime,hnum]
    exact div_le_div_of_nonneg_right (by exact_mod_cast hturn) hpos
  · rw [schedulerAverageWaitingTime,schedulerAverageWaitingTime,hnum]
    exact div_le_div_of_nonneg_right (by exact_mod_cast hwait) hpos
  · rw [ends_unfinished rfl h he,ends_unfinished rfl h he']
    exact hfewest n

theorem preemptive_shortest_is_optimal_undercut :
    ∃ m m', Ends ⟨1,.psjf,0⟩ [⟨0,5,1⟩,⟨1,2,1⟩,⟨2,1,1⟩] m ∧ Ends ⟨1,.rr,2⟩ [⟨0,5,1⟩,⟨1,2,1⟩,⟨2,1,1⟩] m' ∧
      m.lib.waitingTime ≤ m'.lib.waitingTime := by
  obtain ⟨⟨m,hm⟩,⟨m',hm'⟩,hall⟩ := preemptive_shortest_is_optimal
    (show Runnable [⟨0,5,1⟩,⟨1,2,1⟩,⟨2,1,1⟩] by simp [Runnable])
    (show IntSized [⟨0,5,1⟩,⟨1,2,1⟩,⟨2,1,1⟩] by simp [IntSized]) 0 2 .rr
  exact ⟨m,m',hm,hm',(hall m m' hm hm').2.1⟩

end OperatingSystemLabs.Simulator

import OperatingSystemLabs.Scheduler.ShortestRemaining
import OperatingSystemLabs.Scheduler.Totals
import OperatingSystemLabs.Simulator.Termination

namespace OperatingSystemLabs.Simulator

open Scheduler Keyed Transition

def tally (f : Event → Option Slot) (final : SimulatorJobListT → Int → Int) (rows : List Row)
    (log : List Event) : Int :=
  ((loadJobs 0 rows).map (fun job => ((times f job.jobId log).head?).elim 0 (final job))).sum

structure Accounted (rows : List Row) (m : Machine) : Prop where
  numJobs : m.lib.numJobs = m.lib.jobs.length + tally Event.completion? (fun _ _ => 1) rows m.log
  turnaround : m.lib.turnaroundTime = tally Event.completion? (fun job t => t - job.arrivalTime) rows m.log
  waiting : m.lib.waitingTime =
    credits m.lib.jobs + tally Event.completion? (fun job t => t - job.arrivalTime - job.runTime) rows m.log

def completion (id : Int) (log : List Event) : Int := (completions id log).headD 0

def waited (log : List Event) (job : SimulatorJobListT) : List Int :=
  (integers (completion job.jobId log - job.arrivalTime).toNat).filter
    (fun i => job.arrivalTime + i ∉ ticks job.jobId log)

variable {o : Options} {rows : List Row} {m m' : Machine} {call : Call} {ret core t : Int} {lib' : Lib}
variable {log log' : List Event} {loaded job : SimulatorJobListT}
variable {final : SimulatorJobListT → Int → Int} {f : Event → Option Slot}

theorem tally_keep (h : ∀ job ∈ loadJobs 0 rows,
    (times f job.jobId log').head? = (times f job.jobId log).head?) :
    tally f final rows log' = tally f final rows log := by
  rw [tally]
  congr 1
  exact List.map_congr_left (fun job hj => by rw [h job hj])

theorem tally_first (hl : loaded ∈ loadJobs 0 rows) (hnone : times f loaded.jobId log = [])
    (hone : times f loaded.jobId log' = [t])
    (hother : ∀ job ∈ loadJobs 0 rows, job.jobId ≠ loaded.jobId →
      times f job.jobId log' = times f job.jobId log) :
    tally f final rows log' = tally f final rows log + final loaded t := by
  refine sum_change ((loadJobs_distinct 0 rows).of_map _) hl ?_ (fun y hy hne => ?_)
  · rw [hone,hnone]
    exact (Int.zero_add _).symm
  · rw [hother y hy (fun he => hne (loaded_unique hy hl he))]

theorem finished_accounted (ha : Accounted rows m) (hr : Recorded rows m) (ht : Tracked o m)
    (hj : job ∈ m.jobs) (hrun : job.runTime = 0) (hc : job.coreId ≠ -1)
    (hs : Served o m (.jobFinished job.coreId job.jobId m.time) lib' ret)
    (hlib : m'.lib = lib') (hlog : m'.log = m.log ++ [.called (.jobFinished job.coreId job.jobId m.time) ret]) :
    Accounted rows m' := by
  have hg := ht.run.governed
  obtain ⟨f,hf,hfid,hfc,hnum,hlen,hturn,hwait⟩ := step_balances hs.stepped (hg.admissible hs.legal)
  obtain ⟨k,hk,hkid,hkc,hleft⟩ := ht.record hj (ht.arrived_of_seated hj hc)
  have hkf : k = f := hg.sound.job_injective hk hf (hkid.trans hfid.symm)
  subst hkf
  obtain ⟨loaded,hl,hlid,hlarr,hlrun⟩ := hr.record ht hk
  have hid : loaded.jobId = job.jobId := hlid.trans hkid
  have hnone : completions loaded.jobId m.log = [] := by
    obtain ⟨origin,-,hcont⟩ := hr.origin job hj
    rw [hid]
    exact hcont.uncompleted
  have hcredit : credit k = m.time - loaded.arrivalTime - loaded.runTime := by
    have hkr : k.coreId ≠ -1 := hkc ▸ hc
    rw [remaining_running m.time hkr,hrun] at hleft
    rw [credit,if_neg hkr,hlarr,hlrun]
    omega
  have hsum {final : SimulatorJobListT → Int → Int} :
      tally Event.completion? final rows m'.log = tally Event.completion? final rows m.log + final loaded m.time := by
    refine tally_first hl hnone ?_ (fun other _ hne => ?_)
    · change completions loaded.jobId m'.log = [m.time]
      rw [hlog,hid,completions_finished,← hid,hnone]
      rfl
    · change completions other.jobId m'.log = completions other.jobId m.log
      rw [hlog]
      refine completions_called (fun c u hc => hne ?_)
      exact ((Call.jobFinished.injEq ..).mp hc).2.1.symm.trans hid.symm
  have hjobs : lib'.jobs.length + 1 = m.lib.jobs.length := hlen
  have hcount : lib'.numJobs = m.lib.numJobs := hnum
  have hdone : lib'.turnaroundTime = m.lib.turnaroundTime + (m.time - k.arrivalTime) := hturn
  have hwaited : lib'.waitingTime - credits lib'.jobs =
      m.lib.waitingTime - credits m.lib.jobs + credit k := hwait
  obtain ⟨hnumJobs,hturnaround,hwaiting⟩ := ha
  refine ⟨?_,?_,?_⟩
  · rw [hlib,hsum]
    omega
  · rw [hlib,hsum]
    omega
  · rw [hlib,hsum]
    omega

theorem called_accounted (ha : Accounted rows m) (ht : Tracked o m) (hs : Served o m call lib' ret)
    (hcall : ∀ core id t, call ≠ .jobFinished core id t)
    (hlib : m'.lib = lib') (hlog : m'.log = m.log ++ [.called call ret]) : Accounted rows m' := by
  have hg := ht.run.governed
  have hbal := step_balances hs.stepped (hg.admissible hs.legal)
  have hsum {final : SimulatorJobListT → Int → Int} :
      tally Event.completion? final rows m'.log = tally Event.completion? final rows m.log := by
    rw [hlog]
    exact tally_keep (fun job _ => congrArg _ (completions_called (fun c t => hcall c job.jobId t)))
  obtain ⟨hnumJobs,hturnaround,hwaiting⟩ := ha
  cases call with
  | jobFinished core id t => exact absurd rfl (hcall core id t)
  | newJob =>
    obtain ⟨hnum,hlen,hturn,hwait⟩ := hbal
    simp only [Lib.board] at hnum hlen hturn hwait
    refine ⟨?_,?_,?_⟩ <;> (rw [hlib,hsum]; omega)
  | quantumExpired =>
    obtain ⟨hnum,hlen,hturn,hwait⟩ := hbal
    simp only [Lib.board] at hnum hlen hturn hwait
    refine ⟨?_,?_,?_⟩ <;> (rw [hlib,hsum]; omega)

theorem Accounted.keep (ha : Accounted rows m) (hlib : m'.lib = m.lib)
    (hlog : ∀ id, completions id m'.log = completions id m.log) : Accounted rows m' := by
  have hsum {final : SimulatorJobListT → Int → Int} :
      tally Event.completion? final rows m'.log = tally Event.completion? final rows m.log :=
    tally_keep (fun job _ => congrArg _ (hlog job.jobId))
  refine ⟨?_,?_,?_⟩
  · rw [hlib,hsum]
    exact ha.numJobs
  · rw [hlib,hsum]
    exact ha.turnaround
  · rw [hlib,hsum]
    exact ha.waiting

theorem move_accounted (ht : Tracked o m) (hr : Recorded rows m) (ha : Accounted rows m)
    (hm : Move o m m') : Accounted rows m' := by
  cases hm with
  | @finished l r r' job lib' ret _ hj hrun _ hc hs =>
    exact finished_accounted ha hr ht (by simp [hj]) hrun hc hs rfl rfl
  | expired _ _ _ _ _ _ hs => exact called_accounted ha ht hs nofun rfl rfl
  | arrived _ _ _ _ hs => exact called_accounted ha ht hs nofun rfl rfl
  | ran => exact ha.keep rfl (fun id => times_executions (fun _ _ _ => rfl))
  | _ => exact ha.keep rfl (fun _ => rfl)

theorem tally_start (f : Event → Option Slot) (final : SimulatorJobListT → Int → Int) (o : Options)
    (rows : List Row) : tally f final rows (start o rows).log = 0 := by
  refine List.sum_eq_zero (fun x hx => ?_)
  obtain ⟨job,-,rfl⟩ := List.mem_map.mp hx
  rfl

theorem start_accounted (o : Options) (rows : List Row) : Accounted rows (start o rows) := by
  refine ⟨?_,?_,?_⟩
  all_goals
    rw [tally_start]
    rfl

theorem visits_accounted (hcores : 1 ≤ o.cores) (h : Runnable rows) (hv : Visits o rows m) :
    Accounted rows m :=
  visits_induction hcores h (start_accounted o rows)
    (fun _ _ hv hs ha hm => move_accounted hs.1 (visits_recorded hcores h hv) ha hm) hv

theorem Steady.queue_empty (hs : Steady o m) (hpc : m.pc = .done) : m.jobs = [] ∧ m.lib.jobs = [] := by
  obtain ⟨ht,hp⟩ := hs
  rw [Phased,hpc] at hp
  have hnil := ht.coupled
  rw [hp] at hnil
  exact ⟨hp,List.map_eq_nil_iff.mp hnil.symm.eq_nil⟩

theorem Recorded.concluded (hr : Recorded rows m) (hnil : m.jobs = []) (hl : loaded ∈ loadJobs 0 rows) :
    Concluded m.log loaded (completion loaded.jobId m.log) := by
  rcases hr.census loaded hl with ⟨k,hk,-⟩ | ⟨t,ht⟩
  · simp [hnil] at hk
  · have hcompletion : completion loaded.jobId m.log = t := by
      rw [completion,ht.completed]
      rfl
    rwa [hcompletion]

theorem tally_done (h : ∀ job ∈ loadJobs 0 rows, Concluded log job (completion job.jobId log)) :
    tally Event.completion? final rows log =
      ((loadJobs 0 rows).map (fun job => final job (completion job.jobId log))).sum := by
  rw [tally]
  congr 1
  refine List.map_congr_left (fun job hj => ?_)
  have honce : times Event.completion? job.jobId log = _ := (h job hj).completed
  rw [honce]
  rfl

theorem le_last {xs : List Int} {a b : Int} (h : xs.Pairwise (· < ·)) (hb : xs.getLast? = some b)
    (ha : a ∈ xs) : a ≤ b := by
  obtain ⟨ys,rfl⟩ := List.getLast?_eq_some_iff.mp hb
  rcases List.mem_append.mp ha with ha | ha
  · exact ((List.pairwise_append.mp h).2.2 a ha b (List.mem_singleton_self b)).le
  · exact (List.mem_singleton.mp ha).le

theorem waited_length (hr : Recorded rows m) (hl : job ∈ loadJobs 0 rows)
    (hc : Concluded m.log job (completion job.jobId m.log)) :
    ((waited m.log job).length : Int) =
      completion job.jobId m.log - job.arrivalTime - job.runTime := by
  have hordered := hr.ordered job.jobId
  have hspan : ∀ t ∈ ticks job.jobId m.log,
      job.arrivalTime ≤ t ∧ t < completion job.jobId m.log := by
    intro t ht
    have := le_last hordered hc.latest ht
    exact ⟨hr.begun job hl t ht,by omega⟩
  have hpos : job.arrivalTime < completion job.jobId m.log := by
    have hbounds := hspan _ (List.mem_of_getLast? hc.latest)
    omega
  have hmissing := length_missing (n := (completion job.jobId m.log - job.arrivalTime).toNat)
    (a := job.arrivalTime) (hordered.imp Int.ne_of_lt) (fun t ht => by have := hspan t ht; omega)
  have hcount := hc.runTime
  rw [waited]
  omega

theorem loadJobs_length (n : Int) (rows : List Row) : (loadJobs n rows).length = rows.length := by
  induction rows generalizing n with
  | nil => rfl
  | cons row rows ih => exact congrArg (· + 1) (ih (n + 1))

theorem ends_concluded (hcores : 1 ≤ o.cores) (h : Runnable rows) (he : Ends o rows m) :
    ∀ job ∈ loadJobs 0 rows, Concluded m.log job (completion job.jobId m.log) := by
  obtain ⟨hv,hpc⟩ := he
  obtain ⟨hjobs,-⟩ := (visits_steady hcores h hv).queue_empty hpc
  exact fun job hj => (visits_recorded hcores h hv).concluded hjobs hj

theorem ends_numJobs (hcores : 1 ≤ o.cores) (h : Runnable rows) (he : Ends o rows m) :
    m.lib.numJobs = rows.length := by
  have hnum := (visits_accounted hcores h he.1).numJobs
  rw [tally_done (ends_concluded hcores h he),((visits_steady hcores h he.1).queue_empty he.2).2,
    List.map_const',List.sum_replicate,loadJobs_length] at hnum
  simpa using hnum

theorem totals_are_exact (hcores : 1 ≤ o.cores) (h : Runnable rows) : (∃ m, Ends o rows m) ∧
    ∀ m, Ends o rows m →
      m.lib.numJobs = rows.length ∧
      m.lib.turnaroundTime = ((loadJobs 0 rows).map
        (fun job => completion job.jobId m.log - job.arrivalTime)).sum ∧
      m.lib.waitingTime = ((loadJobs 0 rows).map
        (fun job => completion job.jobId m.log - job.arrivalTime - job.runTime)).sum ∧
      m.lib.waitingTime = ((loadJobs 0 rows).map (fun job => ((waited m.log job).length : Int))).sum ∧
      ∀ job ∈ loadJobs 0 rows, Concluded m.log job (completion job.jobId m.log) := by
  refine ⟨simulator_ends hcores h,fun m he => ?_⟩
  have hr := visits_recorded hcores h he.1
  have hdone := ends_concluded hcores h he
  obtain ⟨-,hturn,hwait⟩ := visits_accounted hcores h he.1
  rw [tally_done hdone,((visits_steady hcores h he.1).queue_empty he.2).2] at hwait
  rw [tally_done hdone] at hturn
  have hwaiting : m.lib.waitingTime = ((loadJobs 0 rows).map
      (fun job => completion job.jobId m.log - job.arrivalTime - job.runTime)).sum := by
    rw [hwait]
    exact Int.zero_add _
  refine ⟨ends_numJobs hcores h he,hturn,hwaiting,?_,hdone⟩
  rw [hwaiting]
  congr 1
  exact List.map_congr_left (fun job hj => (waited_length hr hj (hdone job hj)).symm)

theorem totals_are_exact_preempting :
    ∃ m, Ends ⟨2,.psjf,1⟩ [⟨0,8,1⟩,⟨1,8,1⟩,⟨3,4,2⟩] m ∧ m.lib.numJobs = 3 ∧
      m.lib.waitingTime =
        ((loadJobs 0 [⟨0,8,1⟩,⟨1,8,1⟩,⟨3,4,2⟩]).map (fun job => ((waited m.log job).length : Int))).sum := by
  obtain ⟨⟨m,hm⟩,hall⟩ := totals_are_exact (o := ⟨2,.psjf,1⟩) (by decide)
    (show Runnable [⟨0,8,1⟩,⟨1,8,1⟩,⟨3,4,2⟩] by simp [Runnable])
  obtain ⟨hnum,-,-,hwait,-⟩ := hall m hm
  exact ⟨m,hm,hnum,hwait⟩

end OperatingSystemLabs.Simulator

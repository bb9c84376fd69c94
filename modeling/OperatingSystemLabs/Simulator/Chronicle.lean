import OperatingSystemLabs.Simulator.Agreement

namespace OperatingSystemLabs.Simulator

open Scheduler Keyed Transition

structure Slot where
  time : Int
  jobId : Int
  coreId : Int
  deriving DecidableEq, Repr

def Event.dispatch? : Event → Option Slot
  | .called (.newJob id t _ _) answer => if answer = -1 then none else some ⟨t,id,answer⟩
  | .called (.jobFinished core _ t) answer => if answer = -1 then none else some ⟨t,answer,core⟩
  | .called (.quantumExpired core t) answer => if answer = -1 then none else some ⟨t,answer,core⟩
  | .executed _ _ _ => none

def Event.execution? : Event → Option Slot
  | .executed t id core => some ⟨t,id,core⟩
  | .called _ _ => none

def Event.completion? : Event → Option Slot
  | .called (.jobFinished core id t) _ => some ⟨t,id,core⟩
  | _ => none

def slotsOf (f : Event → Option Slot) (id : Int) (log : List Event) : List Slot :=
  (log.filterMap f).filter (·.jobId = id)

def times (f : Event → Option Slot) (id : Int) (log : List Event) : List Int :=
  ((log.filterMap f).filter (·.jobId = id)).map (·.time)

def dispatches : Int → List Event → List Int := times Event.dispatch?

def ticks : Int → List Event → List Int := times Event.execution?

def completions : Int → List Event → List Int := times Event.completion?

structure Continues (log : List Event) (time : Int) (loaded job : SimulatorJobListT) : Prop where
  jobId : loaded.jobId = job.jobId
  arrivalTime : loaded.arrivalTime = job.arrivalTime
  runTime : loaded.runTime = job.runTime + (ticks job.jobId log).length
  uncompleted : completions job.jobId log = []
  untouched : job.arrived = false → ticks job.jobId log = []
  latest : job.runTime = 0 → (ticks job.jobId log).getLast? = some (time - 1)

structure Concluded (log : List Event) (loaded : SimulatorJobListT) (t : Int) : Prop where
  completed : completions loaded.jobId log = [t]
  runTime : loaded.runTime = (ticks loaded.jobId log).length
  latest : (ticks loaded.jobId log).getLast? = some (t - 1)

structure Recorded (rows : List Row) (m : Machine) : Prop where
  origin : ∀ job ∈ m.jobs, ∃ loaded ∈ loadJobs 0 rows, Continues m.log m.time loaded job
  census : ∀ loaded ∈ loadJobs 0 rows,
    (∃ job ∈ m.jobs, job.jobId = loaded.jobId) ∨ ∃ t, Concluded m.log loaded t
  ordered : ∀ id, (ticks id m.log).Pairwise (· < ·)
  past : ∀ id, ∀ t ∈ ticks id m.log, t < m.time
  begun : ∀ loaded ∈ loadJobs 0 rows, ∀ t ∈ ticks loaded.jobId m.log, loaded.arrivalTime ≤ t
  ticketed : ∀ id t run pri ret, (.newJob id t run pri,ret) ∈ calls m.log →
    ∃ loaded ∈ loadJobs 0 rows, loaded.jobId = id ∧ loaded.arrivalTime = t ∧ loaded.runTime = run

def Carries (job job' : SimulatorJobListT) : Prop :=
  job'.jobId = job.jobId ∧ job'.arrivalTime = job.arrivalTime ∧ job'.runTime = job.runTime ∧
    (job'.arrived = false → job.arrived = false)

variable {o : Options} {rows : List Row} {m m' : Machine} {call : Call} {ret time id : Int}
variable {log xs : List Event} {e : Event} {slot : Slot} {f : Event → Option Slot}
variable {jobs l r : List SimulatorJobListT} {loaded job : SimulatorJobListT}

theorem slotsOf_append : slotsOf f id (log ++ xs) = slotsOf f id log ++ slotsOf f id xs := by
  simp [slotsOf]

theorem slotsOf_nil_of (h : ∀ e ∈ xs, ∀ slot ∈ f e, slot.jobId ≠ id) : slotsOf f id xs = [] := by
  rw [slotsOf,List.filter_eq_nil_iff]
  intro slot hslot
  obtain ⟨e,he,hf⟩ := List.mem_filterMap.mp hslot
  simpa using h e he slot hf

theorem slotsOf_keep (h : ∀ e ∈ xs, ∀ slot ∈ f e, slot.jobId ≠ id) :
    slotsOf f id (log ++ xs) = slotsOf f id log := by
  rw [slotsOf_append,slotsOf_nil_of h,List.append_nil]

theorem slotsOf_snoc {t c : Int} (h : f e = some ⟨t,id,c⟩) :
    slotsOf f id (log ++ [e]) = slotsOf f id log ++ [⟨t,id,c⟩] := by
  rw [slotsOf_append]
  simp [slotsOf,h]

theorem times_append : times f id (log ++ xs) = times f id log ++ times f id xs := by
  simp [times]

theorem times_snoc {t c : Int} (h : f e = some ⟨t,id,c⟩) :
    times f id (log ++ [e]) = times f id log ++ [t] := by
  rw [times_append]
  simp [times,h]

theorem executed_called :
    slotsOf Event.execution? id (log ++ [.called call ret]) = slotsOf Event.execution? id log :=
  slotsOf_keep (by simp [Event.execution?])

theorem ticks_called : ticks id (log ++ [.called call ret]) = ticks id log :=
  congrArg (List.map _) executed_called

theorem completed_called (h : ∀ core t, call ≠ .jobFinished core id t) :
    slotsOf Event.completion? id (log ++ [.called call ret]) = slotsOf Event.completion? id log := by
  refine slotsOf_keep (fun e he slot hslot => ?_)
  rw [List.mem_singleton.mp he] at hslot
  cases call with
  | jobFinished core k t =>
    cases hslot
    exact fun hk => h core t (by rw [← hk])
  | newJob => cases hslot
  | quantumExpired => cases hslot

theorem completions_called (h : ∀ core t, call ≠ .jobFinished core id t) :
    completions id (log ++ [.called call ret]) = completions id log :=
  congrArg (List.map _) (completed_called h)

theorem completions_finished {core : Int} :
    completions id (log ++ [.called (.jobFinished core id time) ret]) = completions id log ++ [time] :=
  times_snoc (c := core) rfl

theorem mem_executions (h : e ∈ executions time jobs) :
    ∃ job ∈ jobs, job.coreId ≠ -1 ∧ e = .executed time job.jobId job.coreId := by
  obtain ⟨job,hj,rfl⟩ := List.mem_map.mp h
  obtain ⟨hj,hc⟩ := List.mem_filter.mp hj
  exact ⟨job,hj,of_decide_eq_true hc,rfl⟩

theorem executions_split (hc : job.coreId ≠ -1) : executions time (l ++ job :: r) =
    executions time l ++ .executed time job.jobId job.coreId :: executions time r := by
  rw [executions,List.filter_append,List.filter_cons_of_pos (by simpa using hc),List.map_append,
    List.map_cons]
  rfl

theorem slotsOf_executions (h : ∀ t id core, f (.executed t id core) = none) :
    slotsOf f id (log ++ executions time jobs) = slotsOf f id log := by
  refine slotsOf_keep (fun e he slot hslot => ?_)
  obtain ⟨job,-,-,rfl⟩ := mem_executions he
  rw [h] at hslot
  cases hslot

theorem executed_ran_idle (h : ∀ job ∈ jobs, job.jobId = id → job.coreId = -1) :
    slotsOf Event.execution? id (log ++ executions time jobs) = slotsOf Event.execution? id log := by
  refine slotsOf_keep (fun e he slot hslot => ?_)
  obtain ⟨job,hj,hc,rfl⟩ := mem_executions he
  cases hslot
  exact fun hid => hc (h job hj hid)

theorem executed_ran_running (log : List Event) (time : Int) (hd : (jobs.map (·.jobId)).Nodup)
    (hj : job ∈ jobs) (hc : job.coreId ≠ -1) :
    slotsOf Event.execution? job.jobId (log ++ executions time jobs) =
      slotsOf Event.execution? job.jobId log ++ [⟨time,job.jobId,job.coreId⟩] := by
  obtain ⟨l,r,rfl⟩ := List.append_of_mem hj
  have hne := key_ne_of_split hd
  have hothers {k : List SimulatorJobListT} (hk : ∀ j ∈ k, j ∈ l ++ r) :
      ∀ e ∈ executions time k, ∀ slot ∈ e.execution?, slot.jobId ≠ job.jobId := by
    intro e he slot hslot
    obtain ⟨j,hjk,-,rfl⟩ := mem_executions he
    cases hslot
    exact hne j (hk j hjk)
  rw [executions_split hc,List.append_cons,← List.append_assoc,← List.append_assoc]
  rw [slotsOf_keep (hothers (fun j h => List.mem_append_right _ h)),
    slotsOf_snoc (e := .executed time job.jobId job.coreId) (t := time) rfl,
    slotsOf_keep (hothers (fun j h => List.mem_append_left _ h))]

theorem times_executions (h : ∀ t id core, f (.executed t id core) = none) :
    times f id (log ++ executions time jobs) = times f id log :=
  congrArg (List.map _) (slotsOf_executions h)

theorem ticks_ran_idle (h : ∀ job ∈ jobs, job.jobId = id → job.coreId = -1) :
    ticks id (log ++ executions time jobs) = ticks id log :=
  congrArg (List.map _) (executed_ran_idle h)

theorem ticks_ran_running (log : List Event) (time : Int) (hd : (jobs.map (·.jobId)).Nodup)
    (hj : job ∈ jobs) (hc : job.coreId ≠ -1) :
    ticks job.jobId (log ++ executions time jobs) = ticks job.jobId log ++ [time] :=
  (congrArg (List.map _) (executed_ran_running log time hd hj hc)).trans List.map_append

theorem Reseats.carries {f : SimulatorJobListT → SimulatorJobListT} (hf : Reseats f)
    (job : SimulatorJobListT) : Carries job (f job) := by
  obtain ⟨c,hc⟩ := hf job
  rw [hc]
  exact ⟨rfl,rfl,rfl,id⟩

theorem Continues.carry {job' : SimulatorJobListT} (h : Continues log time loaded job)
    (hc : Carries job job') : Continues log time loaded job' := by
  obtain ⟨hid,harr,hrun,hpend⟩ := hc
  refine ⟨h.jobId.trans hid.symm,h.arrivalTime.trans harr.symm,?_,hid ▸ h.uncompleted,?_,?_⟩
  · rw [hid,hrun]
    exact h.runTime
  · rw [hid]
    exact fun ha => h.untouched (hpend ha)
  · rw [hid,hrun]
    exact h.latest

theorem Continues.called (h : Continues log time loaded job)
    (hother : ∀ core t, call ≠ .jobFinished core job.jobId t) :
    Continues (log ++ [.called call ret]) time loaded job := by
  refine ⟨h.jobId,h.arrivalTime,?_,?_,?_,?_⟩
  · rw [ticks_called]
    exact h.runTime
  · rw [completions_called hother]
    exact h.uncompleted
  · rw [ticks_called]
    exact h.untouched
  · rw [ticks_called]
    exact h.latest

theorem Concluded.called {t : Int} (h : Concluded log loaded t)
    (hother : ∀ core t, call ≠ .jobFinished core loaded.jobId t) :
    Concluded (log ++ [.called call ret]) loaded t := by
  refine ⟨?_,?_,?_⟩
  · rw [completions_called hother]
    exact h.completed
  · rw [ticks_called]
    exact h.runTime
  · rw [ticks_called]
    exact h.latest

theorem visits_induction {Q : Machine → Prop} (hcores : 1 ≤ o.cores) (h : Runnable rows)
    (hstart : Q (start o rows))
    (hmove : ∀ m m', Visits o rows m → Steady o m → Q m → Move o m m' → Q m')
    (hv : Visits o rows m) : Q m := by
  refine Reach.induction (steady_preserved hcores) (start_steady o h) hstart ?_ hv
  intro a b ha hs hq hstep
  obtain ⟨b',hb,hm,-⟩ := steady_move hs hcores
  rw [hstep] at hb
  cases hb
  exact hmove a b ha hs hq hm

theorem loaded_unique {a b : SimulatorJobListT} (ha : a ∈ loadJobs 0 rows) (hb : b ∈ loadJobs 0 rows)
    (hid : a.jobId = b.jobId) : a = b :=
  key_injective (loadJobs_distinct 0 rows) ha hb hid

theorem start_recorded (o : Options) (h : Runnable rows) : Recorded rows (start o rows) where
  origin job hj := by
    refine ⟨job,hj,rfl,rfl,by simp [ticks,times,start],rfl,fun _ => rfl,fun hrun => ?_⟩
    obtain ⟨-,-,-,row,hrow,-,hrun'⟩ := mem_loadJobs hj
    have := (h row hrow).1
    omega
  census loaded hl := .inl ⟨loaded,hl,rfl⟩
  ordered id := .nil
  past id := nofun
  begun loaded hl := nofun
  ticketed id t run pri ret := nofun

theorem Recorded.logged (hr : Recorded rows m) (hlog : m'.log = m.log ++ [.called call ret])
    (htime : m'.time = m.time)
    (hnew : ∀ id t run pri, call = .newJob id t run pri →
      ∃ loaded ∈ loadJobs 0 rows, loaded.jobId = id ∧ loaded.arrivalTime = t ∧ loaded.runTime = run)
    (horigin : ∀ job ∈ m'.jobs, ∃ loaded ∈ loadJobs 0 rows,
      Continues (m.log ++ [.called call ret]) m.time loaded job)
    (hcensus : ∀ loaded ∈ loadJobs 0 rows, (∃ job ∈ m'.jobs, job.jobId = loaded.jobId) ∨
      ∃ t, Concluded (m.log ++ [.called call ret]) loaded t) : Recorded rows m' where
  origin := by
    rw [hlog,htime]
    exact horigin
  census := by
    rw [hlog]
    exact hcensus
  ordered id := by
    rw [hlog,ticks_called]
    exact hr.ordered id
  past id := by
    rw [hlog,htime,ticks_called]
    exact hr.past id
  begun loaded hl := by
    rw [hlog,ticks_called]
    exact hr.begun loaded hl
  ticketed id t run pri answer hmem := by
    rw [hlog,calls_called] at hmem
    rcases List.mem_append.mp hmem with hmem | hmem
    · exact hr.ticketed id t run pri answer hmem
    · exact hnew id t run pri (Prod.mk.inj (List.mem_singleton.mp hmem)).1.symm

theorem Recorded.finished {r' : List SimulatorJobListT} {lib' : Lib} {clock : List Int} {alive : Int}
    (hr : Recorded rows m) (hd : (m.jobs.map (·.jobId)).Nodup) (hj : m.jobs = l ++ job :: r)
    (hrun : job.runTime = 0) (hp : r'.Perm r) {f : SimulatorJobListT → SimulatorJobListT}
    (hf : Reseats f) : Recorded rows { m with
      lib := lib', jobs := (l ++ r').map f, jobsAlive := alive, quantumClock := clock
      log := m.log ++ [.called (.jobFinished job.coreId job.jobId m.time) ret] } := by
  have hne := key_ne_of_split (hj ▸ hd)
  have hperm {k : SimulatorJobListT} : k ∈ l ++ r' ↔ k ∈ l ++ r := (hp.append_left l).mem_iff
  have hother {id : Int} (hid : id ≠ job.jobId) (core t : Int) :
      Call.jobFinished job.coreId job.jobId m.time ≠ .jobFinished core id t := by
    intro h
    exact hid ((Call.jobFinished.injEq ..).mp h).2.1.symm
  refine hr.logged rfl rfl nofun (fun k hk => ?_) (fun loaded hl => ?_)
  · obtain ⟨k',hk',rfl⟩ := List.mem_map.mp hk
    have hold := hperm.mp hk'
    obtain ⟨loaded,hl,hc⟩ := hr.origin k' (hj ▸ mem_split hold)
    exact ⟨loaded,hl,(hc.called (hother (hne k' hold))).carry (hf.carries k')⟩
  · rcases hr.census loaded hl with ⟨k,hk,hid⟩ | ⟨t,ht⟩
    · rw [hj] at hk
      rcases mem_middle.mp hk with rfl | hk
      · obtain ⟨origin,ho,hc⟩ := hr.origin k (by simp [hj])
        have hsame : origin = loaded := loaded_unique ho hl (hc.jobId.trans hid)
        subst hsame
        refine .inr ⟨m.time,?_,?_,?_⟩
        · rw [hc.jobId,completions_finished,hc.uncompleted]
          rfl
        · rw [hc.jobId,ticks_called,hc.runTime,hrun]
          omega
        · rw [hc.jobId,ticks_called]
          exact hc.latest hrun
      · refine .inl ⟨f k,List.mem_map_of_mem (hperm.mpr hk),?_⟩
        rw [hf.jobId]
        exact hid
    · by_cases hid : loaded.jobId = job.jobId
      · obtain ⟨origin,-,hc⟩ := hr.origin job (by simp [hj])
        have hnone := hc.uncompleted
        rw [← hid,ht.completed] at hnone
        cases hnone
      · exact .inr ⟨t,ht.called (hother hid)⟩

theorem Recorded.called {jobs' : List SimulatorJobListT} {lib' : Lib} {clock : List Int} {alive : Int}
    {pc : Phase} (hr : Recorded rows m) (hcall : ∀ core id t, call ≠ .jobFinished core id t)
    (hback : ∀ k' ∈ jobs', ∃ k ∈ m.jobs, Carries k k')
    (hforth : ∀ k ∈ m.jobs, ∃ k' ∈ jobs', k'.jobId = k.jobId)
    (hnew : ∀ id t run pri, call = .newJob id t run pri →
      ∃ loaded ∈ loadJobs 0 rows, loaded.jobId = id ∧ loaded.arrivalTime = t ∧ loaded.runTime = run) :
    Recorded rows { m with
      lib := lib', jobs := jobs', jobsAlive := alive, quantumClock := clock, pc := pc
      log := m.log ++ [.called call ret] } := by
  refine hr.logged rfl rfl hnew (fun k' hk' => ?_) (fun loaded hl => ?_)
  · obtain ⟨k,hk,hcarry⟩ := hback k' hk'
    obtain ⟨loaded,hl,hc⟩ := hr.origin k hk
    exact ⟨loaded,hl,(hc.called (hcall · k.jobId ·)).carry hcarry⟩
  · rcases hr.census loaded hl with ⟨k,hk,hid⟩ | ⟨t,ht⟩
    · obtain ⟨k',hk',hid'⟩ := hforth k hk
      exact .inl ⟨k',hk',hid'.trans hid⟩
    · exact .inr ⟨t,ht.called (hcall · loaded.jobId ·)⟩

theorem ticks_ran (log : List Event) (time : Int) (hd : (jobs.map (·.jobId)).Nodup) (id : Int) :
    ticks id (log ++ executions time jobs) = ticks id log ∨
      (∃ job ∈ jobs, job.jobId = id ∧ job.coreId ≠ -1) ∧
        ticks id (log ++ executions time jobs) = ticks id log ++ [time] := by
  by_cases h : ∃ job ∈ jobs, job.jobId = id ∧ job.coreId ≠ -1
  · obtain ⟨job,hj,rfl,hc⟩ := h
    exact .inr ⟨⟨job,hj,rfl,hc⟩,ticks_ran_running log time hd hj hc⟩
  · refine .inl (ticks_ran_idle (fun job hj hid => ?_))
    by_contra hc
    exact h ⟨job,hj,hid,hc⟩

theorem mem_ticks_ran (log : List Event) (time : Int) (hd : (jobs.map (·.jobId)).Nodup) {t : Int} :
    t ∈ ticks id (log ++ executions time jobs) ↔
      t ∈ ticks id log ∨ t = time ∧ ∃ job ∈ jobs, job.jobId = id ∧ job.coreId ≠ -1 := by
  by_cases hrun : ∃ job ∈ jobs, job.jobId = id ∧ job.coreId ≠ -1
  · obtain ⟨job,hj,rfl,hc⟩ := hrun
    rw [ticks_ran_running log time hd hj hc,List.mem_append,List.mem_singleton,
      and_iff_left ⟨job,hj,rfl,hc⟩]
  · have hidle : ∀ job ∈ jobs, job.jobId = id → job.coreId = -1 := by
      intro job hj hid
      by_contra hc
      exact hrun ⟨job,hj,hid,hc⟩
    rw [ticks_ran_idle hidle,or_iff_left (fun h => hrun h.2)]

theorem work_carries (job : SimulatorJobListT) : (work job).jobId = job.jobId ∧
    (work job).arrivalTime = job.arrivalTime ∧ (work job).arrived = job.arrived ∧
    (work job).coreId = job.coreId := by
  unfold work
  split <;> exact ⟨rfl,rfl,rfl,rfl⟩

theorem Continues.ran (h : Continues m.log m.time loaded job) (ht : Tracked o m)
    (hu : Unfinished m.jobs) (hj : job ∈ m.jobs) :
    Continues (m.log ++ executions m.time m.jobs) (m.time + 1) loaded (work job) := by
  have hnever : completions job.jobId (m.log ++ executions m.time m.jobs) = [] :=
    (times_executions (fun _ _ _ => rfl)).trans h.uncompleted
  by_cases hc : job.coreId = -1
  · have hwork : work job = job := if_neg (not_not.mpr hc)
    have hticks : ticks job.jobId (m.log ++ executions m.time m.jobs) = ticks job.jobId m.log := by
      refine ticks_ran_idle (fun k hk hid => ?_)
      rw [key_injective ht.distinct hk hj hid]
      exact hc
    rw [hwork]
    exact ⟨h.jobId,h.arrivalTime,hticks ▸ h.runTime,hnever,hticks ▸ h.untouched,
      fun h0 => absurd h0 (hu job hj)⟩
  · have hwork : work job = { job with runTime := job.runTime - 1 } := if_pos hc
    have hticks := ticks_ran_running m.log m.time ht.distinct hj hc
    have ha := ht.arrived_of_seated hj hc
    rw [hwork]
    refine ⟨h.jobId,h.arrivalTime,?_,hnever,fun h0 => ?_,fun _ => ?_⟩
    · have hrun := h.runTime
      simp only [hticks,List.length_append,List.length_singleton]
      omega
    · exact absurd (ha.symm.trans h0) (by decide)
    · simp only [hticks,List.getLast?_concat]
      congr 1
      omega

theorem Recorded.ran {clock : List Int} {diagram : List (List Char)} {pc : Phase}
    (hr : Recorded rows m) (ht : Tracked o m) (hu : Unfinished m.jobs)
    (ha : Admitted (· ≤ m.time) m.jobs) : Recorded rows { m with
      jobs := m.jobs.map work, quantumClock := clock, coreTimingDiagram := diagram
      time := m.time + 1, pc := pc, log := m.log ++ executions m.time m.jobs } := by
  refine ⟨fun k hk => ?_,fun loaded hl => ?_,fun id => ?_,fun id t hid => ?_,fun loaded hl t hid => ?_,?_⟩
  · obtain ⟨k',hk',rfl⟩ := List.mem_map.mp hk
    obtain ⟨loaded,hl,hc⟩ := hr.origin k' hk'
    exact ⟨loaded,hl,hc.ran ht hu hk'⟩
  · rcases hr.census loaded hl with ⟨k,hk,hid⟩ | ⟨t,hc⟩
    · exact .inl ⟨work k,List.mem_map_of_mem hk,(work_carries k).1.trans hid⟩
    · have hticks : ticks loaded.jobId (m.log ++ executions m.time m.jobs) =
          ticks loaded.jobId m.log := by
        refine ticks_ran_idle (fun k hk hid => ?_)
        obtain ⟨origin,-,hcont⟩ := hr.origin k hk
        have hnone := hcont.uncompleted
        rw [hid,hc.completed] at hnone
        cases hnone
      exact .inr ⟨t,(times_executions (fun _ _ _ => rfl)).trans hc.completed,hticks ▸ hc.runTime,
        hticks ▸ hc.latest⟩
  · rcases ticks_ran m.log m.time ht.distinct id with h | ⟨-,h⟩
    · rw [h]
      exact hr.ordered id
    · rw [h]
      refine List.pairwise_append.mpr ⟨hr.ordered id,List.pairwise_singleton _ _,fun a ha b hb => ?_⟩
      rw [List.mem_singleton.mp hb]
      exact hr.past id a ha
  · rcases (mem_ticks_ran _ _ ht.distinct).mp hid with hold | ⟨rfl,-⟩
    · exact (hr.past id t hold).trans (Int.lt_succ m.time)
    · exact Int.lt_succ m.time
  · rcases (mem_ticks_ran _ _ ht.distinct).mp hid with hold | ⟨rfl,k,hk,hkid,hkc⟩
    · exact hr.begun loaded hl t hold
    · obtain ⟨origin,ho,hc⟩ := hr.origin k hk
      have hsame : origin = loaded := loaded_unique ho hl (hc.jobId.trans hkid)
      rw [← hsame,hc.arrivalTime]
      exact (ha k hk).mp (ht.arrived_of_seated hk hkc)
  · rw [calls_executions]
    exact hr.ticketed

theorem Recorded.atPhase (hr : Recorded rows m) (pc : Phase) : Recorded rows { m with pc := pc } :=
  ⟨hr.origin,hr.census,hr.ordered,hr.past,hr.begun,hr.ticketed⟩

theorem move_recorded (hs : Steady o m) (hr : Recorded rows m) (hm : Move o m m') : Recorded rows m' := by
  obtain ⟨ht,hp⟩ := hs
  cases hm with
  | unfinished => exact hr.atPhase _
  | @finished l r r' job lib' ret _ hj hrun hperm =>
    exact hr.finished ht.distinct hj hrun hperm (reseats_seat ret job.coreId)
  | allFinished => exact hr.atPhase _
  | toQuantums => exact hr.atPhase _
  | unexpired => exact hr.atPhase _
  | @expired i job lib' ret =>
    have hf := reseats_comp (reseats_leave i) (reseats_seat ret i)
    rw [List.map_map]
    refine hr.called nofun (fun k' hk' => ?_) (fun k hk => ⟨_,List.mem_map_of_mem hk,hf.jobId k⟩) nofun
    obtain ⟨k,hk,rfl⟩ := List.mem_map.mp hk'
    exact ⟨k,hk,hf.carries k⟩
  | toArrivals => exact hr.atPhase _
  | elsewhen => exact hr.atPhase _
  | @arrived l r job lib' ret _ hj htime ha hs =>
    have hf := reseats_leave ret
    have hmem : job ∈ m.jobs := by simp [hj]
    refine hr.called nofun (fun k' hk' => ?_) (fun k hk => ?_) (fun id t run pri hcall => ?_)
    · rcases mem_middle_map.mp hk' with rfl | ⟨k,hk,rfl⟩
      · exact ⟨job,hmem,rfl,rfl,rfl,nofun⟩
      · exact ⟨k,hj ▸ mem_split hk,hf.carries k⟩
    · rw [hj] at hk
      rcases mem_middle.mp hk with rfl | hk
      · exact ⟨_,mem_middle_map.mpr (.inl rfl),rfl⟩
      · exact ⟨leave ret k,mem_middle_map.mpr (.inr ⟨k,hk,rfl⟩),hf.jobId k⟩
    · obtain ⟨rfl,rfl,rfl,rfl⟩ := (Call.newJob.injEq ..).mp hcall
      obtain ⟨loaded,hl,hc⟩ := hr.origin job hmem
      refine ⟨loaded,hl,hc.jobId,hc.arrivalTime.trans htime,?_⟩
      have hrun := hc.runTime
      rw [hc.untouched ha] at hrun
      simpa using hrun
  | toUnit => exact hr.atPhase _
  | ran diagram hpc hw =>
    rw [Phased,hpc] at hp
    exact hr.ran ht hp.2.1 hp.1
  | stopped => exact hr

theorem visits_recorded (hcores : 1 ≤ o.cores) (h : Runnable rows) (hv : Visits o rows m) :
    Recorded rows m :=
  visits_induction hcores h (start_recorded o h) (fun _ _ _ hs hr hm => move_recorded hs hr hm) hv

theorem Recorded.record (hr : Recorded rows m) (ht : Tracked o m) {k : JobT} (hk : k ∈ m.lib.jobs) :
    ∃ loaded ∈ loadJobs 0 rows, loaded.jobId = k.jobId ∧ loaded.arrivalTime = k.arrivalTime ∧
      loaded.runTime = k.runTime := by
  obtain ⟨ret,hret⟩ := ht.run.governed.ticketed k hk
  exact hr.ticketed _ _ _ _ _ hret

end OperatingSystemLabs.Simulator

import OperatingSystemLabs.Simulator.Tickets

namespace OperatingSystemLabs.Simulator

open Scheduler Keyed Transition

structure Abreast (m m' : Machine) : Prop where
  jobs : m'.jobs = m.jobs
  time : m'.time = m.time
  log : m'.log = m.log
  line : line m'.lib.jobs = line m.lib.jobs

def arrivedJobs (cores : Nat) (ret : Int) (i : Nat) (job : SimulatorJobListT)
    (jobs : List SimulatorJobListT) : List SimulatorJobListT :=
  if 0 ≤ ret ∧ ret < cores then
    ((jobs.set i { job with arrived := true }).map (leave ret)).set i
      { job with arrived := true, coreId := ret }
  else jobs.set i { job with arrived := true }

variable {o o' : Options} {rows : List Row} {m m' a a' : Machine} {i : Nat} {job : SimulatorJobListT}

theorem checkFinished_cases (h : checkFinished o m i = .ok a) :
    (m.jobs[i]? = none ∧ a = { m with pc := if m.jobs = [] then .done else .checkQuantums 0 }) ∨
    ∃ job, m.jobs[i]? = some job ∧
      ((job.runTime ≠ 0 ∧ a = { m with pc := .checkFinished (i + 1) }) ∨
      (job.runTime = 0 ∧ ∃ lib' ret clock jobs',
        Call.perform (.jobFinished job.coreId job.jobId m.time) m.lib = .ok (lib',ret) ∧
        setNewJob .finishedInvalidJob ret job.coreId (deleteJob m.jobs i) = .ok jobs' ∧
        a = { m with
          lib := lib', jobs := jobs', jobsAlive := m.jobsAlive - 1, quantumClock := clock
          log := m.log ++ [.called (.jobFinished job.coreId job.jobId m.time) ret] })) := by
  rw [checkFinished] at h
  cases hj : m.jobs[i]? with
  | none =>
    rw [hj] at h
    cases h
    exact .inl ⟨rfl,rfl⟩
  | some job =>
    rw [hj] at h
    refine .inr ⟨job,rfl,?_⟩
    by_cases hrun : job.runTime = 0
    · simp only [if_pos hrun] at h
      obtain ⟨⟨lib',ret⟩,hperform,h⟩ := ok_of_bind h
      obtain ⟨clock,-,h⟩ := ok_of_bind h
      obtain ⟨jobs',hjobs,h⟩ := ok_of_bind h
      cases h
      exact .inr ⟨hrun,lib',ret,clock,jobs',hperform,hjobs,rfl⟩
    · simp only [if_neg hrun] at h
      cases h
      exact .inl ⟨hrun,rfl⟩

theorem checkArrivals_cases (h : checkArrivals o m i = .ok a) :
    (m.jobs[i]? = none ∧ a = { m with pc := .runTimeUnit }) ∨
    ∃ job, m.jobs[i]? = some job ∧
      ((job.arrivalTime ≠ m.time ∧ a = { m with pc := .checkArrivals (i + 1) }) ∨
      (job.arrivalTime = m.time ∧ ∃ lib' ret clock,
        Call.perform (.newJob job.jobId m.time job.runTime job.priority) m.lib = .ok (lib',ret) ∧
        a = { m with
          lib := lib', jobs := arrivedJobs o.cores ret i job m.jobs, jobsAlive := m.jobsAlive + 1
          quantumClock := clock, pc := .checkArrivals (i + 1)
          log := m.log ++ [.called (.newJob job.jobId m.time job.runTime job.priority) ret] })) := by
  rw [checkArrivals] at h
  cases hj : m.jobs[i]? with
  | none =>
    rw [hj] at h
    cases h
    exact .inl ⟨rfl,rfl⟩
  | some job =>
    rw [hj] at h
    refine .inr ⟨job,rfl,?_⟩
    by_cases htime : job.arrivalTime = m.time
    · simp only [if_pos htime] at h
      obtain ⟨⟨lib',ret⟩,hperform,h⟩ := ok_of_bind h
      by_cases hret : 0 ≤ ret ∧ ret < o.cores
      · simp only [if_pos hret] at h
        obtain ⟨clock,-,h⟩ := ok_of_bind h
        cases h
        exact .inr ⟨htime,lib',ret,clock,hperform,by rw [arrivedJobs,if_pos hret]⟩
      · simp only [if_neg hret] at h
        split at h
        · cases h
          exact .inr ⟨htime,lib',_,m.quantumClock,hperform,by rw [arrivedJobs,if_neg hret]⟩
        · cases h
    · simp only [if_neg htime] at h
      cases h
      exact .inl ⟨htime,rfl⟩

theorem Tracked.performed {call : Call} {lib' : Lib} {ret : Int} (ht : Tracked o m)
    (hl : Legal o.scheme o.cores (calls m.log) m.lib.jobs call) (hrun : call.perform m.lib = .ok (lib',ret)) :
    Step o.scheme o.cores call m.lib.board ret lib'.board := by
  obtain ⟨s',ret',hrun',hstep,-⟩ := ht.run.governed.step hl
  rw [hrun] at hrun'
  cases hrun'
  exact hstep

section SideBySide

variable (hs : Steady o m) (hs' : Steady o' m') (hab : Abreast m m')

include hs hs' hab

theorem finish_abreast (hpc : m'.pc = m.pc) (hi : m.pc = .checkFinished i) (h : checkFinished o m i = .ok a)
    (h' : checkFinished o' m' i = .ok a') : Abreast a a' ∧ a'.pc = a.pc := by
  obtain ⟨hjobs,htime,hlog,hline⟩ := hab
  have hp := hs.2
  rw [Phased,hi] at hp
  rcases checkFinished_cases h with ⟨hnone,rfl⟩ | ⟨job,hj,hrest⟩
  · rcases checkFinished_cases h' with ⟨-,rfl⟩ | ⟨job',hj',-⟩
    · exact ⟨⟨hjobs,htime,hlog,hline⟩,by simp only [hjobs]⟩
    · rw [hjobs,hnone] at hj'
      cases hj'
  · rcases checkFinished_cases h' with ⟨hnone',-⟩ | ⟨job',hj',hrest'⟩
    · rw [hjobs,hj] at hnone'
      cases hnone'
    · rw [hjobs,hj] at hj'
      cases hj'
      rcases hrest with ⟨hrun,rfl⟩ | ⟨hrun,lib1,ret,clock,jobs1,hperform,hset,rfl⟩
      · rcases hrest' with ⟨-,rfl⟩ | ⟨hrun',-⟩
        · exact ⟨⟨hjobs,htime,hlog,hline⟩,rfl⟩
        · exact absurd hrun' hrun
      · rcases hrest' with ⟨hrun',-⟩ | ⟨-,lib1',ret',clock',jobs1',hperform',hset',rfl⟩
        · exact absurd hrun hrun'
        · have hmem := List.mem_of_getElem? hj
          have hcore := hp.2.2 job hmem hrun
          have hstep := hs.1.performed (hs.1.finish_legal hmem hcore) hperform
          have hstep' := hs'.1.performed (hs'.1.finish_legal (hjobs ▸ hmem) hcore) hperform'
          have hone := step_completion hstep hs.1.run.governed.sound
          have hone' := step_completion hstep' hs'.1.run.governed.sound
          have hsame : (line lib1'.jobs,ret') = (line lib1.jobs,ret) :=
            hone'.trans ((congrArg _ hline).trans hone.symm)
          obtain ⟨hline1,rfl⟩ := Prod.mk.inj hsame
          rw [hjobs,hset] at hset'
          cases hset'
          exact ⟨⟨rfl,htime,by simp only [hlog,htime],hline1⟩,hpc⟩

theorem arrive_abreast (hcores : o'.cores = o.cores) (hi : m.pc = .checkArrivals i) (hord : Orderly o m)
    (hord' : Orderly o' m') (h : checkArrivals o m i = .ok a) (h' : checkArrivals o' m' i = .ok a') :
    Abreast a a' ∧ a'.pc = a.pc := by
  obtain ⟨hjobs,htime,hlog,hline⟩ := hab
  rcases checkArrivals_cases h with ⟨hnone,rfl⟩ | ⟨job,hj,hrest⟩
  · rcases checkArrivals_cases h' with ⟨-,rfl⟩ | ⟨job',hj',-⟩
    · exact ⟨⟨hjobs,htime,hlog,hline⟩,rfl⟩
    · rw [hjobs,hnone] at hj'
      cases hj'
  · rcases checkArrivals_cases h' with ⟨hnone',-⟩ | ⟨job',hj',hrest'⟩
    · rw [hjobs,hj] at hnone'
      cases hnone'
    · rw [hjobs,hj] at hj'
      cases hj'
      rcases hrest with ⟨hlate,rfl⟩ | ⟨hnow,lib1,ret,clock,hperform,rfl⟩
      · rcases hrest' with ⟨-,rfl⟩ | ⟨hnow',-⟩
        · exact ⟨⟨hjobs,htime,hlog,hline⟩,rfl⟩
        · exact absurd (hnow'.trans htime) hlate
      · rcases hrest' with ⟨hlate',-⟩ | ⟨-,lib1',ret',clock',hperform',rfl⟩
        · exact absurd (hnow.trans htime.symm) hlate'
        · have hmem := List.mem_of_getElem? hj
          have hpending := (phased_iff.mp hs.2).still_pending dates_iff hi hj hnow
          have hstep := hs.1.performed (hs.1.arrive_legal hmem hpending) hperform
          have hstep' := hs'.1.performed (hs'.1.arrive_legal (hjobs ▸ hmem) hpending) hperform'
          have hone := step_arrival hstep (hord job hmem hpending hnow)
          have hone' := step_arrival hstep' (hord' job (hjobs ▸ hmem) hpending (hnow.trans htime.symm))
          have hsame : (line lib1'.jobs,ret') = (line lib1.jobs,ret) := by
            refine hone'.trans (Eq.trans ?_ hone.symm)
            rw [hcores]
            exact congrArg _ hline
          obtain ⟨hline1,rfl⟩ := Prod.mk.inj hsame
          exact ⟨⟨by simp only [hjobs,hcores],htime,by simp only [hlog,htime],hline1⟩,rfl⟩

theorem unit_abreast (hcores : o'.cores = o.cores) (hone : 1 ≤ o.cores) (h : runTimeUnit o m = .ok a)
    (h' : runTimeUnit o' m' = .ok a') : Abreast a a' ∧ a'.pc = a.pc := by
  obtain ⟨hjobs,htime,hlog,hline⟩ := hab
  obtain ⟨clock,texts,-,-,hran⟩ := unit_ran hs.1.toFollowed hone
  obtain ⟨clock',texts',-,-,hran'⟩ := unit_ran hs'.1.toFollowed (hcores.symm ▸ hone)
  rw [hran] at h
  rw [hran'] at h'
  cases h
  cases h'
  exact ⟨⟨by simp only [hjobs],by simp only [htime],by simp only [hlog,htime,hjobs],hline⟩,rfl⟩

end SideBySide

theorem step_abreast (hs : Steady o m) (hs' : Steady o' m') (hab : Abreast m m') (hcores : o'.cores = o.cores)
    (hone : 1 ≤ o.cores) (hpc : m'.pc = m.pc) (hord : Orderly o m) (hord' : Orderly o' m')
    (hquantums : ∀ i, m.pc ≠ .checkQuantums i) (h : step o m = .ok a) (h' : step o' m' = .ok a') :
    Abreast a a' ∧ a'.pc = a.pc := by
  rw [step] at h h'
  rw [hpc] at h'
  cases hi : m.pc with
  | checkFinished i =>
    rw [hi] at h h'
    exact finish_abreast hs hs' hab hpc hi h h'
  | checkQuantums i => exact absurd hi (hquantums i)
  | checkArrivals i =>
    rw [hi] at h h'
    exact arrive_abreast hs hs' hab hcores hi hord hord' h h'
  | runTimeUnit =>
    rw [hi] at h h'
    exact unit_abreast hs hs' hab hcores hone h h'
  | done =>
    rw [hi] at h h'
    cases h
    cases h'
    exact ⟨hab,hpc⟩

theorem quantums_skipped (hrr : o.scheme ≠ .rr) : checkQuantums o m i = .ok { m with pc := .checkArrivals 0 } :=
  if_neg (fun h => hrr h.1)

theorem lockstep_abreast (hrr : o.scheme ≠ .rr) (hrr' : o'.scheme ≠ .rr) (hs : Steady o m) (hs' : Steady o' m')
    (hab : Abreast m m') (hcores : o'.cores = o.cores) (hone : 1 ≤ o.cores) (hpc : m'.pc = m.pc)
    (hord : Orderly o m) (hord' : Orderly o' m') (h : step o m = .ok a) (h' : step o' m' = .ok a') :
    Abreast a a' ∧ a'.pc = a.pc := by
  by_cases hquantums : ∃ i, m.pc = .checkQuantums i
  · obtain ⟨i,hi⟩ := hquantums
    rw [step,hi] at h
    rw [step,hpc,hi] at h'
    cases h.symm.trans (quantums_skipped hrr)
    cases h'.symm.trans (quantums_skipped hrr')
    exact ⟨⟨hab.jobs,hab.time,hab.log,hab.line⟩,rfl⟩
  · exact step_abreast hs hs' hab hcores hone hpc hord hord' (fun i hi => hquantums ⟨i,hi⟩) h h'

theorem move_keeps (hs : Steady o m) (hrr : o.scheme ≠ .rr) (hord : Orderly o m) (hm : Move o m a) :
    ∀ j ∈ m.lib.jobs, ¬ Displaced a.lib.jobs j := by
  have hg := hs.1.run.governed
  have hsame : ∀ j ∈ m.lib.jobs, ¬ Displaced m.lib.jobs j := by
    rintro j hj ⟨-,j',hj',hid,hne⟩
    exact hne (congrArg _ (hg.sound.job_injective hj' hj hid))
  cases hm with
  | finished _ _ _ _ _ hserved =>
    exact fun j hj => completion_keeps hserved.stepped hg.sound (hg.admissible hserved.legal) hj
  | expired _ hscheme => exact absurd hscheme hrr
  | @arrived l r job lib' ret _ hj hnow ha hserved =>
    have hlast := hord job (by simp [hj]) ha hnow
    exact fun j hj => arrival_keeps hserved.stepped hg.sound (hg.admissible hserved.legal) hlast hj
  | _ => exact hsame

def Collapses (cores : Nat) (rows : List Row) (scheme : SchemeT) : Prop :=
  ∀ (quantum quantum' : Int) (n : Nat), ∃ m m' a',
    iterate (step ⟨cores,.fcfs,quantum⟩) n (start ⟨cores,.fcfs,quantum⟩ rows) = .ok m ∧
    iterate (step ⟨cores,scheme,quantum'⟩) n (start ⟨cores,scheme,quantum'⟩ rows) = .ok m' ∧
    m'.jobs = m.jobs ∧ m'.log = m.log ∧
    m'.lib.jobs.map (·.jobId) = m.lib.jobs.map (·.jobId) ∧
    step ⟨cores,scheme,quantum'⟩ m' = .ok a' ∧ ∀ j ∈ m'.lib.jobs, ¬ Displaced a'.lib.jobs j

theorem visits_orderly (hone : 1 ≤ o.cores) (h : Runnable rows) (hd : DistinctTimes rows)
    (hsized : IntSized rows) (hkey : ConstantKey rows o.scheme) (hv : Visits o rows m) : Orderly o m :=
  constant_orderly hkey h hd hsized (visits_steady hone h hv).1 (visits_recorded hone h hv)
    (visits_stamped hone h hv)

theorem constant_key_collapses {cores : Nat} {scheme : SchemeT} (hone : 1 ≤ cores) (h : Runnable rows)
    (hd : DistinctTimes rows) (hsized : IntSized rows) (hrr : scheme ≠ .rr) (hkey : ConstantKey rows scheme) :
    Collapses cores rows scheme := by
  intro quantum quantum' n
  let o : Options := ⟨cores,.fcfs,quantum⟩
  let o' : Options := ⟨cores,scheme,quantum'⟩
  have hfcfs {m : Machine} (hv : Visits o rows m) : Orderly o m := visits_orderly hone h hd hsized trivial hv
  have hother {m : Machine} (hv : Visits o' rows m) : Orderly o' m := visits_orderly hone h hd hsized hkey hv
  have hstep : ∀ m m', (Visits o rows m ∧ Visits o' rows m' ∧ Abreast m m' ∧ m'.pc = m.pc) →
      ∃ a a', step o m = .ok a ∧ step o' m' = .ok a' ∧
        (Visits o rows a ∧ Visits o' rows a' ∧ Abreast a a' ∧ a'.pc = a.pc) := by
    rintro m m' ⟨hv,hv',hab,hpc⟩
    have hs := visits_steady hone h hv
    have hs' := visits_steady hone h hv'
    obtain ⟨a,ha,-,-⟩ := steady_move hs hone
    obtain ⟨a',ha',-,-⟩ := steady_move hs' hone
    exact ⟨a,a',ha,ha',hv.tail ha,hv'.tail ha',lockstep_abreast (show SchemeT.fcfs ≠ .rr by decide) hrr
      hs hs' hab rfl hone hpc (hfcfs hv) (hother hv') ha ha'⟩
  obtain ⟨m,m',hm,hm',-,hv',hab,-⟩ := iterate_lockstep
    (R := fun m m' => Visits o rows m ∧ Visits o' rows m' ∧ Abreast m m' ∧ m'.pc = m.pc) hstep
    ⟨Reach.refl _ (start o rows),Reach.refl _ (start o' rows),⟨rfl,rfl,rfl,rfl⟩,rfl⟩ n
  obtain ⟨a',ha',hmove,-⟩ := steady_move (visits_steady hone h hv') hone
  have hids : m'.lib.jobs.map (·.jobId) = m.lib.jobs.map (·.jobId) := by
    have hfirst := congrArg (List.map Prod.fst) hab.line
    simpa [line,Function.comp_def] using hfirst
  exact ⟨m,m',a',hm,hm',hab.jobs,hab.log,hids,ha',
    move_keeps (visits_steady hone h hv') hrr (hother hv') hmove⟩

theorem constant_keys_collapse {cores : Nat} (hone : 1 ≤ cores) (h : Runnable rows) (hd : DistinctTimes rows)
    (hsized : IntSized rows) :
    ((∀ a ∈ rows, ∀ b ∈ rows, a.priority = b.priority) →
      Collapses cores rows .pri ∧ Collapses cores rows .ppri) ∧
    ((∀ a ∈ rows, ∀ b ∈ rows, a.runTime = b.runTime) →
      Collapses cores rows .sjf ∧ Collapses cores rows .psjf) :=
  ⟨fun hpri => ⟨constant_key_collapses hone h hd hsized nofun hpri,
      constant_key_collapses hone h hd hsized nofun hpri⟩,
    fun hrun => ⟨constant_key_collapses hone h hd hsized nofun hrun,
      constant_key_collapses hone h hd hsized nofun hrun⟩⟩

theorem constant_keys_collapse_full :
    Collapses 1 [⟨0,5,2⟩,⟨1,5,2⟩,⟨3,5,2⟩] .ppri ∧ Collapses 1 [⟨0,5,2⟩,⟨1,5,2⟩,⟨3,5,2⟩] .psjf := by
  obtain ⟨hpri,hrun⟩ := constant_keys_collapse (le_refl 1)
    (show Runnable [⟨0,5,2⟩,⟨1,5,2⟩,⟨3,5,2⟩] by simp [Runnable]) (by simp [DistinctTimes]) (by simp [IntSized])
  exact ⟨(hpri (by simp)).2,(hrun (by simp)).2⟩

end OperatingSystemLabs.Simulator

import OperatingSystemLabs.Scheduler.Eviction
import OperatingSystemLabs.Simulator.Response

namespace OperatingSystemLabs.Simulator

open Scheduler Keyed Transition

def Undercut (o : Options) (m : Machine) : Prop :=
  ∃ i job v, m.pc = .checkArrivals i ∧ m.jobs[i]? = some job ∧ job.arrivalTime = m.time ∧
    Evicts o.scheme o.cores m.lib.jobs m.time
      (JobT.new job.jobId m.time job.runTime job.priority) v ∧
    remaining m.time v = v.runTime

structure Prompt (m : Machine) : Prop where
  waiting : ∀ job ∈ m.jobs, dispatches job.jobId m.log ≠ [] → ticks job.jobId m.log = [] →
    job.coreId ≠ -1 ∧ (dispatches job.jobId m.log).head? = some m.time
  exact : ∀ id, ∀ e ∈ (ticks id m.log).head?, e ∈ (dispatches id m.log).head?

def Late : Phase → Prop
  | .checkArrivals _ => True
  | .runTimeUnit => True
  | _ => False

def firstTick (id : Int) (log : List Event) : Int := (ticks id log).headD 0

def trueResponse (rows : List Row) (log : List Event) : Int :=
  ((loadJobs 0 rows).map (fun job => firstTick job.jobId log - job.arrivalTime)).sum

def ResponseExact (rows : List Row) (m : Machine) : Prop :=
  m.lib.responseTime = trueResponse rows m.log ∧
    schedulerAverageResponseTime m.lib = (trueResponse rows m.log : Rat) / (rows.length : Int)

def Spoiled (id : Int) (m : Machine) : Prop :=
  ∃ d ∈ (dispatches id m.log).head?,
    (ticks id m.log = [] ∧
      (d < m.time ∨ Late m.pc ∧ ∀ job ∈ m.jobs, job.jobId = id → job.coreId = -1)) ∨
    ∃ e ∈ (ticks id m.log).head?, d < e

variable {o : Options} {rows : List Row} {m m' : Machine} {call : Call} {ret id : Int} {lib' : Lib}
variable {jobs' l r : List SimulatorJobListT} {job k : SimulatorJobListT} {v : JobT}

theorem unexecuted_iff (ht : Tracked o m) (hr : Recorded rows m) (hk : k ∈ m.jobs)
    (hv : v ∈ m.lib.jobs) (hid : k.jobId = v.jobId) (ha : k.arrived = true) :
    remaining m.time v = v.runTime ↔ ticks k.jobId m.log = [] := by
  obtain ⟨v',hv',hvid,-,hleft⟩ := ht.record hk ha
  have hsame : v' = v := ht.run.governed.sound.job_injective hv' hv (hvid.trans hid)
  subst hsame
  obtain ⟨loaded,hl,hlid,-,hlrun⟩ := hr.record ht hv
  obtain ⟨origin,ho,hc⟩ := hr.origin k hk
  have horigin : origin = loaded := loaded_unique ho hl ((hc.jobId.trans hid).trans hlid.symm)
  have hrun := hc.runTime
  rw [horigin,hlrun] at hrun
  rw [hleft,← List.length_eq_zero_iff]
  omega

theorem undercut_of_evicted {i : Nat} (ht : Tracked o m) (hr : Recorded rows m)
    (hpc : m.pc = .checkArrivals i) (hget : m.jobs[i]? = some job) (htime : job.arrivalTime = m.time)
    (hs : Served o m (.newJob job.jobId m.time job.runTime job.priority) lib' ret)
    (hk : k ∈ m.jobs) (hcore : k.coreId = ret) (hrun : k.coreId ≠ -1) (hticks : ticks k.jobId m.log = []) :
    Undercut o m := by
  have ha := ht.arrived_of_seated hk hrun
  obtain ⟨v,hv,hvid,hvc,-⟩ := ht.record hk ha
  have hvr : Running v := by
    rw [Running,hvc]
    exact hrun
  refine ⟨i,job,v,hpc,hget,htime,?_,(unexecuted_iff ht hr hk hv hvid.symm ha).mpr hticks⟩
  exact evicts_of_core hs.stepped ht.run.governed.sound hv hvr (hvc.trans hcore)

theorem Prompt.called {clock : List Int} {alive : Int} {pc : Phase} (h : Prompt m)
    (hs : Served o m call lib' ret) (ht : Tracked o m)
    (hshift : ∀ k' ∈ jobs', ∃ k ∈ m.jobs, Shifted call ret k k')
    (hkept : ∀ k ∈ m.jobs, k.coreId ≠ -1 → ticks k.jobId m.log = [] →
      ∀ k' ∈ jobs', k'.jobId = k.jobId → k'.coreId ≠ -1) :
    Prompt { m with
      lib := lib', jobs := jobs', jobsAlive := alive, quantumClock := clock, pc := pc
      log := m.log ++ [.called call ret] } := by
  refine ⟨fun k' hk' hne hticks => ?_,fun id e he => ?_⟩
  · obtain ⟨k,hk,hid,-,hcase⟩ := hshift k' hk'
    simp only [hid] at hne hticks ⊢
    rw [ticks_called] at hticks
    rcases dispatches_called m.log call ret (ht.real hk) with ⟨hd,hlog⟩ | ⟨hnd,hlog⟩
    · refine ⟨(hcase.resolve_right (fun h => h.1 hd)).2.1,?_⟩
      rw [hlog]
      cases hdisp : dispatches k.jobId m.log with
      | nil => exact congrArg some hs.now
      | cons d ds =>
        have hold := (h.waiting k hk (by simp [hdisp]) hticks).2
        rw [hdisp] at hold
        exact hold
    · rw [hlog] at hne ⊢
      obtain ⟨hc,hhead⟩ := h.waiting k hk hne hticks
      exact ⟨hkept k hk hc hticks k' hk' hid,hhead⟩
  · rw [ticks_called] at he
    exact dispatches_head (h.exact id e he)

theorem Prompt.ran {clock : List Int} {diagram : List (List Char)} {pc : Phase} (h : Prompt m)
    (ht : Tracked o m) (hr : Responsive rows m) : Prompt { m with
      jobs := m.jobs.map work, quantumClock := clock, coreTimingDiagram := diagram
      time := m.time + 1, pc := pc, log := m.log ++ executions m.time m.jobs } := by
  refine ⟨fun k' hk' hne hticks => ?_,fun id e he => ?_⟩
  · obtain ⟨k,hk,rfl⟩ := List.mem_map.mp hk'
    simp only [(work_carries k).1,dispatches_ran] at hne hticks
    have hnone : ticks k.jobId m.log = [] := by
      rw [ticks,times_append] at hticks
      exact (List.append_eq_nil_iff.mp hticks).1
    -- a dispatched job that had not executed held a core, so it has executed now
    have hc := (h.waiting k hk hne hnone).1
    rw [ticks_ran_running m.log m.time ht.distinct hk hc] at hticks
    simp at hticks
  · simp only [dispatches_ran]
    rcases ticks_ran m.log m.time ht.distinct id with hlog | ⟨⟨k,hk,rfl,hc⟩,hlog⟩
    · rw [hlog] at he
      exact h.exact id e he
    · rw [hlog] at he
      cases hticks : ticks k.jobId m.log with
      | cons t ts =>
        rw [hticks] at he
        exact h.exact k.jobId e (by rw [hticks]; exact he)
      | nil =>
        rw [hticks] at he
        rw [← Option.some.inj he]
        exact (h.waiting k hk (hr.seated k hk hc) hticks).2

theorem seat_running {core : Int} (hcore : core ≠ -1) (hk : k.coreId ≠ -1) :
    (seat id core k).coreId ≠ -1 := by
  rcases seat_cases id core k with ⟨-,hc⟩ | hc
  · rw [hc]
    exact hcore
  · rw [hc]
    exact hk

theorem move_prompt (hq : 1 ≤ o.quantum) (ht : Tracked o m) (hr : Recorded rows m)
    (hresp : Responsive rows m) (hclock : o.scheme = .rr → Clocked o m) (hnot : ¬ Undercut o m)
    (h : Prompt m) (hm : Move o m m') : Prompt m' := by
  cases hm with
  | @finished l r r' job lib' ret _ hj _ hp hc hs =>
    refine h.called hs ht (finished_shifted ht hj hp hc hs) (fun k hk hrun _ k' hk' hid => ?_)
    obtain ⟨k2,hk2,rfl⟩ := List.mem_map.mp hk'
    have hk2m : k2 ∈ m.jobs := hj ▸ mem_split ((hp.append_left l).mem_iff.mp hk2)
    rw [(reseats_seat ret job.coreId).jobId] at hid
    rw [key_injective ht.distinct hk2m hk hid]
    exact seat_running hc hrun
  | @expired i job lib' ret _ hrr _ hget _ _ hs =>
    refine h.called hs ht (expired_shifted ht hs) (fun k hk hrun hticks k' hk' hid => ?_)
    obtain ⟨k1,hk1,rfl⟩ := List.mem_map.mp hk'
    obtain ⟨k2,hk2,rfl⟩ := List.mem_map.mp hk1
    rw [(reseats_seat ret i).jobId,(reseats_leave i).jobId] at hid
    rw [key_injective ht.distinct hk2 hk hid]
    by_cases hcore : k.coreId = i
    · -- the quantum is spent, so the job has executed
      have hspent := (hclock hrr).clock k hk hrun
      rw [hcore,Int.toNat_natCast,hget] at hspent
      have hzero := Option.some.inj hspent
      have hle := since_le_ticks k.jobId i m.log
      rw [hticks,List.length_nil] at hle
      omega
    · rw [leave_of_ne hcore]
      exact seat_running (by omega) hrun
  | @arrived l r job lib' ret hpc hj htime ha hs =>
    have hget : m.jobs[l.length]? = some job := by simp [hj]
    refine h.called hs ht (arrived_shifted ht hj ha) (fun k hk hrun hticks k' hk' hid => ?_)
    rcases mem_middle_map.mp hk' with rfl | ⟨k2,hk2,rfl⟩
    · have hjob : job = k := key_injective ht.distinct (by simp [hj]) hk hid
      exact absurd (hjob ▸ (ht.pending job (by simp [hj]) ha).1) hrun
    · rw [(reseats_leave ret).jobId] at hid
      rw [key_injective ht.distinct (hj ▸ mem_split hk2) hk hid]
      by_cases hcore : k.coreId = ret
      · exact absurd (undercut_of_evicted ht hr hpc hget htime hs hk hcore hrun hticks) hnot
      · rw [leave_of_ne hcore]
        exact hrun
  | ran => exact h.ran ht hresp
  | _ => exact ⟨h.waiting,h.exact⟩

theorem Spoiled.called {clock : List Int} {alive : Int} {pc : Phase} (h : Spoiled id m)
    (hshift : ∀ k' ∈ jobs', ∃ k ∈ m.jobs, Shifted call ret k k') (hlate : Late m.pc → Late pc)
    (hnew : Late m.pc → Dispatched call ret id → dispatches id m.log = []) :
    Spoiled id { m with
      lib := lib', jobs := jobs', jobsAlive := alive, quantumClock := clock, pc := pc
      log := m.log ++ [.called call ret] } := by
  obtain ⟨d,hd,hcase⟩ := h
  refine ⟨d,dispatches_head hd,?_⟩
  rw [ticks_called]
  rcases hcase with ⟨hticks,hlt | ⟨hl,hidle⟩⟩ | hexec
  · exact .inl ⟨hticks,.inl hlt⟩
  · refine .inl ⟨hticks,.inr ⟨hlate hl,fun k' hk' hid' => ?_⟩⟩
    obtain ⟨k,hk,hid,-,hcase⟩ := hshift k' hk'
    have hkid : k.jobId = id := hid.symm.trans hid'
    rcases hcase with ⟨hdisp,-⟩ | ⟨-,hcore | hcore⟩
    · rw [hnew hl (hkid ▸ hdisp)] at hd
      cases hd
    · exact hcore.trans (hidle k hk hkid)
    · exact hcore
  · exact .inr hexec

theorem Spoiled.ran {clock : List Int} {diagram : List (List Char)} {pc : Phase} (h : Spoiled id m)
    (ht : Tracked o m) (hr : Responsive rows m) (hid : id ≠ -1) :
    Spoiled id { m with
      jobs := m.jobs.map work, quantumClock := clock, coreTimingDiagram := diagram
      time := m.time + 1, pc := pc, log := m.log ++ executions m.time m.jobs } := by
  obtain ⟨d,hd,hcase⟩ := h
  have hpast : d ≤ m.time := hr.past id hid d (List.mem_of_mem_head? hd)
  refine ⟨d,dispatches_head hd,?_⟩
  rcases hcase with ⟨hticks,hwhen⟩ | ⟨e,he,hlt⟩
  · rcases ticks_ran m.log m.time ht.distinct id with hlog | ⟨⟨k,hk,hkid,hc⟩,hlog⟩
    · refine .inl ⟨hlog.trans hticks,.inl ?_⟩
      simp only
      omega
    · rcases hwhen with hlt | ⟨-,hidle⟩
      · exact .inr ⟨m.time,by rw [hlog,hticks]; rfl,hlt⟩
      · exact absurd (hidle k hk hkid) hc
  · refine .inr ⟨e,?_,hlt⟩
    rw [ticks,times_append]
    exact List.mem_head?_append_of_mem_head? he

theorem Spoiled.atPhase (h : Spoiled id m) {pc : Phase} (hlate : Late m.pc → Late pc) :
    Spoiled id { m with pc := pc } := by
  obtain ⟨d,hd,⟨hticks,hlt | ⟨hl,hidle⟩⟩ | hexec⟩ := h
  · exact ⟨d,hd,.inl ⟨hticks,.inl hlt⟩⟩
  · exact ⟨d,hd,.inl ⟨hticks,.inr ⟨hlate hl,hidle⟩⟩⟩
  · exact ⟨d,hd,.inr hexec⟩

theorem move_spoiled (ht : Tracked o m) (hr : Responsive rows m) (hid : id ≠ -1) (h : Spoiled id m)
    (hm : Move o m m') : Spoiled id m' := by
  have hearly {pc pc' : Phase} (hpc : m.pc = pc) (hl : ¬ Late pc) : Late m.pc → Late pc' :=
    fun hlate => absurd (hpc ▸ hlate) hl
  cases hm with
  | unfinished hpc => exact h.atPhase (hearly hpc nofun)
  | finished hpc hj _ hp hc hs =>
    exact h.called (finished_shifted ht hj hp hc hs) (hearly hpc nofun)
      (fun hlate => absurd (hpc ▸ hlate) nofun)
  | allFinished hpc => exact h.atPhase (hearly hpc nofun)
  | toQuantums hpc => exact h.atPhase (hearly hpc nofun)
  | unexpired hpc => exact h.atPhase (hearly hpc nofun)
  | expired hpc _ _ _ _ _ hs =>
    exact h.called (expired_shifted ht hs) (hearly hpc nofun) (fun hlate => absurd (hpc ▸ hlate) nofun)
  | toArrivals hpc => exact h.atPhase (hearly hpc nofun)
  | elsewhen => exact h.atPhase (fun _ => trivial)
  | @arrived l r job lib' ret _ hj _ ha =>
    refine h.called (arrived_shifted ht hj ha) (fun _ => trivial) (fun _ hd => ?_)
    rw [hd.1]
    exact hr.unarrived job (by simp [hj]) ha
  | toUnit => exact h.atPhase (fun _ => trivial)
  | ran => exact h.ran ht hr hid
  | stopped => exact h

theorem undercut_spoils (ht : Tracked o m) (hr : Recorded rows m) (hresp : Responsive rows m)
    (hu : Undercut o m) (hm : Move o m m') : ∃ loaded ∈ loadJobs 0 rows, Spoiled loaded.jobId m' := by
  obtain ⟨i,job,v,hpc,hget,htime,hevicts,hfull⟩ := hu
  cases hm with
  | @elsewhen l r other hpc' hj hne =>
    cases hpc.symm.trans hpc'
    have hget' : m.jobs[l.length]? = some other := by simp [hj]
    have hsame : other = job := Option.some.inj (hget'.symm.trans hget)
    exact absurd (hsame ▸ htime) hne
  | toUnit hpc' hlen =>
    cases hpc.symm.trans hpc'
    have := (List.getElem?_eq_some_iff.mp hget).1
    omega
  | @arrived l r job' lib' ret hpc' hj _ ha hs =>
    cases hpc.symm.trans hpc'
    have hsame : job' = job := by
      have hget' : m.jobs[l.length]? = some job' := by simp [hj]
      exact Option.some.inj (hget'.symm.trans hget)
    subst hsame
    have hv : v ∈ m.lib.jobs := by
      obtain ⟨-,front,wait,hsplit,-⟩ := hevicts
      have hsplit' : m.lib.jobs = front ++ v :: wait := hsplit
      simp [hsplit']
    have hrun : Running v := by
      obtain ⟨-,front,wait,-,-,hrunning,-⟩ := hevicts
      exact hrunning v (by simp)
    have hcore : v.coreId = ret := core_of_evicts hs.stepped ht.run.governed.sound hevicts
    obtain ⟨k,hk,hka,hkid,hkc,-⟩ := ht.owes hv
    obtain ⟨loaded,hl,hlid,-,-⟩ := hr.record ht hv
    have hticks := (unexecuted_iff ht hr hk hv hkid hka).mp hfull
    have hid : loaded.jobId = k.jobId := hlid.trans hkid.symm
    refine ⟨loaded,hl,?_⟩
    rw [hid]
    cases hdisp : dispatches k.jobId m.log with
    | nil => exact absurd hdisp (hresp.seated k hk (by rw [hkc]; exact hrun))
    | cons d ds =>
      refine ⟨d,dispatches_head (by simp [hdisp]),.inl ⟨?_,.inr ⟨trivial,fun x hx hxid => ?_⟩⟩⟩
      · rw [ticks_called]
        exact hticks
      · rcases mem_middle.mp hx with rfl | hx
        · have hjk : job' = k := key_injective ht.distinct (by simp [hj]) hk hxid
          exact absurd (hka.symm.trans (hjk ▸ ha)) (by decide)
        · rw [← List.map_append] at hx
          obtain ⟨y,hy,rfl⟩ := List.mem_map.mp hx
          rw [(reseats_leave ret).jobId] at hxid
          rw [key_injective ht.distinct (hj ▸ mem_split hy) hk hxid,leave,if_pos (hkc.trans hcore)]
  | _ => cases hpc.symm.trans ‹m.pc = _›

theorem visits_prompt (hcores : 1 ≤ o.cores) (hq : 1 ≤ o.quantum) (h : Runnable rows)
    (hnever : ∀ m, Visits o rows m → ¬ Undercut o m) (hv : Visits o rows m) : Prompt m := by
  have hstart : Prompt (start o rows) := ⟨fun _ _ hne => absurd rfl hne,fun _ => nofun⟩
  refine visits_induction hcores h hstart (fun m m' hv hs hprompt hm => ?_) hv
  exact move_prompt hq hs.1 (visits_recorded hcores h hv) (visits_responsive hcores h hv)
    (fun hrr => visits_clocked hrr hq hcores h hv) (hnever m hv) hprompt hm

theorem visits_spoiled {m1 : Machine} (hcores : 1 ≤ o.cores) (h : Runnable rows)
    (hv : Visits o rows m1) (hreach : Reach (step o) m1 m) (hid : id ≠ -1) (hspoiled : Spoiled id m1) :
    Spoiled id m := by
  have hkeep : Preserved (step o) (fun m => Visits o rows m ∧ Spoiled id m) := by
    rintro a ⟨ha,hspoiled⟩
    have hs := visits_steady hcores h ha
    obtain ⟨b,hb,hm,-⟩ := steady_move hs hcores
    exact ⟨b,hb,ha.tail hb,move_spoiled hs.1 (visits_responsive hcores h ha) hid hspoiled hm⟩
  exact (hkeep.reach ⟨hv,hspoiled⟩ hreach).2

theorem ends_spoiled (hcores : 1 ≤ o.cores) (h : Runnable rows) (he : Ends o rows m)
    (hv : Visits o rows m') (hu : Undercut o m') : ∃ loaded ∈ loadJobs 0 rows, Spoiled loaded.jobId m := by
  have hstuck {n : Nat} {a b : Machine} (ha : a.pc = .done) (hn : iterate (step o) n a = .ok b) : b = a := by
    induction n with
    | zero => exact (Except.ok.inj hn).symm
    | succ n ih =>
      have hstep : step o a = .ok a := by rw [step,ha]
      rw [iterate_succ_ok hstep] at hn
      exact ih hn
  have hlive : m'.pc ≠ .done := by
    obtain ⟨i,job,v,hpc,-⟩ := hu
    simp [hpc]
  rcases hv.linear he.1 with ⟨n,hn⟩ | ⟨n,hn⟩
  · cases n with
    | zero =>
      have hsame : m' = m := Except.ok.inj hn
      exact absurd (hsame ▸ he.2) hlive
    | succ n =>
      have hs := visits_steady hcores h hv
      obtain ⟨m1,hm1,hm,-⟩ := steady_move hs hcores
      rw [iterate_succ_ok hm1] at hn
      obtain ⟨loaded,hl,hspoiled⟩ := undercut_spoils hs.1 (visits_recorded hcores h hv)
        (visits_responsive hcores h hv) hu hm
      exact ⟨loaded,hl,visits_spoiled hcores h (hv.tail hm1) ⟨n,hn⟩ (loaded_real hl) hspoiled⟩
  · exact absurd (hstuck he.2 hn ▸ he.2) hlive

theorem ends_executed (hcores : 1 ≤ o.cores) (h : Runnable rows) (he : Ends o rows m)
    (hj : job ∈ loadJobs 0 rows) : firstTick job.jobId m.log ∈ (ticks job.jobId m.log).head? := by
  have hlast := (ends_concluded hcores h he job hj).latest
  rw [firstTick]
  cases hticks : ticks job.jobId m.log with
  | nil => simp [hticks] at hlast
  | cons t ts => rfl

theorem ends_response (hcores : 1 ≤ o.cores) (h : Runnable rows) (he : Ends o rows m) :
    m.lib.responseTime = ((loadJobs 0 rows).map
      (fun job => (dispatches job.jobId m.log).headD 0 - job.arrivalTime)).sum := by
  have hresp := visits_responsive hcores h he.1
  rw [hresp.total,tally]
  congr 1
  refine List.map_congr_left (fun job hj => ?_)
  obtain ⟨d,hd,-⟩ := hresp.answered job.jobId _ (ends_executed hcores h he hj)
  cases hdisp : dispatches job.jobId m.log with
  | nil => simp [hdisp] at hd
  | cons d ds =>
    have htimes : times Event.dispatch? job.jobId m.log = d :: ds := hdisp
    rw [htimes]
    rfl

theorem responseExact_iff (hcores : 1 ≤ o.cores) (h : Runnable rows) (he : Ends o rows m) :
    ResponseExact rows m ↔ m.lib.responseTime = trueResponse rows m.log := by
  refine and_iff_left_of_imp (fun hexact => ?_)
  rw [schedulerAverageResponseTime,hexact,ends_numJobs hcores h he]

theorem headD_of_mem {xs : List Int} {a : Int} (h : a ∈ xs.head?) : xs.headD 0 = a := by
  rw [List.headD_eq_head?_getD,h]
  rfl

theorem ends_ordered (hcores : 1 ≤ o.cores) (h : Runnable rows) (he : Ends o rows m)
    (hj : job ∈ loadJobs 0 rows) :
    (dispatches job.jobId m.log).headD 0 ≤ firstTick job.jobId m.log := by
  obtain ⟨d,hd,hle⟩ := (visits_responsive hcores h he.1).answered job.jobId _ (ends_executed hcores h he hj)
  rw [headD_of_mem hd]
  exact hle

theorem ends_delayed (hcores : 1 ≤ o.cores) (h : Runnable rows) (he : Ends o rows m)
    (hj : job ∈ loadJobs 0 rows) (hspoiled : Spoiled job.jobId m) :
    (dispatches job.jobId m.log).headD 0 < firstTick job.jobId m.log := by
  obtain ⟨d,hd,hcase⟩ := hspoiled
  have hfirst := ends_executed hcores h he hj
  rw [headD_of_mem hd]
  rcases hcase with ⟨hticks,-⟩ | ⟨e,hexec,hlt⟩
  · simp [hticks] at hfirst
  · rwa [Option.mem_unique hfirst hexec]

theorem response_is_first_tick (hcores : 1 ≤ o.cores) (hq : 1 ≤ o.quantum) (h : Runnable rows) :
    (∃ m, Ends o rows m) ∧ ∀ m, Ends o rows m →
      (∀ job ∈ loadJobs 0 rows, firstTick job.jobId m.log ∈ (ticks job.jobId m.log).head?) ∧
      (ResponseExact rows m ↔ ∀ m', Visits o rows m' → ¬ Undercut o m') := by
  refine ⟨simulator_ends hcores h,fun m he => ⟨fun job hj => ends_executed hcores h he hj,?_⟩⟩
  rw [responseExact_iff hcores h he,ends_response hcores h he,trueResponse]
  constructor
  · intro hexact m' hv hu
    obtain ⟨loaded,hl,hspoiled⟩ := ends_spoiled hcores h he hv hu
    have hdelayed := ends_delayed hcores h he hl hspoiled
    refine absurd hexact (Int.ne_of_lt (List.sum_lt_sum _ _ (fun job hj => ?_) ⟨loaded,hl,?_⟩))
    · have := ends_ordered hcores h he hj
      omega
    · omega
  · intro hnever
    have hprompt := visits_prompt hcores hq h hnever he.1
    congr 1
    refine List.map_congr_left (fun job hj => ?_)
    rw [headD_of_mem (hprompt.exact job.jobId _ (ends_executed hcores h he hj))]

theorem response_is_first_tick_preempting :
    ∃ m, Ends ⟨2,.psjf,1⟩ [⟨0,8,1⟩,⟨1,8,1⟩,⟨3,4,2⟩] m ∧
      (ResponseExact [⟨0,8,1⟩,⟨1,8,1⟩,⟨3,4,2⟩] m ↔
        ∀ m', Visits ⟨2,.psjf,1⟩ [⟨0,8,1⟩,⟨1,8,1⟩,⟨3,4,2⟩] m' → ¬ Undercut ⟨2,.psjf,1⟩ m') := by
  obtain ⟨⟨m,hm⟩,hall⟩ := response_is_first_tick (o := ⟨2,.psjf,1⟩) (by decide) (by decide)
    (show Runnable [⟨0,8,1⟩,⟨1,8,1⟩,⟨3,4,2⟩] by simp [Runnable])
  exact ⟨m,hm,(hall m hm).2⟩

theorem response_counts_undercut :
    ∃ m, Ends ⟨1,.psjf,1⟩ [⟨0,2,0⟩,⟨1,3,0⟩,⟨2,1,0⟩] m ∧ m.lib.responseTime = 1 ∧
      trueResponse [⟨0,2,0⟩,⟨1,3,0⟩,⟨2,1,0⟩] m.log = 2 ∧
      ¬ ResponseExact [⟨0,2,0⟩,⟨1,3,0⟩,⟨2,1,0⟩] m :=
  ⟨_,⟨⟨50,rfl⟩,rfl⟩,rfl,rfl,fun h => absurd h.1 (by decide)⟩

end OperatingSystemLabs.Simulator

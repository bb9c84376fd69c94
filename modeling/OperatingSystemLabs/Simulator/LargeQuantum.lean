import OperatingSystemLabs.Simulator.Lockstep
import OperatingSystemLabs.Simulator.Response

namespace OperatingSystemLabs.Simulator

open Scheduler Keyed Transition

-- The other machine waits while the round-robin one walks through its cores.
def Trails (m m' : Machine) : Prop :=
  m'.pc = m.pc ∨ ∃ i k, m.pc = .checkQuantums i ∧ m'.pc = .checkQuantums k

variable {o o' : Options} {rows : List Row} {m m' a a' : Machine} {core : Int}

theorem never_expires (hrr : o.scheme = .rr) (hone : 1 ≤ o.cores) (h : Runnable rows)
    (hq : ∀ row ∈ rows, row.runTime ≤ o.quantum) (hv : Visits o rows m) (hm : Move o m a) :
    ¬ Expires m a core := by
  intro he
  have hs := visits_steady hone h hv
  have hr := visits_recorded hone h hv
  have hquantum : 1 ≤ o.quantum := by
    obtain ⟨-,job,-,-,hj,-⟩ := expires_move hm he
    obtain ⟨loaded,hl,-⟩ := hr.origin job hj
    have hrow := loaded_row hl
    exact (h _ hrow).1.trans (hq _ hrow)
  obtain ⟨-,-,-,job,hj,-,hrun,hspent⟩ :=
    expires_only hs (visits_clocked hrr hquantum hone h hv) hm he
  obtain ⟨loaded,hl,hc⟩ := hr.origin job hj
  have hle := since_le_ticks job.jobId core m.log
  have hbound : loaded.runTime ≤ o.quantum := hq _ (loaded_row hl)
  have := hc.runTime
  have := hs.1.owed job hj
  omega

theorem visits_unexpired (hrr : o.scheme ≠ .rr) (hone : 1 ≤ o.cores) (h : Runnable rows)
    (hv : Visits o rows m) : ∀ core t ret, .called (.quantumExpired core t) ret ∉ m.log := by
  refine visits_induction hone h (Q := fun m => ∀ core t ret, .called (.quantumExpired core t) ret ∉ m.log)
    nofun (fun m m' _ _ hq hm => ?_) hv
  have hsnoc {e : Event} (hne : ∀ core t ret, e ≠ .called (.quantumExpired core t) ret) (core t ret : Int) :
      .called (.quantumExpired core t) ret ∉ m.log ++ [e] := by
    intro hmem
    rcases List.mem_append.mp hmem with hmem | hmem
    · exact hq core t ret hmem
    · exact hne core t ret (List.mem_singleton.mp hmem).symm
  cases hm with
  | finished => exact hsnoc nofun
  | expired _ hscheme => exact absurd hscheme hrr
  | arrived => exact hsnoc nofun
  | ran =>
    intro core t ret hmem
    rcases List.mem_append.mp hmem with hmem | hmem
    · exact hq core t ret hmem
    · obtain ⟨job,-,-,he⟩ := mem_executions hmem
      cases he
  | _ => exact hq

theorem ends_unique (he : Ends o rows m) (he' : Ends o rows m') : m' = m := by
  have hstay {a b : Machine} (hpc : a.pc = .done) (hreach : Reach (step o) a b) : b = a := by
    obtain ⟨n,hn⟩ := hreach
    induction n with
    | zero =>
      cases hn
      rfl
    | succ n ih =>
      have hstep : step o a = .ok a := by rw [step,hpc]
      rw [iterate_succ_ok hstep] at hn
      exact ih hn
  rcases he.1.linear he'.1 with hreach | hreach
  · exact hstay he.2 hreach
  · exact (hstay he'.2 hreach).symm

theorem ends_totals (hone : 1 ≤ o.cores) (h : Runnable rows) (he : Ends o rows m) :
    m.lib.waitingTime = tally Event.completion? (fun job t => t - job.arrivalTime - job.runTime) rows m.log ∧
    m.lib.turnaroundTime = tally Event.completion? (fun job t => t - job.arrivalTime) rows m.log ∧
    m.lib.responseTime = tally Event.dispatch? (fun job t => t - job.arrivalTime) rows m.log := by
  obtain ⟨-,hturn,hwait⟩ := visits_accounted hone h he.1
  rw [((visits_steady hone h he.1).queue_empty he.2).2] at hwait
  exact ⟨hwait.trans (Int.zero_add _),hturn,(visits_responsive hone h he.1).total⟩

theorem step_trails (hrr : o.scheme = .rr) (hrr' : o'.scheme ≠ .rr) (hcores : o'.cores = o.cores)
    (hone : 1 ≤ o.cores) (h : Runnable rows) (hq : ∀ row ∈ rows, row.runTime ≤ o.quantum)
    (hv : Visits o rows m) (hv' : Visits o' rows m') (hab : Abreast m m') (htrails : Trails m m')
    (hord : Orderly o m) (hord' : Orderly o' m') : ∃ a a', step o m = .ok a ∧
      Reach (step o') m' a' ∧ Abreast a a' ∧ Trails a a' := by
  have hs := visits_steady hone h hv
  have hs' := visits_steady (hcores ▸ hone) h hv'
  obtain ⟨a,ha,hm,-⟩ := steady_move hs hone
  have hmove := hm
  by_cases hquantums : ∃ i, m.pc = .checkQuantums i
  · obtain ⟨i,hi⟩ := hquantums
    obtain ⟨k,hk⟩ : ∃ k, m'.pc = .checkQuantums k := by
      rcases htrails with hpc | ⟨-,k,-,hpc⟩
      · exact ⟨i,hpc.trans hi⟩
      · exact ⟨k,hpc⟩
    obtain ⟨hjobs,htime,hlog,hline⟩ := hab
    cases hm with
    | unexpired => exact ⟨_,m',ha,Reach.refl _ m',⟨hjobs,htime,hlog,hline⟩,.inr ⟨_,k,rfl,hk⟩⟩
    | @expired c job lib' ret => exact absurd ⟨m.time,ret,rfl⟩ (never_expires hrr hone h hq hv hmove)
    | toArrivals =>
      have hskip : step o' m' = .ok { m' with pc := .checkArrivals 0 } := by
        rw [step,hk]
        exact quantums_skipped hrr'
      exact ⟨_,_,ha,Reach.head hskip (Reach.refl _ _),⟨hjobs,htime,hlog,hline⟩,.inl rfl⟩
    | _ => cases hi.symm.trans ‹m.pc = _›
  · have hpc : m'.pc = m.pc := by
      rcases htrails with hpc | ⟨i,-,hi,-⟩
      · exact hpc
      · exact absurd ⟨_,hi⟩ hquantums
    obtain ⟨a',ha',-,-⟩ := steady_move hs' (hcores ▸ hone)
    obtain ⟨hab',hpc'⟩ := step_abreast hs hs' hab hcores hone hpc hord hord'
      (fun i hi => hquantums ⟨i,hi⟩) ha ha'
    exact ⟨a,a',ha,Reach.head ha' (Reach.refl _ a'),hab',.inl hpc'⟩

theorem large_quantum_is_fcfs {cores : Nat} {quantum : Int} (hone : 1 ≤ cores) (h : Runnable rows)
    (hd : DistinctTimes rows) (hsized : IntSized rows) (hq : ∀ row ∈ rows, row.runTime ≤ quantum)
    (quantum' : Int) :
    (∃ m, Ends ⟨cores,.rr,quantum⟩ rows m) ∧ (∃ m', Ends ⟨cores,.fcfs,quantum'⟩ rows m') ∧
    ∀ m m', Ends ⟨cores,.rr,quantum⟩ rows m → Ends ⟨cores,.fcfs,quantum'⟩ rows m' →
      (∀ core t ret, .called (.quantumExpired core t) ret ∉ m.log) ∧ m.log = m'.log ∧
      m.lib.waitingTime = m'.lib.waitingTime ∧ m.lib.turnaroundTime = m'.lib.turnaroundTime ∧
      m.lib.responseTime = m'.lib.responseTime := by
  let o : Options := ⟨cores,.rr,quantum⟩
  let o' : Options := ⟨cores,.fcfs,quantum'⟩
  have hfcfs : o'.scheme ≠ .rr := show SchemeT.fcfs ≠ .rr by decide
  have hstep : ∀ m m', (Visits o rows m ∧ Visits o' rows m' ∧ Abreast m m' ∧ Trails m m') →
      ∃ a a', step o m = .ok a ∧ Reach (step o') m' a' ∧
        (Visits o rows a ∧ Visits o' rows a' ∧ Abreast a a' ∧ Trails a a') := by
    rintro m m' ⟨hv,hv',hab,htrails⟩
    obtain ⟨a,a',ha,ha',hrest⟩ := step_trails (o := o) rfl hfcfs rfl hone h hq hv hv' hab htrails
      (visits_orderly hone h hd hsized trivial hv) (visits_orderly hone h hd hsized trivial hv')
    exact ⟨a,a',ha,ha',hv.tail ha,hv'.trans ha',hrest⟩
  refine ⟨simulator_ends hone h,simulator_ends hone h,fun m m' he he' => ?_⟩
  obtain ⟨b,-,-,hvb,hab,htrails⟩ := Reach.simulation
    (R := fun m m' => Visits o rows m ∧ Visits o' rows m' ∧ Abreast m m' ∧ Trails m m') hstep
    ⟨Reach.refl _ (start o rows),Reach.refl _ (start o' rows),⟨rfl,rfl,rfl,rfl⟩,.inl rfl⟩ he.1
  have hdone : b.pc = .done := by
    rcases htrails with hpc | ⟨i,-,hpc,-⟩
    · exact hpc.trans he.2
    · cases hpc.symm.trans he.2
  have hsame : b = m' := ends_unique he' ⟨hvb,hdone⟩
  have hlog : m.log = m'.log := hsame ▸ hab.log.symm
  obtain ⟨hwait,hturn,hresp⟩ := ends_totals hone h he
  obtain ⟨hwait',hturn',hresp'⟩ := ends_totals hone h he'
  refine ⟨fun core t ret => ?_,hlog,?_,?_,?_⟩
  · rw [hlog]
    exact visits_unexpired hfcfs hone h he'.1 core t ret
  · rw [hwait,hwait',hlog]
  · rw [hturn,hturn',hlog]
  · rw [hresp,hresp',hlog]

theorem large_quantum_is_fcfs_exact :
    ∃ m m', Ends ⟨1,.rr,3⟩ [⟨0,3,1⟩,⟨1,3,1⟩] m ∧ Ends ⟨1,.fcfs,0⟩ [⟨0,3,1⟩,⟨1,3,1⟩] m' ∧
      m.log = m'.log ∧ m.lib.waitingTime = m'.lib.waitingTime := by
  obtain ⟨⟨m,hm⟩,⟨m',hm'⟩,hall⟩ := large_quantum_is_fcfs (le_refl 1)
    (show Runnable [⟨0,3,1⟩,⟨1,3,1⟩] by simp [Runnable]) (by simp [DistinctTimes]) (by simp [IntSized])
    (show ∀ row ∈ [(⟨0,3,1⟩ : Row),⟨1,3,1⟩], row.runTime ≤ 3 by simp) 0
  obtain ⟨-,hlog,hwait,-⟩ := hall m m' hm hm'
  exact ⟨m,m',hm,hm',hlog,hwait⟩

end OperatingSystemLabs.Simulator

import OperatingSystemLabs.Foundation.Rounding
import OperatingSystemLabs.Simulator.RowOrder

namespace OperatingSystemLabs.Simulator

open Scheduler Transition Rounding

structure TotalsT where
  waitingTime : Int
  turnaroundTime : Int
  responseTime : Int
  deriving DecidableEq, Repr

def exactTotals (lib : Lib) : TotalsT := ⟨lib.waitingTime,lib.turnaroundTime,lib.responseTime⟩

-- waiting_time += time - wake_job->pause_time and its siblings add an int to a single-precision
-- float. No library call adds to one total twice, so that int is the change of the exact total.
def TotalsT.after (f exact exact' : TotalsT) : TotalsT where
  waitingTime := addInt 24 f.waitingTime (exact'.waitingTime - exact.waitingTime)
  turnaroundTime := addInt 24 f.turnaroundTime (exact'.turnaroundTime - exact.turnaroundTime)
  responseTime := addInt 24 f.responseTime (exact'.responseTime - exact.responseTime)

def floatStep (o : Options) (s : Machine × TotalsT) : Except Fault (Machine × TotalsT) :=
  (step o s.1).map fun m => (m,s.2.after (exactTotals s.1.lib) (exactTotals m.lib))

def FloatEnds (o : Options) (rows : List Row) (m : Machine) (f : TotalsT) : Prop :=
  Reach (floatStep o) (start o rows,⟨0,0,0⟩) (m,f) ∧ m.pc = .done

-- A float holds every integer up to 2 ^ 24.
def Small (total : Int) : Prop := 0 ≤ total ∧ total ≤ 2 ^ 24

def TotalsT.Small (t : TotalsT) : Prop :=
  Simulator.Small t.waitingTime ∧ Simulator.Small t.turnaroundTime ∧ Simulator.Small t.responseTime

-- `ts` are the exact totals after each of the next steps of main.
def Passes (o : Options) : List TotalsT → Machine → Machine → Prop
  | [], m, m' => m = m'
  | t :: ts, m, m' => ∃ u, step o m = .ok u ∧ exactTotals u.lib = t ∧ Passes o ts u m'

def TotalsT.along (f : TotalsT) : TotalsT → List TotalsT → TotalsT
  | _, [] => f
  | t, t' :: ts => (f.after t t').along t' ts

structure Cruising (lib : Lib) (jobs : List SimulatorJobListT) (stop : Int) (m : Machine) : Prop where
  busy : jobs ≠ []
  seated : ∀ job ∈ jobs, job.coreId ≠ -1 ∧ job.arrivalTime < m.time
  served : m.lib = lib
  working : m.jobs = jobs.map fun job => { job with runTime := stop - m.time }
  bound : m.time ≤ stop
  fresh : m.time = stop → m.pc = .checkFinished 0
  going : m.pc ≠ .done

-- Three jobs on three cores that all end at 2 ^ 24, and of which main meets the second row last.
def together (k : Int) : List Row := [⟨0,2 ^ 24,0⟩,⟨k,2 ^ 24 - k,0⟩,⟨3 - k,2 ^ 24 - (3 - k),0⟩]

def threeCores : Options := ⟨3,.fcfs,1⟩

def togetherJobs (k : Int) : List SimulatorJobListT :=
  [⟨0,0,0,0,0,true⟩,⟨1,k,0,0,k,true⟩,⟨2,3 - k,0,0,3 - k,true⟩]

def togetherTotals (k : Int) : List TotalsT :=
  [⟨0,2 ^ 24,0⟩,⟨0,2 * 2 ^ 24 - (3 - k),0⟩,⟨0,3 * 2 ^ 24 - 3,0⟩,⟨0,3 * 2 ^ 24 - 3,0⟩]

variable {o : Options} {rows : List Row} {m m' : Machine} {f t t' : TotalsT} {lib : Lib} {stop : Int}
variable {jobs : List SimulatorJobListT} {s s' : Machine × TotalsT}

theorem floatStep_ok (hm : step o m = .ok m') :
    floatStep o (m,f) = .ok (m',f.after (exactTotals m.lib) (exactTotals m'.lib)) := by
  rw [floatStep,hm]
  rfl

theorem floatStep_inv (h : floatStep o s = .ok s') :
    step o s.1 = .ok s'.1 ∧ s'.2 = s.2.after (exactTotals s.1.lib) (exactTotals s'.1.lib) := by
  rw [floatStep] at h
  cases hm : step o s.1 with
  | error e =>
    rw [hm] at h
    cases h
  | ok m' =>
    rw [hm] at h
    cases h
    exact ⟨rfl,rfl⟩

theorem Small.add {total total' : Int} (h : Small total) (h' : Small total') :
    addInt 24 total (total' - total) = total' := by
  obtain ⟨h0,hle⟩ := h
  obtain ⟨h0',hle'⟩ := h'
  rw [addInt_exact (by decide) (by omega) (by omega)]
  omega

theorem TotalsT.Small.after (h : t.Small) (h' : t'.Small) : t.after t t' = t' := by
  rw [TotalsT.after,h.1.add h'.1,h.2.1.add h'.2.1,h.2.2.add h'.2.2]

theorem float_visits (h : Reach (floatStep o) (start o rows,⟨0,0,0⟩) s) : Visits o rows s.1 := by
  have hstart : Visits o rows (start o rows) := Reach.refl _ _
  exact Reach.invariant (P := fun s => Visits o rows s.1) (fun _ _ hv hs => hv.tail (floatStep_inv hs).1)
    hstart h

theorem float_totals_exact (hsmall : ∀ u, Visits o rows u → (exactTotals u.lib).Small) (he : FloatEnds o rows m f) :
    f = exactTotals m.lib := by
  have hstep : ∀ s s', (Visits o rows s.1 ∧ s.2 = exactTotals s.1.lib) → floatStep o s = .ok s' →
      Visits o rows s'.1 ∧ s'.2 = exactTotals s'.1.lib := by
    rintro s s' ⟨hv,hs⟩ hs'
    obtain ⟨hm,hf⟩ := floatStep_inv hs'
    have hv' : Visits o rows s'.1 := hv.tail hm
    rw [hs,(hsmall _ hv).after (hsmall _ hv')] at hf
    exact ⟨hv',hf⟩
  have hstart : Visits o rows (start o rows) := Reach.refl _ _
  exact (Reach.invariant hstep ⟨hstart,rfl⟩ he.1).2

theorem after_nothing (t : TotalsT) : (⟨0,0,0⟩ : TotalsT).after t t = ⟨0,0,0⟩ := by
  simp only [TotalsT.after,Int.sub_self]
  rfl

theorem Cruising.move (hrr : o.scheme ≠ .rr) (h : Cruising lib jobs stop m) (hlt : m.time < stop)
    (hm : Move o m m') : Cruising lib jobs stop m' := by
  have hold (job : SimulatorJobListT) (hj : job ∈ m.jobs) :
      job.arrivalTime < m.time ∧ job.runTime = stop - m.time := by
    rw [h.working] at hj
    obtain ⟨k,hk,rfl⟩ := List.mem_map.mp hj
    exact ⟨(h.seated k hk).2,rfl⟩
  have hkeep {pc : Phase} (hpc : pc ≠ .done) : Cruising lib jobs stop { m with pc := pc } :=
    ⟨h.busy,h.seated,h.served,h.working,h.bound,fun ht => absurd ht hlt.ne,hpc⟩
  cases hm with
  | unfinished => exact hkeep (by simp)
  | @finished l r r' job lib' ret hpc hj hrun =>
    have := (hold job (by simp [hj])).2
    omega
  | allFinished _ hnil =>
    rw [h.working,List.map_eq_nil_iff] at hnil
    exact absurd hnil h.busy
  | toQuantums => exact hkeep (by simp)
  | unexpired _ h' => exact absurd h' hrr
  | expired _ h' => exact absurd h' hrr
  | toArrivals => exact hkeep (by simp)
  | elsewhen => exact hkeep (by simp)
  | @arrived l r job lib' ret hpc hj htime =>
    have := (hold job (by simp [hj])).1
    omega
  | toUnit => exact hkeep (by simp)
  | ran =>
    refine ⟨h.busy,fun job hj => ⟨(h.seated job hj).1,?_⟩,h.served,?_,hlt,fun _ => rfl,by simp⟩
    · have := (h.seated job hj).2
      simp only
      omega
    · simp only [h.working,List.map_map]
      refine List.map_congr_left fun job hj => ?_
      have hwork : work { job with runTime := stop - m.time } =
          { job with runTime := stop - m.time - 1 } := if_pos (h.seated job hj).1
      simp only [Function.comp_apply,hwork,Int.sub_sub]
  | stopped hpc => exact absurd hpc h.going

theorem cruise (hcores : 1 ≤ o.cores) (hrr : o.scheme ≠ .rr) (hs : Steady o m) (h : Cruising lib jobs stop m) :
    ∃ u, Reach (floatStep o) (m,⟨0,0,0⟩) (u,⟨0,0,0⟩) ∧ Cruising lib jobs stop u ∧ u.time = stop := by
  obtain ⟨last,hlast⟩ := exists_last jobs
  have hstep : ∀ s, (Steady o s.1 ∧ Cruising lib jobs stop s.1 ∧ s.2 = ⟨0,0,0⟩) → ¬ s.1.time = stop →
      ∃ s', floatStep o s = .ok s' ∧ (Steady o s'.1 ∧ Cruising lib jobs stop s'.1 ∧ s'.2 = ⟨0,0,0⟩) ∧
        Below (rank o last s'.1) (rank o last s.1) := by
    rintro ⟨m,f⟩ ⟨hs,h,rfl⟩ hne
    dsimp only at hs h hne
    obtain ⟨m',hm',hmove,hs'⟩ := steady_move hs hcores
    have h' := h.move hrr (by have := h.bound; omega) hmove
    refine ⟨_,floatStep_ok hm',⟨hs',h',?_⟩,move_below hs hcores (fun job hj => ?_) h.going hmove⟩
    · rw [h.served,h'.served,after_nothing]
    · rw [h.working] at hj
      obtain ⟨k,hk,rfl⟩ := List.mem_map.mp hj
      exact hlast k hk
  obtain ⟨⟨u,f⟩,hreach,⟨-,hu,rfl⟩,hstop⟩ := reach_final below_wellFounded (fun s => rank o last s.1) hstep
    (s := (m,⟨0,0,0⟩)) ⟨hs,h,rfl⟩
  exact ⟨u,hreach,hu,hstop⟩

theorem Passes.reach {ts : List TotalsT} (h : Passes o ts m m') :
    Reach (floatStep o) (m,f) (m',f.along (exactTotals m.lib) ts) := by
  induction ts generalizing m f with
  | nil =>
    cases h
    exact Reach.refl _ _
  | cons t ts ih =>
    obtain ⟨u,hu,rfl,hts⟩ := h
    exact Reach.head (floatStep_ok hu) (ih hts)

theorem together_ends {k : Int} (hk : k = 1 ∨ k = 2) :
    ∃ m, FloatEnds threeCores (together k) m ((⟨0,0,0⟩ : TotalsT).along ⟨0,0,0⟩ (togetherTotals k)) := by
  have hstart : ∃ m, Reach (floatStep threeCores) (start threeCores (together k),⟨0,0,0⟩) (m,⟨0,0,0⟩) ∧
      Cruising m.lib (togetherJobs k) (2 ^ 24) m ∧ exactTotals m.lib = ⟨0,0,0⟩ ∧
      ∀ alive clock diagram log, ∃ u, Passes threeCores (togetherTotals k)
        ⟨m.lib,togetherJobs k,alive,clock,diagram,2 ^ 24,.checkFinished 0,log⟩ u ∧ u.pc = .done := by
    set_option maxRecDepth 4000 in
    rcases hk with rfl | rfl
    · refine ⟨_,⟨30,rfl⟩,⟨nofun,by decide,rfl,rfl,by decide,by decide,nofun⟩,rfl,fun alive clock diagram log => ?_⟩
      refine ⟨_,⟨_,rfl,rfl,_,rfl,rfl,_,rfl,rfl,_,rfl,rfl,rfl⟩,?_⟩
      rfl
    · refine ⟨_,⟨30,rfl⟩,⟨nofun,by decide,rfl,rfl,by decide,by decide,nofun⟩,rfl,fun alive clock diagram log => ?_⟩
      refine ⟨_,⟨_,rfl,rfl,_,rfl,rfl,_,rfl,rfl,_,rfl,rfl,rfl⟩,?_⟩
      rfl
  obtain ⟨m,hreach,hc,htotals,hpasses⟩ := hstart
  have hrun : Runnable (together k) := by rcases hk with rfl | rfl <;> simp [Runnable,together]
  obtain ⟨u,hu,hcu,hstop⟩ := cruise (by decide) (by decide) (visits_steady (by decide) hrun (float_visits hreach)) hc
  obtain ⟨u',hp,hdone⟩ := hpasses u.jobsAlive u.quantumClock u.coreTimingDiagram u.log
  have hjobs : u.jobs = togetherJobs k := by
    rw [hcu.working,hstop]
    rfl
  rw [← hcu.served,← hjobs,← hstop,← hcu.fresh hstop] at hp
  have hzero : exactTotals u.lib = ⟨0,0,0⟩ := by rw [hcu.served,htotals]
  have hclose := hp.reach (f := ⟨0,0,0⟩)
  rw [hzero] at hclose
  exact ⟨u',hreach.trans (hu.trans hclose),hdone⟩

theorem row_order_changes_floats : ¬ ∀ o rows rows' m m' f f', 1 ≤ o.cores → o.scheme ≠ .rr → Runnable rows →
    DistinctTimes rows → rows.Perm rows' → FloatEnds o rows m f → FloatEnds o rows' m' f' → f' = f := by
  intro h
  obtain ⟨m,he⟩ := together_ends (.inl rfl)
  obtain ⟨m',he'⟩ := together_ends (.inr rfl)
  have hsame := h threeCores (together 1) (together 2) m m' _ _ (by decide) (by decide) (by simp [Runnable,together])
    (by simp [DistinctTimes,together]) (by decide) he he'
  exact absurd hsame (by decide)

end OperatingSystemLabs.Simulator

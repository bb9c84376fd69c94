import OperatingSystemLabs.Simulator.Contiguity
import OperatingSystemLabs.Simulator.Tickets

namespace OperatingSystemLabs.Simulator

open Scheduler Insertion Keyed Transition

def rowKey : SchemeT → Row → Int
  | .sjf, row => row.runTime
  | .pri, row => row.priority
  | _, row => row.arrivalTime

-- Under fcfs the second component repeats the first.
def waitKey (scheme : SchemeT) (j : JobT) : Int ×ₗ Int :=
  toLex (rowKey scheme ⟨j.arrivalTime,j.runTime,j.priority⟩,j.arrivalTime)

def KeysFit (scheme : SchemeT) (rows : List Row) : Prop :=
  ∀ a ∈ rows, ∀ b ∈ rows, Fits (a.arrivalTime - b.arrivalTime) ∧ Fits (rowKey scheme a - rowKey scheme b)

def NonPreemptive (scheme : SchemeT) : Prop := scheme = .fcfs ∨ scheme = .sjf ∨ scheme = .pri

variable {o : Options} {rows : List Row} {m m' : Machine} {scheme : SchemeT} {job : SimulatorJobListT}

theorem NonPreemptive.patient (h : NonPreemptive scheme) : scheme.preemptive = false ∧ scheme ≠ .rr := by
  rcases h with rfl | rfl | rfl <;> exact ⟨rfl,nofun⟩

theorem wait_ranking (scheme : SchemeT) : Ranking (fun _ => waitKey scheme) where
  started _ _ _ _ _ _ := rfl
  preempting _ _ _ _ _ _ := rfl
  charged _ _ _ := rfl
  preempted _ _ _ := rfl
  woken _ _ _ _ _ _ := rfl

theorem compare_reads (h : NonPreemptive scheme) {x y : JobT} (ha : Fits (x.arrivalTime - y.arrivalTime))
    (hkey : Fits (rowKey scheme ⟨x.arrivalTime,x.runTime,x.priority⟩ -
      rowKey scheme ⟨y.arrivalTime,y.runTime,y.priority⟩)) : Reads scheme.compare (waitKey scheme) x y := by
  rcases h with rfl | rfl | rfl
  · change Reads fcfsCompare _ x y
    rw [fcfsCompare_arrival]
    exact compareBy_reads hkey ha
  · exact compareBy_reads hkey ha
  · exact compareBy_reads hkey ha

theorem visits_waiting_sorted (hscheme : NonPreemptive o.scheme) (hcores : 1 ≤ o.cores) (h : Runnable rows)
    (hfit : KeysFit o.scheme rows) (hv : Visits o rows m) : Sorted (waitKey o.scheme) m.lib.jobs := by
  obtain ⟨hpre,hrr⟩ := hscheme.patient
  refine visits_induction hcores h (Q := fun m => Sorted (waitKey o.scheme) m.lib.jobs) .nil ?_ hv
  intro m m' hv hs hsort hm
  have hg := hs.1.run.governed
  cases hm with
  | finished _ _ _ _ _ hserved =>
    exact step_sorted_waiting (wait_ranking o.scheme) hpre hrr hserved.stepped (hg.admissible hserved.legal) nofun hsort
  | expired _ hexpire => exact absurd hexpire hrr
  | @arrived l r job lib' ret _ hj hnow ha hserved =>
    refine step_sorted_waiting (wait_ranking o.scheme) hpre hrr hserved.stepped (hg.admissible hserved.legal) ?_ hsort
    intro id t run pri hcall k hk
    obtain ⟨rfl,rfl,rfl,rfl⟩ := (Call.newJob.injEq ..).mp hcall
    have hr := visits_recorded hcores h hv
    have hst := visits_stamped hcores h hv
    obtain ⟨loaded,hl,-,harr,hrun,hpri⟩ := hst.record hr hs.1 hk
    have hnew := loaded_row (hst.pending hr hs.1 (by simp [hj]) ha)
    obtain ⟨hfa,hfk⟩ := hfit job.row hnew loaded.row (loaded_row hl)
    simp only [SimulatorJobListT.row,harr,hrun,hpri,hnow] at hfa hfk
    exact compare_reads hscheme hfa hfk
  | _ => exact hsort

theorem move_wakes_least {core id t ret : Int} (hs : Steady o m) (hsort : Sorted (waitKey o.scheme) m.lib.jobs)
    (hm : Move o m m') (hlog : m'.log = m.log ++ [.called (.jobFinished core id t) ret]) {w k : JobT}
    (hw : w ∈ m.lib.jobs) (hret : w.jobId = ret) (hk : k ∈ m.lib.jobs) (hwait : k.coreId = -1) :
    waitKey o.scheme w ≤ waitKey o.scheme k := by
  have hg := hs.1.run.governed
  cases hm with
  | finished _ _ _ _ _ hserved =>
    have hcall := List.append_cancel_left hlog
    simp only [List.cons.injEq,Event.called.injEq] at hcall
    obtain ⟨⟨-,rfl⟩,-⟩ := hcall
    exact @woken_first _ (fun _ => waitKey o.scheme) _ _ _ _ _ _ _ _ _ hserved.stepped hg.sound
      (hg.admissible hserved.legal) hsort w hw hret k hk hwait
  | expired => simp at hlog
  | arrived => simp at hlog
  | ran =>
    have hcall := List.append_cancel_left hlog
    obtain ⟨job,-,-,hexec⟩ := mem_executions (e := .called (.jobFinished core id t) ret)
      (by rw [hcall]; exact List.mem_singleton_self _)
    cases hexec
  | _ => simp at hlog

theorem nonpreemptive_dispatch (hscheme : NonPreemptive o.scheme) (hcores : 1 ≤ o.cores) (h : Runnable rows)
    (hfit : KeysFit o.scheme rows) : (∃ m, Ends o rows m) ∧
    (∀ m, Ends o rows m → ∀ loaded ∈ loadJobs 0 rows, InOnePiece m.log loaded) ∧
    ∀ n, ∃ m m', iterate (step o) n (start o rows) = .ok m ∧ step o m = .ok m' ∧
      ∀ core id t ret, m'.log = m.log ++ [.called (.jobFinished core id t) ret] →
        ∀ w ∈ m.lib.jobs, w.jobId = ret → ∀ k ∈ m.lib.jobs, k.coreId = -1 →
          waitKey o.scheme w ≤ waitKey o.scheme k := by
  obtain ⟨hpre,hrr⟩ := hscheme.patient
  refine ⟨simulator_ends hcores h,fun m he loaded hl => ?_,fun n => ?_⟩
  · rcases (visits_uninterrupted hpre hrr hcores h he.1).gone loaded hl with ⟨k,hk,-⟩ | hone
    · rw [((visits_steady hcores h he.1).queue_empty he.2).1] at hk
      cases hk
    · exact hone
  · obtain ⟨m,hm,hs⟩ := (steady_preserved hcores).iterate (start_steady o h) n
    obtain ⟨m',hm',hmove,-⟩ := steady_move hs hcores
    have hsort := visits_waiting_sorted hscheme hcores h hfit ⟨n,hm⟩
    exact ⟨m,m',hm,hm',fun core id t ret hlog w hw hret k hk hwait =>
      move_wakes_least hs hsort hmove hlog hw hret hk hwait⟩

theorem nonpreemptive_dispatch_shortest :
    ∃ m, Ends ⟨1,.sjf,0⟩ [⟨0,4,1⟩,⟨1,9,1⟩,⟨2,3,1⟩] m ∧ InOnePiece m.log ⟨2,2,3,1,-1,false⟩ := by
  obtain ⟨⟨m,hm⟩,hall,-⟩ := nonpreemptive_dispatch (o := ⟨1,.sjf,0⟩) (.inr (.inl rfl)) (by decide)
    (show Runnable [⟨0,4,1⟩,⟨1,9,1⟩,⟨2,3,1⟩] by simp [Runnable]) (by simp [KeysFit,rowKey,Fits])
  exact ⟨m,hm,hall m hm _ (by decide)⟩

end OperatingSystemLabs.Simulator

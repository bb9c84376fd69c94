import OperatingSystemLabs.Scheduler.Masked
import OperatingSystemLabs.Simulator.Backlog
import OperatingSystemLabs.Simulator.LargeQuantum

namespace OperatingSystemLabs.Simulator

open Scheduler Keyed

def arriveAt (scheme : SchemeT) (cores : Nat) (rows : List Row) (n : Nat) (b : Board) : Board :=
  match rows.find? (fun row => row.arrivalTime = (n : Int)) with
  | some row => b.arrive scheme cores n row.runTime row.priority
  | none => b

-- What the queue looks like in time unit n - 1, from the rows as a set: no core, no job number.
def timeline (scheme : SchemeT) (cores : Nat) (rows : List Row) : Nat → Board
  | 0 => ⟨[],0,0,0,0⟩
  | n + 1 => arriveAt scheme cores rows n ((timeline scheme cores rows n).settle n)

def Runs (b : Board) (arrivalTime : Int) : Prop := ∃ j ∈ b.jobs, Running j ∧ j.arrivalTime = arrivalTime

def Paced (line : Nat → Board) (m : Machine) (n : Nat) : Prop :=
  match m.pc with
  | .checkFinished _ => m.lib.board.masked.settle n = (line n).settle n
  | .checkQuantums _ => m.lib.board.masked = (line n).settle n
  | .checkArrivals i =>
      (∀ job ∈ m.jobs.take i, job.arrivalTime ≠ n) ∧ m.lib.board.masked = (line n).settle n ∨
      (∃ job ∈ m.jobs.take i, job.arrivalTime = n) ∧ m.lib.board.masked = line (n + 1)
  | .runTimeUnit => m.lib.board.masked = line (n + 1)
  | .done => m.lib.board.masked = (line n).settle n

structure OnTimeline (line : Nat → Board) (rows : List Row) (m : Machine) (n : Nat) : Prop where
  now : m.time = n
  paced : Paced line m n
  ran : ∀ loaded ∈ loadJobs 0 rows, ∀ t, t ∈ ticks loaded.jobId m.log ↔
    ∃ k : Nat, k < n ∧ t = k ∧ Runs (line (k + 1)) loaded.arrivalTime
  awake : ∀ k < n, (line (k + 1)).jobs ≠ [] ∨ ∃ row ∈ rows, (k : Int) < row.arrivalTime

variable {o : Options} {rows rows' : List Row} {m m' : Machine} {n : Nat} {line : Nat → Board}

theorem timeline_perm (scheme : SchemeT) (cores : Nat) (h : rows.Perm rows') (hd : DistinctTimes rows) :
    timeline scheme cores rows' = timeline scheme cores rows := by
  funext n
  induction n with
  | zero => rfl
  | succ n ih =>
    have hfind : rows'.find? (fun row => row.arrivalTime = (n : Int)) =
        rows.find? (fun row => row.arrivalTime = (n : Int)) := by
      refine find?_perm h (fun a ha b hb hpa hpb => ?_)
      exact key_injective hd ha hb ((of_decide_eq_true hpa).trans (of_decide_eq_true hpb).symm)
    rw [timeline,timeline,ih,arriveAt,arriveAt,hfind]

theorem OnTimeline.keep (h : OnTimeline line rows m n) (htime : m'.time = m.time)
    (hticks : ∀ id, ticks id m'.log = ticks id m.log) (hpaced : Paced line m' n) : OnTimeline line rows m' n := by
  refine ⟨htime.trans h.now,hpaced,fun loaded hl t => ?_,h.awake⟩
  rw [hticks]
  exact h.ran loaded hl t

theorem start_on_timeline (o : Options) (rows : List Row) :
    OnTimeline (timeline o.scheme o.cores rows) rows (start o rows) 0 where
  now := rfl
  paced := rfl
  ran loaded hl t := by simp [start,ticks,times]
  awake := nofun

theorem Tracked.none_over (ht : Tracked o m) (hu : Unfinished m.jobs) :
    ∀ j ∈ m.lib.board.masked.jobs, ¬ Over m.time j := by
  intro j hj hover
  obtain ⟨k,hk,rfl⟩ := List.mem_map.mp hj
  obtain ⟨job,hjob,-,-,-,hrun⟩ := ht.owes hk
  exact hu job hjob (hrun.trans (masked_over.mp hover).2)

theorem Tracked.waiting_owed (ht : Tracked o m) (hrun : ∀ job ∈ m.jobs, job.runTime = 0 → job.coreId ≠ -1) :
    ∀ j ∈ m.lib.board.jobs, j.coreId = -1 → j.timeRemaining ≠ 0 := by
  intro j hj hidle h0
  obtain ⟨job,hjob,-,-,hcore,hleft⟩ := ht.owes hj
  rw [remaining_waiting _ hidle] at hleft
  exact hrun job hjob (hleft.trans h0) (hcore.trans hidle)

theorem arriveAt_of_row (hd : DistinctTimes rows) {row : Row} (hrow : row ∈ rows) (hnow : row.arrivalTime = n)
    (b : Board) (scheme : SchemeT) (cores : Nat) :
    arriveAt scheme cores rows n b = b.arrive scheme cores n row.runTime row.priority := by
  have hfind : rows.find? (fun row => row.arrivalTime = (n : Int)) = some row := by
    cases hx : rows.find? (fun row => row.arrivalTime = (n : Int)) with
    | none => exact absurd (decide_eq_true hnow) (List.find?_eq_none.mp hx row hrow)
    | some row' =>
      have hnow' : row'.arrivalTime = n := by simpa using List.find?_some hx
      rw [key_injective hd (List.mem_of_find?_eq_some hx) hrow (hnow'.trans hnow.symm)]
  rw [arriveAt,hfind]

theorem arriveAt_none (h : ∀ row ∈ rows, row.arrivalTime ≠ n) (b : Board) (scheme : SchemeT) (cores : Nat) :
    arriveAt scheme cores rows n b = b := by
  have hfind : rows.find? (fun row => row.arrivalTime = (n : Int)) = none :=
    List.find?_eq_none.mpr (by simpa using h)
  rw [arriveAt,hfind]

theorem Recorded.arrival_unique (hr : Recorded rows m) (hd : DistinctTimes rows) {a b : SimulatorJobListT}
    (ha : a ∈ m.jobs) (hb : b ∈ m.jobs) (h : a.arrivalTime = b.arrivalTime) : a.jobId = b.jobId := by
  obtain ⟨x,hx,hcx⟩ := hr.origin a ha
  obtain ⟨y,hy,hcy⟩ := hr.origin b hb
  have hsame := loaded_arrival_unique hd hx hy (hcx.arrivalTime.trans (h.trans hcy.arrivalTime.symm))
  rw [← hcx.jobId,hsame,hcy.jobId]

theorem runs_iff (hr : Recorded rows m) (ht : Tracked o m) (hd : DistinctTimes rows) {loaded : SimulatorJobListT}
    (hl : loaded ∈ loadJobs 0 rows) : Runs m.lib.board.masked loaded.arrivalTime ↔
      ∃ job ∈ m.jobs, job.jobId = loaded.jobId ∧ job.coreId ≠ -1 := by
  constructor
  · rintro ⟨_,hj,hrun,harr⟩
    obtain ⟨k,hk,rfl⟩ := List.mem_map.mp hj
    obtain ⟨job,hjob,-,hid,hcore,-⟩ := ht.owes hk
    obtain ⟨loaded',hl',hid',harr',-⟩ := hr.record ht hk
    have hsame := loaded_arrival_unique hd hl' hl (harr'.trans harr)
    exact ⟨job,hjob,by rw [hid,← hid',hsame],hcore ▸ masked_running.mp hrun⟩
  · rintro ⟨job,hjob,hid,hcore⟩
    obtain ⟨k,hk,hkid,hkc,-⟩ := ht.record hjob (ht.arrived_of_seated hjob hcore)
    obtain ⟨loaded',hl',hid',harr',-⟩ := hr.record ht hk
    have hsame := loaded_unique hl' hl (hid'.trans (hkid.trans hid))
    refine ⟨k.masked,List.mem_map_of_mem hk,masked_running.mpr (show k.coreId ≠ -1 from hkc ▸ hcore),?_⟩
    exact harr'.symm.trans (congrArg _ hsame)

theorem finished_on_timeline {l r : List SimulatorJobListT} {job : SimulatorJobListT} {lib' : Lib} {ret : Int}
    (hs : Steady o m) (hpc : m.pc = .checkFinished l.length) (hj : m.jobs = l ++ job :: r) (hrun : job.runTime = 0)
    (hcore : job.coreId ≠ -1) (hserved : Served o m (.jobFinished job.coreId job.jobId m.time) lib' ret) :
    lib'.board.masked.settle m.time = m.lib.board.masked.settle m.time := by
  obtain ⟨ht,hp⟩ := hs
  rw [Phased,hpc] at hp
  refine finish_settles hserved.stepped hcore (fun k hk hid => ?_) (ht.waiting_owed hp.2.2)
  obtain ⟨job',hjob',-,hid',-,hleft⟩ := ht.owes hk
  have hsame : job' = job := key_injective ht.distinct hjob' (by simp [hj]) (hid'.trans hid)
  rw [← hleft,hsame,hrun]

theorem ran_on_timeline {clock : List Int} {diagram : List (List Char)} (hs : Steady o m) (hr : Recorded rows m)
    (hd : DistinctTimes rows) (h : OnTimeline line rows m n) (hpc : m.pc = .runTimeUnit) :
    OnTimeline line rows { m with
      jobs := m.jobs.map work, quantumClock := clock, coreTimingDiagram := diagram
      time := m.time + 1, pc := .checkFinished 0, log := m.log ++ executions m.time m.jobs } (n + 1) := by
  obtain ⟨ht,hp⟩ := hs
  have hpaced := h.paced
  simp only [Phased,hpc] at hp
  simp only [Paced,hpc] at hpaced
  refine ⟨by simp only [h.now]; rfl,by simp only [Paced,hpaced],fun loaded hl t => ?_,fun k hk => ?_⟩
  · have hruns := runs_iff hr ht hd hl
    rw [hpaced] at hruns
    have hold := h.ran loaded hl t
    rw [mem_ticks_ran _ _ ht.distinct,hold,← hruns,h.now]
    constructor
    · rintro (⟨k,hk,hkt,hkr⟩ | ⟨rfl,hrun⟩)
      · exact ⟨k,hk.trans (Nat.lt_succ_self n),hkt,hkr⟩
      · exact ⟨n,Nat.lt_succ_self n,rfl,hrun⟩
    · rintro ⟨k,hk,rfl,hkr⟩
      rcases Nat.lt_succ_iff_lt_or_eq.mp hk with hlt | rfl
      · exact .inl ⟨k,hlt,rfl,hkr⟩
      · exact .inr ⟨rfl,hkr⟩
  · rcases Nat.lt_succ_iff_lt_or_eq.mp hk with hlt | rfl
    · exact h.awake k hlt
    · obtain ⟨job,hjob⟩ := List.exists_mem_of_ne_nil _ hp.2.2
      by_cases ha : job.arrived = true
      · obtain ⟨j,hj,-⟩ := ht.record hjob ha
        rw [← hpaced]
        exact .inl (List.ne_nil_of_mem (List.mem_map_of_mem hj))
      · obtain ⟨loaded,hl,hc⟩ := hr.origin job hjob
        refine .inr ⟨loaded.row,loaded_row hl,?_⟩
        have hlate : ¬ job.arrivalTime ≤ m.time := fun hle => ha ((hp.1 job hjob).mpr hle)
        have hnow := h.now
        have harr := hc.arrivalTime
        simp only [SimulatorJobListT.row]
        omega

theorem move_on_timeline (hrr : o.scheme ≠ .rr) (hd : DistinctTimes rows) (hs : Steady o m) (hr : Recorded rows m)
    (hst : Stamped rows m) (h : OnTimeline (timeline o.scheme o.cores rows) rows m n) (hm : Move o m m') :
    ∃ n', OnTimeline (timeline o.scheme o.cores rows) rows m' n' := by
  have hnow := h.now
  have hpaced := h.paced
  have hp := hs.2
  have hself (hu : Unfinished m.jobs) : m.lib.board.masked.settle n = m.lib.board.masked :=
    hnow ▸ settle_self (hs.1.none_over hu)
  cases hm with
  | unfinished hpc =>
    simp only [Paced,hpc] at hpaced
    exact ⟨n,h.keep rfl (fun _ => rfl) hpaced⟩
  | finished hpc hj hrun _ hcore hserved =>
    have hsettled := finished_on_timeline hs hpc hj hrun hcore hserved
    simp only [Paced,hpc] at hpaced
    rw [hnow] at hsettled
    exact ⟨n,h.keep rfl (fun _ => ticks_called) (by simp only [Paced,hpc]; exact hsettled.trans hpaced)⟩
  | allFinished hpc hnil =>
    simp only [Paced,hpc] at hpaced
    rw [hself (by simp [Unfinished,hnil])] at hpaced
    exact ⟨n,h.keep rfl (fun _ => rfl) hpaced⟩
  | toQuantums hpc hlen =>
    simp only [Paced,hpc] at hpaced
    simp only [Phased,hpc,List.take_of_length_le hlen] at hp
    rw [hself hp.2.1] at hpaced
    exact ⟨n,h.keep rfl (fun _ => rfl) hpaced⟩
  | unexpired _ hscheme => exact absurd hscheme hrr
  | expired _ hscheme => exact absurd hscheme hrr
  | toArrivals hpc =>
    simp only [Paced,hpc] at hpaced
    exact ⟨n,h.keep rfl (fun _ => rfl) (.inl ⟨by simp,hpaced⟩)⟩
  | @elsewhen l r job hpc hj hne =>
    simp only [Paced,hpc,hj,List.take_left] at hpaced
    refine ⟨n,h.keep rfl (fun _ => rfl) ?_⟩
    simp only [Paced,hj,take_split]
    rcases hpaced with ⟨hnone,hb⟩ | ⟨⟨k,hk,harr⟩,hb⟩
    · exact .inl ⟨forall_mem_snoc hnone (hnow ▸ hne),hb⟩
    · exact .inr ⟨⟨k,List.mem_append_left _ hk,harr⟩,hb⟩
  | @arrived l r job lib' ret hpc hj htime harr hserved =>
    simp only [Paced,hpc,hj,List.take_left] at hpaced
    have hmem : job ∈ m.jobs := by simp [hj]
    have hrow := loaded_row (hst.pending hr hs.1 hmem harr)
    rcases hpaced with ⟨-,hb⟩ | ⟨⟨k,hk,hkarr⟩,-⟩
    · refine ⟨n,h.keep rfl (fun _ => ticks_called) (.inr ⟨⟨{ job with arrived := true, coreId := ret },?_,?_⟩,?_⟩)⟩
      · rw [← List.length_map (f := leave ret),take_split]
        simp
      · exact htime.trans hnow
      · have harrive := arrive_masked hserved.stepped hs.1.run.governed.sound
        rw [hnow,hb] at harrive
        rw [timeline,arriveAt_of_row hd hrow (htime.trans hnow)]
        exact harrive
    · have hsame := hr.arrival_unique hd (show k ∈ m.jobs by simp [hj,hk]) hmem (hkarr.trans (htime.trans hnow).symm)
      exact absurd hsame (key_ne_of_split (hj ▸ hs.1.distinct) k (List.mem_append_left r hk))
  | @toUnit i hpc hlen =>
    simp only [Paced,hpc,List.take_of_length_le hlen] at hpaced
    refine ⟨n,h.keep rfl (fun _ => rfl) ?_⟩
    rcases hpaced with ⟨hnone,hb⟩ | ⟨-,hb⟩
    · have hno : ∀ row ∈ rows, row.arrivalTime ≠ n := by
        intro row hrow hrownow
        rw [← loadJobs_rows 0 rows] at hrow
        obtain ⟨loaded,hl,rfl⟩ := List.mem_map.mp hrow
        rcases hr.census loaded hl with ⟨job,hjob,hid⟩ | ⟨t,hc⟩
        · obtain ⟨origin,ho,hco⟩ := hr.origin job hjob
          have hsame := loaded_unique ho hl (hco.jobId.trans hid)
          exact hnone job hjob (hco.arrivalTime.symm.trans (hsame ▸ hrownow))
        · have hlt := hc.arrived hr hl
          simp only [SimulatorJobListT.row] at hrownow
          omega
      simp only [Paced]
      rw [timeline,arriveAt_none hno,hb]
    · exact hb
  | ran diagram hpc => exact ⟨n + 1,ran_on_timeline hs hr hd h hpc⟩
  | stopped => exact ⟨n,h⟩

theorem visits_on_timeline (hrr : o.scheme ≠ .rr) (hone : 1 ≤ o.cores) (h : Runnable rows) (hd : DistinctTimes rows)
    (hv : Visits o rows m) : ∃ n, OnTimeline (timeline o.scheme o.cores rows) rows m n := by
  refine visits_induction hone h (Q := fun m => ∃ n, OnTimeline (timeline o.scheme o.cores rows) rows m n)
    ⟨0,start_on_timeline o rows⟩ ?_ hv
  rintro a b hva hs ⟨n,hn⟩ hm
  exact move_on_timeline hrr hd hs (visits_recorded hone h hva) (visits_stamped hone h hva) hn hm

end OperatingSystemLabs.Simulator

import OperatingSystemLabs.Foundation.FixedPriority
import OperatingSystemLabs.Simulator.DispatchOrder
import OperatingSystemLabs.Simulator.Leftover
import OperatingSystemLabs.Simulator.Lockstep

namespace OperatingSystemLabs.Simulator

open Scheduler Insertion Keyed Transition Service FixedPriority

def FixedScheme (scheme : SchemeT) : Prop := scheme = .fcfs ∨ scheme = .ppri

def rowRank (scheme : SchemeT) (row : Row) : Int ×ₗ Int :=
  toLex (if scheme = .ppri then row.priority else row.arrivalTime,row.arrivalTime)

def jobRank (scheme : SchemeT) (j : JobT) : Int ×ₗ Int := rowRank scheme ⟨j.arrivalTime,j.runTime,j.priority⟩

def PrioritiesFit (scheme : SchemeT) (rows : List Row) : Prop :=
  scheme = .ppri → ∀ a ∈ rows, ∀ b ∈ rows, Fits (a.priority - b.priority)

def Outranks (scheme : SchemeT) (log : List Event) (t : Int) (a b : SimulatorJobListT) : Prop :=
  0 < leftAt log t b ∧ rowRank scheme b.row < rowRank scheme a.row

instance (scheme : SchemeT) (log : List Event) (t : Int) (a : SimulatorJobListT) :
    DecidablePred (Outranks scheme log t a) := fun _ => inferInstanceAs (Decidable (_ ∧ _))

def TopServed (o : Options) (rows : List Row) (m : Machine) : Prop :=
  ∀ t < m.time, ∀ a ∈ loadJobs 0 rows, t ∈ ticks a.jobId m.log ↔
    0 < leftAt m.log t a ∧ ((loadJobs 0 rows).filter (Outranks o.scheme m.log t a ·)).length < o.cores

def twin (rows : List Row) (job : SimulatorJobListT) : SimulatorJobListT :=
  ((loadJobs 0 rows).find? (·.arrivalTime = job.arrivalTime)).getD job

def Lightens (rows rows' : List Row) : Prop :=
  ∀ row' ∈ rows', ∃ row ∈ rows, row.arrivalTime = row'.arrivalTime ∧ row.priority = row'.priority ∧
    row'.runTime ≤ row.runTime

variable {o : Options} {rows rows' : List Row} {m m' : Machine} {scheme : SchemeT} {loaded a b : SimulatorJobListT}
variable {call : Call} {bd bd' : Board} {ret : Int} {cores : Nat}

theorem FixedScheme.not_rr (h : FixedScheme scheme) : scheme ≠ .rr := by
  rcases h with rfl | rfl <;> simp

theorem rank_ranking (scheme : SchemeT) : Ranking (fun _ => jobRank scheme) where
  started _ _ _ _ _ _ := rfl
  preempting _ _ _ _ _ _ := rfl
  charged _ _ _ := rfl
  preempted _ _ _ := rfl
  woken _ _ _ _ _ _ := rfl

theorem rank_reads (h : FixedScheme scheme) {x y : JobT} (ha : Fits (x.arrivalTime - y.arrivalTime))
    (hp : scheme = .ppri → Fits (x.priority - y.priority)) : Reads scheme.compare (jobRank scheme) x y := by
  rcases h with rfl | rfl
  · change Reads fcfsCompare _ x y
    rw [fcfsCompare_arrival]
    exact compareBy_reads ha ha
  · exact priCompare_reads (hp rfl) ha

theorem step_leading_latest (hp : scheme.preemptive = false) (hrr : scheme ≠ .rr)
    (h : Step scheme cores call bd ret bd')
    (hs : Sound cores bd.jobs) (ha : call.Admissible scheme cores bd.jobs)
    (hlate : ∀ id t run pri, call = .newJob id t run pri → Latest scheme bd.jobs id t run pri)
    (hl : Leading bd.jobs) : Leading bd'.jobs := by
  cases h with
  | @startIdle b id t run pri _ l r hb hplaced h0 hc hidle _ =>
    obtain rfl := placed_last hplaced (fun y hy => (hlate _ _ _ _ rfl y (by simp [hb,hy])).1)
    have hrun := hs.running_of_idle h0 hc hidle
    rw [hb,List.append_nil] at hrun
    have hlead := leading_append (forall_mem_snoc hrun (show Running ((JobT.new id t run pri).started ret t) by
      simp only [Running,JobT.started]; omega)) (List.forall_mem_nil _)
    simpa using hlead
  | preempt hpre => rw [hp] at hpre; cases hpre
  | queueBehind hpre => rw [hp] at hpre; cases hpre
  | @queueUp b id t run pri l r _ hb hplaced _ =>
    obtain rfl := placed_last hplaced (fun y hy => (hlate _ _ _ _ rfl y (by simp [hb,hy])).1)
    rw [hb,List.append_nil] at hl
    exact List.pairwise_append.mpr ⟨hl,List.pairwise_singleton _ _,fun j _ k hk hr =>
      absurd hr (by rw [List.mem_singleton.mp hk]; exact fun h => h rfl)⟩
  | @finish b b' c id t ret l r f hb _ _ hw =>
    rw [hb] at hl
    exact wake_leading hw ha.1 (hl.sublist ((List.sublist_cons_self f r).append_left l))
  | expire => exact absurd ha.1 hrr
  | expireIdle => exact hl

theorem unfinished_record (scheme : SchemeT) (hst : Stamped rows m) (hr : Recorded rows m) (hs : Steady o m)
    (hpc : m.pc = .runTimeUnit) (hl : loaded ∈ loadJobs 0 rows) : 0 < leftAt m.log m.time loaded ↔
      ∃ k ∈ m.lib.jobs, k.jobId = loaded.jobId ∧ jobRank scheme k = rowRank scheme loaded.row := by
  have hrank {k : JobT} (hk : k ∈ m.lib.jobs) (hid : k.jobId = loaded.jobId) :
      jobRank scheme k = rowRank scheme loaded.row := by
    obtain ⟨origin,ho,hoid,harr,-,hpri⟩ := hst.record hr hs.1 hk
    obtain rfl := loaded_unique ho hl (hoid.trans hid)
    simp [jobRank,rowRank,SimulatorJobListT.row,harr,hpri]
  rw [unfinished_queued hr hs hpc hl]
  constructor
  · rintro ⟨job,hj,hid,ha⟩
    obtain ⟨k,hk,hkid,-⟩ := hs.1.record hj ha
    exact ⟨k,hk,hkid.trans hid,hrank hk (hkid.trans hid)⟩
  · rintro ⟨k,hk,hkid,-⟩
    obtain ⟨job,hj,ha,hid,-⟩ := hs.1.owes hk
    exact ⟨job,hj,hid.trans hkid,ha⟩

theorem outranking_count (hst : Stamped rows m) (hr : Recorded rows m) (hs : Steady o m) (hpc : m.pc = .runTimeUnit)
    {k : JobT} (hrank : jobRank scheme k = rowRank scheme a.row) :
    ((loadJobs 0 rows).filter (Outranks scheme m.log m.time a ·)).length =
      (m.lib.jobs.filter (jobRank scheme · < jobRank scheme k)).length := by
  have hperm : (((loadJobs 0 rows).filter (Outranks scheme m.log m.time a ·)).map (·.jobId)).Perm
      ((m.lib.jobs.filter (jobRank scheme · < jobRank scheme k)).map (·.jobId)) := by
    refine (List.perm_ext_iff_of_nodup ?_ ?_).mpr (fun id => ?_)
    · exact (loadJobs_distinct 0 rows).sublist (List.filter_sublist.map _)
    · exact hs.1.run.governed.sound.distinct.sublist (List.filter_sublist.map _)
    simp only [List.mem_map,List.mem_filter,decide_eq_true_eq,hrank]
    constructor
    · rintro ⟨b,⟨hb,hleft,hlt⟩,rfl⟩
      obtain ⟨kb,hkb,hid,hkrank⟩ := (unfinished_record scheme hst hr hs hpc hb).mp hleft
      exact ⟨kb,⟨hkb,hkrank ▸ hlt⟩,hid⟩
    · rintro ⟨kb,⟨hkb,hlt⟩,rfl⟩
      obtain ⟨b,hb,hid,harr,-,hpri⟩ := hst.record hr hs.1 hkb
      have hkrank : jobRank scheme kb = rowRank scheme b.row := by
        simp [jobRank,rowRank,SimulatorJobListT.row,harr,hpri]
      exact ⟨b,⟨hb,(unfinished_record scheme hst hr hs hpc hb).mpr ⟨kb,hkb,hid.symm,hkrank⟩,hkrank ▸ hlt⟩,hid⟩
  simpa using hperm.length_eq

theorem queued_strict (hst : Stamped rows m) (hr : Recorded rows m) (hs : Steady o m) (hd : DistinctTimes rows)
    (hsort : Sorted (jobRank scheme) m.lib.jobs) :
    m.lib.jobs.Pairwise (fun a b => jobRank scheme a < jobRank scheme b) := by
  have hids := List.pairwise_map.mp hs.1.run.governed.sound.distinct
  refine (hsort.and hids).imp_of_mem (fun {x y} hx hy hxy => hxy.1.lt_of_ne fun heq => hxy.2 ?_)
  obtain ⟨a,ha,haid,haarr,-⟩ := hst.record hr hs.1 hx
  obtain ⟨b,hb,hbid,hbarr,-⟩ := hst.record hr hs.1 hy
  have htime : x.arrivalTime = y.arrivalTime := congrArg (fun r => (ofLex r).2) heq
  rw [← haid,← hbid,loaded_arrival_unique hd ha hb (by rw [haarr,hbarr,htime])]

theorem ran_top (hst : Stamped rows m) (hr : Recorded rows m) (hs : Steady o m) (hpc : m.pc = .runTimeUnit)
    (hd : DistinctTimes rows) (hsort : Sorted (jobRank scheme) m.lib.jobs) (hlead : Leading m.lib.jobs)
    (ha : a ∈ loadJobs 0 rows) : (∃ job ∈ m.jobs, job.jobId = a.jobId ∧ job.coreId ≠ -1) ↔
      0 < leftAt m.log m.time a ∧
        ((loadJobs 0 rows).filter (Outranks scheme m.log m.time a ·)).length < o.cores := by
  have hrun {k : JobT} (hk : k ∈ m.lib.jobs) (hrank : jobRank scheme k = rowRank scheme a.row) :
      Running k ↔ ((loadJobs 0 rows).filter (Outranks scheme m.log m.time a ·)).length < o.cores := by
    rw [running_iff_rank (fun _ => jobRank scheme) m.time hs.1.run.governed.sound hlead
      (queued_strict hst hr hs hd hsort) hk,outranking_count hst hr hs hpc hrank]
    have hlt : (m.lib.jobs.filter (jobRank scheme · < jobRank scheme k)).length < m.lib.jobs.length :=
      List.length_filter_lt_length_iff_exists.mpr ⟨k,hk,by simp⟩
    omega
  constructor
  · rintro ⟨job,hj,hid,hc⟩
    have harr := hs.1.arrived_of_seated hj hc
    have hleft := (unfinished_queued hr hs hpc ha).mpr ⟨job,hj,hid,harr⟩
    obtain ⟨k,hk,hkid,hrank⟩ := (unfinished_record scheme hst hr hs hpc ha).mp hleft
    obtain ⟨k',hk',hkid',hcore,-⟩ := hs.1.record hj harr
    obtain rfl := hs.1.run.governed.sound.job_injective hk hk' (by rw [hkid,hkid',hid])
    exact ⟨hleft,(hrun hk hrank).mp (by rw [Running,hcore]; exact hc)⟩
  · rintro ⟨hleft,hcount⟩
    obtain ⟨k,hk,hkid,hrank⟩ := (unfinished_record scheme hst hr hs hpc ha).mp hleft
    obtain ⟨job,hj,-,hid,hcore,-⟩ := hs.1.owes hk
    exact ⟨job,hj,hid.trans hkid,hcore ▸ (hrun hk hrank).mpr hcount⟩

section Rows

variable (hscheme : FixedScheme o.scheme) (hone : 1 ≤ o.cores) (h : Runnable rows) (hd : DistinctTimes rows)
variable (hsized : IntSized rows) (hfit : PrioritiesFit o.scheme rows)

include hscheme hone h hd hsized hfit

omit hd in
theorem arrival_reads (hv : Visits o rows m) (hs : Steady o m) {job : SimulatorJobListT} (hj : job ∈ m.jobs)
    (ha : job.arrived = false) {k k' : JobT} (hk : k ∈ m.lib.jobs) (harrival : k'.arrivalTime = k.arrivalTime)
    (hpriority : k'.priority = k.priority) :
    Reads o.scheme.compare (jobRank o.scheme) (JobT.new job.jobId job.arrivalTime job.runTime job.priority) k' := by
  have hr := visits_recorded hone h hv
  have hst := visits_stamped hone h hv
  obtain ⟨loaded,hl,-,harr,-,hpri⟩ := hst.record hr hs.1 hk
  have hnew := loaded_row (hst.pending hr hs.1 hj ha)
  have hold := loaded_row hl
  refine rank_reads hscheme ?_ (fun hp => ?_)
  · have hbound := (hsized _ hnew).1
    have hbound' := (hsized _ hold).1
    have hpos := (h _ hnew).2
    have hpos' := (h _ hold).2
    simp only [SimulatorJobListT.row] at hbound hbound' hpos hpos'
    simp only [JobT.new,Fits]
    omega
  · have := hfit hp _ hnew _ hold
    simpa only [SimulatorJobListT.row,hpri,hpriority,JobT.new] using this

theorem visits_ranked : ∀ m, Visits o rows m → Sorted (jobRank o.scheme) m.lib.jobs ∧ Leading m.lib.jobs := by
  intro m hv
  refine visits_induction hone h (Q := fun m => Sorted (jobRank o.scheme) m.lib.jobs ∧ Leading m.lib.jobs)
    ⟨.nil,.nil⟩ ?_ hv
  intro m m' hv hs hq hm
  obtain ⟨hsort,hlead⟩ := hq
  have hg := hs.1.run.governed
  have hserve {call : Call} {lib' : Lib} {ret : Int} (hserved : Served o m call lib' ret)
      (hreads : ∀ id t run pri, call = .newJob id t run pri →
        ∀ j ∈ m.lib.jobs, ∀ j', j'.arrivalTime = j.arrivalTime → j'.priority = j.priority →
          Reads o.scheme.compare (jobRank o.scheme) (JobT.new id t run pri) j')
      (hlate : ∀ id t run pri, o.scheme = .fcfs → call = .newJob id t run pri →
        Latest o.scheme m.lib.jobs id t run pri) :
      Sorted (jobRank o.scheme) lib'.jobs ∧ Leading lib'.jobs := by
    have hadm := hg.admissible hserved.legal
    by_cases hp : o.scheme.preemptive = true
    · refine ⟨step_sorted (rank_ranking o.scheme) hp hserved.stepped hadm ?_ hsort,
        step_leading hp hserved.stepped hg.sound hadm hlead⟩
      cases call with
      | newJob id t run pri =>
        refine ⟨fun _ j hj => hreads id t run pri rfl j hj j rfl rfl,fun _ j hj => hreads id t run pri rfl j hj _ ?_ ?_⟩
        · split <;> rfl
        · split <;> rfl
      | jobFinished => trivial
      | quantumExpired => trivial
    · have hfcfs : o.scheme = .fcfs := hscheme.resolve_right (fun hppri => hp (by rw [hppri]; rfl))
      have hnp : o.scheme.preemptive = false := by simpa using hp
      exact ⟨step_sorted_waiting (rank_ranking o.scheme) hnp hscheme.not_rr hserved.stepped hadm
          (fun id t run pri hcall j hj => hreads id t run pri hcall j hj j rfl rfl) hsort,
        step_leading_latest hnp hscheme.not_rr hserved.stepped hg.sound hadm
          (fun id t run pri hcall => hlate id t run pri hfcfs hcall) hlead⟩
  cases hm with
  | finished _ _ _ _ _ hserved => exact hserve hserved nofun nofun
  | expired _ hexpire => exact absurd hexpire hscheme.not_rr
  | @arrived l r job lib' ret hpc hj hnow ha hserved =>
    refine hserve hserved ?_ ?_
    · intro id t run pri hcall k hk k' harr hpri
      obtain ⟨rfl,rfl,rfl,rfl⟩ := (Call.newJob.injEq ..).mp hcall
      exact hnow ▸ arrival_reads hscheme hone h hsized hfit hv hs (by simp [hj]) ha hk harr hpri
    · intro id t run pri hfcfs hcall
      obtain ⟨rfl,rfl,rfl,rfl⟩ := (Call.newJob.injEq ..).mp hcall
      exact visits_orderly hone h hd hsized (by rw [hfcfs]; trivial) hv job (by simp [hj]) ha hnow
  | _ => exact ⟨hsort,hlead⟩

theorem visits_top_served (hv : Visits o rows m) : TopServed o rows m := by
  refine visits_induction hone h (Q := TopServed o rows) ?_ ?_ hv
  · intro t ht a ha
    obtain ⟨-,-,-,row,hrow,harr,-⟩ := mem_loadJobs ha
    have hzero := (h row hrow).2
    have hneg : t < 0 := ht
    simp [ticks,times,start,leftAt,show ¬ a.arrivalTime ≤ t by omega]
  intro m m' hv hs htop hm
  have hkeep (htime : m'.time = m.time) (hlog : ∀ id, ticks id m'.log = ticks id m.log) : TopServed o rows m' := by
    have hout (t : Int) (a b : SimulatorJobListT) :
        Outranks o.scheme m'.log t a b ↔ Outranks o.scheme m.log t a b := by
      simp only [Outranks,leftAt,hlog]
    simpa only [TopServed,leftAt,hout,htime,hlog] using htop
  cases hm with
  | finished => exact hkeep rfl (fun _ => ticks_called)
  | expired => exact hkeep rfl (fun _ => ticks_called)
  | arrived => exact hkeep rfl (fun _ => ticks_called)
  | ran _ hpc =>
    have hids := hs.1.distinct
    have hr := visits_recorded hone h hv
    obtain ⟨hsort,hlead⟩ := visits_ranked hscheme hone h hd hsized hfit m hv
    intro t ht a ha
    have hle := Int.lt_add_one_iff.mp ht
    have hout (b : SimulatorJobListT) : Outranks o.scheme (m.log ++ executions m.time m.jobs) t a b ↔
        Outranks o.scheme m.log t a b := by
      simp only [Outranks,leftAt_ran m.log hids hle]
    simp only [mem_ticks_ran m.log m.time hids,leftAt_ran m.log hids hle,hout]
    rcases hle.lt_or_eq with hbefore | rfl
    · rw [← htop t hbefore a ha]
      exact or_iff_left (fun hnow => hbefore.ne hnow.1)
    · rw [← ran_top (visits_stamped hone h hv) hr hs hpc hd hsort hlead ha]
      constructor
      · rintro (hpast | ⟨-,hrun⟩)
        · exact absurd (hr.past _ _ hpast) (lt_irrefl _)
        · exact hrun
      · exact fun hrun => .inr ⟨rfl,hrun⟩
  | _ => exact hkeep rfl (fun _ => rfl)

theorem ends_top_served (he : Ends o rows m) : Ranked (loadJobs 0 rows).toFinset (fun a => rowRank o.scheme a.row)
    o.cores releaseOf workOf (executes m.log) := by
  intro n a ha
  have hr := visits_recorded hone h he.1
  have hc := ends_concluded hone h he
  have hloaded := List.mem_toFinset.mp ha
  have hleft (job : SimulatorJobListT) (hj : job ∈ loadJobs 0 rows) : 0 < leftOver m.log n job ↔
      0 < leftAt m.log n job := by
    rw [← leftOver_eq_leftAt h hr hj (hc job hj).runTime.ge]
    exact Int.natCast_pos.symm
  by_cases hlate : m.time ≤ n
  · have hover : ¬ 0 < leftOver m.log n a := by
      rw [hleft a hloaded,(hc a hloaded).unfinished_iff hr]
      have := hr.past a.jobId _ (List.mem_of_getLast? (hc a hloaded).latest)
      omega
    exact ⟨fun hmem => absurd (hr.past _ _ hmem) (by omega),fun hmem => absurd hmem.1 hover⟩
  · have htop := visits_top_served hscheme hone h hd hsized hfit he.1 n (by omega) a hloaded
    have hcount : ((alive (loadJobs 0 rows).toFinset (leftOver m.log n)).filter
        (fun b => rowRank o.scheme b.row < rowRank o.scheme a.row)).card =
          ((loadJobs 0 rows).filter (Outranks o.scheme m.log n a ·)).length := by
      rw [← List.toFinset_card_of_nodup (((loadJobs_distinct 0 rows).of_map _).filter _)]
      congr 1
      ext b
      simp only [Finset.mem_filter,mem_alive,List.mem_toFinset,List.mem_filter,decide_eq_true_eq]
      constructor
      · rintro ⟨⟨hb,hpos⟩,hlt⟩
        exact ⟨hb,(hleft b hb).mp hpos,hlt⟩
      · rintro ⟨hb,hpos,hlt⟩
        exact ⟨⟨hb,(hleft b hb).mpr hpos⟩,hlt⟩
    change executes m.log n a ↔ 0 < leftOver m.log n a ∧ _ < _
    rw [hleft a hloaded]
    change _ ↔ _ ∧ ((alive (loadJobs 0 rows).toFinset (leftOver m.log n)).filter _).card < _
    rw [hcount]
    exact htop

end Rows

theorem twin_eq (hd : DistinctTimes rows) (ha : a ∈ loadJobs 0 rows) (harr : a.arrivalTime = b.arrivalTime) :
    twin rows b = a := by
  rw [twin]
  cases hfind : (loadJobs 0 rows).find? (·.arrivalTime = b.arrivalTime) with
  | none => exact absurd harr (by simpa using List.find?_eq_none.mp hfind a ha)
  | some c =>
    have hc : c.arrivalTime = b.arrivalTime := by simpa using List.find?_some hfind
    exact loaded_arrival_unique hd (List.mem_of_find?_eq_some hfind) ha (hc.trans harr.symm)

theorem Lightens.twin (hless : Lightens rows rows') (hd : DistinctTimes rows) (hb : b ∈ loadJobs 0 rows') :
    twin rows b ∈ loadJobs 0 rows ∧ (twin rows b).arrivalTime = b.arrivalTime ∧
      (twin rows b).priority = b.priority ∧ b.runTime ≤ (twin rows b).runTime := by
  obtain ⟨row,hrow,harr,hpri,hrun⟩ := hless b.row (loaded_row hb)
  rw [← loadJobs_rows 0 rows] at hrow
  obtain ⟨a,ha,rfl⟩ := List.mem_map.mp hrow
  rw [twin_eq hd ha harr]
  exact ⟨ha,harr,hpri,hrun⟩

theorem Lightens.embeds (hless : Lightens rows rows') (hd : DistinctTimes rows) (hd' : DistinctTimes rows')
    (scheme : SchemeT) : Embeds (loadJobs 0 rows).toFinset (fun a => rowRank scheme a.row) releaseOf
      (loadJobs 0 rows').toFinset (fun a => rowRank scheme a.row) releaseOf (Simulator.twin rows) where
  maps b hb := List.mem_toFinset.mpr (hless.twin hd (List.mem_toFinset.mp hb)).1
  injective b hb c hc heq := by
    have hb' := List.mem_toFinset.mp hb
    have hc' := List.mem_toFinset.mp hc
    have harr := (hless.twin hd hb').2.1
    rw [heq,(hless.twin hd hc').2.1] at harr
    exact loaded_arrival_unique hd' hb' hc' harr.symm
  key b hb := by
    obtain ⟨-,harr,hpri,-⟩ := hless.twin hd (List.mem_toFinset.mp hb)
    simp [rowRank,SimulatorJobListT.row,harr,hpri]
  release b hb := by rw [releaseOf,(hless.twin hd (List.mem_toFinset.mp hb)).2.1,releaseOf]

theorem Lightens.sized (hless : Lightens rows rows') (hsized : IntSized rows) : IntSized rows' := by
  intro row' hrow'
  obtain ⟨row,hrow,harr,-,hrun⟩ := hless row' hrow'
  have := hsized row hrow
  omega

theorem Lightens.priorities (hless : Lightens rows rows') (hfit : PrioritiesFit scheme rows) :
    PrioritiesFit scheme rows' := by
  intro hp x hx y hy
  obtain ⟨x',hx',-,hxpri,-⟩ := hless x hx
  obtain ⟨y',hy',-,hypri,-⟩ := hless y hy
  rw [← hxpri,← hypri]
  exact hfit hp x' hx' y' hy'

theorem no_scheduling_anomalies {cores' : Nat} (hscheme : FixedScheme scheme) (hone : 1 ≤ cores)
    (hcores : cores ≤ cores') (h : Runnable rows) (h' : Runnable rows') (hd : DistinctTimes rows)
    (hd' : DistinctTimes rows') (hsized : IntSized rows) (hfit : PrioritiesFit scheme rows)
    (hless : Lightens rows rows') (quantum quantum' : Int) :
    (∃ m, Ends ⟨cores,scheme,quantum⟩ rows m) ∧ (∃ m', Ends ⟨cores',scheme,quantum'⟩ rows' m') ∧
    ∀ m m', Ends ⟨cores,scheme,quantum⟩ rows m → Ends ⟨cores',scheme,quantum'⟩ rows' m' →
      ∀ a ∈ loadJobs 0 rows, ∀ b ∈ loadJobs 0 rows', a.arrivalTime = b.arrivalTime →
        completion b.jobId m'.log ≤ completion a.jobId m.log := by
  have hone' : 1 ≤ cores' := hone.trans hcores
  refine ⟨simulator_ends hone h,simulator_ends hone' h',fun m m' he he' a ha b hb harr => ?_⟩
  have htop := ends_top_served hscheme hone h hd hsized hfit he
  have htop' := ends_top_served hscheme hone' h' hd' (hless.sized hsized) (hless.priorities hfit) he'
  have hbehind := ranked_monotone htop htop' (hless.embeds hd hd' scheme) hcores (fun c hc => by
    have := (hless.twin hd (List.mem_toFinset.mp hc)).2.2.2
    simp only [workOf]
    omega)
  have hr' := visits_recorded hone' h' he'.1
  have hlast := List.mem_of_getLast? (ends_concluded hone' h' he' b hb).latest
  have hbegun := hr'.begun b hb _ hlast
  obtain ⟨-,-,-,row,hrow,hrowarr,-⟩ := mem_loadJobs hb
  have hzero := (h' row hrow).2
  obtain ⟨n,hn⟩ := Int.eq_ofNat_of_zero_le (show 0 ≤ completion b.jobId m'.log - 1 by omega)
  have hlate : b ∈ alive (loadJobs 0 rows').toFinset (leftOver m'.log n) :=
    (ends_alive hone' h' he').mpr ⟨hb,by omega,by omega⟩
  have hstill : a ∈ alive (loadJobs 0 rows).toFinset (leftOver m.log n) := by
    have hle := hbehind n b (List.mem_toFinset.mpr hb)
    rw [twin_eq hd ha harr] at hle
    exact mem_alive.mpr ⟨List.mem_toFinset.mpr ha,(mem_alive.mp hlate).2.trans_le hle⟩
  have := ((ends_alive hone h he).mp hstill).2.2
  omega

theorem no_scheduling_anomalies_lighter : ∃ m m', Ends ⟨1,.ppri,0⟩ [⟨0,5,2⟩,⟨1,4,1⟩,⟨2,3,0⟩] m ∧
    Ends ⟨2,.ppri,0⟩ [⟨2,3,0⟩,⟨0,4,2⟩] m' ∧ completion 1 m'.log ≤ completion 0 m.log := by
  obtain ⟨⟨m,hm⟩,⟨m',hm'⟩,hall⟩ := no_scheduling_anomalies (.inr rfl) (le_refl 1) (by decide : 1 ≤ 2)
    (show Runnable [⟨0,5,2⟩,⟨1,4,1⟩,⟨2,3,0⟩] by simp [Runnable]) (show Runnable [⟨2,3,0⟩,⟨0,4,2⟩] by simp [Runnable])
    (by simp [DistinctTimes]) (by simp [DistinctTimes]) (by simp [IntSized]) (by simp [PrioritiesFit,Fits])
    (by simp [Lightens]) 0 0
  exact ⟨m,m',hm,hm',hall m m' hm hm' ⟨0,0,5,2,-1,false⟩ (by decide) ⟨1,0,4,2,-1,false⟩ (by decide) rfl⟩

theorem executes_ext (hone : 1 ≤ o.cores) {o' : Options} (hone' : 1 ≤ o'.cores) (h : Runnable rows)
    (h' : Runnable rows') (he : Ends o rows m) (he' : Ends o' rows' m') (ha : a ∈ loadJobs 0 rows)
    (hb : b ∈ loadJobs 0 rows') (hsame : ∀ n : ℕ, executes m'.log n b ↔ executes m.log n a) :
    ticks b.jobId m'.log = ticks a.jobId m.log := by
  have hr := visits_recorded hone h he.1
  have hr' := visits_recorded hone' h' he'.1
  have hnat {rows : List Row} {m : Machine} (h : Runnable rows) (hr : Recorded rows m) {a : SimulatorJobListT}
      (ha : a ∈ loadJobs 0 rows) {t : Int} (ht : t ∈ ticks a.jobId m.log) : ∃ n : ℕ, t = n := by
    obtain ⟨-,-,-,row,hrow,hrowarr,-⟩ := mem_loadJobs ha
    have hzero := (h row hrow).2
    have := hr.begun a ha t ht
    exact Int.eq_ofNat_of_zero_le (by omega)
  refine (hr'.ordered b.jobId).eq_of_mem_iff (hr.ordered a.jobId) (fun t => ⟨fun ht => ?_,fun ht => ?_⟩)
  · obtain ⟨n,rfl⟩ := hnat h' hr' hb ht
    exact (hsame n).mp ht
  · obtain ⟨n,rfl⟩ := hnat h hr ha ht
    exact (hsame n).mpr ht

theorem Concluded.same_completion {t t' : Int} (hc : Concluded m.log a t) (hc' : Concluded m'.log b t')
    (hticks : ticks b.jobId m'.log = ticks a.jobId m.log) :
    completions b.jobId m'.log = completions a.jobId m.log := by
  have hlast := hc'.latest
  rw [hticks,hc.latest] at hlast
  have := Option.some.inj hlast
  rw [hc.completed,hc'.completed,show t' = t by omega]

theorem filter_twin {p : Row → Bool} (hd : DistinctTimes rows) (hb : b ∈ loadJobs 0 (rows.filter p)) :
    p b.row = true ∧ (twin rows b).row = b.row := by
  obtain ⟨hrow,hp⟩ := List.mem_filter.mp (loaded_row hb)
  rw [← loadJobs_rows 0 rows] at hrow
  obtain ⟨a,ha,heq⟩ := List.mem_map.mp hrow
  rw [twin_eq hd ha (congrArg Row.arrivalTime heq)]
  exact ⟨hp,heq⟩

theorem outranked_rows_invisible (hscheme : FixedScheme scheme) (hone : 1 ≤ cores) (h : Runnable rows)
    (hd : DistinctTimes rows) (hsized : IntSized rows) (hfit : PrioritiesFit scheme rows) (p : Row → Bool)
    (hbest : ∀ x ∈ rows, ∀ y ∈ rows, p x = true → rowRank scheme y < rowRank scheme x → p y = true)
    (quantum quantum' : Int) : (∃ m, Ends ⟨cores,scheme,quantum⟩ rows m) ∧
    (∃ m', Ends ⟨cores,scheme,quantum'⟩ (rows.filter p) m') ∧
    ∀ m m', Ends ⟨cores,scheme,quantum⟩ rows m → Ends ⟨cores,scheme,quantum'⟩ (rows.filter p) m' →
      ∀ a ∈ loadJobs 0 rows, ∀ b ∈ loadJobs 0 (rows.filter p), a.arrivalTime = b.arrivalTime →
        ticks b.jobId m'.log = ticks a.jobId m.log ∧ completions b.jobId m'.log = completions a.jobId m.log := by
  have h' : Runnable (rows.filter p) := fun row hrow => h row (List.mem_filter.mp hrow).1
  have hd' : DistinctTimes (rows.filter p) := hd.sublist (List.filter_sublist.map _)
  have hless : Lightens rows (rows.filter p) :=
    fun row hrow => ⟨row,(List.mem_filter.mp hrow).1,rfl,rfl,le_rfl⟩
  refine ⟨simulator_ends hone h,simulator_ends hone h',fun m m' he he' a ha b hb harr => ?_⟩
  have htop := ends_top_served hscheme hone h hd hsized hfit he
  have htop' := ends_top_served hscheme hone h' hd' (hless.sized hsized) (hless.priorities hfit) he'
  have hsame := ranked_isolated htop htop' (hless.embeds hd hd' scheme) (fun c hc => ?_) (fun c hc k hk hlt => ?_)
  rotate_left
  · exact congrArg (fun row => row.runTime.toNat) (filter_twin hd (List.mem_toFinset.mp hc)).2.symm
  · obtain ⟨hp,heq⟩ := filter_twin hd (List.mem_toFinset.mp hc)
    have hkl := List.mem_toFinset.mp hk
    have hcrow := (List.mem_filter.mp (loaded_row (List.mem_toFinset.mp hc))).1
    have hpk := hbest c.row hcrow k.row (loaded_row hkl) hp (heq ▸ hlt)
    have hkept : k.row ∈ rows.filter p := List.mem_filter.mpr ⟨loaded_row hkl,hpk⟩
    rw [← loadJobs_rows 0 (rows.filter p)] at hkept
    obtain ⟨k',hk',hkrow⟩ := List.mem_map.mp hkept
    exact ⟨k',List.mem_toFinset.mpr hk',twin_eq hd hkl (congrArg Row.arrivalTime hkrow.symm)⟩
  have hticks := executes_ext hone hone h h' he he' ha hb (fun n => by
    have hexec := (hsame n b (List.mem_toFinset.mpr hb)).2
    rwa [twin_eq hd ha harr] at hexec)
  exact ⟨hticks,(ends_concluded hone h he a ha).same_completion (ends_concluded hone h' he' b hb) hticks⟩

theorem outranked_rows_invisible_late : ∃ m m', Ends ⟨2,.ppri,0⟩ [⟨0,5,2⟩,⟨1,4,1⟩,⟨2,3,0⟩,⟨3,9,7⟩] m ∧
    Ends ⟨2,.ppri,0⟩ [⟨0,5,2⟩,⟨1,4,1⟩,⟨2,3,0⟩] m' ∧ ticks 0 m'.log = ticks 0 m.log := by
  obtain ⟨⟨m,hm⟩,⟨m',hm'⟩,hall⟩ := outranked_rows_invisible (.inr rfl) (show 1 ≤ 2 by decide)
    (show Runnable [⟨0,5,2⟩,⟨1,4,1⟩,⟨2,3,0⟩,⟨3,9,7⟩] by simp [Runnable]) (by simp [DistinctTimes]) (by simp [IntSized])
    (by simp [PrioritiesFit,Fits]) (fun row => decide (row.priority ≤ 2))
    (by simp [rowRank,Prod.Lex.toLex_le_toLex]) 0 0
  exact ⟨m,m',hm,hm',(hall m m' hm hm' ⟨0,0,5,2,-1,false⟩ (by decide) ⟨0,0,5,2,-1,false⟩ (by decide) rfl).1⟩

end OperatingSystemLabs.Simulator

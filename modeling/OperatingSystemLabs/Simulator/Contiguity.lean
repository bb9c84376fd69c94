import OperatingSystemLabs.Simulator.Response

namespace OperatingSystemLabs.Simulator

open Scheduler Keyed Transition

def stretch (t : Int) (n : Nat) (id core : Int) : List Slot :=
  (List.range n).map (fun i : Nat => ⟨t + i,id,core⟩)

structure Unbroken (log : List Event) (time : Int) (job : SimulatorJobListT) : Prop where
  waiting : job.coreId = -1 →
    slotsOf Event.dispatch? job.jobId log = [] ∧ slotsOf Event.execution? job.jobId log = []
  running : job.coreId ≠ -1 → ∃ (t : Int) (n : Nat), t + n = time ∧
    slotsOf Event.dispatch? job.jobId log = [⟨t,job.jobId,job.coreId⟩] ∧
    slotsOf Event.execution? job.jobId log = stretch t n job.jobId job.coreId

def InOnePiece (log : List Event) (loaded : SimulatorJobListT) : Prop :=
  ∃ t core, slotsOf Event.dispatch? loaded.jobId log = [⟨t,loaded.jobId,core⟩] ∧
    slotsOf Event.execution? loaded.jobId log = stretch t loaded.runTime.toNat loaded.jobId core ∧
    slotsOf Event.completion? loaded.jobId log = [⟨t + loaded.runTime,loaded.jobId,core⟩]

structure Uninterrupted (rows : List Row) (m : Machine) : Prop where
  alive : ∀ job ∈ m.jobs, Unbroken m.log m.time job
  gone : ∀ loaded ∈ loadJobs 0 rows,
    (∃ job ∈ m.jobs, job.jobId = loaded.jobId) ∨ InOnePiece m.log loaded

def Settled (call : Call) (ret : Int) (k k' : SimulatorJobListT) : Prop :=
  k'.jobId = k.jobId ∧
    ((Dispatched call ret k.jobId ∧ k.coreId = -1 ∧ k'.coreId = call.seat ret ∧ call.seat ret ≠ -1) ∨
      (¬ Dispatched call ret k.jobId ∧ k'.coreId = k.coreId))

variable {o : Options} {rows : List Row} {m m' : Machine} {call : Call} {ret time : Int} {lib' : Lib}
variable {log : List Event} {jobs l r r' : List SimulatorJobListT} {loaded job k k' : SimulatorJobListT}

theorem stretch_succ (t : Int) (n : Nat) (id core : Int) :
    stretch t (n + 1) id core = stretch t n id core ++ [⟨t + n,id,core⟩] := by
  rw [stretch,List.range_succ,List.map_append]
  rfl

theorem Unbroken.settle (h : Unbroken log time k) (hid : k.jobId ≠ -1) (hnow : call.time = time)
    (hk : Settled call ret k k') : Unbroken (log ++ [.called call ret]) time k' := by
  obtain ⟨hkid,⟨hd,hidle,hseat,hne⟩ | ⟨hd,hsame⟩⟩ := hk
  · refine ⟨fun hc => absurd (hseat.symm.trans hc) hne,fun _ => ⟨time,0,Int.add_zero time,?_,?_⟩⟩
    · rw [hkid,slots_dispatched log hid hd,(h.waiting hidle).1,hnow,hseat]
      rfl
    · rw [hkid,executed_called,(h.waiting hidle).2]
      rfl
  · refine ⟨fun hc => ?_,fun hc => ?_⟩
    · rw [hkid,slots_undispatched log hd,executed_called]
      exact h.waiting (hsame.symm.trans hc)
    · rw [hkid,hsame,slots_undispatched log hd,executed_called]
      exact h.running (hsame ▸ hc)

theorem InOnePiece.called (h : InOnePiece log loaded) (hd : ¬ Dispatched call ret loaded.jobId)
    (hf : ∀ core t, call ≠ .jobFinished core loaded.jobId t) :
    InOnePiece (log ++ [.called call ret]) loaded := by
  obtain ⟨t,core,hdispatch,hexec,hdone⟩ := h
  exact ⟨t,core,(slots_undispatched log hd).trans hdispatch,executed_called.trans hexec,
    (completed_called hf).trans hdone⟩

theorem Unbroken.ran (h : Unbroken m.log m.time job) (hd : (m.jobs.map (·.jobId)).Nodup) (hj : job ∈ m.jobs) :
    Unbroken (m.log ++ executions m.time m.jobs) (m.time + 1) (work job) := by
  obtain ⟨hid,-,-,hcore⟩ := work_carries job
  have hdispatch : slotsOf Event.dispatch? job.jobId (m.log ++ executions m.time m.jobs) =
      slotsOf Event.dispatch? job.jobId m.log := slotsOf_executions (fun _ _ _ => rfl)
  refine ⟨fun hc => ?_,fun hc => ?_⟩
  · rw [hcore] at hc
    have hidle : slotsOf Event.execution? job.jobId (m.log ++ executions m.time m.jobs) =
        slotsOf Event.execution? job.jobId m.log := by
      refine executed_ran_idle (fun k hk hkid => ?_)
      rwa [key_injective hd hk hj hkid]
    rw [hid,hdispatch,hidle]
    exact h.waiting hc
  · rw [hcore] at hc
    obtain ⟨t,n,htime,hseat,hexec⟩ := h.running hc
    refine ⟨t,n + 1,by omega,?_,?_⟩
    · rw [hid,hcore,hdispatch,hseat]
    · rw [hid,hcore,executed_ran_running m.log m.time hd hj hc,hexec,stretch_succ,htime]

theorem Continues.finish (hc : Continues m.log m.time loaded job) (h : Unbroken m.log m.time job)
    (hcore : job.coreId ≠ -1) (hrun : job.runTime = 0) (hret : job.jobId ≠ ret) :
    InOnePiece (m.log ++ [.called (.jobFinished job.coreId job.jobId m.time) ret]) loaded := by
  obtain ⟨t,n,htime,hseat,hexec⟩ := h.running hcore
  have hcount : (ticks job.jobId m.log).length = n := by
    have hlength := congrArg List.length hexec
    simpa [stretch,ticks,times,slotsOf] using hlength
  have hwhole : loaded.runTime = n := by
    have := hc.runTime
    omega
  have hnone : slotsOf Event.completion? job.jobId m.log = [] := List.map_eq_nil_iff.mp hc.uncompleted
  have hother : ¬ Dispatched (.jobFinished job.coreId job.jobId m.time) ret job.jobId := hret
  refine ⟨t,job.coreId,?_,?_,?_⟩
  · rw [hc.jobId,slots_undispatched m.log hother,hseat]
  · rw [hc.jobId,executed_called,hexec,hwhole,Int.toNat_natCast]
  · rw [hc.jobId,slotsOf_snoc (t := m.time) (c := job.coreId) rfl,hnone,hwhole,htime]
    rfl

theorem InOnePiece.gone (h : InOnePiece m.log loaded) (hr : Recorded rows m) (hk : k ∈ m.jobs) :
    k.jobId ≠ loaded.jobId := by
  intro hid
  obtain ⟨t,core,-,-,hdone⟩ := h
  obtain ⟨origin,-,hc⟩ := hr.origin k hk
  have hnone : slotsOf Event.completion? k.jobId m.log = [] := List.map_eq_nil_iff.mp hc.uncompleted
  rw [hid,hdone] at hnone
  cases hnone

theorem Uninterrupted.called (h : Uninterrupted rows m) (hr : Recorded rows m) (ht : Tracked o m)
    (hnow : call.time = m.time) (hlog : m'.log = m.log ++ [.called call ret]) (htime : m'.time = m.time)
    (hback : ∀ k' ∈ m'.jobs, ∃ k ∈ m.jobs, Settled call ret k k')
    (hnamed : ∀ id, Dispatched call ret id ∨ (∃ core t, call = .jobFinished core id t) →
      id = -1 ∨ ∃ k ∈ m.jobs, k.jobId = id)
    (hover : ∀ loaded ∈ loadJobs 0 rows, ∀ k ∈ m.jobs, k.jobId = loaded.jobId →
      (∃ k' ∈ m'.jobs, k'.jobId = loaded.jobId) ∨ InOnePiece m'.log loaded) : Uninterrupted rows m' := by
  refine ⟨fun k' hk' => ?_,fun loaded hl => ?_⟩
  · obtain ⟨k,hk,hsettled⟩ := hback k' hk'
    rw [hlog,htime]
    exact (h.alive k hk).settle (ht.real hk) hnow hsettled
  · rcases h.gone loaded hl with ⟨k,hk,hid⟩ | hone
    · exact hover loaded hl k hk hid
    · have hunnamed (hn : Dispatched call ret loaded.jobId ∨ ∃ core t, call = .jobFinished core loaded.jobId t) :
          False := by
        rcases hnamed _ hn with hid | ⟨k,hk,hid⟩
        · have := (mem_loadJobs hl).1
          omega
        · exact hone.gone hr hk hid
      rw [hlog]
      exact .inr (hone.called (fun hd => hunnamed (.inl hd)) (fun core t hc => hunnamed (.inr ⟨core,t,hc⟩)))

theorem finished_settled (ht : Tracked o m) (hj : m.jobs = l ++ job :: r) (hp : r'.Perm r)
    (hc : job.coreId ≠ -1) (hs : Served o m (.jobFinished job.coreId job.jobId m.time) lib' ret)
    (hk : k ∈ l ++ r') : Settled (.jobFinished job.coreId job.jobId m.time) ret k (seat ret job.coreId k) := by
  have hkm : k ∈ m.jobs := hj ▸ mem_split ((hp.append_left l).mem_iff.mp hk)
  by_cases hid : k.jobId = ret
  · have ha := hs.answer_arrived ht nofun hkm hid
    have hidle : k.coreId = -1 := by
      rcases hs.answered with ⟨hret,-⟩ | ⟨e,he,heid,hec⟩
      · exact absurd (hid.trans hret) (ht.real hkm)
      · obtain ⟨j,hjm,-,rfl⟩ := mem_entries.mp he
        rwa [key_injective ht.distinct hkm hjm (hid.trans heid.symm)]
    rw [seat,if_pos ⟨hid,ha⟩]
    exact ⟨rfl,.inl ⟨hid,hidle,rfl,hc⟩⟩
  · rw [seat,if_neg (fun h => hid h.1)]
    exact ⟨rfl,.inr ⟨hid,rfl⟩⟩

theorem step_free {scheme : SchemeT} {cores : Nat} {b b' : Board} {id t run pri : Int}
    (h : Step scheme cores (.newJob id t run pri) b ret b') (hp : scheme.preemptive = false) :
    ∀ j ∈ b.jobs, Running j → j.coreId ≠ ret := by
  cases h with
  | startIdle _ _ _ _ hidle => exact fun j hj _ => hidle j hj
  | preempt hpre => exact absurd (hpre.symm.trans hp) (by decide)
  | queueBehind hpre => exact absurd (hpre.symm.trans hp) (by decide)
  | queueUp => exact fun _ _ hr => hr

theorem leave_free (hp : o.scheme.preemptive = false) (ht : Tracked o m) {t run pri id : Int}
    (hs : Served o m (.newJob id t run pri) lib' ret) (hk : k ∈ m.jobs) : leave ret k = k := by
  by_cases hc : k.coreId = -1
  · unfold leave
    split
    · rw [← hc]
    · rfl
  · obtain ⟨j,hj,-,hjc,-⟩ := ht.record hk (ht.arrived_of_seated hk hc)
    exact leave_of_ne (hjc ▸ step_free hs.stepped hp j hj (fun h => hc (hjc.symm.trans h)))

theorem finished_uninterrupted {alive : Int} {clock : List Int} (h : Uninterrupted rows m)
    (hr : Recorded rows m) (ht : Tracked o m) (hj : m.jobs = l ++ job :: r) (hp : r'.Perm r)
    (hrun : job.runTime = 0) (hc : job.coreId ≠ -1)
    (hs : Served o m (.jobFinished job.coreId job.jobId m.time) lib' ret) : Uninterrupted rows { m with
      lib := lib', jobs := (l ++ r').map (seat ret job.coreId), jobsAlive := alive, quantumClock := clock
      log := m.log ++ [.called (.jobFinished job.coreId job.jobId m.time) ret] } := by
  have hmem : job ∈ m.jobs := by simp [hj]
  have hanswer : ret = -1 ∨ ∃ k ∈ m.jobs, k.jobId = ret ∧ k.coreId = -1 := by
    rcases hs.answered with ⟨hret,-⟩ | ⟨e,he,heid,hec⟩
    · exact .inl hret
    · obtain ⟨k,hk,-,rfl⟩ := mem_entries.mp he
      exact .inr ⟨k,hk,heid,hec⟩
  refine h.called hr ht rfl rfl rfl (fun k' hk' => ?_) (fun id hid => ?_) (fun loaded hl k hk hid => ?_)
  · obtain ⟨k,hk,rfl⟩ := List.mem_map.mp hk'
    exact ⟨k,hj ▸ mem_split ((hp.append_left l).mem_iff.mp hk),finished_settled ht hj hp hc hs hk⟩
  · rcases hid with hret | ⟨core,t,hcall⟩
    · have hret : id = ret := hret
      rcases hanswer with hnone | ⟨k,hk,hkid,-⟩
      · exact .inl (hret.trans hnone)
      · exact .inr ⟨k,hk,hkid.trans hret.symm⟩
    · exact .inr ⟨job,hmem,((Call.jobFinished.injEq ..).mp hcall).2.1⟩
  · rw [hj] at hk
    rcases mem_middle.mp hk with rfl | hk
    · obtain ⟨origin,ho,hcont⟩ := hr.origin k hmem
      have hsame : origin = loaded := loaded_unique ho hl (hcont.jobId.trans hid)
      refine .inr (hsame ▸ hcont.finish (h.alive k hmem) hc hrun ?_)
      rcases hanswer with hnone | ⟨w,hw,hwid,hwc⟩
      · rw [hnone]
        exact ht.real hmem
      · intro hret
        exact hc (key_injective ht.distinct hw hmem (hwid.trans hret.symm) ▸ hwc)
    · refine .inl ⟨seat ret job.coreId k,List.mem_map_of_mem ((hp.append_left l).mem_iff.mpr hk),?_⟩
      rw [(reseats_seat ret job.coreId).jobId]
      exact hid

theorem arrived_uninterrupted {alive : Int} {clock : List Int} {pc : Phase} (h : Uninterrupted rows m)
    (hr : Recorded rows m) (ht : Tracked o m) (hpre : o.scheme.preemptive = false)
    (hj : m.jobs = l ++ job :: r) (ha : job.arrived = false)
    (hs : Served o m (.newJob job.jobId m.time job.runTime job.priority) lib' ret) : Uninterrupted rows { m with
      lib := lib'
      jobs := l.map (leave ret) ++ { job with arrived := true, coreId := ret } :: r.map (leave ret)
      jobsAlive := alive, quantumClock := clock, pc := pc
      log := m.log ++ [.called (.newJob job.jobId m.time job.runTime job.priority) ret] } := by
  have hmem : job ∈ m.jobs := by simp [hj]
  have hfree (k : SimulatorJobListT) (hk : k ∈ l ++ r) : leave ret k = k :=
    leave_free hpre ht hs (hj ▸ mem_split hk)
  have hmembers {k' : SimulatorJobListT}
      (hk' : k' ∈ l.map (leave ret) ++ { job with arrived := true, coreId := ret } :: r.map (leave ret)) :
      k' = { job with arrived := true, coreId := ret } ∨ k' ∈ l ++ r := by
    rcases mem_middle.mp hk' with hk' | hk'
    · exact .inl hk'
    · rw [← List.map_append,map_self hfree] at hk'
      exact .inr hk'
  refine h.called hr ht rfl rfl rfl (fun k' hk' => ?_) (fun id hid => ?_) (fun loaded hl k hk hid => .inl ?_)
  · rcases hmembers hk' with rfl | hk'
    · refine ⟨job,hmem,rfl,?_⟩
      have hidle := (ht.pending job hmem ha).1
      by_cases hret : ret = -1
      · exact .inr ⟨fun hd => hd.2 hret,hret.trans hidle.symm⟩
      · exact .inl ⟨⟨rfl,hret⟩,hidle,rfl,hret⟩
    · refine ⟨k',hj ▸ mem_split hk',rfl,.inr ⟨fun hd => ?_,rfl⟩⟩
      exact key_ne_of_split (hj ▸ ht.distinct) k' hk' hd.1
  · rcases hid with hd | ⟨core,t,hcall⟩
    · exact .inr ⟨job,hmem,hd.1.symm⟩
    · cases hcall
  · have hids : (l.map (leave ret) ++ { job with arrived := true, coreId := ret } :: r.map (leave ret)).map
        (·.jobId) = m.jobs.map (·.jobId) := by
      rw [hj,List.map_append,List.map_cons,ids_map (reseats_leave ret).jobId,ids_map (reseats_leave ret).jobId,
        List.map_append,List.map_cons]
    have hlisted : loaded.jobId ∈ m.jobs.map (·.jobId) := List.mem_map.mpr ⟨k,hk,hid⟩
    rw [← hids] at hlisted
    exact List.mem_map.mp hlisted

theorem ran_uninterrupted {clock : List Int} {diagram : List (List Char)} {pc : Phase}
    (h : Uninterrupted rows m) (hr : Recorded rows m) (ht : Tracked o m) : Uninterrupted rows { m with
      jobs := m.jobs.map work, quantumClock := clock, coreTimingDiagram := diagram
      time := m.time + 1, pc := pc, log := m.log ++ executions m.time m.jobs } := by
  refine ⟨fun k hk => ?_,fun loaded hl => ?_⟩
  · obtain ⟨job,hj,rfl⟩ := List.mem_map.mp hk
    exact (h.alive job hj).ran ht.distinct hj
  · rcases h.gone loaded hl with ⟨k,hk,hid⟩ | hone
    · exact .inl ⟨work k,List.mem_map_of_mem hk,(work_carries k).1.trans hid⟩
    · have hidle : slotsOf Event.execution? loaded.jobId (m.log ++ executions m.time m.jobs) =
          slotsOf Event.execution? loaded.jobId m.log :=
        executed_ran_idle (fun k hk hid => absurd hid (hone.gone hr hk))
      obtain ⟨t,core,hdispatch,hexec,hdone⟩ := hone
      exact .inr ⟨t,core,(slotsOf_executions (fun _ _ _ => rfl)).trans hdispatch,hidle.trans hexec,
        (slotsOf_executions (fun _ _ _ => rfl)).trans hdone⟩

theorem move_uninterrupted (hpre : o.scheme.preemptive = false) (hrr : o.scheme ≠ .rr) (ht : Tracked o m)
    (hr : Recorded rows m) (h : Uninterrupted rows m) (hm : Move o m m') : Uninterrupted rows m' := by
  cases hm with
  | finished _ hj hrun hp hc hs => exact finished_uninterrupted h hr ht hj hp hrun hc hs
  | expired _ hscheme => exact absurd hscheme hrr
  | arrived _ hj _ ha hs => exact arrived_uninterrupted h hr ht hpre hj ha hs
  | ran => exact ran_uninterrupted h hr ht
  | _ => exact ⟨h.alive,h.gone⟩

theorem visits_uninterrupted (hpre : o.scheme.preemptive = false) (hrr : o.scheme ≠ .rr) (hcores : 1 ≤ o.cores)
    (h : Runnable rows) (hv : Visits o rows m) : Uninterrupted rows m := by
  refine visits_induction hcores h ⟨fun job hj => ?_,fun loaded hl => .inl ⟨loaded,hl,rfl⟩⟩ ?_ hv
  · exact ⟨fun _ => ⟨rfl,rfl⟩,fun hc => absurd (mem_loadJobs hj).2.1 hc⟩
  · exact fun m m' hv hs hu hm => move_uninterrupted hpre hrr hs.1 (visits_recorded hcores h hv) hu hm

end OperatingSystemLabs.Simulator

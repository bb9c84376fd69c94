import OperatingSystemLabs.Scheduler.Responses
import OperatingSystemLabs.Simulator.Accounting
import OperatingSystemLabs.Simulator.Quantum

namespace OperatingSystemLabs.Simulator

open Scheduler Keyed Transition Insertion

structure Responsive (rows : List Row) (m : Machine) : Prop where
  seated : ∀ job ∈ m.jobs, job.coreId ≠ -1 → dispatches job.jobId m.log ≠ []
  unarrived : ∀ job ∈ m.jobs, job.arrived = false → dispatches job.jobId m.log = []
  past : ∀ id, id ≠ -1 → ∀ t ∈ dispatches id m.log, t ≤ m.time
  flagged : Flagged (fun id => dispatches id m.log ≠ []) m.lib.jobs
  total : m.lib.responseTime = tally Event.dispatch? (fun job t => t - job.arrivalTime) rows m.log
  answered : ∀ id, ∀ e ∈ (ticks id m.log).head?, ∃ d ∈ (dispatches id m.log).head?, d ≤ e

def Shifted (call : Call) (ret : Int) (k k' : SimulatorJobListT) : Prop :=
  k'.jobId = k.jobId ∧ (k'.arrived = false → k.arrived = false) ∧
    ((Dispatched call ret k.jobId ∧ k'.coreId ≠ -1 ∧ k'.arrived = true) ∨
      (¬ Dispatched call ret k.jobId ∧ (k'.coreId = k.coreId ∨ k'.coreId = -1)))

variable {o : Options} {rows : List Row} {m m' : Machine} {call : Call} {ret time id : Int} {lib' : Lib}
variable {log : List Event} {jobs jobs' l r : List SimulatorJobListT} {job k : SimulatorJobListT}

theorem slots_dispatched (log : List Event) (hid : id ≠ -1) (hd : Dispatched call ret id) :
    slotsOf Event.dispatch? id (log ++ [.called call ret]) =
      slotsOf Event.dispatch? id log ++ [⟨call.time,id,call.seat ret⟩] := by
  cases call with
  | newJob new t run pri =>
    obtain ⟨rfl,hret⟩ := hd
    exact slotsOf_snoc (if_neg hret)
  | jobFinished core old t =>
    have hret : id = ret := hd
    exact slotsOf_snoc (hret ▸ if_neg hid)
  | quantumExpired core t =>
    have hret : id = ret := hd
    exact slotsOf_snoc (hret ▸ if_neg hid)

theorem slots_undispatched (log : List Event) (hd : ¬ Dispatched call ret id) :
    slotsOf Event.dispatch? id (log ++ [.called call ret]) = slotsOf Event.dispatch? id log := by
  refine slotsOf_keep (fun e he slot hslot => ?_)
  rw [List.mem_singleton.mp he] at hslot
  cases call with
  | newJob new t run pri =>
    obtain ⟨hret,rfl⟩ := answered_slot hslot
    exact fun hnew => hd ⟨hnew.symm,hret⟩
  | jobFinished core old t =>
    obtain ⟨-,rfl⟩ := answered_slot hslot
    exact fun hret => hd hret.symm
  | quantumExpired core t =>
    obtain ⟨-,rfl⟩ := answered_slot hslot
    exact fun hret => hd hret.symm

theorem dispatches_called (log : List Event) (call : Call) (ret : Int) (hid : id ≠ -1) :
    (Dispatched call ret id ∧
      dispatches id (log ++ [.called call ret]) = dispatches id log ++ [call.time]) ∨
    (¬ Dispatched call ret id ∧ dispatches id (log ++ [.called call ret]) = dispatches id log) := by
  by_cases hd : Dispatched call ret id
  · exact .inl ⟨hd,(congrArg (List.map _) (slots_dispatched log hid hd)).trans List.map_append⟩
  · exact .inr ⟨hd,congrArg (List.map _) (slots_undispatched log hd)⟩

theorem dispatches_ran : dispatches id (log ++ executions time jobs) = dispatches id log :=
  times_executions (fun _ _ _ => rfl)

theorem dispatches_head {d : Int} {xs : List Event} (h : d ∈ (dispatches id log).head?) :
    d ∈ (dispatches id (log ++ xs)).head? := by
  rw [dispatches,times_append]
  exact List.mem_head?_append_of_mem_head? h

theorem Tracked.real (h : Tracked o m) (hj : job ∈ m.jobs) : job.jobId ≠ -1 := by
  have := h.numbered job hj
  omega

theorem Served.answer_arrived (hs : Served o m call lib' ret) (ht : Tracked o m)
    (hcall : ∀ id t run pri, call ≠ .newJob id t run pri) (hk : k ∈ m.jobs) (hid : k.jobId = ret) :
    k.arrived = true := by
  have hlisted : ∃ e ∈ entries m.jobs, e.jobId = ret := by
    have hanswer := hs.answered
    cases call with
    | newJob id t run pri => exact absurd rfl (hcall id t run pri)
    | jobFinished =>
      rcases hanswer with ⟨hret,-⟩ | ⟨e,he,heid,-⟩
      · exact absurd (hid.trans hret) (ht.real hk)
      · exact ⟨e,he,heid⟩
    | quantumExpired =>
      rcases hanswer with ⟨hret,-⟩ | ⟨-,e,he,heid,-⟩
      · exact absurd (hid.trans hret) (ht.real hk)
      · exact ⟨e,he,heid⟩
  obtain ⟨e,he,heid⟩ := hlisted
  obtain ⟨j,hj,ha,rfl⟩ := mem_entries.mp he
  rwa [key_injective ht.distinct hk hj (hid.trans heid.symm)]

theorem shifted_seat {core : Int} (hk : k.jobId = ret → k.arrived = true) (hcore : core ≠ -1)
    (hd : Dispatched call ret k.jobId ↔ k.jobId = ret) {k' : SimulatorJobListT}
    (hid : k'.jobId = k.jobId) (harr : k'.arrived = k.arrived)
    (hc : k'.coreId = k.coreId ∨ k'.coreId = -1) : Shifted call ret k (seat ret core k') := by
  by_cases hret : k.jobId = ret
  · have hseat : seat ret core k' = { k' with coreId := core } :=
      if_pos ⟨hid.trans hret,harr.trans (hk hret)⟩
    rw [hseat]
    exact ⟨hid,fun ha => harr ▸ ha,.inl ⟨hd.mpr hret,hcore,harr.trans (hk hret)⟩⟩
  · have hseat : seat ret core k' = k' := if_neg (fun h => hret (hid.symm.trans h.1))
    rw [hseat]
    exact ⟨hid,fun ha => harr ▸ ha,.inr ⟨fun h => hret (hd.mp h),hc⟩⟩

theorem leave_coreId (core : Int) (job : SimulatorJobListT) :
    (leave core job).coreId = job.coreId ∨ (leave core job).coreId = -1 := by
  unfold leave
  split
  · exact .inr rfl
  · exact .inl rfl

theorem finished_shifted {r' : List SimulatorJobListT} (ht : Tracked o m) (hj : m.jobs = l ++ job :: r)
    (hp : r'.Perm r) (hc : job.coreId ≠ -1)
    (hs : Served o m (.jobFinished job.coreId job.jobId m.time) lib' ret) :
    ∀ k' ∈ (l ++ r').map (seat ret job.coreId), ∃ k ∈ m.jobs,
      Shifted (.jobFinished job.coreId job.jobId m.time) ret k k' := by
  intro k' hk'
  obtain ⟨k,hk,rfl⟩ := List.mem_map.mp hk'
  have hkm : k ∈ m.jobs := hj ▸ mem_split ((hp.append_left l).mem_iff.mp hk)
  exact ⟨k,hkm,shifted_seat (hs.answer_arrived ht nofun hkm) hc .rfl rfl rfl (.inl rfl)⟩

theorem expired_shifted {i : Nat} (ht : Tracked o m) (hs : Served o m (.quantumExpired i m.time) lib' ret) :
    ∀ k' ∈ (m.jobs.map (leave i)).map (seat ret i), ∃ k ∈ m.jobs,
      Shifted (.quantumExpired i m.time) ret k k' := by
  intro k' hk'
  obtain ⟨k1,hk1,rfl⟩ := List.mem_map.mp hk'
  obtain ⟨k,hk,rfl⟩ := List.mem_map.mp hk1
  have hf := reseats_leave i
  exact ⟨k,hk,shifted_seat (hs.answer_arrived ht nofun hk) (by omega) .rfl (hf.jobId k) (hf.arrived k)
    (leave_coreId i k)⟩

theorem arrived_shifted {t run pri : Int} (ht : Tracked o m) (hj : m.jobs = l ++ job :: r)
    (ha : job.arrived = false) :
    ∀ k' ∈ l.map (leave ret) ++ { job with arrived := true, coreId := ret } :: r.map (leave ret),
      ∃ k ∈ m.jobs, Shifted (.newJob job.jobId t run pri) ret k k' := by
  intro k' hk'
  rcases mem_middle_map.mp hk' with rfl | ⟨k,hk,rfl⟩
  · refine ⟨job,by simp [hj],rfl,fun _ => ha,?_⟩
    by_cases hret : ret = -1
    · exact .inr ⟨fun hd => hd.2 hret,.inr hret⟩
    · exact .inl ⟨⟨rfl,hret⟩,hret,rfl⟩
  · have hf := reseats_leave ret
    refine ⟨k,hj ▸ mem_split hk,hf.jobId k,fun h => hf.arrived k ▸ h,.inr ⟨fun hd => ?_,leave_coreId ret k⟩⟩
    exact key_ne_of_split (hj ▸ ht.distinct) k hk hd.1

theorem loaded_real {loaded : SimulatorJobListT} (h : loaded ∈ loadJobs 0 rows) : loaded.jobId ≠ -1 := by
  have := (mem_loadJobs h).1
  omega

section Tally

variable {final : SimulatorJobListT → Int → Int} {loaded : SimulatorJobListT}

theorem tally_undispatched
    (h : ∀ job ∈ loadJobs 0 rows, Dispatched call ret job.jobId → dispatches job.jobId log ≠ []) :
    tally Event.dispatch? final rows (log ++ [.called call ret]) =
      tally Event.dispatch? final rows log := by
  refine tally_keep (fun job hj => ?_)
  change (dispatches job.jobId (log ++ [.called call ret])).head? = (dispatches job.jobId log).head?
  rcases dispatches_called log call ret (loaded_real hj) with ⟨hd,hlog⟩ | ⟨-,hlog⟩
  · rw [hlog,List.head?_append_of_ne_nil _ (h job hj hd)]
  · rw [hlog]

theorem tally_dispatched (hl : loaded ∈ loadJobs 0 rows) (hnone : dispatches loaded.jobId log = [])
    (hd : ∀ id, Dispatched call ret id ↔ id = loaded.jobId) :
    tally Event.dispatch? final rows (log ++ [.called call ret]) =
      tally Event.dispatch? final rows log + final loaded call.time := by
  refine tally_first hl hnone ?_ (fun job hj hne => ?_)
  · change dispatches loaded.jobId (log ++ [.called call ret]) = [call.time]
    rcases dispatches_called log call ret (loaded_real hl) with ⟨-,hlog⟩ | ⟨hnd,-⟩
    · rw [hlog,hnone]
      rfl
    · exact absurd ((hd loaded.jobId).mpr rfl) hnd
  · change dispatches job.jobId (log ++ [.called call ret]) = dispatches job.jobId log
    rcases dispatches_called log call ret (loaded_real hj) with ⟨hjd,-⟩ | ⟨-,hlog⟩
    · exact absurd ((hd job.jobId).mp hjd) hne
    · exact hlog

end Tally

theorem dispatched_woken (hcall : ∀ id t run pri, call ≠ .newJob id t run pri) :
    Dispatched call ret id ↔ id = ret := by
  cases call with
  | newJob id t run pri => exact absurd rfl (hcall id t run pri)
  | jobFinished => exact .rfl
  | quantumExpired => exact .rfl

theorem Responsive.total_woken (h : Responsive rows m) (hs : Served o m call lib' ret)
    (ht : Tracked o m) (hr : Recorded rows m) (hcall : ∀ id t run pri, call ≠ .newJob id t run pri) :
    lib'.responseTime =
      tally Event.dispatch? (fun job t => t - job.arrivalTime) rows (m.log ++ [.called call ret]) := by
  have htotal := h.total
  rcases step_response hs.stepped hcall with ⟨hret,hresp⟩ | ⟨w,hw,hid,hresp⟩
  · rw [tally_undispatched (fun job hj hd => ?_),← htotal]
    · exact hresp
    · exact absurd (((dispatched_woken hcall).mp hd).trans hret) (loaded_real hj)
  · obtain ⟨loaded,hl,hlid,hlarr,-⟩ := hr.record ht hw
    have hwoken (id : Int) : Dispatched call ret id ↔ id = loaded.jobId := by
      rw [dispatched_woken hcall,hlid,hid]
    have hflag := h.flagged w hw
    have hresp' : lib'.responseTime = m.lib.responseTime +
        if w.responded = -1 then call.time - w.arrivalTime else 0 := hresp
    by_cases hunanswered : w.responded = -1
    · have hnone : dispatches loaded.jobId m.log = [] := by
        rw [hlid]
        exact not_not.mp (fun hne => hflag.mpr hne hunanswered)
      rw [tally_dispatched hl hnone hwoken,hresp',if_pos hunanswered,← htotal,hlarr]
    · rw [tally_undispatched (fun job hj hd => ?_),hresp',if_neg hunanswered,← htotal,Int.add_zero]
      rw [(hwoken job.jobId).mp hd,hlid]
      exact hflag.mp hunanswered

theorem Responsive.total_newJob {new t run pri : Int} (h : Responsive rows m)
    (hs : Served o m (.newJob new t run pri) lib' ret) (hnone : dispatches new m.log = [])
    (hl : ∃ loaded ∈ loadJobs 0 rows, loaded.jobId = new ∧ loaded.arrivalTime = t) :
    lib'.responseTime = tally Event.dispatch? (fun job t => t - job.arrivalTime) rows
      (m.log ++ [.called (.newJob new t run pri) ret]) := by
  have hresp : lib'.responseTime = m.lib.responseTime := newJob_response hs.stepped
  have htotal := h.total
  obtain ⟨loaded,hl,rfl,rfl⟩ := hl
  by_cases hret : ret = -1
  · have hnobody (id : Int) : ¬ Dispatched (.newJob loaded.jobId loaded.arrivalTime run pri) ret id :=
      fun hd => hd.2 hret
    rw [tally_undispatched (fun job _ hd => absurd hd (hnobody job.jobId)),hresp,htotal]
  · have hnew (id : Int) : Dispatched (.newJob loaded.jobId loaded.arrivalTime run pri) ret id ↔
        id = loaded.jobId := and_iff_left hret
    rw [tally_dispatched hl hnone hnew,hresp,htotal]
    simp [Call.time]

theorem Responsive.called {clock : List Int} {alive : Int} {pc : Phase} (h : Responsive rows m)
    (hs : Served o m call lib' ret) (ht : Tracked o m)
    (hshift : ∀ k' ∈ jobs', ∃ k ∈ m.jobs, Shifted call ret k k')
    (hfresh : ∀ id t run pri, call = .newJob id t run pri → dispatches id m.log = [])
    (htotal : lib'.responseTime =
      tally Event.dispatch? (fun job t => t - job.arrivalTime) rows (m.log ++ [.called call ret])) :
    Responsive rows { m with
      lib := lib', jobs := jobs', jobsAlive := alive, quantumClock := clock, pc := pc
      log := m.log ++ [.called call ret] } := by
  have hg := ht.run.governed
  refine ⟨fun k' hk' hc => ?_,fun k' hk' ha => ?_,fun id hid t hmem => ?_,?_,htotal,fun id e he => ?_⟩
  · obtain ⟨k,hk,hid,-,hcase⟩ := hshift k' hk'
    simp only [hid]
    rcases dispatches_called m.log call ret (ht.real hk) with ⟨-,hlog⟩ | ⟨hnd,hlog⟩
    · simp [hlog]
    · rcases hcase with ⟨hd,-⟩ | ⟨-,hcore⟩
      · exact absurd hd hnd
      · rw [hlog]
        exact h.seated k hk (hcore.resolve_right hc ▸ hc)
  · obtain ⟨k,hk,hid,harr,hcase⟩ := hshift k' hk'
    simp only [hid]
    rcases dispatches_called m.log call ret (ht.real hk) with ⟨hd,-⟩ | ⟨-,hlog⟩
    · rcases hcase with ⟨-,-,ha'⟩ | ⟨hnd,-⟩
      · exact absurd (ha.symm.trans ha') (by decide)
      · exact absurd hd hnd
    · rw [hlog]
      exact h.unarrived k hk (harr ha)
  · rcases dispatches_called m.log call ret hid with ⟨-,hlog⟩ | ⟨-,hlog⟩
    · rw [hlog] at hmem
      exact forall_mem_snoc (h.past id hid) hs.now.le t hmem
    · rw [hlog] at hmem
      exact h.past id hid t hmem
  · have hflag := step_flagged hs.stepped hg.sound (hg.admissible hs.legal) h.flagged
      (fun id t run pri hcall hne => hne (hfresh id t run pri hcall))
    have hsound := (hs.run ht.toFollowed).governed.sound
    refine hflag.imp (fun j hj => ?_)
    have hreal : j.jobId ≠ -1 := by simpa using (Table.toRoster hsound).numbered (entry 0 j) (List.mem_map_of_mem hj)
    rcases dispatches_called m.log call ret hreal with ⟨hd,hlog⟩ | ⟨hnd,hlog⟩
    · rw [hlog]
      exact iff_of_true (.inr hd) (by simp)
    · rw [hlog]
      exact or_iff_left hnd
  · rw [ticks_called] at he
    obtain ⟨d,hd,hle⟩ := h.answered id e he
    exact ⟨d,dispatches_head hd,hle⟩

theorem Responsive.ran {clock : List Int} {diagram : List (List Char)} {pc : Phase}
    (h : Responsive rows m) (ht : Tracked o m) : Responsive rows { m with
      jobs := m.jobs.map work, quantumClock := clock, coreTimingDiagram := diagram
      time := m.time + 1, pc := pc, log := m.log ++ executions m.time m.jobs } := by
  refine ⟨fun k' hk' hc => ?_,fun k' hk' ha => ?_,fun id hid t hmem => ?_,?_,?_,fun id e he => ?_⟩
  · obtain ⟨k,hk,rfl⟩ := List.mem_map.mp hk'
    obtain ⟨hid,-,-,hcore⟩ := work_carries k
    simp only [hid,dispatches_ran]
    exact h.seated k hk (hcore ▸ hc)
  · obtain ⟨k,hk,rfl⟩ := List.mem_map.mp hk'
    obtain ⟨hid,-,harr,-⟩ := work_carries k
    simp only [hid,dispatches_ran]
    exact h.unarrived k hk (harr ▸ ha)
  · rw [dispatches_ran] at hmem
    have := h.past id hid t hmem
    simp only
    omega
  · exact h.flagged.imp (fun j _ => by rw [dispatches_ran])
  · exact h.total.trans (tally_keep (fun job _ => congrArg _ dispatches_ran)).symm
  · simp only [dispatches_ran]
    rcases ticks_ran m.log m.time ht.distinct id with hlog | ⟨⟨job,hj,rfl,hc⟩,hlog⟩
    · rw [hlog] at he
      exact h.answered id e he
    · rw [hlog] at he
      cases hticks : ticks job.jobId m.log with
      | cons t ts =>
        rw [hticks] at he
        exact h.answered job.jobId e (by rw [hticks]; exact he)
      | nil =>
        rw [hticks] at he
        cases hdisp : dispatches job.jobId m.log with
        | nil => exact absurd hdisp (h.seated job hj hc)
        | cons d ds =>
          refine ⟨d,rfl,?_⟩
          rw [← Option.some.inj he]
          exact h.past job.jobId (ht.real hj) d (by simp [hdisp])

theorem Responsive.atPhase (h : Responsive rows m) (pc : Phase) : Responsive rows { m with pc := pc } :=
  ⟨h.seated,h.unarrived,h.past,h.flagged,h.total,h.answered⟩

theorem move_responsive (ht : Tracked o m) (hr : Recorded rows m) (h : Responsive rows m)
    (hm : Move o m m') : Responsive rows m' := by
  cases hm with
  | finished _ hj _ hp hc hs =>
    exact h.called hs ht (finished_shifted ht hj hp hc hs) nofun (h.total_woken hs ht hr nofun)
  | expired _ _ _ _ _ _ hs =>
    exact h.called hs ht (expired_shifted ht hs) nofun (h.total_woken hs ht hr nofun)
  | @arrived l r job lib' ret _ hj htime ha hs =>
    have hmem : job ∈ m.jobs := by simp [hj]
    have hnone := h.unarrived job hmem ha
    obtain ⟨loaded,hl,hc⟩ := hr.origin job hmem
    refine h.called hs ht (arrived_shifted ht hj ha) (fun id t run pri hcall => ?_) ?_
    · rw [← ((Call.newJob.injEq ..).mp hcall).1]
      exact hnone
    · exact h.total_newJob hs hnone ⟨loaded,hl,hc.jobId,hc.arrivalTime.trans htime⟩
  | ran => exact h.ran ht
  | stopped => exact h
  | _ => exact h.atPhase _

theorem start_responsive (o : Options) (rows : List Row) : Responsive rows (start o rows) where
  seated _ hj hc := absurd (mem_loadJobs hj).2.1 hc
  unarrived _ _ _ := rfl
  past _ _ := nofun
  flagged := List.forall_mem_nil _
  total := (tally_start _ _ o rows).symm
  answered _ := nofun

theorem visits_responsive (hcores : 1 ≤ o.cores) (h : Runnable rows) (hv : Visits o rows m) :
    Responsive rows m :=
  visits_induction hcores h (start_responsive o rows)
    (fun _ _ hv hs hq hm => move_responsive hs.1 (visits_recorded hcores h hv) hq hm) hv

end OperatingSystemLabs.Simulator

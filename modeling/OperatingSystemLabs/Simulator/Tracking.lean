import OperatingSystemLabs.Simulator.Moves

namespace OperatingSystemLabs.Simulator

open Scheduler Keyed

variable {o : Options} {m m' : Machine} {call : Call} {ret : Int} {lib' : Lib}
variable {jobs l r r' : List SimulatorJobListT} {job : SimulatorJobListT}
variable {f : SimulatorJobListT → SimulatorJobListT}

def tick (e : Entry) : Entry := if e.coreId = -1 then e else { e with left := e.left - 1 }

theorem entry_tick (t : Int) (j : JobT) : entry (t + 1) j = tick (entry t j) := by
  by_cases h : j.coreId = -1
  · simp [entry,tick,remaining,h]
  · simp only [entry,tick,remaining,if_neg h,Entry.mk.injEq,true_and]
    omega

theorem entries_work : entries (jobs.map work) = (entries jobs).map tick := by
  refine entries_map (fun job _ => ?_) (fun job _ _ => ?_)
  · unfold work
    split <;> rfl
  · by_cases h : job.coreId = -1
    · rw [work,if_neg (not_not.mpr h),tick,simEntry_coreId,if_pos h]
    · rw [work,if_pos h,tick,simEntry_coreId,if_neg h]
      rfl

theorem entries_filter (hd : ((l ++ job :: r).map (·.jobId)).Nodup) (ha : job.arrived = true) :
    (entries (l ++ job :: r)).filter (·.jobId ≠ job.jobId) = entries (l ++ r) := by
  have hne := key_ne_of_split hd
  rw [entries_append,entries_cons_arrived ha,entries_append]
  refine filter_split (by simp) (fun e he => decide_eq_true ?_)
  rw [← entries_append] at he
  obtain ⟨k,hk,-,rfl⟩ := mem_entries.mp he
  exact hne k hk

theorem calls_executions (log : List Event) (time : Int) (jobs : List SimulatorJobListT) :
    calls (log ++ executions time jobs) = calls log := by
  have hnone : (executions time jobs).filterMap Event.call? = [] := by
    refine List.filterMap_eq_nil_iff.mpr (fun e he => ?_)
    obtain ⟨job,-,rfl⟩ := List.mem_map.mp he
    rfl
  rw [calls,List.filterMap_append,hnone,List.append_nil]
  rfl

theorem clockAfter_length (o : Options) (clock : List Int) (c : Int) :
    (o.clockAfter clock c).length = clock.length := by
  unfold Options.clockAfter
  split
  · exact List.length_set
  · rfl

theorem Followed.atPhase (h : Followed o m) (pc : Phase) : Followed o { m with pc := pc } :=
  ⟨h.run,h.past,h.coupled,h.distinct,h.numbered,h.pending,h.alive,h.clocks⟩

theorem Followed.alive_entries (h : Followed o m) : m.jobsAlive = (entries m.jobs).length := by
  rw [h.alive,h.coupled.length_eq,List.length_map]

theorem Served.alive (hs : Served o m call lib' ret) :
    lib'.jobs.length = (reassign call ret (entries m.jobs)).length := by
  rw [hs.reassigned.length_eq,List.length_map]

theorem Followed.reseat (h : Followed o m) (hs : Served o m call lib' ret) (hf : Reseats f)
    (hcall : ∀ id t run pri, call ≠ .newJob id t run pri)
    (hpend : ∀ job ∈ jobs, job.arrived = false → f job = job) (hsub : ∀ job ∈ jobs, job ∈ m.jobs)
    (hd : (jobs.map (·.jobId)).Nodup) {clock : List Int} (hclock : clock.length = o.cores) {pc : Phase}
    (hentries : (entries (jobs.map f)).Perm (reassign call ret (entries m.jobs))) {alive : Int}
    (halive : alive = (reassign call ret (entries m.jobs)).length) :
    Followed o { m with
      lib := lib', jobs := jobs.map f, jobsAlive := alive, quantumClock := clock, pc := pc
      log := m.log ++ [.called call ret] } where
  run := hs.run h
  past := hs.past h
  coupled := hentries.trans hs.reassigned
  distinct := hf.jobIds jobs ▸ hd
  numbered := by
    intro job hj
    obtain ⟨k,hk,rfl⟩ := List.mem_map.mp hj
    rw [hf.jobId]
    exact h.numbered k (hsub k hk)
  pending := by
    intro job hj ha
    obtain ⟨k,hk,rfl⟩ := List.mem_map.mp hj
    rw [hf.arrived] at ha
    rw [hpend k hk ha]
    obtain ⟨hc,hfresh⟩ := h.pending k (hsub k hk) ha
    exact ⟨hc,still_unarrived hfresh (hcall k.jobId)⟩
  alive := halive.trans (by rw [hs.alive])
  clocks := hclock

theorem seat_pending {id core : Int} (h : job.arrived = false) : seat id core job = job :=
  if_neg (fun hh => by simp [h] at hh)

theorem finished_followed (h : Followed o m) (hj : m.jobs = l ++ job :: r) (hp : r'.Perm r)
    (hc : job.coreId ≠ -1) (hs : Served o m (.jobFinished job.coreId job.jobId m.time) lib' ret) :
    Followed o { m with
      lib := lib'
      jobs := (l ++ r').map (seat ret job.coreId)
      jobsAlive := m.jobsAlive - 1
      quantumClock := o.clockAfter m.quantumClock job.coreId
      log := m.log ++ [.called (.jobFinished job.coreId job.jobId m.time) ret] } := by
  have hperm := hp.append_left l
  have hd : ((l ++ job :: r).map (·.jobId)).Nodup := hj ▸ h.distinct
  have ha : job.arrived = true := h.arrived_of_seated (by simp [hj]) hc
  have hreassign : reassign (.jobFinished job.coreId job.jobId m.time) ret (entries m.jobs) =
      (entries (l ++ r)).map (occupy ret job.coreId) := by
    rw [reassign,hj,entries_filter hd ha]
  refine h.reseat hs (reseats_seat _ _) (by simp) (fun k _ hk => seat_pending hk) ?_ ?_ ?_ ?_ ?_
  · exact fun k hk => hj ▸ mem_split (hperm.mem_iff.mp hk)
  · exact (hperm.map _).nodup_iff.mpr (key_nodup_of_split hd)
  · rw [clockAfter_length,h.clocks]
  · rw [entries_seat,hreassign]
    exact (entries_perm hperm).map _
  · have halive := h.alive_entries
    rw [hj,entries_append,entries_cons_arrived ha] at halive
    rw [hreassign,List.length_map,entries_append,halive]
    simp only [List.length_append,List.length_cons]
    omega

theorem reseats_comp {g : SimulatorJobListT → SimulatorJobListT} (hf : Reseats f) (hg : Reseats g) :
    Reseats (g ∘ f) := by
  intro job
  obtain ⟨c,hc⟩ := hf job
  obtain ⟨d,hd⟩ := hg (f job)
  exact ⟨d,by rw [Function.comp_apply,hd,hc]⟩

theorem expired_followed {i : Nat} (h : Followed o m) (pc : Phase)
    (hs : Served o m (.quantumExpired i m.time) lib' ret) :
    Followed o { m with
      lib := lib'
      jobs := (m.jobs.map (leave i)).map (seat ret i)
      quantumClock := m.quantumClock.set i o.quantum
      pc := pc
      log := m.log ++ [.called (.quantumExpired i m.time) ret] } := by
  have hreassign : reassign (.quantumExpired i m.time) ret (entries m.jobs) =
      entries ((m.jobs.map (leave i)).map (seat ret i)) := by
    rw [reassign,entries_seat,entries_leave]
  rw [List.map_map] at hreassign ⊢
  refine h.reseat hs (reseats_comp (reseats_leave i) (reseats_seat ret i)) (by simp) ?_
    (fun k hk => hk) h.distinct ?_ (.of_eq hreassign.symm) ?_
  · intro k hk ha
    have hne : k.coreId ≠ i := by
      rw [(h.pending k hk ha).1]
      omega
    rw [Function.comp_apply,leave_of_ne hne,seat_pending ha]
  · rw [List.length_set,h.clocks]
  · rw [h.alive_entries,reassign,List.length_map,List.length_map]

theorem arrived_followed (h : Followed o m) (pc : Phase) (hj : m.jobs = l ++ job :: r)
    (ha : job.arrived = false)
    (hs : Served o m (.newJob job.jobId m.time job.runTime job.priority) lib' ret) :
    Followed o { m with
      lib := lib'
      jobs := l.map (leave ret) ++ { job with arrived := true, coreId := ret } :: r.map (leave ret)
      jobsAlive := m.jobsAlive + 1
      quantumClock := if ret = -1 then m.quantumClock else o.clockAfter m.quantumClock ret
      pc := pc
      log := m.log ++ [.called (.newJob job.jobId m.time job.runTime job.priority) ret] } := by
  let job' : SimulatorJobListT := { job with arrived := true, coreId := ret }
  have hd : ((l ++ job :: r).map (·.jobId)).Nodup := hj ▸ h.distinct
  have hmem : job ∈ m.jobs := by simp [hj]
  have hids : (l.map (leave ret) ++ job' :: r.map (leave ret)).map (·.jobId) =
      (l ++ job :: r).map (·.jobId) := by
    simp only [List.map_append,List.map_cons]
    rw [(reseats_leave ret).jobIds,(reseats_leave ret).jobIds]
  have hold : entries m.jobs = entries (l ++ r) := by
    rw [hj,entries_append,entries_cons_pending ha,entries_append]
  refine ⟨hs.run h,hs.past h,?_,hids ▸ hd,?_,?_,?_,?_⟩
  · refine List.Perm.trans ?_ hs.reassigned
    rw [reassign,hold,entries_append,entries_append,entries_leave,entries_cons_arrived rfl,
      entries_leave,List.map_append]
    exact List.perm_middle
  · intro k hk
    rcases mem_middle_map.mp hk with rfl | ⟨k',hk',rfl⟩
    · exact h.numbered job hmem
    · rw [(reseats_leave ret).jobId]
      exact h.numbered k' (hj ▸ mem_split hk')
  · intro k hk hka
    rcases mem_middle_map.mp hk with rfl | ⟨k',hk',rfl⟩
    · cases hka
    · have hk'm : k' ∈ m.jobs := hj ▸ mem_split hk'
      rw [(reseats_leave ret).arrived] at hka
      obtain ⟨hc,hfresh⟩ := h.pending k' hk'm hka
      refine ⟨?_,?_⟩
      · unfold leave
        split
        · rfl
        · exact hc
      · rw [(reseats_leave ret).jobId,calls_called,arrived_snoc]
        rintro (hh | ⟨t,run,pri,hh⟩)
        · exact hfresh hh
        · exact key_ne_of_split hd k' hk' ((Call.newJob.injEq ..).mp hh).1.symm
  · have halive : m.jobsAlive + 1 = (lib'.jobs.length : Int) := by
      rw [h.alive_entries,hs.alive,reassign,List.length_cons,List.length_map]
      rfl
    exact halive
  · split
    · exact h.clocks
    · rw [clockAfter_length,h.clocks]

theorem ran_followed {clock' : List Int} (h : Followed o m) (diagram : List (List Char)) (pc : Phase)
    (hw : Worked m.jobs m.quantumClock clock') :
    Followed o { m with
      jobs := m.jobs.map work
      quantumClock := clock'
      coreTimingDiagram := diagram
      time := m.time + 1
      pc := pc
      log := m.log ++ executions m.time m.jobs } := by
  have hwork (k : SimulatorJobListT) : (work k).jobId = k.jobId ∧ (work k).arrived = k.arrived ∧
      (work k).coreId = k.coreId := by
    unfold work
    split <;> exact ⟨rfl,rfl,rfl⟩
  refine ⟨?_,?_,?_,?_,?_,?_,h.alive,hw.1.trans h.clocks⟩
  · simp only [calls_executions]
    exact h.run
  · simp only [calls_executions]
    intro e he
    have := h.past e he
    omega
  · have hentry : m.lib.jobs.map (entry (m.time + 1)) = (m.lib.jobs.map (entry m.time)).map tick := by
      rw [List.map_map]
      exact List.map_congr_left (fun j _ => entry_tick m.time j)
    simp only [entries_work,hentry]
    exact h.coupled.map tick
  · simp only [ids_map (fun k => (hwork k).1)]
    exact h.distinct
  · intro k hk
    obtain ⟨k',hk',rfl⟩ := List.mem_map.mp hk
    rw [(hwork k').1]
    exact h.numbered k' hk'
  · intro k hk ha
    obtain ⟨k',hk',rfl⟩ := List.mem_map.mp hk
    rw [(hwork k').2.1] at ha
    rw [(hwork k').1,(hwork k').2.2,calls_executions]
    exact h.pending k' hk' ha

theorem move_followed (h : Followed o m) (hm : Move o m m') : Followed o m' := by
  cases hm with
  | unfinished => exact h.atPhase _
  | finished _ hj _ hperm hc hs => exact finished_followed h hj hperm hc hs
  | allFinished => exact h.atPhase _
  | toQuantums => exact h.atPhase _
  | unexpired => exact h.atPhase _
  | expired _ _ _ _ _ _ hs => exact expired_followed h _ hs
  | toArrivals => exact h.atPhase _
  | elsewhen => exact h.atPhase _
  | arrived _ hj _ ha hs => exact arrived_followed h _ hj ha hs
  | toUnit => exact h.atPhase _
  | ran diagram _ hw => exact ran_followed h diagram _ hw
  | stopped => exact h

theorem move_runTimes (hm : Move o m m') : (∀ job ∈ m'.jobs, ∃ job' ∈ m.jobs, job'.runTime = job.runTime) ∨
    (m.pc = .runTimeUnit ∧ m'.jobs = m.jobs.map work) := by
  have hsame : ∀ job ∈ m.jobs, ∃ job' ∈ m.jobs, job'.runTime = job.runTime := fun job hj => ⟨job,hj,rfl⟩
  cases hm with
  | @finished l r r' job lib' ret _ hj _ hperm =>
    refine .inl fun k hk => ?_
    obtain ⟨k',hk',rfl⟩ := List.mem_map.mp hk
    exact ⟨k',hj ▸ mem_split ((hperm.append_left l).mem_iff.mp hk'),((reseats_seat _ _).runTime k').symm⟩
  | @expired i job lib' ret =>
    refine .inl fun k hk => ?_
    rw [List.map_map] at hk
    obtain ⟨k',hk',rfl⟩ := List.mem_map.mp hk
    exact ⟨k',hk',((reseats_comp (reseats_leave i) (reseats_seat ret i)).runTime k').symm⟩
  | @arrived l r job lib' ret _ hj =>
    refine .inl fun k hk => ?_
    rcases mem_middle_map.mp hk with rfl | ⟨k',hk',rfl⟩
    · exact ⟨job,by simp [hj],rfl⟩
    · exact ⟨k',hj ▸ mem_split hk',((reseats_leave ret).runTime k').symm⟩
  | ran _ hpc => exact .inr ⟨hpc,rfl⟩
  | _ => exact .inl hsame

theorem move_tracked (h : Tracked o m) (hp : Phased m) (hm : Move o m m') : Tracked o m' where
  toFollowed := move_followed h.toFollowed hm
  owed k hk := by
    rcases move_runTimes hm with hsame | ⟨hpc,hjobs⟩
    · obtain ⟨k',hk',hrun⟩ := hsame k hk
      exact hrun ▸ h.owed k' hk'
    · rw [Phased,hpc] at hp
      rw [hjobs] at hk
      obtain ⟨k',hk',rfl⟩ := List.mem_map.mp hk
      have hne := hp.2.1 k' hk'
      have hle := h.owed k' hk'
      unfold work
      split
      · simp only
        omega
      · exact hle

end OperatingSystemLabs.Simulator

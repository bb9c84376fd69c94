import OperatingSystemLabs.Scheduler.Protocol

namespace OperatingSystemLabs.Scheduler

open Keyed

structure CoreAssignment (cores : Nat) (tr : Trace) (s : Lib) : Prop where
  valid : ∀ j ∈ s.jobs, j.coreId = -1 ∨ (0 ≤ j.coreId ∧ j.coreId < cores)
  exclusive : s.jobs.Pairwise (fun a b => a.coreId = b.coreId → a.coreId = -1)
  sized : s.coreList.length = cores
  active : ∀ (c : Nat) (core : CoreT), s.coreList[c]? = some core →
    (core.active ≠ -1 ↔ ∃ j ∈ s.jobs, j.coreId = c)
  once : (s.jobs.map JobT.jobId).Nodup
  queued : ∀ id, id ∈ s.jobs.map JobT.jobId ↔ Arrived id tr ∧ ¬ Finished id tr

def coreAfter : Call → Int → JobT → Int
  | .newJob _ _ _ _, ret, j => if j.coreId = ret then -1 else j.coreId
  | .jobFinished core _ _, ret, j => if j.jobId = ret then core else j.coreId
  | .quantumExpired core _, ret, j =>
      if j.jobId = ret then core else if j.coreId = core then -1 else j.coreId

def Displaced (jobs' : List JobT) (j : JobT) : Prop :=
  Running j ∧ ∃ j' ∈ jobs', j'.jobId = j.jobId ∧ j'.coreId ≠ j.coreId

def Announced : Call → Int → List JobT → List JobT → Prop
  | .newJob id _ _ _, ret, jobs, jobs' =>
      (∃ j' ∈ jobs', j'.jobId = id ∧ j'.coreId = ret) ∧
      (∀ j ∈ jobs, Displaced jobs' j → j.coreId = ret) ∧
      ∀ i ∈ jobs, ∀ j ∈ jobs, Displaced jobs' i → Displaced jobs' j → i = j
  | .jobFinished core id _, ret, jobs, jobs' =>
      (ret = -1 ∧ (∀ j ∈ jobs, j.jobId ≠ id → Running j) ∧ ∀ j' ∈ jobs', j'.coreId ≠ core) ∨
      (∃ j ∈ jobs, j.jobId = ret ∧ j.coreId = -1) ∧ ∃ j' ∈ jobs', j'.jobId = ret ∧ j'.coreId = core
  | .quantumExpired core _, ret, jobs, jobs' =>
      (ret = -1 ∧ (∀ j ∈ jobs, j.coreId ≠ core) ∧ ∀ j' ∈ jobs', j'.coreId ≠ core) ∨
      (∃ j ∈ jobs, j.jobId = ret ∧ (j.coreId = -1 ∨ j.coreId = core)) ∧
        ∃ j' ∈ jobs', j'.jobId = ret ∧ j'.coreId = core

variable {scheme : SchemeT} {cores : Nat} {tr : Trace} {s s' : Lib} {call : Call} {ret : Int}
variable {b b' : Board}

theorem Governed.coreAssignment (h : Governed scheme cores tr s) : CoreAssignment cores tr s where
  valid _ hj := h.sound.valid hj
  exclusive := h.sound.exclusive
  sized := h.linked.cores
  active := h.linked.flags
  once := h.sound.distinct
  queued := h.alive

theorem entry_after {j j' : JobT} (h : Step scheme cores call b ret b') (hs : Sound cores b.jobs)
    (ha : call.Admissible scheme cores b.jobs) (hj : j ∈ b.jobs) (hj' : j' ∈ b'.jobs)
    (hid : j'.jobId = j.jobId) : j'.coreId = coreAfter call ret j := by
  have hmem : entry call.time j' ∈ reassign call ret (b.jobs.map (entry call.time)) :=
    (step_reassign h hs ha).mem_iff.mp (List.mem_map_of_mem hj')
  have hsame {k : JobT} (hk : k ∈ b.jobs) (hkid : k.jobId = j'.jobId) : k = j :=
    hs.job_injective hk hj (hkid.trans hid)
  cases call with
  | newJob id t run pri =>
    rcases List.mem_cons.mp hmem with he | he
    · have hnew : j'.jobId = id := congrArg Entry.jobId he
      exact absurd (hid.symm.trans hnew) (ha.2 j hj)
    · rw [List.map_map] at he
      obtain ⟨k,hk,he⟩ := List.mem_map.mp he
      have hkj := hsame hk (by simpa using congrArg Entry.jobId he)
      have hc := congrArg Entry.coreId he
      rw [Function.comp_apply,vacate_coreId,hkj] at hc
      exact hc.symm
  | jobFinished core id t =>
    obtain ⟨e,he,heq⟩ := List.mem_map.mp hmem
    obtain ⟨k,hk,rfl⟩ := List.mem_map.mp (List.mem_filter.mp he).1
    have hkj := hsame hk (by simpa using congrArg Entry.jobId heq)
    have hc := congrArg Entry.coreId heq
    rw [occupy_coreId,hkj] at hc
    exact hc.symm
  | quantumExpired core t =>
    rw [reassign,List.map_map,List.map_map] at hmem
    obtain ⟨k,hk,heq⟩ := List.mem_map.mp hmem
    have hkj := hsame hk (by simpa using congrArg Entry.jobId heq)
    have hc := congrArg Entry.coreId heq
    simp only [Function.comp_apply,occupy_coreId,vacate_coreId,vacate_jobId,hkj] at hc
    exact hc.symm

theorem member_after (h : Step scheme cores call b ret b') (hs : Sound cores b.jobs)
    (ha : call.Admissible scheme cores b.jobs) {e : Entry}
    (he : e ∈ reassign call ret (b.jobs.map (entry call.time))) :
    ∃ j' ∈ b'.jobs, j'.jobId = e.jobId ∧ j'.coreId = e.coreId := by
  obtain ⟨j',hj',rfl⟩ := List.mem_map.mp ((step_reassign h hs ha).mem_iff.mpr he)
  exact ⟨j',hj',rfl,rfl⟩

theorem step_announced (h : Step scheme cores call b ret b') (hs : Sound cores b.jobs)
    (ha : call.Admissible scheme cores b.jobs) : Announced call ret b.jobs b'.jobs := by
  have hafter {j j' : JobT} (hj : j ∈ b.jobs) (hj' : j' ∈ b'.jobs) := entry_after h hs ha hj hj'
  have hanswer := step_answer h hs ha call.time
  have hmem := @member_after scheme cores call ret b b' h hs ha
  have hids := step_ids h hs ha
  cases call with
  | newJob id t run pri =>
    have hlost : ∀ j ∈ b.jobs, Displaced b'.jobs j → j.coreId = ret := by
      rintro j hj ⟨-,j',hj',hid,hne⟩
      rw [hafter hj hj' hid,coreAfter] at hne
      by_contra hc
      rw [if_neg hc] at hne
      exact hne rfl
    refine ⟨hmem List.mem_cons_self,hlost,fun i hi j hj hdi hdj => ?_⟩
    exact hs.core_injective hi hj ((hlost i hi hdi).trans (hlost j hj hdj).symm) hdi.1
  | jobFinished core id t =>
    obtain ⟨hcore,f,hf,hfid,hfc⟩ := ha
    rcases hanswer with ⟨hret,hrun⟩ | ⟨e,he,heid,hec⟩
    · have hbusy : ∀ j ∈ b.jobs, j.jobId ≠ id → Running j :=
        fun j hj hne => hrun (entry t j) (List.mem_map_of_mem hj) hne
      refine .inl ⟨hret,hbusy,fun j' hj' hc => ?_⟩
      obtain ⟨hold,hnid⟩ := List.mem_filter.mp (hids.mem_iff.mp (List.mem_map_of_mem hj'))
      obtain ⟨j,hj,hid⟩ := List.mem_map.mp hold
      have hne : j.jobId ≠ ret := by
        rw [hret]
        exact hs.numbered (entry 0 j) (List.mem_map_of_mem hj)
      rw [hafter hj hj' hid.symm,coreAfter,if_neg hne] at hc
      have hjf := hs.core_injective hj hf (hc.trans hfc.symm) (by rw [Running,hc]; exact hcore)
      exact of_decide_eq_true hnid (by rw [← hid,hjf,hfid])
    · obtain ⟨j,hj,rfl⟩ := List.mem_map.mp he
      refine .inr ⟨⟨j,hj,heid,hec⟩,?_⟩
      have hne : j.jobId ≠ id := by
        intro hid
        have hjf := hs.job_injective hj hf (hid.trans hfid.symm)
        exact hcore (hfc.symm.trans (hjf ▸ hec))
      have hkept : entry t j ∈ (b.jobs.map (entry t)).filter (·.jobId ≠ id) :=
        List.mem_filter.mpr ⟨he,decide_eq_true hne⟩
      obtain ⟨j',hj',hid',hc'⟩ := hmem (List.mem_map_of_mem hkept)
      rw [occupy_coreId] at hc'
      rw [occupy_jobId] at hid'
      exact ⟨j',hj',hid'.trans heid,hc'.trans (if_pos heid)⟩
  | quantumExpired core t =>
    rcases hanswer with ⟨hret,hnone⟩ | ⟨-,e,he,heid,hec⟩
    · have hfree : ∀ j ∈ b.jobs, j.coreId ≠ core :=
        fun j hj => hnone (entry t j) (List.mem_map_of_mem hj)
      refine .inl ⟨hret,hfree,fun j' hj' hc => ?_⟩
      obtain ⟨j,hj,hid⟩ := List.mem_map.mp (hids.mem_iff.mp (List.mem_map_of_mem hj'))
      have hne : j.jobId ≠ ret := by
        rw [hret]
        exact hs.numbered (entry 0 j) (List.mem_map_of_mem hj)
      rw [hafter hj hj' hid.symm,coreAfter,if_neg hne,if_neg (hfree j hj)] at hc
      exact hfree j hj hc
    · obtain ⟨j,hj,rfl⟩ := List.mem_map.mp he
      refine .inr ⟨⟨j,hj,heid,hec⟩,?_⟩
      obtain ⟨j',hj',hid',hc'⟩ := hmem (List.mem_map_of_mem (List.mem_map_of_mem he))
      rw [occupy_coreId,vacate_jobId] at hc'
      rw [occupy_jobId,vacate_jobId] at hid'
      exact ⟨j',hj',hid'.trans heid,hc'.trans (if_pos heid)⟩

theorem run_core_assignment (h : Run scheme cores Unguarded tr s) :
    CoreAssignment cores tr s ∧
    ∀ call, Legal scheme cores tr s.jobs call → (∀ e ∈ tr, e.1.time ≤ call.time) →
      ∃ s' ret, call.perform s = .ok (s',ret) ∧ Run scheme cores Unguarded (tr ++ [(call,ret)]) s' ∧
        CoreAssignment cores (tr ++ [(call,ret)]) s' ∧
        (∀ j ∈ s.jobs, ∀ j' ∈ s'.jobs, j'.jobId = j.jobId → j'.coreId = coreAfter call ret j) ∧
        Announced call ret s.jobs s'.jobs := by
  have hg := h.governed
  refine ⟨hg.coreAssignment,fun call hl ht => ?_⟩
  obtain ⟨s',ret,hrun,hstep,hg'⟩ := hg.step hl
  have ha := hg.admissible hl
  refine ⟨s',ret,hrun,.call h hl ht trivial hrun,hg'.coreAssignment,?_,step_announced hstep hg.sound ha⟩
  exact fun j hj j' hj' hid => entry_after hstep hg.sound ha hj hj' hid

theorem run_core_assignment_preempting :
    ∃ s : Lib, s.jobs.map (fun j => (j.jobId,j.coreId)) = [(7,0),(4,-1)] ∧
      CoreAssignment 1 [(.newJob 4 0 5 9,0),(.newJob 7 2 3 1,0)] s := by
  have h1 : Run .ppri 1 Unguarded [(.newJob 4 0 5 9,0)] _ :=
    .call .start (show Legal .ppri 1 [] _ (.newJob 4 0 5 9) from ⟨by decide,by simp [Arrived]⟩)
      (List.forall_mem_nil _) trivial rfl
  have h2 : Run .ppri 1 Unguarded ([(.newJob 4 0 5 9,0)] ++ [(.newJob 7 2 3 1,0)]) _ :=
    .call h1 ⟨by decide,by simp [Arrived]⟩ (by simp [Call.time]) trivial rfl
  exact ⟨_,rfl,(run_core_assignment h2).1⟩

theorem run_work_conserving (h : Run scheme cores Unguarded tr s) :
    (s.jobs.filter (Running ·)).length = min cores s.jobs.length ∧
    (∀ (c : Nat) (core : CoreT), s.coreList[c]? = some core → core.active = -1 →
      ∀ j ∈ s.jobs, Running j) ∧
    ∀ core t, Legal scheme cores tr s.jobs (.quantumExpired core t) →
      (∃ j ∈ s.jobs, j.coreId = core) →
      ∃ s' ret, schedulerQuantumExpired s core t = .ok (s',ret) ∧ (∃ j ∈ s.jobs, j.jobId = ret) ∧
        (∃ j' ∈ s'.jobs, j'.jobId = ret ∧ j'.coreId = core) ∧
        ∀ k, s'.coreList[core.toNat]? = some k → k.active ≠ -1 := by
  have hg := h.governed
  refine ⟨running_count hg.sound,fun c core hc hidle => ?_,fun core t hl hbusy => ?_⟩
  · have hlen : c < s.coreList.length := (List.getElem?_eq_some_iff.mp hc).1
    rw [hg.linked.cores] at hlen
    refine hg.sound.running_of_idle (c := c) (by omega) (by omega) (fun j hj hjc => ?_)
    exact (hg.linked.flags c core hc).mpr ⟨j,hj,hjc⟩ hidle
  · obtain ⟨s',ret,hrun,hstep,hg'⟩ := hg.step hl
    rcases step_announced hstep hg.sound (hg.admissible hl) with ⟨-,hfree,-⟩ | ⟨⟨j,hj,hid,-⟩,j',hj',hid',hc'⟩
    · obtain ⟨j,hj,hc⟩ := hbusy
      exact absurd hc (hfree j hj)
    · refine ⟨s',ret,hrun,⟨j,hj,hid⟩,⟨j',hj',hid',hc'⟩,fun k hk => ?_⟩
      refine (hg'.linked.flags core.toNat k hk).mpr ⟨j',hj',?_⟩
      have := hl.2.1
      omega

theorem run_work_conserving_expiring : ∃ s s' : Lib, ∃ ret,
    s.jobs.map (fun j => (j.jobId,j.coreId)) = [(1,1),(2,0),(0,-1)] ∧
    (s.jobs.filter (Running ·)).length = min 2 s.jobs.length ∧
    schedulerQuantumExpired s 1 2 = .ok (s',ret) ∧ ∃ j ∈ s'.jobs, j.jobId = ret ∧ j.coreId = 1 := by
  have h1 : Run .rr 2 Unguarded [(.newJob 0 0 5 0,0)] _ :=
    .call .start (show Legal .rr 2 [] _ (.newJob 0 0 5 0) from ⟨by decide,by simp [Arrived]⟩)
      (List.forall_mem_nil _) trivial rfl
  have h2 : Run .rr 2 Unguarded ([(.newJob 0 0 5 0,0)] ++ [(.newJob 1 0 4 0,1)]) _ :=
    .call h1 ⟨by decide,by simp [Arrived]⟩ (by simp [Call.time]) trivial rfl
  have h3 : Run .rr 2 Unguarded (([(.newJob 0 0 5 0,0)] ++ [(.newJob 1 0 4 0,1)]) ++
      [(.newJob 2 1 3 0,-1)]) _ :=
    .call h2 ⟨by decide,by simp [Arrived]⟩ (by simp [Call.time]) trivial rfl
  have h4 : Run .rr 2 Unguarded ((([(.newJob 0 0 5 0,0)] ++ [(.newJob 1 0 4 0,1)]) ++
      [(.newJob 2 1 3 0,-1)]) ++ [(.quantumExpired 0 2,2)]) _ :=
    .call h3 ⟨rfl,by decide,by decide⟩ (by simp [Call.time]) trivial rfl
  obtain ⟨hcount,-,hexpired⟩ := run_work_conserving h4
  obtain ⟨s',ret,hran,-,hseated,-⟩ := hexpired 1 2 ⟨rfl,by decide,by decide⟩ ⟨_,.head _,rfl⟩
  exact ⟨_,s',ret,rfl,hcount,hran,hseated⟩

end OperatingSystemLabs.Scheduler

import OperatingSystemLabs.Scheduler.Dispatch

namespace OperatingSystemLabs.Scheduler

open Insertion Keyed

variable {scheme : SchemeT} {cores : Nat} {call : Call} {b b' : Board} {ret : Int} {jobs : List JobT}

def Leading (jobs : List JobT) : Prop := jobs.Pairwise (fun a b => Running b → Running a)

theorem Sound.valid (hs : Sound cores jobs) {j : JobT} (hj : j ∈ jobs) :
    j.coreId = -1 ∨ (0 ≤ j.coreId ∧ j.coreId < cores) :=
  (Table.toRoster hs).valid (entry 0 j) (List.mem_map_of_mem hj)

theorem Sound.valid_of_running (hs : Sound cores jobs) {j : JobT} (hj : j ∈ jobs) (hr : Running j) :
    0 ≤ j.coreId ∧ j.coreId < cores := (hs.valid hj).resolve_left hr

theorem Sound.distinct (hs : Sound cores jobs) : (jobs.map JobT.jobId).Nodup :=
  entry_time_jobId 0 jobs ▸ (Table.toRoster hs).distinct

theorem Sound.exclusive (hs : Sound cores jobs) :
    jobs.Pairwise (fun a b => a.coreId = b.coreId → a.coreId = -1) :=
  List.pairwise_map.mp (Table.toRoster hs).exclusive

theorem Sound.busy (hs : Sound cores jobs) {w : JobT} (hw : w ∈ jobs) (hc : w.coreId = -1) :
    Full cores jobs :=
  (full_iff_occupied 0).mpr (Table.busy hs ⟨entry 0 w,List.mem_map_of_mem hw,hc⟩)

theorem Sound.job_injective (hs : Sound cores jobs) {i j : JobT} (hi : i ∈ jobs) (hj : j ∈ jobs)
    (he : i.jobId = j.jobId) : i = j := key_injective hs.distinct hi hj he

theorem Sound.core_injective (hs : Sound cores jobs) {i j : JobT} (hi : i ∈ jobs) (hj : j ∈ jobs)
    (hc : i.coreId = j.coreId) (hr : Running i) : i = j := by
  have he := (Table.toRoster hs).core_injective (List.mem_map_of_mem hi) (List.mem_map_of_mem hj) hc hr
  exact hs.job_injective hi hj (congrArg Entry.jobId he)

theorem Sound.split_ne {l r : List JobT} {j : JobT} (hs : Sound cores (l ++ j :: r)) (hr : Running j) :
    ∀ k ∈ l ++ r, k.coreId ≠ j.coreId := by
  intro k hk hc
  have hkj : k = j := hs.core_injective (mem_split hk) (by simp) hc (by rw [Running,hc]; exact hr)
  exact key_ne_of_split hs.distinct k hk (by rw [hkj])

theorem Sound.running_of_idle (hs : Sound cores jobs) {c : Int} (h0 : 0 ≤ c) (hc : c < cores)
    (hidle : ∀ j ∈ jobs, j.coreId ≠ c) : ∀ j ∈ jobs, Running j := by
  intro j hj hw
  obtain ⟨k,hk,hkc⟩ := hs.busy hj hw c h0 hc
  exact hidle k hk hkc

theorem running_cores_nodup (hs : Sound cores jobs) :
    ((jobs.filter (Running ·)).map JobT.coreId).Nodup := by
  rw [List.Nodup,List.pairwise_map]
  refine (hs.exclusive.filter _).imp_of_mem (fun {a c} ha _ hac he => ?_)
  have hr : Running a := by simpa using (List.mem_filter.mp ha).2
  exact hr (hac he)

theorem running_cores_valid (hs : Sound cores jobs) :
    ∀ c ∈ (jobs.filter (Running ·)).map JobT.coreId, 0 ≤ c ∧ c < cores := by
  intro c hc
  obtain ⟨j,hj,rfl⟩ := List.mem_map.mp hc
  obtain ⟨hj,hr⟩ := List.mem_filter.mp hj
  exact hs.valid_of_running hj (by simpa using hr)

theorem running_count_of_full (hs : Sound cores jobs) (hf : Full cores jobs) :
    (jobs.filter (Running ·)).length = cores := by
  have hl := length_of_range (running_cores_nodup hs)
    (fun c => ⟨running_cores_valid hs c,fun hc => ?_⟩)
  · simpa using hl
  · obtain ⟨j,hj,rfl⟩ := hf c hc.1 hc.2
    have hr : j.coreId ≠ -1 := by omega
    exact List.mem_map_of_mem (List.mem_filter.mpr ⟨hj,decide_eq_true hr⟩)

theorem running_count (hs : Sound cores jobs) :
    (jobs.filter (Running ·)).length = min cores jobs.length := by
  by_cases hw : ∃ w ∈ jobs, w.coreId = -1
  · obtain ⟨w,hw,hc⟩ := hw
    have hl := running_count_of_full hs (hs.busy hw hc)
    have := List.length_filter_le (fun j => decide (Running j)) jobs
    omega
  · have hall : jobs.filter (Running ·) = jobs :=
      filter_self (fun j hj => decide_eq_true (fun hc => hw ⟨j,hj,hc⟩))
    have hle := length_le_of_bounded (running_cores_nodup hs) (running_cores_valid hs)
    rw [List.length_map,hall] at hle
    rw [hall,Nat.min_eq_right hle]

theorem leading_append {xs ys : List JobT} (hx : ∀ j ∈ xs, Running j) (hy : ∀ j ∈ ys, j.coreId = -1) :
    Leading (xs ++ ys) := by
  refine List.pairwise_append.mpr ⟨?_,?_,fun a ha _ _ _ => hx a ha⟩
  · exact List.pairwise_of_forall_mem_list (fun a ha _ _ _ => hx a ha)
  · exact List.pairwise_of_forall_mem_list (fun _ _ c hc hr => absurd (hy c hc) hr)

theorem leading_split (h : Leading jobs) : ∃ front wait, jobs = front ++ wait ∧
    (∀ j ∈ front, Running j) ∧ ∀ j ∈ wait, j.coreId = -1 := by
  induction jobs with
  | nil => exact ⟨[],[],rfl,by simp,by simp⟩
  | cons j js ih =>
    obtain ⟨hj,hjs⟩ := List.pairwise_cons.mp h
    by_cases hr : Running j
    · obtain ⟨front,wait,rfl,hf,hw⟩ := ih hjs
      exact ⟨j :: front,wait,rfl,by simpa [hr] using hf,hw⟩
    · have hwait : ∀ k ∈ js, k.coreId = -1 := fun k hk => by
        by_contra hk'
        exact hr (hj k hk hk')
      exact ⟨[],j :: js,rfl,by simp,by simpa [Running] using ⟨not_not.mp hr,hwait⟩⟩

theorem leading_waiting {a z : List JobT} {w : JobT} (h : Leading (a ++ w :: z)) (hw : w.coreId = -1) :
    ∀ j ∈ z, j.coreId = -1 := by
  intro j hj
  have hz := (List.pairwise_cons.mp (List.pairwise_append.mp h).2.1).1 j hj
  by_contra hr
  exact hz hr hw

theorem front_length (hs : Sound cores jobs) (hf : Full cores jobs) {front wait : List JobT}
    (hb : jobs = front ++ wait) (hr : ∀ j ∈ front, Running j) (hw : ∀ j ∈ wait, j.coreId = -1) :
    front.length = cores := by
  have hl := running_count_of_full hs hf
  rw [hb,List.filter_append,filter_self (fun j hj => decide_eq_true (hr j hj)),
    List.filter_eq_nil_iff.mpr (fun j hj => by simp [Running,hw j hj])] at hl
  simpa using hl

theorem charged_running {front : List JobT} (t : Int) (h : ∀ j ∈ front, Running j) :
    ∀ j ∈ front.map (·.charged t), Running j := by
  intro j hj
  obtain ⟨k,hk,rfl⟩ := List.mem_map.mp hj
  exact h k hk

theorem wake_leading {core time pause : Int} (h : Wake core time pause b ret b') (hc : core ≠ -1)
    (hl : Leading b.jobs) : Leading b'.jobs := by
  cases h with
  | @woke a z w hb ha hw =>
    have hz := leading_waiting (hb ▸ hl) hw
    have hlead : Leading ((a ++ [w.woken core time pause]) ++ z) := leading_append (forall_mem_snoc ha hc) hz
    simpa using hlead
  | idled _ => exact hl

theorem step_leading (hp : scheme.preemptive = true) (h : Step scheme cores call b ret b')
    (hs : Sound cores b.jobs) (ha : call.Admissible scheme cores b.jobs) (hl : Leading b.jobs) :
    Leading b'.jobs := by
  cases h with
  | @startIdle b id t run pri _ l r hb _ h0 hc hidle _ =>
    have hrun := hs.running_of_idle h0 hc hidle
    rw [hb] at hrun
    have hlead : Leading ((l ++ (JobT.new id t run pri).started ret t :: r) ++ []) := by
      refine leading_append ?_ (by simp)
      intro j hj
      rcases mem_middle.mp hj with rfl | hj
      · simp only [Running,JobT.started]
        omega
      · exact hrun j hj
    simpa using hlead
  | @preempt b id t run pri front l r wait v _ _ _ hf _ _ hrun hv hwait =>
    have hlr : ∀ j ∈ l ++ r, Running j := hf ▸ charged_running t hrun
    have hlead : Leading ((l ++ (JobT.new id t run pri).preempting v.coreId t :: r) ++
        (v.charged t).preempted t :: wait) := by
      refine leading_append ?_ (by simpa [JobT.preempted] using hwait)
      intro j hj
      rcases mem_middle.mp hj with rfl | hj
      · exact hv
      · exact hlr j hj
    simpa using hlead
  | @queueBehind b id t run pri front l r _ _ _ _ _ hrun hwait =>
    refine leading_append (charged_running t hrun) ?_
    intro j hj
    rcases mem_middle.mp hj with rfl | hj
    · rfl
    · exact hwait j hj
  | queueUp hnp => exact absurd hp (by simp [hnp])
  | @finish b b' c id t ret l r f hb _ _ hw =>
    rw [hb] at hl
    exact wake_leading hw ha.1 (hl.sublist ((List.sublist_cons_self f r).append_left l))
  | expire => exact absurd hp (by simp [ha.1,SchemeT.preemptive])
  | expireIdle => exact hl

end OperatingSystemLabs.Scheduler

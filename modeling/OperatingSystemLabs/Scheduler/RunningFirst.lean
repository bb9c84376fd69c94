import OperatingSystemLabs.Scheduler.QueueBounds

namespace OperatingSystemLabs.Scheduler

open Insertion Keyed

variable {scheme : SchemeT} {cores : Nat} {tr : Trace} {s : Lib} {jobs : List JobT}

theorem running_iff_index (hs : Sound cores jobs) (hl : Leading jobs) {i : Nat} {job : JobT} (h : jobs[i]? = some job) :
    Running job ↔ i < min cores jobs.length := by
  have hcount := running_count hs
  obtain ⟨front,wait,rfl,hfront,hwait⟩ := leading_split hl
  rw [List.filter_append,filter_self (fun j hj => decide_eq_true (hfront j hj)),
    List.filter_eq_nil_iff.mpr (fun j hj => by simp [Running,hwait j hj]),List.append_nil] at hcount
  rw [← hcount]
  by_cases hi : i < front.length
  · rw [List.getElem?_append_left hi] at h
    exact iff_of_true (hfront job (List.mem_of_getElem? h)) hi
  · rw [List.getElem?_append_right (Nat.le_of_not_lt hi)] at h
    exact iff_of_false (fun hr => hr (hwait job (List.mem_of_getElem? h))) hi

theorem full_of_busy (hl : Linked scheme cores s) (hbusy : idleCore 0 s.coreList = -1) : Full cores s.jobs := by
  rcases idleCore_spec 0 s.coreList with ⟨-,hall⟩ | ⟨l,core,r,-,-,-,he⟩
  · exact hl.cores ▸ hl.flags.full hall
  · omega

-- What the first loop of the preemptive branch does: `victim` is the entry it ends at.
theorem charges_running (hcores : 1 ≤ cores) (hl : Linked scheme cores s) (hs : Sound cores s.jobs)
    (hlead : Leading s.jobs) (hbusy : idleCore 0 s.coreList = -1) (mem₀ : Ptr → JobT) (time : Int) :
    ∃ mem victim, chargeRunning s.queue time s.coreList.length 0 mem₀ none = .ok (mem,some victim) ∧
      priqueueAt s.queue (cores - 1 : Nat) = .ok victim ∧ Running (s.mem victim) ∧
      ∀ p, mem p = if p ∈ s.queue.head ∧ Running (s.mem p) then (mem₀ p).charged time else mem₀ p := by
  obtain ⟨front,wait,hq,hlen,hrun,hwait⟩ := running_front hs hlead (full_of_busy hl hbusy)
  obtain ⟨mem,hloop,hin,hout⟩ := charge_front hl hq hlen mem₀ time
  rcases List.eq_nil_or_concat' front with rfl | ⟨before,victim,rfl⟩
  · simp only [List.length_nil] at hlen
    omega
  have hsplit : s.queue.head = before ++ victim :: wait := by rw [hq,List.append_assoc,List.singleton_append]
  rw [List.length_append,List.length_singleton] at hlen
  refine ⟨mem,victim,?_,?_,hrun victim (by simp),fun p => ?_⟩
  · rw [hloop,List.getLast?_concat]
  · rw [← hlen,Nat.add_sub_cancel]
    exact priqueueAt_append hsplit
  · by_cases hp : p ∈ before ++ [victim]
    · rw [if_pos ⟨hq ▸ List.mem_append_left _ hp,hrun p hp⟩,hin p hp]
    · rw [if_neg,hout p hp]
      rintro ⟨hmem,hr⟩
      rw [hq] at hmem
      exact hr (hwait p ((List.mem_append.mp hmem).resolve_left hp))

theorem running_jobs_lead (hcores : 1 ≤ cores) (hscheme : scheme = .ppri ∨ scheme = .psjf)
    (h : Calls scheme cores tr s) :
    (∀ (i : Nat) (job : JobT), s.jobs[i]? = some job → (Running job ↔ i < min cores s.jobs.length)) ∧
    (idleCore 0 s.coreList = -1 → ∀ id time run pri, ∃ mem victim,
      chargeRunning s.queue time s.coreList.length 0 (admitted s id time run pri).mem none = .ok (mem,some victim) ∧
      priqueueAt s.queue (cores - 1 : Nat) = .ok victim ∧ Running (s.mem victim) ∧
      ∀ p, mem p = if p ∈ s.queue.head ∧ Running (s.mem p) then ((admitted s id time run pri).mem p).charged time
        else (admitted s id time run pri).mem p) := by
  have hp : scheme.preemptive = true := by
    rcases hscheme with rfl | rfl
    · rfl
    · rfl
  have hg := h.governed
  have hlead := hg.leading hp
  refine ⟨fun i job hi => running_iff_index hg.sound hlead hi,fun hbusy id time run pri => ?_⟩
  exact charges_running hcores hg.linked hg.sound hlead hbusy _ time

theorem running_jobs_lead_preempting : ∃ tr s, Calls .ppri 1 tr s ∧
    tr.map Prod.fst = [.newJob 0 0 5 3,.newJob 1 1 2 1] ∧
    ∀ (i : Nat) (job : JobT), s.jobs[i]? = some job → (Running job ↔ i < min 1 s.jobs.length) := by
  obtain ⟨s₁,r₁,h₁⟩ := (Calls.start : Calls .ppri 1 [] _).arrives 0 0 5 3 (by decide) nofun
  obtain ⟨s₂,r₂,h₂⟩ := h₁.arrives 1 1 2 1 (by decide) (by simp [Arrived])
  exact ⟨_,s₂,h₂,rfl,(running_jobs_lead le_rfl (.inl rfl) h₂).1⟩

end OperatingSystemLabs.Scheduler

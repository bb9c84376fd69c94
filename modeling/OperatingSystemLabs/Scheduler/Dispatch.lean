import OperatingSystemLabs.Scheduler.Assignment

namespace OperatingSystemLabs.Scheduler

open Insertion Keyed

variable {scheme : SchemeT} {cores : Nat} {call : Call} {b b' : Board} {ret : Int}

theorem Call.Admissible.admits {jobs : List JobT} (h : call.Admissible scheme cores jobs) (t : Int) :
    Admits cores call (jobs.map (entry t)) := by
  cases call with
  | newJob => exact ⟨h.1,by simpa using h.2⟩
  | jobFinished => exact ⟨h.1,by simpa using h.2⟩
  | quantumExpired => exact h.2

theorem full_iff_occupied {jobs : List JobT} (t : Int) :
    Full cores jobs ↔ Occupied cores (jobs.map (entry t)) := by
  simp [Full,Occupied]

theorem wake_entries {core time pause : Int} (h : Wake core time pause b ret b') (hc : core ≠ -1)
    (hr : Roster cores (b.jobs.map (entry time))) :
    b'.jobs.map (entry time) = (b.jobs.map (entry time)).map (occupy ret core) := by
  cases h with
  | @woke a z w hb _ hw =>
    have hrow : b.jobs.map (entry time) =
        a.map (entry time) ++ entry time w :: z.map (entry time) := by
      rw [hb,List.map_append,List.map_cons]
    rw [hrow] at hr ⊢
    have hothers : ∀ e ∈ a.map (entry time) ++ z.map (entry time), occupy w.jobId core e = e :=
      fun e he => occupy_of_ne (key_ne_of_split hr.distinct e he)
    rw [map_split hothers,← entry_woken time pause hw hc,List.map_append,List.map_cons]
  | idled _ => exact (map_occupy hr.numbered).symm

theorem wake_answer {core time pause : Int} (h : Wake core time pause b ret b') :
    (ret = -1 ∧ ∀ j ∈ b.jobs, Running j) ∨ ∃ j ∈ b.jobs, j.jobId = ret ∧ j.coreId = -1 := by
  cases h with
  | @woke a z w hb _ hw => exact .inr ⟨w,by simp [hb],rfl,hw⟩
  | idled hrun => exact .inl ⟨rfl,hrun⟩

theorem step_reassign (h : Step scheme cores call b ret b') (hs : Sound cores b.jobs)
    (ha : call.Admissible scheme cores b.jobs) :
    (b'.jobs.map (entry call.time)).Perm (reassign call ret (b.jobs.map (entry call.time))) := by
  have ht := hs.table call.time
  cases h with
  | @startIdle b id t run pri _ l r hb _ h0 _ hidle _ =>
    have hne : ∀ e ∈ b.jobs.map (entry t), e.coreId ≠ ret := by simpa using hidle
    simp only [reassign,Call.time,map_vacate hne]
    rw [hb,List.map_append,List.map_append,List.map_cons,entry_started (by omega)]
    exact List.perm_middle
  | @preempt b id t run pri front l r wait v _ hb _ hf _ _ hrun hv hwait =>
    have hr := ht.toRoster
    simp only [Call.time] at hr ⊢
    rw [hb,List.map_append,List.map_cons] at hr ⊢
    have hothers : ∀ e ∈ front.map (entry t) ++ wait.map (entry t), vacate v.coreId e = e :=
      fun e he => vacate_of_ne (hr.split_ne hv e he)
    have hsplit : front.map (entry t) = l.map (entry t) ++ r.map (entry t) := by
      rw [← map_entry_charged t hrun,hf,List.map_append]
    simp only [reassign,map_split hothers,List.map_append,List.map_cons]
    rw [entry_preempting hv,entry_preempted t hv,hsplit,List.append_assoc]
    exact List.perm_middle
  | @queueBehind b id t run pri front l r _ hb _ _ _ hrun _ =>
    simp only [reassign,Call.time,map_self (fun e _ => vacate_idle e)]
    rw [hb]
    simp only [List.map_append,List.map_cons]
    rw [map_entry_charged t hrun,entry_new,← List.append_assoc,← List.append_assoc]
    exact List.perm_middle
  | @queueUp b id t run pri l r _ hb _ _ =>
    simp only [reassign,Call.time,map_self (fun e _ => vacate_idle e)]
    rw [hb,List.map_append,List.map_append,List.map_cons,entry_new]
    exact List.perm_middle
  | @finish b b' c id t ret l r f hb hfid hfc hw =>
    have hr := ht.toRoster
    simp only [Call.time] at hr ⊢
    rw [hb,List.map_append,List.map_cons] at hr ⊢
    have hother : ∀ e ∈ l.map (entry t) ++ r.map (entry t), decide (e.jobId ≠ id) = true := by
      intro e he
      have := key_ne_of_split hr.distinct e he
      rw [entry_jobId,hfid] at this
      exact decide_eq_true this
    have hfilter : (l.map (entry t) ++ entry t f :: r.map (entry t)).filter (·.jobId ≠ id) =
        (l ++ r).map (entry t) := by
      rw [filter_split (by simp [hfid]) hother,List.map_append]
    have hrest : Roster cores ((l ++ r).map (entry t)) := hfilter ▸ hr.filter _
    rw [wake_entries hw ha.1 hrest]
    simp only [reassign,hfilter]
    rfl
  | @expire b b' c t ret l r l' r' e hb hec hlr _ hw =>
    have hr := ht.toRoster
    have hcv : c ≠ -1 := by
      have := ha.2
      omega
    have he : Running e := by
      rw [Running,hec]
      exact hcv
    simp only [Call.time] at hr ⊢
    rw [hb,List.map_append,List.map_cons] at hr ⊢
    have hothers : ∀ x ∈ l.map (entry t) ++ r.map (entry t), vacate c x = x :=
      fun x hx => vacate_of_ne (hec ▸ hr.split_ne he x hx)
    have hperm : ((l' ++ e.expired t :: r').map (entry t)).Perm
        ((l.map (entry t) ++ entry t e :: r.map (entry t)).map (vacate c)) := by
      rw [map_split hothers,List.map_append,List.map_cons,entry_expired t he,hec]
      refine List.perm_middle.trans (List.Perm.trans ?_ List.perm_middle.symm)
      rw [← List.map_append,← List.map_append,hlr]
    have hroster := roster_perm hperm.symm (hr.vacated c)
    rw [wake_entries hw hcv hroster]
    exact hperm.map _
  | @expireIdle b c t hnone =>
    have hne : ∀ e ∈ b.jobs.map (entry t), e.coreId ≠ c := by simpa using hnone
    have hsame : reassign (.quantumExpired c t) (-1) (b.jobs.map (entry t)) = b.jobs.map (entry t) := by
      rw [reassign,map_vacate hne,map_occupy (hs.table t).numbered]
    exact .of_eq hsame.symm

theorem step_answer (h : Step scheme cores call b ret b') (hs : Sound cores b.jobs)
    (ha : call.Admissible scheme cores b.jobs) (t : Int) :
    Answer cores call ret (b.jobs.map (entry t)) := by
  cases h with
  | startIdle hb _ h0 hc hidle _ => exact .inr ⟨h0,hc,.inl (by simpa using hidle)⟩
  | @preempt b id u run pri front l r wait v _ hb _ _ _ hf _ hv _ =>
    have hvalid := (hs.table t).valid (entry t v) (by simp [hb])
    rcases hvalid with hvalid | hvalid
    · exact absurd hvalid hv
    · exact .inr ⟨hvalid.1,hvalid.2,.inr ((full_iff_occupied t).mp hf)⟩
  | queueBehind _ _ _ _ hf _ _ => exact .inl ⟨rfl,(full_iff_occupied t).mp hf⟩
  | queueUp _ _ _ hf => exact .inl ⟨rfl,(full_iff_occupied t).mp hf⟩
  | @finish b b' c id u ret l r f hb hfid hfc hw =>
    rcases wake_answer hw with ⟨hret,hrun⟩ | ⟨j,hj,hjid,hjc⟩
    · refine .inl ⟨hret,?_⟩
      simp only [List.mem_map,forall_exists_index,and_imp,forall_apply_eq_imp_iff₂,hb]
      intro j hj hne
      refine hrun j ?_
      rcases List.mem_append.mp hj with hj | hj
      · exact List.mem_append_left _ hj
      · rcases List.mem_cons.mp hj with rfl | hj
        · exact absurd hfid hne
        · exact List.mem_append_right _ hj
    · exact .inr ⟨entry t j,List.mem_map_of_mem (hb ▸ mem_split hj),hjid,hjc⟩
  | @expire b b' c u ret l r l' r' e hb hec hlr _ hw =>
    refine .inr ⟨⟨entry t e,by simp [hb],hec⟩,?_⟩
    rcases wake_answer hw with ⟨-,hrun⟩ | ⟨j,hj,hjid,hjc⟩
    · exact absurd rfl (hrun (e.expired u) (by simp))
    · rcases mem_middle.mp hj with rfl | hj
      · exact ⟨entry t e,by simp [hb],hjid,.inr hec⟩
      · exact ⟨entry t j,List.mem_map_of_mem (hb ▸ mem_split (hlr ▸ hj)),hjid,.inl hjc⟩
  | expireIdle hnone => exact .inl ⟨rfl,by simpa using hnone⟩

theorem step_sound (h : Step scheme cores call b ret b') (hs : Sound cores b.jobs)
    (ha : call.Admissible scheme cores b.jobs) : Sound cores b'.jobs := by
  have hnew := table_reassign (hs.table call.time) (ha.admits call.time)
    (step_answer h hs ha call.time)
  exact (table_perm (step_reassign h hs ha).symm hnew).sound

end OperatingSystemLabs.Scheduler

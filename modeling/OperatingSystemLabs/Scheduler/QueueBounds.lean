import OperatingSystemLabs.Scheduler.Protocol
import OperatingSystemLabs.Scheduler.PriqueueAnswers

namespace OperatingSystemLabs.Scheduler

variable {α ρ : Type}

-- for(int i=0; i<priqueue_size(QUEUE); i++): `n` entries are left, the next one at index `i`.
def showFrom (s : Lib) : Nat → Nat → Except Fault (List (Int × Int × Int))
  | 0, _ => .ok []
  | n + 1, i => do
      let job ← priqueueAt s.queue i
      let shown ← showFrom s n (i + 1)
      return ((s.mem job).jobId,(s.mem job).coreId,(s.mem job).timeRemaining) :: shown

def schedulerShowQueue (s : Lib) : Except Fault (List (Int × Int × Int)) :=
  showFrom s (priqueueSize s.queue) 0

-- The calls of any program that keeps to the protocol; the times it passes are its own affair.
inductive Calls (scheme : SchemeT) (cores : Nat) : Trace → Lib → Prop
  | start : Calls scheme cores [] (schedulerStartUp cores scheme)
  | call {tr : Trace} {s s' : Lib} {call : Call} {ret : Int} :
      Calls scheme cores tr s → Legal scheme cores tr s.jobs call → call.perform s = .ok (s',ret) →
      Calls scheme cores (tr ++ [(call,ret)]) s'

variable {scheme : SchemeT} {cores : Nat} {tr : Trace} {s : Lib}

theorem priqueueAt_ok_iff {q : PriqueueT α ρ} {index : Int} :
    (∃ n, priqueueAt q index = .ok n) ↔ 0 ≤ index ∧ index < priqueueSize q := by
  by_cases h : 0 ≤ index ∧ index < priqueueSize q
  · obtain ⟨l,n,next,hq,rfl,-⟩ := removeAt_cut h.1 h.2
    exact iff_of_true ⟨n,priqueueAt_append hq⟩ h
  · refine iff_of_false ?_ h
    rintro ⟨n,hn⟩
    rw [priqueueAt_absent (by omega)] at hn
    cases hn

theorem priqueueRemoveAt_ok_iff {q : PriqueueT α ρ} {index : Int} :
    (∃ r, priqueueRemoveAt q index = .ok r) ↔ 0 ≤ index ∧ index < priqueueSize q := by
  refine ⟨fun ⟨r,hr⟩ => removeAt_in_range hr,fun h => ?_⟩
  obtain ⟨l,n,next,-,-,hremove⟩ := removeAt_cut h.1 h.2
  exact ⟨_,hremove⟩

theorem showFrom_ok {l r : List Ptr} (h : s.queue.head = l ++ r) :
    showFrom s r.length l.length =
      .ok (r.map (fun p => ((s.mem p).jobId,(s.mem p).coreId,(s.mem p).timeRemaining))) := by
  induction r generalizing l with
  | nil => rfl
  | cons p r ih =>
    have hrest := ih (l := l ++ [p]) (by rw [h,List.append_assoc]; rfl)
    rw [List.length_append,List.length_singleton] at hrest
    rw [List.length_cons,showFrom,bind_ok _ (priqueueAt_append h),bind_ok _ hrest]
    rfl

theorem schedulerShowQueue_ok (s : Lib) :
    schedulerShowQueue s = .ok (s.jobs.map (fun job => (job.jobId,job.coreId,job.timeRemaining))) := by
  rw [schedulerShowQueue,priqueueSize,Lib.jobs,List.map_map]
  exact showFrom_ok (l := []) rfl

theorem Calls.governed (h : Calls scheme cores tr s) : Governed scheme cores tr s := by
  induction h with
  | start => exact governed_start scheme cores
  | call _ hl hrun ih =>
    obtain ⟨s',ret,hrun',-,hg⟩ := ih.step hl
    rw [hrun] at hrun'
    cases hrun'
    exact hg

theorem Calls.arrives (h : Calls scheme cores tr s) (id t run pri : Int) (h0 : id ≠ -1) (hnew : ¬ Arrived id tr) :
    ∃ s' ret, Calls scheme cores (tr ++ [(.newJob id t run pri,ret)]) s' := by
  have hl : Legal scheme cores tr s.jobs (.newJob id t run pri) := ⟨h0,hnew⟩
  obtain ⟨s',ret,hrun,-⟩ := h.governed.step hl
  exact ⟨s',ret,.call h hl hrun⟩

theorem queue_never_overrun (h : Calls scheme cores tr s) :
    (∀ call : Call, Legal scheme cores tr s.jobs call → ∃ r, call.perform s = .ok r) ∧
    (∃ shown, schedulerShowQueue s = .ok shown) ∧
    (∀ (q : PriqueueT Ptr JobT) (index : Int),
      (∃ n, priqueueAt q index = .ok n) ↔ 0 ≤ index ∧ index < priqueueSize q) ∧
    ∀ (q : PriqueueT Ptr JobT) (index : Int),
      (∃ r, priqueueRemoveAt q index = .ok r) ↔ 0 ≤ index ∧ index < priqueueSize q := by
  refine ⟨fun call hl => ?_,⟨_,schedulerShowQueue_ok s⟩,fun _ _ => priqueueAt_ok_iff,
    fun _ _ => priqueueRemoveAt_ok_iff⟩
  obtain ⟨s',ret,hrun,-⟩ := h.governed.step hl
  exact ⟨(s',ret),hrun⟩

theorem queue_never_overrun_preempting : ∃ tr s, Calls .ppri 1 tr s ∧
    tr.map Prod.fst = [.newJob 0 0 5 3,.newJob 1 1 2 1] ∧
    (∃ r, (Call.newJob 2 1 4 2).perform s = .ok r) ∧ ∃ shown, schedulerShowQueue s = .ok shown := by
  obtain ⟨s₁,r₁,h₁⟩ := (Calls.start : Calls .ppri 1 [] _).arrives 0 0 5 3 (by decide) nofun
  obtain ⟨s₂,r₂,h₂⟩ := h₁.arrives 1 1 2 1 (by decide) (by simp [Arrived])
  refine ⟨_,s₂,h₂,rfl,?_,(queue_never_overrun h₂).2.1⟩
  exact (queue_never_overrun h₂).1 (.newJob 2 1 4 2) ⟨by decide,by simp [Arrived]⟩

end OperatingSystemLabs.Scheduler

import OperatingSystemLabs.Scheduler.PriorityOrder

namespace OperatingSystemLabs.Scheduler

open Insertion

def ArrivalGuard (tr : Trace) (_ : List JobT) : Call → Prop
  | .newJob _ t _ _ => ∀ id u run pri ret, (.newJob id u run pri,ret) ∈ tr → u ≠ t
  | _ => True

-- An arrival that finds an idle core is compared with the time each queued job had left when it
-- was last charged; the last conjunct of that case says that nothing hangs on the difference.
def ShortestGuard (cores : Nat) (tr : Trace) (jobs : List JobT) : Call → Prop
  | .newJob _ t run _ =>
      (∀ id u r pri ret, (.newJob id u r pri,ret) ∈ tr → u ≠ t ∧ Fits (t - u)) ∧
      (¬ Full cores jobs → ∀ j ∈ jobs, Fits (run - j.timeRemaining) ∧
        (run < j.timeRemaining → run ≤ remaining t j)) ∧
      (Full cores jobs → ∀ j ∈ jobs, Fits (run - remaining t j))
  | _ => True

def StartedIn (tr : Trace) (jobs : List JobT) : Prop :=
  ∀ j ∈ jobs, Running j → ∃ e ∈ tr, j.startTime = e.1.time

variable {scheme : SchemeT} {cores : Nat} {tr : Trace} {s : Lib} {call : Call} {ret : Int}
variable {b b' : Board} {jobs : List JobT}

theorem remaining_running {j : JobT} (t : Int) (h : Running j) :
    remaining t j = j.timeRemaining - (t - j.startTime) := if_neg h

theorem remaining_waiting {j : JobT} (t : Int) (h : j.coreId = -1) :
    remaining t j = j.timeRemaining := if_pos h

theorem remaining_ranking : Ranking remaining where
  started id t run pri c hc := by
    simp [remaining,JobT.started,JobT.new,hc]
  preempting id t run pri c hc := by
    simp [remaining,JobT.preempting,JobT.new,hc]
  charged t j h := congrArg Entry.left (entry_charged t h)
  preempted t j h := by
    rw [remaining_running t h]
    rfl
  woken t j c pause h hc := by
    simp [remaining,JobT.woken,h,hc]

theorem sorted_later {t u : Int} (hl : Leading jobs) (htu : t ≤ u) (hs : Sorted (remaining t) jobs) :
    Sorted (remaining u) jobs := by
  refine (hl.and hs).imp (fun {a b} hab => ?_)
  obtain ⟨hlead,hle⟩ := hab
  by_cases hb : Running b
  · have ha := hlead hb
    rw [remaining_running t ha,remaining_running t hb] at hle
    rw [remaining_running u ha,remaining_running u hb]
    omega
  · have hbw : b.coreId = -1 := not_not.mp hb
    rw [remaining_waiting t hbw] at hle
    rw [remaining_waiting u hbw]
    by_cases ha : Running a
    · rw [remaining_running t ha] at hle
      rw [remaining_running u ha]
      omega
    · rw [remaining_waiting t (not_not.mp ha)] at hle
      rw [remaining_waiting u (not_not.mp ha)]
      exact hle

theorem psjfCompare_reads {x y : JobT} {t : Int} (hf : Fits (x.timeRemaining - y.timeRemaining))
    (ha : Fits (x.arrivalTime - y.arrivalTime)) (harr : y.arrivalTime < x.arrivalTime)
    (hx : remaining t x = x.timeRemaining) (hle : remaining t y ≤ y.timeRemaining)
    (hstale : x.timeRemaining < y.timeRemaining → x.timeRemaining ≤ remaining t y) :
    Reads psjfCompare (remaining t) x y := by
  have hcmp : psjfCompare x y = if x.timeRemaining - y.timeRemaining = 0 then
      x.arrivalTime - y.arrivalTime else x.timeRemaining - y.timeRemaining := by
    rw [psjfCompare,compareBy,intSub_of_fits hf,intSub_of_fits ha]
  rw [Reads,hcmp,hx]
  refine ⟨fun h => hstale ?_,fun h => ?_,fun h => ?_⟩
  · split at h <;> omega
  · split at h <;> omega
  · split at h <;> omega

theorem step_startedIn (h : Step scheme cores call b ret b')
    (ha : call.Admissible scheme cores b.jobs) (hs : StartedIn tr b.jobs) :
    StartedIn (tr ++ [(call,ret)]) b'.jobs := by
  have hnow : ∃ e ∈ tr ++ [(call,ret)], call.time = e.1.time := ⟨(call,ret),by simp,rfl⟩
  have hold {j : JobT} (hj : j ∈ b.jobs) (hr : Running j) :
      ∃ e ∈ tr ++ [(call,ret)], j.startTime = e.1.time := by
    obtain ⟨e,he,hej⟩ := hs j hj hr
    exact ⟨e,List.mem_append_left _ he,hej⟩
  intro j' hj' hr
  rcases step_touched h ha hj' with hnew | ⟨j,hj,htouch⟩
  · cases hnew with
    | started => exact hnow
    | preempting => exact hnow
    | queued => exact absurd rfl hr
  · cases htouch with
    | same => exact hold hj hr
    | charged => exact hnow
    | preempted => exact absurd rfl hr
    | woken => exact hnow
    | expired => exact absurd rfl hr
    | cycled => exact hnow

theorem shortest_comparable (hg : Governed .psjf cores tr s) (ht : ∀ e ∈ tr, e.1.time ≤ call.time)
    (hstart : StartedIn tr s.jobs) (hc : ShortestGuard cores tr s.jobs call) :
    Comparable .psjf cores remaining s.jobs call := by
  cases call with
  | newJob id t run pri =>
    obtain ⟨harr,hidle,hbusy⟩ := hc
    have hearlier (j : JobT) (hj : j ∈ s.jobs) : j.arrivalTime < t ∧ Fits (t - j.arrivalTime) := by
      obtain ⟨ret,hret⟩ := hg.ticketed j hj
      have hle : j.arrivalTime ≤ t := ht _ hret
      have hne := (harr _ _ _ _ _ hret).1
      exact ⟨by omega,(harr _ _ _ _ _ hret).2⟩
    have hnew : remaining t (JobT.new id t run pri) = run := rfl
    refine ⟨fun hfree j hj => ?_,fun hfull j hj => ?_⟩
    · obtain ⟨hf,hstale⟩ := hidle hfree j hj
      refine psjfCompare_reads hf (hearlier j hj).2 (hearlier j hj).1 hnew ?_ hstale
      by_cases hr : Running j
      · obtain ⟨e,he,hej⟩ := hstart j hj hr
        have hle : e.1.time ≤ t := ht e he
        rw [remaining_running t hr]
        omega
      · exact (remaining_waiting t (not_not.mp hr)).le
    · have hf := hbusy hfull j hj
      split
      · next hr =>
        have hkey : remaining t (j.charged t) = (j.charged t).timeRemaining :=
          (remaining_ranking.charged t j hr).trans (remaining_running t hr)
        rw [remaining_running t hr] at hf
        exact psjfCompare_reads hf (hearlier j hj).2 (hearlier j hj).1 hnew hkey.le
          (fun h => by rw [hkey]; exact h.le)
      · next hr =>
        have hkey := remaining_waiting t (not_not.mp hr)
        rw [hkey] at hf
        exact psjfCompare_reads hf (hearlier j hj).2 (hearlier j hj).1 hnew hkey.le
          (fun h => by rw [hkey]; exact h.le)
  | jobFinished => trivial
  | quantumExpired => trivial

theorem run_shortest_sorted (h : Run .psjf cores (ShortestGuard cores) tr s) :
    (∀ t, (∀ e ∈ tr, e.1.time ≤ t) → Sorted (remaining t) s.jobs) ∧ StartedIn tr s.jobs := by
  have hsorted := h.invariant
    (P := fun tr jobs => (∀ t, (∀ e ∈ tr, e.1.time ≤ t) → Sorted (remaining t) jobs) ∧
      StartedIn tr jobs ∧ Leading jobs) ⟨fun _ _ => .nil,List.forall_mem_nil _,.nil⟩ ?_
  · exact ⟨hsorted.1,hsorted.2.1⟩
  · intro tr s s' call ret hg hl ht hguard ⟨hsort,hstart,hlead⟩ hstep
    have ha := hg.admissible hl
    have hlead' := step_leading rfl hstep hg.sound ha hlead
    have hnow := step_sorted remaining_ranking rfl hstep ha
      (shortest_comparable hg ht hstart hguard) (hsort call.time ht)
    refine ⟨fun t hlater => sorted_later hlead' ?_ hnow,step_startedIn hstep ha hstart,hlead'⟩
    exact hlater (call,ret) (by simp)

theorem run_shortest_remaining (h : Run .psjf cores (ShortestGuard cores) tr s) :
    (∀ t, (∀ e ∈ tr, e.1.time ≤ t) → ∀ r ∈ s.jobs, ∀ w ∈ s.jobs, Running r → w.coreId = -1 →
      remaining t r ≤ remaining t w) ∧
    (∀ id t run pri, Legal .psjf cores tr s.jobs (.newJob id t run pri) → (∀ e ∈ tr, e.1.time ≤ t) →
      ∃ s' ret, schedulerNewJob s id t run pri = .ok (s',ret) ∧
        ∀ v ∈ s.jobs, Displaced s'.jobs v → ∀ k ∈ s.jobs, Running k → remaining t k ≤ remaining t v) ∧
    ∀ core id t, Legal .psjf cores tr s.jobs (.jobFinished core id t) → (∀ e ∈ tr, e.1.time ≤ t) →
      ∃ s' ret, schedulerJobFinished s core id t = .ok (s',ret) ∧
        ∀ w ∈ s.jobs, w.jobId = ret → ∀ k ∈ s.jobs, k.coreId = -1 → remaining t w ≤ remaining t k := by
  have hg := h.governed
  obtain ⟨hsort,-⟩ := run_shortest_sorted h
  refine ⟨fun t ht r hr w hw => ?_,fun id t run pri hl ht => ?_,fun core id t hl ht => ?_⟩
  · exact sorted_running_le (hsort t ht) (hg.leading rfl) hr hw
  · obtain ⟨s',ret,hrun,hstep,-⟩ := hg.step hl
    obtain ⟨-,hlost,-⟩ := step_announced hstep hg.sound (hg.admissible hl)
    refine ⟨s',ret,hrun,fun v hv hdis => ?_⟩
    exact victim_last remaining hstep hg.sound (hsort t ht) hv hdis.1 (hlost v hv hdis)
  · obtain ⟨s',ret,hrun,hstep,-⟩ := hg.step hl
    refine ⟨s',ret,hrun,fun w hw hret => ?_⟩
    exact woken_first hstep hg.sound (hg.admissible hl) (hsort t ht) hw hret

theorem run_shortest_remaining_preempting :
    ∃ s : Lib, s.jobs.map (fun j => (j.jobId,j.coreId)) = [(7,0),(4,-1)] ∧
      ∀ r ∈ s.jobs, ∀ w ∈ s.jobs, Running r → w.coreId = -1 → remaining 2 r ≤ remaining 2 w := by
  have h1 : Run .psjf 1 (ShortestGuard 1) [(.newJob 4 0 9 0,0)] _ :=
    .call .start (show Legal .psjf 1 [] _ (.newJob 4 0 9 0) from ⟨by decide,by simp [Arrived]⟩) (List.forall_mem_nil _)
      ⟨by simp,fun _ => List.forall_mem_nil _,fun _ => List.forall_mem_nil _⟩ rfl
  have hguard : ShortestGuard 1 [(.newJob 4 0 9 0,0)]
      [(JobT.new 4 0 9 0).started 0 0] (.newJob 7 2 3 0) := by
    refine ⟨fun id u r pri ret hmem => ?_,fun hfree => absurd ?_ hfree,fun _ j hj => ?_⟩
    · simp only [List.mem_singleton,Prod.mk.injEq,Call.newJob.injEq] at hmem
      obtain ⟨⟨-,rfl,-,-⟩,-⟩ := hmem
      simp [Fits]
    · intro c h0 hc
      exact ⟨_,List.mem_singleton_self _,show (0 : Int) = c by omega⟩
    · rw [List.mem_singleton.mp hj]
      simp [Fits,remaining,JobT.started,JobT.new]
  have h2 : Run .psjf 1 (ShortestGuard 1) ([(.newJob 4 0 9 0,0)] ++ [(.newJob 7 2 3 0,0)]) _ :=
    .call h1 ⟨by decide,by simp [Arrived]⟩ (by simp [Call.time]) hguard rfl
  exact ⟨_,rfl,(run_shortest_remaining h2).1 2 (by simp [Call.time])⟩

theorem arrivalGuard_of_later {id t run pri : Int} (h : ∀ e ∈ tr, e.1.time < t) :
    ArrivalGuard tr jobs (.newJob id t run pri) :=
  fun _ _ _ _ _ hmem => Int.ne_of_lt (h _ hmem)

theorem shortest_remaining_violated :
    ∃ s : Lib, Run .psjf 2 ArrivalGuard
        [(.newJob 0 0 10 0,0),(.newJob 1 8 5 0,1),(.newJob 2 9 3 0,0)] s ∧
      ∃ r ∈ s.jobs, ∃ w ∈ s.jobs, Running r ∧ w.coreId = -1 ∧ remaining 9 w < remaining 9 r := by
  have h1 : Run .psjf 2 ArrivalGuard [(.newJob 0 0 10 0,0)] _ :=
    .call .start (show Legal .psjf 2 [] _ (.newJob 0 0 10 0) from ⟨by decide,by simp [Arrived]⟩)
      (List.forall_mem_nil _) (by simp [ArrivalGuard]) rfl
  have h2 : Run .psjf 2 ArrivalGuard ([(.newJob 0 0 10 0,0)] ++ [(.newJob 1 8 5 0,1)]) _ :=
    .call h1 ⟨by decide,by simp [Arrived]⟩ (by simp [Call.time]) (arrivalGuard_of_later (by simp [Call.time])) rfl
  have h3 : Run .psjf 2 ArrivalGuard
      (([(.newJob 0 0 10 0,0)] ++ [(.newJob 1 8 5 0,1)]) ++ [(.newJob 2 9 3 0,0)]) _ :=
    .call h2 ⟨by decide,by simp [Arrived]⟩ (by simp [Call.time]) (arrivalGuard_of_later (by simp [Call.time])) rfl
  exact ⟨_,h3,by decide⟩

end OperatingSystemLabs.Scheduler

import OperatingSystemLabs.Scheduler.Arrival
import OperatingSystemLabs.Scheduler.Records

namespace OperatingSystemLabs.Scheduler

open Keyed

abbrev Trace := List (Call × Int)

def Arrived (id : Int) (tr : Trace) : Prop := ∃ t run pri ret, (.newJob id t run pri,ret) ∈ tr

def Finished (id : Int) (tr : Trace) : Prop := ∃ core t ret, (.jobFinished core id t,ret) ∈ tr

def Legal (scheme : SchemeT) (cores : Nat) (tr : Trace) (jobs : List JobT) : Call → Prop
  | .newJob id _ _ _ => id ≠ -1 ∧ ¬ Arrived id tr
  | .jobFinished core id _ => core ≠ -1 ∧ ∃ j ∈ jobs, j.jobId = id ∧ j.coreId = core
  | .quantumExpired core _ => scheme = .rr ∧ 0 ≤ core ∧ core < cores

-- `guard` is what a group of results asks of each call beyond the protocol.
inductive Run (scheme : SchemeT) (cores : Nat) (guard : Trace → List JobT → Call → Prop) :
    Trace → Lib → Prop
  | start : Run scheme cores guard [] (schedulerStartUp cores scheme)
  | call {tr : Trace} {s s' : Lib} {call : Call} {ret : Int} :
      Run scheme cores guard tr s → Legal scheme cores tr s.jobs call →
      (∀ e ∈ tr, e.1.time ≤ call.time) → guard tr s.jobs call → call.perform s = .ok (s',ret) →
      Run scheme cores guard (tr ++ [(call,ret)]) s'

def Unguarded (_ : Trace) (_ : List JobT) (_ : Call) : Prop := True

def JobT.ticket (j : JobT) : Call := .newJob j.jobId j.arrivalTime j.runTime j.priority

structure Governed (scheme : SchemeT) (cores : Nat) (tr : Trace) (s : Lib) : Prop where
  linked : Linked scheme cores s
  sound : Sound cores s.jobs
  leading : scheme.preemptive = true → Leading s.jobs
  alive : ∀ id, id ∈ s.jobs.map JobT.jobId ↔ Arrived id tr ∧ ¬ Finished id tr
  arrived : ∀ id, Finished id tr → Arrived id tr
  ticketed : ∀ j ∈ s.jobs, ∃ ret, (j.ticket,ret) ∈ tr

variable {scheme : SchemeT} {cores : Nat} {tr : Trace} {s s' : Lib} {call : Call} {ret : Int}
variable {b b' : Board}

theorem arrived_snoc {id : Int} : Arrived id (tr ++ [(call,ret)]) ↔
    Arrived id tr ∨ ∃ t run pri, call = .newJob id t run pri := by
  simp only [Arrived,List.mem_append,List.mem_singleton,Prod.mk.injEq]
  constructor
  · rintro ⟨t,run,pri,ret',h | ⟨h,-⟩⟩
    · exact .inl ⟨t,run,pri,ret',h⟩
    · exact .inr ⟨t,run,pri,h.symm⟩
  · rintro (⟨t,run,pri,ret',h⟩ | ⟨t,run,pri,h⟩)
    · exact ⟨t,run,pri,ret',.inl h⟩
    · exact ⟨t,run,pri,ret,.inr ⟨h.symm,rfl⟩⟩

theorem finished_snoc {id : Int} : Finished id (tr ++ [(call,ret)]) ↔
    Finished id tr ∨ ∃ core t, call = .jobFinished core id t := by
  simp only [Finished,List.mem_append,List.mem_singleton,Prod.mk.injEq]
  constructor
  · rintro ⟨core,t,ret',h | ⟨h,-⟩⟩
    · exact .inl ⟨core,t,ret',h⟩
    · exact .inr ⟨core,t,h.symm⟩
  · rintro (⟨core,t,ret',h⟩ | ⟨core,t,h⟩)
    · exact ⟨core,t,ret',.inl h⟩
    · exact ⟨core,t,ret,.inr ⟨h.symm,rfl⟩⟩

def idsAfter : Call → List Int → List Int
  | .newJob id _ _ _, ids => id :: ids
  | .jobFinished _ id _, ids => ids.filter (· ≠ id)
  | .quantumExpired _ _, ids => ids

theorem reassign_ids (call : Call) (ret : Int) (es : List Entry) :
    (reassign call ret es).map Entry.jobId = idsAfter call (es.map Entry.jobId) := by
  have hv (core : Int) (xs : List Entry) :
      (xs.map (vacate core)).map Entry.jobId = xs.map Entry.jobId := by
    rw [List.map_map]
    exact List.map_congr_left (fun e _ => vacate_jobId core e)
  have ho (id core : Int) (xs : List Entry) :
      (xs.map (occupy id core)).map Entry.jobId = xs.map Entry.jobId := by
    rw [List.map_map]
    exact List.map_congr_left (fun e _ => occupy_jobId id core e)
  cases call with
  | newJob => simp only [reassign,idsAfter,List.map_cons,hv]
  | jobFinished core id t =>
    simp only [reassign,idsAfter,ho,List.filter_map]
    rfl
  | quantumExpired => simp only [reassign,idsAfter,hv,ho]

theorem step_ids (h : Step scheme cores call b ret b') (hs : Sound cores b.jobs)
    (ha : call.Admissible scheme cores b.jobs) :
    (b'.jobs.map JobT.jobId).Perm (idsAfter call (b.jobs.map JobT.jobId)) := by
  have hp := (step_reassign h hs ha).map Entry.jobId
  rw [reassign_ids,entry_time_jobId,entry_time_jobId] at hp
  exact hp

theorem Governed.admissible (h : Governed scheme cores tr s) (hl : Legal scheme cores tr s.jobs call) :
    call.Admissible scheme cores s.jobs := by
  cases call with
  | newJob id =>
    refine ⟨hl.1,fun j hj hid => hl.2 ?_⟩
    exact ((h.alive id).mp (List.mem_map.mpr ⟨j,hj,hid⟩)).1
  | jobFinished => exact hl
  | quantumExpired => exact hl

theorem Governed.alive_step (h : Governed scheme cores tr s) (hl : Legal scheme cores tr s.jobs call)
    (hids : (s'.jobs.map JobT.jobId).Perm (idsAfter call (s.jobs.map JobT.jobId))) (id : Int) :
    id ∈ s'.jobs.map JobT.jobId ↔
      Arrived id (tr ++ [(call,ret)]) ∧ ¬ Finished id (tr ++ [(call,ret)]) := by
  rw [hids.mem_iff,arrived_snoc,finished_snoc]
  have halive := h.alive id
  cases call with
  | newJob new t run pri =>
    have hfresh : Finished new tr → False := fun hf => hl.2 (h.arrived new hf)
    simp only [idsAfter,List.mem_cons,halive,Call.newJob.injEq,reduceCtorEq,exists_false,or_false]
    constructor
    · rintro (rfl | ⟨ha,hf⟩)
      · exact ⟨.inr ⟨t,run,pri,rfl,rfl,rfl,rfl⟩,hfresh⟩
      · exact ⟨.inl ha,hf⟩
    · rintro ⟨ha | ⟨-,-,-,rfl,-⟩,hf⟩
      · exact .inr ⟨ha,hf⟩
      · exact .inl rfl
  | jobFinished core old t =>
    simp only [idsAfter,List.mem_filter,halive,decide_eq_true_eq,Call.jobFinished.injEq,reduceCtorEq,
      exists_false,or_false,not_or,not_exists]
    constructor
    · rintro ⟨⟨ha,hf⟩,hne⟩
      exact ⟨ha,hf,fun _ _ hc => hne hc.2.1.symm⟩
    · rintro ⟨ha,hf,hne⟩
      exact ⟨⟨ha,hf⟩,fun he => hne core t ⟨rfl,he.symm,rfl⟩⟩
  | quantumExpired core t =>
    simp only [idsAfter,halive,reduceCtorEq,exists_false,or_false]

theorem Governed.arrived_step (h : Governed scheme cores tr s)
    (hl : Legal scheme cores tr s.jobs call) (id : Int) (hf : Finished id (tr ++ [(call,ret)])) :
    Arrived id (tr ++ [(call,ret)]) := by
  rw [arrived_snoc]
  rcases finished_snoc.mp hf with hf | ⟨core,t,rfl⟩
  · exact .inl (h.arrived id hf)
  · obtain ⟨j,hj,hid,-⟩ := hl.2
    exact .inl ((h.alive id).mp (List.mem_map.mpr ⟨j,hj,hid⟩)).1

theorem Touched.ticket {t : Int} {j j' : JobT} (h : Touched t j j') : j'.ticket = j.ticket := by
  cases h <;> rfl

theorem Entered.ticket {j : JobT} (h : Entered call j) : j.ticket = call := by
  cases h <;> rfl

theorem Governed.step (h : Governed scheme cores tr s) (hl : Legal scheme cores tr s.jobs call) :
    ∃ s' ret, call.perform s = .ok (s',ret) ∧ Step scheme cores call s.board ret s'.board ∧
      Governed scheme cores (tr ++ [(call,ret)]) s' := by
  have ha := h.admissible hl
  obtain ⟨s',ret,hrun,hstep,hlink⟩ := perform_refines h.linked h.sound h.leading ha
  refine ⟨s',ret,hrun,hstep,hlink,step_sound hstep h.sound ha,?_,?_,h.arrived_step hl,?_⟩
  · exact fun hp => step_leading hp hstep h.sound ha (h.leading hp)
  · exact h.alive_step hl (step_ids hstep h.sound ha)
  · intro j hj
    rcases step_touched hstep ha hj with hnew | ⟨k,hk,hkj⟩
    · exact ⟨ret,by simp [hnew.ticket]⟩
    · obtain ⟨ret',hret⟩ := h.ticketed k hk
      exact ⟨ret',List.mem_append_left _ (hkj.ticket ▸ hret)⟩

theorem governed_start (scheme : SchemeT) (cores : Nat) :
    Governed scheme cores [] (schedulerStartUp cores scheme) where
  linked := by
    refine ⟨⟨rfl,rfl,List.length_replicate,List.nodup_nil,List.forall_mem_nil _⟩,fun c core hc => ?_⟩
    have hcore : core = ⟨-1⟩ := List.eq_of_mem_replicate (List.mem_of_getElem? hc)
    simp [hcore,Held,schedulerStartUp,Lib.jobs,priqueueInit]
  sound := by
    refine ⟨⟨List.forall_mem_nil _,.nil,List.nodup_nil,List.forall_mem_nil _⟩,?_⟩
    rintro ⟨e,he,-⟩
    exact absurd he List.not_mem_nil
  leading _ := .nil
  alive id := ⟨nofun,nofun⟩
  arrived id := nofun
  ticketed := List.forall_mem_nil _

theorem Run.governed {guard : Trace → List JobT → Call → Prop} (h : Run scheme cores guard tr s) :
    Governed scheme cores tr s := by
  induction h with
  | start => exact governed_start scheme cores
  | call _ hl _ _ hrun ih =>
    obtain ⟨s',ret,hrun',-,hg⟩ := ih.step hl
    rw [hrun] at hrun'
    cases hrun'
    exact hg

theorem Run.invariant {guard : Trace → List JobT → Call → Prop} {P : Trace → List JobT → Prop}
    (h0 : P [] []) (hstep : ∀ {tr : Trace} {s s' : Lib} {call : Call} {ret : Int},
      Governed scheme cores tr s → Legal scheme cores tr s.jobs call →
      (∀ e ∈ tr, e.1.time ≤ call.time) → guard tr s.jobs call → P tr s.jobs →
      Step scheme cores call s.board ret s'.board → P (tr ++ [(call,ret)]) s'.jobs)
    (h : Run scheme cores guard tr s) : P tr s.jobs := by
  induction h with
  | start => exact h0
  | call hprev hl ht hguard hrun ih =>
    obtain ⟨s',ret,hrun',hs,-⟩ := hprev.governed.step hl
    rw [hrun] at hrun'
    cases hrun'
    exact hstep hprev.governed hl ht hguard ih hs

end OperatingSystemLabs.Scheduler

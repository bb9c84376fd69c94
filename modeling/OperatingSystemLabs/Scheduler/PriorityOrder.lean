import Mathlib.Data.Prod.Lex
import OperatingSystemLabs.Scheduler.CoreAssignment
import OperatingSystemLabs.Scheduler.Ranking

namespace OperatingSystemLabs.Scheduler

open Insertion

def Fits (n : Int) : Prop := -2 ^ 31 ≤ n ∧ n < 2 ^ 31

def priorityKey (j : JobT) : Int ×ₗ Int := toLex (j.priority,j.arrivalTime)

-- The times of the simulator are non-negative ints: their differences always fit.
def PriorityGuard (tr : Trace) (_ : List JobT) : Call → Prop
  | .newJob _ t _ pri => ∀ id u run p ret, (.newJob id u run p,ret) ∈ tr →
      u ≠ t ∧ Fits (t - u) ∧ Fits (pri - p)
  | _ => True

def DistinctArrivals (tr : Trace) : Prop :=
  ∀ id t run pri ret id' run' pri' ret', (.newJob id t run pri,ret) ∈ tr →
    (.newJob id' t run' pri',ret') ∈ tr → id = id'

variable {cores : Nat} {tr : Trace} {s : Lib} {call : Call} {ret : Int}

theorem intSub_of_fits {a b : Int} (h : Fits (a - b)) : intSub a b = a - b :=
  Int.bmod_eq_of_le (by have := h.1; omega) (by have := h.2; omega)

theorem priority_ranking : Ranking (fun _ => priorityKey) where
  started _ _ _ _ _ _ := rfl
  preempting _ _ _ _ _ _ := rfl
  charged _ _ _ := rfl
  preempted _ _ _ := rfl
  woken _ _ _ _ _ _ := rfl

theorem compareBy_reads {key : JobT → Int} {x y : JobT} (hkey : Fits (key x - key y))
    (ha : Fits (x.arrivalTime - y.arrivalTime)) :
    Reads (compareBy key) (fun j => toLex (key j,j.arrivalTime)) x y := by
  apply Reads.of_sign
  all_goals
    rw [compareBy,intSub_of_fits hkey,intSub_of_fits ha,Prod.Lex.toLex_lt_toLex]
    split <;> omega

theorem priCompare_reads {x y : JobT} (hp : Fits (x.priority - y.priority))
    (ha : Fits (x.arrivalTime - y.arrivalTime)) : Reads priCompare priorityKey x y :=
  compareBy_reads hp ha

theorem fcfsCompare_arrival : fcfsCompare = compareBy JobT.arrivalTime := by
  funext x y
  exact (ite_self _).symm

theorem priority_comparable (hg : Governed .ppri cores tr s) (hc : PriorityGuard tr s.jobs call) :
    Comparable .ppri cores (fun _ => priorityKey) s.jobs call := by
  cases call with
  | newJob id t run pri =>
    have hreads (j : JobT) (hj : j ∈ s.jobs) :
        Reads priCompare priorityKey (JobT.new id t run pri) j := by
      obtain ⟨ret,hret⟩ := hg.ticketed j hj
      obtain ⟨-,ha,hp⟩ := hc _ _ _ _ _ hret
      exact priCompare_reads hp ha
    refine ⟨fun _ => hreads,fun _ j hj => ?_⟩
    split
    · exact hreads j hj
    · exact hreads j hj
  | jobFinished => trivial
  | quantumExpired => trivial

theorem distinctArrivals_snoc {jobs : List JobT} (h : DistinctArrivals tr)
    (hg : PriorityGuard tr jobs call) : DistinctArrivals (tr ++ [(call,ret)]) := by
  intro id t run pri r id' run' pri' r' hx hy
  simp only [List.mem_append,List.mem_singleton,Prod.mk.injEq] at hx hy
  rcases hx with hx | ⟨rfl,-⟩ <;> rcases hy with hy | ⟨hy,-⟩
  · exact h _ _ _ _ _ _ _ _ _ hx hy
  · subst hy
    exact absurd rfl (hg _ _ _ _ _ hx).1
  · exact absurd rfl (hg _ _ _ _ _ hy).1
  · exact ((Call.newJob.injEq ..).mp hy).1.symm

theorem run_priority_sorted (h : Run .ppri cores PriorityGuard tr s) :
    Sorted priorityKey s.jobs ∧ DistinctArrivals tr := by
  refine h.invariant (P := fun tr jobs => Sorted priorityKey jobs ∧ DistinctArrivals tr)
    ⟨.nil,by simp [DistinctArrivals]⟩ ?_
  intro tr s s' call ret hg hl _ hguard ⟨hsort,hd⟩ hstep
  refine ⟨?_,distinctArrivals_snoc hd hguard⟩
  exact step_sorted priority_ranking rfl hstep (hg.admissible hl)
    (priority_comparable hg hguard) hsort

theorem priority_strict (hg : Governed .ppri cores tr s) (hsort : Sorted priorityKey s.jobs)
    (hd : DistinctArrivals tr) : s.jobs.Pairwise (fun a b => priorityKey a < priorityKey b) := by
  refine hsort.strict ?_
  have hids : s.jobs.Pairwise (fun a b => a.jobId ≠ b.jobId) := List.pairwise_map.mp hg.sound.distinct
  refine hids.imp_of_mem (fun {a b} ha hb hne hkey => ?_)
  obtain ⟨r,hr⟩ := hg.ticketed a ha
  obtain ⟨r',hr'⟩ := hg.ticketed b hb
  have harr : a.arrivalTime = b.arrivalTime := congrArg Prod.snd (toLex.injective hkey)
  rw [JobT.ticket,harr] at hr
  exact hne (hd _ _ _ _ _ _ _ _ _ hr hr')

theorem run_priority_order (h : Run .ppri cores PriorityGuard tr s) :
    (∀ j ∈ s.jobs, Running j ↔
      (s.jobs.filter (priorityKey · < priorityKey j)).length < min cores s.jobs.length) ∧
    ∀ id t run pri, Legal .ppri cores tr s.jobs (.newJob id t run pri) →
      ∃ s' ret, schedulerNewJob s id t run pri = .ok (s',ret) ∧
        (∃ n ∈ s'.jobs, n.jobId = id ∧ n.coreId = ret) ∧
        ∀ v ∈ s.jobs, Displaced s'.jobs v → v.coreId = ret ∧
          ∀ k ∈ s.jobs, Running k → priorityKey k ≤ priorityKey v := by
  have hg := h.governed
  obtain ⟨hsort,hd⟩ := run_priority_sorted h
  refine ⟨fun j hj => ?_,fun id t run pri hl => ?_⟩
  · exact running_iff_rank (fun _ => priorityKey) 0 hg.sound (hg.leading rfl)
      (priority_strict hg hsort hd) hj
  · obtain ⟨s',ret,hrun,hstep,-⟩ := hg.step hl
    obtain ⟨hnew,hlost,-⟩ := step_announced hstep hg.sound (hg.admissible hl)
    refine ⟨s',ret,hrun,hnew,fun v hv hdis => ⟨hlost v hv hdis,?_⟩⟩
    exact victim_last (fun _ => priorityKey) hstep hg.sound hsort hv hdis.1 (hlost v hv hdis)

theorem run_priority_order_preempting :
    ∃ s : Lib, s.jobs.map (fun j => (j.jobId,j.coreId)) = [(7,0),(4,-1)] ∧
      ∀ j ∈ s.jobs, Running j ↔
        (s.jobs.filter (priorityKey · < priorityKey j)).length < min 1 s.jobs.length := by
  have h1 : Run .ppri 1 PriorityGuard [(.newJob 4 0 5 9,0)] _ :=
    .call .start (show Legal .ppri 1 [] _ (.newJob 4 0 5 9) from ⟨by decide,by simp [Arrived]⟩)
      (List.forall_mem_nil _) (by simp [PriorityGuard]) rfl
  have hguard : PriorityGuard [(.newJob 4 0 5 9,0)] [] (.newJob 7 2 3 1) := by
    intro id u run p ret hmem
    simp only [List.mem_singleton,Prod.mk.injEq,Call.newJob.injEq] at hmem
    obtain ⟨⟨-,rfl,-,rfl⟩,-⟩ := hmem
    simp [Fits]
  have h2 : Run .ppri 1 PriorityGuard ([(.newJob 4 0 5 9,0)] ++ [(.newJob 7 2 3 1,0)]) _ :=
    .call h1 ⟨by decide,by simp [Arrived]⟩ (by simp [Call.time]) hguard rfl
  exact ⟨_,rfl,(run_priority_order h2).1⟩

end OperatingSystemLabs.Scheduler

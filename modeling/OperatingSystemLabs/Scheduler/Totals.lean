import Mathlib.Algebra.BigOperators.Group.List.Basic
import OperatingSystemLabs.Scheduler.Records

namespace OperatingSystemLabs.Scheduler

variable {scheme : SchemeT} {cores : Nat} {call : Call} {b b' : Board} {ret : Int}

def credit (j : JobT) : Int :=
  (if j.coreId = -1 then j.pauseTime else j.startTime) - j.arrivalTime - j.runTime + j.timeRemaining

def credits (jobs : List JobT) : Int := (jobs.map credit).sum

def Balances (call : Call) (b b' : Board) : Prop :=
  match call with
  | .newJob _ _ _ _ => b'.numJobs = b.numJobs + 1 ∧ b'.jobs.length = b.jobs.length + 1 ∧
      b'.turnaroundTime = b.turnaroundTime ∧ b'.waitingTime - credits b'.jobs = b.waitingTime - credits b.jobs
  | .jobFinished core id t => ∃ f ∈ b.jobs, f.jobId = id ∧ f.coreId = core ∧
      b'.numJobs = b.numJobs ∧ b'.jobs.length + 1 = b.jobs.length ∧
      b'.turnaroundTime = b.turnaroundTime + (t - f.arrivalTime) ∧
      b'.waitingTime - credits b'.jobs = b.waitingTime - credits b.jobs + credit f
  | .quantumExpired _ _ => b'.numJobs = b.numJobs ∧ b'.jobs.length = b.jobs.length ∧
      b'.turnaroundTime = b.turnaroundTime ∧ b'.waitingTime - credits b'.jobs = b.waitingTime - credits b.jobs

theorem credits_cons (j : JobT) (jobs : List JobT) : credits (j :: jobs) = credit j + credits jobs :=
  List.sum_cons

theorem credits_append (l r : List JobT) : credits (l ++ r) = credits l + credits r := by
  rw [credits,List.map_append,List.sum_append]
  rfl

theorem credit_new (id t run pri : Int) : credit (JobT.new id t run pri) = 0 := by
  simp [credit,JobT.new]

theorem credit_started {id t run pri c : Int} (hc : c ≠ -1) :
    credit ((JobT.new id t run pri).started c t) = 0 := by
  simp [credit,JobT.new,JobT.started,hc]

theorem credit_preempting {id t run pri c : Int} (hc : c ≠ -1) :
    credit ((JobT.new id t run pri).preempting c t) = 0 := by
  simp [credit,JobT.new,JobT.preempting,hc]

theorem credit_charged {j : JobT} (t : Int) (h : Running j) : credit (j.charged t) = credit j := by
  have hc : j.coreId ≠ -1 := h
  simp only [credit,JobT.charged,if_neg hc]
  omega

theorem credit_preempted {j : JobT} (t : Int) (h : Running j) :
    credit ((j.charged t).preempted t) = credit j := by
  have hc : j.coreId ≠ -1 := h
  simp only [credit,JobT.charged,JobT.preempted,if_neg hc,if_true]
  omega

theorem credit_expired {j : JobT} (t : Int) (h : Running j) : credit (j.expired t) = credit j := by
  have hc : j.coreId ≠ -1 := h
  simp only [credit,JobT.expired,if_neg hc,if_true]
  omega

theorem credit_woken {j : JobT} {c t : Int} (pause : Int) (h : j.coreId = -1) (hc : c ≠ -1) :
    credit (j.woken c t pause) = credit j + (t - j.pauseTime) := by
  simp only [credit,JobT.woken,if_pos h]
  omega

theorem credits_charged {front : List JobT} (t : Int) (h : ∀ j ∈ front, Running j) :
    credits (front.map (·.charged t)) = credits front := by
  rw [credits,List.map_map]
  congr 1
  exact List.map_congr_left (fun j hj => credit_charged t (h j hj))

theorem wake_balances {core time pause : Int} (h : Wake core time pause b ret b') (hc : core ≠ -1) :
    b'.numJobs = b.numJobs ∧ b'.jobs.length = b.jobs.length ∧ b'.turnaroundTime = b.turnaroundTime ∧
      b'.waitingTime - credits b'.jobs = b.waitingTime - credits b.jobs := by
  cases h with
  | @woke a z w hb _ hw =>
    refine ⟨rfl,by simp [hb],rfl,?_⟩
    simp only [hb,credits_append,credits_cons,credit_woken pause hw hc]
    omega
  | idled _ => exact ⟨rfl,rfl,rfl,rfl⟩

theorem step_balances (h : Step scheme cores call b ret b') (ha : call.Admissible scheme cores b.jobs) :
    Balances call b b' := by
  cases h with
  | @startIdle b id t run pri c l r hb _ h0 =>
    refine ⟨rfl,by simp [hb]; omega,rfl,?_⟩
    simp only [hb,credits_append,credits_cons,credit_started (show ret ≠ -1 by omega)]
    omega
  | @preempt b id t run pri front l r wait v _ hb _ hf _ _ hrun hv _ =>
    have hlen := congrArg List.length hf
    have hsum := credits_charged t hrun
    rw [hf,credits_append] at hsum
    simp only [List.length_map,List.length_append] at hlen
    refine ⟨rfl,by simp [hb]; omega,rfl,?_⟩
    simp only [hb,credits_append,credits_cons,credit_preempting (show v.coreId ≠ -1 from hv),
      credit_preempted t hv]
    omega
  | @queueBehind b id t run pri front l r _ hb _ _ _ hrun _ =>
    refine ⟨rfl,by simp [hb]; omega,rfl,?_⟩
    simp only [hb,credits_append,credits_cons,credits_charged t hrun,credit_new]
    omega
  | @queueUp b id t run pri l r _ hb =>
    refine ⟨rfl,by simp [hb]; omega,rfl,?_⟩
    simp only [hb,credits_append,credits_cons,credit_new]
    omega
  | @finish b b' c id t ret l r f hb hfid hfc hw =>
    obtain ⟨hnum,hlen,hturn,hwait⟩ := wake_balances hw ha.1
    simp only at hnum hlen hturn hwait
    refine ⟨f,by simp [hb],hfid,hfc,hnum,?_,hturn,?_⟩
    · rw [hlen,hb]
      simp only [List.length_append,List.length_cons]
      omega
    · rw [hwait,hb]
      simp only [credits_append,credits_cons]
      omega
  | @expire b b' c t ret l r l' r' e hb hec hlr _ hw =>
    have hc : c ≠ -1 := by
      have := ha.2
      omega
    obtain ⟨hnum,hlen,hturn,hwait⟩ := wake_balances hw hc
    have he : Running e := by
      rw [Running,hec]
      exact hc
    have hsame := congrArg List.length hlr
    simp only [List.length_append] at hsame
    refine ⟨hnum,?_,hturn,?_⟩
    · rw [hlen,hb]
      simp only [List.length_append,List.length_cons]
      omega
    · rw [hwait,hb]
      have hsum := congrArg credits hlr
      simp only [credits_append,credits_cons,credit_expired t he] at hsum ⊢
      omega
  | expireIdle => exact ⟨rfl,rfl,rfl,rfl⟩

end OperatingSystemLabs.Scheduler

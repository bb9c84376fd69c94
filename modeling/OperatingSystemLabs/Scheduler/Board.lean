import OperatingSystemLabs.Scheduler.Library

namespace OperatingSystemLabs.Scheduler

open Insertion

inductive Call where
  | newJob (jobNumber time runningTime priority : Int)
  | jobFinished (coreId jobNumber time : Int)
  | quantumExpired (coreId time : Int)
  deriving DecidableEq, Repr

def Call.time : Call → Int
  | .newJob _ time _ _ => time
  | .jobFinished _ _ time => time
  | .quantumExpired _ time => time

def Call.perform : Call → Lib → Except Fault (Lib × Int)
  | .newJob jobNumber time runningTime priority, s => schedulerNewJob s jobNumber time runningTime priority
  | .jobFinished coreId jobNumber time, s => schedulerJobFinished s coreId jobNumber time
  | .quantumExpired coreId time, s => schedulerQuantumExpired s coreId time

def Call.Admissible (scheme : SchemeT) (cores : Nat) (jobs : List JobT) : Call → Prop
  | .newJob jobNumber _ _ _ => jobNumber ≠ -1 ∧ ∀ j ∈ jobs, j.jobId ≠ jobNumber
  | .jobFinished coreId jobNumber _ => coreId ≠ -1 ∧ ∃ j ∈ jobs, j.jobId = jobNumber ∧ j.coreId = coreId
  | .quantumExpired coreId _ => scheme = .rr ∧ 0 ≤ coreId ∧ coreId < cores

structure Board where
  jobs : List JobT
  numJobs : Int
  waitingTime : Int
  turnaroundTime : Int
  responseTime : Int

def Lib.board (s : Lib) : Board :=
  ⟨s.jobs,s.numJobs,s.waitingTime,s.turnaroundTime,s.responseTime⟩

def Full (cores : Nat) (jobs : List JobT) : Prop :=
  ∀ c : Int, 0 ≤ c → c < cores → ∃ j ∈ jobs, j.coreId = c

def Running (j : JobT) : Prop := j.coreId ≠ -1

instance (j : JobT) : Decidable (Running j) := inferInstanceAs (Decidable (j.coreId ≠ -1))

inductive Wake (core time pause : Int) (b : Board) : Int → Board → Prop
  | woke {a z : List JobT} {w : JobT} : b.jobs = a ++ w :: z → (∀ j ∈ a, Running j) → w.coreId = -1 →
      Wake core time pause b w.jobId { b with
        jobs := a ++ w.woken core time pause :: z
        waitingTime := b.waitingTime + (time - w.pauseTime)
        responseTime :=
          if w.responded = -1 then b.responseTime + (time - w.arrivalTime) else b.responseTime }
  | idled : (∀ j ∈ b.jobs, Running j) → Wake core time pause b (-1) b

inductive Step (scheme : SchemeT) (cores : Nat) : Call → Board → Int → Board → Prop
  | startIdle {b : Board} {id t run pri c : Int} {l r : List JobT} :
      b.jobs = l ++ r → Placed scheme.compare (JobT.new id t run pri) l r →
      0 ≤ c → c < cores → (∀ j ∈ b.jobs, j.coreId ≠ c) →
      (∀ d, 0 ≤ d → d < c → ∃ j ∈ b.jobs, j.coreId = d) →
      Step scheme cores (.newJob id t run pri) b c { b with
        jobs := l ++ (JobT.new id t run pri).started c t :: r, numJobs := b.numJobs + 1 }
  | preempt {b : Board} {id t run pri : Int} {front l r wait : List JobT} {v : JobT} :
      scheme.preemptive = true → b.jobs = front ++ v :: wait → front.length + 1 = cores →
      front.map (·.charged t) = l ++ r →
      Placed scheme.compare (JobT.new id t run pri) l (r ++ v.charged t :: wait) →
      Full cores b.jobs → (∀ j ∈ front, Running j) → Running v → (∀ j ∈ wait, j.coreId = -1) →
      Step scheme cores (.newJob id t run pri) b v.coreId { b with
        jobs := l ++ (JobT.new id t run pri).preempting v.coreId t ::
          (r ++ (v.charged t).preempted t :: wait)
        numJobs := b.numJobs + 1 }
  | queueBehind {b : Board} {id t run pri : Int} {front l r : List JobT} :
      scheme.preemptive = true → b.jobs = front ++ (l ++ r) → front.length = cores →
      Placed scheme.compare (JobT.new id t run pri) (front.map (·.charged t) ++ l) r →
      Full cores b.jobs → (∀ j ∈ front, Running j) → (∀ j ∈ l ++ r, j.coreId = -1) →
      Step scheme cores (.newJob id t run pri) b (-1) { b with
        jobs := front.map (·.charged t) ++ (l ++ JobT.new id t run pri :: r)
        numJobs := b.numJobs + 1 }
  | queueUp {b : Board} {id t run pri : Int} {l r : List JobT} :
      scheme.preemptive = false → b.jobs = l ++ r →
      Placed scheme.compare (JobT.new id t run pri) l r → Full cores b.jobs →
      Step scheme cores (.newJob id t run pri) b (-1) { b with
        jobs := l ++ JobT.new id t run pri :: r, numJobs := b.numJobs + 1 }
  | finish {b b' : Board} {c id t ret : Int} {l r : List JobT} {f : JobT} :
      b.jobs = l ++ f :: r → f.jobId = id → f.coreId = c →
      Wake c t 0 { b with
        jobs := l ++ r, turnaroundTime := b.turnaroundTime + (t - f.arrivalTime) } ret b' →
      Step scheme cores (.jobFinished c id t) b ret b'
  | expire {b b' : Board} {c t ret : Int} {l r l' r' : List JobT} {e : JobT} :
      b.jobs = l ++ e :: r → e.coreId = c → l ++ r = l' ++ r' →
      Placed scheme.compare (e.expired t) l' r' →
      Wake c t (-1) { b with jobs := l' ++ e.expired t :: r' } ret b' →
      Step scheme cores (.quantumExpired c t) b ret b'
  | expireIdle {b : Board} {c t : Int} : (∀ j ∈ b.jobs, j.coreId ≠ c) →
      Step scheme cores (.quantumExpired c t) b (-1) b

end OperatingSystemLabs.Scheduler

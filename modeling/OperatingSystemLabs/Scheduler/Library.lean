import Mathlib.Logic.Function.Basic
import Mathlib.Data.Rat.Defs
import OperatingSystemLabs.Scheduler.Priqueue

namespace OperatingSystemLabs.Scheduler

structure JobT where
  jobId : Int
  coreId : Int
  arrivalTime : Int
  runTime : Int
  priority : Int
  startTime : Int
  timeRemaining : Int
  pauseTime : Int
  responded : Int
  deriving DecidableEq, Repr

structure CoreT where
  active : Int
  deriving DecidableEq, Repr

inductive SchemeT where
  | fcfs | sjf | psjf | pri | ppri | rr
  deriving DecidableEq, Repr

-- 32-bit two's complement subtraction: its sign is the comparers' answer.
def intSub (a b : Int) : Int := (a - b).bmod (2 ^ 32)

def fcfsCompare (jobA jobB : JobT) : Int := intSub jobA.arrivalTime jobB.arrivalTime

def compareBy (key : JobT → Int) (jobA jobB : JobT) : Int :=
  let diff := intSub (key jobA) (key jobB)
  if diff = 0 then intSub jobA.arrivalTime jobB.arrivalTime else diff

def sjfCompare : JobT → JobT → Int := compareBy JobT.runTime

def psjfCompare : JobT → JobT → Int := compareBy JobT.timeRemaining

def priCompare : JobT → JobT → Int := compareBy JobT.priority

def rrCompare (_ _ : JobT) : Int := 1

def SchemeT.compare : SchemeT → JobT → JobT → Int
  | .fcfs => fcfsCompare
  | .sjf => sjfCompare
  | .psjf => psjfCompare
  | .ppri => priCompare
  | .pri => priCompare
  | .rr => rrCompare

abbrev Ptr := Nat

-- The globals of libscheduler.c and the records its queue points to; `fresh` is what malloc
-- returns next, and the three totals are exact where the source has floats.
structure Lib where
  mem : Ptr → JobT
  fresh : Ptr
  coreList : List CoreT
  queue : PriqueueT Ptr JobT
  currentScheme : SchemeT
  numJobs : Int
  waitingTime : Int
  turnaroundTime : Int
  responseTime : Int

def JobT.new (jobNumber time runningTime priority : Int) : JobT where
  jobId := jobNumber
  coreId := -1
  arrivalTime := time
  runTime := runningTime
  priority := priority
  startTime := -1
  timeRemaining := runningTime
  pauseTime := time
  responded := -1

def schedulerStartUp (cores : Nat) (scheme : SchemeT) : Lib where
  mem := fun _ => JobT.new 0 0 0 0
  fresh := 0
  coreList := List.replicate cores ⟨-1⟩
  queue := priqueueInit scheme.compare
  currentScheme := scheme
  numJobs := 0
  waitingTime := 0
  turnaroundTime := 0
  responseTime := 0

def JobT.started (job : JobT) (core time : Int) : JobT :=
  { job with coreId := core, responded := 1, startTime := time }

def JobT.charged (job : JobT) (time : Int) : JobT :=
  { job with timeRemaining := job.timeRemaining - (time - job.startTime), startTime := time }

def JobT.preempting (job : JobT) (core time : Int) : JobT :=
  { job with coreId := core, startTime := time, pauseTime := 0, responded := 1 }

def JobT.preempted (job : JobT) (time : Int) : JobT :=
  { job with coreId := -1, pauseTime := time }

def JobT.woken (job : JobT) (core time pause : Int) : JobT :=
  { job with coreId := core, startTime := time, pauseTime := pause,
             responded := if job.responded = -1 then 1 else job.responded }

def JobT.expired (job : JobT) (time : Int) : JobT :=
  { job with coreId := -1, pauseTime := time,
             timeRemaining := job.timeRemaining - (time - job.startTime) }

-- for (i = 0; i < num_cores; i++) if (core_list[i].active == -1) { core_index = i; break; }
def idleCore : Int → List CoreT → Int
  | _, [] => -1
  | i, core :: cores => if core.active = -1 then i else idleCore (i + 1) cores

def SchemeT.preemptive : SchemeT → Bool
  | .ppri => true
  | .psjf => true
  | _ => false

-- The first loop of the preemptive branch, with `n` turns to go at index `i`; the second
-- component is the pointer `temp` that it leaves behind.
def chargeRunning (q : PriqueueT Ptr JobT) (time : Int) :
    Nat → Nat → (Ptr → JobT) → Option Ptr → Except Fault ((Ptr → JobT) × Option Ptr)
  | 0, _, mem, temp => .ok (mem,temp)
  | n + 1, i, mem, _ => do
      let temp ← priqueueAt q i
      chargeRunning q time n (i + 1) (Function.update mem temp ((mem temp).charged time)) (some temp)

-- The second loop of the preemptive branch: it swaps the new job with `temp`.
def preemptLoop (q : PriqueueT Ptr JobT) (newJob : Ptr) (temp : Option Ptr) (time : Int) :
    Nat → Nat → (Ptr → JobT) → Int → Except Fault ((Ptr → JobT) × Int)
  | 0, _, mem, coreIndex => .ok (mem,coreIndex)
  | n + 1, i, mem, coreIndex => do
      let job ← priqueueAt q i
      if job = newJob then
        match temp with
        | none => .error .nullDereference
        | some victim =>
            let core := (mem victim).coreId
            let mem := Function.update mem newJob ((mem newJob).preempting core time)
            let mem := Function.update mem victim ((mem victim).preempted time)
            preemptLoop q newJob temp time n (i + 1) mem core
      else preemptLoop q newJob temp time n (i + 1) mem coreIndex

def schedulerNewJob (s : Lib) (jobNumber time runningTime priority : Int) :
    Except Fault (Lib × Int) := do
  let newJob := s.fresh
  let mem := Function.update s.mem newJob (JobT.new jobNumber time runningTime priority)
  let s := { s with mem := mem, fresh := s.fresh + 1, numJobs := s.numJobs + 1 }
  let coreIndex := idleCore 0 s.coreList
  if coreIndex ≠ -1 then
    let q := (priqueueOffer s.mem s.queue newJob).1
    let mem := Function.update s.mem newJob ((s.mem newJob).started coreIndex time)
    let coreList ← writeAt s.coreList coreIndex ⟨1⟩
    return ({ s with queue := q, mem := mem, coreList := coreList },coreIndex)
  else if s.currentScheme.preemptive then
    let (mem,temp) ← chargeRunning s.queue time s.coreList.length 0 s.mem none
    let q := (priqueueOffer mem s.queue newJob).1
    let (mem,coreIndex) ← preemptLoop q newJob temp time s.coreList.length 0 mem coreIndex
    return ({ s with queue := q, mem := mem },coreIndex)
  else
    return ({ s with queue := (priqueueOffer s.mem s.queue newJob).1 },coreIndex)

-- while (i < priqueue_size(QUEUE) && !found): `n` entries are left, the next one at index `i`.
def search (test : Ptr → Bool) (q : PriqueueT Ptr JobT) : Nat → Nat → Except Fault (Option (Nat × Ptr))
  | 0, _ => .ok none
  | n + 1, i => do
      let temp ← priqueueAt q i
      if test temp then return some (i,temp) else search test q n (i + 1)

-- The tail shared by completion and quantum expiry; they differ in the pause time they store.
def wakeFirstWaiting (s : Lib) (coreId time pause : Int) : Except Fault (Lib × Int) := do
  match ← search (fun p => (s.mem p).coreId = -1) s.queue (priqueueSize s.queue) 0 with
  | some (_,wakeJob) =>
      let job := s.mem wakeJob
      return ({ s with
        mem := Function.update s.mem wakeJob (job.woken coreId time pause)
        waitingTime := s.waitingTime + (time - job.pauseTime)
        responseTime :=
          if job.responded = -1 then s.responseTime + (time - job.arrivalTime) else s.responseTime },
        job.jobId)
  | none =>
      let coreList ← writeAt s.coreList coreId ⟨-1⟩
      return ({ s with coreList := coreList },-1)

def schedulerJobFinished (s : Lib) (coreId jobNumber time : Int) : Except Fault (Lib × Int) := do
  match ← search (fun p => (s.mem p).jobId = jobNumber) s.queue (priqueueSize s.queue) 0 with
  | none => .error .nullDereference
  | some (i,_) =>
      let (q,finished) ← priqueueRemoveAt s.queue i
      wakeFirstWaiting { s with
        queue := q
        turnaroundTime := s.turnaroundTime + (time - (s.mem finished).arrivalTime) } coreId time 0

def schedulerQuantumExpired (s : Lib) (coreId time : Int) : Except Fault (Lib × Int) := do
  match ← search (fun p => (s.mem p).coreId = coreId) s.queue (priqueueSize s.queue) 0 with
  | none =>
      let coreList ← writeAt s.coreList coreId ⟨-1⟩
      return ({ s with coreList := coreList },-1)
  | some (i,_) =>
      let (q,expireJob) ← priqueueRemoveAt s.queue i
      let mem := Function.update s.mem expireJob ((s.mem expireJob).expired time)
      wakeFirstWaiting { s with queue := (priqueueOffer mem q expireJob).1, mem := mem } coreId time (-1)

def schedulerAverageWaitingTime (s : Lib) : Rat := s.waitingTime / s.numJobs

def schedulerAverageTurnaroundTime (s : Lib) : Rat := s.turnaroundTime / s.numJobs

def schedulerAverageResponseTime (s : Lib) : Rat := s.responseTime / s.numJobs

def Lib.jobs (s : Lib) : List JobT := s.queue.head.map s.mem

end OperatingSystemLabs.Scheduler

import OperatingSystemLabs.Foundation.Transition
import OperatingSystemLabs.Scheduler.Board

namespace OperatingSystemLabs.Simulator

open Scheduler Transition

structure SimulatorJobListT where
  jobId : Int
  arrivalTime : Int
  runTime : Int
  priority : Int
  coreId : Int
  arrived : Bool
  deriving DecidableEq, Repr

structure Row where
  arrivalTime : Int
  runTime : Int
  priority : Int
  deriving DecidableEq, Repr

structure Options where
  cores : Nat
  scheme : SchemeT
  quantum : Int
  deriving DecidableEq, Repr

inductive Phase where
  | checkFinished (i : Nat)
  | checkQuantums (i : Nat)
  | checkArrivals (i : Nat)
  | runTimeUnit
  | done
  deriving DecidableEq, Repr

inductive Event where
  | called (call : Call) (answer : Int)
  | executed (time jobId coreId : Int)
  deriving DecidableEq, Repr

-- `jobs` is jobs[0..active_jobs); `log` records what main does and is read by no step.
structure Machine where
  lib : Lib
  jobs : List SimulatorJobListT
  jobsAlive : Int
  quantumClock : List Int
  coreTimingDiagram : List (List Char)
  time : Int
  pc : Phase
  log : List Event

def loadJobs : Int → List Row → List SimulatorJobListT
  | _, [] => []
  | jobId, row :: rows =>
      { jobId := jobId
        arrivalTime := row.arrivalTime
        runTime := row.runTime
        priority := row.priority
        coreId := -1
        arrived := false } :: loadJobs (jobId + 1) rows

def start (o : Options) (rows : List Row) : Machine where
  lib := schedulerStartUp o.cores o.scheme
  jobs := loadJobs 0 rows
  jobsAlive := 0
  quantumClock := List.replicate o.cores (-1)
  coreTimingDiagram := List.replicate o.cores []
  time := 0
  pc := .checkFinished 0
  log := []

def setActiveJob (jobId coreId : Int) : List SimulatorJobListT → Option (List SimulatorJobListT)
  | [] => none
  | job :: jobs =>
      if job.jobId = jobId ∧ job.arrived = true then some ({ job with coreId := coreId } :: jobs)
      else (setActiveJob jobId coreId jobs).map (job :: ·)

-- if (new_job_id != -1 && !set_active_job(...)) return 3;
def setNewJob (complaint : Int → Complaint) (newJobId coreId : Int) (jobs : List SimulatorJobListT) :
    Except Fault (List SimulatorJobListT) :=
  if newJobId = -1 then .ok jobs
  else match setActiveJob newJobId coreId jobs with
    | some jobs => .ok jobs
    | none => .error (.exited 3 (complaint newJobId))

def deleteJob (jobs : List SimulatorJobListT) (i : Nat) : List SimulatorJobListT :=
  match jobs.getLast? with
  | none => []
  | some last => (if i ≠ jobs.length - 1 then jobs.set i last else jobs).dropLast

def Options.resetClock (o : Options) (quantumClock : List Int) (coreId : Int) :
    Except Fault (List Int) :=
  if o.scheme = .rr then writeAt quantumClock coreId o.quantum else .ok quantumClock

def checkFinished (o : Options) (m : Machine) (i : Nat) : Except Fault Machine :=
  match m.jobs[i]? with
  | none => .ok { m with pc := if m.jobs = [] then .done else .checkQuantums 0 }
  | some job =>
      if job.runTime = 0 then do
        let (lib,newJobId) ← schedulerJobFinished m.lib job.coreId job.jobId m.time
        let quantumClock ← o.resetClock m.quantumClock job.coreId
        let jobs ← setNewJob .finishedInvalidJob newJobId job.coreId (deleteJob m.jobs i)
        return { m with
          lib := lib
          jobs := jobs
          jobsAlive := m.jobsAlive - 1
          quantumClock := quantumClock
          log := m.log ++ [.called (.jobFinished job.coreId job.jobId m.time) newJobId] }
      else .ok { m with pc := .checkFinished (i + 1) }

def releaseFirst (coreId : Int) : List SimulatorJobListT → List SimulatorJobListT
  | [] => []
  | job :: jobs =>
      if job.coreId = coreId then { job with coreId := -1 } :: jobs
      else job :: releaseFirst coreId jobs

def checkQuantums (o : Options) (m : Machine) (i : Nat) : Except Fault Machine :=
  if o.scheme = .rr ∧ i < o.cores then do
    let clock ← readAt m.quantumClock i
    match if clock = 0 then m.jobs.find? (fun job => job.coreId = (i : Int)) else none with
    | none => return { m with pc := .checkQuantums (i + 1) }
    | some job =>
        let (lib,newJobId) ← schedulerQuantumExpired m.lib job.coreId m.time
        let quantumClock ← writeAt m.quantumClock job.coreId o.quantum
        let jobs ← setNewJob .expiredInvalidJob newJobId job.coreId (releaseFirst i m.jobs)
        return { m with
          lib := lib
          jobs := jobs
          quantumClock := quantumClock
          pc := .checkQuantums (i + 1)
          log := m.log ++ [.called (.quantumExpired job.coreId m.time) newJobId] }
  else .ok { m with pc := .checkArrivals 0 }

def leave (coreId : Int) (job : SimulatorJobListT) : SimulatorJobListT :=
  if job.coreId = coreId then { job with coreId := -1 } else job

def checkArrivals (o : Options) (m : Machine) (i : Nat) : Except Fault Machine :=
  match m.jobs[i]? with
  | none => .ok { m with pc := .runTimeUnit }
  | some job =>
      if job.arrivalTime = m.time then do
        let (lib,newJobCoreId) ←
          schedulerNewJob m.lib job.jobId m.time job.runTime job.priority
        let jobs := m.jobs.set i { job with arrived := true }
        let m := { m with
          lib := lib
          jobs := jobs
          jobsAlive := m.jobsAlive + 1
          pc := .checkArrivals (i + 1)
          log := m.log ++
            [.called (.newJob job.jobId m.time job.runTime job.priority) newJobCoreId] }
        if 0 ≤ newJobCoreId ∧ newJobCoreId < o.cores then
          let quantumClock ← o.resetClock m.quantumClock newJobCoreId
          return { m with
            jobs := (jobs.map (leave newJobCoreId)).set i
              { job with arrived := true, coreId := newJobCoreId }
            quantumClock := quantumClock }
        else if newJobCoreId = -1 then return m
        else .error (.exited 3 (.invalidCore newJobCoreId))
      else .ok { m with pc := .checkArrivals (i + 1) }

structure TimeUnit where
  coresWorking : Int
  quantumClock : List Int
  timeString : List (List Char)
  log : List Event

-- snprintf with a bound of 10 keeps nine characters.
def timeStringOf (jobId : Int) : List Char :=
  if jobId < 10 then (toString jobId).toList
  else if jobId < 10 + 26 then [Char.ofNat (jobId - 10 + 97).toNat]
  else if jobId < 10 + 26 + 26 then [Char.ofNat (jobId - 10 - 26 + 65).toNat]
  else ('(' :: (toString jobId).toList ++ [')']).take 9

def runJob (time : Int) (job : SimulatorJobListT) (u : TimeUnit) :
    Except Fault (SimulatorJobListT × TimeUnit) :=
  if job.coreId ≠ -1 then do
    let clock ← readAt u.quantumClock job.coreId
    let quantumClock ← writeAt u.quantumClock job.coreId (clock - 1)
    let text ← readAt u.timeString job.coreId
    if text = [] then
      let timeString ← writeAt u.timeString job.coreId (timeStringOf job.jobId)
      return ({ job with runTime := job.runTime - 1 },
        { coresWorking := u.coresWorking + 1
          quantumClock := quantumClock
          timeString := timeString
          log := u.log ++ [.executed time job.jobId job.coreId] })
    else .error .assertionFailed
  else .ok (job,u)

def runJobs (time : Int) : List SimulatorJobListT → TimeUnit →
    Except Fault (List SimulatorJobListT × TimeUnit)
  | [], u => .ok ([],u)
  | job :: jobs, u => do
      let (job,u) ← runJob time job u
      let (jobs,u) ← runJobs time jobs u
      return (job :: jobs,u)

def runTimeUnit (o : Options) (m : Machine) : Except Fault Machine := do
  let (jobs,u) ← runJobs m.time m.jobs
    { coresWorking := 0
      quantumClock := m.quantumClock
      timeString := List.replicate o.cores []
      log := m.log }
  if 0 < m.jobsAlive ∧ u.coresWorking = 0 then .error (.exited 3 .allCoresIdle)
  else return { m with
    jobs := jobs
    quantumClock := u.quantumClock
    coreTimingDiagram := List.zipWith
      (fun diagram text => diagram ++ if text = [] then ['-'] else text)
      m.coreTimingDiagram u.timeString
    time := m.time + 1
    pc := .checkFinished 0
    log := u.log }

def step (o : Options) (m : Machine) : Except Fault Machine :=
  match m.pc with
  | .checkFinished i => checkFinished o m i
  | .checkQuantums i => checkQuantums o m i
  | .checkArrivals i => checkArrivals o m i
  | .runTimeUnit => runTimeUnit o m
  | .done => .ok m

def Visits (o : Options) (rows : List Row) (m : Machine) : Prop := Reach (step o) (start o rows) m

def Ends (o : Options) (rows : List Row) (m : Machine) : Prop := Visits o rows m ∧ m.pc = .done

end OperatingSystemLabs.Simulator

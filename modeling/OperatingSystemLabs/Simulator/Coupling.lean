import OperatingSystemLabs.Simulator.Assignment

namespace OperatingSystemLabs.Simulator

open Scheduler Keyed

def Event.call? : Event → Option (Call × Int)
  | .called call answer => some (call,answer)
  | .executed _ _ _ => none

def calls (log : List Event) : Trace := log.filterMap Event.call?

structure Followed (o : Options) (m : Machine) : Prop where
  run : Run o.scheme o.cores Unguarded (calls m.log) m.lib
  past : ∀ e ∈ calls m.log, e.1.time ≤ m.time
  coupled : (entries m.jobs).Perm (m.lib.jobs.map (entry m.time))
  distinct : (m.jobs.map (·.jobId)).Nodup
  numbered : ∀ job ∈ m.jobs, 0 ≤ job.jobId
  pending : ∀ job ∈ m.jobs, job.arrived = false →
    job.coreId = -1 ∧ ¬ Arrived job.jobId (calls m.log)
  alive : m.jobsAlive = m.lib.jobs.length
  clocks : m.quantumClock.length = o.cores

structure Tracked (o : Options) (m : Machine) : Prop extends Followed o m where
  owed : ∀ job ∈ m.jobs, 0 ≤ job.runTime

def Admitted (reached : Int → Prop) (jobs : List SimulatorJobListT) : Prop :=
  ∀ job ∈ jobs, job.arrived = true ↔ reached job.arrivalTime

def Unfinished (jobs : List SimulatorJobListT) : Prop := ∀ job ∈ jobs, job.runTime ≠ 0

def Phased (m : Machine) : Prop :=
  match m.pc with
  | .checkFinished i => Admitted (· < m.time) m.jobs ∧ Unfinished (m.jobs.take i) ∧
      ∀ job ∈ m.jobs, job.runTime = 0 → job.coreId ≠ -1
  | .checkQuantums _ => Admitted (· < m.time) m.jobs ∧ Unfinished m.jobs ∧ m.jobs ≠ []
  | .checkArrivals i => Admitted (· ≤ m.time) (m.jobs.take i) ∧ Admitted (· < m.time) (m.jobs.drop i) ∧
      Unfinished m.jobs ∧ m.jobs ≠ []
  | .runTimeUnit => Admitted (· ≤ m.time) m.jobs ∧ Unfinished m.jobs ∧ m.jobs ≠ []
  | .done => m.jobs = []

-- How `arrived` stands to the arrival time: ↔ when every job comes at its time, → when a job whose
-- time is never reached may stay out for good.
structure Dates (rel : Prop → Prop → Prop) : Prop where
  present : rel True True
  forward : ∀ p q, rel p q → p → q

def Dated (rel : Prop → Prop → Prop) (reached : Int → Prop) (jobs : List SimulatorJobListT) : Prop :=
  ∀ job ∈ jobs, rel (job.arrived = true) (reached job.arrivalTime)

def PhasedBy (rel : Prop → Prop → Prop) (m : Machine) : Prop :=
  match m.pc with
  | .checkFinished i => Dated rel (· < m.time) m.jobs ∧ Unfinished (m.jobs.take i) ∧
      ∀ job ∈ m.jobs, job.runTime = 0 → job.coreId ≠ -1
  | .checkQuantums _ => Dated rel (· < m.time) m.jobs ∧ Unfinished m.jobs ∧ m.jobs ≠ []
  | .checkArrivals i => Dated rel (· ≤ m.time) (m.jobs.take i) ∧ Dated rel (· < m.time) (m.jobs.drop i) ∧
      Unfinished m.jobs ∧ m.jobs ≠ []
  | .runTimeUnit => Dated rel (· ≤ m.time) m.jobs ∧ Unfinished m.jobs ∧ m.jobs ≠ []
  | .done => m.jobs = []

structure Served (o : Options) (m : Machine) (call : Call) (lib' : Lib) (ret : Int) : Prop where
  legal : Legal o.scheme o.cores (calls m.log) m.lib.jobs call
  now : call.time = m.time
  ran : call.perform m.lib = .ok (lib',ret)
  stepped : Step o.scheme o.cores call m.lib.board ret lib'.board
  reassigned : (reassign call ret (entries m.jobs)).Perm (lib'.jobs.map (entry m.time))
  answered : Answer o.cores call ret (entries m.jobs)

variable {o : Options} {m : Machine} {call : Call} {ret : Int} {lib' : Lib}
variable {log : List Event} {es es' : List Entry}

theorem dates_iff : Dates Iff := ⟨Iff.rfl,fun _ _ h => h.mp⟩

theorem dates_imp : Dates (fun p q => p → q) := ⟨id,fun _ _ h => h⟩

theorem phased_iff : Phased m ↔ PhasedBy Iff m := by
  unfold Phased PhasedBy
  split <;> exact Iff.rfl

theorem calls_called : calls (log ++ [.called call ret]) = calls log ++ [(call,ret)] := by
  simp [calls,Event.call?]

theorem reassign_perm (h : es.Perm es') (call : Call) (ret : Int) :
    (reassign call ret es).Perm (reassign call ret es') := by
  cases call with
  | newJob => exact (h.map _).cons _
  | jobFinished => exact (h.filter _).map _
  | quantumExpired => exact (h.map _).map _

theorem answer_perm {cores : Nat} (h : es.Perm es') (ha : Answer cores call ret es) :
    Answer cores call ret es' := by
  cases call <;> simpa only [Answer,Occupied,h.mem_iff] using ha

theorem Followed.table (h : Followed o m) : Table o.cores (entries m.jobs) :=
  table_perm h.coupled.symm (h.run.governed.sound.table m.time)

theorem Followed.serve (h : Followed o m) (hl : Legal o.scheme o.cores (calls m.log) m.lib.jobs call)
    (hnow : call.time = m.time) : ∃ lib' ret, Served o m call lib' ret := by
  have hg := h.run.governed
  have ha := hg.admissible hl
  obtain ⟨lib',ret,hran,hstep,-⟩ := hg.step hl
  refine ⟨lib',ret,hl,hnow,hran,hstep,?_,?_⟩
  · have hp := step_reassign hstep hg.sound ha
    rw [hnow] at hp
    exact (reassign_perm h.coupled call ret).trans hp.symm
  · exact answer_perm h.coupled.symm (step_answer hstep hg.sound ha m.time)

theorem Served.run (hs : Served o m call lib' ret) (h : Followed o m) :
    Run o.scheme o.cores Unguarded (calls (m.log ++ [.called call ret])) lib' := by
  rw [calls_called]
  refine .call h.run hs.legal (fun e he => ?_) trivial hs.ran
  rw [hs.now]
  exact h.past e he

theorem Served.past (hs : Served o m call lib' ret) (h : Followed o m) :
    ∀ e ∈ calls (m.log ++ [.called call ret]), e.1.time ≤ m.time := by
  rw [calls_called]
  exact forall_mem_snoc h.past hs.now.le

theorem still_unarrived {id : Int} (hid : ¬ Arrived id (calls m.log))
    (hne : ∀ t run pri, call ≠ .newJob id t run pri) :
    ¬ Arrived id (calls (m.log ++ [.called call ret])) := by
  rw [calls_called,arrived_snoc]
  rintro (h | ⟨t,run,pri,h⟩)
  · exact hid h
  · exact hne t run pri h

theorem Followed.record (h : Followed o m) {job : SimulatorJobListT} (hj : job ∈ m.jobs)
    (ha : job.arrived = true) :
    ∃ k ∈ m.lib.jobs, k.jobId = job.jobId ∧ k.coreId = job.coreId ∧ remaining m.time k = job.runTime := by
  have hmem : simEntry job ∈ m.lib.jobs.map (entry m.time) :=
    h.coupled.mem_iff.mp (mem_entries.mpr ⟨job,hj,ha,rfl⟩)
  obtain ⟨k,hk,he⟩ := List.mem_map.mp hmem
  exact ⟨k,hk,congrArg Entry.jobId he,congrArg Entry.coreId he,congrArg Entry.left he⟩

theorem Followed.owes (h : Followed o m) {k : JobT} (hk : k ∈ m.lib.jobs) :
    ∃ job ∈ m.jobs, job.arrived = true ∧ job.jobId = k.jobId ∧ job.coreId = k.coreId ∧
      job.runTime = remaining m.time k := by
  obtain ⟨job,hj,ha,he⟩ := mem_entries.mp (h.coupled.mem_iff.mpr (List.mem_map_of_mem hk))
  exact ⟨job,hj,ha,congrArg Entry.jobId he,congrArg Entry.coreId he,congrArg Entry.left he⟩

theorem Followed.arrived_of_seated (h : Followed o m) {job : SimulatorJobListT} (hj : job ∈ m.jobs)
    (hc : job.coreId ≠ -1) : job.arrived = true := by
  cases ha : job.arrived with
  | true => rfl
  | false => exact absurd (h.pending job hj ha).1 hc

theorem Followed.valid (h : Followed o m) {job : SimulatorJobListT} (hj : job ∈ m.jobs)
    (hc : job.coreId ≠ -1) : 0 ≤ job.coreId ∧ job.coreId < o.cores := by
  have he : simEntry job ∈ entries m.jobs :=
    mem_entries.mpr ⟨job,hj,h.arrived_of_seated hj hc,rfl⟩
  exact (h.table.valid _ he).resolve_left hc

theorem Followed.seat_injective (h : Followed o m) {a b : SimulatorJobListT} (ha : a ∈ m.jobs)
    (hb : b ∈ m.jobs) (hc : a.coreId = b.coreId) (hr : a.coreId ≠ -1) : a = b := by
  have hea : simEntry a ∈ entries m.jobs :=
    mem_entries.mpr ⟨a,ha,h.arrived_of_seated ha hr,rfl⟩
  have heb : simEntry b ∈ entries m.jobs :=
    mem_entries.mpr ⟨b,hb,h.arrived_of_seated hb (hc ▸ hr),rfl⟩
  have he := h.table.core_injective hea heb hc hr
  exact key_injective h.distinct ha hb (congrArg Entry.jobId he)

theorem Followed.split_ne (h : Followed o m) {l r : List SimulatorJobListT} {job : SimulatorJobListT}
    (hj : m.jobs = l ++ job :: r) (hr : job.coreId ≠ -1) : ∀ k ∈ l ++ r, k.coreId ≠ job.coreId := by
  intro k hk hc
  have hkj := h.seat_injective (hj ▸ mem_split hk) (by simp [hj]) hc (by rw [hc]; exact hr)
  exact key_ne_of_split (hj ▸ h.distinct) k hk (by rw [hkj])

end OperatingSystemLabs.Simulator

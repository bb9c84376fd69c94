import OperatingSystemLabs.Foundation.Correspondence
import OperatingSystemLabs.Foundation.Loop
import OperatingSystemLabs.Simulator.Moves

namespace OperatingSystemLabs.Simulator

open Scheduler Keyed Loop Correspondence

inductive Halt where
  | endless
  | fault (f : Fault)
  deriving DecidableEq, Repr

-- A write to quantum_clock is recorded whatever its index.
structure Sweep where
  jobs : List SimulatorJobListT
  jobsAlive : Int
  i : Nat
  calls : List Call
  clockWrites : List (Int × Int)
  deriving DecidableEq, Repr

def Options.clockWrites (o : Options) (coreId : Int) : List (Int × Int) :=
  if o.scheme = .rr then [(coreId,o.quantum)] else []

def halting {α : Type} (x : Except Fault α) : Except Halt α := x.mapError Halt.fault

def Sweep.finish (o : Options) (time : Int) (job : SimulatorJobListT) (jobs : List SimulatorJobListT) (s : Sweep) :
    Sweep where
  jobs := jobs
  jobsAlive := s.jobsAlive - 1
  i := s.i
  calls := s.calls ++ [.jobFinished job.coreId job.jobId time]
  clockWrites := s.clockWrites ++ o.clockWrites job.coreId

-- The k-th call of scheduler_job_finished returns `answers k`; i-- undoes the i++ of the for loop.
def finishCurrent (o : Options) (answers : Nat → Int) (time : Int) (job : SimulatorJobListT) (s : Sweep) :
    Except Halt Sweep := do
  let newJobId := answers s.calls.length
  let jobs ← halting (setNewJob .finishedInvalidJob newJobId job.coreId (deleteJob s.jobs s.i))
  return s.finish o time job jobs

def sweepTest (s : Sweep) : Except Halt Bool := .ok (s.i < s.jobs.length)

def sweepBody (o : Options) (answers : Nat → Int) (time : Int) (s : Sweep) : Except Halt Sweep := do
  let job ← halting (readAt s.jobs s.i)
  if job.runTime = 0 then finishCurrent o answers time job s
  else return { s with i := s.i + 1 }

def sweepStart (jobs : List SimulatorJobListT) (jobsAlive : Int) : Sweep := ⟨jobs,jobsAlive,0,[],[]⟩

def sweep (o : Options) (answers : Nat → Int) (time : Int) (jobs : List SimulatorJobListT) (jobsAlive : Int) :
    Except Halt Sweep :=
  repeatWhile .endless sweepTest (sweepBody o answers time) (jobs.length + 1) (sweepStart jobs jobsAlive)

def Answerable (newJobId : Int) (jobs : List SimulatorJobListT) : Prop :=
  newJobId = -1 ∨ ∃ job ∈ jobs, job.jobId = newJobId ∧ job.arrived = true

def Carried (answers : Nat → Int) (finished : List SimulatorJobListT) (job job' : SimulatorJobListT) : Prop :=
  job' = job ∨ ∃ k ended, finished[k]? = some ended ∧ answers k = job.jobId ∧ job.arrived = true ∧
    job' = { job with coreId := ended.coreId }

def Named (jobId coreId : Int) (job job' : SimulatorJobListT) : Prop :=
  job' = job ∨ job.jobId = jobId ∧ job.arrived = true ∧ job' = { job with coreId := coreId }

variable {o : Options} {answers : Nat → Int} {time jobsAlive : Int} {jobs finished l r : List SimulatorJobListT}
variable {s : Sweep} {job ended : SimulatorJobListT} {id core : Int}

theorem Carried.runTime {job' : SimulatorJobListT} (h : Carried answers finished job job') :
    job'.runTime = job.runTime := by
  rcases h with rfl | ⟨k,ended,-,-,-,rfl⟩ <;> rfl

theorem Carried.later {job' : SimulatorJobListT} (h : Carried answers finished job job') :
    Carried answers (finished ++ [ended]) job job' := by
  rcases h with rfl | ⟨k,e,hk,hid,ha,rfl⟩
  · exact .inl rfl
  · exact .inr ⟨k,e,List.getElem?_append_left (List.getElem?_eq_some_iff.mp hk).1 ▸ hk,hid,ha,rfl⟩

theorem Carried.named {job' job'' : SimulatorJobListT} (h : Carried answers finished job job')
    (hn : Named (answers finished.length) ended.coreId job' job'') :
    Carried answers (finished ++ [ended]) job job'' := by
  rcases hn with rfl | ⟨hid,ha,rfl⟩
  · exact h.later
  · have hlast : (finished ++ [ended])[finished.length]? = some ended := List.getElem?_concat_length
    rcases h with rfl | ⟨k,e,-,-,-,rfl⟩
    · exact .inr ⟨finished.length,ended,hlast,hid.symm,ha,rfl⟩
    · exact .inr ⟨finished.length,ended,hlast,hid.symm,ha,rfl⟩

theorem Named.runTime {job' : SimulatorJobListT} (h : Named id core job job') : job'.runTime = job.runTime := by
  rcases h with rfl | ⟨-,-,rfl⟩ <;> rfl

theorem named_refl (jobs : List SimulatorJobListT) : List.Forall₂ (Named id core) jobs jobs :=
  List.forall₂_same.mpr fun _ _ => .inl rfl

theorem setActiveJob_named (h : ∃ job ∈ jobs, job.jobId = id ∧ job.arrived = true) :
    ∃ jobs', setActiveJob id core jobs = some jobs' ∧ List.Forall₂ (Named id core) jobs jobs' := by
  induction jobs with
  | nil => simp at h
  | cons job jobs ih =>
    rw [setActiveJob]
    by_cases hm : job.jobId = id ∧ job.arrived = true
    · rw [if_pos hm]
      exact ⟨_,rfl,.cons (.inr ⟨hm.1,hm.2,rfl⟩) (named_refl jobs)⟩
    · obtain ⟨k,hk,hkm⟩ := h
      have hk' : k ∈ jobs := by
        rcases List.mem_cons.mp hk with rfl | hk
        · exact absurd hkm hm
        · exact hk
      obtain ⟨jobs',hset,hnamed⟩ := ih ⟨k,hk',hkm⟩
      rw [if_neg hm,hset]
      exact ⟨_,rfl,.cons (.inl rfl) hnamed⟩

theorem setNewJob_named (complaint : Int → Complaint) (h : Answerable id jobs) :
    ∃ jobs', setNewJob complaint id core jobs = .ok jobs' ∧ List.Forall₂ (Named id core) jobs jobs' := by
  by_cases hid : id = -1
  · exact ⟨jobs,if_pos hid,named_refl jobs⟩
  · obtain ⟨jobs',hset,hnamed⟩ : ∃ jobs', setActiveJob id core jobs = some jobs' ∧ _ :=
      setActiveJob_named (h.resolve_left hid)
    exact ⟨jobs',by rw [setNewJob,if_neg hid,hset],hnamed⟩

structure Swept (o : Options) (answers : Nat → Int) (time jobsAlive : Int) (jobs finished : List SimulatorJobListT)
    (s : Sweep) : Prop where
  called : s.calls = finished.map (fun job => .jobFinished job.coreId job.jobId time)
  written : s.clockWrites = finished.flatMap (fun job => o.clockWrites job.coreId)
  alive : s.jobsAlive = jobsAlive - finished.length
  ended : ∀ job ∈ finished, job.runTime = 0
  passed : ∀ job ∈ s.jobs.take s.i, job.runTime ≠ 0
  carried : Multiset.Rel (Carried answers finished) jobs (finished ++ s.jobs : List SimulatorJobListT)

theorem Swept.start : Swept o answers time jobsAlive jobs [] (sweepStart jobs jobsAlive) where
  called := rfl
  written := rfl
  alive := (Int.sub_zero _).symm
  ended := by simp
  passed := by simp [sweepStart]
  carried := Multiset.rel_refl_of_refl_on fun _ _ => .inl rfl

theorem Swept.skip (h : Swept o answers time jobsAlive jobs finished s) (hjob : s.jobs[s.i]? = some job)
    (hrun : job.runTime ≠ 0) : Swept o answers time jobsAlive jobs finished { s with i := s.i + 1 } := by
  refine { h with passed := ?_ }
  simp only [List.take_add_one,hjob,Option.toList_some]
  exact forall_mem_snoc h.passed hrun

theorem finishCurrent_ok (hjob : s.jobs[s.i]? = some job)
    (ha : Answerable (answers s.calls.length) (deleteJob s.jobs s.i)) :
    ∃ l r r' jobs', s.jobs = l ++ job :: r ∧ l.length = s.i ∧ r'.Perm r ∧
      List.Forall₂ (Named (answers s.calls.length) job.coreId) (l ++ r') jobs' ∧
      finishCurrent o answers time job s = .ok (s.finish o time job jobs') := by
  obtain ⟨l,r,hj,hl⟩ := split_at hjob
  obtain ⟨r',hdel,hperm⟩ := deleteJob_split l job r
  rw [← hj,hl] at hdel
  obtain ⟨jobs',hset,hnamed⟩ : ∃ jobs', setNewJob .finishedInvalidJob _ job.coreId (l ++ r') = .ok jobs' ∧ _ :=
    setNewJob_named .finishedInvalidJob (hdel ▸ ha)
  refine ⟨l,r,r',jobs',hj,hl,hperm,hnamed,?_⟩
  rw [finishCurrent,hdel,hset]
  rfl

theorem Swept.finish {r' jobs' : List SimulatorJobListT} (h : Swept o answers time jobsAlive jobs finished s)
    (hj : s.jobs = l ++ job :: r) (hl : l.length = s.i) (hrun : job.runTime = 0) (hperm : r'.Perm r)
    (hnamed : List.Forall₂ (Named (answers finished.length) job.coreId) (l ++ r') jobs') :
    Swept o answers time jobsAlive jobs (finished ++ [job]) (s.finish o time job jobs') where
  called := by
    rw [Sweep.finish,h.called,List.map_append]
    rfl
  written := by rw [Sweep.finish,h.written,List.flatMap_append,List.flatMap_singleton]
  alive := by
    have hless : (s.finish o time job jobs').jobsAlive = s.jobsAlive - 1 := rfl
    rw [hless,h.alive,List.length_append,List.length_singleton]
    omega
  ended := forall_mem_snoc h.ended hrun
  passed := by
    intro k hk
    have htake := List.forall₂_take l.length hnamed
    rw [List.take_left] at htake
    obtain ⟨k',hk',hn⟩ := partner_of_mem htake k (hl ▸ hk)
    rw [hn.runTime]
    refine h.passed k' ?_
    rw [hj,← hl,List.take_left]
    exact hk'
  carried := by
    have hmoved : (finished ++ s.jobs).Perm (finished ++ [job] ++ (l ++ r')) := by
      rw [hj,List.append_assoc]
      exact (List.perm_middle.trans ((hperm.symm.append_left l).cons job)).append_left finished
    have hcarried := h.carried
    rw [Multiset.coe_eq_coe.mpr hmoved] at hcarried
    have hreseated := rel_of_forall₂ (List.rel_append (named_refl (finished ++ [job])) hnamed)
    exact rel_comp hcarried hreseated fun _ _ _ hk hn => hk.named hn

theorem Swept.length (h : Swept o answers time jobsAlive jobs finished s) :
    finished.length + s.jobs.length = jobs.length := by
  have hcard := Multiset.card_eq_card_of_rel h.carried
  simp only [Multiset.coe_card,List.length_append] at hcard
  exact hcard.symm

theorem sweepBody_at (hjob : s.jobs[s.i]? = some job) : sweepBody o answers time s =
    if job.runTime = 0 then finishCurrent o answers time job s else .ok { s with i := s.i + 1 } := by
  rw [sweepBody,readAt_ok hjob]
  rfl

theorem sweepTest_true (h : s.i < s.jobs.length) : sweepTest s = .ok true := by rw [sweepTest,decide_eq_true h]

theorem sweepTest_false (h : s.jobs.length ≤ s.i) : sweepTest s = .ok false := by
  rw [sweepTest,decide_eq_false (Nat.not_lt.mpr h)]

-- Each round either passes an entry or removes one, so the entries from i on grow fewer.
theorem Swept.round (h : Swept o answers time jobsAlive jobs finished s) (hi : s.i < s.jobs.length)
    (ha : ∀ job, s.jobs[s.i]? = some job → job.runTime = 0 →
      Answerable (answers s.calls.length) (deleteJob s.jobs s.i)) :
    ∃ t finished', sweepBody o answers time s = .ok t ∧ Swept o answers time jobsAlive jobs finished' t ∧
      t.jobs.length - t.i < s.jobs.length - s.i := by
  have hjob : s.jobs[s.i]? = some s.jobs[s.i] := List.getElem?_eq_getElem hi
  rw [sweepBody_at hjob]
  by_cases hrun : s.jobs[s.i].runTime = 0
  · obtain ⟨l,r,r',jobs',hj,hl,hperm,hnamed,hfinish⟩ := finishCurrent_ok (o := o) hjob (ha _ hjob hrun)
    have hcalls : s.calls.length = finished.length := by rw [h.called,List.length_map]
    rw [hcalls] at hnamed
    have hnext := h.finish hj hl hrun hperm hnamed
    refine ⟨_,_,(if_pos hrun).trans hfinish,hnext,?_⟩
    have hlen := h.length
    have hlen' := hnext.length
    rw [List.length_append,List.length_singleton] at hlen'
    have hsame : (s.finish o time s.jobs[s.i] jobs').i = s.i := rfl
    omega
  · refine ⟨_,finished,if_neg hrun,h.skip hjob hrun,?_⟩
    simp only
    omega

theorem sweep_loses_nothing (o : Options) (answers : Nat → Int) (time jobsAlive : Int)
    (jobs : List SimulatorJobListT)
    (ha : ∀ s job, Rounds sweepTest (sweepBody o answers time) (sweepStart jobs jobsAlive) s →
      s.jobs[s.i]? = some job → job.runTime = 0 →
      Answerable (answers s.calls.length) (deleteJob s.jobs s.i)) :
    ∃ s finished, sweep o answers time jobs jobsAlive = .ok s ∧
      s.calls = finished.map (fun job => .jobFinished job.coreId job.jobId time) ∧
      Multiset.Rel (Carried answers finished) (jobs.filter (·.runTime = 0) : List SimulatorJobListT) finished ∧
      Multiset.Rel (Carried answers finished) (jobs.filter (·.runTime ≠ 0) : List SimulatorJobListT) s.jobs ∧
      s.jobs.length + (jobs.filter (·.runTime = 0)).length = jobs.length ∧
      s.jobsAlive = jobsAlive - (jobs.filter (·.runTime = 0)).length := by
  let Inv (s : Sweep) : Prop :=
    Rounds sweepTest (sweepBody o answers time) (sweepStart jobs jobsAlive) s ∧
      ∃ finished, Swept o answers time jobsAlive jobs finished s
  let variant (s : Sweep) : Nat := s.jobs.length - s.i
  have hround : ∀ s, Inv s → sweepTest s = .ok false ∨ sweepTest s = .ok true ∧
      ∃ t, sweepBody o answers time s = .ok t ∧ Inv t ∧ variant t < variant s := by
    rintro s ⟨hs,finished,h⟩
    rcases Nat.lt_or_ge s.i s.jobs.length with hi | hi
    · obtain ⟨t,finished',hbody,hnext,hless⟩ := h.round hi fun job => ha s job hs
      exact .inr ⟨sweepTest_true hi,t,hbody,⟨hs.next (sweepTest_true hi) hbody,finished',hnext⟩,hless⟩
    · exact .inl (sweepTest_false hi)
  have hfuel : variant (sweepStart jobs jobsAlive) < jobs.length + 1 := Nat.lt_succ_self jobs.length
  obtain ⟨s,hrun,⟨-,finished,h⟩,hstop⟩ := repeatWhile_total variant hround ⟨.start,[],Swept.start⟩ hfuel
  have hall : ∀ job ∈ s.jobs, job.runTime ≠ 0 := by
    have hge : s.jobs.length ≤ s.i := Nat.not_lt.mp (of_decide_eq_false (Except.ok.inj hstop))
    intro job hj
    exact h.passed job (by rwa [List.take_of_length_le hge])
  obtain ⟨hcalled,hleft⟩ := rel_separate (fun _ _ hk => by rw [hk.runTime]) h.ended hall h.carried
  have hlen := h.length
  have hcard : (jobs.filter (·.runTime = 0)).length = finished.length :=
    Multiset.card_eq_card_of_rel hcalled
  refine ⟨s,finished,hrun,h.called,hcalled,hleft,?_,?_⟩
  · rw [hcard]
    omega
  · rw [hcard]
    exact h.alive

theorem sweep_loses_nothing_moved :
    let o : Options := ⟨2,.rr,4⟩
    let answers (k : Nat) : Int := if k = 0 then 2 else -1
    let jobs : List SimulatorJobListT := [⟨0,0,0,0,0,true⟩,⟨1,0,0,0,1,true⟩,⟨2,0,3,0,-1,true⟩]
    ∃ s finished, sweep o answers 5 jobs 3 = .ok s ∧
      s.calls = finished.map (fun job => .jobFinished job.coreId job.jobId 5) ∧
      Multiset.Rel (Carried answers finished) (jobs.filter (·.runTime = 0) : List SimulatorJobListT) finished ∧
      Multiset.Rel (Carried answers finished) (jobs.filter (·.runTime ≠ 0) : List SimulatorJobListT) s.jobs ∧
      s.jobs.length + 2 = 3 ∧ s.jobsAlive = 3 - 2 := by
  intro o answers jobs
  let s₁ : Sweep := ⟨[⟨2,0,3,0,0,true⟩,⟨1,0,0,0,1,true⟩],2,0,[.jobFinished 0 0 5],[(0,4)]⟩
  let s₂ : Sweep := { s₁ with i := 1 }
  let s₃ : Sweep := ⟨[⟨2,0,3,0,0,true⟩],1,1,[.jobFinished 0 0 5,.jobFinished 1 1 5],[(0,4),(1,4)]⟩
  let Inv (s : Sweep) : Prop := s = sweepStart jobs 3 ∨ s = s₁ ∨ s = s₂ ∨ s = s₃
  have hround : ∀ s t, Inv s → sweepTest s = .ok true → sweepBody o answers 5 s = .ok t → Inv t := by
    rintro s t (rfl | rfl | rfl | rfl) hgo hbody
    · exact .inr (.inl (Except.ok.inj hbody).symm)
    · exact .inr (.inr (.inl (Except.ok.inj hbody).symm))
    · exact .inr (.inr (.inr (Except.ok.inj hbody).symm))
    · cases hgo
  refine sweep_loses_nothing o answers 5 3 jobs (fun s job hs hjob hrun => ?_)
  rcases hs.invariant hround (.inl rfl : Inv (sweepStart jobs 3)) with rfl | rfl | rfl | rfl
  · exact .inr ⟨⟨2,0,3,0,-1,true⟩,List.mem_cons_self,rfl,rfl⟩
  · obtain rfl := Option.some.inj hjob
    cases hrun
  · exact .inl rfl
  · cases hjob

def checking (m : Machine) : Except Fault Bool :=
  match m.pc with
  | .checkFinished i => .ok (i < m.jobs.length)
  | _ => .ok false

def Agrees (answers : Nat → Int) (given : List Int) : Prop := ∀ k ret, given[k]? = some ret → answers k = ret

structure Sweeping (m₀ m : Machine) (given : List Int) (s : Sweep) : Prop where
  jobs : s.jobs = m.jobs
  alive : s.jobsAlive = m.jobsAlive
  place : m.pc = .checkFinished s.i
  time : m.time = m₀.time
  answered : given.length = s.calls.length
  logged : m.log = m₀.log ++ List.zipWith Event.called s.calls given
  written : m.quantumClock = s.clockWrites.foldl (fun clock w => clock.set w.1.toNat w.2) m₀.quantumClock

variable {m₀ m m' : Machine} {given : List Int}

theorem writeAt_set {α : Type} {xs ys : List α} {i : Int} {x : α} (h : writeAt xs i x = .ok ys) :
    ys = xs.set i.toNat x := by
  rw [writeAt] at h
  split at h
  · exact (Except.ok.inj h).symm
  · cases h

theorem resetClock_writes {clock clock' : List Int} (h : o.resetClock clock core = .ok clock') :
    clock' = (o.clockWrites core).foldl (fun clock w => clock.set w.1.toNat w.2) clock := by
  rw [Options.resetClock] at h
  rw [Options.clockWrites]
  split at h
  · next hrr => rw [if_pos hrr,writeAt_set h,List.foldl_cons,List.foldl_nil]
  · next hrr => rw [if_neg hrr,← Except.ok.inj h,List.foldl_nil]

theorem Sweeping.round (h : Sweeping m₀ m given s) (hgo : checking m = .ok true) (hstep : step o m = .ok m') :
    ∃ given' s', sweepTest s = .ok true ∧ Sweeping m₀ m' given' s' ∧ ∀ answers, Agrees answers given' →
      Agrees answers given ∧ sweepBody o answers m₀.time s = .ok s' := by
  rw [checking,h.place] at hgo
  have hi : s.i < s.jobs.length := h.jobs ▸ of_decide_eq_true (Except.ok.inj hgo)
  have hjob : s.jobs[s.i]? = some s.jobs[s.i] := List.getElem?_eq_getElem hi
  generalize s.jobs[s.i] = job at hjob
  have hmjob : m.jobs[s.i]? = some job := h.jobs ▸ hjob
  rw [step,h.place] at hstep
  simp only [checkFinished,hmjob] at hstep
  by_cases hrun : job.runTime = 0
  · rw [if_pos hrun] at hstep
    obtain ⟨⟨lib,ret⟩,-,hstep⟩ := ok_of_bind hstep
    obtain ⟨clock,hclock,hstep⟩ := ok_of_bind hstep
    obtain ⟨jobs,hset,hstep⟩ := ok_of_bind hstep
    obtain rfl := Except.ok.inj hstep
    refine ⟨given ++ [ret],s.finish o m₀.time job jobs,sweepTest_true hi,⟨rfl,?_,h.place,h.time,?_,?_,?_⟩,?_⟩
    · exact congrArg (· - 1) h.alive
    · simp only [Sweep.finish,List.length_append,h.answered,List.length_singleton]
    · simp only [Sweep.finish,List.zipWith_append h.answered.symm,h.logged,h.time,List.append_assoc]
      rfl
    · simp only [Sweep.finish,List.foldl_append,← h.written]
      exact resetClock_writes hclock
    · intro answers hagrees
      have hret : answers s.calls.length = ret := by
        rw [← h.answered]
        exact hagrees _ _ List.getElem?_concat_length
      refine ⟨fun k a hk => hagrees k a ?_,?_⟩
      · rw [List.getElem?_append_left (List.getElem?_eq_some_iff.mp hk).1]
        exact hk
      · rw [sweepBody_at hjob,if_pos hrun,finishCurrent,hret,h.jobs,hset]
        rfl
  · rw [if_neg hrun] at hstep
    obtain rfl := Except.ok.inj hstep
    refine ⟨given,{ s with i := s.i + 1 },sweepTest_true hi,
      ⟨h.jobs,h.alive,rfl,h.time,h.answered,h.logged,h.written⟩,fun answers hagrees => ⟨hagrees,?_⟩⟩
    rw [sweepBody_at hjob,if_neg hrun]

theorem phase_swept (hpc : m₀.pc = .checkFinished 0) (h : Rounds checking (step o) m₀ m) :
    ∃ given s, Sweeping m₀ m given s ∧ ∀ answers, Agrees answers given →
      Rounds sweepTest (sweepBody o answers m₀.time) (sweepStart m₀.jobs m₀.jobsAlive) s := by
  induction h with
  | start =>
    exact ⟨[],sweepStart m₀.jobs m₀.jobsAlive,⟨rfl,rfl,hpc,rfl,rfl,(List.append_nil _).symm,rfl⟩,fun _ _ => .start⟩
  | next _ hgo hstep ih =>
    obtain ⟨given,s,h,hrounds⟩ := ih
    obtain ⟨given',s',htest,h',hbody⟩ := h.round hgo hstep
    refine ⟨given',s',h',fun answers hagrees => ?_⟩
    obtain ⟨hbefore,hround⟩ := hbody answers hagrees
    exact (hrounds answers hbefore).next htest hround

end OperatingSystemLabs.Simulator

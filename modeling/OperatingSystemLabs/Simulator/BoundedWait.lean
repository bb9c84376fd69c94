import OperatingSystemLabs.Scheduler.RoundRobin
import OperatingSystemLabs.Simulator.Leftover
import OperatingSystemLabs.Simulator.Quantum

namespace OperatingSystemLabs.Simulator

open Scheduler Keyed Transition

def readyQueue (cores : Nat) (log : List Event) : ReadyQueue :=
  (ReadyQueue.replay cores ((calls log).map Prod.fst)).1

-- How often the cores are given away at the latest in the next r ticks, this one's phases included.
def slotsWithin (quantum r : Int) (clock : List Int) : Int := (clock.map (fun k => (r + quantum - k) / quantum)).sum

def Turn (o : Options) (m : Machine) (id deadline : Int) : Prop :=
  ∃ l r, (readyQueue o.cores m.log).fifo = l ++ id :: r ∧
    (l.length : Int) + 1 ≤ slotsWithin o.quantum (deadline - m.time) m.quantumClock

def OnCore (o : Options) (m : Machine) (id : Int) : Prop :=
  (∀ job ∈ m.jobs, job.jobId = id → job.runTime ≠ 0) ∧ ∃ c : Nat,
    (readyQueue o.cores m.log).onCore[c]? = some (some id) ∧ ∃ k, m.quantumClock[c]? = some k ∧ 1 ≤ k

def Due (o : Options) (m : Machine) (id since deadline : Int) : Prop :=
  (∃ t ∈ ticks id m.log, since ≤ t ∧ t ≤ deadline) ∨
    since ≤ m.time ∧ m.time ≤ deadline ∧ (OnCore o m id ∨ Turn o m id deadline)

variable {o : Options} {rows : List Row} {m m' : Machine} {id since deadline quantum r k : Int}
  {clock clock' : List Int}
variable {rq : ReadyQueue} {log : List Event} {call : Call} {ret : Int} {cores c : Nat}

theorem slots_set (hq : 0 < quantum) (hc : clock[c]? = some k) (hk : 0 ≤ k) :
    slotsWithin quantum r clock ≤ slotsWithin quantum r (clock.set c quantum) + 1 := by
  induction clock generalizing c with
  | nil => cases hc
  | cons a clock ih =>
    cases c with
    | zero =>
      obtain rfl : a = k := by simpa using hc
      have hone : (r + quantum - a) / quantum ≤ (r + quantum - quantum) / quantum + 1 := by
        have hnext := Int.add_mul_ediv_right r 1 hq.ne'
        rw [one_mul] at hnext
        rw [add_sub_cancel_right,← hnext]
        exact Int.ediv_le_ediv hq (by omega)
      simp only [slotsWithin,List.set_cons_zero,List.map_cons,List.sum_cons]
      omega
    | succ c =>
      have := ih (by simpa using hc)
      simp only [slotsWithin,List.set_cons_succ,List.map_cons,List.sum_cons] at this ⊢
      omega

theorem slots_tick : slotsWithin quantum (r - 1) (clock.map (· - 1)) = slotsWithin quantum r clock := by
  rw [slotsWithin,slotsWithin,List.map_map]
  congr 1
  refine List.map_congr_left (fun k _ => ?_)
  simp only [Function.comp_apply]
  congr 1
  omega

theorem slots_early {n : Nat} (hq : 0 < quantum) (h : ∀ k ∈ clock, k ≤ quantum) :
    (clock.length * n : Int) ≤ slotsWithin quantum (quantum * n) clock := by
  induction clock with
  | nil => simp [slotsWithin]
  | cons a clock ih =>
    have := ih (fun k hk => h k (List.mem_cons_of_mem _ hk))
    have hle : (n : Int) ≤ (quantum * n + quantum - a) / quantum := by
      rw [Int.le_ediv_iff_mul_le hq]
      have := h a List.mem_cons_self
      rw [mul_comm]
      omega
    simp only [slotsWithin,List.map_cons,List.sum_cons,List.length_cons,Nat.cast_add,Nat.cast_one,add_mul,one_mul]
      at this ⊢
    omega

theorem slots_late (hq : 0 < quantum) (h : ∀ k ∈ clock, 1 ≤ k) : slotsWithin quantum 0 clock ≤ 0 := by
  induction clock with
  | nil => simp [slotsWithin]
  | cons a clock ih =>
    have := ih (fun k hk => h k (List.mem_cons_of_mem _ hk))
    have hle : (0 + quantum - a) / quantum ≤ 0 := by
      have hlt : (0 + quantum - a) / quantum < 1 := by
        rw [Int.ediv_lt_iff_lt_mul hq]
        have := h a List.mem_cons_self
        omega
      omega
    simp only [slotsWithin,List.map_cons,List.sum_cons] at this ⊢
    omega

theorem readyQueue_called : readyQueue cores (log ++ [.called call ret]) = ((readyQueue cores log).perform call).1 := by
  rw [readyQueue,calls_called,List.map_append,ReadyQueue.replay,List.foldl_append]
  rfl

theorem Followed.pictures (h : Followed o m) (hrr : o.scheme = .rr) :
    Pictures o.cores m.lib.jobs (readyQueue o.cores m.log) := (run_pictures (hrr ▸ h.run)).2

theorem dispatch_waiting {l r' : List Int} (extra : List Int) (hfifo : rq.fifo = l ++ id :: r') (core : Nat) :
    l = [] ∧ (({ rq with fifo := rq.fifo ++ extra } : ReadyQueue).dispatch core).1.onCore =
        rq.onCore.set core (some id) ∨
      ∃ x xs, l = x :: xs ∧
        (({ rq with fifo := rq.fifo ++ extra } : ReadyQueue).dispatch core).1.fifo = xs ++ id :: (r' ++ extra) := by
  cases l with
  | nil => exact .inl ⟨rfl,by simp [ReadyQueue.dispatch,hfifo]⟩
  | cons x xs => exact .inr ⟨x,xs,rfl,by simp [ReadyQueue.dispatch,hfifo]⟩

theorem dispatch_other (rq : ReadyQueue) {core : Nat} (h : c ≠ core) :
    (rq.dispatch core).1.onCore[c]? = rq.onCore[c]? := by
  rw [ReadyQueue.dispatch]
  split <;> exact List.getElem?_set_ne h.symm

theorem arrive_other (new : Int) (h : rq.onCore[c]? = some (some id)) :
    (rq.arrive new).1.onCore[c]? = some (some id) ∧ (rq.arrive new).2 ≠ c := by
  rw [ReadyQueue.arrive]
  split
  · next core hcore =>
    have hne : core ≠ c := by
      rintro rfl
      obtain ⟨hlt,hnone,-⟩ := List.findIdx?_eq_some_iff_getElem.mp hcore
      rw [List.getElem?_eq_getElem hlt] at h
      rw [Option.some.inj h] at hnone
      cases hnone
    exact ⟨(List.getElem?_set_ne hne).trans h,by simpa using hne⟩
  · exact ⟨h,by simp⟩

section Moves

variable (hrr : o.scheme = .rr) (hs : Steady o m) (hc : Clocked o m)

include hrr hs

theorem waiting_full (hid : id ∈ (readyQueue o.cores m.log).fifo) : Full o.cores m.lib.jobs := by
  rw [(hs.1.pictures hrr).fifo,waitingIds] at hid
  obtain ⟨k,hk,-⟩ := List.mem_map.mp hid
  obtain ⟨hk,hwait⟩ := List.mem_filter.mp hk
  exact hs.1.run.governed.sound.busy hk (by simpa [Running] using hwait)

theorem waiting_runs (hid : id ∈ (readyQueue o.cores m.log).fifo) :
    ∀ job ∈ m.jobs, job.jobId = id → job.coreId = -1 := by
  intro job hj hjid
  rw [(hs.1.pictures hrr).fifo,waitingIds] at hid
  obtain ⟨k,hk,hkid⟩ := List.mem_map.mp hid
  obtain ⟨hk,hwait⟩ := List.mem_filter.mp hk
  obtain ⟨job',hj',-,hid',hcore,-⟩ := hs.1.owes hk
  rw [key_injective hs.1.distinct hj hj' (by rw [hjid,hid',hkid]),hcore]
  simpa [Running] using hwait

theorem waiting_unfinished (hid : id ∈ (readyQueue o.cores m.log).fifo) :
    ∀ job ∈ m.jobs, job.jobId = id → job.runTime ≠ 0 := by
  intro job hj hjid hzero
  have hcore := waiting_runs hrr hs hid job hj hjid
  have hp := hs.2
  rw [Phased] at hp
  split at hp
  · exact hp.2.2 job hj hzero hcore
  · exact hp.2.1 job hj hzero
  · exact hp.2.2.1 job hj hzero
  · exact hp.2.1 job hj hzero
  · rw [hp] at hj
    cases hj

omit hrr in
include hc in
theorem full_clocks (hfull : Full o.cores m.lib.jobs) : ∀ k ∈ m.quantumClock,
    0 ≤ k ∧ k ≤ o.quantum ∧ (m.pc = .runTimeUnit → 1 ≤ k) := by
  intro k hk
  obtain ⟨c,hlt,rfl⟩ := List.getElem_of_mem hk
  obtain ⟨j,hj,hjc⟩ := hfull c (by omega) (by rw [← hs.1.clocks]; omega)
  obtain ⟨job,hjob,-,-,hcore,-⟩ := hs.1.owes hj
  have hseat : job.coreId = c := hcore.trans hjc
  have hrun : job.coreId ≠ -1 := by omega
  have hclock := hc.clock job hjob hrun
  have hbound := hc.bounded job.jobId job.coreId
  rw [show job.coreId.toNat = c by omega,List.getElem?_eq_getElem hlt] at hclock
  have hk := Option.some.inj hclock
  refine ⟨by omega,by omega,fun hpc => ?_⟩
  have := hc.unspent job hjob hrun (by rw [hpc]; trivial)
  omega

theorem Turn.dispatched (extra : List Int) {deadline : Int} (h : Turn o m id deadline) (hq : 1 ≤ o.quantum)
    (hc : Clocked o m) (hcore : c < o.cores)
    (hlog : readyQueue o.cores m'.log = (({ readyQueue o.cores m.log with
      fifo := (readyQueue o.cores m.log).fifo ++ extra } : ReadyQueue).dispatch c).1)
    (hclock : m'.quantumClock = m.quantumClock.set c o.quantum) (htime : m'.time = m.time)
    (hrun : ∀ job ∈ m'.jobs, job.jobId = id → job.runTime ≠ 0) :
    OnCore o m' id ∨ Turn o m' id deadline := by
  obtain ⟨l,r',hfifo,hslots⟩ := h
  have hlen : c < m.quantumClock.length := by rw [hs.1.clocks]; exact hcore
  have hfull := waiting_full hrr hs (show id ∈ _ by simp [hfifo])
  have hnonneg := (full_clocks hs hc hfull _ (List.getElem_mem hlen)).1
  rcases dispatch_waiting extra hfifo c with ⟨rfl,hon⟩ | ⟨x,xs,rfl,hrest⟩
  · have hsized := (hs.1.pictures hrr).sized
    refine .inl ⟨hrun,c,?_,o.quantum,?_,hq⟩
    · rw [hlog,hon,List.getElem?_set_self (by rw [hsized]; exact hcore)]
    · rw [hclock,List.getElem?_set_self hlen]
  · refine .inr ⟨xs,r' ++ extra,by rw [hlog,hrest],?_⟩
    have hset := slots_set (r := deadline - m.time) (by omega : 0 < o.quantum) (List.getElem?_eq_getElem hlen) hnonneg
    rw [hclock,htime]
    simp only [List.length_cons,Nat.cast_add,Nat.cast_one] at hslots
    omega

omit hrr in
theorem executes_on_core (hpic : Pictures o.cores m.lib.jobs (readyQueue o.cores m.log)) (h : OnCore o m id) :
    m.time ∈ ticks id (m.log ++ executions m.time m.jobs) := by
  obtain ⟨-,c,hon,-⟩ := h
  obtain ⟨k,hk,hkid,hkc⟩ := (hpic.holders c _ hon id).mp rfl
  obtain ⟨job,hj,-,hid,hcore,-⟩ := hs.1.owes hk
  have hrun : job.coreId ≠ -1 := by omega
  exact (mem_ticks_ran m.log m.time hs.1.distinct).mpr (.inr ⟨rfl,job,hj,hid.trans hkid,hrun⟩)

end Moves

theorem ticks_stay (hm : Move o m m') {t : Int} (ht : t ∈ ticks id m.log) : t ∈ ticks id m'.log := by
  have happend (xs : List Event) : t ∈ ticks id (m.log ++ xs) := by
    rw [ticks,times_append]
    exact List.mem_append_left _ ht
  cases hm with
  | finished => exact happend _
  | expired => exact happend _
  | arrived => exact happend _
  | ran => exact happend _
  | _ => exact ht

theorem OnCore.dispatched {core : Nat} {fifo : List Int} (h : OnCore o m id)
    (hrun : ∀ job ∈ m'.jobs, job.jobId = id → job.runTime ≠ 0)
    (hlog : readyQueue o.cores m'.log = (({ readyQueue o.cores m.log with fifo := fifo } : ReadyQueue).dispatch core).1)
    (hclock : m'.quantumClock = m.quantumClock.set core o.quantum)
    (hother : ∀ c : Nat, (readyQueue o.cores m.log).onCore[c]? = some (some id) → ∀ k, m.quantumClock[c]? = some k →
      1 ≤ k → c ≠ core) : OnCore o m' id := by
  obtain ⟨-,c,hon,k,hk,hpos⟩ := h
  have hne := hother c hon k hk hpos
  refine ⟨hrun,c,?_,k,?_,hpos⟩
  · rw [hlog,dispatch_other _ hne]
    exact hon
  · rw [hclock,List.getElem?_set_ne hne.symm]
    exact hk

theorem finished_due {l r r' : List SimulatorJobListT} {job : SimulatorJobListT} {lib' : Lib} {alive deadline : Int}
    (hrr : o.scheme = .rr) (hq : 1 ≤ o.quantum) (hs : Steady o m) (hc : Clocked o m)
    (h : OnCore o m id ∨ Turn o m id deadline) (hj : m.jobs = l ++ job :: r) (hrun : job.runTime = 0)
    (hp : r'.Perm r) (hcore : job.coreId ≠ -1) : OnCore o { m with
      lib := lib', jobs := (l ++ r').map (seat ret job.coreId), jobsAlive := alive
      quantumClock := o.clockAfter m.quantumClock job.coreId
      log := m.log ++ [.called (.jobFinished job.coreId job.jobId m.time) ret] } id ∨ Turn o { m with
      lib := lib', jobs := (l ++ r').map (seat ret job.coreId), jobsAlive := alive
      quantumClock := o.clockAfter m.quantumClock job.coreId
      log := m.log ++ [.called (.jobFinished job.coreId job.jobId m.time) ret] } id deadline := by
  have hmem : job ∈ m.jobs := by simp [hj]
  obtain ⟨h0,hlt⟩ := hs.1.valid hmem hcore
  have hkept : ∀ k' ∈ (l ++ r').map (seat ret job.coreId), ∃ k ∈ m.jobs,
      k.jobId = k'.jobId ∧ k.runTime = k'.runTime := by
    intro k' hk'
    obtain ⟨k,hk,rfl⟩ := List.mem_map.mp hk'
    have hseat := reseats_seat ret job.coreId
    refine ⟨k,?_,(hseat.jobId k).symm,(hseat.runTime k).symm⟩
    rw [hj]
    rcases List.mem_append.mp hk with hk | hk
    · simp [hk]
    · simp [hp.mem_iff.mp hk]
  have hleft (hall : ∀ k ∈ m.jobs, k.jobId = id → k.runTime ≠ 0) :
      ∀ k' ∈ (l ++ r').map (seat ret job.coreId), k'.jobId = id → k'.runTime ≠ 0 := by
    intro k' hk' hid
    obtain ⟨k,hk,hkid,hkrun⟩ := hkept k' hk'
    exact hkrun ▸ hall k hk (hkid.trans hid)
  rcases h with hon | hturn
  · refine .inl (hon.dispatched (hleft hon.1) readyQueue_called (by rw [Options.clockAfter,if_pos hrr]) ?_)
    rintro c hc k - - rfl
    obtain ⟨j,hjl,hjid,hjc⟩ := ((hs.1.pictures hrr).holders _ _ hc id).mp rfl
    obtain ⟨job',hj',-,hid',hcore',-⟩ := hs.1.owes hjl
    have hsame := hs.1.seat_injective hmem hj' (by omega) hcore
    exact hon.1 job hmem (by rw [hsame,hid',hjid]) hrun
  · have hfifo := hturn
    obtain ⟨l,r,hfifo,-⟩ := hfifo
    refine Turn.dispatched hrr hs [] hturn hq hc (show job.coreId.toNat < o.cores by omega) ?_
      (by rw [Options.clockAfter,if_pos hrr]) rfl (hleft (waiting_unfinished hrr hs (by simp [hfifo])))
    rw [readyQueue_called,ReadyQueue.perform,List.append_nil]

theorem expired_due {i : Nat} {lib' : Lib} {pc : Phase} {deadline : Int} (hrr : o.scheme = .rr) (hq : 1 ≤ o.quantum)
    (hs : Steady o m) (hc : Clocked o m) (h : OnCore o m id ∨ Turn o m id deadline) (hi : i < o.cores)
    (hzero : m.quantumClock[i]? = some 0) : OnCore o { m with
      lib := lib', jobs := (m.jobs.map (leave i)).map (seat ret i), quantumClock := m.quantumClock.set i o.quantum
      pc := pc, log := m.log ++ [.called (.quantumExpired i m.time) ret] } id ∨ Turn o { m with
      lib := lib', jobs := (m.jobs.map (leave i)).map (seat ret i), quantumClock := m.quantumClock.set i o.quantum
      pc := pc, log := m.log ++ [.called (.quantumExpired i m.time) ret] } id deadline := by
  have hleft (hall : ∀ k ∈ m.jobs, k.jobId = id → k.runTime ≠ 0) :
      ∀ k' ∈ (m.jobs.map (leave i)).map (seat ret i), k'.jobId = id → k'.runTime ≠ 0 := by
    intro k' hk' hid
    rw [List.map_map] at hk'
    obtain ⟨k,hk,rfl⟩ := List.mem_map.mp hk'
    have hf := reseats_comp (reseats_leave i) (reseats_seat ret i)
    rw [hf.runTime]
    exact hall k hk ((hf.jobId k).symm.trans hid)
  rcases h with hon | hturn
  · refine .inl (hon.dispatched (hleft hon.1) (readyQueue_called.trans rfl) rfl ?_)
    rintro c - k hk hpos rfl
    rw [hzero] at hk
    cases hk
    omega
  · have hfifo := hturn
    obtain ⟨l,r,hfifo,-⟩ := hfifo
    exact Turn.dispatched hrr hs _ hturn hq hc hi (readyQueue_called.trans rfl) rfl rfl
      (hleft (waiting_unfinished hrr hs (by simp [hfifo])))

theorem arrived_due {l r : List SimulatorJobListT} {job : SimulatorJobListT} {lib' : Lib} {alive deadline : Int}
    {pc : Phase} (hrr : o.scheme = .rr) (hs : Steady o m) (h : OnCore o m id ∨ Turn o m id deadline)
    (hj : m.jobs = l ++ job :: r)
    (hserved : Served o m (.newJob job.jobId m.time job.runTime job.priority) lib' ret) : OnCore o { m with
      lib := lib', jobs := l.map (leave ret) ++ { job with arrived := true, coreId := ret } :: r.map (leave ret)
      jobsAlive := alive, pc := pc
      quantumClock := if ret = -1 then m.quantumClock else o.clockAfter m.quantumClock ret
      log := m.log ++ [.called (.newJob job.jobId m.time job.runTime job.priority) ret] } id ∨ Turn o { m with
      lib := lib', jobs := l.map (leave ret) ++ { job with arrived := true, coreId := ret } :: r.map (leave ret)
      jobsAlive := alive, pc := pc
      quantumClock := if ret = -1 then m.quantumClock else o.clockAfter m.quantumClock ret
      log := m.log ++ [.called (.newJob job.jobId m.time job.runTime job.priority) ret] } id deadline := by
  have hg := hs.1.run.governed
  have hpic := hs.1.pictures hrr
  have hret := (step_pictures (hrr ▸ hserved.stepped) hg.sound (hrr ▸ hg.admissible hserved.legal) hpic).1
  rw [ReadyQueue.perform] at hret
  rcases h with ⟨hrun,c,hon,k,hk,hpos⟩ | ⟨l',r',hfifo,hslots⟩
  · obtain ⟨harrive,hne⟩ := arrive_other job.jobId hon
    rw [hret] at hne
    refine .inl ⟨?_,c,by rw [readyQueue_called]; exact harrive,k,?_,hpos⟩
    · intro k' hk' hid
      have hleave := reseats_leave ret
      have hold : ∃ k ∈ m.jobs, k.jobId = k'.jobId ∧ k.runTime = k'.runTime := by
        rcases List.mem_append.mp hk' with hk' | hk'
        · obtain ⟨k,hk,rfl⟩ := List.mem_map.mp hk'
          exact ⟨k,by simp [hj,hk],(hleave.jobId k).symm,(hleave.runTime k).symm⟩
        · rcases List.mem_cons.mp hk' with rfl | hk'
          · exact ⟨job,by simp [hj],rfl,rfl⟩
          · obtain ⟨k,hk,rfl⟩ := List.mem_map.mp hk'
            exact ⟨k,by simp [hj,hk],(hleave.jobId k).symm,(hleave.runTime k).symm⟩
      obtain ⟨k,hk,hkid,hkrun⟩ := hold
      exact hkrun ▸ hrun k hk (hkid.trans hid)
    · simp only
      split
      · exact hk
      · next hreal =>
        have hvalid : 0 ≤ ret := (hserved.answered.resolve_left (fun hnone => hreal hnone.1)).1
        rw [Options.clockAfter,if_pos hrr,List.getElem?_set_ne (by omega)]
        exact hk
  · have hfull := waiting_full hrr hs (show id ∈ _ by simp [hfifo])
    rw [ReadyQueue.arrive,arrive_full (b := m.lib.board) hpic hfull] at hret
    refine .inr ⟨l',r' ++ [job.jobId],?_,?_⟩
    · rw [readyQueue_called,ReadyQueue.perform,ReadyQueue.arrive,arrive_full (b := m.lib.board) hpic hfull]
      simp [hfifo]
    · simp only
      rw [if_pos hret.symm]
      exact hslots

theorem ran_turn {clock' : List Int} (diagram : List (List Char)) (pc : Phase) {deadline : Int}
    (hrr : o.scheme = .rr) (hq : 1 ≤ o.quantum) (hs : Steady o m) (hc : Clocked o m) (h : Turn o m id deadline)
    (hdue : m.time ≤ deadline) (hpc : m.pc = .runTimeUnit) (hw : Worked m.jobs m.quantumClock clock') :
    m.time < deadline ∧ Turn o { m with
      jobs := m.jobs.map work, quantumClock := clock', coreTimingDiagram := diagram
      time := m.time + 1, pc := pc, log := m.log ++ executions m.time m.jobs } id deadline := by
  obtain ⟨l,r,hfifo,hslots⟩ := h
  have hfull := waiting_full hrr hs (show id ∈ _ by simp [hfifo])
  have hclocks := full_clocks hs hc hfull
  constructor
  · by_contra hlast
    rw [show deadline - m.time = 0 by omega] at hslots
    have := slots_late (show 0 < o.quantum by omega) (fun k hk => (hclocks k hk).2.2 hpc)
    omega
  · have hclock : clock' = m.quantumClock.map (· - 1) := by
      refine List.ext_getElem? (fun c => ?_)
      rw [List.getElem?_map]
      cases hget : m.quantumClock[c]? with
      | none =>
        exact List.getElem?_eq_none (by rw [hw.1]; exact List.getElem?_eq_none_iff.mp hget)
      | some k =>
        obtain ⟨hlt,-⟩ := List.getElem?_eq_some_iff.mp hget
        obtain ⟨j,hj,hjc⟩ := hfull c (by omega) (by rw [← hs.1.clocks]; omega)
        obtain ⟨job,hjob,-,-,hcore,-⟩ := hs.1.owes hj
        rw [hw.2 c k hget,if_pos ⟨job,hjob,hcore.trans hjc⟩]
        rfl
    refine ⟨l,r,?_,?_⟩
    · rw [readyQueue,calls_executions]
      exact hfifo
    · simp only
      rw [hclock,show deadline - (m.time + 1) = deadline - m.time - 1 by omega,slots_tick]
      exact hslots

theorem move_due {deadline : Int} (hrr : o.scheme = .rr) (hq : 1 ≤ o.quantum) (hs : Steady o m) (hc : Clocked o m)
    (h : Due o m id since deadline) (hm : Move o m m') : Due o m' id since deadline := by
  rcases h with ⟨t,ht,hsince,hdue⟩ | ⟨hsince,hdue,hnow⟩
  · exact .inl ⟨t,ticks_stay hm ht,hsince,hdue⟩
  have hpic := hs.1.pictures hrr
  have hkeep (hjobs : m'.jobs = m.jobs) (hlog : m'.log = m.log) (hclock : m'.quantumClock = m.quantumClock)
      (htime : m'.time = m.time) : Due o m' id since deadline := by
    refine .inr ⟨htime ▸ hsince,htime ▸ hdue,?_⟩
    simpa only [OnCore,Turn,hjobs,hlog,hclock,htime] using hnow
  cases hm with
  | finished _ hj hrun hp hcore _ => exact .inr ⟨hsince,hdue,finished_due hrr hq hs hc hnow hj hrun hp hcore⟩
  | expired _ _ hi hzero => exact .inr ⟨hsince,hdue,expired_due hrr hq hs hc hnow hi hzero⟩
  | arrived _ hj _ _ hserved => exact .inr ⟨hsince,hdue,arrived_due hrr hs hnow hj hserved⟩
  | ran diagram hpc hw =>
    rcases hnow with hon | hturn
    · exact .inl ⟨m.time,executes_on_core hs hpic hon,hsince,hdue⟩
    · obtain ⟨hlt,hturn⟩ := ran_turn diagram (.checkFinished 0) hrr hq hs hc hturn hdue hpc hw
      exact .inr ⟨hsince.trans (Int.le_add_one le_rfl),hlt,.inr hturn⟩
  | _ => exact hkeep rfl rfl rfl rfl

theorem due_later {a b : Machine} {deadline : Int} (hrr : o.scheme = .rr) (hq : 1 ≤ o.quantum) (hcores : 1 ≤ o.cores)
    (h : Runnable rows) (hv : Visits o rows a) (hdue : Due o a id since deadline) (hreach : Reach (step o) a b) :
    Due o b id since deadline := by
  have hkeep : Preserved (step o) (fun m => Visits o rows m ∧ Due o m id since deadline) := by
    rintro a ⟨ha,hdue⟩
    have hs := visits_steady hcores h ha
    obtain ⟨b,hb,hm,-⟩ := steady_move hs hcores
    exact ⟨b,hb,ha.tail hb,move_due hrr hq hs (visits_clocked hrr hq hcores h ha) hdue hm⟩
  exact (hkeep.reach ⟨hv,hdue⟩ hreach).2

theorem due_done {deadline : Int} (hrr : o.scheme = .rr) (hs : Steady o m) (hdone : m.pc = .done)
    (h : Due o m id since deadline) : ∃ t ∈ ticks id m.log, since ≤ t ∧ t ≤ deadline := by
  have hpic := hs.1.pictures hrr
  have hnil := (hs.queue_empty hdone).2
  rcases h with hticks | ⟨-,-,⟨-,c,hon,-⟩ | ⟨l,r,hfifo,-⟩⟩
  · exact hticks
  · obtain ⟨j,hj,-⟩ := (hpic.holders c _ hon id).mp rfl
    rw [hnil] at hj
    cases hj
  · rw [hpic.fifo,hnil] at hfifo
    simp [waitingIds] at hfifo

theorem visits_past (hcores : 1 ≤ o.cores) (h : Runnable rows) (hv : Visits o rows m) : ∀ t, 0 ≤ t → t < m.time →
    ∃ a, Visits o rows a ∧ a.pc = .runTimeUnit ∧ a.time = t ∧ Reach (step o) a m ∧
      ∀ job, leftAt m.log t job = leftAt a.log t job := by
  refine Reach.induction (steady_preserved hcores) (start_steady o h) (Q := fun m => ∀ t, 0 ≤ t → t < m.time →
    ∃ a, Visits o rows a ∧ a.pc = .runTimeUnit ∧ a.time = t ∧ Reach (step o) a m ∧
      ∀ job, leftAt m.log t job = leftAt a.log t job) (fun t h0 ht => absurd ht (not_lt.mpr h0)) ?_ hv
  intro m m' hv hs hpast hstep
  obtain ⟨b,hb,hm,-⟩ := steady_move hs hcores
  rw [hstep] at hb
  obtain rfl := Except.ok.inj hb
  have hkeep (htime : m'.time = m.time) (hlog : ∀ id, ticks id m'.log = ticks id m.log) (t : Int) (h0 : 0 ≤ t)
      (ht : t < m'.time) : ∃ a, Visits o rows a ∧ a.pc = .runTimeUnit ∧ a.time = t ∧ Reach (step o) a m' ∧
        ∀ job, leftAt m'.log t job = leftAt a.log t job := by
    obtain ⟨a,ha,hpc,hat,hreach,hleft⟩ := hpast t h0 (htime ▸ ht)
    exact ⟨a,ha,hpc,hat,hreach.tail hstep,fun job => by rw [← hleft job,leftAt,leftAt,hlog]⟩
  cases hm with
  | finished => exact hkeep rfl (fun _ => ticks_called)
  | expired => exact hkeep rfl (fun _ => ticks_called)
  | arrived => exact hkeep rfl (fun _ => ticks_called)
  | ran _ hpc =>
    intro t h0 ht
    have hle := Int.lt_add_one_iff.mp ht
    rcases hle.lt_or_eq with hbefore | rfl
    · obtain ⟨a,ha,hapc,hat,hreach,hleft⟩ := hpast t h0 hbefore
      exact ⟨a,ha,hapc,hat,hreach.tail hstep,fun job => by rw [leftAt_ran m.log hs.1.distinct hle,hleft job]⟩
    · exact ⟨m,hv,hpc,rfl,(Reach.refl _ _).tail hstep,fun job => leftAt_ran m.log hs.1.distinct hle job⟩
  | _ => exact hkeep rfl (fun _ => rfl)

theorem turn_now {l r : List Int} (hrr : o.scheme = .rr) (hq : 1 ≤ o.quantum) (hcores : 1 ≤ o.cores) (hs : Steady o m)
    (hc : Clocked o m) (hfifo : (readyQueue o.cores m.log).fifo = l ++ id :: r) :
    Turn o m id (m.time + o.quantum * (l.length / o.cores + 1 : ℕ)) := by
  have hclocks := full_clocks hs hc (waiting_full hrr hs (show id ∈ _ by simp [hfifo]))
  have hearly := slots_early (n := l.length / o.cores + 1) (by omega) (fun k hk => (hclocks k hk).2.1)
  refine ⟨l,r,hfifo,?_⟩
  rw [add_sub_cancel_left]
  refine le_trans ?_ hearly
  rw [hs.1.clocks]
  exact_mod_cast Nat.lt_mul_div_succ l.length hcores

theorem on_core_now {job : SimulatorJobListT} (hrr : o.scheme = .rr) (hs : Steady o m) (hc : Clocked o m)
    (hpc : m.pc = .runTimeUnit) (hj : job ∈ m.jobs) (hcore : job.coreId ≠ -1) : OnCore o m job.jobId := by
  have hpic := hs.1.pictures hrr
  have hp := hs.2
  rw [Phased,hpc] at hp
  obtain ⟨h0,hlt⟩ := hs.1.valid hj hcore
  obtain ⟨k,hk,hkid,hkcore,-⟩ := hs.1.record hj (hs.1.arrived_of_seated hj hcore)
  have hon : job.coreId.toNat < (readyQueue o.cores m.log).onCore.length := by
    rw [hpic.sized]
    omega
  have hclock := hc.clock job hj hcore
  have hunspent := hc.unspent job hj hcore (by rw [hpc]; trivial)
  refine ⟨fun k hk _ => hp.2.1 k hk,job.coreId.toNat,?_,_,hclock,by omega⟩
  rw [List.getElem?_eq_getElem hon]
  congr 1
  refine (hpic.holders _ _ (List.getElem?_eq_getElem hon) job.jobId).mpr ⟨k,hk,hkid,?_⟩
  rw [hkcore]
  omega

theorem ahead_bound {l r : List Int} (hrr : o.scheme = .rr) (hs : Steady o m) (hr : Recorded rows m)
    (hfifo : (readyQueue o.cores m.log).fifo = l ++ id :: r) : l.length + 1 + o.cores ≤ rows.length := by
  have hg := hs.1.run.governed
  have hfull := waiting_full hrr hs (show id ∈ _ by simp [hfifo])
  have hrunning := running_count_of_full hg.sound hfull
  have hwaiting : (m.lib.jobs.filter (¬ Running ·)).length = l.length + (r.length + 1) := by
    have := congrArg List.length ((hs.1.pictures hrr).fifo.symm.trans hfifo)
    simpa [waitingIds] using this
  have hsplit := List.length_eq_length_filter_add (l := m.lib.jobs) (fun j => decide (Running j))
  have hsub : m.lib.jobs.map (·.jobId) ⊆ (loadJobs 0 rows).map (·.jobId) := by
    intro i hi
    obtain ⟨k,hk,rfl⟩ := List.mem_map.mp hi
    obtain ⟨loaded,hl,hid,-⟩ := hr.record hs.1 hk
    exact List.mem_map.mpr ⟨loaded,hl,hid⟩
  have hle := (List.subperm_of_subset hg.sound.distinct hsub).length_le
  rw [List.length_map,List.length_map,loadJobs_length] at hle
  simp only [decide_not] at hwaiting
  omega

theorem round_robin_never_starves (hrr : o.scheme = .rr) (hq : 1 ≤ o.quantum) (hcores : 1 ≤ o.cores)
    (h : Runnable rows) : (∃ m, Ends o rows m) ∧ ∀ m, Ends o rows m → ∀ job ∈ loadJobs 0 rows, ∀ t,
      job.arrivalTime ≤ t → t < completion job.jobId m.log → ∃ u ∈ ticks job.jobId m.log,
        t ≤ u ∧ u ≤ t + o.quantum * ((rows.length - 1) / o.cores : ℕ) := by
  refine ⟨simulator_ends hcores h,fun m he job hj t harr hlt => ?_⟩
  have hr := visits_recorded hcores h he.1
  have hc := ends_concluded hcores h he job hj
  obtain ⟨-,-,-,row,hrow,hrowarr,-⟩ := mem_loadJobs hj
  have hzero := (h row hrow).2
  have hpast := hr.past job.jobId _ (List.mem_of_getLast? hc.latest)
  obtain ⟨a,hva,hapc,rfl,hreach,hleft⟩ := visits_past hcores h he.1 t (by omega) (by omega)
  have hra := visits_recorded hcores h hva
  have hsa := visits_steady hcores h hva
  have hca := visits_clocked hrr hq hcores h hva
  have hpic := hsa.1.pictures hrr
  have hunfinished : 0 < leftAt a.log a.time job := by
    rw [← hleft job]
    exact (hc.unfinished_iff hr _).mpr ⟨harr,hlt⟩
  obtain ⟨job',hj',hid,ha'⟩ := (unfinished_queued hra hsa hapc hj).mp hunfinished
  have hdue : ∃ deadline, deadline ≤ a.time + o.quantum * ((rows.length - 1) / o.cores : ℕ) ∧
      Due o a job.jobId a.time deadline := by
    by_cases hcore : job'.coreId = -1
    · obtain ⟨k,hk,hkid,hkcore,-⟩ := hsa.1.record hj' ha'
      have hwaits : job.jobId ∈ (readyQueue o.cores a.log).fifo := by
        rw [hpic.fifo,waitingIds]
        exact List.mem_map.mpr ⟨k,List.mem_filter.mpr ⟨hk,by simp [Running,hkcore,hcore]⟩,hkid.trans hid⟩
      obtain ⟨l,r,hfifo⟩ := List.append_of_mem hwaits
      have hahead := ahead_bound hrr hsa hra hfifo
      have hrounds : l.length / o.cores + 1 ≤ (rows.length - 1) / o.cores := by
        rw [← Nat.add_div_right l.length hcores]
        exact Nat.div_le_div_right (by omega)
      refine ⟨_,?_,.inr ⟨le_rfl,?_,.inr (turn_now hrr hq hcores hsa hca hfifo)⟩⟩
      · exact add_le_add_right (mul_le_mul_of_nonneg_left (by exact_mod_cast hrounds) (by omega)) _
      · have : 0 ≤ o.quantum * (l.length / o.cores + 1 : ℕ) := mul_nonneg (by omega) (by positivity)
        omega
    · refine ⟨a.time,?_,.inr ⟨le_rfl,le_rfl,.inl ?_⟩⟩
      · have : 0 ≤ o.quantum * ((rows.length - 1) / o.cores : ℕ) := mul_nonneg (by omega) (by positivity)
        omega
      · exact hid ▸ on_core_now hrr hsa hca hapc hj' hcore
  obtain ⟨deadline,hle,hdue⟩ := hdue
  obtain ⟨u,hu,hsince,hbefore⟩ :=
    due_done hrr (visits_steady hcores h he.1) he.2 (due_later hrr hq hcores h hva hdue hreach)
  exact ⟨u,hu,hsince,hbefore.trans hle⟩

theorem round_robin_never_starves_shared : ∃ m, Ends ⟨1,.rr,2⟩ [⟨0,5,1⟩,⟨1,3,1⟩,⟨1,4,2⟩] m ∧
    ∀ t, 0 ≤ t → t < completion 0 m.log → ∃ u ∈ ticks 0 m.log, t ≤ u ∧ u ≤ t + 2 * (2 : ℕ) := by
  obtain ⟨⟨m,hm⟩,hall⟩ := round_robin_never_starves (o := ⟨1,.rr,2⟩) rfl (by decide) (by decide)
    (show Runnable [⟨0,5,1⟩,⟨1,3,1⟩,⟨1,4,2⟩] by simp [Runnable])
  exact ⟨m,hm,hall m hm ⟨0,0,5,1,-1,false⟩ (by decide)⟩

end OperatingSystemLabs.Simulator

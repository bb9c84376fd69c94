import Mathlib.Data.List.Induction
import OperatingSystemLabs.Simulator.Chronicle

namespace OperatingSystemLabs.Simulator

open Scheduler Keyed Transition

def marks (id core : Int) (slot : Option Slot) : Bool :=
  slot.any (fun s => s.jobId = id ∧ s.coreId = core)

def countTick (id core : Int) (n : Nat) (e : Event) : Nat :=
  if marks id core e.dispatch? then 0 else if marks id core e.execution? then n + 1 else n

def sinceDispatch (id core : Int) (log : List Event) : Nat := log.foldl (countTick id core) 0

def Checked (core : Int) : Phase → Prop
  | .checkFinished _ => False
  | .checkQuantums i => core < i
  | _ => True

structure Clocked (o : Options) (m : Machine) : Prop where
  bounded : ∀ id core, (sinceDispatch id core m.log : Int) ≤ o.quantum
  clock : ∀ job ∈ m.jobs, job.coreId ≠ -1 → m.quantumClock[job.coreId.toNat]? =
    some (o.quantum - sinceDispatch job.jobId job.coreId m.log)
  unspent : ∀ job ∈ m.jobs, job.coreId ≠ -1 → Checked job.coreId m.pc →
    (sinceDispatch job.jobId job.coreId m.log : Int) < o.quantum

variable {o : Options} {rows : List Row} {m m' : Machine} {call : Call} {ret time id core : Int}
variable {log xs : List Event} {e : Event}
variable {jobs l r : List SimulatorJobListT} {job : SimulatorJobListT}

theorem marks_iff {slot : Slot} :
    marks id core (some slot) = true ↔ slot.jobId = id ∧ slot.coreId = core := by
  simp [marks]

theorem since_snoc :
    sinceDispatch id core (log ++ [e]) = countTick id core (sinceDispatch id core log) e := by
  rw [sinceDispatch,List.foldl_concat]
  rfl

theorem since_le_ticks (id core : Int) (log : List Event) :
    sinceDispatch id core log ≤ (ticks id log).length := by
  induction log using List.reverseRecOn with
  | nil => exact le_refl _
  | append_singleton log e ih =>
    have hticks : (ticks id (log ++ [e])).length = (ticks id log).length + (ticks id [e]).length := by
      rw [ticks,times_append,List.length_append]
    rw [since_snoc,countTick,hticks]
    split
    · exact Nat.zero_le _
    · split
      · next hmark =>
        cases hslot : e.execution? with
        | none => simp [hslot,marks] at hmark
        | some slot =>
          rw [hslot,marks_iff] at hmark
          have hone : (ticks id [e]).length = 1 := by simp [ticks,times,hslot,hmark.1]
          omega
      · omega

theorem since_keep (h : ∀ e ∈ xs, ∀ n, countTick id core n e = n) :
    sinceDispatch id core (log ++ xs) = sinceDispatch id core log := by
  induction xs generalizing log with
  | nil => rw [List.append_nil]
  | cons e xs ih =>
    rw [List.append_cons,ih (fun x hx => h x (List.mem_cons_of_mem _ hx)),since_snoc]
    exact h e List.mem_cons_self _

theorem since_dispatched (h : e.dispatch? = some ⟨time,id,core⟩) :
    sinceDispatch id core (log ++ [e]) = 0 := by
  rw [since_snoc,countTick,h]
  exact if_pos (marks_iff.mpr ⟨rfl,rfl⟩)

theorem since_called (h : ∀ slot ∈ (Event.called call ret).dispatch?, slot.jobId = id → slot.coreId ≠ core) :
    sinceDispatch id core (log ++ [.called call ret]) = sinceDispatch id core log := by
  have hmiss : ¬ marks id core (Event.called call ret).dispatch? = true := by
    cases hslot : (Event.called call ret).dispatch? with
    | none => exact Bool.false_ne_true
    | some slot => exact fun hm => h slot hslot (marks_iff.mp hm).1 (marks_iff.mp hm).2
  rw [since_snoc,countTick,if_neg hmiss]
  rfl

theorem since_called_le (id core : Int) (log : List Event) (call : Call) (ret : Int) :
    sinceDispatch id core (log ++ [.called call ret]) ≤ sinceDispatch id core log := by
  rw [since_snoc,countTick]
  split
  · exact Nat.zero_le _
  · exact le_refl _

theorem since_ran_idle (h : ∀ job ∈ jobs, job.jobId = id → job.coreId = core → job.coreId = -1) :
    sinceDispatch id core (log ++ executions time jobs) = sinceDispatch id core log := by
  refine since_keep (fun e he n => ?_)
  obtain ⟨job,hj,hc,rfl⟩ := mem_executions he
  have hmiss : ¬ marks id core (some ⟨time,job.jobId,job.coreId⟩) = true :=
    fun hm => hc (h job hj (marks_iff.mp hm).1 (marks_iff.mp hm).2)
  exact if_neg hmiss

theorem since_ran_running (log : List Event) (time : Int) (hd : (jobs.map (·.jobId)).Nodup)
    (hj : job ∈ jobs) (hc : job.coreId ≠ -1) :
    sinceDispatch job.jobId job.coreId (log ++ executions time jobs) =
      sinceDispatch job.jobId job.coreId log + 1 := by
  obtain ⟨l,r,rfl⟩ := List.append_of_mem hj
  have hne := key_ne_of_split hd
  have hothers {log : List Event} {k : List SimulatorJobListT} (hk : ∀ j ∈ k, j ∈ l ++ r) :
      sinceDispatch job.jobId job.coreId (log ++ executions time k) =
        sinceDispatch job.jobId job.coreId log :=
    since_ran_idle (fun j hjk hid => absurd hid (hne j (hk j hjk)))
  rw [executions_split hc,List.append_cons,← List.append_assoc,← List.append_assoc]
  rw [hothers (fun j h => List.mem_append_right _ h),since_snoc,
    hothers (fun j h => List.mem_append_left _ h)]
  exact if_pos (marks_iff.mpr ⟨rfl,rfl⟩)

theorem set_clock_self {clock : List Int} {c : Int} (q : Int) (h0 : 0 ≤ c) (hc : c < clock.length) :
    (clock.set c.toNat q)[c.toNat]? = some q := by
  rw [List.getElem?_set_self]
  omega

theorem set_clock_other {clock : List Int} {c d : Int} (q : Int) (h0 : 0 ≤ c) (hd : 0 ≤ d) (hne : c ≠ d) :
    (clock.set c.toNat q)[d.toNat]? = clock[d.toNat]? :=
  List.getElem?_set_ne (by omega)

def Reseated (o : Options) (m : Machine) (e : Event) (clock : List Int) (pc : Phase)
    (k' : SimulatorJobListT) : Prop :=
  (∃ t, e.dispatch? = some ⟨t,k'.jobId,k'.coreId⟩ ∧ clock[k'.coreId.toNat]? = some o.quantum) ∨
  ∃ k ∈ m.jobs, k.jobId = k'.jobId ∧ k.coreId = k'.coreId ∧
    (∀ slot ∈ e.dispatch?, slot.coreId ≠ k'.coreId) ∧
    clock[k'.coreId.toNat]? = m.quantumClock[k'.coreId.toNat]? ∧
    (Checked k'.coreId pc → Checked k'.coreId m.pc)

theorem Clocked.called {jobs' : List SimulatorJobListT} {lib' : Lib} {clock : List Int} {alive : Int}
    {pc : Phase} (h : Clocked o m) (hq : 1 ≤ o.quantum)
    (hjobs : ∀ k' ∈ jobs', k'.coreId ≠ -1 → Reseated o m (.called call ret) clock pc k') :
    Clocked o { m with
      lib := lib', jobs := jobs', jobsAlive := alive, quantumClock := clock, pc := pc
      log := m.log ++ [.called call ret] } := by
  refine ⟨fun id core => ?_,fun k' hk' hc => ?_,fun k' hk' hc hchecked => ?_⟩
  · have hle := since_called_le id core m.log call ret
    have := h.bounded id core
    simp only
    omega
  · rcases hjobs k' hk' hc with ⟨t,hslot,hclock⟩ | ⟨k,hk,hid,hcore,hother,hclock,-⟩
    · simp only [since_dispatched hslot,hclock]
      simp
    · simp only [since_called (fun slot hs _ => hother slot hs),hclock]
      rw [← hid,← hcore]
      exact h.clock k hk (hcore ▸ hc)
  · rcases hjobs k' hk' hc with ⟨t,hslot,-⟩ | ⟨k,hk,hid,hcore,hother,-,hpc⟩
    · simp only [since_dispatched hslot]
      omega
    · simp only [since_called (fun slot hs _ => hother slot hs)]
      rw [← hid,← hcore]
      exact h.unspent k hk (hcore ▸ hc) (hcore ▸ hpc hchecked)

theorem seat_cases (id core : Int) (job : SimulatorJobListT) :
    (job.jobId = id ∧ (seat id core job).coreId = core) ∨ seat id core job = job := by
  unfold seat
  split
  · next h => exact .inl ⟨h.1,rfl⟩
  · exact .inr rfl

theorem leave_cases (core : Int) (job : SimulatorJobListT) (h : (leave core job).coreId ≠ -1) :
    leave core job = job ∧ job.coreId ≠ core := by
  by_cases hc : job.coreId = core
  · rw [leave,if_pos hc] at h
    exact absurd rfl h
  · exact ⟨leave_of_ne hc,hc⟩

theorem Clocked.atPhase {pc : Phase} (h : Clocked o m) (hpc : ∀ job ∈ m.jobs, job.coreId ≠ -1 →
    Checked job.coreId pc → (sinceDispatch job.jobId job.coreId m.log : Int) < o.quantum) :
    Clocked o { m with pc := pc } :=
  ⟨h.bounded,h.clock,hpc⟩

theorem answered_slot {slot k : Slot} (h : k ∈ if ret = -1 then none else some slot) :
    ret ≠ -1 ∧ k = slot := by
  split at h
  · cases h
  · next hret => exact ⟨hret,(Option.some.inj h).symm⟩

theorem finished_clocked {r' : List SimulatorJobListT} {lib' : Lib} {alive : Int} {pc : Phase}
    (h : Clocked o m) (ht : Tracked o m) (hrr : o.scheme = .rr) (hq : 1 ≤ o.quantum)
    (hj : m.jobs = l ++ job :: r) (hp : r'.Perm r) (hc : job.coreId ≠ -1)
    (hpc : ∀ core, Checked core pc → Checked core m.pc) :
    Clocked o { m with
      lib := lib', jobs := (l ++ r').map (seat ret job.coreId), jobsAlive := alive
      quantumClock := o.clockAfter m.quantumClock job.coreId, pc := pc
      log := m.log ++ [.called (.jobFinished job.coreId job.jobId m.time) ret] } := by
  have hvalid := ht.valid (show job ∈ m.jobs by simp [hj]) hc
  have hothers := ht.split_ne hj hc
  refine h.called hq (fun k' hk' hk'c => ?_)
  obtain ⟨k,hk,rfl⟩ := List.mem_map.mp hk'
  have hold := (hp.append_left l).mem_iff.mp hk
  have hkm : k ∈ m.jobs := hj ▸ mem_split hold
  rw [Options.clockAfter,if_pos hrr]
  rcases seat_cases ret job.coreId k with ⟨hid,hcore⟩ | hsame
  · refine .inl ⟨m.time,?_,?_⟩
    · have hne : ret ≠ -1 := by
        have := ht.numbered k hkm
        omega
      rw [(reseats_seat ret job.coreId).jobId,hcore,hid]
      exact if_neg hne
    · rw [hcore]
      exact set_clock_self o.quantum hvalid.1 (ht.clocks.symm ▸ hvalid.2)
  · rw [hsame] at hk'c ⊢
    have hne := hothers k hold
    refine .inr ⟨k,hkm,rfl,rfl,fun slot hslot => ?_,?_,hpc k.coreId⟩
    · rw [(answered_slot hslot).2]
      exact hne.symm
    · exact set_clock_other o.quantum hvalid.1 (ht.valid hkm hk'c).1 hne.symm

theorem expired_clocked {i : Nat} {lib' : Lib} (h : Clocked o m) (ht : Tracked o m)
    (hq : 1 ≤ o.quantum) (hpc : m.pc = .checkQuantums i) (hi : i < o.cores) : Clocked o { m with
      lib := lib', jobs := (m.jobs.map (leave i)).map (seat ret i)
      quantumClock := m.quantumClock.set i o.quantum, pc := .checkQuantums (i + 1)
      log := m.log ++ [.called (.quantumExpired i m.time) ret] } := by
  refine h.called hq (fun k' hk' hk'c => ?_)
  obtain ⟨k1,hk1,rfl⟩ := List.mem_map.mp hk'
  obtain ⟨k,hk,rfl⟩ := List.mem_map.mp hk1
  rcases seat_cases ret i (leave i k) with ⟨hid,hcore⟩ | hsame
  · refine .inl ⟨m.time,?_,?_⟩
    · have hne : ret ≠ -1 := by
        have := ht.numbered k hk
        rw [(reseats_leave i).jobId] at hid
        omega
      rw [(reseats_seat ret i).jobId,hcore,hid]
      exact if_neg hne
    · rw [hcore,← Int.toNat_natCast i]
      exact set_clock_self o.quantum (Int.natCast_nonneg i) (by have := ht.clocks; omega)
  · rw [hsame] at hk'c ⊢
    obtain ⟨hleave,hne⟩ := leave_cases i k hk'c
    rw [hleave] at hk'c ⊢
    refine .inr ⟨k,hk,rfl,rfl,fun slot hslot => ?_,?_,fun hchecked => ?_⟩
    · rw [(answered_slot hslot).2]
      exact hne.symm
    · rw [← Int.toNat_natCast i]
      exact set_clock_other o.quantum (Int.natCast_nonneg i) (ht.valid hk hk'c).1 hne.symm
    · rw [hpc]
      simp only [Checked] at hchecked ⊢
      omega

theorem arrived_clocked {lib' : Lib} {alive : Int} {pc : Phase} (h : Clocked o m) (ht : Tracked o m)
    (hrr : o.scheme = .rr) (hq : 1 ≤ o.quantum) (hj : m.jobs = l ++ job :: r)
    (hret : ret = -1 ∨ 0 ≤ ret ∧ ret < o.cores) (hpc : ∀ core, Checked core pc → Checked core m.pc) :
    Clocked o { m with
      lib := lib'
      jobs := l.map (leave ret) ++ { job with arrived := true, coreId := ret } :: r.map (leave ret)
      jobsAlive := alive
      quantumClock := if ret = -1 then m.quantumClock else o.clockAfter m.quantumClock ret
      pc := pc
      log := m.log ++ [.called (.newJob job.jobId m.time job.runTime job.priority) ret] } := by
  refine h.called hq (fun k' hk' hk'c => ?_)
  rw [Options.clockAfter,if_pos hrr]
  rcases mem_middle_map.mp hk' with rfl | ⟨k,hk,rfl⟩
  · have hseated := hret.resolve_left hk'c
    refine .inl ⟨m.time,if_neg hk'c,?_⟩
    rw [if_neg hk'c]
    exact set_clock_self o.quantum hseated.1 (ht.clocks.symm ▸ hseated.2)
  · obtain ⟨hleave,hne⟩ := leave_cases ret k hk'c
    have hkm : k ∈ m.jobs := hj ▸ mem_split hk
    rw [hleave] at hk'c ⊢
    refine .inr ⟨k,hkm,rfl,rfl,fun slot hslot => ?_,?_,hpc k.coreId⟩
    · rw [(answered_slot hslot).2]
      exact hne.symm
    · split
      · rfl
      · next hneg =>
        exact set_clock_other o.quantum (hret.resolve_left hneg).1 (ht.valid hkm hk'c).1 hne.symm

theorem ran_clocked {clock : List Int} {diagram : List (List Char)} (h : Clocked o m) (ht : Tracked o m)
    (hpc : m.pc = .runTimeUnit) (hw : Worked m.jobs m.quantumClock clock) : Clocked o { m with
      jobs := m.jobs.map work, quantumClock := clock, coreTimingDiagram := diagram
      time := m.time + 1, pc := .checkFinished 0, log := m.log ++ executions m.time m.jobs } := by
  refine ⟨fun id core => ?_,fun k' hk' hc => ?_,fun _ _ _ => False.elim⟩
  · by_cases hrun : ∃ job ∈ m.jobs, job.jobId = id ∧ job.coreId = core ∧ job.coreId ≠ -1
    · obtain ⟨job,hj,rfl,rfl,hc⟩ := hrun
      have hlt := h.unspent job hj hc (by rw [hpc]; trivial)
      have hsince := since_ran_running m.log m.time ht.distinct hj hc
      simp only [hsince]
      omega
    · have hsince : sinceDispatch id core (m.log ++ executions m.time m.jobs) =
          sinceDispatch id core m.log := by
        refine since_ran_idle (fun job hj hid hcore => ?_)
        by_contra hc
        exact hrun ⟨job,hj,hid,hcore,hc⟩
      simp only [hsince]
      exact h.bounded id core
  · obtain ⟨k,hk,rfl⟩ := List.mem_map.mp hk'
    obtain ⟨hid,-,-,hcore⟩ := work_carries k
    rw [hcore] at hc ⊢
    have hvalid := ht.valid hk hc
    have hclock := hw.2 k.coreId.toNat _ (h.clock k hk hc)
    rw [if_pos ⟨k,hk,by omega⟩] at hclock
    have hsince := since_ran_running m.log m.time ht.distinct hk hc
    simp only [hclock,hid,hsince]
    congr 1
    omega

theorem move_clocked (hrr : o.scheme = .rr) (hq : 1 ≤ o.quantum) (ht : Tracked o m)
    (h : Clocked o m) (hm : Move o m m') : Clocked o m' := by
  cases hm with
  | unfinished => exact h.atPhase (fun _ _ _ => False.elim)
  | finished hpc hj _ hp hc =>
    exact finished_clocked h ht hrr hq hj hp hc (fun _ hchecked => hchecked)
  | allFinished _ hnil => exact h.atPhase (fun job hj => absurd hj (by simp [hnil]))
  | toQuantums =>
    refine h.atPhase (fun job hj hc hchecked => ?_)
    have := ht.valid hj hc
    simp only [Checked] at hchecked
    omega
  | @unexpired i clock hpc _ _ hget hnone =>
    refine h.atPhase (fun job hj hc hchecked => ?_)
    have hvalid := ht.valid hj hc
    simp only [Checked] at hchecked
    by_cases hlt : job.coreId < i
    · exact h.unspent job hj hc (by rw [hpc]; exact hlt)
    · have hcore : job.coreId = i := by omega
      have hclock := h.clock job hj hc
      have hne : clock ≠ 0 := fun h0 => hnone h0 job hj hcore
      have hbound := h.bounded job.jobId job.coreId
      rw [hcore,Int.toNat_natCast,hget,← hcore] at hclock
      have := Option.some.inj hclock
      omega
  | expired hpc _ hi => exact expired_clocked h ht hq hpc hi
  | @toArrivals i hpc hlast =>
    refine h.atPhase (fun job hj hc _ => h.unspent job hj hc ?_)
    have hvalid := ht.valid hj hc
    have := hlast hrr
    rw [hpc]
    simp only [Checked]
    omega
  | elsewhen hpc =>
    exact h.atPhase (fun job hj hc _ => h.unspent job hj hc (by rw [hpc]; trivial))
  | @arrived l r job lib' ret hpc hj _ _ hs =>
    refine arrived_clocked h ht hrr hq hj ?_ (fun _ _ => by rw [hpc]; trivial)
    rcases hs.answered with ⟨hret,-⟩ | ⟨h0,hc,-⟩
    · exact .inl hret
    · exact .inr ⟨h0,hc⟩
  | toUnit hpc => exact h.atPhase (fun job hj hc _ => h.unspent job hj hc (by rw [hpc]; trivial))
  | ran diagram hpc hw => exact ran_clocked h ht hpc hw
  | stopped => exact h

theorem start_clocked (rows : List Row) (hq : 1 ≤ o.quantum) : Clocked o (start o rows) := by
  have hidle : ∀ job ∈ (start o rows).jobs, job.coreId = -1 := fun job hj => (mem_loadJobs hj).2.1
  refine ⟨fun id core => ?_,fun job hj hc => absurd (hidle job hj) hc,
    fun job hj hc => absurd (hidle job hj) hc⟩
  have hzero : sinceDispatch id core (start o rows).log = 0 := rfl
  rw [hzero]
  omega

theorem visits_clocked (hrr : o.scheme = .rr) (hq : 1 ≤ o.quantum) (hcores : 1 ≤ o.cores)
    (h : Runnable rows) (hv : Visits o rows m) : Clocked o m :=
  visits_induction hcores h (start_clocked rows hq)
    (fun _ _ _ hs hc hm => move_clocked hrr hq hs.1 hc hm) hv

def Expires (m m' : Machine) (core : Int) : Prop :=
  ∃ t ret, m'.log = m.log ++ [.called (.quantumExpired core t) ret]

theorem expires_move (hm : Move o m m') (he : Expires m m' core) : ∃ (i : Nat) (job : SimulatorJobListT),
    m.pc = .checkQuantums i ∧ core = i ∧ job ∈ m.jobs ∧ job.coreId = core ∧ m.quantumClock[i]? = some 0 := by
  obtain ⟨t,answer,hlog⟩ := he
  cases hm with
  | @expired i job lib' ret hpc _ _ hget hj hcore _ =>
    have hcall := List.append_cancel_left hlog
    simp only [List.cons.injEq,Event.called.injEq,Call.quantumExpired.injEq] at hcall
    exact ⟨i,job,hpc,hcall.1.1.1.symm,hj,hcore.trans hcall.1.1.1,hget⟩
  | finished => simp at hlog
  | arrived => simp at hlog
  | ran =>
    have hcall := List.append_cancel_left hlog
    obtain ⟨job,-,-,hexec⟩ := mem_executions (e := .called (.quantumExpired core t) answer)
      (by rw [hcall]; exact List.mem_singleton_self _)
    cases hexec
  | _ => simp at hlog

theorem expires_only (hs : Steady o m) (hc : Clocked o m) (hm : Move o m m') (he : Expires m m' core) :
    ∃ i : Nat, m.pc = .checkQuantums i ∧ core = i ∧ ∃ job ∈ m.jobs, job.coreId = core ∧
      job.runTime ≠ 0 ∧ (sinceDispatch job.jobId core m.log : Int) = o.quantum := by
  obtain ⟨i,job,hpc,rfl,hj,hcore,hget⟩ := expires_move hm he
  have hp := hs.2
  rw [Phased,hpc] at hp
  have hclock := hc.clock job hj (by omega)
  rw [hcore,Int.toNat_natCast,hget] at hclock
  have hspent := Option.some.inj hclock
  exact ⟨i,hpc,rfl,job,hj,hcore,hp.2.1 job hj,by omega⟩

theorem expires_at {i : Nat} (hrr : o.scheme = .rr) (ht : Tracked o m) (hc : Clocked o m)
    (hm : Move o m m') (hpc : m.pc = .checkQuantums i) (hj : job ∈ m.jobs) (hcore : job.coreId = i)
    (hspent : (sinceDispatch job.jobId job.coreId m.log : Int) = o.quantum) : Expires m m' i := by
  have hrun : job.coreId ≠ -1 := by omega
  have hzero : m.quantumClock[i]? = some 0 := by
    have hclock := hc.clock job hj hrun
    rw [hspent] at hclock
    rw [hcore,Int.toNat_natCast] at hclock
    rw [hclock,Int.sub_self]
  cases hm with
  | unexpired hpc' _ _ hget hnone =>
    cases hpc.symm.trans hpc'
    exact absurd hcore (hnone (Option.some.inj (hget.symm.trans hzero)) job hj)
  | @expired k job lib' ret hpc' =>
    cases hpc.symm.trans hpc'
    exact ⟨m.time,ret,rfl⟩
  | @toArrivals k hpc' hlast =>
    cases hpc.symm.trans hpc'
    have := hlast hrr
    have := ht.valid hj hrun
    omega
  | _ => cases hpc.symm.trans ‹m.pc = _›

theorem expires_iff (hrr : o.scheme = .rr) (hs : Steady o m) (hc : Clocked o m) (hm : Move o m m') :
    Expires m m' core ↔ ∃ i : Nat, m.pc = .checkQuantums i ∧ core = i ∧ ∃ job ∈ m.jobs,
      job.coreId = core ∧ job.runTime ≠ 0 ∧ (sinceDispatch job.jobId core m.log : Int) = o.quantum := by
  constructor
  · exact expires_only hs hc hm
  · rintro ⟨i,hpc,rfl,job,hj,hcore,-,hspent⟩
    exact expires_at hrr hs.1 hc hm hpc hj hcore (hcore.symm ▸ hspent)

theorem quantum_is_exact (hrr : o.scheme = .rr) (hq : 1 ≤ o.quantum) (hcores : 1 ≤ o.cores)
    (h : Runnable rows) (n : Nat) :
    ∃ m m', iterate (step o) n (start o rows) = .ok m ∧ step o m = .ok m' ∧
      (m.pc = .runTimeUnit → ∀ job ∈ m.jobs, job.coreId ≠ -1 →
        ∃ clock, m.quantumClock[job.coreId.toNat]? = some clock ∧ 1 ≤ clock ∧ clock ≤ o.quantum ∧
          clock = o.quantum - sinceDispatch job.jobId job.coreId m.log) ∧
      (∀ id core, (sinceDispatch id core m.log : Int) ≤ o.quantum) ∧
      ∀ core, Expires m m' core ↔ ∃ i : Nat, m.pc = .checkQuantums i ∧ core = i ∧ ∃ job ∈ m.jobs,
        job.coreId = core ∧ job.runTime ≠ 0 ∧ (sinceDispatch job.jobId core m.log : Int) = o.quantum := by
  obtain ⟨m,hm,hs⟩ := (steady_preserved hcores).iterate (start_steady o h) n
  obtain ⟨m',hm',hmove,-⟩ := steady_move hs hcores
  have hc := visits_clocked hrr hq hcores h ⟨n,hm⟩
  refine ⟨m,m',hm,hm',fun hpc job hj hrun => ?_,hc.bounded,fun core => expires_iff hrr hs hc hmove⟩
  have hleft := hc.unspent job hj hrun (by rw [hpc]; trivial)
  exact ⟨_,hc.clock job hj hrun,by omega,by omega,rfl⟩

theorem quantum_is_exact_expiring :
    ∃ m m', iterate (step ⟨1,.rr,2⟩) 21 (start ⟨1,.rr,2⟩ [⟨0,5,1⟩,⟨1,3,1⟩]) = .ok m ∧
      step ⟨1,.rr,2⟩ m = .ok m' ∧
      ∀ core, Expires m m' core ↔ ∃ i : Nat, m.pc = .checkQuantums i ∧ core = i ∧ ∃ job ∈ m.jobs,
        job.coreId = core ∧ job.runTime ≠ 0 ∧ (sinceDispatch job.jobId core m.log : Int) = 2 := by
  obtain ⟨m,m',hm,hm',-,-,hexp⟩ :=
    quantum_is_exact (o := ⟨1,.rr,2⟩) rfl (by decide) (by decide)
      (show Runnable [⟨0,5,1⟩,⟨1,3,1⟩] by simp [Runnable]) 21
  exact ⟨m,m',hm,hm',hexp⟩

end OperatingSystemLabs.Simulator

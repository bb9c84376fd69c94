import OperatingSystemLabs.Simulator.Coupling

namespace OperatingSystemLabs.Simulator

open Scheduler Keyed

def Options.clockAfter (o : Options) (quantumClock : List Int) (coreId : Int) : List Int :=
  if o.scheme = .rr then quantumClock.set coreId.toNat o.quantum else quantumClock

def work (job : SimulatorJobListT) : SimulatorJobListT :=
  if job.coreId ≠ -1 then { job with runTime := job.runTime - 1 } else job

def executions (time : Int) (jobs : List SimulatorJobListT) : List Event :=
  (jobs.filter (·.coreId ≠ -1)).map (fun job => .executed time job.jobId job.coreId)

def Worked (jobs : List SimulatorJobListT) (clock clock' : List Int) : Prop :=
  clock'.length = clock.length ∧ ∀ (c : Nat) k, clock[c]? = some k →
    clock'[c]? = some (if ∃ job ∈ jobs, job.coreId = c then k - 1 else k)

def textOn (core : Int) (jobs : List SimulatorJobListT) (text : List Char) : List Char :=
  match jobs.find? (fun job => job.coreId = core) with
  | some job => timeStringOf job.jobId
  | none => text

def Drawn (jobs : List SimulatorJobListT) (texts texts' : List (List Char)) : Prop :=
  texts'.length = texts.length ∧ ∀ (c : Nat) text, texts[c]? = some text →
    texts'[c]? = some (textOn c jobs text)

inductive Move (o : Options) (m : Machine) : Machine → Prop
  | unfinished {l r : List SimulatorJobListT} {job : SimulatorJobListT} :
      m.pc = .checkFinished l.length → m.jobs = l ++ job :: r → job.runTime ≠ 0 →
      Move o m { m with pc := .checkFinished (l.length + 1) }
  | finished {l r r' : List SimulatorJobListT} {job : SimulatorJobListT} {lib' : Lib} {ret : Int} :
      m.pc = .checkFinished l.length → m.jobs = l ++ job :: r → job.runTime = 0 → r'.Perm r →
      job.coreId ≠ -1 → Served o m (.jobFinished job.coreId job.jobId m.time) lib' ret →
      Move o m { m with
        lib := lib'
        jobs := (l ++ r').map (seat ret job.coreId)
        jobsAlive := m.jobsAlive - 1
        quantumClock := o.clockAfter m.quantumClock job.coreId
        log := m.log ++ [.called (.jobFinished job.coreId job.jobId m.time) ret] }
  | allFinished {i : Nat} : m.pc = .checkFinished i → m.jobs = [] → Move o m { m with pc := .done }
  | toQuantums {i : Nat} : m.pc = .checkFinished i → m.jobs.length ≤ i → m.jobs ≠ [] →
      Move o m { m with pc := .checkQuantums 0 }
  | unexpired {i : Nat} {clock : Int} : m.pc = .checkQuantums i → o.scheme = .rr → i < o.cores →
      m.quantumClock[i]? = some clock → (clock = 0 → ∀ job ∈ m.jobs, job.coreId ≠ i) →
      Move o m { m with pc := .checkQuantums (i + 1) }
  | expired {i : Nat} {job : SimulatorJobListT} {lib' : Lib} {ret : Int} :
      m.pc = .checkQuantums i → o.scheme = .rr → i < o.cores → m.quantumClock[i]? = some 0 →
      job ∈ m.jobs → job.coreId = i → Served o m (.quantumExpired i m.time) lib' ret →
      Move o m { m with
        lib := lib'
        jobs := (m.jobs.map (leave i)).map (seat ret i)
        quantumClock := m.quantumClock.set i o.quantum
        pc := .checkQuantums (i + 1)
        log := m.log ++ [.called (.quantumExpired i m.time) ret] }
  | toArrivals {i : Nat} : m.pc = .checkQuantums i → (o.scheme = .rr → o.cores ≤ i) →
      Move o m { m with pc := .checkArrivals 0 }
  | elsewhen {l r : List SimulatorJobListT} {job : SimulatorJobListT} :
      m.pc = .checkArrivals l.length → m.jobs = l ++ job :: r → job.arrivalTime ≠ m.time →
      Move o m { m with pc := .checkArrivals (l.length + 1) }
  | arrived {l r : List SimulatorJobListT} {job : SimulatorJobListT} {lib' : Lib} {ret : Int} :
      m.pc = .checkArrivals l.length → m.jobs = l ++ job :: r → job.arrivalTime = m.time →
      job.arrived = false → Served o m (.newJob job.jobId m.time job.runTime job.priority) lib' ret →
      Move o m { m with
        lib := lib'
        jobs := l.map (leave ret) ++ { job with arrived := true, coreId := ret } :: r.map (leave ret)
        jobsAlive := m.jobsAlive + 1
        quantumClock := if ret = -1 then m.quantumClock else o.clockAfter m.quantumClock ret
        pc := .checkArrivals (l.length + 1)
        log := m.log ++ [.called (.newJob job.jobId m.time job.runTime job.priority) ret] }
  | toUnit {i : Nat} : m.pc = .checkArrivals i → m.jobs.length ≤ i → Move o m { m with pc := .runTimeUnit }
  | ran {clock' : List Int} (diagram : List (List Char)) :
      m.pc = .runTimeUnit → Worked m.jobs m.quantumClock clock' →
      Move o m { m with
        jobs := m.jobs.map work
        quantumClock := clock'
        coreTimingDiagram := diagram
        time := m.time + 1
        pc := .checkFinished 0
        log := m.log ++ executions m.time m.jobs }
  | stopped : m.pc = .done → Move o m m

variable {o : Options} {m m' : Machine} {l r : List SimulatorJobListT} {job : SimulatorJobListT}
variable {rel : Prop → Prop → Prop}

theorem split_at {i : Nat} {jobs : List SimulatorJobListT} (h : jobs[i]? = some job) :
    ∃ l r, jobs = l ++ job :: r ∧ l.length = i := by
  obtain ⟨hi,rfl⟩ := List.getElem?_eq_some_iff.mp h
  refine ⟨jobs.take i,jobs.drop (i + 1),?_,by simp; omega⟩
  rw [List.getElem_cons_drop,List.take_append_drop]

theorem set_split (l r : List SimulatorJobListT) (job job' : SimulatorJobListT) :
    (l ++ job :: r).set l.length job' = l ++ job' :: r := by simp

theorem leave_idle (job : SimulatorJobListT) : leave (-1) job = job := by
  unfold leave
  split
  · next h => rw [← h]
  · rfl

theorem mem_entries_split {e : Entry} :
    e ∈ entries (l ++ job :: r) ↔ (job.arrived = true ∧ simEntry job = e) ∨ e ∈ entries (l ++ r) := by
  simp only [mem_entries,List.mem_append,List.mem_cons]
  constructor
  · rintro ⟨k,hk | rfl | hk,hke⟩
    · exact .inr ⟨k,.inl hk,hke⟩
    · exact .inl hke
    · exact .inr ⟨k,.inr hk,hke⟩
  · rintro (hke | ⟨k,hk | hk,hke⟩)
    · exact ⟨job,.inr (.inl rfl),hke⟩
    · exact ⟨k,.inl hk,hke⟩
    · exact ⟨k,.inr (.inr hk),hke⟩

theorem resetClock_ok (o : Options) {clock : List Int} {c : Int} (h0 : 0 ≤ c) (hc : c < clock.length) :
    o.resetClock clock c = .ok (o.clockAfter clock c) := by
  rw [Options.resetClock,Options.clockAfter,writeAt_ok o.quantum h0 hc]
  split <;> rfl

theorem Followed.finish_legal (ht : Followed o m) (hj : job ∈ m.jobs) (hcore : job.coreId ≠ -1) :
    Legal o.scheme o.cores (calls m.log) m.lib.jobs (.jobFinished job.coreId job.jobId m.time) := by
  obtain ⟨k,hk,hkid,hkc,-⟩ := ht.record hj (ht.arrived_of_seated hj hcore)
  exact ⟨hcore,k,hk,hkid,hkc⟩

theorem Followed.arrive_legal (ht : Followed o m) (hj : job ∈ m.jobs) (ha : job.arrived = false) :
    Legal o.scheme o.cores (calls m.log) m.lib.jobs
      (.newJob job.jobId m.time job.runTime job.priority) := by
  have hnumbered := ht.numbered job hj
  exact ⟨by omega,(ht.pending job hj ha).2⟩

theorem PhasedBy.still_pending {i : Nat} (hp : PhasedBy rel m) (hrel : Dates rel) (hpc : m.pc = .checkArrivals i)
    (hj : m.jobs[i]? = some job) (htime : job.arrivalTime = m.time) : job.arrived = false := by
  rw [PhasedBy,hpc] at hp
  have hdrop : job ∈ m.jobs.drop i :=
    List.mem_of_mem_head? (by rw [List.head?_drop]; exact Option.mem_def.mpr hj)
  rw [← Bool.not_eq_true]
  intro harrived
  have hlt := hrel.forward _ _ (hp.2.1 job hdrop) harrived
  omega

theorem finish_move {i : Nat} (ht : Followed o m) (hp : PhasedBy rel m) (hpc : m.pc = .checkFinished i) :
    ∃ m', checkFinished o m i = .ok m' ∧ Move o m m' := by
  rw [PhasedBy,hpc] at hp
  obtain ⟨-,-,hrunning⟩ := hp
  rw [checkFinished]
  cases hget : m.jobs[i]? with
  | none =>
    by_cases hnil : m.jobs = []
    · exact ⟨_,by simp only [if_pos hnil],.allFinished hpc hnil⟩
    · exact ⟨_,by simp only [if_neg hnil],.toQuantums hpc (List.getElem?_eq_none_iff.mp hget) hnil⟩
  | some job =>
    obtain ⟨l,r,hj,rfl⟩ := split_at hget
    have hmem : job ∈ m.jobs := by simp [hj]
    by_cases hrun : job.runTime = 0
    · have hcore := hrunning job hmem hrun
      obtain ⟨k,hk,hkid,hkc,-⟩ := ht.record hmem (ht.arrived_of_seated hmem hcore)
      have hlegal : Legal o.scheme o.cores (calls m.log) m.lib.jobs
          (.jobFinished job.coreId job.jobId m.time) := ⟨hcore,k,hk,hkid,hkc⟩
      obtain ⟨lib',ret,hs⟩ := ht.serve hlegal rfl
      obtain ⟨r',hdel,hperm⟩ := deleteJob_split l job r
      have hvalid := ht.valid hmem hcore
      have hclock := resetClock_ok o hvalid.1 (ht.clocks.symm ▸ hvalid.2)
      have hids : ((l ++ r').map (·.jobId)).Nodup := by
        have hrest := key_nodup_of_split (hj ▸ ht.distinct)
        exact ((hperm.append_left l).map _).nodup_iff.mpr hrest
      have hold {k : SimulatorJobListT} (hk : k ∈ l ++ r') : k ∈ m.jobs :=
        hj ▸ mem_split ((hperm.append_left l).mem_iff.mp hk)
      have hlisted : ret = -1 ∨ ∃ e ∈ entries (l ++ r'), e.jobId = ret := by
        rcases hs.answered with ⟨hret,-⟩ | ⟨e,he,hid,hec⟩
        · exact .inl hret
        · rw [hj,mem_entries_split] at he
          rcases he with ⟨-,rfl⟩ | he
          · exact absurd hec hcore
          · exact .inr ⟨e,(entries_perm (hperm.append_left l)).mem_iff.mpr he,hid⟩
      have hseat := setNewJob_seat .finishedInvalidJob job.coreId hids
        (fun k hk => by have := ht.numbered k (hold hk); omega) hlisted
      refine ⟨_,?_,.finished hpc hj hrun hperm hcore hs⟩
      have hran : schedulerJobFinished m.lib job.coreId job.jobId m.time = .ok (lib',ret) := hs.ran
      simp only [if_pos hrun]
      rw [bind_ok _ hran]
      simp only
      rw [bind_ok _ hclock,hj,hdel,bind_ok _ hseat]
      rfl
    · exact ⟨_,by simp only [if_neg hrun],.unfinished hpc hj hrun⟩

theorem expire_move {i : Nat} (ht : Followed o m) (hpc : m.pc = .checkQuantums i) :
    ∃ m', checkQuantums o m i = .ok m' ∧ Move o m m' := by
  rw [checkQuantums]
  by_cases hrr : o.scheme = .rr ∧ i < o.cores
  · have hlen : i < m.quantumClock.length := ht.clocks.symm ▸ hrr.2
    have hget : m.quantumClock[i]? = some m.quantumClock[i] := List.getElem?_eq_getElem hlen
    rw [if_pos hrr,bind_ok _ (readAt_ok hget)]
    cases hfind : (if m.quantumClock[i] = 0 then m.jobs.find? (fun job => job.coreId = (i : Int)) else none) with
    | none =>
      refine ⟨_,rfl,.unexpired hpc hrr.1 hrr.2 hget (fun h0 job hj hc => ?_)⟩
      rw [if_pos h0] at hfind
      exact absurd (decide_eq_true hc) (by simpa using List.find?_eq_none.mp hfind job hj)
    | some job =>
      have h0 : m.quantumClock[i] = 0 := by
        by_contra h0
        rw [if_neg h0] at hfind
        cases hfind
      rw [if_pos h0] at hfind
      obtain ⟨hc,l,r,hj,hl⟩ := List.find?_eq_some_iff_append.mp hfind
      have hcore : job.coreId = i := of_decide_eq_true hc
      have hmem : job ∈ m.jobs := by simp [hj]
      have hlegal : Legal o.scheme o.cores (calls m.log) m.lib.jobs (.quantumExpired i m.time) :=
        ⟨hrr.1,by omega,by omega⟩
      obtain ⟨lib',ret,hs⟩ := ht.serve hlegal rfl
      have hothers := ht.split_ne hj (by omega)
      rw [hcore] at hothers
      have hrelease : releaseFirst i m.jobs = m.jobs.map (leave i) := by
        rw [hj]
        exact releaseFirst_leave (fun k hk => hothers k (List.mem_append_left _ hk))
          (fun k hk => hothers k (List.mem_append_right _ hk)) hcore
      have hids : ((m.jobs.map (leave i)).map (·.jobId)).Nodup :=
        (reseats_leave i).jobIds m.jobs ▸ ht.distinct
      have hlisted : ret = -1 ∨ ∃ e ∈ entries (m.jobs.map (leave i)), e.jobId = ret := by
        rcases hs.answered with ⟨hret,-⟩ | ⟨-,e,he,hid,-⟩
        · exact .inl hret
        · rw [entries_leave]
          exact .inr ⟨vacate i e,List.mem_map_of_mem he,(vacate_jobId _ e).trans hid⟩
      have hnumbered : ∀ k ∈ m.jobs.map (leave i), k.jobId ≠ -1 := by
        intro k hk
        obtain ⟨k',hk',rfl⟩ := List.mem_map.mp hk
        have := ht.numbered k' hk'
        rw [(reseats_leave i).jobId]
        omega
      have hseat := setNewJob_seat .expiredInvalidJob i hids hnumbered hlisted
      have hwrite := writeAt_ok o.quantum (Int.natCast_nonneg i) (Int.ofNat_lt.mpr hlen)
      refine ⟨_,?_,.expired hpc hrr.1 hrr.2 (h0 ▸ hget) hmem hcore hs⟩
      have hran : schedulerQuantumExpired m.lib i m.time = .ok (lib',ret) := hs.ran
      simp only [hcore]
      rw [bind_ok _ hran]
      simp only
      rw [bind_ok _ hwrite,hrelease,bind_ok _ hseat,Int.toNat_natCast]
      rfl
  · refine ⟨_,if_neg hrr,.toArrivals hpc (fun h => ?_)⟩
    by_contra hlt
    exact hrr ⟨h,by omega⟩

theorem arrive_move {i : Nat} (ht : Followed o m) (hp : PhasedBy rel m) (hrel : Dates rel)
    (hpc : m.pc = .checkArrivals i) :
    ∃ m', checkArrivals o m i = .ok m' ∧ Move o m m' := by
  rw [checkArrivals]
  cases hget : m.jobs[i]? with
  | none => exact ⟨_,rfl,.toUnit hpc (List.getElem?_eq_none_iff.mp hget)⟩
  | some job =>
    obtain ⟨l,r,hj,rfl⟩ := split_at hget
    have hmem : job ∈ m.jobs := by simp [hj]
    by_cases htime : job.arrivalTime = m.time
    · have harr := hp.still_pending hrel hpc hget htime
      obtain ⟨hidle,-⟩ := ht.pending job hmem harr
      obtain ⟨lib',ret,hs⟩ := ht.serve (ht.arrive_legal hmem harr) rfl
      refine ⟨_,?_,.arrived hpc hj htime harr hs⟩
      have hran : schedulerNewJob m.lib job.jobId m.time job.runTime job.priority = .ok (lib',ret) :=
        hs.ran
      simp only [if_pos htime]
      rw [bind_ok _ hran]
      simp only
      rcases hs.answered with ⟨rfl,-⟩ | ⟨h0,hc,-⟩
      · have hjob : { job with arrived := true } = { job with arrived := true, coreId := -1 } := by
          rw [← hidle]
        rw [if_neg (by omega),if_pos rfl,hj,set_split,map_self (fun k _ => leave_idle k),
          map_self (fun k _ => leave_idle k),← hjob]
        rfl
      · have hclock := resetClock_ok o h0 (ht.clocks.symm ▸ hc)
        rw [if_pos ⟨h0,hc⟩,bind_ok _ hclock,hj,set_split,List.map_append,List.map_cons,
          ← List.length_map (f := leave ret),set_split,if_neg (by omega)]
        rfl
    · exact ⟨_,by simp only [if_neg htime],.elsewhen hpc hj htime⟩

theorem worked_cons_idle {jobs : List SimulatorJobListT} {clock clock' : List Int}
    (hc : job.coreId = -1) (h : Worked jobs clock clock') : Worked (job :: jobs) clock clock' := by
  refine ⟨h.1,fun c k hk => ?_⟩
  have hiff : (∃ j ∈ job :: jobs, j.coreId = c) ↔ ∃ j ∈ jobs, j.coreId = c := by
    have hne : ¬ job.coreId = c := by omega
    simp [hne]
  rw [h.2 c k hk]
  simp only [hiff]

theorem worked_cons_running {jobs : List SimulatorJobListT} {clock clock' : List Int} {n : Nat} {k : Int}
    (hc : job.coreId = n) (hk : clock[n]? = some k) (hothers : ∀ j ∈ jobs, j.coreId ≠ n)
    (h : Worked jobs (clock.set n (k - 1)) clock') : Worked (job :: jobs) clock clock' := by
  refine ⟨by simpa using h.1,fun c x hx => ?_⟩
  by_cases hcn : n = c
  · subst hcn
    have hxk : x = k := Option.some.inj (hx.symm.trans hk)
    have hset : (clock.set n (k - 1))[n]? = some (k - 1) := by
      rw [List.getElem?_set_self' ,hk]
      rfl
    have hnone : ¬ ∃ j ∈ jobs, j.coreId = n := fun ⟨j,hj,hjn⟩ => hothers j hj hjn
    rw [h.2 n (k - 1) hset,if_neg hnone,if_pos ⟨job,List.mem_cons_self,hc⟩,hxk]
  · have hset : (clock.set n (k - 1))[c]? = some x := (List.getElem?_set_ne hcn).trans hx
    have hiff : (∃ j ∈ job :: jobs, j.coreId = c) ↔ ∃ j ∈ jobs, j.coreId = c := by
      have hne : ¬ job.coreId = c := by omega
      simp [hne]
    rw [h.2 c x hset]
    simp only [hiff]

theorem textOn_cons_ne {core : Int} {jobs : List SimulatorJobListT} (hc : job.coreId ≠ core)
    (text : List Char) : textOn core (job :: jobs) text = textOn core jobs text := by
  rw [textOn,List.find?_cons_of_neg (by simpa using hc)]
  rfl

theorem textOn_cons_eq {core : Int} {jobs : List SimulatorJobListT} (hc : job.coreId = core)
    (text : List Char) : textOn core (job :: jobs) text = timeStringOf job.jobId := by
  rw [textOn,List.find?_cons_of_pos (by simpa using hc)]

theorem textOn_idle {core : Int} {jobs : List SimulatorJobListT} (h : ∀ j ∈ jobs, j.coreId ≠ core)
    (text : List Char) : textOn core jobs text = text := by
  rw [textOn,List.find?_eq_none.mpr (fun j hj => by simpa using h j hj)]

theorem drawn_cons_idle {jobs : List SimulatorJobListT} {texts texts' : List (List Char)}
    (hc : job.coreId = -1) (h : Drawn jobs texts texts') : Drawn (job :: jobs) texts texts' := by
  refine ⟨h.1,fun c text htext => ?_⟩
  rw [textOn_cons_ne (by omega)]
  exact h.2 c text htext

theorem drawn_cons_running {jobs : List SimulatorJobListT} {texts texts' : List (List Char)} {n : Nat}
    (hc : job.coreId = n) (hothers : ∀ j ∈ jobs, j.coreId ≠ n)
    (h : Drawn jobs (texts.set n (timeStringOf job.jobId)) texts') : Drawn (job :: jobs) texts texts' := by
  refine ⟨by simpa using h.1,fun c text htext => ?_⟩
  by_cases hcn : n = c
  · subst hcn
    have hset : (texts.set n (timeStringOf job.jobId))[n]? = some (timeStringOf job.jobId) := by
      rw [List.getElem?_set_self',htext]
      rfl
    rw [h.2 n _ hset,textOn_idle hothers,textOn_cons_eq hc]
  · rw [textOn_cons_ne (by omega)]
    exact h.2 c text ((List.getElem?_set_ne hcn).trans htext)

theorem runJobs_spec (time : Int) (jobs : List SimulatorJobListT) (u : TimeUnit)
    (hvalid : ∀ j ∈ jobs, j.coreId ≠ -1 → 0 ≤ j.coreId ∧ j.coreId < u.quantumClock.length)
    (hexcl : jobs.Pairwise (fun a b => a.coreId = b.coreId → a.coreId = -1))
    (hempty : ∀ j ∈ jobs, j.coreId ≠ -1 → u.timeString[j.coreId.toNat]? = some []) :
    ∃ u', runJobs time jobs u = .ok (jobs.map work,u') ∧
      Worked jobs u.quantumClock u'.quantumClock ∧ Drawn jobs u.timeString u'.timeString ∧
      u'.log = u.log ++ executions time jobs ∧
      u'.coresWorking = u.coresWorking + (jobs.filter (·.coreId ≠ -1)).length := by
  induction jobs generalizing u with
  | nil => exact ⟨u,rfl,⟨rfl,by simp⟩,⟨rfl,fun _ _ htext => htext⟩,by simp [executions],by simp⟩
  | cons job jobs ih =>
    obtain ⟨hnew,hrest⟩ := List.pairwise_cons.mp hexcl
    have hvalid' := fun j hj => hvalid j (List.mem_cons_of_mem job hj)
    have hempty' := fun j hj => hempty j (List.mem_cons_of_mem job hj)
    by_cases hc : job.coreId = -1
    · obtain ⟨u',hrun,hworked,hdrawn,hlog,hcores⟩ := ih u hvalid' hrest hempty'
      have hjob : runJob time job u = .ok (job,u) := if_neg (not_not.mpr hc)
      refine ⟨u',?_,worked_cons_idle hc hworked,drawn_cons_idle hc hdrawn,?_,?_⟩
      · rw [runJobs,bind_ok _ hjob]
        simp only
        rw [bind_ok _ hrun,List.map_cons,work,if_neg (not_not.mpr hc)]
        rfl
      · rw [hlog,executions,executions,List.filter_cons_of_neg (by simpa using hc)]
      · rw [hcores,List.filter_cons_of_neg (by simpa using hc)]
    · obtain ⟨h0,hlt⟩ := hvalid job List.mem_cons_self hc
      obtain ⟨n,hn⟩ := Int.eq_ofNat_of_zero_le h0
      have hlen : n < u.quantumClock.length := by omega
      have hget : u.quantumClock[n]? = some u.quantumClock[n] := List.getElem?_eq_getElem hlen
      have htext : u.timeString[n]? = some [] := by
        have := hempty job List.mem_cons_self hc
        rwa [hn,Int.toNat_natCast] at this
      have htlen : n < u.timeString.length := (List.getElem?_eq_some_iff.mp htext).1
      have hothers : ∀ j ∈ jobs, j.coreId ≠ n :=
        fun j hj hjn => hc (hnew j hj (hn.trans hjn.symm))
      let u1 : TimeUnit :=
        { coresWorking := u.coresWorking + 1
          quantumClock := u.quantumClock.set n (u.quantumClock[n] - 1)
          timeString := u.timeString.set n (timeStringOf job.jobId)
          log := u.log ++ [.executed time job.jobId job.coreId] }
      have hjob : runJob time job u = .ok ({ job with runTime := job.runTime - 1 },u1) := by
        have hclock := writeAt_ok (u.quantumClock[n] - 1) (Int.natCast_nonneg n) (Int.ofNat_lt.mpr hlen)
        have hstring := writeAt_ok (timeStringOf job.jobId) (Int.natCast_nonneg n) (Int.ofNat_lt.mpr htlen)
        rw [Int.toNat_natCast] at hclock hstring
        rw [runJob,if_pos hc,hn,bind_ok _ (readAt_ok hget),bind_ok _ hclock,bind_ok _ (readAt_ok htext),
          if_pos rfl,bind_ok _ hstring,← hn]
        rfl
      have hempty1 : ∀ j ∈ jobs, j.coreId ≠ -1 → u1.timeString[j.coreId.toNat]? = some [] := by
        intro j hj hjc
        have hj0 := (hvalid' j hj hjc).1
        have hne : n ≠ j.coreId.toNat := by
          have := hothers j hj
          omega
        exact (List.getElem?_set_ne hne).trans (hempty' j hj hjc)
      obtain ⟨u',hrun,hworked,hdrawn,hlog,hcores⟩ := ih u1 (by simpa [u1] using hvalid') hrest hempty1
      refine ⟨u',?_,worked_cons_running hn hget hothers hworked,drawn_cons_running hn hothers hdrawn,?_,?_⟩
      · rw [runJobs,bind_ok _ hjob]
        simp only
        rw [bind_ok _ hrun,List.map_cons,work,if_pos hc]
        rfl
      · rw [hlog,executions,executions,List.filter_cons_of_pos (by simpa using hc),List.map_cons]
        simp [u1]
      · rw [hcores,List.filter_cons_of_pos (by simpa using hc),List.length_cons]
        simp only [u1]
        omega

theorem Followed.exclusive (h : Followed o m) :
    m.jobs.Pairwise (fun a b => a.coreId = b.coreId → a.coreId = -1) := by
  have hids : m.jobs.Pairwise (fun a b => a.jobId ≠ b.jobId) := List.pairwise_map.mp h.distinct
  refine hids.imp_of_mem (fun {a b} ha hb hne hc => ?_)
  by_contra hr
  exact hne (congrArg _ (h.seat_injective ha hb hc hr))

theorem Followed.somebody (h : Followed o m) (hcores : 1 ≤ o.cores) (halive : 0 < m.jobsAlive) :
    ∃ job ∈ m.jobs, job.coreId ≠ -1 := by
  have hcount := running_count h.run.governed.sound
  have hlen : 0 < m.lib.jobs.length := by
    have := h.alive
    omega
  have hpos : 0 < (m.lib.jobs.filter (Running ·)).length := by omega
  obtain ⟨k,hk⟩ := List.exists_mem_of_length_pos hpos
  obtain ⟨hk,hr⟩ := List.mem_filter.mp hk
  obtain ⟨job,hj,-,he⟩ := mem_entries.mp (h.coupled.mem_iff.mpr (List.mem_map_of_mem hk))
  have hcore : job.coreId = k.coreId := congrArg Entry.coreId he
  exact ⟨job,hj,hcore.symm ▸ of_decide_eq_true hr⟩

theorem unit_ran (ht : Followed o m) (hcores : 1 ≤ o.cores) :
    ∃ clock' texts, Worked m.jobs m.quantumClock clock' ∧
      Drawn m.jobs (List.replicate o.cores []) texts ∧ runTimeUnit o m = .ok { m with
        jobs := m.jobs.map work
        quantumClock := clock'
        coreTimingDiagram := List.zipWith (fun diagram text => diagram ++ if text = [] then ['-'] else text)
          m.coreTimingDiagram texts
        time := m.time + 1
        pc := .checkFinished 0
        log := m.log ++ executions m.time m.jobs } := by
  let u : TimeUnit :=
    { coresWorking := 0
      quantumClock := m.quantumClock
      timeString := List.replicate o.cores []
      log := m.log }
  have hvalid : ∀ j ∈ m.jobs, j.coreId ≠ -1 → 0 ≤ j.coreId ∧ j.coreId < u.quantumClock.length :=
    fun j hj hc => ht.clocks.symm ▸ ht.valid hj hc
  have hempty : ∀ j ∈ m.jobs, j.coreId ≠ -1 → u.timeString[j.coreId.toNat]? = some [] := by
    intro j hj hc
    have := ht.valid hj hc
    simp only [u,List.getElem?_replicate]
    rw [if_pos (by omega)]
  obtain ⟨u',hrun,hworked,hdrawn,hlog,hworking⟩ :=
    runJobs_spec m.time m.jobs u hvalid ht.exclusive hempty
  have hsane : ¬ (0 < m.jobsAlive ∧ u'.coresWorking = 0) := by
    rintro ⟨halive,hzero⟩
    obtain ⟨job,hj,hc⟩ := ht.somebody hcores halive
    have hmem : job ∈ m.jobs.filter (·.coreId ≠ -1) :=
      List.mem_filter.mpr ⟨hj,decide_eq_true hc⟩
    have hpos := List.length_pos_of_mem hmem
    simp only [u] at hworking
    omega
  refine ⟨u'.quantumClock,u'.timeString,hworked,hdrawn,?_⟩
  rw [runTimeUnit,bind_ok _ hrun]
  simp only [if_neg hsane,hlog]
  rfl

theorem unit_move (ht : Followed o m) (hcores : 1 ≤ o.cores) (hpc : m.pc = .runTimeUnit) :
    ∃ m', runTimeUnit o m = .ok m' ∧ Move o m m' := by
  obtain ⟨clock',texts,hworked,-,hrun⟩ := unit_ran ht hcores
  exact ⟨_,hrun,.ran _ hpc hworked⟩

theorem step_move (ht : Followed o m) (hp : PhasedBy rel m) (hrel : Dates rel) (hcores : 1 ≤ o.cores) :
    ∃ m', step o m = .ok m' ∧ Move o m m' := by
  unfold step
  cases hpc : m.pc with
  | checkFinished i => exact finish_move ht hp hpc
  | checkQuantums i => exact expire_move ht hpc
  | checkArrivals i => exact arrive_move ht hp hrel hpc
  | runTimeUnit => exact unit_move ht hcores hpc
  | done => exact ⟨m,rfl,.stopped hpc⟩

end OperatingSystemLabs.Simulator

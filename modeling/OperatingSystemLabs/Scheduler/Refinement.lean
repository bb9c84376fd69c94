import OperatingSystemLabs.Scheduler.Loops
import OperatingSystemLabs.Scheduler.Occupancy

namespace OperatingSystemLabs.Scheduler

open Insertion Keyed

variable {scheme : SchemeT} {cores : Nat} {s : Lib}

def Held (jobs : List JobT) (c : Int) : Prop := ∃ j ∈ jobs, j.coreId = c

def Flags (coreList : List CoreT) (P : Int → Prop) : Prop :=
  ∀ (c : Nat) (core : CoreT), coreList[c]? = some core → (core.active ≠ -1 ↔ P c)

structure Wired (scheme : SchemeT) (cores : Nat) (s : Lib) : Prop where
  current : s.currentScheme = scheme
  cmp : s.queue.cmp = scheme.compare
  cores : s.coreList.length = cores
  nodup : s.queue.head.Nodup
  fresh : ∀ p ∈ s.queue.head, p < s.fresh

structure Linked (scheme : SchemeT) (cores : Nat) (s : Lib) : Prop extends Wired scheme cores s where
  flags : Flags s.coreList (Held s.jobs)

def Refines (scheme : SchemeT) (cores : Nat) (call : Call) (s : Lib) : Prop :=
  ∃ s' ret, call.perform s = .ok (s',ret) ∧ Step scheme cores call s.board ret s'.board ∧
    Linked scheme cores s'

theorem held_append {xs ys : List JobT} {c : Int} : Held (xs ++ ys) c ↔ Held xs c ∨ Held ys c := by
  simp only [Held,List.mem_append,or_and_right,exists_or]

theorem held_cons {j : JobT} {xs : List JobT} {c : Int} :
    Held (j :: xs) c ↔ j.coreId = c ∨ Held xs c := by
  simp only [Held,List.mem_cons,or_and_right,exists_or,exists_eq_left]

theorem held_split {l r : List JobT} {j : JobT} {c : Int} :
    Held (l ++ j :: r) c ↔ j.coreId = c ∨ Held (l ++ r) c := by
  rw [held_append,held_cons,held_append]
  tauto

theorem Flags.congr {coreList : List CoreT} {P Q : Int → Prop} (h : Flags coreList P)
    (hpq : ∀ c : Int, 0 ≤ c → (P c ↔ Q c)) : Flags coreList Q :=
  fun c core hc => (h c core hc).trans (hpq c (by omega))

theorem Flags.set {coreList : List CoreT} {P Q : Int → Prop} {core active : Int} (h : Flags coreList P)
    (h0 : 0 ≤ core) (hq : active ≠ -1 ↔ Q core) (hother : ∀ c : Int, c ≠ core → (P c ↔ Q c)) :
    Flags (coreList.set core.toNat ⟨active⟩) Q := by
  intro c k hk
  by_cases hc : core.toNat = c
  · subst hc
    rw [List.getElem?_set_self'] at hk
    obtain ⟨x,-,rfl⟩ := Option.map_eq_some_iff.mp hk
    simpa [Int.toNat_of_nonneg h0] using hq
  · rw [List.getElem?_set_ne hc] at hk
    exact (h c k hk).trans (hother c (by omega))

theorem Flags.full {coreList : List CoreT} {jobs : List JobT} (h : Flags coreList (Held jobs))
    (hall : ∀ core ∈ coreList, core.active ≠ -1) : Full coreList.length jobs := by
  intro c h0 hc
  obtain ⟨n,rfl⟩ := Int.eq_ofNat_of_zero_le h0
  have hn : n < coreList.length := by omega
  exact (h n coreList[n] (List.getElem?_eq_getElem hn)).mp (hall _ (List.getElem_mem hn))

theorem jobs_append {l r : List Ptr} (hq : s.queue.head = l ++ r) :
    s.jobs = l.map s.mem ++ r.map s.mem := by
  rw [Lib.jobs,hq,List.map_append]

theorem jobs_split {l r : List Ptr} {p : Ptr} (hq : s.queue.head = l ++ p :: r) :
    s.jobs = l.map s.mem ++ s.mem p :: r.map s.mem := by
  rw [jobs_append hq,List.map_cons]

theorem board_eq {jobs : List JobT} (h : s.jobs = jobs) : s.board = { s.board with jobs := jobs } := by
  rw [← h]
  rfl

theorem jobs_forall {P : JobT → Prop} (h : ∀ p ∈ s.queue.head, P (s.mem p)) : ∀ j ∈ s.jobs, P j :=
  List.forall_mem_map.mpr h

theorem wakeFirstWaiting_spec {core : Int} (time pause : Int) (hw : Wired scheme cores s)
    (h0 : 0 ≤ core) (hc : core < cores) (hflags : Flags s.coreList (fun c => Held s.jobs c ∨ c = core))
    (hfree : ¬ Held s.jobs core) :
    ∃ s' ret, wakeFirstWaiting s core time pause = .ok (s',ret) ∧
      Wake core time pause s.board ret s'.board ∧ Linked scheme cores s' := by
  rcases search_spec (fun p => (s.mem p).coreId = -1) s.queue with ⟨he,hall⟩ | ⟨l,p,r,hq,hl,hp,he⟩
  · have hlen : core < s.coreList.length := by rw [hw.cores]; exact hc
    have hwrite := writeAt_ok (⟨-1⟩ : CoreT) h0 hlen
    refine ⟨{ s with coreList := s.coreList.set core.toNat ⟨-1⟩ },-1,?_,.idled ?_,⟨?_,?_⟩⟩
    · rw [wakeFirstWaiting,bind_ok _ he]
      simp only
      rw [bind_ok _ hwrite]
      rfl
    · exact jobs_forall (fun p hp => by simpa [Running] using hall p hp)
    · exact ⟨hw.current,hw.cmp,by simpa using hw.cores,hw.nodup,hw.fresh⟩
    · exact hflags.set h0 ⟨fun h => absurd rfl h,fun h => absurd h hfree⟩
        (fun c hne => ⟨fun h => h.resolve_right hne,.inl⟩)
  · have hjobs := jobs_split hq
    have hidle : (s.mem p).coreId = -1 := by simpa using hp
    have hnew := map_update_split s.mem ((s.mem p).woken core time pause) (hq ▸ hw.nodup)
    let s' : Lib := { s with
      mem := Function.update s.mem p ((s.mem p).woken core time pause)
      waitingTime := s.waitingTime + (time - (s.mem p).pauseTime)
      responseTime := if (s.mem p).responded = -1 then
        s.responseTime + (time - (s.mem p).arrivalTime) else s.responseTime }
    have hjobs' : s'.jobs = l.map s.mem ++ (s.mem p).woken core time pause :: r.map s.mem := by
      rw [← hnew,← hq]
      rfl
    refine ⟨s',(s.mem p).jobId,?_,?_,?_⟩
    · rw [wakeFirstWaiting,bind_ok _ he]
      rfl
    · have hrun : ∀ j ∈ l.map s.mem, Running j := by
        intro j hj
        obtain ⟨x,hx,rfl⟩ := List.mem_map.mp hj
        simpa [Running] using hl x hx
      have hboard : s'.board.jobs = _ := hjobs'
      have hwake : Wake core time pause s.board (s.mem p).jobId _ := .woke hjobs hrun hidle
      rw [← hboard] at hwake
      exact hwake
    · refine ⟨⟨hw.current,hw.cmp,hw.cores,hw.nodup,hw.fresh⟩,hflags.congr ?_⟩
      intro c hc0
      rw [hjobs,hjobs',held_split,held_split,hidle]
      simp only [JobT.woken]
      constructor
      · rintro ((h | h) | h)
        · omega
        · exact .inr h
        · exact .inl h.symm
      · rintro (h | h)
        · exact .inr h.symm
        · exact .inl (.inr h)

theorem jobFinished_refines {core id time : Int} (hl : Linked scheme cores s) (hs : Sound cores s.jobs)
    (ha : (Call.jobFinished core id time).Admissible scheme cores s.jobs) :
    Refines scheme cores (.jobFinished core id time) s := by
  obtain ⟨hne,f,hf,hfid,hfc⟩ := ha
  rcases search_spec (fun p => (s.mem p).jobId = id) s.queue with ⟨-,hall⟩ | ⟨l,p,r,hq,-,hp,he⟩
  · obtain ⟨p,hp,rfl⟩ := List.mem_map.mp hf
    exact absurd hfid (by simpa using hall p hp)
  · have hjobs := jobs_split hq
    have hpid : (s.mem p).jobId = id := by simpa using hp
    have hpf : s.mem p = f := hs.job_injective (by simp [hjobs]) hf (hpid.trans hfid.symm)
    have hpc : (s.mem p).coreId = core := hpf ▸ hfc
    have hcore := hs.valid_of_running hf (by rw [Running,hfc]; exact hne)
    rw [hfc] at hcore
    have hothers := (hjobs ▸ hs).split_ne (by rw [Running,hpc]; exact hne)
    rw [hpc] at hothers
    have hnd : (l ++ p :: r).Nodup := hq ▸ hl.nodup
    have hrest : (l ++ r).map s.mem = l.map s.mem ++ r.map s.mem := List.map_append
    let s1 : Lib := { s with
      queue := { s.queue with head := l ++ r }
      turnaroundTime := s.turnaroundTime + (time - (s.mem p).arrivalTime) }
    have hw1 : Wired scheme cores s1 := by
      refine ⟨hl.current,hl.cmp,hl.cores,?_,?_⟩
      · exact hnd.sublist ((List.sublist_cons_self p r).append_left l)
      · intro x hx
        exact hl.fresh x (hq ▸ mem_split hx)
    have hfree : ¬ Held s1.jobs core := by
      rintro ⟨j,hj,hjc⟩
      exact hothers j (hrest ▸ hj) hjc
    have hflags : Flags s1.coreList (fun c => Held s1.jobs c ∨ c = core) := by
      refine hl.flags.congr (fun c _ => ?_)
      rw [hjobs,held_split,hpc,← hrest]
      exact ⟨fun h => h.symm.imp_right Eq.symm,fun h => h.symm.imp_left Eq.symm⟩
    obtain ⟨s',ret,hrun,hwake,hlink⟩ := wakeFirstWaiting_spec time 0 hw1 hcore.1 hcore.2 hflags hfree
    refine ⟨s',ret,?_,?_,hlink⟩
    · rw [Call.perform,schedulerJobFinished,bind_ok _ he]
      simp only
      rw [bind_ok _ (priqueueRemoveAt_append hq)]
      exact hrun
    · refine Step.finish hjobs hpid hpc ?_
      rw [← hrest]
      exact hwake

theorem quantumExpired_absent {core : Int} (time : Int) (hl : Linked scheme cores s) (h0 : 0 ≤ core)
    (hc : core < cores) (hnone : ∀ j ∈ s.jobs, j.coreId ≠ core)
    (he : search (fun p => (s.mem p).coreId = core) s.queue (priqueueSize s.queue) 0 = .ok none) :
    Refines scheme cores (.quantumExpired core time) s := by
  have hlen : core < s.coreList.length := by rw [hl.cores]; exact hc
  have hwrite := writeAt_ok (⟨-1⟩ : CoreT) h0 hlen
  refine ⟨{ s with coreList := s.coreList.set core.toNat ⟨-1⟩ },-1,?_,.expireIdle hnone,⟨?_,?_⟩⟩
  · rw [Call.perform,schedulerQuantumExpired,bind_ok _ he]
    simp only
    rw [bind_ok _ hwrite]
    rfl
  · exact ⟨hl.current,hl.cmp,by simpa using hl.cores,hl.nodup,hl.fresh⟩
  · refine hl.flags.set h0 ⟨fun h => absurd rfl h,?_⟩ (fun c _ => Iff.rfl)
    rintro ⟨j,hj,hjc⟩
    exact absurd hjc (hnone j hj)

def requeued (s : Lib) (rest : List Ptr) (p : Ptr) (job : JobT) : Lib :=
  let mem := Function.update s.mem p job
  { s with queue := (priqueueOffer mem { s.queue with head := rest } p).1, mem := mem }

theorem requeued_spec {l r : List Ptr} {p : Ptr} (job : JobT) (hw : Wired scheme cores s)
    (hq : s.queue.head = l ++ p :: r) :
    ∃ l' r', l ++ r = l' ++ r' ∧ Wired scheme cores (requeued s (l ++ r) p job) ∧
      (requeued s (l ++ r) p job).jobs = l'.map s.mem ++ job :: r'.map s.mem ∧
      Placed scheme.compare job (l'.map s.mem) (r'.map s.mem) := by
  have hnd : (p :: (l ++ r)).Nodup := List.perm_middle.nodup_iff.mp (hq ▸ hw.nodup)
  obtain ⟨l',r',hlr,hoffer,hplaced⟩ :=
    priqueueOffer_placed (Function.update s.mem p job) { s.queue with head := l ++ r } p
  simp only at hlr
  have hnd' : (l' ++ p :: r').Nodup := List.perm_middle.nodup_iff.mpr (hlr ▸ hnd)
  have hqueue : (requeued s (l ++ r) p job).queue = { s.queue with head := l' ++ p :: r' } := hoffer
  refine ⟨l',r',hlr,⟨hw.current,?_,hw.cores,?_,?_⟩,?_,?_⟩
  · rw [hqueue]
    exact hw.cmp
  · rw [hqueue]
    exact hnd'
  · rw [hqueue]
    intro x hx
    refine hw.fresh x (hq ▸ mem_middle.mpr ?_)
    exact (mem_middle.mp hx).imp_right (fun h => hlr ▸ h)
  · rw [Lib.jobs,hqueue]
    exact map_update_split s.mem job hnd'
  · have hnotMem : p ∉ l' ++ r' := hlr ▸ (List.nodup_cons.mp hnd).1
    have hcmp : s.queue.cmp = scheme.compare := hw.cmp
    rw [map_update_of_notMem _ _ (fun h => hnotMem (List.mem_append_left _ h)),
      map_update_of_notMem _ _ (fun h => hnotMem (List.mem_append_right _ h))] at hplaced
    simpa [hcmp] using hplaced

theorem quantumExpired_refines {core time : Int} (hl : Linked scheme cores s) (hs : Sound cores s.jobs)
    (ha : (Call.quantumExpired core time).Admissible scheme cores s.jobs) :
    Refines scheme cores (.quantumExpired core time) s := by
  obtain ⟨-,h0,hc⟩ := ha
  rcases search_spec (fun p => (s.mem p).coreId = core) s.queue with ⟨he,hall⟩ | ⟨l,p,r,hq,-,hp,he⟩
  · exact quantumExpired_absent time hl h0 hc (jobs_forall (fun p hp => by simpa using hall p hp)) he
  · have hjobs := jobs_split hq
    have hpc : (s.mem p).coreId = core := by simpa using hp
    have hne : core ≠ -1 := by omega
    have hothers := (hjobs ▸ hs).split_ne (by rw [Running,hpc]; exact hne)
    rw [hpc] at hothers
    obtain ⟨l',r',hlr,hw1,hjobs1,hplaced⟩ := requeued_spec ((s.mem p).expired time) hl.toWired hq
    have hrest : l.map s.mem ++ r.map s.mem = l'.map s.mem ++ r'.map s.mem := by
      rw [← List.map_append,hlr,List.map_append]
    have hheld (c : Int) : Held (requeued s (l ++ r) p ((s.mem p).expired time)).jobs c ↔
        -1 = c ∨ Held (l.map s.mem ++ r.map s.mem) c := by
      rw [hjobs1,held_split,← hrest]
      exact Iff.rfl
    have hfree : ¬ Held (requeued s (l ++ r) p ((s.mem p).expired time)).jobs core := by
      rw [hheld]
      rintro (h | ⟨j,hj,hjc⟩)
      · exact hne h.symm
      · exact hothers j hj hjc
    have hflags : Flags s.coreList
        (fun c => Held (requeued s (l ++ r) p ((s.mem p).expired time)).jobs c ∨ c = core) := by
      refine hl.flags.congr (fun c hc0 => ?_)
      rw [hheld,hjobs,held_split,hpc]
      constructor
      · rintro (h | h)
        · exact .inr h.symm
        · exact .inl (.inr h)
      · rintro ((h | h) | h)
        · omega
        · exact .inr h
        · exact .inl h.symm
    obtain ⟨s',ret,hrun,hwake,hlink⟩ := wakeFirstWaiting_spec time (-1) hw1 h0 hc hflags hfree
    refine ⟨s',ret,?_,?_,hlink⟩
    · rw [Call.perform,schedulerQuantumExpired,bind_ok _ he]
      simp only
      rw [bind_ok _ (priqueueRemoveAt_append hq)]
      exact hrun
    · refine Step.expire hjobs hpc hrest hplaced ?_
      rw [← hjobs1]
      exact hwake

end OperatingSystemLabs.Scheduler

import OperatingSystemLabs.Scheduler.Protocol

namespace OperatingSystemLabs.Scheduler

open Insertion Keyed

structure ReadyQueue where
  fifo : List Int
  onCore : List (Option Int)
  deriving DecidableEq, Repr

namespace ReadyQueue

def start (cores : Nat) : ReadyQueue := ⟨[],List.replicate cores none⟩

def dispatch (m : ReadyQueue) (core : Nat) : ReadyQueue × Int :=
  match m.fifo with
  | [] => ({ m with onCore := m.onCore.set core none },-1)
  | id :: fifo => (⟨fifo,m.onCore.set core (some id)⟩,id)

def arrive (m : ReadyQueue) (id : Int) : ReadyQueue × Int :=
  match m.onCore.findIdx? Option.isNone with
  | some core => ({ m with onCore := m.onCore.set core (some id) },core)
  | none => ({ m with fifo := m.fifo ++ [id] },-1)

def expire (m : ReadyQueue) (core : Nat) : ReadyQueue × Int :=
  { m with fifo := m.fifo ++ (m.onCore[core]?.join).toList }.dispatch core

def perform (m : ReadyQueue) : Call → ReadyQueue × Int
  | .newJob id _ _ _ => m.arrive id
  | .jobFinished core _ _ => m.dispatch core.toNat
  | .quantumExpired core _ => m.expire core.toNat

def replay (cores : Nat) (calls : List Call) : ReadyQueue × List Int :=
  calls.foldl (fun p call => ((p.1.perform call).1,p.2 ++ [(p.1.perform call).2])) (start cores,[])

end ReadyQueue

def waitingIds (jobs : List JobT) : List Int := (jobs.filter (¬ Running ·)).map JobT.jobId

def Holds (jobs : List JobT) (id c : Int) : Prop := ∃ j ∈ jobs, j.jobId = id ∧ j.coreId = c

def Mirrors (onCore : List (Option Int)) (jobs : List JobT) (c : Nat) : Prop :=
  ∀ o, onCore[c]? = some o → ∀ id, o = some id ↔ Holds jobs id c

structure Pictures (cores : Nat) (jobs : List JobT) (m : ReadyQueue) : Prop where
  fifo : m.fifo = waitingIds jobs
  sized : m.onCore.length = cores
  holders : ∀ c, Mirrors m.onCore jobs c

variable {cores : Nat} {tr : Trace} {s : Lib} {call : Call} {ret : Int} {b b' : Board}
variable {jobs jobs' l r : List JobT} {j : JobT} {id c : Int} {m : ReadyQueue}

theorem rr_placed {x : JobT} (h : Placed rrCompare x l r) : r = [] := by
  cases r with
  | nil => rfl
  | cons y ys =>
    have hone : rrCompare x y = 1 := rfl
    cases l with
    | nil =>
      have := h y rfl
      omega
    | cons =>
      have := h.2.2 y rfl
      omega

theorem holds_split : Holds (l ++ j :: r) id c ↔ (j.jobId = id ∧ j.coreId = c) ∨ Holds (l ++ r) id c := by
  simp only [Holds,List.mem_append,List.mem_cons,or_and_right,exists_or,exists_eq_left]
  exact or_left_comm

theorem waitingIds_append : waitingIds (l ++ r) = waitingIds l ++ waitingIds r := by
  rw [waitingIds,List.filter_append,List.map_append]
  rfl

theorem waitingIds_running (h : ∀ k ∈ l, Running k) : waitingIds l = [] := by
  rw [waitingIds,List.filter_eq_nil_iff.mpr (fun k hk => by simpa using h k hk)]
  rfl

theorem waitingIds_cons_running (h : Running j) : waitingIds (j :: r) = waitingIds r := by
  rw [waitingIds,List.filter_cons_of_neg (by simpa using h)]
  rfl

theorem waitingIds_cons_waiting (h : j.coreId = -1) :
    waitingIds (j :: r) = j.jobId :: waitingIds r := by
  rw [waitingIds,List.filter_cons_of_pos (by simpa [Running] using h),List.map_cons]
  rfl

theorem Mirrors.congr {onCore : List (Option Int)} {n : Nat} (h : Mirrors onCore jobs n)
    (hj : ∀ id, Holds jobs id n ↔ Holds jobs' id n) : Mirrors onCore jobs' n :=
  fun o ho id => (h o ho id).trans (hj id)

theorem Mirrors.set {onCore : List (Option Int)} {core : Nat} {o : Option Int}
    (h : ∀ n, n ≠ core → Mirrors onCore jobs n) (ho : ∀ id, o = some id ↔ Holds jobs id core) (n : Nat) :
    Mirrors (onCore.set core o) jobs n := by
  intro x hx
  by_cases hn : core = n
  · subst hn
    rw [List.getElem?_set_self'] at hx
    obtain ⟨y,-,rfl⟩ := Option.map_eq_some_iff.mp hx
    exact ho
  · rw [List.getElem?_set_ne hn] at hx
    exact h n (Ne.symm hn) x hx

theorem wake_dispatch {core : Nat} {time pause : Int} (h : Wake core time pause b ret b')
    (hfifo : m.fifo = waitingIds b.jobs) (hsized : m.onCore.length = cores)
    (hfree : ∀ j ∈ b.jobs, j.coreId ≠ core) (hholds : ∀ n, n ≠ core → Mirrors m.onCore b.jobs n) :
    (m.dispatch core).2 = ret ∧ Pictures cores b'.jobs (m.dispatch core).1 := by
  have hnone (id : Int) : ¬ Holds b.jobs id core := by
    rintro ⟨j,hj,_,hc⟩
    exact hfree j hj hc
  cases h with
  | @woke a z w hb hrun hw =>
    have hq : m.fifo = w.jobId :: waitingIds z := by
      rw [hfifo,hb,waitingIds_append,waitingIds_running hrun,waitingIds_cons_waiting hw]
      rfl
    rw [ReadyQueue.dispatch,hq]
    refine ⟨rfl,?_,by simpa using hsized,?_⟩
    · have hwoken : Running (w.woken core time pause) := by
        simp only [Running,JobT.woken]
        omega
      rw [waitingIds_append,waitingIds_running hrun,waitingIds_cons_running hwoken]
      rfl
    · refine Mirrors.set (fun n hn => (hholds n hn).congr (fun id => ?_)) (fun id => ?_)
      · have hidle : ¬ (-1 : Int) = n := by omega
        have hother : ¬ (core : Int) = n := by omega
        rw [hb,holds_split,holds_split,hw]
        simp only [JobT.woken,hidle,hother,and_false]
      · have hrest : ¬ Holds (a ++ z) id core := by
          rintro ⟨j,hj,hjc⟩
          exact hnone id ⟨j,hb ▸ mem_split hj,hjc⟩
        rw [holds_split]
        simp [hrest,JobT.woken]
  | idled hrun =>
    have hq : m.fifo = [] := hfifo.trans (waitingIds_running hrun)
    rw [ReadyQueue.dispatch,hq]
    refine ⟨rfl,?_,by simpa using hsized,Mirrors.set hholds (fun id => ?_)⟩
    · rw [waitingIds_running hrun]
    · simp [hnone id]

theorem arrive_idle {core : Nat} (hp : Pictures cores b.jobs m) (hcore : core < cores)
    (hfree : ∀ j ∈ b.jobs, j.coreId ≠ core)
    (hlow : ∀ d : Int, 0 ≤ d → d < core → ∃ j ∈ b.jobs, j.coreId = d) :
    m.onCore.findIdx? Option.isNone = some core := by
  rw [List.findIdx?_eq_some_iff_getElem]
  have hget (n : Nat) (hn : n < m.onCore.length) : m.onCore[n]? = some m.onCore[n] :=
    List.getElem?_eq_getElem hn
  have hlen : core < m.onCore.length := hp.sized.symm ▸ hcore
  refine ⟨hlen,?_,fun n hn => ?_⟩
  · cases ho : m.onCore[core] with
    | none => rfl
    | some id =>
      obtain ⟨j,hj,-,hc⟩ := (hp.holders core _ (hget core hlen) id).mp ho
      exact absurd hc (hfree j hj)
  · obtain ⟨j,hj,hc⟩ := hlow n (by omega) (by omega)
    have ho := (hp.holders n _ (hget n (by omega)) j.jobId).mpr ⟨j,hj,rfl,hc⟩
    simp [ho]

theorem arrive_full (hp : Pictures cores b.jobs m) (hfull : Full cores b.jobs) :
    m.onCore.findIdx? Option.isNone = none := by
  rw [List.findIdx?_eq_none_iff]
  intro o ho
  obtain ⟨n,hn,rfl⟩ := List.mem_iff_getElem.mp ho
  have hlen : n < cores := hp.sized ▸ hn
  obtain ⟨j,hj,hc⟩ := hfull n (by omega) (by omega)
  have ho := (hp.holders n _ (List.getElem?_eq_getElem hn) j.jobId).mpr ⟨j,hj,rfl,hc⟩
  simp [ho]

theorem expired_fifo {core : Nat} {e : JobT} (hp : Pictures cores (l ++ e :: r) m)
    (he : e.coreId = core) (hcore : core < cores) : m.onCore[core]?.join = some e.jobId := by
  have hlen : core < m.onCore.length := hp.sized.symm ▸ hcore
  have hget : m.onCore[core]? = some m.onCore[core] := List.getElem?_eq_getElem hlen
  have ho := (hp.holders core _ hget e.jobId).mpr ⟨e,by simp,rfl,he⟩
  rw [hget,ho]
  rfl

theorem step_pictures (h : Step .rr cores call b ret b') (hs : Sound cores b.jobs)
    (ha : call.Admissible .rr cores b.jobs) (hp : Pictures cores b.jobs m) :
    (m.perform call).2 = ret ∧ Pictures cores b'.jobs (m.perform call).1 := by
  cases h with
  | @startIdle b id t run pri c l r hb hplaced h0 hcore hidle hlow =>
    obtain ⟨n,rfl⟩ := Int.eq_ofNat_of_zero_le h0
    have hn : n < cores := by omega
    obtain rfl := rr_placed hplaced
    have hrun := hs.running_of_idle h0 hcore hidle
    rw [ReadyQueue.perform,ReadyQueue.arrive,arrive_idle hp hn hidle hlow]
    refine ⟨rfl,?_,by simpa using hp.sized,Mirrors.set (fun k hk => ?_) (fun i => ?_)⟩
    · have hstarted : Running ((JobT.new id t run pri).started n t) := by
        simp only [Running,JobT.started]
        omega
      rw [hb,List.append_nil] at hrun
      simp only
      rw [hp.fifo,hb,waitingIds_append,waitingIds_append,waitingIds_cons_running hstarted]
    · refine (hp.holders k).congr (fun i => ?_)
      have hother : ¬ (n : Int) = k := by omega
      rw [hb,holds_split]
      simp only [JobT.started,hother,and_false,false_or]
    · have hrest : ¬ Holds (l ++ []) i n := by
        rintro ⟨j,hj,_,hc⟩
        exact hidle j (hb ▸ hj) hc
      rw [holds_split]
      simp only [hrest,JobT.started,JobT.new,and_true,or_false,Option.some.injEq]
  | preempt hnp => exact absurd hnp (by decide)
  | queueBehind hnp => exact absurd hnp (by decide)
  | @queueUp b id t run pri l r _ hb hplaced hfull =>
    obtain rfl := rr_placed hplaced
    rw [ReadyQueue.perform,ReadyQueue.arrive,arrive_full hp hfull]
    refine ⟨rfl,?_,hp.sized,fun n => (hp.holders n).congr (fun i => ?_)⟩
    · simp only
      rw [hp.fifo,hb,List.append_nil,waitingIds_append]
      rfl
    · have hidle : ¬ (-1 : Int) = n := by omega
      rw [hb,holds_split]
      simp only [JobT.new,hidle,and_false,false_or]
  | @finish b b' c id t ret l r f hb hfid hfc hw =>
    have hrun : Running f := by
      rw [Running,hfc]
      exact ha.1
    have hf : f ∈ b.jobs := by simp [hb]
    obtain ⟨n,hn⟩ := Int.eq_ofNat_of_zero_le (hs.valid_of_running hf hrun).1
    have hcn : c = n := hfc.symm.trans hn
    subst hcn
    have hothers := (hb ▸ hs).split_ne hrun
    rw [hn] at hothers
    rw [ReadyQueue.perform,Int.toNat_natCast]
    refine wake_dispatch hw ?_ hp.sized hothers (fun k hk => (hp.holders k).congr (fun i => ?_))
    · rw [hp.fifo,hb,waitingIds_append,waitingIds_cons_running hrun,waitingIds_append]
    · have hother : ¬ f.coreId = k := by omega
      rw [hb,holds_split]
      simp only [hother,and_false,false_or]
  | @expire b b' c t ret l r l' r' e hb hec hlr hplaced hw =>
    obtain ⟨n,rfl⟩ := Int.eq_ofNat_of_zero_le ha.2.1
    have hn : n < cores := by
      have := ha.2.2
      omega
    obtain rfl := rr_placed hplaced
    have hrun : Running e := by
      rw [Running,hec]
      omega
    have hothers := (hb ▸ hs).split_ne hrun
    rw [hec] at hothers
    rw [ReadyQueue.perform,ReadyQueue.expire,Int.toNat_natCast,expired_fifo (hb ▸ hp) hec hn]
    rw [List.append_nil] at hlr
    have hidle (k : Nat) : ¬ (-1 : Int) = k := by omega
    refine wake_dispatch hw ?_ hp.sized ?_ (fun k hk => (hp.holders k).congr (fun i => ?_))
    · simp only
      rw [hp.fifo,hb,waitingIds_append,waitingIds_cons_running hrun,← waitingIds_append,hlr,
        waitingIds_append]
      rfl
    · exact forall_mem_snoc (fun j hj => hothers j (hlr ▸ hj)) (hidle n)
    · have hother : ¬ e.coreId = k := by omega
      rw [hb,holds_split,hlr,holds_split,List.append_nil]
      simp only [JobT.expired,hother,hidle k,and_false,false_or]
  | @expireIdle b c t hnone =>
    obtain ⟨n,rfl⟩ := Int.eq_ofNat_of_zero_le ha.2.1
    have hrun := hs.running_of_idle ha.2.1 ha.2.2 hnone
    have hfifo : m.fifo = [] := hp.fifo.trans (waitingIds_running hrun)
    have hnobody (i : Int) : ¬ Holds b.jobs i n := by
      rintro ⟨j,hj,_,hc⟩
      exact hnone j hj hc
    have hjoin : m.onCore[n]?.join = none := by
      cases ho : m.onCore[n]? with
      | none => rfl
      | some o =>
        cases o with
        | none => rfl
        | some i => exact absurd ((hp.holders n _ ho i).mp rfl) (hnobody i)
    rw [ReadyQueue.perform,ReadyQueue.expire,Int.toNat_natCast,hjoin,hfifo,ReadyQueue.dispatch]
    refine ⟨rfl,(waitingIds_running hrun).symm,by simpa using hp.sized,?_⟩
    exact Mirrors.set (fun k _ => hp.holders k) (fun i => by simp [hnobody i])

theorem run_pictures (h : Run .rr cores Unguarded tr s) :
    (ReadyQueue.replay cores (tr.map Prod.fst)).2 = tr.map Prod.snd ∧
      Pictures cores s.jobs (ReadyQueue.replay cores (tr.map Prod.fst)).1 := by
  refine h.invariant (P := fun tr jobs =>
    (ReadyQueue.replay cores (tr.map Prod.fst)).2 = tr.map Prod.snd ∧
      Pictures cores jobs (ReadyQueue.replay cores (tr.map Prod.fst)).1) ⟨rfl,?_⟩ ?_
  · refine ⟨rfl,List.length_replicate,fun c o ho id => ?_⟩
    have hnone : o = none := List.eq_of_mem_replicate (List.mem_of_getElem? ho)
    simp [hnone,Holds]
  · intro tr s s' call ret hg hl _ _ ⟨hans,hp⟩ hstep
    obtain ⟨hret,hp'⟩ := step_pictures hstep hg.sound (hg.admissible hl) hp
    rw [ReadyQueue.replay] at hans hret hp'
    rw [ReadyQueue.replay,List.map_append,List.foldl_append,List.map_append]
    exact ⟨by simp [hans,hret],hp'⟩

theorem run_refines_fifo (h : Run .rr cores Unguarded tr s) :
    (ReadyQueue.replay cores (tr.map Prod.fst)).2 = tr.map Prod.snd ∧
    waitingIds s.jobs = (ReadyQueue.replay cores (tr.map Prod.fst)).1.fifo ∧
    ∀ call, Legal .rr cores tr s.jobs call → ∃ s', call.perform s =
      .ok (s',((ReadyQueue.replay cores (tr.map Prod.fst)).1.perform call).2) := by
  obtain ⟨hans,hp⟩ := run_pictures h
  refine ⟨hans,hp.fifo.symm,fun call hl => ?_⟩
  obtain ⟨s',ret,hrun,hstep,-⟩ := h.governed.step hl
  obtain ⟨hret,-⟩ := step_pictures hstep h.governed.sound (h.governed.admissible hl) hp
  exact ⟨s',hret ▸ hrun⟩

theorem run_refines_fifo_expiring :
    ∃ s : Lib, s.jobs.map (fun j => (j.jobId,j.coreId)) = [(6,0),(5,-1)] ∧
      waitingIds s.jobs = (ReadyQueue.replay 1
        [.newJob 5 0 4 0,.newJob 6 1 2 0,.quantumExpired 0 2]).1.fifo := by
  have h1 : Run .rr 1 Unguarded [(.newJob 5 0 4 0,0)] _ :=
    .call .start (show Legal .rr 1 [] _ (.newJob 5 0 4 0) from ⟨by decide,by simp [Arrived]⟩)
      (List.forall_mem_nil _) trivial rfl
  have h2 : Run .rr 1 Unguarded ([(.newJob 5 0 4 0,0)] ++ [(.newJob 6 1 2 0,-1)]) _ :=
    .call h1 ⟨by decide,by simp [Arrived]⟩ (by simp [Call.time]) trivial rfl
  have h3 : Run .rr 1 Unguarded (([(.newJob 5 0 4 0,0)] ++ [(.newJob 6 1 2 0,-1)]) ++
      [(.quantumExpired 0 2,6)]) _ :=
    .call h2 ⟨rfl,by decide⟩ (by simp [Call.time]) trivial rfl
  exact ⟨_,rfl,(run_refines_fifo h3).2.1⟩

end OperatingSystemLabs.Scheduler

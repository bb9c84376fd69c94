import OperatingSystemLabs.Scheduler.Refinement

namespace OperatingSystemLabs.Scheduler

open Insertion Keyed

variable {scheme : SchemeT} {cores : Nat} {s : Lib} {id time run pri : Int}

-- scheduler_new_job once the record is allocated; `s.fresh` still points to it.
def admitted (s : Lib) (id time run pri : Int) : Lib :=
  { s with mem := Function.update s.mem s.fresh (JobT.new id time run pri),
           fresh := s.fresh + 1, numJobs := s.numJobs + 1 }

theorem Wired.fresh_notMem (hw : Wired scheme cores s) : s.fresh ∉ s.queue.head :=
  fun h => Nat.lt_irrefl _ (hw.fresh _ h)

theorem Wired.fresh_nodup (hw : Wired scheme cores s) {l r : List Ptr} (hq : s.queue.head = l ++ r) :
    (l ++ s.fresh :: r).Nodup :=
  List.perm_middle.nodup_iff.mpr (List.nodup_cons.mpr ⟨hq ▸ hw.fresh_notMem,hq ▸ hw.nodup⟩)

theorem admitted_mem (s : Lib) (id time run pri : Int) :
    (admitted s id time run pri).mem s.fresh = JobT.new id time run pri := Function.update_self ..

theorem admitted_map {ps : List Ptr} (h : s.fresh ∉ ps) :
    ps.map (admitted s id time run pri).mem = ps.map s.mem := map_update_of_notMem _ _ h

theorem Wired.admitted_placed (hw : Wired scheme cores s) {l r : List Ptr}
    (hq : s.queue.head = l ++ r)
    (hp : Placed s.queue.cmp ((admitted s id time run pri).mem s.fresh)
      (l.map (admitted s id time run pri).mem) (r.map (admitted s id time run pri).mem)) :
    Placed scheme.compare (JobT.new id time run pri) (l.map s.mem) (r.map s.mem) := by
  have hnew : s.fresh ∉ l ++ r := hq ▸ hw.fresh_notMem
  rw [hw.cmp,admitted_mem,admitted_map (fun h => hnew (List.mem_append_left _ h)),
    admitted_map (fun h => hnew (List.mem_append_right _ h))] at hp
  exact hp

theorem Wired.queued {l r : List Ptr} (hw : Wired scheme cores s) (hq : s.queue.head = l ++ r)
    (s' : Lib) (hscheme : s'.currentScheme = s.currentScheme)
    (hqueue : s'.queue = { s.queue with head := l ++ s.fresh :: r })
    (hcores : s'.coreList.length = s.coreList.length) (hfresh : s'.fresh = s.fresh + 1) :
    Wired scheme cores s' := by
  refine ⟨hscheme.trans hw.current,?_,hcores.trans hw.cores,?_,?_⟩
  · rw [hqueue]
    exact hw.cmp
  · rw [hqueue]
    exact hw.fresh_nodup hq
  · rw [hqueue,hfresh]
    intro p hp
    rcases mem_middle.mp hp with rfl | hp
    · exact Nat.lt_succ_self _
    · exact Nat.lt_succ_of_lt (hw.fresh p (hq ▸ hp))

theorem held_charged {front : List JobT} {c : Int} :
    Held (front.map (·.charged time)) c ↔ Held front c := by
  simp [Held,JobT.charged]

theorem jobs_around_fresh {s' : Lib} {l r : List Ptr} (hhead : s'.queue.head = l ++ s.fresh :: r)
    (hnew : s.fresh ∉ l ++ r) (hold : ∀ p, p ≠ s.fresh → s'.mem p = s.mem p) :
    s'.jobs = l.map s.mem ++ s'.mem s.fresh :: r.map s.mem := by
  have hsame {ps : List Ptr} (h : s.fresh ∉ ps) : ps.map s'.mem = ps.map s.mem :=
    List.map_congr_left fun p hp => hold p fun he => h (he ▸ hp)
  rw [Lib.jobs,hhead,List.map_append,List.map_cons,hsame (fun h => hnew (List.mem_append_left _ h)),
    hsame (fun h => hnew (List.mem_append_right _ h))]

theorem admitted_other {p : Ptr} (h : p ≠ s.fresh) : (admitted s id time run pri).mem p = s.mem p :=
  Function.update_of_ne h _ _

theorem newJob_idle (hl : Linked scheme cores s)
    (hidle : ∃ l core r, s.coreList = l ++ core :: r ∧ (∀ k ∈ l, k.active ≠ -1) ∧ core.active = -1 ∧
      idleCore 0 s.coreList = 0 + l.length) :
    Refines scheme cores (.newJob id time run pri) s := by
  obtain ⟨cl,core,cr,hcl,hbefore,hcore,hindex⟩ := hidle
  rw [Int.zero_add] at hindex
  have hlen : (cl.length : Int) < s.coreList.length := by
    rw [hcl,List.length_append,List.length_cons]
    omega
  let s1 := admitted s id time run pri
  obtain ⟨l,r,hq,hoffer,hplaced⟩ := priqueueOffer_placed s1.mem s.queue s.fresh
  have hnew : s.fresh ∉ l ++ r := hq ▸ hl.fresh_notMem
  let s' : Lib := { s1 with
    queue := (priqueueOffer s1.mem s.queue s.fresh).1
    mem := Function.update s1.mem s.fresh ((s1.mem s.fresh).started cl.length time)
    coreList := s.coreList.set cl.length ⟨1⟩ }
  have hjobs := jobs_append hq
  have hjobs' : s'.jobs =
      l.map s.mem ++ (JobT.new id time run pri).started cl.length time :: r.map s.mem := by
    have hhead : s'.queue.head = l ++ s.fresh :: r := by simp only [s',hoffer]
    have hold (p : Ptr) (hp : p ≠ s.fresh) : s'.mem p = s.mem p :=
      (Function.update_of_ne hp _ _).trans (admitted_other hp)
    rw [jobs_around_fresh hhead hnew hold]
    simp only [s',s1,Function.update_self,admitted_mem]
  have hget : s.coreList[cl.length]? = some core := by simp [hcl]
  have hfree : ∀ j ∈ s.jobs, j.coreId ≠ cl.length :=
    fun j hj hjc => (hl.flags cl.length core hget).mpr ⟨j,hj,hjc⟩ hcore
  have hlow : ∀ d : Int, 0 ≤ d → d < cl.length → ∃ j ∈ s.jobs, j.coreId = d := by
    intro d h0 hd
    obtain ⟨n,rfl⟩ := Int.eq_ofNat_of_zero_le h0
    have hn : n < cl.length := by omega
    have hgetn : s.coreList[n]? = some cl[n] := by
      rw [hcl,List.getElem?_append_left hn,List.getElem?_eq_getElem hn]
    exact (hl.flags n cl[n] hgetn).mp (hbefore _ (List.getElem_mem hn))
  refine ⟨s',cl.length,?_,?_,⟨?_,?_⟩⟩
  · have hwrite := writeAt_ok (⟨1⟩ : CoreT) (Int.natCast_nonneg cl.length) hlen
    rw [Call.perform,schedulerNewJob]
    simp only [hindex]
    rw [if_pos (by omega),bind_ok _ hwrite,Int.toNat_natCast]
    rfl
  · rw [board_eq hjobs']
    exact .startIdle hjobs (hl.admitted_placed hq hplaced) (by omega) (by rw [← hl.cores]; exact hlen)
      hfree hlow
  · exact hl.queued hq s' rfl hoffer (by simp [s']) rfl
  · refine hl.flags.set (Int.natCast_nonneg cl.length) ?_ (fun c hc => ?_)
    · simp [hjobs',held_split,JobT.started]
    · rw [hjobs,hjobs',held_split]
      simp only [JobT.started]
      exact ⟨.inr,fun h => h.resolve_left (fun h => hc h.symm)⟩

theorem newJob_queue (hl : Linked scheme cores s) (hbusy : idleCore 0 s.coreList = -1)
    (hall : ∀ core ∈ s.coreList, core.active ≠ -1) (hp : scheme.preemptive = false) :
    Refines scheme cores (.newJob id time run pri) s := by
  let s1 := admitted s id time run pri
  obtain ⟨l,r,hq,hoffer,hplaced⟩ := priqueueOffer_placed s1.mem s.queue s.fresh
  have hnew : s.fresh ∉ l ++ r := hq ▸ hl.fresh_notMem
  have hfull : Full cores s.jobs := hl.cores ▸ hl.flags.full hall
  let s' : Lib := { s1 with queue := (priqueueOffer s1.mem s.queue s.fresh).1 }
  have hjobs := jobs_append hq
  have hjobs' : s'.jobs = l.map s.mem ++ JobT.new id time run pri :: r.map s.mem := by
    have hhead : s'.queue.head = l ++ s.fresh :: r := by simp only [s',hoffer]
    rw [jobs_around_fresh hhead hnew (fun p hp => admitted_other hp),admitted_mem]
  refine ⟨s',-1,?_,?_,hl.queued hq s' rfl hoffer rfl rfl,hl.flags.congr (fun c hc => ?_)⟩
  · have hscheme : s.currentScheme.preemptive = false := hl.current ▸ hp
    rw [Call.perform,schedulerNewJob]
    simp only [hbusy,hscheme]
    rfl
  · rw [board_eq hjobs']
    exact .queueUp hp hjobs (hl.admitted_placed hq hplaced) hfull
  · rw [hjobs,hjobs',held_split]
    simp only [JobT.new]
    exact ⟨.inr,fun h => h.resolve_left (by omega)⟩

-- What the first loop of the preemptive branch leaves in memory, `front` being its `cores` entries.
structure Charged (cores : Nat) (s : Lib) (id time run pri : Int) (front wait : List Ptr)
    (mem : Ptr → JobT) : Prop where
  queue : s.queue.head = front ++ wait
  length : front.length = cores
  running : ∀ p ∈ front, Running (s.mem p)
  waiting : ∀ p ∈ wait, (s.mem p).coreId = -1
  loop : chargeRunning s.queue time s.coreList.length 0 (admitted s id time run pri).mem none =
    .ok (mem,front.getLast?)
  front : front.map mem = (front.map s.mem).map (·.charged time)
  wait : ∀ p ∈ wait, mem p = s.mem p
  fresh : mem s.fresh = JobT.new id time run pri

theorem running_front (hs : Sound cores s.jobs) (hlead : Leading s.jobs)
    (hfull : Full cores s.jobs) :
    ∃ front wait, s.queue.head = front ++ wait ∧ front.length = cores ∧ (∀ p ∈ front, Running (s.mem p)) ∧
      ∀ p ∈ wait, (s.mem p).coreId = -1 := by
  obtain ⟨fj,wj,hj,hrun,hwait⟩ := leading_split hlead
  obtain ⟨front,wait,hq,rfl,rfl⟩ := List.map_eq_append_iff.mp hj
  have hlen : front.length = cores := by simpa using front_length hs hfull hj hrun hwait
  exact ⟨front,wait,hq,hlen,List.forall_mem_map.mp hrun,List.forall_mem_map.mp hwait⟩

theorem charge_front (hl : Linked scheme cores s) {front wait : List Ptr} (hq : s.queue.head = front ++ wait)
    (hlen : front.length = cores) (mem₀ : Ptr → JobT) (time : Int) :
    ∃ mem, chargeRunning s.queue time s.coreList.length 0 mem₀ none = .ok (mem,front.getLast?) ∧
      (∀ p ∈ front, mem p = (mem₀ p).charged time) ∧ ∀ p ∉ front, mem p = mem₀ p := by
  have hnd := (List.nodup_append.mp (hq ▸ hl.nodup)).1
  have hq' : s.queue.head = [] ++ (front ++ wait) := hq
  obtain ⟨mem,he,hin,hout⟩ := chargeRunning_append time mem₀ none hq' hnd
  refine ⟨mem,?_,hin,hout⟩
  rw [hl.cores,← hlen]
  simpa using he

theorem newJob_charge (id time run pri : Int) (hl : Linked scheme cores s)
    (hs : Sound cores s.jobs) (hlead : Leading s.jobs) (hfull : Full cores s.jobs) :
    ∃ front wait mem, Charged cores s id time run pri front wait mem := by
  obtain ⟨front,wait,hq,hlen,hrun,hwait⟩ := running_front hs hlead hfull
  obtain ⟨mem,hloop,hin,hout⟩ := charge_front hl hq hlen (admitted s id time run pri).mem time
  have hdisjoint := (List.nodup_append.mp (hq ▸ hl.nodup)).2.2
  have hnew : s.fresh ∉ front ++ wait := hq ▸ hl.fresh_notMem
  have hold : ∀ p ∈ front ++ wait, (admitted s id time run pri).mem p = s.mem p :=
    fun p hp => admitted_other fun h => hnew (h ▸ hp)
  refine ⟨front,wait,mem,hq,hlen,hrun,hwait,hloop,?_,?_,?_⟩
  · rw [List.map_map]
    refine List.map_congr_left (fun p hp => ?_)
    rw [hin p hp,hold p (List.mem_append_left _ hp)]
    rfl
  · intro p hp
    rw [hout p (fun h => hdisjoint p h p hp rfl),hold p (List.mem_append_right _ hp)]
  · rw [hout _ (fun h => hnew (List.mem_append_left _ h)),admitted_mem]

theorem newJob_preemptive (hbusy : idleCore 0 s.coreList = -1) (hp : s.currentScheme.preemptive = true)
    {mem mem' : Ptr → JobT} {temp : Option Ptr} {ret : Int}
    (hcharge : chargeRunning s.queue time s.coreList.length 0 (admitted s id time run pri).mem none =
      .ok (mem,temp))
    (hloop : preemptLoop (priqueueOffer mem s.queue s.fresh).1 s.fresh temp time s.coreList.length 0
      mem (-1) = .ok (mem',ret)) :
    schedulerNewJob s id time run pri = .ok ({ admitted s id time run pri with
      queue := (priqueueOffer mem s.queue s.fresh).1, mem := mem' },ret) := by
  rw [schedulerNewJob]
  simp only [hbusy,hp]
  rw [if_neg (by simp),if_pos trivial]
  simp only [admitted] at hcharge
  rw [bind_ok _ hcharge]
  simp only
  rw [bind_ok _ hloop]
  rfl

theorem newJob_behind (hl : Linked scheme cores s) (hbusy : idleCore 0 s.coreList = -1)
    (hp : scheme.preemptive = true) (hfull : Full cores s.jobs) {front l r : List Ptr}
    {mem : Ptr → JobT} (hcharged : Charged cores s id time run pri front (l ++ r) mem)
    (hoffer : (priqueueOffer mem s.queue s.fresh).1 =
      { s.queue with head := (front ++ l) ++ s.fresh :: r })
    (hplaced : Placed s.queue.cmp (mem s.fresh) ((front ++ l).map mem) (r.map mem)) :
    Refines scheme cores (.newJob id time run pri) s := by
  obtain ⟨hq,hlen,hrun,hwait,hcharge,hfront,hmem,hnew⟩ := hcharged
  have hfresh : s.fresh ∉ front := fun h => hl.fresh_notMem (hq ▸ List.mem_append_left _ h)
  have hml : l.map mem = l.map s.mem :=
    List.map_congr_left (fun p hp => hmem p (List.mem_append_left _ hp))
  have hmr : r.map mem = r.map s.mem :=
    List.map_congr_left (fun p hp => hmem p (List.mem_append_right _ hp))
  have hhead : (priqueueOffer mem s.queue s.fresh).1.head = [] ++ (front ++ (l ++ s.fresh :: r)) := by
    rw [hoffer,List.append_assoc]
    rfl
  have hloop := preemptLoop_skip front.getLast? time mem (-1) hhead hfresh
  rw [hlen,← hl.cores] at hloop
  have hrunning : ∀ j ∈ front.map s.mem, Running j := by simpa using hrun
  have hwaiting : ∀ j ∈ l.map s.mem ++ r.map s.mem, j.coreId = -1 := by
    rw [← List.map_append]
    exact List.forall_mem_map.mpr hwait
  have hjobs : s.jobs = front.map s.mem ++ (l.map s.mem ++ r.map s.mem) := by
    rw [Lib.jobs,hq,List.map_append,List.map_append]
  let s' : Lib := { admitted s id time run pri with
    queue := (priqueueOffer mem s.queue s.fresh).1, mem := mem }
  have hjobs' : s'.jobs = (front.map s.mem).map (·.charged time) ++
      (l.map s.mem ++ JobT.new id time run pri :: r.map s.mem) := by
    rw [Lib.jobs,hhead,List.nil_append,List.map_append,List.map_append,List.map_cons,← hnew,
      ← hfront,← hml,← hmr]
  refine ⟨s',-1,newJob_preemptive hbusy (hl.current ▸ hp) hcharge hloop,?_,?_,?_⟩
  · rw [board_eq hjobs']
    refine .queueBehind hp hjobs (by simpa using hlen) ?_ hfull hrunning hwaiting
    rw [hl.cmp,hnew,List.map_append,hfront,hml,hmr] at hplaced
    exact hplaced
  · exact hl.queued (l := front ++ l) (by rw [hq,List.append_assoc]) s' rfl hoffer rfl rfl
  · refine hl.flags.congr (fun c hc => ?_)
    have hidle : ¬ (JobT.new id time run pri).coreId = c := by
      simp only [JobT.new]
      omega
    simp only [hjobs,hjobs',held_append,held_cons,held_charged,or_iff_right hidle]

theorem newJob_swap (hl : Linked scheme cores s) (hbusy : idleCore 0 s.coreList = -1)
    (hp : scheme.preemptive = true) (hfull : Full cores s.jobs) {l r wait : List Ptr} {v : Ptr}
    {mem : Ptr → JobT} (hcharged : Charged cores s id time run pri ((l ++ r) ++ [v]) wait mem)
    (hoffer : (priqueueOffer mem s.queue s.fresh).1 =
      { s.queue with head := l ++ s.fresh :: (r ++ v :: wait) })
    (hplaced : Placed s.queue.cmp (mem s.fresh) (l.map mem) ((r ++ v :: wait).map mem)) :
    Refines scheme cores (.newJob id time run pri) s := by
  obtain ⟨hq,hlen,hrun,hwait,hcharge,hfront,hmem,hnew⟩ := hcharged
  have hq' : s.queue.head = l ++ (r ++ v :: wait) := by simp [hq]
  have hnd := hl.fresh_nodup hq'
  have hfresh : s.fresh ∉ l ++ (r ++ v :: wait) := hq' ▸ hl.fresh_notMem
  have hmw : wait.map mem = wait.map s.mem := List.map_congr_left hmem
  have hlr : l.map mem ++ r.map mem = ((l ++ r).map s.mem).map (·.charged time) ∧
      mem v = (s.mem v).charged time := by
    simp only [List.map_append,List.map_cons,List.map_nil] at hfront ⊢
    have hsplit := List.append_inj' hfront rfl
    exact ⟨hsplit.1,List.singleton_inj.mp hsplit.2⟩
  have hvcore : (mem v).coreId = (s.mem v).coreId := by rw [hlr.2]; rfl
  have hassoc : [] ++ ((l ++ s.fresh :: r) ++ v :: wait) = l ++ s.fresh :: (r ++ v :: wait) := by simp
  have hhead : (priqueueOffer mem s.queue s.fresh).1.head =
      [] ++ ((l ++ s.fresh :: r) ++ v :: wait) := by
    rw [hoffer,hassoc]
  have hloop := preemptLoop_hit v time mem (-1) hhead
    (fun h => hfresh (by simp [h])) (fun h => hfresh (by simp [h]))
  have hlen' : (l ++ s.fresh :: r).length = s.coreList.length := by
    rw [hl.cores,← hlen]
    simp only [List.length_append,List.length_cons,List.length_nil]
    omega
  rw [hlen',hvcore] at hloop
  rw [List.getLast?_concat] at hcharge
  let s' : Lib := { admitted s id time run pri with
    queue := (priqueueOffer mem s.queue s.fresh).1, mem := swapIn mem s.fresh v time }
  have hjobs : s.jobs = (l ++ r).map s.mem ++ s.mem v :: wait.map s.mem := by
    rw [Lib.jobs,hq]
    simp
  have hjobs' : s'.jobs = l.map mem ++ (JobT.new id time run pri).preempting (s.mem v).coreId time ::
      (r.map mem ++ ((s.mem v).charged time).preempted time :: wait.map s.mem) := by
    rw [Lib.jobs,hhead,hassoc,swapIn_map mem time hnd,hnew,hvcore,hlr.2,hmw]
  have hrunning : ∀ j ∈ (l ++ r).map s.mem, Running j :=
    List.forall_mem_map.mpr (fun p hp => hrun p (List.mem_append_left _ hp))
  have hwaiting : ∀ j ∈ wait.map s.mem, j.coreId = -1 := List.forall_mem_map.mpr hwait
  refine ⟨s',(s.mem v).coreId,newJob_preemptive hbusy (hl.current ▸ hp) hcharge hloop,?_,?_,?_⟩
  · rw [board_eq hjobs']
    refine .preempt hp hjobs (by simpa [Nat.add_assoc] using hlen) hlr.1.symm ?_ hfull hrunning
      (hrun v (by simp)) hwaiting
    rw [hl.cmp,hnew,List.map_append,List.map_cons,hlr.2,hmw] at hplaced
    exact hplaced
  · exact hl.queued hq' s' rfl hoffer rfl rfl
  · refine hl.flags.congr (fun c hc => ?_)
    have hcharged : Held (l.map mem ++ r.map mem) c ↔ Held ((l ++ r).map s.mem) c := by
      rw [hlr.1,held_charged]
    have hidle : ¬ (((s.mem v).charged time).preempted time).coreId = c := by
      simp only [JobT.preempted]
      omega
    have hcore : ((JobT.new id time run pri).preempting (s.mem v).coreId time).coreId =
      (s.mem v).coreId := rfl
    rw [hjobs,hjobs',held_split,held_split,hcore,held_append,← hcharged,held_append,held_append,
      held_append,held_cons,or_iff_right hidle,or_assoc]

theorem newJob_busy (hl : Linked scheme cores s) (hs : Sound cores s.jobs) (hlead : Leading s.jobs)
    (hbusy : idleCore 0 s.coreList = -1) (hall : ∀ core ∈ s.coreList, core.active ≠ -1)
    (hp : scheme.preemptive = true) :
    Refines scheme cores (.newJob id time run pri) s := by
  have hfull : Full cores s.jobs := hl.cores ▸ hl.flags.full hall
  obtain ⟨front,wait,mem,hcharged⟩ := newJob_charge id time run pri hl hs hlead hfull
  obtain ⟨ol,or,hqo,hoffer,hplaced⟩ := priqueueOffer_placed mem s.queue s.fresh
  rcases List.append_eq_append_iff.mp (hcharged.queue.symm.trans hqo) with ⟨l,rfl,rfl⟩ | ⟨c,rfl,rfl⟩
  · exact newJob_behind hl hbusy hp hfull hcharged hoffer hplaced
  · rcases List.eq_nil_or_concat' c with rfl | ⟨r,v,rfl⟩
    · rw [List.append_nil] at *
      rw [← List.append_nil ol] at hoffer hplaced
      exact newJob_behind (l := []) hl hbusy hp hfull hcharged hoffer hplaced
    · rw [← List.append_assoc ol] at hcharged
      rw [List.append_assoc r] at hoffer hplaced
      exact newJob_swap hl hbusy hp hfull hcharged hoffer hplaced

theorem newJob_refines (hl : Linked scheme cores s) (hs : Sound cores s.jobs)
    (hlead : scheme.preemptive = true → Leading s.jobs) :
    Refines scheme cores (.newJob id time run pri) s := by
  rcases idleCore_spec 0 s.coreList with ⟨hbusy,hall⟩ | hidle
  · cases hp : scheme.preemptive with
    | false => exact newJob_queue hl hbusy hall hp
    | true => exact newJob_busy hl hs (hlead hp) hbusy hall hp
  · exact newJob_idle hl hidle

theorem perform_refines {call : Call} (hl : Linked scheme cores s) (hs : Sound cores s.jobs)
    (hlead : scheme.preemptive = true → Leading s.jobs)
    (ha : call.Admissible scheme cores s.jobs) :
    Refines scheme cores call s := by
  cases call with
  | newJob => exact newJob_refines hl hs hlead
  | jobFinished => exact jobFinished_refines hl hs ha
  | quantumExpired => exact quantumExpired_refines hl hs ha

end OperatingSystemLabs.Scheduler

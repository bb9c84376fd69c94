import OperatingSystemLabs.Scheduler.ShortestRemaining

namespace OperatingSystemLabs.Scheduler

open Insertion Keyed

def line (jobs : List JobT) : List (Int × Int) := jobs.map (fun j => (j.jobId,j.coreId))

def freeCore (cores : Nat) (xs : List (Int × Int)) : Int :=
  match (List.range cores).find? (fun c : Nat => (c : Int) ∉ xs.map Prod.snd) with
  | some c => c
  | none => -1

def lineArrival (cores : Nat) (id : Int) (xs : List (Int × Int)) : List (Int × Int) × Int :=
  (xs ++ [(id,freeCore cores xs)],freeCore cores xs)

def wakeLine (core : Int) : List (Int × Int) → List (Int × Int) × Int
  | [] => ([],-1)
  | (id,c) :: xs =>
      if c = -1 then ((id,core) :: xs,id) else ((id,c) :: (wakeLine core xs).1,(wakeLine core xs).2)

def lineCompletion (core id : Int) (xs : List (Int × Int)) : List (Int × Int) × Int :=
  wakeLine core (xs.filter (·.1 ≠ id))

def Latest (scheme : SchemeT) (jobs : List JobT) (id t run pri : Int) : Prop :=
  ∀ j ∈ jobs, 0 < scheme.compare (JobT.new id t run pri) j ∧
    (Running j → 0 < scheme.compare (JobT.new id t run pri) (j.charged t))

def Older (jobs : List JobT) (t : Int) : Prop :=
  ∀ j ∈ jobs, j.arrivalTime < t ∧ Fits (t - j.arrivalTime)

structure Drained (t : Int) (j : JobT) : Prop where
  nonneg : 0 ≤ remaining t j
  stale : remaining t j ≤ j.timeRemaining
  owed : j.timeRemaining ≤ j.runTime

variable {scheme : SchemeT} {cores : Nat} {tr : Trace} {s : Lib} {call : Call} {b b' : Board}
variable {ret id t run pri core : Int}
variable {jobs l r : List JobT} {j x : JobT}

theorem placed_last {cmp : JobT → JobT → Int} (h : Placed cmp x l r) (hr : ∀ y ∈ r, 0 < cmp x y) : r = [] := by
  cases r with
  | nil => rfl
  | cons y ys =>
    have hy := hr y List.mem_cons_self
    cases l with
    | nil =>
      have := h y rfl
      omega
    | cons => exact absurd hy (h.2.2 y rfl)

theorem line_append : line (l ++ r) = line l ++ line r := List.map_append

theorem mem_line_core : core ∈ (line jobs).map Prod.snd ↔ ∃ j ∈ jobs, j.coreId = core := by
  simp [line]

theorem freeCore_idle (h0 : 0 ≤ core) (hcore : core < cores) (hidle : ∀ j ∈ jobs, j.coreId ≠ core)
    (hbelow : ∀ d, 0 ≤ d → d < core → ∃ j ∈ jobs, j.coreId = d) : freeCore cores (line jobs) = core := by
  obtain ⟨c,rfl⟩ := Int.eq_ofNat_of_zero_le h0
  have hfind : (List.range cores).find? (fun c : Nat => (c : Int) ∉ (line jobs).map Prod.snd) = some c := by
    rw [List.find?_range_eq_some]
    refine ⟨decide_eq_true (fun h => ?_),List.mem_range.mpr (by omega),fun d hd => ?_⟩
    · obtain ⟨j,hj,hc⟩ := mem_line_core.mp h
      exact hidle j hj hc
    · have hheld := mem_line_core.mpr (hbelow d (Int.natCast_nonneg d) (Int.ofNat_lt.mpr hd))
      simpa using hheld
  rw [freeCore,hfind]

theorem freeCore_full (hf : Full cores jobs) : freeCore cores (line jobs) = -1 := by
  have hfind : (List.range cores).find? (fun c : Nat => (c : Int) ∉ (line jobs).map Prod.snd) = none := by
    rw [List.find?_eq_none]
    intro c hc
    have hlt := List.mem_range.mp hc
    have hheld := mem_line_core.mpr (hf c (Int.natCast_nonneg c) (by omega))
    simpa using hheld
  rw [freeCore,hfind]

theorem step_arrival (h : Step scheme cores (.newJob id t run pri) b ret b')
    (hlast : Latest scheme b.jobs id t run pri) :
    (line b'.jobs,ret) = lineArrival cores id (line b.jobs) := by
  cases h with
  | @startIdle _ _ _ _ _ _ l r hb hp h0 hcore hidle hbelow =>
    have hr : r = [] := placed_last hp (fun y hy => (hlast y (by simp [hb,hy])).1)
    subst hr
    rw [lineArrival,freeCore_idle h0 hcore hidle hbelow,hb]
    simp [line,JobT.started,JobT.new]
  | @preempt _ _ _ _ _ front l r wait v _ hb _ hf hp _ hrun hv _ =>
    have hnil := placed_last hp (fun y hy => ?_)
    · simp at hnil
    · have hbehind : y ∈ front.map (·.charged t) ∨ y = v.charged t ∨ y ∈ wait := by
        rw [hf]
        simp only [List.mem_append,List.mem_cons] at hy ⊢
        tauto
      rcases hbehind with hy | rfl | hy
      · obtain ⟨k,hk,rfl⟩ := List.mem_map.mp hy
        exact (hlast k (by simp [hb,hk])).2 (hrun k hk)
      · exact (hlast v (by simp [hb])).2 hv
      · exact (hlast y (by simp [hb,hy])).1
  | @queueBehind _ _ _ _ _ front l r _ hb _ hp hfull =>
    have hr : r = [] := placed_last hp (fun y hy => (hlast y (by simp [hb,hy])).1)
    subst hr
    rw [lineArrival,freeCore_full hfull,hb]
    simp [line,JobT.charged,JobT.new,Function.comp_def]
  | @queueUp _ _ _ _ _ l r _ hb hp hfull =>
    have hr : r = [] := placed_last hp (fun y hy => (hlast y (by simp [hb,hy])).1)
    subst hr
    rw [lineArrival,freeCore_full hfull,hb]
    simp [line,JobT.new]

theorem wakeLine_running (h : ∀ j ∈ l, Running j) (xs : List (Int × Int)) :
    wakeLine core (line l ++ xs) = (line l ++ (wakeLine core xs).1,(wakeLine core xs).2) := by
  induction l with
  | nil => rfl
  | cons j l ih =>
    have hj := h j List.mem_cons_self
    have hrest := ih (fun k hk => h k (List.mem_cons_of_mem j hk))
    change wakeLine core ((j.jobId,j.coreId) :: (line l ++ xs)) = _
    rw [wakeLine,if_neg hj,hrest]
    rfl

theorem wake_line {time pause : Int} (h : Wake core time pause b ret b') :
    (line b'.jobs,ret) = wakeLine core (line b.jobs) := by
  cases h with
  | @woke a z w hb hrun hw =>
    have hwoken : line (w :: z) = (w.jobId,-1) :: line z := by rw [← hw]; rfl
    rw [hb,line_append,line_append,wakeLine_running hrun,hwoken,wakeLine,if_pos rfl]
    rfl
  | idled hrun =>
    rw [← List.append_nil (line b.jobs),wakeLine_running hrun,wakeLine]

theorem step_completion (h : Step scheme cores (.jobFinished core id t) b ret b')
    (hs : Sound cores b.jobs) :
    (line b'.jobs,ret) = lineCompletion core id (line b.jobs) := by
  cases h with
  | @finish _ _ _ _ _ _ l r f hb hid hc hwake =>
    have hrest : (line b.jobs).filter (·.1 ≠ id) = line (l ++ r) := by
      have hne := key_ne_of_split (hb ▸ hs.distinct)
      rw [hb,line,List.filter_map,filter_split (by simp [hid]) (fun k hk => ?_)]
      · rfl
      · simpa [hid] using hne k hk
    rw [lineCompletion,hrest]
    exact wake_line hwake

theorem freeCore_free (cores : Nat) (xs : List (Int × Int)) :
    freeCore cores xs = -1 ∨ freeCore cores xs ∉ xs.map Prod.snd := by
  unfold freeCore
  cases hfind : (List.range cores).find? (fun c : Nat => (c : Int) ∉ xs.map Prod.snd) with
  | some c => exact .inr (of_decide_eq_true (List.find?_eq_some_iff_append.mp hfind).1)
  | none => exact .inl rfl

theorem arrival_keeps (h : Step scheme cores (.newJob id t run pri) b ret b') (hs : Sound cores b.jobs)
    (ha : (Call.newJob id t run pri).Admissible scheme cores b.jobs)
    (hlast : Latest scheme b.jobs id t run pri) (hj : j ∈ b.jobs) : ¬ Displaced b'.jobs j := by
  intro hdis
  have hret : j.coreId = ret := (step_announced h hs ha).2.1 j hj hdis
  have hfree : ret = freeCore cores (line b.jobs) := congrArg Prod.snd (step_arrival h hlast)
  rcases freeCore_free cores (line b.jobs) with hnone | hidle
  · exact hdis.1 (hret.trans (hfree.trans hnone))
  · exact hidle (mem_line_core.mpr ⟨j,hj,hret.trans hfree⟩)

theorem completion_keeps (h : Step scheme cores (.jobFinished core id t) b ret b') (hs : Sound cores b.jobs)
    (ha : (Call.jobFinished core id t).Admissible scheme cores b.jobs) (hj : j ∈ b.jobs) :
    ¬ Displaced b'.jobs j := by
  rintro ⟨hr,j',hj',hid,hne⟩
  rw [entry_after h hs ha hj hj' hid,coreAfter] at hne
  split at hne
  · next hwoken =>
    rcases step_announced h hs ha with ⟨hnone,-⟩ | ⟨⟨w,hw,hwid,hwc⟩,-⟩
    · exact hs.numbered (entry 0 j) (List.mem_map_of_mem hj) (hwoken.trans hnone)
    · exact hr (hs.job_injective hw hj (hwid.trans hwoken.symm) ▸ hwc)
  · exact hne rfl

theorem compareBy_pos {key : JobT → Int} {x y : JobT} (hkey : key y ≤ key x) (hfits : Fits (key x - key y))
    (harr : y.arrivalTime < x.arrivalTime) (hlate : Fits (x.arrivalTime - y.arrivalTime)) :
    0 < compareBy key x y := by
  rw [compareBy,intSub_of_fits hfits,intSub_of_fits hlate]
  split <;> omega

theorem fits_zero : Fits 0 := by simp [Fits]

theorem latest_fcfs (h : Older jobs t) : Latest .fcfs jobs id t run pri := by
  intro j hj
  have hpos : 0 < intSub t j.arrivalTime := by
    rw [intSub_of_fits (h j hj).2]
    have := (h j hj).1
    omega
  exact ⟨hpos,fun _ => hpos⟩

theorem latest_rr : Latest .rr jobs id t run pri := fun _ _ => ⟨Int.one_pos,fun _ => Int.one_pos⟩

theorem latest_sjf (h : Older jobs t) (hrun : ∀ j ∈ jobs, j.runTime = run) :
    Latest .sjf jobs id t run pri := by
  intro j hj
  have hsame : run - j.runTime = 0 := Int.sub_eq_zero.mpr (hrun j hj).symm
  have hpos (k : JobT) (hk : k.runTime = j.runTime) (ha : k.arrivalTime = j.arrivalTime) :
      0 < sjfCompare (JobT.new id t run pri) k := by
    refine compareBy_pos (hk ▸ (hrun j hj).le) ?_ (ha ▸ (h j hj).1) (ha ▸ (h j hj).2)
    rw [hk]
    exact hsame ▸ fits_zero
  exact ⟨hpos j rfl rfl,fun _ => hpos _ rfl rfl⟩

theorem latest_priority (h : Older jobs t) (hpri : ∀ j ∈ jobs, j.priority = pri) (j : JobT) (hj : j ∈ jobs) :
    0 < priCompare (JobT.new id t run pri) j ∧
      (Running j → 0 < priCompare (JobT.new id t run pri) (j.charged t)) := by
  have hsame : pri - j.priority = 0 := Int.sub_eq_zero.mpr (hpri j hj).symm
  have hpos (k : JobT) (hk : k.priority = j.priority) (ha : k.arrivalTime = j.arrivalTime) :
      0 < priCompare (JobT.new id t run pri) k := by
    refine compareBy_pos (hk ▸ (hpri j hj).le) ?_ (ha ▸ (h j hj).1) (ha ▸ (h j hj).2)
    rw [hk]
    exact hsame ▸ fits_zero
  exact ⟨hpos j rfl rfl,fun _ => hpos _ rfl rfl⟩

theorem latest_psjf (h : Older jobs t) (hrun : ∀ j ∈ jobs, j.runTime = run) (hfits : run < 2 ^ 31)
    (hdrained : ∀ j ∈ jobs, Drained t j) : Latest .psjf jobs id t run pri := by
  intro j hj
  obtain ⟨hnonneg,hstale,howed⟩ := hdrained j hj
  have hsame := hrun j hj
  refine ⟨compareBy_pos ?_ ?_ (h j hj).1 (h j hj).2,fun hr => compareBy_pos ?_ ?_ (h j hj).1 (h j hj).2⟩
  · simp only [JobT.new]
    omega
  · simp only [Fits,JobT.new]
    omega
  all_goals
    rw [remaining_running t hr] at hnonneg hstale
    simp only [Fits,JobT.new,JobT.charged]
    omega

theorem run_drained {guard : Trace → List JobT → Call → Prop} (h : Run scheme cores guard tr s) :
    StartedIn tr s.jobs ∧ ∀ j ∈ s.jobs, j.timeRemaining ≤ j.runTime := by
  refine h.invariant (P := fun tr jobs => StartedIn tr jobs ∧ ∀ j ∈ jobs, j.timeRemaining ≤ j.runTime)
    ⟨List.forall_mem_nil _,List.forall_mem_nil _⟩ ?_
  intro tr s s' call ret hg hl htimes _ ⟨hstarted,howed⟩ hstep
  have ha := hg.admissible hl
  refine ⟨step_startedIn hstep ha hstarted,fun j' hj' => ?_⟩
  have hcharge {j : JobT} (hj : j ∈ s.jobs) (hr : Running j) :
      j.timeRemaining - (call.time - j.startTime) ≤ j.runTime := by
    obtain ⟨e,he,hstart⟩ := hstarted j hj hr
    have := htimes e he
    have := howed j hj
    omega
  rcases step_touched hstep ha hj' with hnew | ⟨j,hj,htouch⟩
  · cases hnew <;> exact le_refl _
  · cases htouch with
    | same => exact howed _ hj
    | charged hr => exact hcharge hj hr
    | preempted hr => exact hcharge hj hr
    | woken => exact howed j hj
    | expired hr => exact hcharge hj hr
    | cycled _ _ hr => exact hcharge hj hr

end OperatingSystemLabs.Scheduler

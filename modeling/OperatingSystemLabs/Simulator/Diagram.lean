import Mathlib.Tactic.IntervalCases
import OperatingSystemLabs.Simulator.Chronicle

namespace OperatingSystemLabs.Simulator

open Scheduler Keyed Transition

def slots (log : List Event) : List Slot := log.filterMap Event.execution?

def Busy (log : List Event) (core time : Int) : Prop := ∃ id, Event.executed time id core ∈ log

def tickText (log : List Event) (core time : Int) : List Char :=
  match (slots log).find? (fun slot => slot.time = time ∧ slot.coreId = core) with
  | some slot => timeStringOf slot.jobId
  | none => ['-']

def tickTexts (log : List Event) (core : Int) (time : Nat) : List (List Char) :=
  (List.range time).map (fun t : Nat => tickText log core t)

structure Pictured (o : Options) (m : Machine) : Prop where
  elapsed : ∃ n : Nat, m.time = n ∧ ∀ c : Nat, c < o.cores →
    m.coreTimingDiagram[c]? = some (tickTexts m.log c n).flatten
  past : ∀ slot ∈ slots m.log, slot.time < m.time

variable {o : Options} {rows : List Row} {m m' : Machine} {log xs : List Event} {core time : Int}
variable {jobs : List SimulatorJobListT}

theorem slots_append : slots (log ++ xs) = slots log ++ slots xs := List.filterMap_append

theorem slots_called (call : Call) (ret : Int) : slots (log ++ [.called call ret]) = slots log := by
  rw [slots_append]
  exact List.append_nil _

theorem mem_slots {t id core : Int} : ⟨t,id,core⟩ ∈ slots log ↔ Event.executed t id core ∈ log := by
  rw [slots,List.mem_filterMap]
  constructor
  · rintro ⟨e,he,hslot⟩
    cases e with
    | called => cases hslot
    | executed t id core =>
      cases hslot
      exact he
  · exact fun h => ⟨_,h,rfl⟩

theorem slots_executions (time : Int) (jobs : List SimulatorJobListT) : slots (executions time jobs) =
    (jobs.filter (·.coreId ≠ -1)).map (fun job => ⟨time,job.jobId,job.coreId⟩) := by
  rw [slots,executions,List.filterMap_map]
  exact List.filterMap_eq_map ▸ rfl

theorem mem_slots_executions {slot : Slot} (h : slot ∈ slots (executions time jobs)) :
    slot.time = time := by
  rw [slots_executions] at h
  obtain ⟨job,-,rfl⟩ := List.mem_map.mp h
  rfl

theorem busy_append : Busy (log ++ xs) core time ↔ Busy log core time ∨ Busy xs core time := by
  simp only [Busy,List.mem_append,exists_or]

theorem busy_executions {t : Int} (hc : core ≠ -1) :
    Busy (executions time jobs) core t ↔ t = time ∧ ∃ job ∈ jobs, job.coreId = core := by
  constructor
  · rintro ⟨id,hid⟩
    obtain ⟨job,hj,-,he⟩ := mem_executions hid
    obtain ⟨ht,-,hcore⟩ := (Event.executed.injEq ..).mp he
    exact ⟨ht,job,hj,hcore.symm⟩
  · rintro ⟨rfl,job,hj,rfl⟩
    exact ⟨job.jobId,List.mem_map.mpr ⟨job,List.mem_filter.mpr ⟨hj,decide_eq_true hc⟩,rfl⟩⟩

theorem busy_called (call : Call) (ret : Int) :
    Busy (log ++ [.called call ret]) core time ↔ Busy log core time := by
  simp [Busy]

theorem find_executions (hc : core ≠ -1) :
    (slots (executions time jobs)).find? (fun slot => slot.time = time ∧ slot.coreId = core) =
      (jobs.find? (fun job => job.coreId = core)).map (fun job => ⟨time,job.jobId,job.coreId⟩) := by
  rw [slots_executions,List.find?_map,List.find?_filter]
  congr 2
  funext job
  by_cases hj : job.coreId = core
  · simp [hj,hc]
  · simp [hj]

theorem timeStringOf_ne_nil (id : Int) : timeStringOf id ≠ [] := by
  unfold timeStringOf
  split
  · cases id with
    | ofNat n =>
      change n.repr.toList ≠ []
      rw [Nat.toList_repr]
      exact Nat.toDigits_ne_nil
    | negSucc n =>
      change ("-" ++ (n + 1).repr).toList ≠ []
      simp
  · split
    · exact List.cons_ne_nil _ _
    · split <;> exact List.cons_ne_nil _ _

theorem timeStringOf_ne_dash (id : Int) : timeStringOf id ≠ ['-'] := by
  unfold timeStringOf
  split
  · cases id with
    | ofNat n =>
      change n.repr.toList ≠ ['-']
      rw [Nat.toList_repr]
      intro h
      have hdigit := Nat.isDigit_of_mem_toDigits (b := 10) (n := n) (c := '-') (by decide) (by decide)
        (by simp [h])
      exact absurd hdigit (by decide)
    | negSucc n =>
      change ("-" ++ (n + 1).repr).toList ≠ ['-']
      simp [Nat.toList_repr,Nat.toDigits_ne_nil]
  · split
    · have h0 : 10 ≤ id := by omega
      interval_cases id <;> decide
    · split
      · have h0 : 36 ≤ id := by omega
        interval_cases id <;> decide
      · simp

theorem tickText_idle : tickText log core time = ['-'] ↔ ¬ Busy log core time := by
  unfold tickText
  cases hfind : (slots log).find? (fun slot => slot.time = time ∧ slot.coreId = core) with
  | some slot =>
    have hmem := List.mem_of_find?_eq_some hfind
    obtain ⟨htime,hcore⟩ : slot.time = time ∧ slot.coreId = core := by simpa using List.find?_some hfind
    have hbusy : Busy log core time := ⟨slot.jobId,by rw [← mem_slots,← htime,← hcore]; exact hmem⟩
    exact ⟨fun h => absurd h (timeStringOf_ne_dash _),fun h => absurd hbusy h⟩
  | none =>
    refine ⟨fun _ => ?_,fun _ => rfl⟩
    rintro ⟨id,hid⟩
    have := List.find?_eq_none.mp hfind _ (mem_slots.mpr hid)
    simp at this

theorem tickText_append (h : ∀ slot ∈ slots xs, slot.time ≠ time) :
    tickText (log ++ xs) core time = tickText log core time := by
  have hnone : (slots xs).find? (fun slot => slot.time = time ∧ slot.coreId = core) = none :=
    List.find?_eq_none.mpr (fun slot hslot => by simp [h slot hslot])
  rw [tickText,slots_append,List.find?_append,hnone,Option.or_none]
  rfl

theorem tickText_now (hpast : ∀ slot ∈ slots log, slot.time < time) (hc : core ≠ -1) :
    tickText (log ++ executions time jobs) core time = textOn core jobs ['-'] := by
  have hnone : (slots log).find? (fun slot => slot.time = time ∧ slot.coreId = core) = none := by
    refine List.find?_eq_none.mpr (fun slot hslot => ?_)
    have := hpast slot hslot
    simp only [decide_eq_true_eq]
    omega
  rw [tickText,slots_append,List.find?_append,hnone,Option.none_or,find_executions hc,textOn]
  cases jobs.find? (fun job => job.coreId = core) <;> rfl

theorem textOn_dash (core : Int) (jobs : List SimulatorJobListT) :
    (if textOn core jobs [] = [] then ['-'] else textOn core jobs []) = textOn core jobs ['-'] := by
  unfold textOn
  cases jobs.find? (fun job => job.coreId = core) with
  | none => rfl
  | some job => exact if_neg (timeStringOf_ne_nil job.jobId)

theorem tickTexts_succ {n : Nat} (hpast : ∀ slot ∈ slots log, slot.time < n) (hc : core ≠ -1) :
    tickTexts (log ++ executions n jobs) core (n + 1) = tickTexts log core n ++ [textOn core jobs ['-']] := by
  rw [tickTexts,List.range_succ,List.map_append,List.map_singleton,tickText_now hpast hc,tickTexts]
  congr 1
  refine List.map_congr_left (fun t ht => tickText_append (fun slot hslot => ?_))
  have hlt := List.mem_range.mp ht
  rw [mem_slots_executions hslot]
  omega

theorem Pictured.keep (h : Pictured o m) (htime : m'.time = m.time)
    (hdiagram : m'.coreTimingDiagram = m.coreTimingDiagram) (hslots : slots m'.log = slots m.log) :
    Pictured o m' := by
  obtain ⟨⟨n,hn,hshown⟩,hpast⟩ := h
  refine ⟨⟨n,htime.trans hn,fun c hc => ?_⟩,?_⟩
  · have hsame : tickTexts m'.log c n = tickTexts m.log c n := by
      simp only [tickTexts,tickText,hslots]
    rw [hdiagram,hsame]
    exact hshown c hc
  · rw [hslots,htime]
    exact hpast

theorem ran_pictured {clock : List Int} {texts : List (List Char)} {pc : Phase} (h : Pictured o m)
    (hdrawn : Drawn m.jobs (List.replicate o.cores []) texts) : Pictured o { m with
      jobs := m.jobs.map work
      quantumClock := clock
      coreTimingDiagram := List.zipWith (fun diagram text => diagram ++ if text = [] then ['-'] else text)
        m.coreTimingDiagram texts
      time := m.time + 1
      pc := pc
      log := m.log ++ executions m.time m.jobs } := by
  obtain ⟨⟨n,hn,hshown⟩,hpast⟩ := h
  refine ⟨⟨n + 1,by simp [hn],fun c hc => ?_⟩,fun slot hslot => ?_⟩
  · have htext := hdrawn.2 c [] (by simp [hc])
    rw [hn] at hpast
    simp only [List.getElem?_zipWith,hshown c hc,htext,textOn_dash,hn,tickTexts_succ hpast (by omega : (c : Int) ≠ -1)]
    simp
  · simp only [slots_append] at hslot
    rcases List.mem_append.mp hslot with hslot | hslot
    · have := hpast slot hslot
      simp only
      omega
    · rw [mem_slots_executions hslot]
      simp only
      omega

theorem start_pictured (o : Options) (rows : List Row) : Pictured o (start o rows) :=
  ⟨⟨0,rfl,fun c hc => by simp [start,hc,tickTexts]⟩,nofun⟩

theorem visits_pictured (hcores : 1 ≤ o.cores) (h : Runnable rows) (hv : Visits o rows m) : Pictured o m := by
  refine Reach.induction (steady_preserved hcores) (start_steady o h) (start_pictured o rows) ?_ hv
  intro a b _ hs hp hstep
  by_cases hpc : a.pc = .runTimeUnit
  · obtain ⟨clock',texts,-,hdrawn,hran⟩ := unit_ran hs.1.toFollowed hcores
    have hstep' : runTimeUnit o a = .ok b := by rw [← hstep,step,hpc]
    rw [hran] at hstep'
    cases hstep'
    exact ran_pictured hp hdrawn
  · obtain ⟨b',hb,hm,-⟩ := steady_move hs hcores
    rw [hstep] at hb
    cases hb
    cases hm with
    | ran _ hpc' => exact absurd hpc' hpc
    | finished => exact hp.keep rfl rfl (slots_called _ _)
    | expired => exact hp.keep rfl rfl (slots_called _ _)
    | arrived => exact hp.keep rfl rfl (slots_called _ _)
    | _ => exact hp.keep rfl rfl rfl

theorem tickTexts_dash {n t : Nat} :
    (tickTexts log core n)[t]? = some ['-'] ↔ t < n ∧ ¬ Busy log core t := by
  rw [tickTexts,List.getElem?_map,← tickText_idle]
  by_cases ht : t < n
  · simp [ht]
  · simp [ht]

end OperatingSystemLabs.Simulator

import OperatingSystemLabs.Simulator.Decoding
import OperatingSystemLabs.Simulator.Loader
import OperatingSystemLabs.Simulator.Termination

namespace OperatingSystemLabs.Simulator

open Transition

-- What ends the simulation loop early: a fault of a step, realloc (status 3), or twice
-- core_timing_diagram_size being no int.
inductive Abort where
  | fault (fault : Fault)
  | outOfMemory
  | undefined
  deriving DecidableEq, Repr

-- `size` is core_timing_diagram_size; each core's buffer has one byte more.
structure Buffers where
  size : Nat
  positive : 0 < size

def Buffers.first : Buffers := ⟨1024,by decide⟩

def Buffers.double (b : Buffers) : Buffers := ⟨b.size * 2,Nat.mul_pos b.positive (by decide)⟩

-- while (strlen(core_timing_diagram[i]) + strlen(time_string[i]) >= (unsigned int)core_timing_diagram_size)
-- `grants j n` is whether realloc finds n bytes for the diagram of core j.
def Buffers.enlarge (grants : Nat → Nat → Bool) (cores length : Nat) (b : Buffers) : Except Abort Buffers :=
  if length < b.size then .ok b
  else if h : Text.Fits (b.size * 2 : Nat) then
    if (List.range cores).all fun j => grants j (b.size * 2 + 1) then b.double.enlarge grants cores length
    else .error .outOfMemory
  else .error .undefined
termination_by 2 ^ 31 - b.size
decreasing_by
  have := b.positive
  have hle : ((b.size * 2 : Nat) : Int) ≤ 2147483647 := h.2
  simp only [Buffers.double]
  omega

def drawTimeUnit (grants : Nat → Nat → Bool) (o : Options) (m : Machine) (b : Buffers) : Except Abort Buffers :=
  match runJobs m.time m.jobs ⟨0,m.quantumClock,List.replicate o.cores [],m.log⟩ with
  | .error fault => .error (.fault fault)
  | .ok (_,u) =>
      (List.zipWith (fun diagram text => diagram.length + (if text = [] then ['-'] else text).length)
        m.coreTimingDiagram u.timeString).foldlM (fun b length => b.enlarge grants o.cores length) b

-- A step of main with the memory that it takes: the diagrams are drawn before the sanity check.
def mainStep (grants : Nat → Nat → Bool) (o : Options) (s : Machine × Buffers) : Except Abort (Machine × Buffers) := do
  let b ← if s.1.pc = .runTimeUnit then drawTimeUnit grants o s.1 s.2 else .ok s.2
  match step o s.1 with
  | .error fault => .error (.fault fault)
  | .ok m => return (m,b)

variable {grants : Nat → Nat → Bool} {o : Options} {rows : List Row} {m m' : Machine} {b b' : Buffers}
variable {s s' : Machine × Buffers} {cores length : Nat} {lengths : List Nat}

def AllGranted (grants : Nat → Nat → Bool) : Prop := ∀ j n, grants j n = true

theorem enlarge_cases (hlen : length < 2 ^ 30) (b : Buffers) :
    (∃ b', b.enlarge grants cores length = .ok b' ∧ length < b'.size ∧ b.size ≤ b'.size) ∨
    b.enlarge grants cores length = .error .outOfMemory ∧ ¬ AllGranted grants := by
  fun_induction Buffers.enlarge grants cores length b with
  | case1 b h => exact .inl ⟨b,rfl,h,le_rfl⟩
  | case2 b h hfits hall ih =>
    refine ih.imp_left fun ⟨b',hb',hlt,hle⟩ => ⟨b',hb',hlt,le_trans ?_ hle⟩
    exact Nat.le_mul_of_pos_right _ (by decide)
  | case3 b h hfits hno => exact .inr ⟨rfl,fun hall => hno (List.all_eq_true.mpr fun j _ => hall j _)⟩
  | case4 b h hno => exact absurd ⟨by omega,by omega⟩ hno

theorem enlarge_all (hlen : ∀ length ∈ lengths, length < 2 ^ 30) (b : Buffers) :
    (∃ b', lengths.foldlM (fun b length => b.enlarge grants cores length) b = .ok b' ∧
      (∀ length ∈ lengths, length < b'.size) ∧ b.size ≤ b'.size) ∨
    lengths.foldlM (fun b length => b.enlarge grants cores length) b = .error .outOfMemory ∧ ¬ AllGranted grants := by
  induction lengths generalizing b with
  | nil => exact .inl ⟨b,rfl,by simp,le_rfl⟩
  | cons length lengths ih =>
    obtain ⟨hhead,htail⟩ := List.forall_mem_cons.mp hlen
    rw [List.foldlM_cons]
    rcases enlarge_cases hhead b with ⟨c,hc,hlt,hle⟩ | ⟨hc,hno⟩
    · rw [bind_ok _ hc]
      refine (ih htail c).imp_left fun ⟨b',hb',hall,hle'⟩ => ⟨b',hb',?_,hle.trans hle'⟩
      exact List.forall_mem_cons.mpr ⟨hlt.trans_le hle',hall⟩
    · rw [hc]
      exact .inr ⟨rfl,hno⟩

theorem drawTimeUnit_eq (hpc : m.pc = .runTimeUnit) (hstep : step o m = .ok m') (b : Buffers) :
    drawTimeUnit grants o m b =
      (m'.coreTimingDiagram.map List.length).foldlM (fun b length => b.enlarge grants o.cores length) b := by
  rw [step,hpc] at hstep
  obtain ⟨⟨jobs,u⟩,hrun,hstep⟩ := ok_of_bind hstep
  rw [drawTimeUnit,hrun]
  simp only at hstep ⊢
  split at hstep
  · cases hstep
  · cases hstep
    simp only [List.map_zipWith,List.length_append]

theorem timeStringOf_length {id : Int} (h : 0 ≤ id) : (timeStringOf id).length ≤ 9 := by
  obtain ⟨n,rfl⟩ := Int.eq_ofNat_of_zero_le h
  by_cases hn : n < 62
  · rw [timeStringOf_bare hn]
    exact (by decide : 1 ≤ 9)
  · rw [timeStringOf,if_neg (by omega),if_neg (by omega),if_neg (by omega)]
    exact (List.length_take_le _ _)

def Short (m : Machine) : Prop := ∀ diagram ∈ m.coreTimingDiagram, (diagram.length : Int) ≤ 9 * m.time

theorem Drawn.short {texts : List (List Char)} (hdrawn : Drawn m.jobs (List.replicate o.cores []) texts)
    (hnumbered : ∀ job ∈ m.jobs, 0 ≤ job.jobId) : ∀ text ∈ texts, text.length ≤ 9 := by
  intro text htext
  obtain ⟨hlen,hat⟩ := hdrawn
  obtain ⟨c,hc,rfl⟩ := List.getElem_of_mem htext
  rw [List.length_replicate] at hlen
  have hcell := hat c [] (List.getElem?_replicate_of_lt (hlen ▸ hc))
  rw [List.getElem?_eq_getElem hc] at hcell
  rw [Option.some.inj hcell,textOn]
  split
  · next job hfind => exact timeStringOf_length (hnumbered job (List.mem_of_find?_eq_some hfind))
  · exact Nat.zero_le _

theorem visits_short (hcores : 1 ≤ o.cores) (h : Runnable rows) (hv : Visits o rows m) : Short m := by
  have hstart : Short (start o rows) := by
    intro diagram hd
    rw [List.eq_of_mem_replicate hd]
    exact le_rfl
  refine Reach.induction (steady_preserved hcores) (start_steady o h) hstart ?_ hv
  intro a b _ hs ha hstep
  by_cases hpc : a.pc = .runTimeUnit
  · obtain ⟨clock',texts,-,hdrawn,hran⟩ := unit_ran hs.1.toFollowed hcores
    have hstep' : runTimeUnit o a = .ok b := by rw [← hstep,step,hpc]
    rw [hran] at hstep'
    cases hstep'
    intro diagram hd
    obtain ⟨c,hc,rfl⟩ := List.getElem_of_mem hd
    simp only [List.getElem_zipWith,List.length_append]
    rw [List.length_zipWith] at hc
    have hdiagram := ha _ (List.getElem_mem (show c < a.coreTimingDiagram.length by omega))
    have htext := hdrawn.short hs.1.numbered _ (List.getElem_mem (show c < texts.length by omega))
    split
    · simp only [List.length_singleton]
      omega
    · omega
  · obtain ⟨b',hb,hm,-⟩ := steady_move hs hcores
    rw [hstep] at hb
    cases hb
    cases hm with
    | ran _ hpc' => exact absurd hpc' hpc
    | _ => exact ha

def Brief (rows : List Row) : Prop := 9 * (lastArrival rows + totalRunTime rows) < 2 ^ 30

theorem visits_brief (hcores : 1 ≤ o.cores) (h : Runnable rows) (hbrief : Brief rows) (hv : Visits o rows m) :
    ∀ length ∈ m.coreTimingDiagram.map List.length, length < 2 ^ 30 := by
  intro length hlength
  obtain ⟨diagram,hd,rfl⟩ := List.mem_map.mp hlength
  have hshort := visits_short hcores h hv diagram hd
  have htime := (visits_timely hcores h hv).bound
  have hwork : 0 ≤ totalRunTime rows := by
    rw [← loaded_work 0 h]
    exact Int.natCast_nonneg _
  rw [Brief] at hbrief
  omega

structure Buffered (o : Options) (rows : List Row) (s : Machine × Buffers) : Prop where
  visited : Visits o rows s.1
  within : ∀ diagram ∈ s.1.coreTimingDiagram, diagram.length < s.2.size

theorem mainStep_cases (hcores : 1 ≤ o.cores) (h : Runnable rows) (hbrief : Brief rows) (hs : Buffered o rows s) :
    (∃ s', mainStep grants o s = .ok s' ∧ step o s.1 = .ok s'.1 ∧ Buffered o rows s') ∨
    mainStep grants o s = .error .outOfMemory ∧ ¬ AllGranted grants := by
  obtain ⟨m,b⟩ := s
  obtain ⟨m',hm,hmove,-⟩ := steady_move (visits_steady hcores h hs.visited) hcores
  have hv' : Visits o rows m' := hs.visited.tail hm
  rw [mainStep]
  by_cases hpc : m.pc = .runTimeUnit
  · rw [if_pos hpc,drawTimeUnit_eq hpc hm]
    rcases enlarge_all (visits_brief hcores h hbrief hv') b with ⟨b',hb',hall,-⟩ | ⟨hb',hno⟩
    · rw [bind_ok _ hb']
      simp only [hm]
      exact .inl ⟨_,rfl,rfl,hv',fun diagram hd => hall _ (List.mem_map_of_mem hd)⟩
    · rw [hb']
      exact .inr ⟨rfl,hno⟩
  · rw [if_neg hpc]
    have hsame : m'.coreTimingDiagram = m.coreTimingDiagram := by
      cases hmove with
      | ran _ hpc' => exact absurd hpc' hpc
      | _ => rfl
    refine .inl ⟨(m',b),?_,hm,hv',?_⟩
    · show (match step o m with | .error fault => _ | .ok m => _) = _
      rw [hm]
      rfl
    · simp only [hsame]
      exact hs.within

theorem reach_buffered (hcores : 1 ≤ o.cores) (h : Runnable rows) (hbrief : Brief rows)
    (hreach : Reach (mainStep grants o) (start o rows,.first) s) : Buffered o rows s := by
  have hstart : Visits o rows (start o rows) := Reach.refl _ _
  refine Reach.invariant (fun a b ha hab => ?_) ⟨hstart,fun diagram hd => ?_⟩ hreach
  · rcases mainStep_cases hcores h hbrief ha with ⟨c,hc,-,hbuffered⟩ | ⟨hc,-⟩
    · cases hab.symm.trans hc
      exact hbuffered
    · cases hab.symm.trans hc
  · rw [List.eq_of_mem_replicate hd]
    exact Buffers.first.positive

theorem buffers_last (hcores : 1 ≤ o.cores) (h : Runnable rows) (hbrief : Brief rows) (hgranted : AllGranted grants) :
    ∃ s, Reach (mainStep grants o) (start o rows,.first) s ∧ s.1.pc = .done := by
  obtain ⟨m,hreach,hdone⟩ := simulator_ends hcores h
  have hstep : ∀ m s, s.1 = m ∧ Buffered o rows s → ∃ m' s', step o m = .ok m' ∧
      Reach (mainStep grants o) s s' ∧ s'.1 = m' ∧ Buffered o rows s' := by
    rintro m s ⟨rfl,hs⟩
    rcases mainStep_cases hcores h hbrief hs with ⟨s',hs',hm,hbuffered⟩ | ⟨-,hno⟩
    · exact ⟨s'.1,s',hm,Reach.head hs' (Reach.refl _ _),rfl,hbuffered⟩
    · exact absurd hgranted hno
  have hstart := reach_buffered hcores h hbrief (Reach.refl (mainStep grants o) (start o rows,.first))
  obtain ⟨s,hs,rfl,-⟩ := Reach.simulation (R := fun m s => s.1 = m ∧ Buffered o rows s) hstep ⟨rfl,hstart⟩ hreach
  exact ⟨s,hs,hdone⟩

end OperatingSystemLabs.Simulator

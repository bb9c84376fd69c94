import Mathlib.Data.List.Sort
import OperatingSystemLabs.Simulator.Timeline

namespace OperatingSystemLabs.Simulator

open Scheduler Keyed

variable {o : Options} {rows rows' : List Row} {m m' : Machine} {n n' : Nat} {line : Nat → Board}
variable {a b : SimulatorJobListT}

theorem ends_arrived (hone : 1 ≤ o.cores) (h : Runnable rows) (he : Ends o rows m) :
    ∀ row ∈ rows, row.arrivalTime < m.time := by
  intro row hrow
  rw [← loadJobs_rows 0 rows] at hrow
  obtain ⟨loaded,hl,rfl⟩ := List.mem_map.mp hrow
  exact (ends_concluded hone h he loaded hl).arrived (visits_recorded hone h he.1) hl

theorem ends_board (hone : 1 ≤ o.cores) (h : Runnable rows) (he : Ends o rows m)
    (ht : OnTimeline (timeline o.scheme o.cores rows) rows m n) :
    timeline o.scheme o.cores rows (n + 1) = m.lib.board.masked ∧ m.lib.board.masked.jobs = [] := by
  have hpaced := ht.paced
  simp only [Paced,he.2] at hpaced
  have hlate : ∀ row ∈ rows, row.arrivalTime ≠ n :=
    fun row hrow => ht.now ▸ (ends_arrived hone h he row hrow).ne
  rw [timeline,arriveAt_none hlate,hpaced]
  refine ⟨rfl,?_⟩
  rw [← hpaced]
  exact List.map_eq_nil_iff.mpr ((visits_steady hone h he.1).queue_empty he.2).2

theorem ends_latest (hone : 1 ≤ o.cores) (h : Runnable rows) (he : Ends o rows m)
    (ht : OnTimeline (timeline o.scheme o.cores rows) rows m n) (hp : rows.Perm rows')
    (ht' : OnTimeline (timeline o.scheme o.cores rows) rows' m' n') : n' ≤ n := by
  by_contra hlt
  rcases ht'.awake n (Nat.lt_of_not_le hlt) with hbusy | ⟨row,hrow,hlate⟩
  · obtain ⟨hline,hnil⟩ := ends_board hone h he ht
    exact hbusy (hline ▸ hnil)
  · have hnow := ht.now
    have harrived := ends_arrived hone h he row (hp.mem_iff.mpr hrow)
    omega

theorem ticks_agree (hr : Recorded rows m) (hr' : Recorded rows' m') (ht : OnTimeline line rows m n)
    (ht' : OnTimeline line rows' m' n) (ha : a ∈ loadJobs 0 rows) (hb : b ∈ loadJobs 0 rows')
    (harr : a.arrivalTime = b.arrivalTime) : ticks b.jobId m'.log = ticks a.jobId m.log := by
  refine (hr'.ordered b.jobId).eq_of_mem_iff (hr.ordered a.jobId) (fun t => ?_)
  rw [ht.ran a ha,ht'.ran b hb,harr]

theorem row_order_irrelevant (hone : 1 ≤ o.cores) (hrr : o.scheme ≠ .rr) (h : Runnable rows)
    (hd : DistinctTimes rows) (hp : rows.Perm rows') :
    (∃ m, Ends o rows m) ∧ (∃ m', Ends o rows' m') ∧ ∀ m m', Ends o rows m → Ends o rows' m' →
      (∀ a ∈ loadJobs 0 rows, ∀ b ∈ loadJobs 0 rows', a.arrivalTime = b.arrivalTime →
        ticks b.jobId m'.log = ticks a.jobId m.log ∧ completions b.jobId m'.log = completions a.jobId m.log) ∧
      m'.lib.waitingTime = m.lib.waitingTime ∧ m'.lib.turnaroundTime = m.lib.turnaroundTime ∧
      m'.lib.responseTime = m.lib.responseTime := by
  have h' : Runnable rows' := fun row hrow => h row (hp.mem_iff.mpr hrow)
  have hd' : DistinctTimes rows' := (hp.map _).nodup_iff.mp hd
  refine ⟨simulator_ends hone h,simulator_ends hone h',fun m m' he he' => ?_⟩
  have hline := timeline_perm o.scheme o.cores hp hd
  obtain ⟨n,ht⟩ := visits_on_timeline hrr hone h hd he.1
  obtain ⟨n',ht'⟩ := visits_on_timeline hrr hone h' hd' he'.1
  have hle := ends_latest hone h' he' ht' hp.symm (hline ▸ ht)
  rw [hline] at ht'
  obtain rfl : n = n' := Nat.le_antisymm hle (ends_latest hone h he ht hp ht')
  refine ⟨fun a ha b hb harr => ?_,?_⟩
  · have hticks := ticks_agree (visits_recorded hone h he.1) (visits_recorded hone h' he'.1) ht ht' ha hb harr
    have hc := ends_concluded hone h he a ha
    have hc' := ends_concluded hone h' he' b hb
    refine ⟨hticks,?_⟩
    have hlast := hc'.latest
    rw [hticks,hc.latest] at hlast
    rw [hc.completed,hc'.completed]
    have := Option.some.inj hlast
    congr 1
    omega
  · have hpaced := ht.paced
    have hpaced' := ht'.paced
    simp only [Paced,he.2] at hpaced
    simp only [Paced,he'.2] at hpaced'
    have hboard : m'.lib.board.masked = m.lib.board.masked := hpaced'.trans hpaced.symm
    exact ⟨congrArg Board.waitingTime hboard,congrArg Board.turnaroundTime hboard,
      congrArg Board.responseTime hboard⟩

theorem row_order_irrelevant_psjf : ∃ m m', Ends ⟨2,.psjf,1⟩ [⟨0,5,2⟩,⟨1,5,1⟩,⟨3,2,0⟩] m ∧
    Ends ⟨2,.psjf,1⟩ [⟨3,2,0⟩,⟨1,5,1⟩,⟨0,5,2⟩] m' ∧ ticks 2 m'.log = ticks 0 m.log ∧
    m'.lib.waitingTime = m.lib.waitingTime := by
  have hperm : List.Perm [(⟨0,5,2⟩ : Row),⟨1,5,1⟩,⟨3,2,0⟩] [⟨3,2,0⟩,⟨1,5,1⟩,⟨0,5,2⟩] := by decide
  obtain ⟨⟨m,he⟩,⟨m',he'⟩,hall⟩ := row_order_irrelevant (o := ⟨2,.psjf,1⟩) (by decide) nofun
    (show Runnable [⟨0,5,2⟩,⟨1,5,1⟩,⟨3,2,0⟩] by simp [Runnable]) (by simp [DistinctTimes]) hperm
  obtain ⟨hjobs,hwait,-,-⟩ := hall m m' he he'
  have hfirst := hjobs ⟨0,0,5,2,-1,false⟩ (by simp [loadJobs]) ⟨2,0,5,2,-1,false⟩ (by simp [loadJobs]) rfl
  exact ⟨m,m',he,he',hfirst.1,hwait⟩

end OperatingSystemLabs.Simulator

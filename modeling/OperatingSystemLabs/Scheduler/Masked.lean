import Mathlib.Logic.Function.Iterate
import Mathlib.Algebra.BigOperators.Group.List.Basic
import OperatingSystemLabs.Scheduler.Eviction
import OperatingSystemLabs.Scheduler.ShortestRemaining

namespace OperatingSystemLabs.Scheduler

open Insertion Keyed

def JobT.masked (j : JobT) : JobT := { j with jobId := 0, coreId := if j.coreId = -1 then -1 else 0 }

def Board.masked (b : Board) : Board := { b with jobs := b.jobs.map JobT.masked }

def Board.wakeNext (t : Int) (b : Board) : Board :=
  match b.jobs.dropWhile (Running ·) with
  | [] => b
  | w :: z => { b with
      jobs := b.jobs.takeWhile (Running ·) ++ w.woken 0 t 0 :: z
      waitingTime := b.waitingTime + (t - w.pauseTime)
      responseTime := if w.responded = -1 then b.responseTime + (t - w.arrivalTime) else b.responseTime }

def Over (t : Int) (j : JobT) : Prop := Running j ∧ remaining t j = 0

instance (t : Int) (j : JobT) : Decidable (Over t j) := inferInstanceAs (Decidable (_ ∧ _))

def Board.purge (t : Int) (b : Board) : Board := { b with
  jobs := b.jobs.filter (¬ Over t ·)
  turnaroundTime := b.turnaroundTime + ((b.jobs.filter (Over t ·)).map (t - ·.arrivalTime)).sum }

-- All completions of time t at once: the finished jobs leave, then as many waiting ones start.
def Board.settle (t : Int) (b : Board) : Board :=
  (Board.wakeNext t)^[(b.jobs.filter (Over t ·)).length] (b.purge t)

def Board.arrive (scheme : SchemeT) (cores : Nat) (t run pri : Int) (b : Board) : Board :=
  let new := JobT.new 0 t run pri
  if (b.jobs.filter (Running ·)).length < cores then
    let k := place scheme.compare new b.jobs
    { b with jobs := b.jobs.take k ++ new.started 0 t :: b.jobs.drop k, numJobs := b.numJobs + 1 }
  else if scheme.preemptive = true then
    let charged := (b.jobs.takeWhile (Running ·)).map (·.charged t)
    let wait := b.jobs.dropWhile (Running ·)
    let k := place scheme.compare new (charged ++ wait)
    if k < cores then
      let victim := charged.getLast?.toList.map (·.preempted t)
      { b with
        jobs := charged.dropLast.take k ++ new.preempting 0 t :: (charged.dropLast.drop k ++ (victim ++ wait))
        numJobs := b.numJobs + 1 }
    else { b with jobs := (charged ++ wait).take k ++ new :: (charged ++ wait).drop k, numJobs := b.numJobs + 1 }
  else
    let k := place scheme.compare new b.jobs
    { b with jobs := b.jobs.take k ++ new :: b.jobs.drop k, numJobs := b.numJobs + 1 }

variable {scheme : SchemeT} {cores : Nat} {b b' : Board} {core t ret : Int} {j : JobT} {jobs : List JobT}

theorem masked_running : Running j.masked ↔ Running j := by
  unfold Running JobT.masked
  split <;> simp_all

theorem masked_remaining (t : Int) (j : JobT) : remaining t j.masked = remaining t j := by
  unfold remaining JobT.masked
  split <;> simp_all

theorem masked_over : Over t j.masked ↔ Over t j := by
  rw [Over,Over,masked_running,masked_remaining]

theorem masked_new (id t run pri : Int) : (JobT.new id t run pri).masked = JobT.new 0 t run pri := by
  simp [JobT.masked,JobT.new]

theorem masked_woken (t : Int) (j : JobT) (hc : core ≠ -1) :
    (j.woken core t 0).masked = j.masked.woken 0 t 0 := by
  unfold JobT.masked JobT.woken
  rw [if_neg hc]

theorem placed_masked {id run pri : Int} {l r : List JobT}
    (h : Placed scheme.compare (JobT.new id t run pri) l r) :
    Placed scheme.compare (JobT.new 0 t run pri) (l.map JobT.masked) (r.map JobT.masked) := by
  have hcompare : (fun x y => scheme.compare x.masked y.masked) = scheme.compare := by
    cases scheme <;> rfl
  rw [← masked_new id,placed_map,hcompare]
  exact h

theorem first_waiting (jobs : List JobT) : (∀ j ∈ jobs, Running j) ∨
    ∃ a w z, jobs = a ++ w :: z ∧ (∀ j ∈ a, Running j) ∧ w.coreId = -1 := by
  induction jobs with
  | nil => exact .inl (List.forall_mem_nil _)
  | cons j js ih =>
    by_cases hj : Running j
    · rcases ih with hall | ⟨a,w,z,rfl,ha,hw⟩
      · exact .inl (List.forall_mem_cons.mpr ⟨hj,hall⟩)
      · exact .inr ⟨j :: a,w,z,rfl,List.forall_mem_cons.mpr ⟨hj,ha⟩,hw⟩
    · exact .inr ⟨[],j,js,rfl,List.forall_mem_nil _,not_not.mp hj⟩

theorem front_split {a z : List JobT} (ha : ∀ j ∈ a, Running j) (hz : ∀ w ∈ z.head?, w.coreId = -1) :
    (a ++ z).takeWhile (Running ·) = a ∧ (a ++ z).dropWhile (Running ·) = z := by
  have hpos : ∀ j ∈ a, decide (Running j) = true := fun j hj => decide_eq_true (ha j hj)
  rw [List.takeWhile_append_of_pos hpos,List.dropWhile_append_of_pos hpos]
  cases z with
  | nil => simp
  | cons w z =>
    have hw : ¬ Running w := not_not.mpr (hz w rfl)
    simp [hw]

theorem wakeNext_woke {a z : List JobT} {w : JobT} (hb : b.jobs = a ++ w :: z) (ha : ∀ j ∈ a, Running j)
    (hw : w.coreId = -1) : b.wakeNext t = { b with
      jobs := a ++ w.woken 0 t 0 :: z
      waitingTime := b.waitingTime + (t - w.pauseTime)
      responseTime := if w.responded = -1 then b.responseTime + (t - w.arrivalTime) else b.responseTime } := by
  obtain ⟨htake,hdrop⟩ := front_split (z := w :: z) ha (by simpa using hw)
  rw [Board.wakeNext,hb,htake,hdrop]

theorem wakeNext_idle (h : ∀ j ∈ b.jobs, Running j) : b.wakeNext t = b := by
  obtain ⟨-,hdrop⟩ := front_split (z := []) h (by simp)
  rw [List.append_nil] at hdrop
  rw [Board.wakeNext,hdrop]

theorem wake_masked (h : Wake core t 0 b ret b') (hc : core ≠ -1) : b'.masked = b.masked.wakeNext t := by
  cases h with
  | @woke a z w hb ha hw =>
    have hjobs : b.masked.jobs = a.map JobT.masked ++ w.masked :: z.map JobT.masked := by
      simp [Board.masked,hb]
    have hrun : ∀ j ∈ a.map JobT.masked, Running j := by
      intro j hj
      obtain ⟨k,hk,rfl⟩ := List.mem_map.mp hj
      exact masked_running.mpr (ha k hk)
    rw [wakeNext_woke hjobs hrun (by simp [JobT.masked,hw]),← masked_woken t w hc]
    simp only [Board.masked,List.map_append,List.map_cons]
    rfl
  | idled hall =>
    refine (wakeNext_idle fun j hj => ?_).symm
    obtain ⟨k,hk,rfl⟩ := List.mem_map.mp hj
    exact masked_running.mpr (hall k hk)

section Settling

variable (hwait : ∀ j ∈ b.jobs, j.coreId = -1 → j.timeRemaining ≠ 0)

include hwait

theorem over_wakeNext : (b.wakeNext t).jobs.filter (Over t ·) = b.jobs.filter (Over t ·) ∧
    (b.wakeNext t).purge t = (b.purge t).wakeNext t := by
  rcases first_waiting b.jobs with hall | ⟨a,w,z,hb,ha,hw⟩
  · have hall' : ∀ j ∈ (b.purge t).jobs, Running j := fun j hj => hall j (List.mem_of_mem_filter hj)
    rw [wakeNext_idle hall,wakeNext_idle hall']
    exact ⟨rfl,rfl⟩
  · have hstill : ¬ Over t w := fun h => h.1 hw
    have hfresh : ¬ Over t (w.woken 0 t 0) := by
      rintro ⟨hr,h0⟩
      rw [remaining_running t hr] at h0
      exact hwait w (by simp [hb]) hw (by simpa [JobT.woken] using h0)
    have hjobs : (b.purge t).jobs = a.filter (¬ Over t ·) ++ w :: z.filter (¬ Over t ·) := by
      simp [Board.purge,hb,hstill]
    have ha' : ∀ j ∈ a.filter (¬ Over t ·), Running j := fun j hj => ha j (List.mem_of_mem_filter hj)
    rw [wakeNext_woke hb ha hw,wakeNext_woke hjobs ha' hw]
    simp [Board.purge,hb,hstill,hfresh]

theorem settle_wakeNext : (b.wakeNext t).settle t =
    (Board.wakeNext t)^[(b.jobs.filter (Over t ·)).length + 1] (b.purge t) := by
  obtain ⟨hover,hpurge⟩ := over_wakeNext (t := t) hwait
  rw [Board.settle,hover,hpurge,← Function.iterate_succ_apply]

end Settling

theorem settle_finish {l r : List JobT} {f : JobT} (hb : b.jobs = l ++ f :: r) (hf : Over t f)
    (hwait : ∀ j ∈ b.jobs, j.coreId = -1 → j.timeRemaining ≠ 0) :
    (Board.wakeNext t { b with
      jobs := l ++ r, turnaroundTime := b.turnaroundTime + (t - f.arrivalTime) }).settle t = b.settle t := by
  rw [settle_wakeNext (fun j hj => hwait j (hb ▸ mem_split hj)),Board.settle]
  have hcount : (b.jobs.filter (Over t ·)).length = ((l ++ r).filter (Over t ·)).length + 1 := by
    simp [hb,hf]
    omega
  rw [hcount]
  congr 1
  simp only [Board.purge,hb,List.filter_append,List.filter_cons,hf,not_true_eq_false,decide_true,decide_false,if_true,
    List.map_append,List.map_cons,List.sum_append,List.sum_cons]
  congr 1
  omega

theorem settle_self (h : ∀ j ∈ b.jobs, ¬ Over t j) : b.settle t = b := by
  have hnone : b.jobs.filter (Over t ·) = [] := List.filter_eq_nil_iff.mpr (by simpa using h)
  have hall : b.jobs.filter (¬ Over t ·) = b.jobs := List.filter_eq_self.mpr (by simpa using h)
  rw [Board.settle,Board.purge,hnone,hall]
  simp

theorem finish_settles {id : Int} (h : Step scheme cores (.jobFinished core id t) b ret b') (hc : core ≠ -1)
    (hover : ∀ j ∈ b.jobs, j.jobId = id → remaining t j = 0)
    (hwait : ∀ j ∈ b.jobs, j.coreId = -1 → j.timeRemaining ≠ 0) : b'.masked.settle t = b.masked.settle t := by
  cases h with
  | @finish _ _ _ _ _ _ l r f hb hfid hfc hw =>
    have hf : Over t f.masked :=
      masked_over.mpr ⟨show f.coreId ≠ -1 from hfc ▸ hc,hover f (by simp [hb]) hfid⟩
    have hjobs : b.masked.jobs = l.map JobT.masked ++ f.masked :: r.map JobT.masked := by
      simp [Board.masked,hb]
    have hwait' : ∀ j ∈ b.masked.jobs, j.coreId = -1 → j.timeRemaining ≠ 0 := by
      intro j hj hidle
      obtain ⟨k,hk,rfl⟩ := List.mem_map.mp hj
      exact hwait k hk (by by_contra hrun; exact masked_running.mpr hrun hidle)
    rw [wake_masked hw hc,← settle_finish hjobs hf hwait']
    simp only [Board.masked,List.map_append]
    rfl

theorem masked_charged (t : Int) (jobs : List JobT) :
    (jobs.map (·.charged t)).map JobT.masked = (jobs.map JobT.masked).map (·.charged t) := by
  rw [List.map_map,List.map_map]
  rfl

theorem front_masked {front wait : List JobT} (hb : jobs = front ++ wait) (hf : ∀ j ∈ front, Running j)
    (hw : ∀ j ∈ wait, j.coreId = -1) :
    (jobs.map JobT.masked).takeWhile (Running ·) = front.map JobT.masked ∧
      (jobs.map JobT.masked).dropWhile (Running ·) = wait.map JobT.masked := by
  rw [hb,List.map_append]
  refine front_split (fun j hj => ?_) (fun j hj => ?_)
  · obtain ⟨k,hk,rfl⟩ := List.mem_map.mp hj
    exact masked_running.mpr (hf k hk)
  · obtain ⟨k,hk,rfl⟩ := List.mem_map.mp (List.mem_of_mem_head? hj)
    simp [JobT.masked,hw k hk]

theorem placed_insert {cmp : JobT → JobT → Int} {x : JobT} {l r : List JobT} (h : Placed cmp x l r) (y : JobT) :
    (l ++ r).take (place cmp x (l ++ r)) ++ y :: (l ++ r).drop (place cmp x (l ++ r)) = l ++ y :: r := by
  rw [place_of_placed h,List.take_left,List.drop_left]

theorem masked_count (b : Board) :
    (b.masked.jobs.filter (Running ·)).length = (b.jobs.filter (Running ·)).length := by
  rw [Board.masked,List.filter_map,List.length_map]
  simp only [Function.comp_def,masked_running]

theorem arrive_masked {id run pri : Int} (h : Step scheme cores (.newJob id t run pri) b ret b')
    (hs : Sound cores b.jobs) :
    b'.masked = b.masked.arrive scheme cores t run pri := by
  have hbusy (hf : Full cores b.jobs) : ¬ (b.masked.jobs.filter (Running ·)).length < cores := by
    rw [masked_count,running_count_of_full hs hf]
    exact Nat.lt_irrefl cores
  cases h with
  | @startIdle _ _ _ _ _ _ l r hb hp h0 hc hidle _ =>
    have hp' := placed_masked hp
    have hcount : (b.masked.jobs.filter (Running ·)).length < cores :=
      (masked_count b).trans_lt (running_le_of_free hs h0 hc hidle)
    have hjobs : b.masked.jobs = l.map JobT.masked ++ r.map JobT.masked := by simp [Board.masked,hb]
    have hstart : ((JobT.new id t run pri).started ret t).masked = (JobT.new 0 t run pri).started 0 t := by
      unfold JobT.masked JobT.started
      rw [if_neg (by simp only; omega)]
      rfl
    simp only [Board.arrive]
    rw [if_pos hcount,hjobs,placed_insert hp',← hstart]
    simp only [Board.masked,List.map_append,List.map_cons]
  | @preempt _ _ _ _ _ front l r wait v hpre hb hlen hfront hp hfull hf hv hw =>
    have hfv : ∀ j ∈ front ++ [v], Running j := by
      simpa [or_imp,forall_and] using And.intro hf hv
    obtain ⟨htake,hdrop⟩ := front_masked (by simpa using hb) hfv hw
    have hcharged : ((front ++ [v]).map JobT.masked).map (·.charged t) =
        (l.map JobT.masked ++ r.map JobT.masked) ++ [(v.charged t).masked] := by
      rw [← masked_charged,List.map_append,hfront]
      simp
    have hp' := placed_masked hp
    rw [List.map_append,List.map_cons] at hp'
    have hpreempting : ((JobT.new id t run pri).preempting v.coreId t).masked =
        (JobT.new 0 t run pri).preempting 0 t := by
      unfold JobT.masked JobT.preempting
      rw [if_neg (show v.coreId ≠ -1 from hv)]
      rfl
    have hpreempted : ((v.charged t).preempted t).masked = ((v.charged t).masked).preempted t := rfl
    have hall : (l.map JobT.masked ++ r.map JobT.masked) ++ [(v.charged t).masked] ++ wait.map JobT.masked =
        l.map JobT.masked ++ (r.map JobT.masked ++ (v.charged t).masked :: wait.map JobT.masked) := by simp
    have hlt : l.length < cores := by
      have := congrArg List.length hfront
      simp only [List.length_map,List.length_append] at this
      omega
    have hmasked : b.masked.jobs = b.jobs.map JobT.masked := rfl
    have hcount := hbusy hfull
    simp only [Board.arrive,hmasked,htake,hdrop] at hcount ⊢
    rw [if_neg hcount,if_pos hpre,hcharged,hall,place_of_placed hp',List.length_map,if_pos hlt,
      List.dropLast_concat,List.getLast?_concat,List.take_left' (List.length_map _),
      List.drop_left' (List.length_map _),← hpreempting]
    simp only [Board.masked,List.map_append,List.map_cons,hpreempted]
    rfl
  | @queueBehind _ _ _ _ _ front l r hpre hb hlen hp hfull hf hw =>
    obtain ⟨htake,hdrop⟩ := front_masked hb hf hw
    have hp' := placed_masked hp
    have hall : (front.map JobT.masked).map (·.charged t) ++ (l ++ r).map JobT.masked =
        (front.map (·.charged t) ++ l).map JobT.masked ++ r.map JobT.masked := by
      rw [← masked_charged]
      simp
    have hplace := place_of_placed hp'
    have hge : ¬ ((front.map (·.charged t) ++ l).map JobT.masked).length < cores := by
      simp [hlen]
    have hmasked : b.masked.jobs = b.jobs.map JobT.masked := rfl
    have hcount := hbusy hfull
    simp only [Board.arrive,hmasked,htake,hdrop] at hcount ⊢
    rw [if_neg hcount,if_pos hpre,hall,if_neg (hplace ▸ hge),placed_insert hp',← masked_new id]
    simp only [Board.masked,List.map_append,List.map_cons,List.append_assoc]
  | @queueUp _ _ _ _ _ l r hpre hb hp hfull =>
    have hcount := hbusy hfull
    have hjobs : b.masked.jobs = l.map JobT.masked ++ r.map JobT.masked := by simp [Board.masked,hb]
    simp only [Board.arrive]
    rw [if_neg hcount,if_neg (by simp [hpre]),hjobs,placed_insert (placed_masked hp),← masked_new id]
    simp only [Board.masked,List.map_append,List.map_cons]

end OperatingSystemLabs.Scheduler

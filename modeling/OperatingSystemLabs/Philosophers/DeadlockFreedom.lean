import Mathlib.Data.Fintype.Basic
import OperatingSystemLabs.Philosophers.Ownership

namespace OperatingSystemLabs.Philosophers.Asymmetric

open LockOrder

def wants {n : Nat} (t : Table n) (id : Fin n) : Option (Fin n) :=
  match (t.diners id).next with
  | .lockFirst => some (firstChop id)
  | .lockSecond => some (secondChop id)
  | _ => none

structure Owned {n : Nat} (t : Table n) : Prop where
  held : ∀ chop, t.chopstick chop = true ↔ ∃ id, holds t id chop
  sole : ∀ chop i j, holds t i chop → holds t j chop → i = j
  seated : ∀ id, (t.diners id).next ≠ .returned

-- Even chopsticks are taken first and odd ones second, but for an odd number of philosophers
-- the last one, which is even, is first for its left neighbour and second for philosopher 0.
def chopRank {n : Nat} (chop : Fin n) : Nat :=
  if chop.val % 2 = 1 then 2 else if chop.val = n - 1 then 1 else 0

variable {n : Nat} {t t' : Table n} {id : Fin n} {me : Philosopher}

theorem chopRank_ascends (hn : 2 ≤ n) (id : Fin n) : chopRank (firstChop id) < chopRank (secondChop id) := by
  have hid := id.isLt
  by_cases heven : id.val % 2 = 0
  · rw [firstChop,secondChop,if_pos heven,if_pos heven,leftChop,rightChop]
    by_cases hzero : id.val = 0
    · simp only [if_pos hzero,chopRank]
      split_ifs <;> omega
    · simp only [if_neg hzero,chopRank]
      split_ifs <;> omega
  · have hzero : ¬ id.val = 0 := fun h => heven (by rw [h])
    rw [firstChop,secondChop,if_neg heven,if_neg heven,leftChop,rightChop,if_neg hzero]
    simp only [chopRank]
    split_ifs <;> omega

theorem thread_owned (hn : 2 ≤ n) (h : Owned t) (hstop : t.stop = false) {rnd : Nat × Nat}
    (hstep : dpThread t id rnd = some t') : Owned t' := by
  have howned (chop : Fin n) : OwnedAt t' chop := thread_owned_at hn ⟨h.held chop,h.sole chop⟩ hstep
  refine ⟨fun chop => (howned chop).held,fun chop => (howned chop).sole,fun j hj => ?_⟩
  obtain ⟨me,hframe⟩ := thread_frame hstep
  rw [hframe.diners] at hj
  by_cases hid : j = id
  · rw [hid,Function.update_self] at hj
    rw [hframe.returns hj] at hstop
    cases hstop
  · rw [Function.update_of_ne hid] at hj
    exact h.seated j hj

theorem shutDown_main (h : shutDown t = some t') : t'.main ≠ .waiting := by
  rw [shutDown] at h
  split at h
  · cases h
    nofun
  · split at h <;> cases h <;> nofun
  · cases h

theorem reachable_stopped (h : Reachable n t) : t.main = .waiting ∨ t.stop = true := by
  induction h with
  | start => exact .inl rfl
  | @philosopher t t' id rnd _ hstep ih =>
    obtain ⟨me,hframe⟩ := thread_frame hstep
    rw [hframe.stop,hframe.main]
    exact ih
  | @main t t' _ hstep ih =>
    rw [shutDown] at hstep
    split at hstep
    · cases hstep
      exact .inr rfl
    · next hmain =>
      have hstop := ih.resolve_left (by rw [hmain]; nofun)
      split at hstep <;> cases hstep <;> exact .inr hstop
    · cases hstep

theorem reachable_owned (hn : 2 ≤ n) (h : Reachable n t) (hstop : t.stop = false) : Owned t := by
  induction h with
  | start => exact ⟨fun chop => by simp [setTable,holds,grips],nofun,nofun⟩
  | @philosopher t t' id rnd _ hstep ih =>
    obtain ⟨me,hframe⟩ := thread_frame hstep
    rw [hframe.stop] at hstop
    exact thread_owned hn (ih hstop) hstop hstep
  | @main t t' h hstep _ =>
    have hset := (reachable_stopped (.main h hstep)).resolve_left (shutDown_main hstep)
    rw [hstop] at hset
    cases hset

theorem owned_ascending (hn : 2 ≤ n) : Ascending chopRank (wants t) (holds t) := by
  intro id k l hwants hholds
  rw [wants] at hwants
  rw [holds] at hholds
  split at hwants
  · next hs =>
    rw [hs] at hholds
    exact hholds.elim
  · next hs =>
    rw [hs] at hholds
    obtain rfl := Option.some.inj hwants
    obtain rfl : l = firstChop id := hholds
    exact chopRank_ascends hn id
  · cases hwants

theorem lock_blocked {chop : Fin n} : (t.mutexLock chop).map (·.seat id me) = none ↔ t.chopstick chop = true := by
  rw [Option.map_eq_none_iff,Table.mutexLock]
  split <;> simp [*]

theorem blocked_iff (h : Owned t) (id : Fin n) (rnd : Nat × Nat) :
    dpThread t id rnd = none ↔ ∃ j, Waits (wants t) (holds t) id j := by
  have hnever (hw : wants t id = none) : ¬ ∃ j, Waits (wants t) (holds t) id j := by
    rintro ⟨j,k,hk,-⟩
    simp [hw] at hk
  have hlock {chop : Fin n} (hw : wants t id = some chop) :
      t.chopstick chop = true ↔ ∃ j, Waits (wants t) (holds t) id j := by
    rw [h.held chop]
    constructor
    · rintro ⟨j,hj⟩
      exact ⟨j,chop,hw,hj⟩
    · rintro ⟨j,k,hk,hj⟩
      rw [hw] at hk
      obtain rfl := Option.some.inj hk
      exact ⟨j,hj⟩
  have hseated := h.seated id
  simp only [dpThread]
  split
  case h_3 hs => exact lock_blocked.trans (hlock (by rw [wants,hs]))
  case h_4 hs => exact lock_blocked.trans (hlock (by rw [wants,hs]))
  case h_8 hs => exact absurd hs hseated
  all_goals
    next hs =>
      refine iff_of_false ?_ (hnever (by rw [wants,hs]))
      try split
      all_goals simp

theorem asymmetric_never_deadlocks (hn : 2 ≤ n) (h : Reachable n t) (hstop : t.stop = false) :
    (∃ id, ∀ rnd, ∃ t', dpThread t id rnd = some t') ∧
    (∀ id rnd, dpThread t id rnd = none ↔ ∃ j, Waits (wants t) (holds t) id j) ∧
    ∀ s, ¬ CircularWait (wants t) (holds t) s := by
  have howned := reachable_owned hn h hstop
  have : Nonempty (Fin n) := ⟨⟨0,by omega⟩⟩
  obtain ⟨id,hfree⟩ := exists_unblocked (owned_ascending hn (t := t))
  refine ⟨⟨id,fun rnd => ?_⟩,fun id rnd => blocked_iff howned id rnd,
    no_circular_wait (owned_ascending hn)⟩
  refine Option.ne_none_iff_exists'.mp (fun hnone => ?_)
  obtain ⟨j,hj⟩ := (blocked_iff howned id rnd).mp hnone
  exact hfree j hj

theorem asymmetric_never_deadlocks_locked :
    ∃ t : Table 3, t.chopstick 0 = true ∧ ∃ id, ∀ rnd, ∃ t', dpThread t id rnd = some t' := by
  have h1 := Reachable.philosopher 0 (0,0) (.start (n := 3)) rfl
  have h2 := Reachable.philosopher 0 (0,0) h1 rfl
  have h3 := Reachable.philosopher 0 (0,0) h2 rfl
  exact ⟨_,rfl,(asymmetric_never_deadlocks (by decide) h3 rfl).1⟩

end OperatingSystemLabs.Philosophers.Asymmetric

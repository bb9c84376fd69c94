import OperatingSystemLabs.Philosophers.Discipline

namespace OperatingSystemLabs.Philosophers.Symmetric

open Asymmetric (Table Philosopher Statement MainThread setTable shutDown)
open Interleaving

variable {n : Nat}

def dpThread (t : Table n) (id : Fin n) (rnd : Nat × Nat) : Option (Table n) :=
  let me := t.diners id
  match me.next with
  | .testStop =>
      if t.stop then some (t.seat id { me with next := .returned })
      else some (t.seat id { next := .think, thinkRnd := rnd.1 % 1000, eatRnd := rnd.2 % 100, i := 0 })
  | .think =>
      if me.i < me.thinkRnd then some (t.seat id { me with i := me.i + 1 })
      else some (t.seat id { me with next := .lockFirst })
  | .lockFirst => (t.mutexLock (leftChop id)).map (·.seat id { me with next := .lockSecond })
  | .lockSecond => (t.mutexLock (rightChop id)).map (·.seat id { me with next := .eat, i := 0 })
  | .eat =>
      if me.i < me.eatRnd then some (t.seat id { me with i := me.i + 1 })
      else some (t.seat id { me with next := .unlockRight })
  | .unlockRight => some ((t.mutexUnlock (rightChop id)).seat id { me with next := .unlockLeft })
  | .unlockLeft => some ((t.mutexUnlock (leftChop id)).seat id { me with next := .testStop })
  | .returned => none

theorem thread_symmetric : thread leftChop rightChop = dpThread (n := n) := rfl

def Steps (t : Table n) (actor : Option (Fin n)) (t' : Table n) : Prop :=
  match actor with
  | some id => ∃ rnd, dpThread t id rnd = some t'
  | none => shutDown t = some t'

theorem acts_symmetric : Acts leftChop rightChop = Steps (n := n) := by
  funext t actor t'
  cases actor <;> rfl

def Run (n : Nat) (tr : List (Table n × Option (Fin n))) (t : Table n) : Prop := Trace Steps (setTable n) tr t

def Deadlocked (t : Table n) : Prop := ∀ id, (t.diners id).next = .lockSecond

variable {t t' : Table n} {tr : List (Table n × Option (Fin n))} {actor : Option (Fin n)}

theorem beside : Beside (leftChop (n := n)) rightChop := fun _ _ => Iff.rfl

theorem run_acts : Run n tr t ↔ Trace (Acts leftChop rightChop) (setTable n) tr t := by rw [Run,acts_symmetric]

theorem run_exclusive (hn : 2 ≤ n) (h : Run n tr t) (hstop : t.stop = false) : Exclusive leftChop t := by
  rw [run_acts] at h
  induction h with
  | start => exact ⟨fun _ _ h => h.elim,fun _ _ _ h => h.elim⟩
  | @snoc tr s t actor hrun hstep ih =>
    have hfree : s.stop = false := by
      rw [Bool.eq_false_iff]
      exact fun hset => absurd (((acts_stop hn beside hstep).1 hset).symm.trans hstop) (by decide)
    cases actor with
    | none =>
      have hw : s.main = .waiting := by
        by_contra hne
        exact absurd ((run_sound hn beside hrun).stop.mpr hne) (by simp [hfree])
      change shutDown s = some t at hstep
      simp only [shutDown,hw] at hstep
      cases hstep
      cases hstop
    | some id =>
      obtain ⟨rnd,hstep⟩ := hstep
      obtain ⟨me,hp⟩ := thread_proceeds hn beside hstep
      exact hp.exclusive (ih hfree)

-- A philosopher who waits for the left chopstick waits for somebody who can move.
theorem stuck_deadlocked (hs : Sound leftChop t) (hstop : t.stop = false)
    (hstuck : ∀ id rnd, dpThread t id rnd = none) : Deadlocked t := by
  have hnext (id : Fin n) := thread_none_iff.mp (hstuck id (0,0))
  have hseated (id : Fin n) : (t.diners id).next ≠ .returned := fun hret => by
    have hset := hs.returned id hret
    rw [hstop] at hset
    cases hset
  intro id
  rcases hnext id with ⟨hfirst,hchop⟩ | ⟨hsecond,-⟩ | hret
  · obtain ⟨j,hj⟩ := hs.backed _ hchop
    rcases hnext j with ⟨hj',-⟩ | ⟨hj',-⟩ | hj'
    · rw [hj'] at hj
      exact hj.elim
    · rw [hj'] at hj
      obtain rfl : id = j := hj
      exact absurd (hfirst.symm.trans hj') (by decide)
    · exact absurd hj' (hseated j)
  · exact hsecond
  · exact absurd hret (hseated id)

theorem deadlocked_stuck (he : Exclusive leftChop t) (hd : Deadlocked t) (id : Fin n) (rnd : Nat × Nat) :
    dpThread t id rnd = none := by
  refine thread_none_iff.mpr (.inr (.inl ⟨hd id,he.kept (rightPhil id) _ ?_⟩))
  rw [hd (rightPhil id)]
  exact rfl

def lineup (k : Nat) (a b : Philosopher) : Fin n → Philosopher := fun j => if j.val < k then b else a

theorem lineup_here {k : Nat} (hk : k < n) (a b : Philosopher) : lineup k a b ⟨k,hk⟩ = a := if_neg (Nat.lt_irrefl k)

theorem lineup_seat {k : Nat} (hk : k < n) (a b : Philosopher) :
    Function.update (lineup k a b) ⟨k,hk⟩ b = lineup (k + 1) a b := by
  funext j
  by_cases hj : j = ⟨k,hk⟩
  · rw [hj,Function.update_self]
    exact (if_pos (Nat.lt_succ_self k)).symm
  · have hne : j.val ≠ k := fun h => hj (Fin.ext h)
    rw [Function.update_of_ne hj,lineup,lineup]
    exact if_congr (by omega) rfl rfl

theorem everybody_moves {a b : Philosopher} (stop : Bool) (main : MainThread) (chops : Nat → Fin n → Bool)
    (h : ∀ k (hk : k < n), dpThread ⟨stop,chops k,lineup k a b,main⟩ ⟨k,hk⟩ (0,0) =
      some ⟨stop,chops (k + 1),lineup (k + 1) a b,main⟩) :
    ∃ tr, Trace Steps ⟨stop,chops 0,fun _ => a,main⟩ tr ⟨stop,chops n,fun _ => b,main⟩ := by
  have hfirst : lineup 0 a b = fun _ : Fin n => a := funext fun j => if_neg (Nat.not_lt_zero j.val)
  have hlast : lineup n a b = fun _ : Fin n => b := funext fun j => if_pos j.isLt
  rw [← hfirst,← hlast]
  let tables (k : Nat) : Table n := ⟨stop,chops k,lineup k a b,main⟩
  exact trace_through tables n fun k hk => ⟨some ⟨k,hk⟩,(0,0),h k hk⟩

theorem everybody_sits (n : Nat) :
    ∃ tr, Run n tr ⟨false,fun _ => false,fun _ => ⟨.think,0,0,0⟩,.waiting⟩ :=
  everybody_moves false .waiting (fun _ _ => false) fun k hk => by
    rw [← lineup_seat hk]
    simp [dpThread,lineup_here,Table.seat]

theorem everybody_grabs (n : Nat) (stop : Bool) (main : MainThread) :
    ∃ tr, Trace Steps ⟨stop,fun _ : Fin n => false,fun _ => ⟨.think,0,0,0⟩,main⟩ tr
      ⟨stop,fun _ => true,fun _ => ⟨.lockSecond,0,0,0⟩,main⟩ := by
  have hhungry : ∃ tr, Trace Steps ⟨stop,fun _ : Fin n => false,fun _ => ⟨.think,0,0,0⟩,main⟩ tr
      ⟨stop,fun _ => false,fun _ => ⟨.lockFirst,0,0,0⟩,main⟩ :=
    everybody_moves stop main (fun _ _ => false) fun k hk => by
      rw [← lineup_seat hk]
      simp [dpThread,lineup_here,Table.seat]
  have hlock {k : Nat} (hk : k < n) : Function.update (fun j : Fin n => decide (j.val < k)) ⟨k,hk⟩ true =
      fun j => decide (j.val < k + 1) := by
    funext j
    by_cases hj : j = ⟨k,hk⟩
    · simp [hj]
    · have hne : j.val ≠ k := fun h => hj (Fin.ext h)
      rw [Function.update_of_ne hj]
      exact decide_eq_decide.mpr (by omega)
  have hgrab : ∃ tr, Trace Steps ⟨stop,fun j : Fin n => decide (j.val < 0),fun _ => ⟨.lockFirst,0,0,0⟩,main⟩ tr
      ⟨stop,fun j => decide (j.val < n),fun _ => ⟨.lockSecond,0,0,0⟩,main⟩ :=
    everybody_moves stop main (fun k j => decide (j.val < k)) fun k hk => by
      rw [← lineup_seat hk,← hlock hk]
      simp [dpThread,lineup_here,Table.seat,Table.mutexLock,leftChop]
  simp only [Nat.not_lt_zero,Fin.is_lt,decide_true,decide_false] at hgrab
  obtain ⟨tr,htr⟩ := hhungry
  obtain ⟨tr',htr'⟩ := hgrab
  exact ⟨_,htr.append htr'⟩

theorem symmetric_deadlock (hn : 2 ≤ n) :
    (∀ tr (t : Table n), Run n tr t → t.stop = false → ((∀ id rnd, dpThread t id rnd = none) ↔ Deadlocked t)) ∧
      ∃ tr t, Run n tr t ∧ t.stop = false ∧ Deadlocked t := by
  constructor
  · intro tr t h hstop
    exact ⟨stuck_deadlocked (run_sound hn beside (run_acts.mp h)) hstop,deadlocked_stuck (run_exclusive hn h hstop)⟩
  · obtain ⟨tr,htr⟩ := everybody_sits n
    obtain ⟨tr',htr'⟩ := everybody_grabs n false .waiting
    exact ⟨_,_,htr.append htr',rfl,fun _ => rfl⟩

theorem symmetric_deadlock_five : ∃ tr t, Run 5 tr t ∧ t.stop = false ∧ Deadlocked t :=
  (symmetric_deadlock (by decide)).2

end OperatingSystemLabs.Philosophers.Symmetric

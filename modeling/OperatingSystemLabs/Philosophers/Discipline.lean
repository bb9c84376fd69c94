import Mathlib.Algebra.BigOperators.Group.Finset.Basic
import Mathlib.Algebra.Order.BigOperators.Group.Finset
import OperatingSystemLabs.Philosophers.DeadlockFreedom
import OperatingSystemLabs.Philosophers.Shutdown

namespace OperatingSystemLabs.Philosophers

open Asymmetric Interleaving

variable {n : Nat}

def thread (first second : Fin n → Fin n) (t : Table n) (id : Fin n) (rnd : Nat × Nat) : Option (Table n) :=
  let me := t.diners id
  match me.next with
  | .testStop =>
      if t.stop then some (t.seat id { me with next := .returned })
      else some (t.seat id { next := .think, thinkRnd := rnd.1 % 1000, eatRnd := rnd.2 % 100, i := 0 })
  | .think =>
      if me.i < me.thinkRnd then some (t.seat id { me with i := me.i + 1 })
      else some (t.seat id { me with next := .lockFirst })
  | .lockFirst => (t.mutexLock (first id)).map (·.seat id { me with next := .lockSecond })
  | .lockSecond => (t.mutexLock (second id)).map (·.seat id { me with next := .eat, i := 0 })
  | .eat =>
      if me.i < me.eatRnd then some (t.seat id { me with i := me.i + 1 })
      else some (t.seat id { me with next := .unlockRight })
  | .unlockRight => some ((t.mutexUnlock (rightChop id)).seat id { me with next := .unlockLeft })
  | .unlockLeft => some ((t.mutexUnlock (leftChop id)).seat id { me with next := .testStop })
  | .returned => none

theorem thread_asymmetric : thread firstChop secondChop = dpThread (n := n) := rfl

def takes (first : Fin n → Fin n) (s : Statement) (id chop : Fin n) : Prop :=
  match s with
  | .lockSecond => chop = first id
  | .eat => chop = leftChop id ∨ chop = rightChop id
  | .unlockRight => chop = leftChop id ∨ chop = rightChop id
  | .unlockLeft => chop = leftChop id
  | _ => False

inductive Handles (first second : Fin n → Fin n) (t : Table n) (id : Fin n) (me : Philosopher) (t' : Table n) : Prop
  | quiet : t'.chopstick = t.chopstick →
      (∀ chop, takes first me.next id chop ↔ takes first (t.diners id).next id chop) →
      Handles first second t id me t'
  | lock (k : Fin n) : t.chopstick k = false → t'.chopstick = Function.update t.chopstick k true →
      ((t.diners id).next ≠ .lockFirst → k = second id) →
      (∀ chop, takes first me.next id chop ↔ takes first (t.diners id).next id chop ∨ chop = k) →
      Handles first second t id me t'
  | unlock (k : Fin n) : takes first (t.diners id).next id k → t'.chopstick = Function.update t.chopstick k false →
      (∀ chop, takes first me.next id chop ↔ takes first (t.diners id).next id chop ∧ chop ≠ k) →
      Handles first second t id me t'

def remaining (me : Philosopher) : Nat :=
  match me.next with
  | .testStop => 1
  | .think => 7 + me.eatRnd + (me.thinkRnd - me.i)
  | .lockFirst => 6 + me.eatRnd
  | .lockSecond => 5 + me.eatRnd
  | .eat => 4 + (me.eatRnd - me.i)
  | .unlockRight => 3
  | .unlockLeft => 2
  | .returned => 0

structure Proceeds (first second : Fin n → Fin n) (t : Table n) (id : Fin n) (me : Philosopher) (t' : Table n) :
    Prop where
  frame : Framed t id me t'
  handles : Handles first second t id me t'
  shorter : remaining me < remaining (t.diners id) ∨ (t.stop = false ∧ remaining me ≤ 1105)
  past : t.stop = true → (t.diners id).next ≠ .think → (t.diners id).next ≠ .lockFirst →
    me.next ≠ .think ∧ me.next ≠ .lockFirst

variable {first second : Fin n → Fin n} {t t' : Table n} {id k : Fin n} {rnd : Nat × Nat} {me : Philosopher}

theorem lock_handles (h : (t.mutexLock k).map (·.seat id me) = some t')
    (hk : (t.diners id).next ≠ .lockFirst → k = second id)
    (hg : ∀ chop, takes first me.next id chop ↔ takes first (t.diners id).next id chop ∨ chop = k) :
    Handles first second t id me t' := by
  rw [Table.mutexLock] at h
  split at h
  · cases h
  · next hfree =>
    obtain rfl := Option.some.inj h
    exact .lock k (Bool.eq_false_iff.mpr hfree) rfl hk hg

theorem thread_proceeds (hn : 2 ≤ n) (hpair : ∀ id chop : Fin n, chop = leftChop id ∨ chop = rightChop id ↔
    chop = first id ∨ chop = second id) (h : thread first second t id rnd = some t') :
    ∃ me, Proceeds first second t id me t' := by
  simp only [thread] at h
  split at h
  · next hs =>
    split at h
    · next hstop =>
      cases h
      refine ⟨_,⟨rfl,rfl,rfl,fun _ => hstop⟩,.quiet rfl fun chop => by simp [takes,hs],.inl ?_,
        fun _ _ _ => ⟨nofun,nofun⟩⟩
      simp [remaining,hs]
    · next hstop =>
      cases h
      refine ⟨_,⟨rfl,rfl,rfl,nofun⟩,.quiet rfl fun chop => by simp [takes,hs],.inr ⟨?_,?_⟩,fun h => absurd h hstop⟩
      · exact Bool.eq_false_iff.mpr hstop
      · simp only [remaining]
        omega
  · next hs =>
    split at h
    · next hi =>
      cases h
      refine ⟨_,⟨rfl,rfl,rfl,fun hr => nomatch hs.symm.trans hr⟩,.quiet rfl fun chop => Iff.rfl,.inl ?_,
        fun _ hne => absurd hs hne⟩
      simp only [remaining,hs]
      omega
    · next hi =>
      cases h
      refine ⟨_,⟨rfl,rfl,rfl,nofun⟩,.quiet rfl fun chop => by simp [takes,hs],.inl ?_,fun _ hne => absurd hs hne⟩
      simp only [remaining,hs]
      omega
  · next hs =>
    refine ⟨_,lock_frame (by nofun) h,lock_handles h (absurd hs) fun chop => by simp [takes,hs],.inl ?_,
      fun _ _ hne => absurd hs hne⟩
    simp [remaining,hs]
  · next hs =>
    refine ⟨_,lock_frame (by nofun) h,lock_handles h (fun _ => rfl) fun chop => ?_,.inl ?_,fun _ _ _ => ⟨nofun,nofun⟩⟩
    · rw [hs]
      exact hpair id chop
    · simp only [remaining,hs]
      omega
  · next hs =>
    split at h
    · next hi =>
      cases h
      refine ⟨_,⟨rfl,rfl,rfl,fun hr => nomatch hs.symm.trans hr⟩,.quiet rfl fun chop => Iff.rfl,.inl ?_,
        fun _ hthink hlock => ⟨hthink,hlock⟩⟩
      simp only [remaining,hs]
      omega
    · next hi =>
      cases h
      refine ⟨_,⟨rfl,rfl,rfl,nofun⟩,.quiet rfl fun chop => by simp [takes,hs],.inl ?_,fun _ _ _ => ⟨nofun,nofun⟩⟩
      simp only [remaining,hs]
      omega
  · next hs =>
    cases h
    refine ⟨_,⟨rfl,rfl,rfl,nofun⟩,.unlock (rightChop id) ?_ rfl fun chop => ?_,.inl ?_,fun _ _ _ => ⟨nofun,nofun⟩⟩
    · rw [hs]
      exact .inr rfl
    · rw [hs]
      constructor
      · intro hc
        exact ⟨.inl hc,hc ▸ left_ne_right hn id⟩
      · rintro ⟨hc | hc,hr⟩
        · exact hc
        · exact absurd hc hr
    · simp [remaining,hs]
  · next hs =>
    cases h
    refine ⟨_,⟨rfl,rfl,rfl,nofun⟩,.unlock (leftChop id) ?_ rfl fun chop => ?_,.inl ?_,fun _ _ _ => ⟨nofun,nofun⟩⟩
    · rw [hs]
      exact rfl
    · rw [hs]
      exact ⟨False.elim,fun hc => hc.2 hc.1⟩
    · simp [remaining,hs]
  · cases h

def Backed (first : Fin n → Fin n) (t : Table n) : Prop :=
  ∀ k, t.chopstick k = true → ∃ id, takes first (t.diners id).next id k

structure Exclusive (first : Fin n → Fin n) (t : Table n) : Prop where
  kept : ∀ id k, takes first (t.diners id).next id k → t.chopstick k = true
  sole : ∀ i j k, takes first (t.diners i).next i k → takes first (t.diners j).next j k → i = j

theorem Proceeds.self (h : Proceeds first second t id me t') : t'.diners id = me := by
  rw [h.frame.diners,Function.update_self]

theorem Proceeds.other (h : Proceeds first second t id me t') {j : Fin n} (hj : j ≠ id) : t'.diners j = t.diners j := by
  rw [h.frame.diners,Function.update_of_ne hj]

theorem Proceeds.backed (h : Proceeds first second t id me t') (hb : Backed first t) : Backed first t' := by
  have hkeep {k : Fin n} (hk : t.chopstick k = true)
      (hg : takes first (t.diners id).next id k → takes first me.next id k) :
      ∃ j, takes first (t'.diners j).next j k := by
    obtain ⟨j,hj⟩ := hb k hk
    by_cases hji : j = id
    · subst hji
      exact ⟨j,h.self ▸ hg hj⟩
    · exact ⟨j,(h.other hji).symm ▸ hj⟩
  intro k hk
  cases h.handles with
  | quiet hchop hg =>
    rw [hchop] at hk
    exact hkeep hk (hg k).mpr
  | lock c hfree hchop _ hg =>
    by_cases hkc : k = c
    · exact ⟨id,h.self ▸ (hg k).mpr (.inr hkc)⟩
    · rw [hchop,Function.update_of_ne hkc] at hk
      exact hkeep hk fun hold => (hg k).mpr (.inl hold)
  | unlock c hmine hchop hg =>
    by_cases hkc : k = c
    · rw [hchop,hkc,Function.update_self] at hk
      cases hk
    · rw [hchop,Function.update_of_ne hkc] at hk
      exact hkeep hk fun hold => (hg k).mpr ⟨hold,hkc⟩

theorem Proceeds.exclusive (h : Proceeds first second t id me t') (he : Exclusive first t) : Exclusive first t' := by
  have htake {j k : Fin n} (hj : takes first (t'.diners j).next j k) :
      takes first (t.diners j).next j k ∨ (j = id ∧ t.chopstick k = false ∧ t'.chopstick k = true) := by
    by_cases hji : j = id
    · subst hji
      rw [h.self] at hj
      cases h.handles with
      | quiet _ hg => exact .inl ((hg k).mp hj)
      | unlock _ _ _ hg => exact .inl ((hg k).mp hj).1
      | lock c hfree hchop _ hg =>
        rcases (hg k).mp hj with hold | rfl
        · exact .inl hold
        · exact .inr ⟨rfl,hfree,hchop ▸ Function.update_self ..⟩
    · exact .inl (h.other hji ▸ hj)
  constructor
  · intro j k hj
    rcases htake hj with hold | ⟨-,-,hk⟩
    · have hk := he.kept j k hold
      cases h.handles with
      | quiet hchop _ => rwa [hchop]
      | lock c _ hchop _ _ =>
        rw [hchop]
        by_cases hkc : k = c
        · rw [hkc,Function.update_self]
        · rwa [Function.update_of_ne hkc]
      | unlock c hmine hchop hg =>
        rw [hchop]
        by_cases hkc : k = c
        · subst hkc
          obtain rfl := he.sole j id k hold hmine
          rw [h.self] at hj
          exact absurd rfl ((hg k).mp hj).2
        · rwa [Function.update_of_ne hkc]
    · exact hk
  · intro i j k hi hj
    rcases htake hi with hi | ⟨rfl,hfree,-⟩ <;> rcases htake hj with hj | ⟨rfl,hfree',-⟩
    · exact he.sole i j k hi hj
    · exact absurd (he.kept i k hi) (by simp [hfree'])
    · exact absurd (he.kept j k hj) (by simp [hfree])
    · rfl

theorem shutDown_backed (hb : Backed first t) (h : shutDown t = some t') : Backed first t' := by
  rw [shutDown] at h
  split at h
  · cases h
    exact hb
  · split at h
    · next i hmain hi =>
      cases h
      intro k hk
      by_cases hki : k = ⟨i,hi⟩
      · rw [hki] at hk
        exact absurd hk (by simp [Table.mutexUnlock])
      · exact hb k ((Function.update_of_ne hki ..).symm.trans hk)
    · cases h
      exact hb
  · cases h

theorem thread_none_iff : thread first second t id rnd = none ↔
    ((t.diners id).next = .lockFirst ∧ t.chopstick (first id) = true) ∨
      ((t.diners id).next = .lockSecond ∧ t.chopstick (second id) = true) ∨ (t.diners id).next = .returned := by
  simp only [thread]
  split
  case h_3 hs => exact lock_blocked.trans (by simp [hs])
  case h_4 hs => exact lock_blocked.trans (by simp [hs])
  case h_8 hs => simp [hs]
  all_goals
    next hs =>
      refine iff_of_false ?_ (by simp [hs])
      try split
      all_goals simp

theorem shutDown_none_iff : shutDown t = none ↔ t.main = .joining := by
  rw [shutDown]
  split
  · next h => simp [h]
  · next h =>
    rw [h]
    split <;> simp
  · next h => simp [h]

-- A step of one of the threads; none is main.
def Acts (first second : Fin n → Fin n) (t : Table n) (actor : Option (Fin n)) (t' : Table n) : Prop :=
  match actor with
  | some id => ∃ rnd, thread first second t id rnd = some t'
  | none => shutDown t = some t'

theorem acts_asymmetric : Acts firstChop secondChop = Steps (n := n) := by
  funext t actor t'
  cases actor <;> rfl

def Beside (first second : Fin n → Fin n) : Prop :=
  ∀ id chop, chop = leftChop id ∨ chop = rightChop id ↔ chop = first id ∨ chop = second id

def mainLeft (n : Nat) : MainThread → Nat
  | .waiting => n + 2
  | .releasing i => n - i + 1
  | .joining => 0

def stepsLeft (t : Table n) : Nat := ∑ id, remaining (t.diners id) + mainLeft n t.main

structure Sound (first : Fin n → Fin n) (t : Table n) : Prop where
  stop : t.stop = true ↔ t.main ≠ .waiting
  backed : Backed first t
  bounded : ∀ id, remaining (t.diners id) ≤ 1105
  returned : ∀ id, (t.diners id).next = .returned → t.stop = true

variable {actor : Option (Fin n)} {tr : List (Table n × Option (Fin n))}

theorem shutDown_sound (hs : Sound first t) (h : shutDown t = some t') : Sound first t' := by
  have hb := shutDown_backed hs.backed h
  rw [shutDown] at h
  split at h
  · cases h
    exact ⟨by simp,hb,hs.bounded,fun _ _ => rfl⟩
  · next i hmain =>
    have hstop : t.stop = true := hs.stop.mpr (by simp [hmain])
    split at h
    · cases h
      exact ⟨by simpa [Table.mutexUnlock] using hstop,hb,hs.bounded,hs.returned⟩
    · cases h
      exact ⟨by simpa using hstop,hb,hs.bounded,hs.returned⟩
  · cases h

theorem acts_sound (hn : 2 ≤ n) (hpair : Beside first second) (hs : Sound first t)
    (h : Acts first second t actor t') : Sound first t' := by
  cases actor with
  | none => exact shutDown_sound hs h
  | some id =>
    obtain ⟨rnd,h⟩ := h
    obtain ⟨me,hp⟩ := thread_proceeds hn hpair h
    refine ⟨?_,hp.backed hs.backed,fun j => ?_,fun j => ?_⟩
    · rw [hp.frame.stop,hp.frame.main]
      exact hs.stop
    · by_cases hj : j = id
      · subst hj
        rw [hp.self]
        exact hp.shorter.elim (fun hlt => hlt.le.trans (hs.bounded j)) fun hnew => hnew.2
      · rw [hp.other hj]
        exact hs.bounded j
    · rw [hp.frame.stop]
      by_cases hj : j = id
      · subst hj
        rw [hp.self]
        exact hp.frame.returns
      · rw [hp.other hj]
        exact hs.returned j

theorem start_sound : Sound first (setTable n) :=
  ⟨by simp [setTable],by simp [Backed,setTable],by simp [setTable,remaining],nofun⟩

theorem acts_stepsLeft (hn : 2 ≤ n) (hpair : Beside first second) (hs : Sound first t) (hstop : t.stop = true)
    (h : Acts first second t actor t') : stepsLeft t' < stepsLeft t := by
  cases actor with
  | none =>
    have hmain := hs.stop.mp hstop
    change shutDown t = some t' at h
    rw [shutDown] at h
    split at h
    · next hw => exact absurd hw hmain
    · next i hw =>
      split at h <;> cases h <;> simp only [stepsLeft,hw,mainLeft,Table.mutexUnlock] <;> omega
    · cases h
  | some id =>
    obtain ⟨rnd,h⟩ := h
    obtain ⟨me,hp⟩ := thread_proceeds hn hpair h
    have hlt := hp.shorter.resolve_right (by simp [hstop])
    rw [stepsLeft,stepsLeft,hp.frame.main]
    refine Nat.add_lt_add_right (Finset.sum_lt_sum (fun j _ => ?_) ⟨id,Finset.mem_univ id,?_⟩) _
    · by_cases hj : j = id
      · subst hj
        rw [hp.self]
        exact hlt.le
      · rw [hp.other hj]
    · rwa [hp.self]

theorem run_sound (hn : 2 ≤ n) (hpair : Beside first second) (h : Trace (Acts first second) (setTable n) tr t) :
    Sound first t := by
  have hall : Throughout (fun _ _ => True) tr := fun _ _ => trivial
  exact (h.invariant start_sound (fun _ _ _ hs _ hstep => acts_sound hn hpair hs hstep) hall).2

theorem acts_stop (hn : 2 ≤ n) (hpair : Beside first second) (h : Acts first second t actor t') :
    (t.stop = true → t'.stop = true) ∧
      (t.stop = false → t.main = .waiting → t'.stop = true → t'.main = .releasing 0) := by
  cases actor with
  | none =>
    change shutDown t = some t' at h
    rw [shutDown] at h
    split at h
    · cases h
      exact ⟨fun _ => rfl,fun _ _ _ => rfl⟩
    · next i hw =>
      split at h <;> cases h <;> exact ⟨id,fun _ hmain => absurd (hw.symm.trans hmain) (by simp)⟩
    · cases h
  | some id =>
    obtain ⟨rnd,h⟩ := h
    obtain ⟨me,hp⟩ := thread_proceeds hn hpair h
    rw [hp.frame.stop]
    exact ⟨fun hs => hs,fun hfree _ hset => absurd (hfree.symm.trans hset) (by decide)⟩

theorem sum_remaining_le (hs : Sound first t) : ∑ id, remaining (t.diners id) ≤ 1105 * n := by
  have hsum : ∑ id, remaining (t.diners id) ≤ ∑ _ : Fin n, 1105 := Finset.sum_le_sum fun id _ => hs.bounded id
  rwa [Finset.sum_const_nat (fun _ _ => rfl),Finset.card_univ,Fintype.card_fin,Nat.mul_comm] at hsum

theorem run_steps_bounded (hn : 2 ≤ n) (hpair : Beside first second)
    (h : Trace (Acts first second) (setTable n) tr t) :
    (t.stop = true → tr.countP (·.1.stop) + stepsLeft t ≤ 1106 * n + 1) ∧
      (t.stop = false → tr.countP (·.1.stop) = 0) := by
  induction h with
  | start => exact ⟨nofun,fun _ => rfl⟩
  | @snoc tr s t actor hrun hstep ih =>
    have hs := run_sound hn hpair hrun
    obtain ⟨hstays,hsets⟩ := acts_stop hn hpair hstep
    cases hstop : s.stop with
    | true =>
      have hlt := acts_stepsLeft hn hpair hs hstop hstep
      have hle := ih.1 hstop
      refine ⟨fun _ => ?_,fun hfree => absurd ((hstays hstop).symm.trans hfree) (by decide)⟩
      rw [List.countP_append,List.countP_singleton,if_pos hstop]
      omega
    | false =>
      have hzero : (tr ++ [(s,actor)]).countP (·.1.stop) = 0 := by
        rw [List.countP_append,ih.2 hstop,List.countP_singleton,if_neg (by simp [hstop])]
      refine ⟨fun hset => ?_,fun _ => hzero⟩
      have hw : s.main = .waiting := by
        by_contra hne
        exact absurd (hs.stop.mpr hne) (by simp [hstop])
      have hmain := hsets hstop hw hset
      have hsum := sum_remaining_le (acts_sound hn hpair hs hstep)
      rw [hzero,stepsLeft,hmain,mainLeft]
      omega

end OperatingSystemLabs.Philosophers

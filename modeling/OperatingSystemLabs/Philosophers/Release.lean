import OperatingSystemLabs.Philosophers.Symmetric

namespace OperatingSystemLabs.Philosophers.Asymmetric

open Interleaving LockOrder

variable {n : Nat} {t : Table n} {tr : List (Table n × Option (Fin n))}

theorem takes_grips (s : Statement) (id chop : Fin n) : takes firstChop s id chop ↔ grips s id chop := by
  cases s <;> exact Iff.rfl

theorem stuck_waits (hb : Backed firstChop t) (hstuck : ∀ id rnd, dpThread t id rnd = none) {id : Fin n}
    (hid : (t.diners id).next ≠ .returned) :
    ∃ j, (t.diners j).next ≠ .returned ∧ Waits (wants t) (holds t) id j := by
  have hback {k : Fin n} (hwant : wants t id = some k) (hk : t.chopstick k = true) :
      ∃ j, (t.diners j).next ≠ .returned ∧ Waits (wants t) (holds t) id j := by
    obtain ⟨j,hj⟩ := hb k hk
    refine ⟨j,fun hret => ?_,k,hwant,(takes_grips _ j k).mp hj⟩
    rw [hret] at hj
    exact hj
  rcases thread_none_iff.mp (hstuck id (0,0)) with ⟨hs,hk⟩ | ⟨hs,hk⟩ | hret
  · exact hback (by rw [wants,hs]) hk
  · exact hback (by rw [wants,hs]) hk
  · exact absurd hret hid

theorem asymmetric_always_finishes (hn : 2 ≤ n) (h : Run n tr t) :
    ((∀ actor t', ¬ Steps t actor t') → t.main = .joining ∧ ∀ id, (t.diners id).next = .returned) ∧
      tr.countP (·.1.stop) ≤ 1106 * n + 1 := by
  have hpair : Beside firstChop (secondChop (n := n)) := first_second
  have hrun : Trace (Acts firstChop secondChop) (setTable n) tr t := acts_asymmetric ▸ h
  constructor
  · intro hstuck
    have hmain : shutDown t = none := Option.eq_none_iff_forall_ne_some.mpr fun t' => hstuck none t'
    have hthread (id : Fin n) (rnd : Nat × Nat) : dpThread t id rnd = none :=
      Option.eq_none_iff_forall_ne_some.mpr fun t' hstep => hstuck (some id) t' ⟨rnd,hstep⟩
    refine ⟨shutDown_none_iff.mp hmain,?_⟩
    by_contra hsome
    obtain ⟨id,hid⟩ := not_forall.mp hsome
    refine no_circular_wait (owned_ascending hn (t := t))
      (Finset.univ.filter fun id => (t.diners id).next ≠ .returned) ?_
    refine ⟨⟨id,by simpa using hid⟩,fun i hi => ?_⟩
    obtain ⟨j,hj,hwaits⟩ := stuck_waits (run_sound hn hpair hrun).backed hthread (Finset.mem_filter.mp hi).2
    exact ⟨j,by simpa using hj,hwaits⟩
  · have hbound := run_steps_bounded hn hpair hrun
    cases hstop : t.stop with
    | true => exact (Nat.le_add_right ..).trans (hbound.1 hstop)
    | false => exact (hbound.2 hstop).trans_le (Nat.zero_le _)

theorem asymmetric_always_finishes_eating :
    ∃ tr t, Run 5 tr t ∧ t.stop = true ∧ Eating t 0 ∧ tr.countP (·.1.stop) ≤ 1106 * 5 + 1 := by
  have h1 := Run.moves .start (n := 5) 0 rfl
  have h2 := h1.moves 0 rfl
  have h3 := h2.moves 0 rfl
  have h4 := h3.moves 0 rfl
  have h5 := h4.shutsDown rfl
  have h6 := h5.shutsDown rfl
  exact ⟨_,_,h6,rfl,.inl rfl,(asymmetric_always_finishes (by decide) h6).2⟩

end OperatingSystemLabs.Philosophers.Asymmetric

namespace OperatingSystemLabs.Philosophers.Symmetric

open Asymmetric (Table MainThread setTable shutDown)
open Interleaving

variable {n : Nat} {t t' d : Table n} {tr tr' : List (Table n × Option (Fin n))} {actor : Option (Fin n)}

def Freed (k : Fin n) : MainThread → Prop
  | .waiting => False
  | .releasing i => k.val < i
  | .joining => True

-- From a deadlock on nobody wants a left chopstick, so that a freed one can only be with its right user.
structure Released (t : Table n) : Prop where
  stop : t.stop = true
  past : ∀ id, (t.diners id).next ≠ .think ∧ (t.diners id).next ≠ .lockFirst
  user : ∀ k, Freed k t.main → t.chopstick k = true → takes leftChop (t.diners (leftPhil k)).next (leftPhil k) k

theorem shutDown_released (hr : Released t) (hw : t.main ≠ .waiting) (h : shutDown t = some t') : Released t' := by
  rw [shutDown] at h
  split at h
  · next hmain => exact absurd hmain hw
  · next i hmain =>
    split at h
    · next hi =>
      cases h
      refine ⟨hr.stop,hr.past,fun k hk hchop => ?_⟩
      by_cases hki : k = ⟨i,hi⟩
      · rw [hki] at hchop
        exact absurd hchop (by simp [Table.mutexUnlock])
      · have hlt : k.val < i := Nat.lt_of_le_of_ne (Nat.lt_succ_iff.mp hk) fun h => hki (Fin.ext h)
        exact hr.user k (hmain ▸ hlt) ((Function.update_of_ne hki ..).symm.trans hchop)
    · next hi =>
      cases h
      exact ⟨hr.stop,hr.past,fun k _ hchop => hr.user k (hmain ▸ k.isLt.trans_le (not_lt.mp hi)) hchop⟩
  · cases h

theorem thread_released (hn : 2 ≤ n) (hr : Released t) {id : Fin n} {rnd : Nat × Nat}
    (h : dpThread t id rnd = some t') : Released t' := by
  obtain ⟨me,hp⟩ := thread_proceeds hn beside h
  have hpast := hr.past id
  have hkeep {k : Fin n} (hf : Freed k t'.main) (hk : t.chopstick k = true)
      (hg : takes leftChop (t.diners id).next id k → takes leftChop me.next id k) :
      takes leftChop (t'.diners (leftPhil k)).next (leftPhil k) k := by
    have hold := hr.user k (hp.frame.main ▸ hf) hk
    by_cases hid : leftPhil k = id
    · rw [hid] at hold ⊢
      rw [hp.self]
      exact hg hold
    · rwa [hp.other hid]
  refine ⟨hp.frame.stop.trans hr.stop,fun j => ?_,fun k hf hk => ?_⟩
  · by_cases hj : j = id
    · rw [hj,hp.self]
      exact hp.past hr.stop hpast.1 hpast.2
    · rw [hp.other hj]
      exact hr.past j
  · cases hp.handles with
    | quiet hchop hg =>
      rw [hchop] at hk
      exact hkeep hf hk (hg k).mpr
    | lock c _ hchop hsecond hg =>
      by_cases hkc : k = c
      · have hid : leftPhil k = id := by
          rw [hkc,hsecond hpast.2]
          exact left_right_phil id
        rw [hid,hp.self]
        exact (hg k).mpr (.inr hkc)
      · rw [hchop,Function.update_of_ne hkc] at hk
        exact hkeep hf hk fun hold => (hg k).mpr (.inl hold)
    | unlock c _ hchop hg =>
      by_cases hkc : k = c
      · rw [hchop,hkc,Function.update_self] at hk
        cases hk
      · rw [hchop,Function.update_of_ne hkc] at hk
        exact hkeep hf hk fun hold => (hg k).mpr ⟨hold,hkc⟩

theorem released_finishes (hn : 2 ≤ n) (hr : Released t)
    (hstuck : ∀ actor t', ¬ Steps t actor t') : t.main = .joining ∧ ∀ id, (t.diners id).next = .returned := by
  have hmain : t.main = .joining :=
    shutDown_none_iff.mp (Option.eq_none_iff_forall_ne_some.mpr fun t' => hstuck none t')
  refine ⟨hmain,fun id => ?_⟩
  have hthread : dpThread t id (0,0) = none :=
    Option.eq_none_iff_forall_ne_some.mpr fun t' hstep => hstuck (some id) t' ⟨(0,0),hstep⟩
  rcases thread_none_iff.mp hthread with ⟨hfirst,-⟩ | ⟨hsecond,hchop⟩ | hret
  · exact absurd hfirst (hr.past id).2
  · have huser := hr.user (rightChop id) (hmain ▸ trivial) hchop
    rw [show leftPhil (rightChop id) = id from left_right_phil id,hsecond] at huser
    exact absurd huser.symm (Asymmetric.left_ne_right hn id)
  · exact hret

theorem symmetric_release_works (hn : 2 ≤ n) (h : Run n tr d) (hstop : d.stop = false) (hd : Deadlocked d)
    (h' : Trace Steps d tr' t) :
    ((∀ actor t', ¬ Steps t actor t') → t.main = .joining ∧ ∀ id, (t.diners id).next = .returned) ∧
      tr'.length ≤ 1106 * n + 2 := by
  have hwait : d.main = .waiting := by
    by_contra hne
    exact absurd ((run_sound hn beside (run_acts.mp h)).stop.mpr hne) (by simp [hstop])
  have hlater : (t = d ∨ Released t) ∧ tr'.length + stepsLeft t ≤ stepsLeft d := by
    induction h' with
    | start => exact ⟨.inl rfl,by simp⟩
    | @snoc tr' s t actor hrun hstep ih =>
      have hs := run_sound hn beside (run_acts.mp (h.append hrun))
      obtain ⟨rfl | hr,hleft⟩ := ih
      · cases actor with
        | none =>
          change shutDown s = some t at hstep
          simp only [shutDown,hwait] at hstep
          cases hstep
          refine ⟨.inr ⟨rfl,fun id => by simp [hd id],fun k hk => absurd hk (Nat.not_lt_zero k.val)⟩,?_⟩
          simp only [stepsLeft,hwait,mainLeft,List.length_append,List.length_singleton] at hleft ⊢
          omega
        | some id =>
          obtain ⟨rnd,hstep⟩ := hstep
          rw [deadlocked_stuck (run_exclusive hn h hstop) hd id rnd] at hstep
          cases hstep
      · have hlt := acts_stepsLeft hn beside hs hr.stop (acts_symmetric ▸ hstep)
        refine ⟨.inr ?_,by simp only [List.length_append,List.length_singleton]; omega⟩
        cases actor with
        | none => exact shutDown_released hr (hs.stop.mp hr.stop) hstep
        | some id =>
          obtain ⟨rnd,hstep⟩ := hstep
          exact thread_released hn hr hstep
  obtain ⟨hcase,hleft⟩ := hlater
  constructor
  · intro hstuck
    rcases hcase with rfl | hr
    · refine absurd ?_ (hstuck none { t with stop := true, main := .releasing 0 })
      change shutDown t = _
      simp only [shutDown,hwait]
    · exact released_finishes hn hr hstuck
  · have hsum := sum_remaining_le (run_sound hn beside (run_acts.mp h))
    simp only [stepsLeft,hwait,mainLeft] at hleft
    omega

theorem symmetric_release_works_five : ∃ tr d, Run 5 tr d ∧ Deadlocked d ∧ ∀ tr' t, Trace Steps d tr' t →
    (∀ actor t', ¬ Steps t actor t') → ∀ id, (t.diners id).next = .returned := by
  obtain ⟨tr,hsit⟩ := everybody_sits 5
  obtain ⟨tr',hgrab⟩ := everybody_grabs 5 false .waiting
  exact ⟨_,_,hsit.append hgrab,fun _ => rfl,fun tr' t h hstuck =>
    ((symmetric_release_works (by decide) (hsit.append hgrab) rfl (fun _ => rfl) h).1 hstuck).2⟩

end OperatingSystemLabs.Philosophers.Symmetric

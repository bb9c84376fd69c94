import OperatingSystemLabs.Philosophers.Asymmetric

namespace OperatingSystemLabs.Philosophers.Asymmetric

def grips (s : Statement) {n : Nat} (id chop : Fin n) : Prop :=
  match s with
  | .lockSecond => chop = firstChop id
  | .eat => chop = leftChop id ∨ chop = rightChop id
  | .unlockRight => chop = leftChop id ∨ chop = rightChop id
  | .unlockLeft => chop = leftChop id
  | _ => False

def holds {n : Nat} (t : Table n) (id chop : Fin n) : Prop := grips (t.diners id).next id chop

structure OwnedAt {n : Nat} (t : Table n) (chop : Fin n) : Prop where
  held : t.chopstick chop = true ↔ ∃ id, holds t id chop
  sole : ∀ i j, holds t i chop → holds t j chop → i = j

variable {n : Nat} {t t' : Table n} {id k : Fin n} {me : Philosopher}

theorem left_ne_right (hn : 2 ≤ n) (id : Fin n) : leftChop id ≠ rightChop id := by
  have := id.isLt
  rw [leftChop,rightChop]
  split <;> (rw [Ne,Fin.ext_iff]; simp only; omega)

theorem first_second (id chop : Fin n) : chop = leftChop id ∨ chop = rightChop id ↔
    chop = firstChop id ∨ chop = secondChop id := by
  rw [firstChop,secondChop]
  split
  · exact Iff.rfl
  · exact or_comm

theorem OwnedAt.update (h : OwnedAt t k) (hdiners : t'.diners = Function.update t.diners id me)
    (hheld : t'.chopstick k = true ↔ grips me.next id k ∨ ∃ j ≠ id, holds t j k)
    (hsole : grips me.next id k → ∀ j ≠ id, ¬ holds t j k) : OwnedAt t' k := by
  have hself : holds t' id k ↔ grips me.next id k := by
    rw [holds,hdiners,Function.update_self]
  have hother {j : Fin n} (hj : j ≠ id) : holds t' j k ↔ holds t j k := by
    rw [holds,hdiners,Function.update_of_ne hj,holds]
  refine ⟨?_,fun i j hi hj => ?_⟩
  · rw [hheld]
    constructor
    · rintro (hg | ⟨j,hj,hh⟩)
      · exact ⟨id,hself.mpr hg⟩
      · exact ⟨j,(hother hj).mpr hh⟩
    · rintro ⟨j,hh⟩
      by_cases hj : j = id
      · subst hj
        exact .inl (hself.mp hh)
      · exact .inr ⟨j,hj,(hother hj).mp hh⟩
  · by_cases hi' : i = id <;> by_cases hj' : j = id
    · rw [hi',hj']
    · subst hi'
      exact absurd ((hother hj').mp hj) (hsole (hself.mp hi) j hj')
    · subst hj'
      exact absurd ((hother hi').mp hi) (hsole (hself.mp hj) i hi')
    · exact h.sole i j ((hother hi').mp hi) ((hother hj').mp hj)

theorem OwnedAt.others (h : OwnedAt t k) (id : Fin n) :
    t.chopstick k = true ↔ holds t id k ∨ ∃ j ≠ id, holds t j k := by
  rw [h.held]
  constructor
  · rintro ⟨j,hj⟩
    by_cases hji : j = id
    · exact .inl (hji ▸ hj)
    · exact .inr ⟨j,hji,hj⟩
  · rintro (hi | ⟨j,-,hj⟩)
    · exact ⟨id,hi⟩
    · exact ⟨j,hj⟩

theorem OwnedAt.keep (h : OwnedAt t k) (hg : grips me.next id k ↔ holds t id k) : OwnedAt (t.seat id me) k := by
  refine h.update rfl ?_ (fun hgrip j hj hh => ?_)
  · rw [hg]
    exact h.others id
  · exact hj (h.sole j id hh (hg.mp hgrip))

theorem OwnedAt.lock {chop : Fin n} (h : OwnedAt t k) (hg : grips me.next id k ↔ holds t id k ∨ k = chop)
    (hlock : (t.mutexLock chop).map (·.seat id me) = some t') : OwnedAt t' k := by
  rw [Table.mutexLock] at hlock
  split at hlock
  · cases hlock
  · next hfree =>
    obtain rfl := Option.some.inj hlock
    refine h.update rfl ?_ (fun hgrip j hj hh => ?_)
    · rw [hg]
      by_cases hk : k = chop
      · simp [Table.seat,hk]
      · simp only [Table.seat,Function.update_of_ne hk,h.others id,hk,or_false]
    · rcases hg.mp hgrip with hi | rfl
      · exact hj (h.sole j id hh hi)
      · exact hfree (h.held.mpr ⟨j,hh⟩)

theorem OwnedAt.unlock {chop : Fin n} (h : OwnedAt t k) (hmine : holds t id chop)
    (hg : grips me.next id k ↔ holds t id k ∧ k ≠ chop) : OwnedAt ((t.mutexUnlock chop).seat id me) k := by
  refine h.update rfl ?_ (fun hgrip j hj hh => ?_)
  · rw [hg]
    by_cases hk : k = chop
    · subst hk
      have hothers : ¬ ∃ j ≠ id, holds t j k := fun ⟨j,hj,hh⟩ => hj (h.sole j id hh hmine)
      simp [Table.mutexUnlock,Table.seat,hothers]
    · simp only [Table.mutexUnlock,Table.seat,Function.update_of_ne hk,h.others id,hk,ne_eq,
        not_false_eq_true,and_true]
  · exact hj (h.sole j id hh (hg.mp hgrip).1)

theorem thread_owned_at (hn : 2 ≤ n) (h : OwnedAt t k) {rnd : Nat × Nat} (hstep : dpThread t id rnd = some t') :
    OwnedAt t' k := by
  have hstate {s : Statement} (hs : (t.diners id).next = s) (chop : Fin n) :
      holds t id chop ↔ grips s id chop := by rw [holds,hs]
  simp only [dpThread] at hstep
  split at hstep
  · next hs =>
    split at hstep <;> cases hstep
    · exact h.keep (hstate hs k).symm
    · exact h.keep (hstate hs k).symm
  · next hs =>
    split at hstep <;> cases hstep
    · exact h.keep Iff.rfl
    · exact h.keep (hstate hs k).symm
  · next hs =>
    refine h.lock ?_ hstep
    rw [hstate hs]
    exact (false_or (k = firstChop id)).symm.to_iff
  · next hs =>
    refine h.lock ?_ hstep
    rw [hstate hs]
    exact first_second id k
  · next hs =>
    split at hstep <;> cases hstep
    · exact h.keep Iff.rfl
    · exact h.keep (hstate hs k).symm
  · next hs =>
    cases hstep
    refine h.unlock ((hstate hs _).mpr (.inr rfl)) ?_
    rw [hstate hs]
    constructor
    · intro hc
      exact ⟨.inl hc,hc ▸ left_ne_right hn id⟩
    · rintro ⟨hc | hc,hr⟩
      · exact hc
      · exact absurd hc hr
  · next hs =>
    cases hstep
    refine h.unlock ((hstate hs _).mpr rfl) ?_
    rw [hstate hs]
    exact ⟨False.elim,fun hc => hc.2 hc.1⟩
  · cases hstep

structure Framed (t : Table n) (id : Fin n) (me : Philosopher) (t' : Table n) : Prop where
  stop : t'.stop = t.stop
  main : t'.main = t.main
  diners : t'.diners = Function.update t.diners id me
  returns : me.next = .returned → t.stop = true

theorem lock_frame {chop : Fin n} (hret : me.next ≠ .returned)
    (h : (t.mutexLock chop).map (·.seat id me) = some t') : Framed t id me t' := by
  rw [Table.mutexLock] at h
  split at h <;> cases h
  exact ⟨rfl,rfl,rfl,fun hr => absurd hr hret⟩

theorem thread_frame {rnd : Nat × Nat} (h : dpThread t id rnd = some t') : ∃ me, Framed t id me t' := by
  simp only [dpThread] at h
  split at h
  · split at h
    · next hstop =>
      cases h
      exact ⟨_,rfl,rfl,rfl,fun _ => hstop⟩
    · cases h
      exact ⟨_,rfl,rfl,rfl,nofun⟩
  · next hs =>
    split at h <;> cases h
    · exact ⟨_,rfl,rfl,rfl,fun hr => nomatch hs.symm.trans hr⟩
    · exact ⟨_,rfl,rfl,rfl,nofun⟩
  · exact ⟨_,lock_frame (by nofun) h⟩
  · exact ⟨_,lock_frame (by nofun) h⟩
  · next hs =>
    split at h <;> cases h
    · exact ⟨_,rfl,rfl,rfl,fun hr => nomatch hs.symm.trans hr⟩
    · exact ⟨_,rfl,rfl,rfl,nofun⟩
  · cases h
    exact ⟨_,rfl,rfl,rfl,nofun⟩
  · cases h
    exact ⟨_,rfl,rfl,rfl,nofun⟩
  · cases h

end OperatingSystemLabs.Philosophers.Asymmetric

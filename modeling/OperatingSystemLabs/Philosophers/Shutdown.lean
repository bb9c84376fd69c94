import OperatingSystemLabs.Foundation.Interleaving
import OperatingSystemLabs.Philosophers.Ownership

namespace OperatingSystemLabs.Philosophers.Asymmetric

open Interleaving

variable {n : Nat} {t t' : Table n} {thread : Option (Fin n)} {k : Fin n}

-- A step of one of the threads; none is main.
def Steps (t : Table n) (thread : Option (Fin n)) (t' : Table n) : Prop :=
  match thread with
  | some id => ∃ rnd, dpThread t id rnd = some t'
  | none => shutDown t = some t'

def Run (n : Nat) (tr : List (Table n × Option (Fin n))) (t : Table n) : Prop :=
  Trace Steps (setTable n) tr t

-- Between the second lock and the first unlock.
def Eating (t : Table n) (id : Fin n) : Prop := (t.diners id).next = .eat ∨ (t.diners id).next = .unlockRight

def Apart (t : Table n) (id : Fin n) : Prop := ¬ (Eating t id ∧ Eating t (leftPhil id))

def Spares (k : Fin n) (t : Table n) (thread : Option (Fin n)) : Prop :=
  thread = none → t.main = .releasing k.val → t.chopstick k = false

def Unreached (k : Fin n) : MainThread → Prop
  | .waiting => True
  | .releasing i => i ≤ k.val
  | .joining => False

theorem reachable_iff_run : Reachable n t ↔ ∃ tr, Run n tr t := by
  constructor
  · intro h
    induction h with
    | start => exact ⟨[],.start⟩
    | philosopher id rnd _ hstep ih =>
      obtain ⟨tr,hrun⟩ := ih
      exact ⟨_,hrun.snoc (i := some id) ⟨rnd,hstep⟩⟩
    | main _ hstep ih =>
      obtain ⟨tr,hrun⟩ := ih
      exact ⟨_,hrun.snoc (i := none) hstep⟩
  · rintro ⟨tr,h⟩
    induction h with
    | start => exact .start
    | @snoc tr t t' thread _ hstep ih =>
      cases thread with
      | none => exact ih.main hstep
      | some id =>
        obtain ⟨rnd,hrun⟩ := hstep
        exact ih.philosopher id rnd hrun

theorem Eating.holds_left {id : Fin n} (h : Eating t id) : holds t id (leftChop id) := by
  rw [holds]
  rcases h with hs | hs <;> (rw [hs]; exact .inl rfl)

theorem Eating.holds_right {id : Fin n} (h : Eating t id) : holds t id (rightChop id) := by
  rw [holds]
  rcases h with hs | hs <;> (rw [hs]; exact .inr rfl)

theorem OwnedAt.apart (hn : 2 ≤ n) (h : OwnedAt t k) : Apart t k := by
  rintro ⟨hk,hleft⟩
  have hshared := hleft.holds_right
  rw [show rightChop (leftPhil k) = k from right_left_phil k] at hshared
  exact left_phil_ne hn k (h.sole _ _ hshared hk.holds_left)

theorem OwnedAt.of_diners (h : OwnedAt t k) (hdiners : t'.diners = t.diners)
    (hchop : t'.chopstick k = t.chopstick k) : OwnedAt t' k := by
  have hholds (id : Fin n) : holds t' id k ↔ holds t id k := by rw [holds,hdiners,holds]
  refine ⟨?_,fun i j hi hj => h.sole i j ((hholds i).mp hi) ((hholds j).mp hj)⟩
  rw [hchop,h.held]
  exact exists_congr fun id => (hholds id).symm

theorem shutDown_owned_at (h : OwnedAt t k) (hspares : t.main = .releasing k.val → t.chopstick k = false)
    (hstep : shutDown t = some t') : OwnedAt t' k := by
  rw [shutDown] at hstep
  split at hstep
  · cases hstep
    exact h.of_diners rfl rfl
  · next i hmain =>
    split at hstep
    · next hi =>
      cases hstep
      refine h.of_diners rfl ?_
      by_cases hk : k = ⟨i,hi⟩
      · rw [hspares (hk ▸ hmain),hk]
        exact Function.update_self ..
      · exact Function.update_of_ne hk ..
    · cases hstep
      exact h.of_diners rfl rfl
  · cases hstep

theorem step_owned_at (hn : 2 ≤ n) (h : OwnedAt t k) (hspares : Spares k t thread) (hstep : Steps t thread t') :
    OwnedAt t' k := by
  cases thread with
  | none => exact shutDown_owned_at h (hspares rfl) hstep
  | some id =>
    obtain ⟨rnd,hrun⟩ := hstep
    exact thread_owned_at hn h hrun

theorem start_owned_at (k : Fin n) : OwnedAt (setTable n) k :=
  ⟨by simp [setTable,holds,grips],fun i j hi _ => hi.elim⟩

theorem spared_until_reached {tr : List (Table n × Option (Fin n))} (h : Run n tr t) (hk : Unreached k t.main) :
    Throughout (Spares k) tr := by
  induction h with
  | start => exact nofun
  | @snoc tr t t' thread _ hstep ih =>
    cases thread with
    | some id =>
      obtain ⟨rnd,hrun⟩ := hstep
      obtain ⟨me,hframe⟩ := thread_frame hrun
      rw [hframe.main] at hk
      exact throughout_snoc.mpr ⟨ih hk,nofun⟩
    | none =>
      have hshut : shutDown t = some t' := hstep
      rw [shutDown] at hshut
      split at hshut
      · next hmain =>
        refine throughout_snoc.mpr ⟨ih (hmain ▸ trivial),fun _ hm => ?_⟩
        rw [hmain] at hm
        cases hm
      · next i hmain =>
        split at hshut <;> cases hshut
        · have hi : i + 1 ≤ k.val := hk
          refine throughout_snoc.mpr ⟨ih ?_,fun _ hm => ?_⟩
          · rw [hmain]
            exact (Nat.le_succ i).trans hi
          · rw [hmain] at hm
            cases hm
            omega
        · exact hk.elim
      · cases hshut

theorem Run.moves {tr : List (Table n × Option (Fin n))} (h : Run n tr t) (id : Fin n)
    (hstep : dpThread t id (0,0) = some t') : Run n (tr ++ [(t,some id)]) t' := h.snoc ⟨_,hstep⟩

theorem Run.shutsDown {tr : List (Table n × Option (Fin n))} (h : Run n tr t) (hstep : shutDown t = some t') :
    Run n (tr ++ [(t,none)]) t' := h.snoc hstep

theorem neighbours_apart_while_spared (hn : 2 ≤ n) (k : Fin n) {tr : List (Table n × Option (Fin n))}
    (h : Run n tr t) : (Throughout (Spares k) tr → Always (fun t => Apart t k) tr t) ∧
    (Unreached k t.main → Throughout (Spares k) tr) := by
  refine ⟨fun hspares => ?_,spared_until_reached h⟩
  obtain ⟨hall,hlast⟩ := h.invariant (I := fun t => OwnedAt t k) (start_owned_at k)
    (fun s i s' hs hi hstep => step_owned_at hn hs hi hstep) hspares
  exact ⟨fun e he => (hall e he).apart hn,hlast.apart hn⟩

theorem neighbours_apart_while_spared_stopped :
    ∃ tr t, Run 5 tr t ∧ t.stop = true ∧ Eating t 0 ∧ Always (fun t => Apart t 0) tr t := by
  have h1 := Run.moves .start (n := 5) 0 rfl
  have h2 := h1.moves 0 rfl
  have h3 := h2.moves 0 rfl
  have h4 := h3.moves 0 rfl
  have h5 := h4.shutsDown rfl
  obtain ⟨hapart,hspared⟩ := neighbours_apart_while_spared (by decide) 0 h5
  exact ⟨_,_,h5,rfl,.inl rfl,hapart (hspared (Nat.le_refl 0))⟩

theorem neighbours_eat_after_release : ¬ ∀ n, 2 ≤ n → ∀ tr (t : Table n), Run n tr t → ∀ id, Apart t id := by
  have h1 := Run.moves .start (n := 5) 0 rfl
  have h2 := h1.moves 0 rfl
  have h3 := h2.moves 0 rfl
  have h4 := h3.moves 0 rfl
  have h5 := h4.moves 1 rfl
  have h6 := h5.moves 1 rfl
  have h7 := h6.shutsDown rfl
  have h8 := h7.shutsDown rfl
  have h9 := h8.moves 1 rfl
  have h10 := h9.moves 1 rfl
  intro h
  exact h 5 (by decide) _ _ h10 0 ⟨.inl rfl,.inl rfl⟩

end OperatingSystemLabs.Philosophers.Asymmetric

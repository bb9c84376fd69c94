import OperatingSystemLabs.Philosophers.Waiter

namespace OperatingSystemLabs.Philosophers.Waiter

open Interleaving Asymmetric

variable {n : Nat} {t t' : Table n} {id : Fin n} {me : Philosopher} {rnd : Nat × Nat}

-- Between the unlock that ends the acquire section and the lock that begins the release section.
def Eating (t : Table n) (id : Fin n) : Prop := (t.diners id).next = .eat ∨ (t.diners id).next = .lockToGive

def Apart (t : Table n) : Prop := ∀ id, ¬ (Eating t id ∧ Eating t (leftPhil id))

def Polite (t : Table n) (thread : Option (Fin n)) : Prop :=
  ∀ id, thread = some id → (t.diners id).next = .unlockTaken → ¬ Eating t (leftPhil id) ∧ ¬ Eating t (rightPhil id)

inductive Effect (t : Table n) (id : Fin n) : Statement → Statement → Bool → (Fin n → Int) → Prop
  | start : Effect t id .testStop .think t.waiter t.available
  | finish : Effect t id .testStop .returned t.waiter t.available
  | think : Effect t id .think .think t.waiter t.available
  | hunger : Effect t id .think .lockToTake t.waiter t.available
  | lockToTake : t.waiter = false → Effect t id .lockToTake .testChops true t.available
  | testChops : Effect t id .testChops .takeLeft t.waiter t.available
  | condWait : Effect t id .condWait .asleep false t.available
  | asleep : t.waiter = false → Effect t id .asleep .testChops true t.available
  | takeLeft {k : Fin n} : t.available (leftChop id) = k.val →
      Effect t id .takeLeft .takeRight t.waiter (Function.update t.available k 0)
  | takeRight {k : Fin n} : t.available (rightChop id) = k.val →
      Effect t id .takeRight .unlockTaken t.waiter (Function.update t.available k 0)
  | unlockTaken : Effect t id .unlockTaken .eat false t.available
  | eat : Effect t id .eat .eat t.waiter t.available
  | sated : Effect t id .eat .lockToGive t.waiter t.available
  | lockToGive : t.waiter = false → Effect t id .lockToGive .giveLeft true t.available
  | giveLeft {k : Fin n} : t.available (leftChop id) = k.val →
      Effect t id .giveLeft .giveRight t.waiter (Function.update t.available k 1)
  | giveRight {k : Fin n} : t.available (rightChop id) = k.val →
      Effect t id .giveRight .broadcast t.waiter (Function.update t.available k 1)
  | broadcast : Effect t id .broadcast .unlockGiven t.waiter t.available
  | unlockGiven : Effect t id .unlockGiven .testStop false t.available

structure Acts (t : Table n) (id : Fin n) (me : Philosopher) (t' : Table n) : Prop where
  effect : Effect t id (t.diners id).next me.next t'.waiter t'.available
  diners : t'.diners = Function.update t.diners id me

theorem lock_acts {s : Statement} (hs : (t.diners id).next = s)
    (heffect : t.waiter = false → Effect t id s me.next true t.available)
    (h : (Except.ok (t.lockWaiter.map (·.seat id me)) : Except Fault _) = .ok (some t')) : Acts t id me t' := by
  have h := Except.ok.inj h
  rw [Table.lockWaiter] at h
  split at h
  · cases h
  · next hfree =>
    obtain rfl := Option.some.inj h
    exact ⟨hs ▸ heffect (Bool.not_eq_true _ ▸ hfree),rfl⟩

theorem mark_ok {chop : Fin n} {value : Int} (h : t.mark (some chop) value = .ok t') :
    ∃ k : Fin n, t.available chop = k.val ∧
      t' = { t with available := Function.update t.available k value } := by
  rw [Table.mark] at h
  split at h
  · next hk =>
    exact ⟨⟨_,hk.2⟩,(Int.toNat_of_nonneg hk.1).symm,(Except.ok.inj h).symm⟩
  · cases h

theorem mark_acts {s : Statement} {chop : Fin n} {value : Int} (hs : (t.diners id).next = s)
    (heffect : ∀ k : Fin n, t.available chop = k.val →
      Effect t id s me.next t.waiter (Function.update t.available k value))
    (h : (do
      let t ← t.mark (some chop) value
      return some (t.seat id me) : Except Fault (Option (Table n))) = .ok (some t')) : Acts t id me t' := by
  obtain ⟨t₁,hmark,hret⟩ := ok_of_bind h
  obtain ⟨k,hk,rfl⟩ := mark_ok hmark
  obtain rfl := Option.some.inj (Except.ok.inj hret)
  exact ⟨hs ▸ heffect k hk,rfl⟩

theorem thread_acts (h : dpThread t id rnd = .ok (some t')) : ∃ me, Acts t id me t' := by
  simp only [dpThread] at h
  split at h
  case h_1 hs =>
    split at h <;> cases h
    · exact ⟨_,hs ▸ .finish,rfl⟩
    · exact ⟨_,hs ▸ .start,rfl⟩
  case h_2 hs =>
    split at h <;> cases h
    · exact ⟨_,by simp only [hs]; exact .think,rfl⟩
    · exact ⟨_,hs ▸ .hunger,rfl⟩
  case h_3 hs => exact ⟨_,lock_acts hs .lockToTake h⟩
  case h_4 hs =>
    cases h
    exact ⟨_,hs ▸ .testChops,rfl⟩
  case h_5 hs =>
    cases h
    exact ⟨_,hs ▸ .condWait,rfl⟩
  case h_6 hs => exact ⟨_,lock_acts hs .asleep h⟩
  case h_7 hs => exact ⟨_,mark_acts hs (fun _ => .takeLeft) h⟩
  case h_8 hs => exact ⟨_,mark_acts hs (fun _ => .takeRight) h⟩
  case h_9 hs =>
    cases h
    exact ⟨_,hs ▸ .unlockTaken,rfl⟩
  case h_10 hs =>
    split at h <;> cases h
    · exact ⟨_,by simp only [hs]; exact .eat,rfl⟩
    · exact ⟨_,hs ▸ .sated,rfl⟩
  case h_11 hs => exact ⟨_,lock_acts hs .lockToGive h⟩
  case h_12 hs => exact ⟨_,mark_acts hs (fun _ => .giveLeft) h⟩
  case h_13 hs => exact ⟨_,mark_acts hs (fun _ => .giveRight) h⟩
  case h_14 hs =>
    cases h
    exact ⟨_,hs ▸ .broadcast,rfl⟩
  case h_15 hs =>
    cases h
    exact ⟨_,hs ▸ .unlockGiven,rfl⟩
  case h_16 => cases h

theorem shutDown_frame (h : shutDown t = some t') :
    t'.waiter = t.waiter ∧ t'.available = t.available ∧ t'.diners = t.diners := by
  rw [shutDown] at h
  split at h
  · cases h
    exact ⟨rfl,rfl,rfl⟩
  · split at h <;> cases h <;> exact ⟨rfl,rfl,rfl⟩
  · cases h

theorem Effect.eating {s s' : Statement} {waiter : Bool} {available : Fin n → Int}
    (h : Effect t id s s' waiter available) (hs : s' = .eat ∨ s' = .lockToGive) :
    (s = .eat ∨ s = .lockToGive) ∨ s = .unlockTaken := by
  cases h <;> simp at hs ⊢

theorem Effect.served {s' : Statement} {waiter : Bool} {available : Fin n → Int}
    (h : Effect t id .unlockTaken s' waiter available) : s' = .eat := by
  cases h
  rfl

theorem Acts.others (h : Acts t id me t') {j : Fin n} (hj : j ≠ id) : Eating t' j ↔ Eating t j := by
  rw [Eating,Eating,h.diners,Function.update_of_ne hj]

theorem Acts.self (h : Acts t id me t') : Eating t' id ↔ me.next = .eat ∨ me.next = .lockToGive := by
  rw [Eating,h.diners,Function.update_self]

theorem Acts.eating (h : Acts t id me t') (he : Eating t' id) :
    Eating t id ∨ (t.diners id).next = .unlockTaken := h.effect.eating (h.self.mp he)

theorem Acts.served (h : Acts t id me t') (hs : (t.diners id).next = .unlockTaken) : Eating t' id := by
  have heffect := h.effect
  rw [hs] at heffect
  exact h.self.mpr (.inl heffect.served)

structure Idle (t : Table n) : Prop where
  going : t.stop = false
  free : t.waiter = false
  flags : ∀ k, t.available k = 0 ∨ t.available k = 1

def Table.moved (t : Table n) (id : Fin n) (next : Statement) (waiter : Bool) (available : Fin n → Int) : Table n :=
  { t with waiter := waiter, available := available, diners := Function.update t.diners id ⟨next,0,0,0⟩ }

theorem mark_moved (hn : 2 ≤ n) (t : Table n) (id : Fin n) (next : Statement) (waiter : Bool)
    {available : Fin n → Int} (hflags : ∀ k, available k = 0 ∨ available k = 1) (chop : Fin n)
    {value : Int} (hv : value = 0 ∨ value = 1) : ∃ available' : Fin n → Int,
      (t.moved id next waiter available).mark (some chop) value = .ok (t.moved id next waiter available') ∧
      ∀ k, available' k = 0 ∨ available' k = 1 := by
  have hindex : 0 ≤ available chop ∧ (available chop).toNat < n := by
    rcases hflags chop with h | h <;> (rw [h]; simp; omega)
  refine ⟨_,dif_pos hindex,fun k => ?_⟩
  by_cases hk : k = ⟨(available chop).toNat,hindex.2⟩
  · rw [hk]
    exact (Function.update_self (f := available) ..).symm ▸ hv
  · exact (Function.update_of_ne hk ..).symm ▸ hflags k

structure Acquires (t : Table n) (id : Fin n) (tr : List (Table n × Option (Fin n))) (t' : Table n) : Prop where
  idle : Idle t'
  eating : Eating t' id
  others : ∀ j ≠ id, t'.diners j = t.diners j
  alone : ∀ e ∈ tr, e.2 = some id ∧ ∀ j ≠ id, e.1.diners j = t.diners j
  leaves : ∃ e ∈ tr, (e.1.diners id).next = .unlockTaken

-- The guard tests two addresses, so nobody who finds the waiter free is ever turned away.
theorem idle_acquires (hn : 2 ≤ n) {tr : List (Table n × Option (Fin n))} (h : Run n tr t) (hi : Idle t)
    (id : Fin n) (hs : (t.diners id).next = .testStop) :
    ∃ tr' t', Run n (tr ++ tr') t' ∧ Acquires t id tr' t' := by
  obtain ⟨flags₁,hleft,hflags₁⟩ :=
    mark_moved hn t id .takeLeft true hi.flags (leftChop id) (.inl rfl)
  obtain ⟨flags₂,hright,hflags₂⟩ :=
    mark_moved hn t id .takeRight true hflags₁ (rightChop id) (.inl rfl)
  have hstart : dpThread t id (0,0) = .ok (some (t.moved id .think false t.available)) := by
    simp [dpThread,hs,hi.going,Table.moved,Table.seat,← hi.free]
  have hthink : dpThread (t.moved id .think false t.available) id (0,0) =
      .ok (some (t.moved id .lockToTake false t.available)) := by
    simp [dpThread,Table.moved,Table.seat]
  have hlock : dpThread (t.moved id .lockToTake false t.available) id (0,0) =
      .ok (some (t.moved id .testChops true t.available)) := by
    simp [dpThread,Table.moved,Table.seat,Table.lockWaiter]
  have hguard : dpThread (t.moved id .testChops true t.available) id (0,0) =
      .ok (some (t.moved id .takeLeft true t.available)) := by
    simp [dpThread,Table.moved,Table.seat,leftChopAvailable,rightChopAvailable]
  have htakeLeft : dpThread (t.moved id .takeLeft true t.available) id (0,0) =
      .ok (some (t.moved id .takeRight true flags₁)) := by
    simp only [Table.moved] at hleft
    simp only [dpThread,Table.moved,Function.update_self,leftChopAvailable]
    rw [bind_ok _ hleft]
    simp only [Table.seat,Function.update_idem]
    rfl
  have htakeRight : dpThread (t.moved id .takeRight true flags₁) id (0,0) =
      .ok (some (t.moved id .unlockTaken true flags₂)) := by
    simp only [Table.moved] at hright
    simp only [dpThread,Table.moved,Function.update_self,rightChopAvailable]
    rw [bind_ok _ hright]
    simp only [Table.seat,Function.update_idem]
    rfl
  have hunlock : dpThread (t.moved id .unlockTaken true flags₂) id (0,0) =
      .ok (some (t.moved id .eat false flags₂)) := by
    simp [dpThread,Table.moved,Table.seat,Table.unlockWaiter]
  have hrun := ((((((h.snoc (i := some id) ⟨_,hstart⟩).snoc (i := some id) ⟨_,hthink⟩).snoc
    (i := some id) ⟨_,hlock⟩).snoc (i := some id) ⟨_,hguard⟩).snoc (i := some id) ⟨_,htakeLeft⟩).snoc
    (i := some id) ⟨_,htakeRight⟩).snoc (i := some id) ⟨_,hunlock⟩
  simp only [List.append_assoc,List.cons_append,List.nil_append] at hrun
  refine ⟨_,_,hrun,⟨⟨hi.going,rfl,hflags₂⟩,.inl ?_,fun j hj => Function.update_of_ne hj ..,?_,?_⟩⟩
  · simp [Table.moved]
  · simp +contextual [Table.moved,Function.update_of_ne]
  · simp [Table.moved]

theorem idle_start : Idle (setTable n) := ⟨rfl,rfl,fun _ => .inr rfl⟩

theorem neighbours_eat (hn : 2 ≤ n) (id : Fin n) :
    ∃ tr t, Run n tr t ∧ Eating t id ∧ Eating t (leftPhil id) := by
  have hne := left_phil_ne hn id
  obtain ⟨tr,t,hrun,hid⟩ := idle_acquires hn .start idle_start id rfl
  obtain ⟨tr',t',hrun',hleft⟩ := idle_acquires hn hrun hid.idle (leftPhil id) (by rw [hid.others _ hne]; rfl)
  refine ⟨_,t',hrun',?_,hleft.eating⟩
  rw [Eating,hleft.others id hne.symm]
  exact hid.eating

theorem neighbours_never_kept_apart (hn : 2 ≤ n) :
    ¬ (∀ tr t, Run n tr t → Apart t) ∧ ∀ id : Fin n, ∃ tr t, Run n tr t ∧ Eating t id ∧ Eating t (leftPhil id) := by
  refine ⟨fun h => ?_,neighbours_eat hn⟩
  obtain ⟨tr,t,hrun,hid,hleft⟩ := neighbours_eat hn ⟨0,by omega⟩
  exact h tr t hrun _ ⟨hid,hleft⟩

theorem neighbours_never_kept_apart_five : ∃ tr t, Run 5 tr t ∧ Eating t 0 ∧ Eating t 1 :=
  (neighbours_never_kept_apart (by decide)).2 0

theorem neighbours_not_apart : ¬ ∀ n, 2 ≤ n → ∀ tr t, Run n tr t → Apart t := by
  intro h
  obtain ⟨tr,t,hrun,hid,hleft⟩ := neighbours_eat (n := 5) (by decide) 0
  exact h 5 (by decide) tr t hrun 0 ⟨hid,hleft⟩

end OperatingSystemLabs.Philosophers.Waiter

import Mathlib.Logic.Function.Basic
import OperatingSystemLabs.Foundation.LockOrder

namespace OperatingSystemLabs.Philosophers

open LockOrder

variable {n : Nat}

def leftChop (id : Fin n) : Fin n := id

def rightChop (id : Fin n) : Fin n :=
  if id.val = 0 then ⟨n - 1,Nat.sub_lt id.pos Nat.one_pos⟩
  else ⟨id.val - 1,(Nat.sub_le id.val 1).trans_lt id.isLt⟩

def leftPhil (id : Fin n) : Fin n :=
  if h : id.val = n - 1 then ⟨0,id.pos⟩ else ⟨id.val + 1,by omega⟩

def rightPhil (id : Fin n) : Fin n :=
  if id.val = 0 then ⟨n - 1,Nat.sub_lt id.pos Nat.one_pos⟩
  else ⟨id.val - 1,(Nat.sub_le id.val 1).trans_lt id.isLt⟩

theorem left_right_phil (id : Fin n) : leftPhil (rightPhil id) = id := by
  have hid := id.isLt
  rw [leftPhil,rightPhil,Fin.ext_iff]
  by_cases hzero : id.val = 0
  · simp [hzero]
  · have hlast : ¬ id.val - 1 = n - 1 := by omega
    simp only [if_neg hzero,dif_neg hlast]
    omega

theorem right_left_phil (id : Fin n) : rightPhil (leftPhil id) = id := by
  have hid := id.isLt
  rw [leftPhil,rightPhil,Fin.ext_iff]
  by_cases hlast : id.val = n - 1
  · simp [hlast]
  · simp [hlast]

theorem left_phil_ne (hn : 2 ≤ n) (id : Fin n) : leftPhil id ≠ id := by
  have hid := id.isLt
  rw [leftPhil,Ne,Fin.ext_iff]
  split <;> simp only <;> omega

theorem right_phil_ne (hn : 2 ≤ n) (id : Fin n) : rightPhil id ≠ id := by
  intro h
  exact left_phil_ne hn id (by rw [← h,left_right_phil,h])

namespace Asymmetric

inductive Statement where
  | testStop | think | lockFirst | lockSecond | eat | unlockRight | unlockLeft | returned
  deriving DecidableEq, Repr

structure Philosopher where
  next : Statement
  thinkRnd : Nat
  eatRnd : Nat
  i : Nat
  deriving DecidableEq, Repr

-- Where main is from the time it decides to stop: setting Stop, unlocking chopstick[i], done.
inductive MainThread where
  | waiting
  | releasing (i : Nat)
  | joining
  deriving DecidableEq, Repr

structure Table (n : Nat) where
  stop : Bool
  chopstick : Fin n → Bool
  diners : Fin n → Philosopher
  main : MainThread

def firstChop (id : Fin n) : Fin n := if id.val % 2 = 0 then leftChop id else rightChop id

def secondChop (id : Fin n) : Fin n := if id.val % 2 = 0 then rightChop id else leftChop id

def setTable (n : Nat) : Table n where
  stop := false
  chopstick := fun _ => false
  diners := fun _ => ⟨.testStop,0,0,0⟩
  main := .waiting

def Table.seat (t : Table n) (id : Fin n) (me : Philosopher) : Table n :=
  { t with diners := Function.update t.diners id me }

def Table.mutexLock (t : Table n) (chop : Fin n) : Option (Table n) :=
  if t.chopstick chop then none else some { t with chopstick := Function.update t.chopstick chop true }

def Table.mutexUnlock (t : Table n) (chop : Fin n) : Table n :=
  { t with chopstick := Function.update t.chopstick chop false }

-- One step of philosopher `id`, none while it is blocked; `rnd` is what rand() returns next.
def dpThread (t : Table n) (id : Fin n) (rnd : Nat × Nat) : Option (Table n) :=
  let me := t.diners id
  match me.next with
  | .testStop =>
      if t.stop then some (t.seat id { me with next := .returned })
      else some (t.seat id { next := .think, thinkRnd := rnd.1 % 1000, eatRnd := rnd.2 % 100, i := 0 })
  | .think =>
      if me.i < me.thinkRnd then some (t.seat id { me with i := me.i + 1 })
      else some (t.seat id { me with next := .lockFirst })
  | .lockFirst => (t.mutexLock (firstChop id)).map (·.seat id { me with next := .lockSecond })
  | .lockSecond => (t.mutexLock (secondChop id)).map (·.seat id { me with next := .eat, i := 0 })
  | .eat =>
      if me.i < me.eatRnd then some (t.seat id { me with i := me.i + 1 })
      else some (t.seat id { me with next := .unlockRight })
  | .unlockRight => some ((t.mutexUnlock (rightChop id)).seat id { me with next := .unlockLeft })
  | .unlockLeft => some ((t.mutexUnlock (leftChop id)).seat id { me with next := .testStop })
  | .returned => none

def shutDown (t : Table n) : Option (Table n) :=
  match t.main with
  | .waiting => some { t with stop := true, main := .releasing 0 }
  | .releasing i =>
      if h : i < n then some { t.mutexUnlock ⟨i,h⟩ with main := .releasing (i + 1) }
      else some { t with main := .joining }
  | .joining => none

inductive Reachable (n : Nat) : Table n → Prop
  | start : Reachable n (setTable n)
  | philosopher {t t' : Table n} (id : Fin n) (rnd : Nat × Nat) :
      Reachable n t → dpThread t id rnd = some t' → Reachable n t'
  | main {t t' : Table n} : Reachable n t → shutDown t = some t' → Reachable n t'

end Asymmetric

end OperatingSystemLabs.Philosophers

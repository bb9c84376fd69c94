import OperatingSystemLabs.Fault
import OperatingSystemLabs.Foundation.Interleaving
import OperatingSystemLabs.Foundation.Loop
import OperatingSystemLabs.Philosophers.Asymmetric

namespace OperatingSystemLabs.Philosophers.Waiter

open Interleaving Asymmetric

-- The statement of dp_thread that a philosopher is about to execute; condWait gives the waiter
-- back and goes to sleep, asleep takes it again.
inductive Statement where
  | testStop | think
  | lockToTake | testChops | condWait | asleep | takeLeft | takeRight | unlockTaken
  | eat
  | lockToGive | giveLeft | giveRight | broadcast | unlockGiven
  | returned
  deriving DecidableEq, Repr

structure Philosopher where
  next : Statement
  thinkRnd : Nat
  eatRnd : Nat
  i : Nat
  deriving DecidableEq, Repr

structure Table (n : Nat) where
  stop : Bool
  waiter : Bool
  available : Fin n → Int
  chopstick : Fin n → Bool
  diners : Fin n → Philosopher
  main : MainThread

variable {n : Nat}

def setTable (n : Nat) : Table n where
  stop := false
  waiter := false
  available := fun _ => 1
  chopstick := fun _ => false
  diners := fun _ => ⟨.testStop,0,0,0⟩
  main := .waiting

-- The address of an entry of available_chopsticks; none would be NULL.
def leftChopAvailable (id : Fin n) : Option (Fin n) := some (leftChop id)

def rightChopAvailable (id : Fin n) : Option (Fin n) := some (rightChop id)

def Table.seat (t : Table n) (id : Fin n) (me : Philosopher) : Table n :=
  { t with diners := Function.update t.diners id me }

def Table.lockWaiter (t : Table n) : Option (Table n) :=
  if t.waiter then none else some { t with waiter := true }

def Table.unlockWaiter (t : Table n) : Table n := { t with waiter := false }

-- available_chopsticks[*chop] = value;
def Table.mark (t : Table n) (chop : Option (Fin n)) (value : Int) : Except Fault (Table n) :=
  match chop with
  | none => .error .nullDereference
  | some chop =>
      if h : 0 ≤ t.available chop ∧ (t.available chop).toNat < n then
        .ok { t with available := Function.update t.available ⟨(t.available chop).toNat,h.2⟩ value }
      else .error .outOfBounds

-- One step of philosopher `id`, none while it is blocked; `rnd` is what rand() returns next.
def dpThread (t : Table n) (id : Fin n) (rnd : Nat × Nat) : Except Fault (Option (Table n)) :=
  let me := t.diners id
  match me.next with
  | .testStop =>
      if t.stop then .ok (some (t.seat id { me with next := .returned }))
      else .ok (some (t.seat id { next := .think, thinkRnd := rnd.1 % 1000, eatRnd := rnd.2 % 100, i := 0 }))
  | .think =>
      if me.i < me.thinkRnd then .ok (some (t.seat id { me with i := me.i + 1 }))
      else .ok (some (t.seat id { me with next := .lockToTake }))
  | .lockToTake => .ok (t.lockWaiter.map (·.seat id { me with next := .testChops }))
  | .testChops =>
      -- the two addresses are tested, not the flags stored there
      if (leftChopAvailable id).isSome ∧ (rightChopAvailable id).isSome then
        .ok (some (t.seat id { me with next := .takeLeft }))
      else .ok (some (t.seat id { me with next := .condWait }))
  | .condWait => .ok (some (t.unlockWaiter.seat id { me with next := .asleep }))
  | .asleep => .ok (t.lockWaiter.map (·.seat id { me with next := .testChops }))
  | .takeLeft => do
      let t ← t.mark (leftChopAvailable id) 0
      return some (t.seat id { me with next := .takeRight })
  | .takeRight => do
      let t ← t.mark (rightChopAvailable id) 0
      return some (t.seat id { me with next := .unlockTaken })
  | .unlockTaken => .ok (some (t.unlockWaiter.seat id { me with next := .eat, i := 0 }))
  | .eat =>
      if me.i < me.eatRnd then .ok (some (t.seat id { me with i := me.i + 1 }))
      else .ok (some (t.seat id { me with next := .lockToGive }))
  | .lockToGive => .ok (t.lockWaiter.map (·.seat id { me with next := .giveLeft }))
  | .giveLeft => do
      let t ← t.mark (leftChopAvailable id) 1
      return some (t.seat id { me with next := .giveRight })
  | .giveRight => do
      let t ← t.mark (rightChopAvailable id) 1
      return some (t.seat id { me with next := .broadcast })
  | .broadcast => .ok (some (t.seat id { me with next := .unlockGiven }))
  | .unlockGiven => .ok (some (t.unlockWaiter.seat id { me with next := .testStop }))
  | .returned => .ok none

def shutDown (t : Table n) : Option (Table n) :=
  match t.main with
  | .waiting => some { t with stop := true, main := .releasing 0 }
  | .releasing i =>
      if h : i < n then
        some { t with chopstick := Function.update t.chopstick ⟨i,h⟩ false, main := .releasing (i + 1) }
      else some { t with main := .joining }
  | .joining => none

-- A step of one of the threads; none is main.
def Steps (t : Table n) (thread : Option (Fin n)) (t' : Table n) : Prop :=
  match thread with
  | some id => ∃ rnd, dpThread t id rnd = .ok (some t')
  | none => shutDown t = some t'

def Run (n : Nat) (tr : List (Table n × Option (Fin n))) (t : Table n) : Prop :=
  Trace Steps (setTable n) tr t

end OperatingSystemLabs.Philosophers.Waiter

import Mathlib.Data.List.Basic
import Mathlib.Algebra.Order.Ring.Int

namespace OperatingSystemLabs

inductive Complaint where
  | finishedInvalidJob (jobId : Int)
  | expiredInvalidJob (jobId : Int)
  | invalidCore (coreId : Int)
  | allCoresIdle
  deriving DecidableEq, Repr

inductive Fault where
  | nullDereference
  | outOfBounds
  | assertionFailed
  | exited (status : Int) (complaint : Complaint)
  deriving DecidableEq, Repr

def readAt {α : Type} (xs : List α) (i : Int) : Except Fault α :=
  if 0 ≤ i then
    match xs[i.toNat]? with
    | some x => .ok x
    | none => .error .outOfBounds
  else .error .outOfBounds

def writeAt {α : Type} (xs : List α) (i : Int) (x : α) : Except Fault (List α) :=
  if 0 ≤ i ∧ i.toNat < xs.length then .ok (xs.set i.toNat x) else .error .outOfBounds

theorem readAt_ok {α : Type} {xs : List α} {n : Nat} {x : α} (h : xs[n]? = some x) :
    readAt xs n = .ok x := by
  simp [readAt,h]

theorem writeAt_ok {α : Type} {xs : List α} {i : Int} (x : α) (h0 : 0 ≤ i)
    (h : i < xs.length) : writeAt xs i x = .ok (xs.set i.toNat x) := by
  rw [writeAt,if_pos ⟨h0,by omega⟩]

end OperatingSystemLabs

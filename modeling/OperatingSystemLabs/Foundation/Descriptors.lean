import Mathlib.Logic.Function.Basic

namespace OperatingSystemLabs.Descriptors

open Function

-- What the descriptors of a process stand for; from the limit on none is open.
structure Table (α : Type) where
  file : Nat → Option α
  limit : Nat
  above : ∀ fd, limit ≤ fd → file fd = none

variable {α : Type} {t : Table α} {f : α}

def lowestFrom (file : Nat → Option α) : Nat → Nat → Nat
  | 0, fd => fd
  | n + 1, fd => if (file fd).isNone then fd else lowestFrom file n (fd + 1)

def lowest (t : Table α) : Nat := lowestFrom t.file t.limit 0

def assign (t : Table α) (fd : Nat) (f : Option α) : Table α where
  file := update t.file fd f
  limit := max t.limit (fd + 1)
  above k hk := by
    rw [update_of_ne (by omega)]
    exact t.above k (by omega)

def dup2 (t : Table α) (old new : Nat) : Table α :=
  match t.file old with
  | some f => assign t new (some f)
  | none => t

def close (t : Table α) (fd : Nat) : Table α := assign t fd none

structure Pipe where
  readEnd : Nat
  writeEnd : Nat
  deriving DecidableEq, Repr

-- Each end gets the lowest descriptor that is free.
def pipe (t : Table α) (reading writing : α) : Table α × Pipe :=
  let t' := assign t (lowest t) (some reading)
  (assign t' (lowest t') (some writing),⟨lowest t,lowest t'⟩)

def holds [DecidableEq α] (t : Table α) (f : α) : Bool := (List.range t.limit).any fun fd => t.file fd = some f

theorem holds_iff [DecidableEq α] : holds t f = true ↔ ∃ fd, t.file fd = some f := by
  rw [holds,List.any_eq_true]
  constructor
  · rintro ⟨fd,-,hfd⟩
    exact ⟨fd,of_decide_eq_true hfd⟩
  · rintro ⟨fd,hfd⟩
    refine ⟨fd,List.mem_range.mpr ?_,decide_eq_true hfd⟩
    by_contra hlimit
    rw [t.above fd (by omega)] at hfd
    cases hfd

theorem lowestFrom_free {file : Nat → Option α} {n fd : Nat} (h : file (fd + n) = none) :
    file (lowestFrom file n fd) = none := by
  induction n generalizing fd with
  | zero => exact h
  | succ n ih =>
    rw [lowestFrom]
    split
    · next hfd => exact Option.isNone_iff_eq_none.mp hfd
    · exact ih (by rwa [Nat.add_assoc,Nat.add_comm 1 n])

theorem lowest_free (t : Table α) : t.file (lowest t) = none := lowestFrom_free (t.above _ (Nat.le_add_left ..))

theorem lowest_ne {fd : Nat} (h : t.file fd = some f) : fd ≠ lowest t := by
  rintro rfl
  rw [lowest_free] at h
  cases h

theorem assign_self (t : Table α) (fd : Nat) (f : Option α) : (assign t fd f).file fd = f := update_self ..

theorem assign_other (t : Table α) (f : Option α) {fd k : Nat} (h : k ≠ fd) : (assign t fd f).file k = t.file k :=
  update_of_ne h ..

theorem dup2_self {old new : Nat} (h : t.file old = some f) : (dup2 t old new).file new = some f := by
  rw [dup2,h]
  exact assign_self ..

theorem dup2_other {old new k : Nat} (h : k ≠ new) : (dup2 t old new).file k = t.file k := by
  rw [dup2]
  split
  · exact assign_other t _ h
  · rfl

theorem dup2_holds [DecidableEq α] {old new : Nat} (h : holds (dup2 t old new) f = true) : holds t f = true := by
  obtain ⟨fd,hfd⟩ := holds_iff.mp h
  refine holds_iff.mpr ?_
  by_cases hnew : fd = new
  · rw [dup2] at hfd
    split at hfd
    · next g hold =>
      rw [hnew,assign_self] at hfd
      exact ⟨old,hold.trans hfd⟩
    · exact ⟨fd,hfd⟩
  · exact ⟨fd,by rwa [dup2_other hnew] at hfd⟩

theorem close_holds [DecidableEq α] {fd : Nat} (h : holds (close t fd) f = true) : holds t f = true := by
  obtain ⟨k,hk⟩ := holds_iff.mp h
  refine holds_iff.mpr ⟨k,?_⟩
  by_cases hfd : k = fd
  · rw [hfd,close,assign_self] at hk
    cases hk
  · rwa [close,assign_other t none hfd] at hk

structure Piped (t t' : Table α) (reading writing : α) (p : Pipe) : Prop where
  readEnd : t'.file p.readEnd = some reading
  writeEnd : t'.file p.writeEnd = some writing
  apart : p.readEnd ≠ p.writeEnd
  free : t.file p.readEnd = none ∧ t.file p.writeEnd = none
  other : ∀ fd, fd ≠ p.readEnd → fd ≠ p.writeEnd → t'.file fd = t.file fd

theorem pipe_piped (t : Table α) (reading writing : α) :
    Piped t (pipe t reading writing).1 reading writing (pipe t reading writing).2 := by
  have hread : (assign t (lowest t) (some reading)).file (lowest t) = some reading := assign_self ..
  have hne : lowest t ≠ lowest (assign t (lowest t) (some reading)) := lowest_ne hread
  refine ⟨(assign_other _ _ hne).trans hread,assign_self ..,hne,⟨lowest_free t,?_⟩,?_⟩
  · exact (assign_other t _ hne.symm).symm.trans (lowest_free _)
  · intro fd hfd hfd'
    exact (assign_other _ _ hfd').trans (assign_other t _ hfd)

theorem Piped.keeps {t' : Table α} {reading writing : α} {p : Pipe} (h : Piped t t' reading writing p) {fd : Nat}
    (hfd : t.file fd = some f) : t'.file fd = some f := by
  have hne {k : Nat} (hk : t.file k = none) : fd ≠ k := by
    rintro rfl
    rw [hk] at hfd
    cases hfd
  rw [h.other fd (hne h.free.1) (hne h.free.2),hfd]

theorem Piped.free_before {t' : Table α} {reading writing : α} {p : Pipe} (h : Piped t t' reading writing p) {fd : Nat}
    (hfd : t'.file fd = none) : t.file fd = none := by
  cases hbefore : t.file fd with
  | none => rfl
  | some f => cases hfd.symm.trans (h.keeps hbefore)

end OperatingSystemLabs.Descriptors

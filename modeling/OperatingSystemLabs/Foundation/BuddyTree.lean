import Mathlib.Algebra.BigOperators.Group.List.Basic
import Mathlib.Algebra.GroupWithZero.Divisibility
import Mathlib.Algebra.Ring.Divisibility.Basic
import Mathlib.Algebra.Ring.Nat

namespace OperatingSystemLabs

-- A region of 2^k units, cut in half again and again.
inductive BuddyTree : Nat → Type
  | whole (k : Nat) : BuddyTree k
  | halves {k : Nat} : BuddyTree k → BuddyTree k → BuddyTree (k + 1)

namespace BuddyTree

def leaves : {k : Nat} → BuddyTree k → List Nat
  | k, whole _ => [k]
  | _, halves t u => t.leaves ++ u.leaves

@[simp] theorem leaves_whole (k : Nat) : (whole k).leaves = [k] := rfl

@[simp] theorem leaves_halves {k : Nat} (t u : BuddyTree k) : (halves t u).leaves = t.leaves ++ u.leaves := rfl

def extent (orders : List Nat) : Nat := (orders.map (2 ^ ·)).sum

@[simp] theorem extent_nil : extent [] = 0 := rfl

@[simp] theorem extent_cons (k : Nat) (orders : List Nat) : extent (k :: orders) = 2 ^ k + extent orders := by
  simp [extent]

@[simp] theorem extent_append (l r : List Nat) : extent (l ++ r) = extent l + extent r := by
  simp [extent]

theorem leaves_ne_nil {k : Nat} (t : BuddyTree k) : t.leaves ≠ [] := by
  induction t with
  | whole k => exact List.cons_ne_nil k []
  | halves t u ht hu => simp [ht]

theorem leaves_le {k : Nat} (t : BuddyTree k) : ∀ j ∈ t.leaves, j ≤ k := by
  induction t with
  | whole k => simp
  | halves t u ht hu =>
    intro j hj
    rcases List.mem_append.mp hj with hj | hj
    · exact (ht j hj).trans (Nat.le_succ _)
    · exact (hu j hj).trans (Nat.le_succ _)

theorem leaves_extent {k : Nat} (t : BuddyTree k) : extent t.leaves = 2 ^ k := by
  induction t with
  | whole k => simp
  | @halves k t u ht hu => rw [leaves_halves,extent_append,ht,hu,pow_succ,mul_two]

theorem leaves_split {k : Nat} {t u : BuddyTree k} {l : List Nat} {j : Nat} {r : List Nat}
    (h : (halves t u).leaves = l ++ j :: r) :
    (∃ s, t.leaves = l ++ j :: s ∧ r = s ++ u.leaves) ∨
      ∃ s, l = t.leaves ++ s ∧ u.leaves = s ++ j :: r := by
  rw [leaves_halves] at h
  rcases List.append_eq_append_iff.mp h with ⟨s,rfl,hs⟩ | ⟨s,hs,he⟩
  · exact .inr ⟨s,rfl,hs⟩
  · cases s with
    | nil => exact .inr ⟨[],by simpa using hs.symm,by simpa using he.symm⟩
    | cons x xs =>
      rw [List.cons_append,List.cons_eq_cons] at he
      obtain ⟨rfl,rfl⟩ := he
      exact .inl ⟨xs,hs,rfl⟩

theorem leaves_aligned {k : Nat} (t : BuddyTree k) {l : List Nat} {j : Nat} {r : List Nat}
    (h : t.leaves = l ++ j :: r) : 2 ^ j ∣ extent l := by
  induction t generalizing l j r with
  | whole k =>
    obtain rfl : l = [] := by
      have hlen := congrArg List.length h
      simp only [leaves_whole,List.length_append,List.length_cons,List.length_nil] at hlen
      exact List.length_eq_zero_iff.mp (by omega)
    exact dvd_zero _
  | @halves k t u ht hu =>
    rcases leaves_split h with ⟨s,hs,_⟩ | ⟨s,rfl,hs⟩
    · exact ht hs
    · have hj : j ≤ k := u.leaves_le j (by simp [hs])
      rw [extent_append,t.leaves_extent]
      exact dvd_add (pow_dvd_pow 2 hj) (hu hs)

theorem leaves_graft {k : Nat} (t : BuddyTree k) {l : List Nat} {j : Nat} {r : List Nat}
    (h : t.leaves = l ++ j :: r) (piece : BuddyTree j) :
    ∃ t' : BuddyTree k, t'.leaves = l ++ piece.leaves ++ r := by
  induction t generalizing l j r with
  | whole k =>
    have hlen := congrArg List.length h
    simp only [leaves_whole,List.length_append,List.length_cons,List.length_nil] at hlen
    obtain rfl : l = [] := List.length_eq_zero_iff.mp (by omega)
    obtain ⟨rfl,rfl⟩ : k = j ∧ [] = r := by simpa using h
    exact ⟨piece,by simp⟩
  | @halves k t u ht hu =>
    rcases leaves_split h with ⟨s,hs,rfl⟩ | ⟨s,rfl,hs⟩
    · obtain ⟨t',ht'⟩ := ht hs piece
      exact ⟨halves t' u,by simp only [leaves_halves,ht',List.append_assoc]⟩
    · obtain ⟨u',hu'⟩ := hu hs piece
      exact ⟨halves t u',by simp only [leaves_halves,hu',List.append_assoc]⟩

def leftmost (j : Nat) : (d : Nat) → BuddyTree (j + d)
  | 0 => whole j
  | d + 1 => halves (leftmost j d) (whole (j + d))

theorem leftmost_leaves (j d : Nat) : (leftmost j d).leaves = j :: List.range' j d := by
  induction d with
  | zero => rfl
  | succ d ih =>
    show (leftmost j d).leaves ++ [j + d] = _
    rw [ih,List.range'_1_concat,List.cons_append]

end BuddyTree

end OperatingSystemLabs

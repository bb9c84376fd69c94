import OperatingSystemLabs.Fault
import OperatingSystemLabs.Foundation.Insertion

namespace OperatingSystemLabs.Scheduler

open Insertion

variable {α ρ : Type}

-- α is the type of the `void *` elements, ρ that of the records the comparer reads through them.
structure PriqueueT (α ρ : Type) where
  cmp : ρ → ρ → Int
  head : List α

def priqueueInit (comparer : ρ → ρ → Int) : PriqueueT α ρ := ⟨comparer,[]⟩

def priqueueSize (q : PriqueueT α ρ) : Nat := q.head.length

def insertAfter (cmp : α → α → Int) (ptr : α) : List α → List α
  | [] => [ptr]
  | temp :: next => if 0 < cmp ptr temp then temp :: insertAfter cmp ptr next else ptr :: temp :: next

def insertNode (cmp : α → α → Int) (ptr : α) : List α → List α
  | [] => [ptr]
  | head :: next => if cmp ptr head < 0 then ptr :: head :: next else head :: insertAfter cmp ptr next

def priqueueOffer (mem : α → ρ) (q : PriqueueT α ρ) (ptr : α) : PriqueueT α ρ × Int :=
  let q' := { q with head := insertNode (fun a b => q.cmp (mem a) (mem b)) ptr q.head }
  (q',priqueueSize q' - 1)

-- The nodes passed while `i != index && n != NULL`, and the chain that starts at `n`.
def walkTo (index : Int) : Int → List α → List α × List α
  | _, [] => ([],[])
  | i, n :: next =>
      if i = index then ([],n :: next)
      else ((n :: (walkTo index (i + 1) next).1),(walkTo index (i + 1) next).2)

def priqueueAt (q : PriqueueT α ρ) (index : Int) : Except Fault α :=
  match (walkTo index 0 q.head).2 with
  | [] => .error .nullDereference
  | n :: _ => .ok n

def priqueueRemoveAt (q : PriqueueT α ρ) (index : Int) : Except Fault (PriqueueT α ρ × α) :=
  match walkTo index 0 q.head with
  | ([],n :: next) => .ok ({ q with head := next },n)
  | (passed,n :: next) => .ok ({ q with head := passed ++ next },n)
  | (_,[]) => .error .nullDereference

theorem insertAfter_placed (cmp : α → α → Int) (ptr : α) (xs : List α) :
    ∃ l r, xs = l ++ r ∧ insertAfter cmp ptr xs = l ++ ptr :: r ∧
      (∀ y ∈ l, 0 < cmp ptr y) ∧ ∀ y ∈ r.head?, ¬ 0 < cmp ptr y := by
  induction xs with
  | nil => exact ⟨[],[],rfl,rfl,by simp,by simp⟩
  | cons y ys ih =>
    by_cases h : 0 < cmp ptr y
    · obtain ⟨l,r,rfl,hi,hl,hr⟩ := ih
      refine ⟨y :: l,r,rfl,?_,by simpa [h] using hl,hr⟩
      rw [insertAfter,if_pos h,hi]
      rfl
    · exact ⟨[],y :: ys,rfl,by rw [insertAfter,if_neg h]; rfl,by simp,by simpa using h⟩

theorem insertNode_placed (cmp : α → α → Int) (ptr : α) (xs : List α) :
    ∃ l r, xs = l ++ r ∧ insertNode cmp ptr xs = l ++ ptr :: r ∧ Placed cmp ptr l r := by
  cases xs with
  | nil => exact ⟨[],[],rfl,rfl,by simp [Placed]⟩
  | cons h t =>
    by_cases hlt : cmp ptr h < 0
    · exact ⟨[],h :: t,rfl,by rw [insertNode,if_pos hlt]; rfl,by simpa [Placed] using hlt⟩
    · obtain ⟨l,r,rfl,hi,hl,hr⟩ := insertAfter_placed cmp ptr t
      exact ⟨h :: l,r,rfl,by rw [insertNode,if_neg hlt,hi]; rfl,hlt,hl,hr⟩

theorem priqueueOffer_placed (mem : α → ρ) (q : PriqueueT α ρ) (ptr : α) :
    ∃ l r, q.head = l ++ r ∧
      (priqueueOffer mem q ptr).1 = { q with head := l ++ ptr :: r } ∧
      Placed q.cmp (mem ptr) (l.map mem) (r.map mem) := by
  obtain ⟨l,r,hq,hi,hp⟩ := insertNode_placed (fun a b => q.cmp (mem a) (mem b)) ptr q.head
  exact ⟨l,r,hq,by rw [priqueueOffer,hi],(placed_map q.cmp mem ptr l r).mpr hp⟩

theorem walkTo_append (l : List α) (n : α) (next : List α) (i : Int) :
    walkTo (i + l.length) i (l ++ n :: next) = (l,n :: next) := by
  induction l generalizing i with
  | nil => simp [walkTo]
  | cons x l ih =>
    have hne : ¬ i = i + ((x :: l).length : Int) := by
      simp only [List.length_cons]
      omega
    have hi : i + ((x :: l).length : Int) = (i + 1) + l.length := by
      simp only [List.length_cons]
      omega
    rw [List.cons_append,walkTo,if_neg hne,hi,ih]

theorem walkTo_zero (l : List α) (n : α) (next : List α) :
    walkTo l.length 0 (l ++ n :: next) = (l,n :: next) := by
  simpa using walkTo_append l n next 0

theorem priqueueAt_append {q : PriqueueT α ρ} {l next : List α} {n : α}
    (h : q.head = l ++ n :: next) : priqueueAt q l.length = .ok n := by
  rw [priqueueAt,h,walkTo_zero]

theorem priqueueRemoveAt_append {q : PriqueueT α ρ} {l next : List α} {n : α}
    (h : q.head = l ++ n :: next) :
    priqueueRemoveAt q l.length = .ok ({ q with head := l ++ next },n) := by
  rw [priqueueRemoveAt,h,walkTo_zero]
  cases l <;> rfl

end OperatingSystemLabs.Scheduler

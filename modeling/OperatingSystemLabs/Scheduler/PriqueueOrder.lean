import OperatingSystemLabs.Scheduler.Priqueue

namespace OperatingSystemLabs.Scheduler

open Insertion

variable {α ρ : Type}

def priqueuePoll (q : PriqueueT α ρ) : Except Fault (PriqueueT α ρ × α) :=
  match q.head with
  | [] => .error .nullDereference
  | n :: next => .ok ({ q with head := next },n)

-- while (n != NULL) { n = n->next; count++; }
def countNodes : Int → List α → Int
  | count, [] => count
  | count, _ :: next => countNodes (count + 1) next

inductive Operation (α : Type) where
  | offer (ptr : α)
  | poll
  | removeAt (index : Int)

def Operation.Valid (q : PriqueueT α ρ) : Operation α → Prop
  | .offer _ => True
  | .poll => q.head ≠ []
  | .removeAt index => 0 ≤ index ∧ index < priqueueSize q

def Operation.offered : Operation α → List α
  | .offer ptr => [ptr]
  | _ => []

def Operation.perform (mem : α → ρ) (q : PriqueueT α ρ) :
    Operation α → Except Fault (PriqueueT α ρ × List α)
  | .offer ptr => .ok ((priqueueOffer mem q ptr).1,[])
  | .poll => do
      let (q,value) ← priqueuePoll q
      return (q,[value])
  | .removeAt index => do
      let (q,data) ← priqueueRemoveAt q index
      return (q,[data])

-- The elements offered and those returned in the calls made since priqueue_init.
inductive Session (mem : α → ρ) (comparer : ρ → ρ → Int) : List α → List α → PriqueueT α ρ → Prop
  | init : Session mem comparer [] [] (priqueueInit comparer)
  | call {offered returned ptrs : List α} {q q' : PriqueueT α ρ} (op : Operation α) :
      Session mem comparer offered returned q → op.Valid q → op.perform mem q = .ok (q',ptrs) →
      Session mem comparer (offered ++ op.offered) (returned ++ ptrs) q'

variable {mem : α → ρ} {comparer : ρ → ρ → Int} {offered returned ptrs : List α}
variable {q q' : PriqueueT α ρ} {op : Operation α}

theorem countNodes_length (count : Int) (head : List α) : countNodes count head = count + head.length := by
  induction head generalizing count with
  | nil => exact (Int.add_zero count).symm
  | cons n next ih =>
    rw [countNodes,ih,List.length_cons]
    omega

theorem priqueueAt_getElem {i : Nat} (h : i < q.head.length) : priqueueAt q i = .ok q.head[i] := by
  have hcut : q.head = q.head.take i ++ q.head[i] :: q.head.drop (i + 1) := by
    rw [List.getElem_cons_drop,List.take_append_drop]
  have hat := priqueueAt_append hcut
  rwa [List.length_take_of_le h.le] at hat

theorem removeAt_cut {index : Int} (h0 : 0 ≤ index) (h : index < priqueueSize q) :
    ∃ l n next, q.head = l ++ n :: next ∧ (l.length : Int) = index ∧
      priqueueRemoveAt q index = .ok ({ q with head := l ++ next },n) := by
  obtain ⟨i,rfl⟩ := Int.eq_ofNat_of_zero_le h0
  have hi : i < q.head.length := by
    rw [priqueueSize] at h
    omega
  have hcut : q.head = q.head.take i ++ q.head[i] :: q.head.drop (i + 1) := by
    rw [List.getElem_cons_drop,List.take_append_drop]
  have hremove := priqueueRemoveAt_append hcut
  rw [List.length_take_of_le hi.le] at hremove
  exact ⟨_,_,_,hcut,by rw [List.length_take_of_le hi.le],hremove⟩

theorem perform_cases (hv : op.Valid q) (h : op.perform mem q = .ok (q',ptrs)) :
    (∃ ptr l r, op = .offer ptr ∧ ptrs = [] ∧ q.head = l ++ r ∧ q' = { q with head := l ++ ptr :: r } ∧
      Placed q.cmp (mem ptr) (l.map mem) (r.map mem)) ∨
    ∃ l n r, op.offered = [] ∧ ptrs = [n] ∧ q.head = l ++ n :: r ∧ q' = { q with head := l ++ r } := by
  cases op with
  | offer ptr =>
    obtain ⟨l,r,hq,hoffer,hp⟩ := priqueueOffer_placed mem q ptr
    cases h
    exact .inl ⟨ptr,l,r,rfl,rfl,hq,hoffer,hp⟩
  | poll =>
    rw [Operation.perform,priqueuePoll] at h
    cases hq : q.head with
    | nil => exact absurd hq hv
    | cons n next =>
      rw [hq] at h
      cases h
      exact .inr ⟨[],n,next,rfl,rfl,rfl,rfl⟩
  | removeAt index =>
    obtain ⟨l,n,next,hq,-,hremove⟩ := removeAt_cut hv.1 hv.2
    rw [Operation.perform,hremove] at h
    cases h
    exact .inr ⟨l,n,next,rfl,rfl,hq,rfl⟩

theorem perform_ok (mem : α → ρ) (hv : op.Valid q) : ∃ q' ptrs, op.perform mem q = .ok (q',ptrs) := by
  cases op with
  | offer ptr => exact ⟨_,_,rfl⟩
  | poll =>
    rw [Operation.perform,priqueuePoll]
    cases hq : q.head with
    | nil => exact absurd hq hv
    | cons n next => exact ⟨_,_,rfl⟩
  | removeAt index =>
    obtain ⟨l,n,next,-,-,hremove⟩ := removeAt_cut hv.1 hv.2
    rw [Operation.perform,hremove]
    exact ⟨_,_,rfl⟩

theorem session_cmp (h : Session mem comparer offered returned q) : q.cmp = comparer := by
  induction h with
  | init => rfl
  | call op _ hv hrun ih =>
    rcases perform_cases hv hrun with ⟨ptr,l,r,-,-,-,rfl,-⟩ | ⟨l,n,r,-,-,-,rfl⟩ <;> exact ih

theorem session_balance (h : Session mem comparer offered returned q) :
    offered.Perm (q.head ++ returned) := by
  induction h with
  | init => exact .nil
  | @call _ returned _ _ _ op _ hv hrun ih =>
    rcases perform_cases hv hrun with ⟨ptr,l,r,rfl,rfl,hq,rfl,-⟩ | ⟨l,n,r,hop,rfl,hq,rfl⟩
    · rw [hq] at ih
      simp only [Operation.offered,List.append_nil,List.append_assoc,List.cons_append]
      rw [List.append_assoc] at ih
      exact (List.perm_append_comm.trans (ih.cons ptr)).trans List.perm_middle.symm
    · rw [hq] at ih
      rw [hop,List.append_nil]
      refine ih.trans ?_
      simp only [List.append_assoc,List.cons_append]
      refine List.Perm.append_left l ?_
      rw [← List.append_assoc r]
      exact (List.perm_append_singleton n (r ++ returned)).symm

theorem session_ordered (hcmp : TotalPreorder (fun a b => comparer (mem a) (mem b)))
    (h : Session mem comparer offered returned q) :
    Ordered (fun a b => comparer (mem a) (mem b)) q.head := by
  induction h with
  | init => exact .nil
  | call op hsession hv hrun ih =>
    rcases perform_cases hv hrun with ⟨ptr,l,r,-,-,hq,rfl,hp⟩ | ⟨l,n,r,-,-,hq,rfl⟩
    · rw [session_cmp hsession] at hp
      exact hcmp.placed_ordered ((placed_map comparer mem ptr l r).mp hp) (hq ▸ ih)
    · rw [hq] at ih
      exact ih.sublist ((List.sublist_cons_self n r).append_left l)

theorem priqueue_representation (hcmp : TotalPreorder (fun a b => comparer (mem a) (mem b)))
    (h : Session mem comparer offered returned q) :
    q.head.Pairwise (fun a b => comparer (mem a) (mem b) ≤ 0) ∧
    offered.Perm (q.head ++ returned) ∧
    countNodes 0 q.head = priqueueSize q ∧
    (∀ (i : Nat) (hi : i < priqueueSize q), priqueueAt q i = .ok (q.head.get ⟨i,hi⟩)) ∧
    (∀ op : Operation α, op.Valid q → ∃ q' ptrs, op.perform mem q = .ok (q',ptrs) ∧
      Session mem comparer (offered ++ op.offered) (returned ++ ptrs) q') ∧
    ∀ q' x, priqueuePoll q = .ok (q',x) → ∀ y ∈ q.head, comparer (mem x) (mem y) ≤ 0 := by
  have hordered := session_ordered hcmp h
  refine ⟨hordered,session_balance h,?_,fun i hi => priqueueAt_getElem hi,fun op hv => ?_,?_⟩
  · rw [countNodes_length]
    exact Int.zero_add _
  · obtain ⟨q',ptrs,hrun⟩ := perform_ok mem hv
    exact ⟨q',ptrs,hrun,.call op h hv hrun⟩
  · intro q' x hpoll y hy
    rw [priqueuePoll] at hpoll
    cases hq : q.head with
    | nil => rw [hq] at hy; cases hy
    | cons n next =>
      rw [hq] at hpoll hy hordered
      cases hpoll
      rcases List.mem_cons.mp hy with rfl | hy
      · exact hcmp.refl y
      · exact (List.pairwise_cons.mp hordered).1 y hy

-- The five offers and the poll of queuetest.c.
theorem priqueue_representation_queuetest :
    ∃ q : PriqueueT Int Int, Session (id : Int → Int) (fun a b => a - b) [12,13,14,12,12] [12] q ∧
      q.head.Pairwise (fun a b => a - b ≤ 0) ∧ [12,13,14,12,12].Perm (q.head ++ [12]) ∧
      countNodes 0 q.head = priqueueSize q := by
  have hcmp : TotalPreorder (fun a b : Int => a - b) :=
    ⟨fun a b => by omega,fun a b c hab hbc => by omega⟩
  have session : Session (id : Int → Int) (fun a b => a - b) [12,13,14,12,12] [12]
      { cmp := fun a b => a - b, head := [12,12,13,14] } :=
    .call .poll (.call (.offer 12) (.call (.offer 12) (.call (.offer 14) (.call (.offer 13)
      (.call (.offer 12) .init trivial rfl) trivial rfl) trivial rfl) trivial rfl) trivial rfl)
      (List.cons_ne_nil _ _) rfl
  obtain ⟨hsorted,hbalance,hcount,-⟩ := priqueue_representation hcmp session
  exact ⟨_,session,hsorted,hbalance,hcount⟩

end OperatingSystemLabs.Scheduler

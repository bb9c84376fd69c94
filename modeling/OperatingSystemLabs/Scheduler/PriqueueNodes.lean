import OperatingSystemLabs.Foundation.Heap
import OperatingSystemLabs.Scheduler.PriqueueAnswers

namespace OperatingSystemLabs.Scheduler.Nodes

open Function Heaps Links Loop

variable {α ρ : Type}

structure Node (α : Type) where
  data : α
  next : Option Nat

structure PriqueueT (ρ : Type) where
  cmp : ρ → ρ → Int
  head : Option Nat

def setData (p : Option Nat) (data : α) (h : Heap (Node α)) : Except Misuse (Heap (Node α)) := do
  let n ← h.load p
  h.store { n with data := data } p

def setNext (p next : Option Nat) (h : Heap (Node α)) : Except Misuse (Heap (Node α)) := do
  let n ← h.load p
  h.store { n with next := next } p

def priqueueInit (comparer : ρ → ρ → Int) : PriqueueT ρ := ⟨comparer,none⟩

def priqueueSize (q : PriqueueT ρ) (h : Heap (Node α)) : Except Misuse Int := do
  let s ← repeatWhile .endless (fun s => return s.2.isSome)
    (fun s => do return (s.1 + 1,(← h.load s.2).next)) (h.live.card + 1) ((0 : Int),q.head)
  return s.1

-- while(temp != NULL && q->cmp(insert->data, temp->data) > 0), with `previous` one node behind
def passLower (mem : α → ρ) (q : PriqueueT ρ) (insert : Option Nat) (h : Heap (Node α)) :
    Option Nat × Option Nat → Except Misuse (Option Nat × Option Nat) :=
  repeatWhile .endless
    (fun s => do
      if s.2 = none then return false
      return decide (0 < q.cmp (mem (← h.load insert).data) (mem (← h.load s.2).data)))
    (fun s => do return (s.2,(← h.load s.2).next)) (h.live.card + 1)

def linkNode (mem : α → ρ) (q : PriqueueT ρ) (insert : Option Nat) (h : Heap (Node α)) :
    Except Misuse (PriqueueT ρ × Heap (Node α)) := do
  if q.head = none then return ({ q with head := insert },h)
  else if q.cmp (mem (← h.load insert).data) (mem (← h.load q.head).data) < 0 then
    let h ← setNext insert q.head h
    return ({ q with head := insert },h)
  else
    let (previous,temp) ← passLower mem q insert h (q.head,(← h.load q.head).next)
    if temp = none then return (q,← setNext previous insert h)
    else
      let h ← setNext insert temp h
      return (q,← setNext previous insert h)

def priqueueOffer (A : Malloc (Node α)) (mem : α → ρ) (q : PriqueueT ρ) (ptr : α) (h : Heap (Node α)) :
    Except Misuse (PriqueueT ρ × Int × Heap (Node α)) := do
  let insert := some (A.address h)
  let h ← setData insert ptr (h.alloc A)
  let h ← setNext insert none h
  let (q,h) ← linkNode mem q insert h
  return (q,(← priqueueSize q h) - 1,h)

def priqueuePeek (q : PriqueueT ρ) (h : Heap (Node α)) : Except Misuse α := do
  return (← h.load q.head).data

def priqueuePoll (q : PriqueueT ρ) (h : Heap (Node α)) : Except Misuse (PriqueueT ρ × α) := do
  let n ← h.load q.head
  return ({ q with head := n.next },n.data)

-- The node that malloc gives is lost: `n` is set to the head of the queue right after.
def priqueueAt (A : Malloc (Node α)) (q : PriqueueT ρ) (index : Int) (h : Heap (Node α)) :
    Except Misuse (α × Heap (Node α)) := do
  let h := h.alloc A
  let s ← repeatWhile .endless (fun s => return s.1 != index && s.2.isSome)
    (fun s => do return (s.1 + 1,(← h.load s.2).next)) (h.live.card + 1) ((0 : Int),q.head)
  return ((← h.load s.2).data,h)

def unlinkNode (prev n : Option Nat) (q : PriqueueT ρ) (h : Heap (Node α)) :
    Except Misuse (PriqueueT ρ × α × Heap (Node α)) := do
  if n = q.head then
    let q := { q with head := (← h.load q.head).next }
    return (q,(← h.load n).data,h)
  else if n ≠ none then
    let h ← setNext prev (← h.load n).next h
    return (q,(← h.load n).data,h)
  else return (q,(← h.load n).data,h)

-- The locals are ((i,prev),n); both nodes that malloc gives are lost.
def priqueueRemoveAt (A : Malloc (Node α)) (q : PriqueueT ρ) (index : Int) (h : Heap (Node α)) :
    Except Misuse (PriqueueT ρ × α × Heap (Node α)) := do
  let prev := some (A.address h)
  let h := (h.alloc A).alloc A
  let s ← repeatWhile .endless (fun s => return s.1.1 != index && s.2.isSome)
    (fun s => do return ((s.1.1 + 1,s.2),(← h.load s.2).next)) (h.live.card + 1) (((0 : Int),prev),q.head)
  unlinkNode s.1.2 s.2 q h

-- `previous` is none until it has a value, which may be NULL.
structure Removal (α : Type) where
  head : Option Nat
  previous : Option (Option Nat)
  temp : Option Nat
  numRemoved : Int
  heap : Heap (Node α)

-- while(temp != NULL)
def remains (s : Removal α) : Except Misuse Bool := return s.temp.isSome

def removeRound (compared : α → Int) (s : Removal α) : Except Misuse (Removal α) := do
  let n ← s.heap.load s.temp
  if compared n.data = 0 then
    match s.previous with
    | none => throw .uninitialised
    | some none =>
        let first ← s.heap.load s.head
        return { s with head := first.next, temp := first.next, numRemoved := s.numRemoved + 1 }
    | some previous =>
        let heap ← setNext previous n.next s.heap
        let p ← heap.load previous
        return { s with temp := p.next, numRemoved := s.numRemoved + 1, heap := heap }
  else return { s with previous := some s.temp, temp := n.next }

def priqueueRemove (mem : α → ρ) (q : PriqueueT ρ) (ptr : α) (h : Heap (Node α)) :
    Except Misuse (PriqueueT ρ × Int × Heap (Node α)) := do
  let s ← repeatWhile .endless remains (removeRound fun data => q.cmp (mem data) (mem ptr)) (h.live.card + 1)
    ⟨q.head,none,q.head,0,h⟩
  return ({ q with head := s.head },s.numRemoved,s.heap)

-- while ((curr = q->head) != NULL)
def occupied (s : Option Nat × Heap (Node α)) : Except Misuse Bool := return s.1.isSome

def freeRound (s : Option Nat × Heap (Node α)) : Except Misuse (Option Nat × Heap (Node α)) := do
  let curr := s.1
  let n ← s.2.load s.1
  return (n.next,← s.2.free curr)

-- The node that malloc gives to `curr` is lost.
def priqueueDestroy (A : Malloc (Node α)) (q : PriqueueT ρ) (h : Heap (Node α)) :
    Except Misuse (PriqueueT ρ × Heap (Node α)) := do
  let h := h.alloc A
  let s ← repeatWhile .endless occupied freeRound (h.live.card + 1) (q.head,h)
  return ({ q with head := s.1 },s.2)

variable {A : Malloc (Node α)} {base h h' : Heap (Node α)} {q : PriqueueT ρ} {head cur : Option Nat} {p a : Nat}
variable {ps l r : List Nat} {lost : Nat} {mem : α → ρ} {ptr : α} {index : Int}

def relink (p : Nat) (next : Option Nat) (h : Heap (Node α)) : Heap (Node α) :=
  ⟨h.live,update h.cell p { h.cell p with next := next }⟩

def contents (h : Heap (Node α)) (ps : List Nat) : List α := ps.map fun p => (h.cell p).data

-- The queue has the nodes `ps`. Besides them `lost` blocks were allocated since `base`, where all that was there
-- is as it was.
structure Holds (base h : Heap (Node α)) (head : Option Nat) (ps : List Nat) (lost : Nat) : Prop where
  strung : Strung Node.next h head ps
  kept : ∀ p ∈ base.live, p ∈ h.live ∧ h.cell p = base.cell p ∧ p ∉ ps
  card : h.live.card = base.live.card + ps.length + lost

theorem setNext_live (hp : p ∈ h.live) (next : Option Nat) : setNext (some p) next h = .ok (relink p next h) := by
  rw [setNext,bind_ok _ (load_live hp),store_live hp]
  rfl

theorem relink_self (p : Nat) (next : Option Nat) (h : Heap (Node α)) :
    (relink p next h).cell p = ⟨(h.cell p).data,next⟩ := update_self ..

theorem relink_of_ne {x : Nat} (hx : x ≠ p) (next : Option Nat) : (relink p next h).cell x = h.cell x :=
  update_of_ne hx ..

theorem relink_data (x : Nat) (next : Option Nat) : ((relink p next h).cell x).data = (h.cell x).data := by
  by_cases hx : x = p
  · subst hx
    rw [relink_self]
  · rw [relink_of_ne hx]

theorem contents_relink (next : Option Nat) : contents (relink p next h) ps = contents h ps :=
  List.map_congr_left fun x _ => relink_data x next

theorem contents_alloc (hs : Strung Node.next h head ps) : contents (h.alloc A) ps = contents h ps :=
  List.map_congr_left fun p hp => by rw [alloc_cell (hs.live p hp)]

theorem Holds.alloc (hh : Holds base h head ps lost) : Holds base (h.alloc A) head ps (lost + 1) where
  strung := hh.strung.alloc
  kept p hp := ⟨alloc_live (hh.kept p hp).1,(alloc_cell (hh.kept p hp).1).trans (hh.kept p hp).2.1,(hh.kept p hp).2.2⟩
  card := by rw [alloc_card,hh.card,Nat.add_assoc]

theorem Holds.fuel (hh : Holds base h head ps lost) : ps.length < h.live.card + 1 :=
  Nat.lt_succ_of_le hh.strung.length_le

theorem Holds.pop (hh : Holds base h (some p) (p :: ps) lost) : Holds base h (h.cell p).next ps (lost + 1) where
  strung := hh.strung.tail
  kept x hx := ⟨(hh.kept x hx).1,(hh.kept x hx).2.1,fun hm => (hh.kept x hx).2.2 (List.mem_cons_of_mem p hm)⟩
  card := by
    rw [hh.card,List.length_cons]
    omega

theorem Holds.unlink (hh : Holds base h head (l ++ p :: a :: r) lost) :
    Holds base (relink p (h.cell a).next h) head (l ++ p :: r) (lost + 1) := by
  have hnodup : p ∉ l ++ r := by
    have hsub : (l ++ p :: r).Sublist (l ++ p :: a :: r) := ((List.sublist_cons_self a r).cons_cons p).append_left l
    exact (List.nodup_middle.mp (hh.strung.nodup.sublist hsub)).notMem
  have hother {x : Nat} (hx : x ∈ l ++ r) : x ≠ p := ne_of_mem_of_not_mem hx hnodup
  refine ⟨⟨chain_remove hh.strung.chain (fun x hx => ?_) (by rw [relink_self]),fun x hx => ?_⟩,fun x hx => ?_,?_⟩
  · exact congrArg Node.next (relink_of_ne (hother hx) _)
  · refine hh.strung.live x ?_
    simp only [List.mem_append,List.mem_cons] at hx ⊢
    tauto
  · obtain ⟨hlive,hcell,hout⟩ := hh.kept x hx
    have hxp : x ≠ p := fun he => hout (by simp [he])
    refine ⟨hlive,(relink_of_ne hxp _).trans hcell,fun hm => hout ?_⟩
    simp only [List.mem_append,List.mem_cons] at hm ⊢
    tauto
  · have hcard := hh.card
    simp only [List.length_append,List.length_cons] at hcard ⊢
    exact hcard.trans (by omega)

theorem stroll_count (count : Int) (ps : List Nat) :
    (stroll (fun _ _ => true) (fun (c : Int) _ => c + 1) count ps).1 = count + ps.length := by
  induction ps generalizing count with
  | nil => exact (Int.add_zero count).symm
  | cons p ps ih =>
    rw [stroll,if_pos rfl,ih,List.length_cons]
    omega

theorem priqueueSize_holds (hh : Holds base h q.head ps lost) : priqueueSize q h = .ok (ps.length : Int) := by
  rw [priqueueSize]
  refine (bind_ok _ (repeatWhile_stroll (fun _ _ => true) (fun c _ => c + 1) hh.strung (fun _ => rfl)
    (fun _ _ _ => rfl) (fun s p hp => bind_ok _ (load_live (hh.strung.live p hp))) hh.fuel)).trans ?_
  rw [stroll_count,Int.zero_add]
  rfl

def Follows (base : Heap (Node α)) (lost : Nat) (x : Scheduler.PriqueueT α ρ) (q : PriqueueT ρ)
    (h : Heap (Node α)) : Prop :=
  q.cmp = x.cmp ∧ ∃ ps, Holds base h q.head ps lost ∧ contents h ps = x.head

def asNull {β : Type} (r : Except Fault β) : Except Misuse β := r.mapError fun _ => .null

variable {x : Scheduler.PriqueueT α ρ}

theorem Follows.cases (hf : Follows base lost x q h) :
    (q.head = none ∧ x.head = []) ∨ ∃ p ps, q.head = some p ∧ Holds base h (some p) (p :: ps) lost ∧
      x.head = (h.cell p).data :: contents h ps := by
  obtain ⟨-,ps,hh,hx⟩ := hf
  rcases hh.strung.cases with ⟨hq,rfl⟩ | ⟨p,ps,hq,rfl⟩
  · exact .inl ⟨hq,hx.symm⟩
  · exact .inr ⟨p,ps,hq,hq ▸ hh,hx.symm⟩

theorem priqueuePeek_follows (hf : Follows base lost x q h) :
    Agree (· = ·) (asNull (Scheduler.priqueuePeek x)) (priqueuePeek q h) := by
  rcases hf.cases with ⟨hq,hx⟩ | ⟨p,ps,hq,hh,hx⟩
  · rw [priqueuePeek,Scheduler.priqueuePeek,hq,hx]
    rfl
  · rw [priqueuePeek,Scheduler.priqueuePeek,hq,hx,bind_ok _ (load_live (hh.strung.live p List.mem_cons_self))]
    rfl

theorem priqueuePoll_follows (hf : Follows base lost x q h) :
    Agree (fun r s => r.2 = s.2 ∧ Follows base (lost + 1) r.1 s.1 h) (asNull (Scheduler.priqueuePoll x))
      (priqueuePoll q h) := by
  rcases hf.cases with ⟨hq,hx⟩ | ⟨p,ps,hq,hh,hx⟩
  · rw [priqueuePoll,Scheduler.priqueuePoll,hq,hx]
    rfl
  · rw [priqueuePoll,Scheduler.priqueuePoll,hq,hx,bind_ok _ (load_live (hh.strung.live p List.mem_cons_self))]
    exact ⟨rfl,hf.1,ps,hh.pop,rfl⟩

theorem stroll_walkTo {σ β : Type} (go : σ → Nat → Bool) (pass : σ → Nat → σ) (i : σ → Int) (data : Nat → β)
    (hgo : ∀ s p, go s p = (i s != index)) (hpass : ∀ s p, i (pass s p) = i s + 1) (s : σ) (ps : List Nat) :
    ∃ passed rest, ps = passed ++ rest ∧ stroll go pass s ps = (passed.foldl pass s,rest) ∧
      walkTo index (i s) (ps.map data) = (passed.map data,rest.map data) := by
  induction ps generalizing s with
  | nil => exact ⟨[],[],rfl,rfl,rfl⟩
  | cons p ps ih =>
    rw [List.map_cons,walkTo]
    by_cases hi : i s = index
    · have hstop : ¬ go s p = true := by simp [hgo,hi]
      exact ⟨[],p :: ps,rfl,by rw [stroll,if_neg hstop]; rfl,by rw [if_pos hi]; rfl⟩
    · have hon : go s p = true := by simp [hgo,hi]
      obtain ⟨passed,rest,rfl,hrest,hwalk⟩ := ih (pass s p)
      rw [hpass] at hwalk
      exact ⟨p :: passed,rest,rfl,by rw [stroll,if_pos hon,hrest]; rfl,by rw [if_neg hi,hwalk]; rfl⟩

theorem priqueueAt_follows (A : Malloc (Node α)) (index : Int) (hf : Follows base lost x q h) :
    Agree (fun r s => r = s.1 ∧ Follows base (lost + 1) x q s.2) (asNull (Scheduler.priqueueAt x index))
      (priqueueAt A q index h) := by
  obtain ⟨hcmp,ps,hh,hx⟩ := hf
  have hs := hh.strung.alloc (A := A)
  have hafter : Follows base (lost + 1) x q (h.alloc A) := ⟨hcmp,ps,hh.alloc,(contents_alloc hh.strung).trans hx⟩
  obtain ⟨passed,rest,hps,hstroll,hwalk⟩ := stroll_walkTo (fun s _ => s != index) (fun s _ => s + 1) id
    (fun p => ((h.alloc A).cell p).data) (fun _ _ => rfl) (fun _ _ => rfl) 0 ps
  have hl : ps.map (fun p => ((h.alloc A).cell p).data) = x.head := (contents_alloc hh.strung).trans hx
  rw [hl] at hwalk
  have hwalk : walkTo index 0 x.head = _ := hwalk
  rw [priqueueAt,bind_ok _ (repeatWhile_stroll (fun s _ => s != index) (fun s _ => s + 1) hs ?_ ?_ ?_ hh.alloc.fuel),
    hstroll,Scheduler.priqueueAt,hwalk]
  · cases rest with
    | nil => rfl
    | cons p rest =>
      show Agree _ _ ((h.alloc A).load (some p) >>= _)
      rw [bind_ok _ (load_live (hs.live p (by simp [hps])))]
      exact ⟨rfl,hafter⟩
  · exact fun s => congrArg Except.ok (Bool.and_false _)
  · exact fun s p _ => congrArg Except.ok (Bool.and_true _)
  · exact fun s p hp => bind_ok _ (load_live (hs.live p hp))

theorem previous_passed (i : Int) (prev : Option Nat) (passed : List Nat) :
    (passed.foldl (fun (s : Int × Option Nat) p => (s.1 + 1,some p)) (i,prev)).2 = passed.getLast?.or prev := by
  induction passed generalizing i prev with
  | nil => rfl
  | cons p passed ih =>
    rw [List.foldl_cons,ih,List.getLast?_cons]
    cases passed.getLast? <;> rfl

theorem unlinkNode_follows {passed rest : List Nat} (prev : Option Nat) (hcmp : q.cmp = x.cmp)
    (hh : Holds base h q.head (passed ++ rest) lost)
    (hwalk : walkTo index 0 x.head = (contents h passed,contents h rest)) :
    Agree (fun r s => r.2 = s.2.1 ∧ Follows base (lost + 1) r.1 s.1 s.2.2)
      (asNull (Scheduler.priqueueRemoveAt x index)) (unlinkNode (passed.getLast?.or prev) rest.head? q h) := by
  have hs := hh.strung
  rw [Scheduler.priqueueRemoveAt,hwalk,unlinkNode]
  cases passed using List.reverseRecOn with
  | nil =>
    have hhead : rest.head? = q.head := hs.head.symm
    rw [if_pos hhead]
    cases rest with
    | nil =>
      rw [show q.head = none from hs.head]
      rfl
    | cons p rest =>
      have hq : q.head = some p := hs.head
      have hload : h.load (some p) = .ok (h.cell p) := load_live (hs.live p (by simp))
      rw [hq] at hh ⊢
      rw [bind_ok _ hload]
      show Agree _ _ (h.load (some p) >>= _)
      rw [bind_ok _ hload]
      exact ⟨rfl,hcmp,rest,hh.pop,rfl⟩
  | append_singleton l b =>
    have hlist : contents h (l ++ [b]) ≠ [] := by simp [contents]
    rw [List.append_assoc,List.singleton_append] at hh hs
    rw [List.getLast?_concat,Option.some_or]
    cases rest with
    | nil =>
      have hne : ¬ ([] : List Nat).head? = q.head := by
        rw [hs.head]
        cases l <;> simp
      rw [if_neg hne,if_neg (by simp)]
      cases hc : contents h (l ++ [b]) with
      | nil => exact absurd hc hlist
      | cons y ys => rfl
    | cons p rest =>
      have hapart : p ∉ l ++ [b] := by
        have hnodup := hs.nodup
        rw [List.append_cons,List.nodup_append] at hnodup
        exact fun hm => hnodup.2.2 p hm p (by simp) rfl
      have hne : ¬ (p :: rest).head? = q.head := by
        rw [hs.head]
        cases l <;> simp_all
      have hpb : p ≠ b := fun he => hapart (by simp [he])
      have hp : p ∈ h.live := hs.live p (by simp)
      have hrelinked : (relink b (h.cell p).next h).load (some p) = .ok (h.cell p) := by
        rw [load_live (by exact hp),relink_of_ne hpb]
      rw [if_neg hne,if_pos (by simp),List.head?_cons,bind_ok _ (load_live hp),
        bind_ok _ (setNext_live (hs.live b (by simp)) _),bind_ok _ hrelinked]
      have hcontents : contents (relink b (h.cell p).next h) (l ++ b :: rest) =
          contents h (l ++ [b]) ++ contents h rest := by
        rw [contents_relink,List.append_cons]
        exact List.map_append
      cases hc : contents h (l ++ [b]) with
      | nil => exact absurd hc hlist
      | cons y ys => exact ⟨rfl,hcmp,_,hh.unlink,by rw [hcontents,hc]; rfl⟩

theorem priqueueRemoveAt_follows (A : Malloc (Node α)) (index : Int) (hf : Follows base lost x q h) :
    Agree (fun r s => r.2 = s.2.1 ∧ Follows base (lost + 3) r.1 s.1 s.2.2)
      (asNull (Scheduler.priqueueRemoveAt x index)) (priqueueRemoveAt A q index h) := by
  obtain ⟨hcmp,ps,hh,hx⟩ := hf
  have hh₂ : Holds base ((h.alloc A).alloc A) q.head ps (lost + 2) := hh.alloc.alloc
  have hs := hh₂.strung
  have hl : contents ((h.alloc A).alloc A) ps = x.head :=
    (contents_alloc hh.alloc.strung).trans ((contents_alloc hh.strung).trans hx)
  obtain ⟨passed,rest,hps,hstroll,hwalk⟩ := stroll_walkTo (fun s _ => s.1 != index)
    (fun (s : Int × Option Nat) p => (s.1 + 1,some p)) Prod.fst
    (fun p => (((h.alloc A).alloc A).cell p).data) (fun _ _ => rfl) (fun _ _ => rfl) (0,some (A.address h)) ps
  rw [show ps.map (fun p => (((h.alloc A).alloc A).cell p).data) = x.head from hl] at hwalk
  rw [priqueueRemoveAt,bind_ok _ (repeatWhile_stroll (fun s _ => s.1 != index)
    (fun (s : Int × Option Nat) p => (s.1 + 1,some p)) hs ?_ ?_ ?_ hh₂.fuel),hstroll,previous_passed]
  · exact unlinkNode_follows _ hcmp (hps ▸ hh₂) hwalk
  · exact fun s => congrArg Except.ok (Bool.and_false _)
  · exact fun s p _ => congrArg Except.ok (Bool.and_true _)
  · exact fun s p hp => bind_ok _ (load_live (hs.live p hp))

end OperatingSystemLabs.Scheduler.Nodes

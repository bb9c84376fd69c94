import Mathlib.Data.Fintype.EquivFin
import Mathlib.Data.Nat.Find
import OperatingSystemLabs.Scheduler.PriqueueMemory

namespace OperatingSystemLabs.Scheduler.Nodes

open Heaps Loop

variable {α ρ : Type}

inductive Call (α : Type) where
  | offer (ptr : α)
  | peek
  | poll
  | elementAt (index : Int)
  | remove (ptr : α)
  | removeAt (index : Int)
  | size
  deriving DecidableEq, Repr

inductive Reply (α : Type) where
  | number (n : Int)
  | element (data : α)
  deriving DecidableEq, Repr

-- A call on the list of elements, where a NULL or uninitialised pointer is all that can be misused.
def Call.answer (mem : α → ρ) (x : Scheduler.PriqueueT α ρ) :
    Call α → Except Misuse (Scheduler.PriqueueT α ρ × Reply α)
  | .offer ptr => .ok (Scheduler.priqueueOffer mem x ptr) >>= fun r => .ok (r.1,.number r.2)
  | .peek => asNull (Scheduler.priqueuePeek x) >>= fun data => .ok (x,.element data)
  | .poll => asNull (Scheduler.priqueuePoll x) >>= fun r => .ok (r.1,.element r.2)
  | .elementAt index => asNull (Scheduler.priqueueAt x index) >>= fun data => .ok (x,.element data)
  | .remove ptr =>
      (Scheduler.priqueueRemove mem x ptr).mapError (fun _ => .uninitialised) >>= fun r => .ok (r.1,.number r.2)
  | .removeAt index => asNull (Scheduler.priqueueRemoveAt x index) >>= fun r => .ok (r.1,.element r.2)
  | .size => .ok (x,.number (Scheduler.priqueueSize x))

def Call.run (A : Malloc (Node α)) (mem : α → ρ) (q : PriqueueT ρ) (h : Heap (Node α)) :
    Call α → Except Misuse (PriqueueT ρ × Heap (Node α) × Reply α)
  | .offer ptr => priqueueOffer A mem q ptr h >>= fun s => .ok (s.1,s.2.2,.number s.2.1)
  | .peek => priqueuePeek q h >>= fun data => .ok (q,h,.element data)
  | .poll => priqueuePoll q h >>= fun s => .ok (s.1,h,.element s.2)
  | .elementAt index => priqueueAt A q index h >>= fun s => .ok (q,s.2,.element s.1)
  | .remove ptr => priqueueRemove mem q ptr h >>= fun s => .ok (s.1,s.2.2,.number s.2.1)
  | .removeAt index => priqueueRemoveAt A q index h >>= fun s => .ok (s.1,s.2.2,.element s.2.1)
  | .size => priqueueSize q h >>= fun count => .ok (q,h,.number count)

def answers (mem : α → ρ) : List (Call α) → Scheduler.PriqueueT α ρ →
    Except Misuse (Scheduler.PriqueueT α ρ × List (Reply α))
  | [], x => .ok (x,[])
  | c :: calls, x => c.answer mem x >>= fun y => answers mem calls y.1 >>= fun z => .ok (z.1,y.2 :: z.2)

def runs (A : Malloc (Node α)) (mem : α → ρ) : List (Call α) → PriqueueT ρ → Heap (Node α) →
    Except Misuse (PriqueueT ρ × Heap (Node α) × List (Reply α))
  | [], q, h => .ok (q,h,[])
  | c :: calls, q, h =>
      c.run A mem q h >>= fun s => runs A mem calls s.1 s.2.1 >>= fun t => .ok (t.1,t.2.1,s.2.2 :: t.2.2)

-- The blocks that no pointer leads to any more once the call has come back: the nodes it took off the queue,
-- and those it asked malloc for without need.
def Call.leaks : Call α → Reply α → Nat
  | .poll, _ => 1
  | .elementAt _, _ => 1
  | .removeAt _, _ => 3
  | .remove _, .number numRemoved => numRemoved.toNat
  | _, _ => 0

def leaked (calls : List (Call α)) (replies : List (Reply α)) : Nat := (calls.zipWith Call.leaks replies).sum

variable {A : Malloc (Node α)} {base h : Heap (Node α)} {q : PriqueueT ρ} {lost : Nat} {mem : α → ρ}
variable {x : Scheduler.PriqueueT α ρ}

theorem call_agree (A : Malloc (Node α)) (mem : α → ρ) (c : Call α) (hf : Follows base lost x q h) :
    Agree (fun y s => y.2 = s.2.2 ∧ Follows base (lost + c.leaks y.2) y.1 s.1 s.2.1) (c.answer mem x)
      (c.run A mem q h) := by
  cases c with
  | offer ptr => exact (priqueueOffer_follows A mem ptr hf).bind fun r s hrs => ⟨congrArg Reply.number hrs.1,hrs.2⟩
  | peek => exact (priqueuePeek_follows hf).bind fun r s hrs => ⟨congrArg Reply.element hrs,hf⟩
  | poll => exact (priqueuePoll_follows hf).bind fun r s hrs => ⟨congrArg Reply.element hrs.1,hrs.2⟩
  | elementAt index => exact (priqueueAt_follows A index hf).bind fun r s hrs => ⟨congrArg Reply.element hrs.1,hrs.2⟩
  | remove ptr => exact (priqueueRemove_follows mem ptr hf).bind fun r s hrs => ⟨congrArg Reply.number hrs.1,hrs.2⟩
  | removeAt index =>
    exact (priqueueRemoveAt_follows A index hf).bind fun r s hrs => ⟨congrArg Reply.element hrs.1,hrs.2⟩
  | size =>
    obtain ⟨hcmp,ps,hh,hx⟩ := hf
    rw [Call.run,bind_ok _ (priqueueSize_holds hh)]
    refine ⟨congrArg Reply.number ?_,hcmp,ps,hh,hx⟩
    rw [Scheduler.priqueueSize,← hx,contents,List.length_map]

theorem runs_agree (A : Malloc (Node α)) (mem : α → ρ) (calls : List (Call α)) (hf : Follows base lost x q h) :
    Agree (fun y s => y.2 = s.2.2 ∧ Follows base (lost + leaked calls y.2) y.1 s.1 s.2.1) (answers mem calls x)
      (runs A mem calls q h) := by
  induction calls generalizing lost x q h with
  | nil => exact ⟨rfl,hf⟩
  | cons c calls ih =>
    refine (call_agree A mem c hf).bind fun y s hys => (ih hys.2).bind fun z t hzt => ?_
    refine ⟨congrArg₂ List.cons hys.1 hzt.1,?_⟩
    have hsum : lost + leaked (c :: calls) (y.2 :: z.2) = lost + c.leaks y.2 + leaked calls z.2 := by
      rw [leaked,List.zipWith_cons_cons,List.sum_cons,← Nat.add_assoc]
      rfl
    exact hsum ▸ hzt.2

theorem follows_init (comparer : ρ → ρ → Int) (base : Heap (Node α)) :
    Follows base 0 (Scheduler.priqueueInit comparer) (priqueueInit comparer) base :=
  ⟨rfl,[],⟨Strung.nil,fun p hp => ⟨hp,rfl,by simp⟩,rfl⟩,rfl⟩

theorem priqueue_nodes_refine (A : Malloc (Node α)) (mem : α → ρ) (comparer : ρ → ρ → Int) (calls : List (Call α))
    (base : Heap (Node α)) :
    Agree (fun y s => y.2 = s.2.2 ∧ s.1.cmp = y.1.cmp ∧ ∃ ps, Strung Node.next s.2.1 s.1.head ps ∧
        contents s.2.1 ps = y.1.head ∧ ∀ p ∈ base.live, p ∈ s.2.1.live ∧ s.2.1.cell p = base.cell p ∧ p ∉ ps)
      (answers mem calls (Scheduler.priqueueInit comparer)) (runs A mem calls (priqueueInit comparer) base) := by
  refine (runs_agree A mem calls (follows_init comparer base)).imp fun y s hys => ?_
  obtain ⟨hreply,hcmp,ps,hh,hx⟩ := hys
  exact ⟨hreply,hcmp,ps,hh.strung,hx,hh.kept⟩

theorem priqueue_leaks {comparer : ρ → ρ → Int} {calls : List (Call α)} {replies : List (Reply α)}
    (hrun : answers mem calls (Scheduler.priqueueInit comparer) = .ok (x,replies)) (A : Malloc (Node α))
    (base : Heap (Node α)) :
    ∃ q h h' ps, runs A mem calls (priqueueInit comparer) base = .ok (q,h,replies) ∧
      Strung Node.next h q.head ps ∧ contents h ps = x.head ∧
      h.live.card = base.live.card + x.head.length + leaked calls replies ∧
      priqueueDestroy A q h = .ok ({ q with head := none },h') ∧ (∀ p ∈ ps, p ∉ h'.live) ∧
      h'.live.card = base.live.card + leaked calls replies + 1 ∧
      ∀ p ∈ base.live, p ∈ h'.live ∧ h'.cell p = base.cell p := by
  obtain ⟨⟨q,h,rs⟩,hruns,hreply,hcmp,ps,hh,hx⟩ := Agree.ok (hrun ▸ runs_agree A mem calls (follows_init comparer base))
  obtain rfl : replies = rs := hreply
  obtain ⟨h',hdestroy,hh',hfreed⟩ := priqueueDestroy_frees A hh
  have hlen : ps.length = x.head.length := by rw [← hx,contents,List.length_map]
  refine ⟨q,h,h',ps,hruns,hh.strung,hx,?_,hdestroy,hfreed,?_,fun p hp => ⟨(hh'.kept p hp).1,(hh'.kept p hp).2.1⟩⟩
  · rw [hh.card,hlen,Nat.zero_add]
  · rw [hh'.card,List.length_nil]
    show base.live.card + 0 + (0 + leaked calls replies + 1) = _
    omega

theorem address_left (h : Heap (Node α)) : ∃ p, p ∉ h.live := Infinite.exists_notMem_finset h.live

def lowAddresses : Malloc (Node Int) where
  address h := Nat.find (address_left h)
  content _ := ⟨0,none⟩
  fresh h := Nat.find_spec (address_left h)

theorem priqueue_leaks_five : ∃ q h h', runs lowAddresses id [.offer 12,.offer 13,.remove 13,.removeAt 0]
      (priqueueInit fun a b : Int => a - b) ⟨∅,fun _ => ⟨0,none⟩⟩ =
        .ok (q,h,[.number 0,.number 1,.number 1,.element 12]) ∧
      priqueueDestroy lowAddresses q h = .ok ({ q with head := none },h') ∧ h'.live.card = 5 := by
  have hrun : answers id [.offer 12,.offer 13,.remove 13,.removeAt 0] (Scheduler.priqueueInit fun a b : Int => a - b) =
      .ok (⟨fun a b => a - b,[]⟩,[.number 0,.number 1,.number 1,.element 12]) := rfl
  obtain ⟨q,h,h',ps,hruns,-,-,-,hdestroy,-,hcard,-⟩ := priqueue_leaks hrun lowAddresses ⟨∅,fun _ => ⟨0,none⟩⟩
  exact ⟨q,h,h',hruns,hdestroy,hcard⟩

end OperatingSystemLabs.Scheduler.Nodes

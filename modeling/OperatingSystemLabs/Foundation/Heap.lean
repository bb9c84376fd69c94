import Mathlib.Data.Finset.Card
import Mathlib.Logic.Function.Basic
import OperatingSystemLabs.Foundation.Links
import OperatingSystemLabs.Foundation.Loop

namespace OperatingSystemLabs.Heaps

open Function Links Loop

variable {κ : Type}

inductive Misuse where
  | null
  | dangling
  | uninitialised
  | endless
  deriving DecidableEq, Repr

-- The allocated addresses, and what is stored at each; a pointer is an address or NULL.
structure Heap (κ : Type) where
  live : Finset Nat
  cell : Nat → κ

-- Where the next block comes from and what is found in it; there is always one.
structure Malloc (κ : Type) where
  address : Heap κ → Nat
  content : Heap κ → κ
  fresh : ∀ h, address h ∉ h.live

namespace Heap

def alloc (A : Malloc κ) (h : Heap κ) : Heap κ :=
  ⟨insert (A.address h) h.live,update h.cell (A.address h) (A.content h)⟩

def load (h : Heap κ) : Option Nat → Except Misuse κ
  | none => .error .null
  | some p => if p ∈ h.live then .ok (h.cell p) else .error .dangling

def store (h : Heap κ) (x : κ) : Option Nat → Except Misuse (Heap κ)
  | none => .error .null
  | some p => if p ∈ h.live then .ok ⟨h.live,update h.cell p x⟩ else .error .dangling

def free (h : Heap κ) : Option Nat → Except Misuse (Heap κ)
  | none => .ok h
  | some p => if p ∈ h.live then .ok ⟨h.live.erase p,h.cell⟩ else .error .dangling

end Heap

variable {h h' : Heap κ} {p : Nat} {next : κ → Option Nat} {cur : Option Nat} {ps : List Nat} {A : Malloc κ}

theorem load_live (hp : p ∈ h.live) : h.load (some p) = .ok (h.cell p) := if_pos hp

theorem store_live (hp : p ∈ h.live) (x : κ) : h.store x (some p) = .ok ⟨h.live,update h.cell p x⟩ := if_pos hp

theorem free_live (hp : p ∈ h.live) : h.free (some p) = .ok ⟨h.live.erase p,h.cell⟩ := if_pos hp

theorem alloc_mem (A : Malloc κ) (h : Heap κ) : A.address h ∈ (h.alloc A).live := Finset.mem_insert_self ..

theorem alloc_live (hp : p ∈ h.live) : p ∈ (h.alloc A).live := Finset.mem_insert_of_mem hp

theorem alloc_cell (hp : p ∈ h.live) : (h.alloc A).cell p = h.cell p :=
  update_of_ne (ne_of_mem_of_not_mem hp (A.fresh h)) ..

theorem alloc_card (A : Malloc κ) (h : Heap κ) : (h.alloc A).live.card = h.live.card + 1 :=
  Finset.card_insert_of_notMem (A.fresh h)

structure Strung (next : κ → Option Nat) (h : Heap κ) (cur : Option Nat) (ps : List Nat) : Prop where
  chain : Chain (fun p => next (h.cell p)) cur ps
  live : ∀ p ∈ ps, p ∈ h.live

theorem Strung.congr (hs : Strung next h cur ps) (hlive : ∀ p ∈ ps, p ∈ h'.live)
    (hcell : ∀ p ∈ ps, next (h'.cell p) = next (h.cell p)) : Strung next h' cur ps := ⟨chain_congr hcell hs.chain,hlive⟩

theorem Strung.alloc (hs : Strung next h cur ps) : Strung next (h.alloc A) cur ps :=
  hs.congr (fun p hp => alloc_live (hs.live p hp)) fun p hp => by rw [alloc_cell (hs.live p hp)]

theorem Strung.nil : Strung next h none [] := ⟨rfl,by simp⟩

theorem Strung.tail (hs : Strung next h (some p) (p :: ps)) : Strung next h (next (h.cell p)) ps :=
  ⟨hs.chain.2,fun q hq => hs.live q (by simp [hq])⟩

theorem Strung.cases (hs : Strung next h cur ps) : (cur = none ∧ ps = []) ∨ ∃ p qs, cur = some p ∧ ps = p :: qs := by
  cases ps with
  | nil => exact .inl ⟨hs.chain,rfl⟩
  | cons p qs => exact .inr ⟨p,qs,hs.chain.1,rfl⟩

theorem Strung.head (hs : Strung next h cur ps) : cur = ps.head? := by
  rcases hs.cases with ⟨rfl,rfl⟩ | ⟨p,qs,rfl,rfl⟩ <;> rfl

theorem Strung.nodup (hs : Strung next h cur ps) : ps.Nodup := chain_nodup hs.chain

theorem Strung.length_le (hs : Strung next h cur ps) : ps.length ≤ h.live.card := by
  rw [← List.toFinset_card_of_nodup hs.nodup]
  exact Finset.card_le_card fun p hp => hs.live p (List.mem_toFinset.mp hp)

-- A loop that walks a string as long as `go` says; `pass` is what a round does to its other locals.
def stroll {σ : Type} (go : σ → Nat → Bool) (pass : σ → Nat → σ) : σ → List Nat → σ × List Nat
  | s, [] => (s,[])
  | s, p :: ps => if go s p then stroll go pass (pass s p) ps else (s,p :: ps)

theorem repeatWhile_stroll {σ ε : Type} {endless : ε} {test : σ × Option Nat → Except ε Bool}
    {body : σ × Option Nat → Except ε (σ × Option Nat)} (go : σ → Nat → Bool) (pass : σ → Nat → σ) {fuel : Nat}
    {s : σ} (hs : Strung next h cur ps) (hnone : ∀ s, test (s,none) = .ok false)
    (htest : ∀ s, ∀ p ∈ ps, test (s,some p) = .ok (go s p))
    (hbody : ∀ s, ∀ p ∈ ps, body (s,some p) = .ok (pass s p,next (h.cell p))) (hf : ps.length < fuel) :
    repeatWhile endless test body fuel (s,cur) =
      .ok ((stroll go pass s ps).1,(stroll go pass s ps).2.head?) := by
  induction ps generalizing cur s fuel with
  | nil =>
    obtain ⟨n,rfl⟩ := Nat.exists_eq_succ_of_ne_zero (Nat.ne_of_gt hf)
    obtain rfl : cur = none := hs.head
    exact repeatWhile_stop (hnone s)
  | cons p ps ih =>
    obtain ⟨n,rfl⟩ := Nat.exists_eq_succ_of_ne_zero (Nat.ne_of_gt (Nat.zero_lt_of_lt hf))
    obtain rfl : cur = some p := hs.head
    have hp : test (s,some p) = .ok (go s p) := htest s p List.mem_cons_self
    by_cases hgo : go s p = true
    · rw [stroll,if_pos hgo,repeatWhile_round (hp.trans (congrArg _ hgo)) (hbody s p List.mem_cons_self)]
      exact ih hs.tail (fun s q hq => htest s q (List.mem_cons_of_mem p hq))
        (fun s q hq => hbody s q (List.mem_cons_of_mem p hq)) (Nat.lt_of_succ_lt_succ hf)
    · rw [stroll,if_neg hgo,repeatWhile_stop (hp.trans (congrArg _ (Bool.eq_false_iff.mpr hgo)))]
      rfl

end OperatingSystemLabs.Heaps

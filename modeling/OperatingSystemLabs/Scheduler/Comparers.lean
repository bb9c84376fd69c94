import Mathlib.Data.Set.Basic
import OperatingSystemLabs.Scheduler.PriorityOrder

namespace OperatingSystemLabs.Scheduler

open Insertion

-- The records that the sorting exercise hands to qsort.
structure Process where
  pid : Int
  arrTime : Int
  priority : Int
  deriving DecidableEq, Repr

def sortPriority (p q : Process) : Int :=
  if p.priority = q.priority then intSub p.arrTime q.arrTime else intSub p.priority q.priority

variable {ρ : Type} {primary arrival : ρ → Int} {a b : ρ} {m n : Int}

def lexKey (primary arrival : ρ → Int) (a : ρ) : Int ×ₗ Int := toLex (primary a,arrival a)

def twoLevel (primary arrival : ρ → Int) (a b : ρ) : Int :=
  let diff := intSub (primary a) (primary b)
  if diff = 0 then intSub (arrival a) (arrival b) else diff

-- The difference whose sign decides, before it is cut to 32 bits.
def decidingDifference (primary arrival : ρ → Int) (a b : ρ) : Int :=
  if primary a = primary b then arrival a - arrival b else primary a - primary b

structure OrdersBy (cmp : ρ → ρ → Int) (key : ρ → Int ×ₗ Int) (records : Set ρ) : Prop where
  ranks : ∀ a ∈ records, ∀ b ∈ records, Ranks cmp key a b
  preorder : TotalPreorder (fun a b : records => cmp a b)

def JobT.IntKeys (j : JobT) : Prop :=
  Fits j.arrivalTime ∧ Fits j.runTime ∧ Fits j.timeRemaining ∧ Fits j.priority

def Process.IntKeys (p : Process) : Prop := Fits p.priority ∧ Fits p.arrTime

theorem intSub_cases (hm : Fits m) (hn : Fits n) : Fits (m - n) ∧ intSub m n = m - n ∨
    2 ^ 31 ≤ m - n ∧ intSub m n = m - n - 2 ^ 32 ∨ m - n < -2 ^ 31 ∧ intSub m n = m - n + 2 ^ 32 := by
  simp only [Fits] at hm hn ⊢
  simp only [intSub,Int.bmod]
  split <;> omega

theorem intSub_zero (hm : Fits m) (hn : Fits n) : intSub m n = 0 ↔ m = n := by
  have hcases := intSub_cases hm hn
  simp only [Fits] at hm hn hcases
  omega

theorem intSub_sign (hm : Fits m) (hn : Fits n) :
    (intSub m n < 0 ↔ m < n) ∧ (0 < intSub m n ↔ n < m) ↔ Fits (m - n) := by
  have hcases := intSub_cases hm hn
  simp only [Fits] at hm hn hcases ⊢
  omega

theorem twoLevel_ranks (ha : Fits (primary a) ∧ Fits (arrival a)) (hb : Fits (primary b) ∧ Fits (arrival b)) :
    Ranks (twoLevel primary arrival) (lexKey primary arrival) a b ↔ Fits (decidingDifference primary arrival a b) := by
  have hzero := intSub_zero ha.1 hb.1
  have htie := intSub_zero ha.2 hb.2
  simp only [Ranks,lexKey,Prod.Lex.toLex_lt_toLex,toLex_inj,Prod.mk.injEq,twoLevel,decidingDifference,hzero]
  by_cases heq : primary a = primary b
  · have hsign := intSub_sign ha.2 hb.2
    simp only [heq,if_true,lt_irrefl,false_or,true_and,htie]
    exact hsign
  · have hsign := intSub_sign ha.1 hb.1
    simp only [heq,Ne.symm heq,if_false,false_and,or_false,hzero,true_and]
    exact hsign

theorem ordersBy_iff {records : Set ρ} (hints : ∀ a ∈ records, Fits (primary a) ∧ Fits (arrival a)) :
    OrdersBy (twoLevel primary arrival) (lexKey primary arrival) records ↔
      ∀ a ∈ records, ∀ b ∈ records, Fits (decidingDifference primary arrival a b) := by
  constructor
  · intro h a ha b hb
    exact (twoLevel_ranks (hints a ha) (hints b hb)).mp (h.ranks a ha b hb)
  · intro h
    have hranks (a : ρ) (ha : a ∈ records) (b : ρ) (hb : b ∈ records) :
        Ranks (twoLevel primary arrival) (lexKey primary arrival) a b :=
      (twoLevel_ranks (hints a ha) (hints b hb)).mpr (h a ha b hb)
    exact ⟨hranks,.of_ranks fun a b : records => hranks a a.2 b b.2⟩

theorem OrdersBy.congr {cmp cmp' : ρ → ρ → Int} {key : ρ → Int ×ₗ Int} {records : Set ρ}
    (hcmp : ∀ a ∈ records, ∀ b ∈ records, cmp' a b = cmp a b) (h : OrdersBy cmp key records) :
    OrdersBy cmp' key records where
  ranks a ha b hb := by
    rw [Ranks,hcmp a ha b hb]
    exact h.ranks a ha b hb
  preorder := by
    have hsame : (fun a b : records => cmp' a b) = fun a b : records => cmp a b := by
      funext a b
      exact hcmp a a.2 b b.2
    rw [hsame]
    exact h.preorder

theorem sortPriority_iff {records : Set Process} (hints : ∀ p ∈ records, p.IntKeys) :
    OrdersBy sortPriority (lexKey Process.priority Process.arrTime) records ↔
      ∀ p ∈ records, ∀ q ∈ records, Fits (decidingDifference Process.priority Process.arrTime p q) := by
  have hsame (p : Process) (hp : p ∈ records) (q : Process) (hq : q ∈ records) :
      sortPriority p q = twoLevel Process.priority Process.arrTime p q := by
    simp only [sortPriority,twoLevel,intSub_zero (hints p hp).1 (hints q hq).1]
  rw [← ordersBy_iff hints]
  exact ⟨fun h => h.congr fun p hp q hq => (hsame p hp q hq).symm,fun h => h.congr hsame⟩

theorem comparers_order_iff {jobs : Set JobT} {processes : Set Process} (hjobs : ∀ j ∈ jobs, j.IntKeys)
    (hprocesses : ∀ p ∈ processes, p.IntKeys) :
    (OrdersBy fcfsCompare (lexKey JobT.arrivalTime JobT.arrivalTime) jobs ↔
      ∀ a ∈ jobs, ∀ b ∈ jobs, Fits (a.arrivalTime - b.arrivalTime)) ∧
    (OrdersBy sjfCompare (lexKey JobT.runTime JobT.arrivalTime) jobs ↔
      ∀ a ∈ jobs, ∀ b ∈ jobs, Fits (decidingDifference JobT.runTime JobT.arrivalTime a b)) ∧
    (OrdersBy psjfCompare (lexKey JobT.timeRemaining JobT.arrivalTime) jobs ↔
      ∀ a ∈ jobs, ∀ b ∈ jobs, Fits (decidingDifference JobT.timeRemaining JobT.arrivalTime a b)) ∧
    (OrdersBy priCompare (lexKey JobT.priority JobT.arrivalTime) jobs ↔
      ∀ a ∈ jobs, ∀ b ∈ jobs, Fits (decidingDifference JobT.priority JobT.arrivalTime a b)) ∧
    (OrdersBy sortPriority (lexKey Process.priority Process.arrTime) processes ↔
      ∀ p ∈ processes, ∀ q ∈ processes, Fits (decidingDifference Process.priority Process.arrTime p q)) := by
  refine ⟨?_,ordersBy_iff fun j hj => ⟨(hjobs j hj).2.1,(hjobs j hj).1⟩,
    ordersBy_iff fun j hj => ⟨(hjobs j hj).2.2.1,(hjobs j hj).1⟩,
    ordersBy_iff fun j hj => ⟨(hjobs j hj).2.2.2,(hjobs j hj).1⟩,sortPriority_iff hprocesses⟩
  have hfcfs : OrdersBy (twoLevel JobT.arrivalTime JobT.arrivalTime) (lexKey JobT.arrivalTime JobT.arrivalTime) jobs ↔
      ∀ a ∈ jobs, ∀ b ∈ jobs, Fits (decidingDifference JobT.arrivalTime JobT.arrivalTime a b) :=
    ordersBy_iff fun j hj => ⟨(hjobs j hj).1,(hjobs j hj).1⟩
  simp only [decidingDifference,ite_self] at hfcfs
  rw [fcfsCompare_arrival]
  exact hfcfs

-- Priorities that are read from a file: the lower value is the more urgent one.
def mostUrgent : JobT := JobT.new 0 0 1 (-1)

def leastUrgent : JobT := JobT.new 1 1 1 2147483647

theorem comparers_order_iff_urgent :
    ¬ OrdersBy priCompare (lexKey JobT.priority JobT.arrivalTime) {mostUrgent,leastUrgent} ∧
    OrdersBy sortPriority (lexKey Process.priority Process.arrTime) {⟨0,0,3⟩,⟨1,4,1⟩} := by
  have hjobs : ∀ j ∈ ({mostUrgent,leastUrgent} : Set JobT), j.IntKeys := by
    simp [JobT.IntKeys,Fits,mostUrgent,leastUrgent,JobT.new]
  have hprocesses : ∀ p ∈ ({⟨0,0,3⟩,⟨1,4,1⟩} : Set Process), p.IntKeys := by simp [Process.IntKeys,Fits]
  obtain ⟨-,-,-,hpri,hsort⟩ := comparers_order_iff hjobs hprocesses
  refine ⟨fun h => ?_,hsort.mpr (by simp [decidingDifference,Fits])⟩
  have hfits := hpri.mp h leastUrgent (by simp) mostUrgent (by simp)
  simp [decidingDifference,Fits,mostUrgent,leastUrgent,JobT.new] at hfits

theorem mostUrgent_not_first : ¬ ∀ jobs : Set JobT, (∀ j ∈ jobs, j.IntKeys) →
    OrdersBy priCompare (lexKey JobT.priority JobT.arrivalTime) jobs := by
  intro h
  have hpair := h {mostUrgent,leastUrgent} (by simp [JobT.IntKeys,Fits,mostUrgent,leastUrgent,JobT.new])
  have hfirst := (hpair.ranks leastUrgent (by simp) mostUrgent (by simp)).1.mp (by decide)
  simp [lexKey,Prod.Lex.toLex_lt_toLex,mostUrgent,leastUrgent,JobT.new] at hfirst

end OperatingSystemLabs.Scheduler

import Mathlib.Algebra.BigOperators.Fin
import Mathlib.Algebra.BigOperators.Ring.Finset
import Mathlib.Algebra.Order.BigOperators.Group.Finset
import OperatingSystemLabs.Foundation.Interleaving
import OperatingSystemLabs.Foundation.Text

namespace OperatingSystemLabs.Threads

open Function Interleaving

-- int addition, which wraps.
def intAdd (a b : Int) : Int := (a + b).bmod (2 ^ 32)

-- Where a thread is in inc_count; `count = count + inc` is a load and a store.
inductive Statement where
  | absent
  | lock
  | test
  | load
  | store
  | addLoc
  | unlock
  | print
  | exited
  deriving DecidableEq, Repr

structure Thread where
  next : Statement
  i : Int
  loc : Int
  register : Int
  deriving DecidableEq, Repr

-- Main is corrupted once it has stored beyond the end of a block.
inductive MainThread where
  | corrupted
  | creating (i : Nat)
  | joining (i : Nat)
  | finished
  deriving DecidableEq, Repr

-- `output` are the lines of the threads, and `final` is what main prints last.
structure Process (n : Nat) where
  count : Int
  countMutex : Bool
  threads : Fin n → Thread
  main : MainThread
  output : List (Fin n × Int)
  final : Option Int

def start (n : Nat) : Process n where
  count := 0
  countMutex := false
  threads _ := ⟨.absent,0,0,0⟩
  main := .creating 0
  output := []
  final := none

variable {n : Nat}

def Process.set (p : Process n) (id : Fin n) (me : Thread) : Process n := { p with threads := update p.threads id me }

def incCount (loop inc : Int) (p : Process n) (id : Fin n) : Option (Process n) :=
  let me := p.threads id
  match me.next with
  | .absent => none
  | .lock =>
      if p.countMutex then none
      else some { p.set id { me with next := .test, i := 0, loc := 0 } with countMutex := true }
  | .test => some (p.set id { me with next := if me.i < loop then .load else .unlock })
  | .load => some (p.set id { me with next := .store, register := p.count })
  | .store => some { p.set id { me with next := .addLoc } with count := intAdd me.register inc }
  | .addLoc => some (p.set id { me with next := .test, loc := intAdd me.loc inc, i := intAdd me.i 1 })
  | .unlock => some { p.set id { me with next := .print } with countMutex := false }
  | .print => some { p.set id { me with next := .exited } with output := p.output ++ [(id,me.loc)] }
  | .exited => none

-- malloc(sizeof(targs)) asks for the 8 bytes of a pointer and gets `usable` ones; targs->loop, stored next, ends
-- with byte 12.
def mainStep (usable : Nat) (p : Process n) : Option (Process n) :=
  match p.main with
  | .corrupted => none
  | .creating i =>
      if h : i < n then
        if usable < 12 then some { p with main := .corrupted }
        else some { p.set ⟨i,h⟩ { p.threads ⟨i,h⟩ with next := .lock } with main := .creating (i + 1) }
      else some { p with main := .joining 0 }
  | .joining i =>
      if h : i < n then
        if (p.threads ⟨i,h⟩).next = .exited then some { p with main := .joining (i + 1) } else none
      else some { p with main := .finished, final := some p.count }
  | .finished => none

-- The main thread is none.
def Acts (usable : Nat) (loop inc : Int) (p : Process n) (actor : Option (Fin n)) (p' : Process n) : Prop :=
  match actor with
  | none => mainStep usable p = some p'
  | some id => incCount loop inc p id = some p'

def inside : Statement → Prop
  | .test => True
  | .load => True
  | .store => True
  | .addLoc => True
  | .unlock => True
  | _ => False

instance (s : Statement) : Decidable (inside s) := by
  cases s <;> first | exact isTrue trivial | exact isFalse id

def rounds (loop : Int) : Int := max loop 0

def added (loop : Int) (me : Thread) : Int :=
  match me.next with
  | .absent => 0
  | .lock => 0
  | .test => me.i
  | .load => me.i
  | .store => me.i
  | .addLoc => me.i + 1
  | _ => rounds loop

def Counted (loop inc count : Int) (me : Thread) : Prop :=
  match me.next with
  | .absent => True
  | .lock => True
  | .test => 0 ≤ me.i ∧ me.i ≤ rounds loop ∧ me.loc = (inc * me.i).bmod (2 ^ 32)
  | .load => 0 ≤ me.i ∧ me.i < rounds loop ∧ me.loc = (inc * me.i).bmod (2 ^ 32)
  | .store => 0 ≤ me.i ∧ me.i < rounds loop ∧ me.loc = (inc * me.i).bmod (2 ^ 32) ∧ me.register = count
  | .addLoc => 0 ≤ me.i ∧ me.i < rounds loop ∧ me.loc = (inc * me.i).bmod (2 ^ 32)
  | _ => me.loc = (inc * rounds loop).bmod (2 ^ 32)

structure Sound (loop inc : Int) (p : Process n) : Prop where
  count : p.count = (inc * ∑ id, added loop (p.threads id)).bmod (2 ^ 32)
  counted : ∀ id, Counted loop inc p.count (p.threads id)
  single : ∀ id id', inside (p.threads id).next → inside (p.threads id').next → id = id'
  locked : p.countMutex = true ↔ ∃ id, inside (p.threads id).next

def Placed (p : Process n) : Prop :=
  match p.main with
  | .corrupted => False
  | .creating i => i ≤ n ∧ ∀ id, (p.threads id).next = .absent ↔ i ≤ id.val
  | .joining i => i ≤ n ∧ ∀ id, (p.threads id).next ≠ .absent ∧ (id.val < i → (p.threads id).next = .exited)
  | .finished => (∀ id, (p.threads id).next = .exited) ∧ p.final = some p.count

structure Reported (loop inc : Int) (p : Process n) : Prop where
  once : (p.output.map Prod.fst).Nodup
  lines : ∀ id v, (id,v) ∈ p.output ↔ (p.threads id).next = .exited ∧ v = (inc * rounds loop).bmod (2 ^ 32)

structure Orderly (loop inc : Int) (p : Process n) : Prop where
  sound : Sound loop inc p
  placed : Placed p
  reported : Reported loop inc p

def stores (e : Process n × Option (Fin n)) : Bool :=
  match e.2 with
  | none => false
  | some id => (e.1.threads id).next = .store

inductive Effect (loop inc count : Int) (countMutex : Bool) (me : Thread) : Thread → Int → Bool → Prop
  | lock : me.next = .lock → countMutex = false →
      Effect loop inc count countMutex me { me with next := .test, i := 0, loc := 0 } count true
  | enter : me.next = .test → me.i < loop →
      Effect loop inc count countMutex me { me with next := .load } count countMutex
  | leave : me.next = .test → ¬ me.i < loop →
      Effect loop inc count countMutex me { me with next := .unlock } count countMutex
  | load : me.next = .load →
      Effect loop inc count countMutex me { me with next := .store, register := count } count countMutex
  | store : me.next = .store →
      Effect loop inc count countMutex me { me with next := .addLoc } (intAdd me.register inc) countMutex
  | addLoc : me.next = .addLoc →
      Effect loop inc count countMutex me { me with next := .test, loc := intAdd me.loc inc, i := intAdd me.i 1 }
        count countMutex
  | unlock : me.next = .unlock → Effect loop inc count countMutex me { me with next := .print } count false
  | print : me.next = .print → Effect loop inc count countMutex me { me with next := .exited } count countMutex

structure Worked (loop inc : Int) (p : Process n) (id : Fin n) (me : Thread) (p' : Process n) : Prop where
  effect : Effect loop inc p.count p.countMutex (p.threads id) me p'.count p'.countMutex
  threads : p'.threads = update p.threads id me
  main : p'.main = p.main
  final : p'.final = p.final
  output : p'.output = p.output ++ if (p.threads id).next = .print then [(id,(p.threads id).loc)] else []

inductive Managed (p : Process n) : Process n → Prop
  | create {i : Nat} (h : i < n) : p.main = .creating i →
      Managed p { p.set ⟨i,h⟩ { p.threads ⟨i,h⟩ with next := .lock } with main := .creating (i + 1) }
  | created {i : Nat} : p.main = .creating i → ¬ i < n → Managed p { p with main := .joining 0 }
  | join {i : Nat} (h : i < n) : p.main = .joining i → (p.threads ⟨i,h⟩).next = .exited →
      Managed p { p with main := .joining (i + 1) }
  | joined {i : Nat} : p.main = .joining i → ¬ i < n → Managed p { p with main := .finished, final := some p.count }

variable {loop inc count count' : Int} {countMutex countMutex' : Bool} {p p' : Process n} {id : Fin n}
  {me me' : Thread} {actor : Option (Fin n)} {usable : Nat}

theorem incCount_worked (h : incCount loop inc p id = some p') : ∃ me, Worked loop inc p id me p' := by
  rw [incCount] at h
  split at h
  · cases h
  · next hs =>
    split at h
    · cases h
    · next hm =>
      cases h
      exact ⟨_,.lock hs (Bool.eq_false_iff.mpr hm),rfl,rfl,rfl,by simp [hs,Process.set]⟩
  · next hs =>
    cases h
    by_cases hi : (p.threads id).i < loop
    · exact ⟨_,by rw [if_pos hi]; exact .enter hs hi,rfl,rfl,rfl,by simp [hs,Process.set]⟩
    · exact ⟨_,by rw [if_neg hi]; exact .leave hs hi,rfl,rfl,rfl,by simp [hs,Process.set]⟩
  · next hs =>
    cases h
    exact ⟨_,.load hs,rfl,rfl,rfl,by simp [hs,Process.set]⟩
  · next hs =>
    cases h
    exact ⟨_,.store hs,rfl,rfl,rfl,by simp [hs,Process.set]⟩
  · next hs =>
    cases h
    exact ⟨_,.addLoc hs,rfl,rfl,rfl,by simp [hs,Process.set]⟩
  · next hs =>
    cases h
    exact ⟨_,.unlock hs,rfl,rfl,rfl,by simp [hs,Process.set]⟩
  · next hs =>
    cases h
    exact ⟨_,.print hs,rfl,rfl,rfl,by simp [hs]⟩
  · cases h

theorem mainStep_managed (hroom : 12 ≤ usable) (h : mainStep usable p = some p') : Managed p p' := by
  rw [mainStep] at h
  split at h
  · cases h
  · next hmain =>
    split at h
    · next hi =>
      rw [if_neg (Nat.not_lt.mpr hroom)] at h
      cases h
      exact .create hi hmain
    · next hi =>
      cases h
      exact .created hmain hi
  · next hmain =>
    split at h
    · next hi =>
      split at h <;> cases h
      next hexited => exact .join hi hmain hexited
    · next hi =>
      cases h
      exact .joined hmain hi
  · cases h

theorem wrap_add (a b : Int) : intAdd (a.bmod (2 ^ 32)) b = (a + b).bmod (2 ^ 32) := Int.bmod_add_bmod

theorem intAdd_one {i : Int} (h0 : 0 ≤ i) (hi : i < 2 ^ 31 - 1) : intAdd i 1 = i + 1 :=
  Int.bmod_eq_of_le (by omega) (by omega)

theorem rounds_lt (hloop : loop < 2 ^ 31) : rounds loop ≤ 2 ^ 31 - 1 := by
  rw [rounds]
  omega

theorem Effect.added (h : Effect loop inc count countMutex me me' count' countMutex') (hloop : loop < 2 ^ 31)
    (hc : Counted loop inc count me) :
    Threads.added loop me' = Threads.added loop me + if me.next = .store then 1 else 0 := by
  cases h with
  | lock hs => simp [Threads.added,hs]
  | enter hs => simp [Threads.added,hs]
  | leave hs hi =>
    simp only [Counted,hs,rounds] at hc
    simp only [Threads.added,hs,rounds,reduceCtorEq,if_false]
    omega
  | load hs => simp [Threads.added,hs]
  | store hs => simp [Threads.added,hs]
  | addLoc hs =>
    simp only [Counted,hs] at hc
    simp [Threads.added,hs,intAdd_one hc.1 (lt_of_lt_of_le hc.2.1 (rounds_lt hloop))]
  | unlock hs => simp [Threads.added,hs]
  | print hs => simp [Threads.added,hs]

theorem Effect.counted (h : Effect loop inc count countMutex me me' count' countMutex') (hloop : loop < 2 ^ 31)
    (hc : Counted loop inc count me) : Counted loop inc count' me' := by
  cases h with
  | lock hs hm => simp [Counted,rounds]
  | enter hs hi =>
    simp only [Counted,hs,rounds] at hc
    simp only [Counted,rounds]
    exact ⟨hc.1,by omega,hc.2.2⟩
  | leave hs hi =>
    simp only [Counted,hs,rounds] at hc
    have hmax : me.i = max loop 0 := by omega
    simp only [Counted,rounds]
    rw [hc.2.2,hmax]
  | load hs =>
    simp only [Counted,hs] at hc
    simp [Counted,hc]
  | store hs =>
    simp only [Counted,hs] at hc
    simp [Counted,hc]
  | addLoc hs =>
    simp only [Counted,hs] at hc
    simp only [Counted,intAdd_one hc.1 (lt_of_lt_of_le hc.2.1 (rounds_lt hloop))]
    refine ⟨by omega,by omega,?_⟩
    rw [hc.2.2,wrap_add,Int.mul_add,Int.mul_one]
  | unlock hs =>
    simp only [Counted,hs] at hc
    simp [Counted,hc]
  | print hs =>
    simp only [Counted,hs] at hc
    simp [Counted,hc]

theorem Effect.stored (h : Effect loop inc count countMutex me me' count' countMutex')
    (hc : Counted loop inc count me) {k : Int} (hk : count = k.bmod (2 ^ 32)) :
    count' = (k + inc * if me.next = .store then 1 else 0).bmod (2 ^ 32) := by
  cases h with
  | store hs =>
    simp only [Counted,hs] at hc
    rw [hc.2.2.2,hk,wrap_add,if_pos hs,Int.mul_one]
  | _ => simp [*]

theorem Effect.next (h : Effect loop inc count countMutex me me' count' countMutex') :
    me.next ≠ .absent ∧ me.next ≠ .exited ∧ me'.next ≠ .absent ∧ (me'.next = .exited ↔ me.next = .print) := by
  cases h <;> simp [*]

theorem Effect.inside (h : Effect loop inc count countMutex me me' count' countMutex') :
    (countMutex' = countMutex ∧ (inside me'.next ↔ inside me.next)) ∨
    (countMutex = false ∧ countMutex' = true ∧ ¬ inside me.next ∧ inside me'.next) ∨
    (countMutex' = false ∧ inside me.next ∧ ¬ inside me'.next) := by
  cases h <;> simp_all [Threads.inside]

theorem Effect.counts_inside (h : Effect loop inc count countMutex me me' count' countMutex') :
    count' = count ∨ Threads.inside me.next := by
  cases h with
  | store hs => exact .inr (by rw [hs]; trivial)
  | _ => exact .inl rfl

theorem Counted.outside (h : Counted loop inc count me) (hs : ¬ inside me.next) : Counted loop inc count' me := by
  revert h hs
  rw [Counted,Counted]
  split <;> simp_all [inside]

theorem sum_set (f : Thread → Int) (threads : Fin n → Thread) (id : Fin n) (me : Thread) :
    ∑ j, f (update threads id me j) = ∑ j, f (threads j) + (f me - f (threads id)) := by
  have hupdate : (fun j => f (update threads id me j)) = update (fun j => f (threads j)) id (f me) :=
    comp_update f threads id me
  rw [hupdate,Finset.sum_update_of_mem (Finset.mem_univ id),← Finset.add_sum_erase _ _ (Finset.mem_univ id),
    Finset.sdiff_singleton_eq_erase]
  omega

theorem Worked.self (h : Worked loop inc p id me p') : p'.threads id = me := by rw [h.threads,update_self]

theorem Worked.other (h : Worked loop inc p id me p') {j : Fin n} (hj : j ≠ id) : p'.threads j = p.threads j := by
  rw [h.threads,update_of_ne hj]

theorem Worked.counted (h : Worked loop inc p id me p') (hloop : loop < 2 ^ 31) (hs : Sound loop inc p) (j : Fin n) :
    Counted loop inc p'.count (p'.threads j) := by
  by_cases hj : j = id
  · subst hj
    rw [h.self]
    exact h.effect.counted hloop (hs.counted j)
  · rw [h.other hj]
    rcases h.effect.counts_inside with hcount | hin
    · rw [hcount]
      exact hs.counted j
    · exact (hs.counted j).outside fun hjin => hj (hs.single j id hjin hin)

theorem Worked.inside_iff (h : Worked loop inc p id me p') (hs : inside me.next ↔ inside (p.threads id).next)
    (j : Fin n) : inside (p'.threads j).next ↔ inside (p.threads j).next := by
  by_cases hj : j = id
  · subst hj
    rw [h.self]
    exact hs
  · rw [h.other hj]

theorem Worked.added (h : Worked loop inc p id me p') (hloop : loop < 2 ^ 31) (hs : Sound loop inc p) :
    ∑ j, Threads.added loop (p'.threads j) =
      ∑ j, Threads.added loop (p.threads j) + if (p.threads id).next = .store then 1 else 0 := by
  rw [h.threads,sum_set (Threads.added loop),h.effect.added hloop (hs.counted id)]
  omega

theorem Worked.sound (h : Worked loop inc p id me p') (hloop : loop < 2 ^ 31) (hs : Sound loop inc p) :
    Sound loop inc p' := by
  have hcount : p'.count = (inc * ∑ j, Threads.added loop (p'.threads j)).bmod (2 ^ 32) := by
    rw [h.effect.stored (hs.counted id) hs.count,h.added hloop hs,Int.mul_add]
  rcases h.effect.inside with ⟨hmutex,hin⟩ | ⟨hfree,hmutex,hout,hin⟩ | ⟨hmutex,hin,hout⟩
  · have hiff := h.inside_iff hin
    refine ⟨hcount,h.counted hloop hs,fun j j' hj hj' => hs.single j j' ((hiff j).mp hj) ((hiff j').mp hj'),?_⟩
    rw [hmutex,hs.locked]
    exact exists_congr fun j => (hiff j).symm
  · have halone (j : Fin n) (hj : inside (p'.threads j).next) : j = id := by
      by_contra hne
      rw [h.other hne] at hj
      rw [hs.locked.mpr ⟨j,hj⟩] at hfree
      cases hfree
    refine ⟨hcount,h.counted hloop hs,fun j j' hj hj' => (halone j hj).trans (halone j' hj').symm,?_⟩
    exact ⟨fun _ => ⟨id,by rwa [h.self]⟩,fun _ => hmutex⟩
  · have hnone (j : Fin n) : ¬ inside (p'.threads j).next := by
      by_cases hj : j = id
      · subst hj
        rwa [h.self]
      · rw [h.other hj]
        exact fun hjin => hj (hs.single j id hjin hin)
    refine ⟨hcount,h.counted hloop hs,fun j _ hj => (hnone j hj).elim,?_⟩
    rw [hmutex]
    exact ⟨nofun,fun ⟨j,hj⟩ => (hnone j hj).elim⟩

theorem Worked.placed (h : Worked loop inc p id me p') (hp : Placed p) : Placed p' := by
  obtain ⟨habsent,hexited,habsent',-⟩ := h.effect.next
  rw [Placed] at hp ⊢
  rw [h.main]
  split at hp
  · exact hp.elim
  · refine ⟨hp.1,fun j => ?_⟩
    by_cases hj : j = id
    · subst hj
      rw [h.self,← hp.2 j]
      exact iff_of_false habsent' habsent
    · rw [h.other hj]
      exact hp.2 j
  · refine ⟨hp.1,fun j => ?_⟩
    by_cases hj : j = id
    · subst hj
      rw [h.self]
      exact ⟨habsent',fun hlt => (hexited ((hp.2 j).2 hlt)).elim⟩
    · rw [h.other hj]
      exact hp.2 j
  · exact (hexited (hp.1 id)).elim

theorem Worked.reported (h : Worked loop inc p id me p') (hs : Sound loop inc p) (hr : Reported loop inc p) :
    Reported loop inc p' := by
  obtain ⟨-,hexited,-,hprint⟩ := h.effect.next
  have hcounted := hs.counted id
  have hmem (v : Int) : (id,v) ∉ p.output := fun hv => hexited ((hr.lines id v).mp hv).1
  constructor
  · rw [h.output]
    split
    · rw [List.map_append]
      refine List.Nodup.append hr.once (List.nodup_singleton _) ?_
      rintro j hj hj'
      obtain ⟨⟨j,v⟩,hv,rfl⟩ := List.mem_map.mp hj
      obtain rfl := List.mem_singleton.mp hj'
      exact hmem v hv
    · rw [List.append_nil]
      exact hr.once
  · intro j v
    rw [h.output,List.mem_append]
    by_cases hj : j = id
    · subst hj
      rw [h.self,hprint]
      split
      · next hnext =>
        simp only [Counted,hnext] at hcounted
        simp [hmem,hnext,hcounted]
      · next hnext => simp [hmem,hnext]
    · rw [h.other hj,hr.lines j v]
      split <;> simp [hj]

theorem Worked.orderly (h : Worked loop inc p id me p') (hloop : loop < 2 ^ 31) (hp : Orderly loop inc p) :
    Orderly loop inc p' :=
  ⟨h.sound hloop hp.sound,h.placed hp.placed,h.reported hp.sound hp.reported⟩

theorem Placed.creating {i : Nat} (h : Placed p) (hmain : p.main = .creating i) :
    i ≤ n ∧ ∀ id, (p.threads id).next = .absent ↔ i ≤ id.val := by
  rw [Placed,hmain] at h
  exact h

theorem Placed.joining {i : Nat} (h : Placed p) (hmain : p.main = .joining i) :
    i ≤ n ∧ ∀ id, (p.threads id).next ≠ .absent ∧ (id.val < i → (p.threads id).next = .exited) := by
  rw [Placed,hmain] at h
  exact h

theorem Managed.placed (h : Managed p p') (hp : Placed p) : Placed p' := by
  cases h with
  | @create i hi hmain =>
    refine ⟨hi,fun j => ?_⟩
    show (update p.threads ⟨i,hi⟩ _ j).next = .absent ↔ i + 1 ≤ j.val
    by_cases hj : j = ⟨i,hi⟩
    · subst hj
      simp
    · have hval : j.val ≠ i := fun h => hj (Fin.ext h)
      rw [update_of_ne hj,(hp.creating hmain).2 j]
      omega
  | @created i hmain hi =>
    refine ⟨Nat.zero_le n,fun j => ⟨fun habsent => ?_,nofun⟩⟩
    have hj := ((hp.creating hmain).2 j).mp habsent
    omega
  | @join i hi hmain hexited =>
    refine ⟨hi,fun j => ⟨((hp.joining hmain).2 j).1,fun hj => ?_⟩⟩
    by_cases hval : j.val = i
    · exact (congrArg (fun k => (p.threads k).next) (Fin.ext hval)).trans hexited
    · exact ((hp.joining hmain).2 j).2 (by omega)
  | @joined i hmain hi => exact ⟨fun j => ((hp.joining hmain).2 j).2 (by omega),rfl⟩

theorem Managed.born (h : Managed p p') (hp : Placed p) :
    p'.count = p.count ∧ p'.countMutex = p.countMutex ∧ p'.output = p.output ∧
    ∀ j, p'.threads j = p.threads j ∨
      (p.threads j).next = .absent ∧ p'.threads j = { p.threads j with next := .lock } := by
  cases h with
  | @create i hi hmain =>
    refine ⟨rfl,rfl,rfl,fun j => ?_⟩
    by_cases hj : j = ⟨i,hi⟩
    · subst hj
      exact .inr ⟨((hp.creating hmain).2 ⟨i,hi⟩).mpr le_rfl,update_self ..⟩
    · exact .inl (update_of_ne hj ..)
  | created => exact ⟨rfl,rfl,rfl,fun _ => .inl rfl⟩
  | join => exact ⟨rfl,rfl,rfl,fun _ => .inl rfl⟩
  | joined => exact ⟨rfl,rfl,rfl,fun _ => .inl rfl⟩

theorem Managed.added (h : Managed p p') (hp : Placed p) :
    ∑ j, Threads.added loop (p'.threads j) = ∑ j, Threads.added loop (p.threads j) := by
  refine Finset.sum_congr rfl fun j _ => ?_
  rcases (h.born hp).2.2.2 j with hj | ⟨habsent,hj⟩
  · rw [hj]
  · simp only [hj,Threads.added,habsent]

theorem Managed.sound (h : Managed p p') (hp : Placed p) (hs : Sound loop inc p) : Sound loop inc p' := by
  obtain ⟨hcount,hmutex,-,hthreads⟩ := h.born hp
  have hinside (j : Fin n) : inside (p'.threads j).next ↔ inside (p.threads j).next := by
    rcases hthreads j with hj | ⟨habsent,hj⟩
    · rw [hj]
    · rw [hj,habsent]
      exact Iff.rfl
  refine ⟨?_,fun j => ?_,fun j j' hj hj' => hs.single j j' ((hinside j).mp hj) ((hinside j').mp hj'),?_⟩
  · rw [hcount,hs.count,h.added hp]
  · rw [hcount]
    rcases hthreads j with hj | ⟨-,hj⟩
    · rw [hj]
      exact hs.counted j
    · rw [hj]
      trivial
  · rw [hmutex,hs.locked]
    exact exists_congr fun j => (hinside j).symm

theorem Managed.reported (h : Managed p p') (hp : Placed p) (hr : Reported loop inc p) : Reported loop inc p' := by
  obtain ⟨-,-,houtput,hthreads⟩ := h.born hp
  refine ⟨by rw [houtput]; exact hr.once,fun j v => ?_⟩
  rw [houtput,hr.lines j v]
  rcases hthreads j with hj | ⟨habsent,hj⟩
  · rw [hj]
  · simp [hj,habsent]

theorem Managed.orderly (h : Managed p p') (hp : Orderly loop inc p) : Orderly loop inc p' :=
  ⟨h.sound hp.placed hp.sound,h.placed hp.placed,h.reported hp.placed hp.reported⟩

theorem orderly_start : Orderly loop inc (start n) := by
  refine ⟨⟨?_,fun _ => trivial,fun _ _ hj => hj.elim,⟨nofun,fun ⟨_,hj⟩ => hj.elim⟩⟩,?_,⟨.nil,?_⟩⟩
  · simp [start,added]
  · exact ⟨Nat.zero_le n,fun _ => ⟨fun _ => Nat.zero_le _,fun _ => rfl⟩⟩
  · simp [start]

end OperatingSystemLabs.Threads

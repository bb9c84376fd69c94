import OperatingSystemLabs.Philosophers.Exclusion

namespace OperatingSystemLabs.Philosophers.Waiter

open Interleaving Asymmetric

variable {n : Nat} {t t' : Table n} {id : Fin n} {me : Philosopher}

def Mirrors (t : Table n) : Prop :=
  t.waiter = false → ∀ k, (t.available k = 0 ↔ ∃ id, Eating t id ∧ (leftChop id = k ∨ rightChop id = k)) ∧
    (t.available k = 0 ∨ t.available k = 1)

def PoliteSteps (t : Table n) (thread : Option (Fin n)) (t' : Table n) : Prop :=
  Steps t thread t' ∧ Polite t thread

def PoliteRun (n : Nat) (tr : List (Table n × Option (Fin n))) (t : Table n) : Prop :=
  Trace PoliteSteps (setTable n) tr t

def Harmless (t : Table n) (thread : Option (Fin n)) : Prop :=
  ∀ id, thread = some id → ((t.diners id).next = .unlockTaken → n = 2 ∧ id.val = 0) ∧
    (t.diners id).next ≠ .unlockGiven

def Inside : Statement → Prop
  | .testChops => True
  | .condWait => True
  | .takeLeft => True
  | .takeRight => True
  | .unlockTaken => True
  | .giveLeft => True
  | .giveRight => True
  | .broadcast => True
  | .unlockGiven => True
  | _ => False

def Unfed : Statement → Prop
  | .eat => False
  | .lockToGive => False
  | .giveLeft => False
  | .giveRight => False
  | .broadcast => False
  | .unlockGiven => False
  | _ => True

def Sole (t : Table n) : Prop :=
  ∀ i, Inside (t.diners i).next → t.waiter = true ∧ ∀ j, Inside (t.diners j).next → j = i

def Writing (s : Statement) : Prop := s = .takeRight ∨ s = .unlockTaken

-- Nobody has eaten yet. The first write goes to entry 1, because 1 is what every flag holds; the
-- second goes where that leaves the flag of the right chopstick.
structure Fresh (t : Table n) : Prop where
  unfed : ∀ i, Unfed (t.diners i).next
  ones : (∀ i, ¬ Writing (t.diners i).next) → ∀ k, t.available k = 1
  first : ∀ i, (t.diners i).next = .takeRight → ∀ k, t.available k = if k.val = 1 then 0 else 1
  second : ∀ i, (t.diners i).next = .unlockTaken →
    ∀ k, t.available k = if k.val = 1 ∨ (rightChop i).val = 1 ∧ k.val = 0 then 0 else 1

structure Meal (t : Table n) (z : Fin n) : Prop where
  two : n = 2
  zero : z.val = 0
  unfed : ∀ j ≠ z, Unfed (t.diners j).next
  diner : Eating t z ∨ (t.diners z).next = .giveLeft
  zeros : (∀ j ≠ z, ¬ Writing (t.diners j).next) → ∀ k, t.available k = 0

structure Giving (t : Table n) (z : Fin n) : Prop where
  two : n = 2
  zero : z.val = 0
  unfed : ∀ j ≠ z, Unfed (t.diners j).next
  giver : (t.diners z).next = .giveRight ∨ (t.diners z).next = .broadcast ∨ (t.diners z).next = .unlockGiven
  flags : ∀ k, t.available k = if k.val = 0 then 1 else 0

inductive Early (t : Table n) : Prop
  | fresh : Fresh t → Early t
  | meal {z : Fin n} : Meal t z → Early t
  | giving {z : Fin n} : Giving t z → Early t

theorem rightChop_val (id : Fin n) : (rightChop id).val = if id.val = 0 then n - 1 else id.val - 1 := by
  rw [rightChop]
  split <;> rfl

theorem Effect.waiter {s s' : Statement} {waiter : Bool} {available : Fin n → Int}
    (h : Effect t id s s' waiter available) :
    (waiter = t.waiter ∧ (Inside s' ↔ Inside s)) ∨ (t.waiter = false ∧ waiter = true ∧ Inside s') ∨
      (Inside s ∧ waiter = false ∧ ¬ Inside s') := by
  cases h <;> simp_all [Inside]

theorem Effect.taken {s' : Statement} {waiter : Bool} {available : Fin n → Int}
    (h : Effect t id .unlockTaken s' waiter available) : waiter = false ∧ available = t.available := by
  cases h
  exact ⟨rfl,rfl⟩

theorem Effect.given {s' : Statement} {waiter : Bool} {available : Fin n → Int}
    (h : Effect t id .unlockGiven s' waiter available) :
    s' = .testStop ∧ waiter = false ∧ available = t.available := by
  cases h
  exact ⟨rfl,rfl,rfl⟩

theorem Effect.of_unfed {s s' : Statement} {waiter : Bool} {available : Fin n → Int}
    (h : Effect t id s s' waiter available) (hs : Unfed s) :
    (available = t.available ∧ ¬ Writing s ∧ ¬ Writing s' ∧ Unfed s') ∨
    (s = .takeLeft ∧ s' = .takeRight ∧
      ∃ k : Fin n, t.available (leftChop id) = k.val ∧ available = Function.update t.available k 0) ∨
    (s = .takeRight ∧ s' = .unlockTaken ∧
      ∃ k : Fin n, t.available (rightChop id) = k.val ∧ available = Function.update t.available k 0) ∨
    (s = .unlockTaken ∧ s' = .eat ∧ available = t.available) := by
  cases h with
  | takeLeft hk => exact .inr (.inl ⟨rfl,rfl,_,hk,rfl⟩)
  | takeRight hk => exact .inr (.inr (.inl ⟨rfl,rfl,_,hk,rfl⟩))
  | unlockTaken => exact .inr (.inr (.inr ⟨rfl,rfl,rfl⟩))
  | _ => simp_all [Unfed,Writing]

theorem Acts.next_self (h : Acts t id me t') : (t'.diners id).next = me.next := by
  rw [h.diners,Function.update_self]

theorem Acts.next_other (h : Acts t id me t') {j : Fin n} (hj : j ≠ id) : t'.diners j = t.diners j := by
  rw [h.diners,Function.update_of_ne hj]

theorem sole_acts (hs : Sole t) (h : Acts t id me t') : Sole t' := by
  have hwaiter := h.effect.waiter
  intro i hi
  by_cases hid : i = id
  · subst hid
    rw [h.next_self] at hi
    have hothers (hout : ∀ j ≠ i, ¬ Inside (t.diners j).next) : ∀ j, Inside (t'.diners j).next → j = i := by
      intro j hj
      by_contra hji
      rw [h.next_other hji] at hj
      exact hout j hji hj
    rcases hwaiter with ⟨hw,hin⟩ | ⟨hfree,hw,-⟩ | ⟨-,-,hout⟩
    · obtain ⟨hheld,halone⟩ := hs i (hin.mp hi)
      exact ⟨hw.trans hheld,hothers (fun j hji hj => hji (halone j hj))⟩
    · refine ⟨hw,hothers (fun j _ hj => ?_)⟩
      rw [(hs j hj).1] at hfree
      cases hfree
    · exact absurd hi hout
  · rw [h.next_other hid] at hi
    obtain ⟨hheld,halone⟩ := hs i hi
    have hself (hin : Inside (t.diners id).next) : False := hid (halone id hin).symm
    rcases hwaiter with ⟨hw,hin⟩ | ⟨hfree,-,-⟩ | ⟨hin,-,-⟩
    · refine ⟨hw.trans hheld,fun j hj => ?_⟩
      by_cases hji : j = id
      · rw [hji,h.next_self] at hj
        exact (hself (hin.mp hj)).elim
      · rw [h.next_other hji] at hj
        exact halone j hj
    · rw [hheld] at hfree
      cases hfree
    · exact (hself hin).elim

theorem Sole.unwritten (h : Sole t) (hin : Inside (t.diners id).next) {j : Fin n} (hj : j ≠ id) :
    ¬ Writing (t.diners j).next := by
  intro hw
  refine hj ((h id hin).2 j ?_)
  rcases hw with hw | hw <;> (rw [hw]; trivial)

theorem Sole.nobody (h : Sole t) (hfree : t.waiter = false) (j : Fin n) : ¬ Inside (t.diners j).next := by
  intro hin
  rw [(h j hin).1] at hfree
  cases hfree

theorem Acts.lift {P : Statement → Prop} (h : Acts t id me t') (hself : P me.next) {i : Fin n}
    (hothers : i ≠ id → P (t.diners i).next) : P (t'.diners i).next := by
  by_cases hi : i = id
  · rw [hi,h.next_self]
    exact hself
  · rw [h.next_other hi]
    exact hothers hi

theorem Acts.sole_writer (hsole : Sole t) (h : Acts t id me t') (hin : Inside (t.diners id).next) {i : Fin n}
    (hi : Writing (t'.diners i).next) : i = id := by
  by_contra hid
  rw [h.next_other hid] at hi
  exact hsole.unwritten hin hid hi

theorem update_val (available : Fin n → Int) (k j : Fin n) (value : Int) :
    Function.update available k value j = if j.val = k.val then value else available j := by
  simp only [Function.update_apply,Fin.ext_iff]

theorem first_write (hones : ∀ k, t.available k = 1) {k : Fin n} (hk : t.available (leftChop id) = k.val)
    (j : Fin n) : Function.update t.available k 0 j = if j.val = 1 then 0 else 1 := by
  rw [hones] at hk
  rw [update_val,hones]
  exact if_congr (by omega) rfl rfl

theorem second_write (hfirst : ∀ k, t.available k = if k.val = 1 then 0 else 1) {k : Fin n}
    (hk : t.available (rightChop id) = k.val) (j : Fin n) :
    Function.update t.available k 0 j = if j.val = 1 ∨ (rightChop id).val = 1 ∧ j.val = 0 then 0 else 1 := by
  rw [hfirst] at hk
  rw [update_val,hfirst]
  by_cases hone : (rightChop id).val = 1
  · rw [if_pos hone] at hk
    split_ifs <;> omega
  · rw [if_neg hone] at hk
    split_ifs <;> omega

theorem Fresh.unwritten_step (hf : Fresh t) (h : Acts t id me t') (hav : t'.available = t.available)
    (hs : ¬ Writing (t.diners id).next) (hs' : ¬ Writing me.next) (hu : Unfed me.next) : Fresh t' where
  unfed i := h.lift (P := Unfed) hu (fun _ => hf.unfed i)
  ones hw k := by
    rw [hav]
    refine hf.ones (fun i => ?_) k
    by_cases hi : i = id
    · rw [hi]
      exact hs
    · rw [← h.next_other hi]
      exact hw i
  first i hi := by
    rw [hav]
    refine hf.first i ?_
    by_cases hid : i = id
    · rw [hid,h.next_self] at hi
      exact absurd (.inl hi) hs'
    · rwa [h.next_other hid] at hi
  second i hi := by
    rw [hav]
    refine hf.second i ?_
    by_cases hid : i = id
    · rw [hid,h.next_self] at hi
      exact absurd (.inr hi) hs'
    · rwa [h.next_other hid] at hi

theorem Fresh.first_step (hf : Fresh t) (hsole : Sole t) (h : Acts t id me t') (hs : (t.diners id).next = .takeLeft)
    (hs' : me.next = .takeRight) {k : Fin n} (hk : t.available (leftChop id) = k.val)
    (hav : t'.available = Function.update t.available k 0) : Fresh t' := by
  have hin : Inside (t.diners id).next := hs ▸ trivial
  refine ⟨fun i => h.lift (P := Unfed) (hs' ▸ trivial) (fun _ => hf.unfed i),fun hw => ?_,?_,?_⟩
  · exact absurd (.inl (h.next_self.trans hs')) (hw id)
  · intro _ _ j
    rw [hav]
    refine first_write (hf.ones (fun i => ?_)) hk j
    by_cases hi : i = id
    · simp [hi,hs,Writing]
    · exact hsole.unwritten hin hi
  · intro i hi
    rw [h.sole_writer hsole hin (.inr hi),h.next_self,hs'] at hi
    cases hi

theorem Fresh.second_step (hf : Fresh t) (hsole : Sole t) (h : Acts t id me t')
    (hs : (t.diners id).next = .takeRight) (hs' : me.next = .unlockTaken) {k : Fin n}
    (hk : t.available (rightChop id) = k.val) (hav : t'.available = Function.update t.available k 0) : Fresh t' := by
  have hin : Inside (t.diners id).next := hs ▸ trivial
  refine ⟨fun i => h.lift (P := Unfed) (hs' ▸ trivial) (fun _ => hf.unfed i),fun hw => ?_,?_,?_⟩
  · exact absurd (.inr (h.next_self.trans hs')) (hw id)
  · intro i hi
    rw [h.sole_writer hsole hin (.inl hi),h.next_self,hs'] at hi
    cases hi
  · intro i hi j
    rw [hav,h.sole_writer hsole hin (.inr hi)]
    exact second_write (hf.first id hs) hk j

theorem Fresh.acts (hf : Fresh t) (hsole : Sole t) (h : Acts t id me t') :
    Fresh t' ∨ (t.diners id).next = .unlockTaken := by
  rcases h.effect.of_unfed (hf.unfed id) with ⟨hav,hs,hs',hu⟩ | ⟨hs,hs',k,hk,hav⟩ | ⟨hs,hs',k,hk,hav⟩ | ⟨hs,-,-⟩
  · exact .inl (hf.unwritten_step h hav hs hs' hu)
  · exact .inl (hf.first_step hsole h hs hs' hk hav)
  · exact .inl (hf.second_step hsole h hs hs' hk hav)
  · exact .inr hs

theorem two_chops {z : Fin n} (hn : n = 2) (hz : z.val = 0) (k : Fin n) : leftChop z = k ∨ rightChop z = k := by
  have hk := k.isLt
  rw [Fin.ext_iff,Fin.ext_iff,rightChop_val,if_pos hz,leftChop]
  omega

theorem two_neighbours {z : Fin n} (hn : n = 2) (hz : z.val = 0) {j : Fin n} (hj : j ≠ z) : leftPhil j = z := by
  have hlt := j.isLt
  have hval : j.val ≠ z.val := fun hval => hj (Fin.ext hval)
  rw [leftPhil,dif_pos (by omega),Fin.ext_iff]
  exact hz.symm

theorem Effect.of_meal {s s' : Statement} {waiter : Bool} {available : Fin n → Int}
    (h : Effect t id s s' waiter available) (hs : (s = .eat ∨ s = .lockToGive) ∨ s = .giveLeft) :
    (available = t.available ∧ ((s' = .eat ∨ s' = .lockToGive) ∨ s' = .giveLeft)) ∨
    (s = .giveLeft ∧ s' = .giveRight ∧
      ∃ k : Fin n, t.available (leftChop id) = k.val ∧ available = Function.update t.available k 1) := by
  cases h with
  | eat => exact .inl ⟨rfl,.inl (.inl rfl)⟩
  | sated => exact .inl ⟨rfl,.inl (.inr rfl)⟩
  | lockToGive => exact .inl ⟨rfl,.inr rfl⟩
  | giveLeft hk => exact .inr ⟨rfl,rfl,_,hk,rfl⟩
  | _ => simp at hs

theorem Effect.of_giving {s s' : Statement} {waiter : Bool} {available : Fin n → Int}
    (h : Effect t id s s' waiter available) (hs : s = .giveRight ∨ s = .broadcast ∨ s = .unlockGiven) :
    (available = t.available ∧ (s' = .giveRight ∨ s' = .broadcast ∨ s' = .unlockGiven)) ∨
    (s = .giveRight ∧ s' = .broadcast ∧
      ∃ k : Fin n, t.available (rightChop id) = k.val ∧ available = Function.update t.available k 1) ∨
    s = .unlockGiven := by
  cases h with
  | giveRight hk => exact .inr (.inl ⟨rfl,rfl,_,hk,rfl⟩)
  | broadcast => exact .inl ⟨rfl,.inr (.inr rfl)⟩
  | unlockGiven => exact .inr (.inr rfl)
  | _ => simp at hs

theorem Meal.denies {z : Fin n} (hm : Meal t z) (hsole : Sole t) (hs : (t.diners id).next = .unlockTaken) :
    Eating t (leftPhil id) := by
  have hdiner := hm.diner
  have hid : id ≠ z := by
    rintro rfl
    simp [Eating,hs] at hdiner
  rw [two_neighbours hm.two hm.zero hid]
  refine hdiner.resolve_right (fun hgive => hid ?_)
  exact (hsole z (hgive ▸ trivial)).2 id (hs ▸ trivial)

theorem Meal.self_acts (hm : Meal t id) (hsole : Sole t) (h : Acts t id me t') : Meal t' id ∨ Giving t' id := by
  have hunfed (j : Fin n) (hj : j ≠ id) : Unfed (t'.diners j).next := h.next_other hj ▸ hm.unfed j hj
  rcases h.effect.of_meal hm.diner with ⟨hav,hs'⟩ | ⟨hs,hs',k,hk,hav⟩
  · refine .inl ⟨hm.two,hm.zero,hunfed,?_,fun hw k => ?_⟩
    · rw [Eating,h.next_self]
      exact hs'
    · rw [hav]
      exact hm.zeros (fun j hj => h.next_other hj ▸ hw j hj) k
  · have hzero := hm.zeros (fun j hj => hsole.unwritten (hs ▸ trivial) hj)
    rw [hzero] at hk
    refine .inr ⟨hm.two,hm.zero,hunfed,.inl (h.next_self.trans hs'),fun j => ?_⟩
    rw [hav,update_val,hzero]
    exact if_congr (by omega) rfl rfl

theorem Meal.other_acts {z : Fin n} (hm : Meal t z) (hsole : Sole t) (hid : id ≠ z)
    (hpolite : (t.diners id).next = .unlockTaken → ¬ Eating t (leftPhil id)) (h : Acts t id me t') : Meal t' z := by
  have hdiner : Eating t' z ∨ (t'.diners z).next = .giveLeft := by
    rw [Eating,h.next_other (Ne.symm hid)]
    exact hm.diner
  have hunfed (hu : Unfed me.next) (j : Fin n) (hj : j ≠ z) : Unfed (t'.diners j).next :=
    h.lift (P := Unfed) hu (fun _ => hm.unfed j hj)
  rcases h.effect.of_unfed (hm.unfed id hid) with ⟨hav,hs,hs',hu⟩ | ⟨-,hs',-⟩ | ⟨-,hs',-⟩ | ⟨hs,-,-⟩
  · refine ⟨hm.two,hm.zero,hunfed hu,hdiner,fun hw k => ?_⟩
    rw [hav]
    refine hm.zeros (fun j hj => ?_) k
    by_cases hji : j = id
    · rw [hji]
      exact hs
    · rw [← h.next_other hji]
      exact hw j hj
  · exact ⟨hm.two,hm.zero,hunfed (hs' ▸ trivial),hdiner,
      fun hw => absurd (.inl (h.next_self.trans hs')) (hw id hid)⟩
  · exact ⟨hm.two,hm.zero,hunfed (hs' ▸ trivial),hdiner,
      fun hw => absurd (.inr (h.next_self.trans hs')) (hw id hid)⟩
  · exact absurd (hm.denies hsole hs) (hpolite hs)

theorem Meal.acts {z : Fin n} (hm : Meal t z) (hsole : Sole t)
    (hpolite : (t.diners id).next = .unlockTaken → ¬ Eating t (leftPhil id)) (h : Acts t id me t') : Early t' := by
  by_cases hid : id = z
  · subst hid
    rcases hm.self_acts hsole h with hm' | hg
    · exact .meal hm'
    · exact .giving hg
  · exact .meal (hm.other_acts hsole hid hpolite h)

theorem Giving.inside {z : Fin n} (hg : Giving t z) : Inside (t.diners z).next := by
  rcases hg.giver with hs | hs | hs <;> (rw [hs]; trivial)

theorem Giving.acts {z : Fin n} (hg : Giving t z) (hsole : Sole t) (h : Acts t id me t') :
    Giving t' z ∨ (id = z ∧ (t.diners id).next = .unlockGiven) := by
  by_cases hid : id = z
  · subst hid
    have hunfed (j : Fin n) (hj : j ≠ id) : Unfed (t'.diners j).next := h.next_other hj ▸ hg.unfed j hj
    rcases h.effect.of_giving hg.giver with ⟨hav,hs'⟩ | ⟨hs,hs',k,hk,hav⟩ | hs
    · refine .inl ⟨hg.two,hg.zero,hunfed,?_,fun k => by rw [hav,hg.flags]⟩
      rw [h.next_self]
      exact hs'
    · refine .inl ⟨hg.two,hg.zero,hunfed,.inr (.inl (h.next_self.trans hs')),fun j => ?_⟩
      have htwo := hg.two
      -- the right flag is still 0, so entry 0 is written once more
      rw [hg.flags,rightChop_val,if_pos hg.zero,if_neg (by omega)] at hk
      rw [hav,update_val,hg.flags]
      split_ifs <;> omega
    · exact .inr ⟨rfl,hs⟩
  · have hout : ¬ Inside (t.diners id).next := fun hin => hid ((hsole z hg.inside).2 id hin)
    rcases h.effect.of_unfed (hg.unfed id hid) with ⟨hav,-,-,hu⟩ | ⟨hs,-⟩ | ⟨hs,-⟩ | ⟨hs,-⟩
    · refine .inl ⟨hg.two,hg.zero,fun j hj => h.lift (P := Unfed) hu (fun _ => hg.unfed j hj),?_,
        fun k => by rw [hav,hg.flags]⟩
      rw [h.next_other (Ne.symm hid)]
      exact hg.giver
    · exact absurd (hs ▸ trivial) hout
    · exact absurd (hs ▸ trivial) hout
    · exact absurd (hs ▸ trivial) hout

theorem Unfed.not_eating (h : Unfed (t.diners id).next) : ¬ Eating t id := by
  rintro (hs | hs) <;> (rw [hs] at h; exact h)

theorem Early.mirrors (hsole : Sole t) (h : Early t) : Mirrors t := by
  intro hfree k
  have hout := hsole.nobody hfree
  have hwriting (i : Fin n) : ¬ Writing (t.diners i).next := by
    rintro (hs | hs) <;> exact hout i (hs ▸ trivial)
  cases h with
  | fresh hf =>
    rw [hf.ones hwriting k]
    simp [(hf.unfed _).not_eating]
  | @meal z hm =>
    have heating : Eating t z := hm.diner.resolve_right (fun hs => hout z (hs ▸ trivial))
    rw [hm.zeros (fun j _ => hwriting j) k]
    exact ⟨iff_of_true rfl ⟨z,heating,two_chops hm.two hm.zero k⟩,.inl rfl⟩
  | @giving z hg => exact absurd hg.inside (hout z)

structure Served (t : Table n) : Prop where
  sole : Sole t
  early : Early t

theorem early_acts (hs : Served t) (hpolite : (t.diners id).next = .unlockTaken → ¬ Eating t (leftPhil id))
    (hharmless : ((t.diners id).next = .unlockTaken → n = 2 ∧ id.val = 0) ∧ (t.diners id).next ≠ .unlockGiven)
    (h : Acts t id me t') : Early t' := by
  cases hs.early with
  | fresh hf =>
    rcases hf.acts hs.sole h with hf' | htaken
    · exact .fresh hf'
    · obtain ⟨hn,hid⟩ := hharmless.1 htaken
      have heffect := h.effect
      rw [htaken] at heffect
      refine .meal ⟨hn,hid,fun j hj => h.next_other hj ▸ hf.unfed j,.inl (h.served htaken),fun _ k => ?_⟩
      have hk := k.isLt
      rw [heffect.taken.2,hf.second id htaken,rightChop_val,if_pos hid,if_pos (by omega)]
  | meal hm => exact hm.acts hs.sole hpolite h
  | giving hg =>
    rcases hg.acts hs.sole h with hg' | ⟨-,hgiven⟩
    · exact .giving hg'
    · exact absurd hgiven hharmless.2

-- Only the flags of chopsticks 0 and 1 are ever written, so these have to be the diner's own.
theorem Fresh.taken_mirrors (hn : 2 ≤ n) (hf : Fresh t) (hs : (t.diners id).next = .unlockTaken)
    (h : Acts t id me t') (hm : Mirrors t') : n = 2 ∧ id.val = 0 := by
  have heffect := h.effect
  rw [hs] at heffect
  have hzero (k : Fin n) (hk : leftChop id = k ∨ rightChop id = k) :
      k.val = 1 ∨ (rightChop id).val = 1 ∧ k.val = 0 := by
    have hflag := ((hm heffect.taken.1 k).1).mpr ⟨id,h.served hs,hk⟩
    rw [heffect.taken.2,hf.second id hs] at hflag
    by_contra hk
    rw [if_neg hk] at hflag
    cases hflag
  have hleft := hzero (leftChop id) (.inl rfl)
  have hright := hzero (rightChop id) (.inr rfl)
  simp only [leftChop,rightChop_val] at hleft hright
  split at hright <;> omega

theorem Giving.given_not_mirrors (hg : Giving t id) (hs : (t.diners id).next = .unlockGiven)
    (h : Acts t id me t') : ¬ Mirrors t' := by
  intro hm
  have htwo := hg.two
  have heffect := h.effect
  rw [hs] at heffect
  obtain ⟨hnext,hfree,hav⟩ := heffect.given
  have hflag : t'.available ⟨1,by omega⟩ = 0 := by
    rw [hav,hg.flags,if_neg (by simp)]
  obtain ⟨j,hj,-⟩ := (hm hfree _).1.mp hflag
  by_cases hji : j = id
  · rw [hji,h.self,hnext] at hj
    simp at hj
  · exact (hg.unfed j hji).not_eating ((h.others hji).mp hj)

theorem Unfed.not_giving {s : Statement} (h : Unfed s) : s ≠ .unlockGiven := by
  rintro rfl
  exact h

theorem mistaken_acts (hn : 2 ≤ n) (hs : Served t)
    (hpolite : (t.diners id).next = .unlockTaken → ¬ Eating t (leftPhil id)) (h : Acts t id me t')
    (hm : Mirrors t') :
    ((t.diners id).next = .unlockTaken → n = 2 ∧ id.val = 0) ∧ (t.diners id).next ≠ .unlockGiven := by
  cases hs.early with
  | fresh hf => exact ⟨fun htaken => hf.taken_mirrors hn htaken h hm,(hf.unfed id).not_giving⟩
  | @meal z hmeal =>
    refine ⟨fun htaken => absurd (hmeal.denies hs.sole htaken) (hpolite htaken),?_⟩
    by_cases hid : id = z
    · subst hid
      intro hgiven
      have hdiner := hmeal.diner
      simp [Eating,hgiven] at hdiner
    · exact (hmeal.unfed id hid).not_giving
  | @giving z hg =>
    have honly (hin : Inside (t.diners id).next) : id = z := (hs.sole z hg.inside).2 id hin
    refine ⟨fun htaken => ⟨hg.two,honly (htaken ▸ trivial) ▸ hg.zero⟩,fun hgiven => ?_⟩
    obtain rfl := honly (hgiven ▸ trivial)
    exact hg.given_not_mirrors hgiven h hm

theorem Served.shutDown (hs : Served t) (h : shutDown t = some t') : Served t' := by
  obtain ⟨hw,ha,hd⟩ := shutDown_frame h
  obtain ⟨hsole,hearly⟩ := hs
  refine ⟨?_,?_⟩
  · rw [Sole,hw,hd]
    exact hsole
  · cases hearly with
    | fresh hf =>
      obtain ⟨hunfed,hones,hfirst,hsecond⟩ := hf
      rw [← hd,← ha] at *
      exact .fresh ⟨hunfed,hones,hfirst,hsecond⟩
    | meal hm =>
      obtain ⟨htwo,hzero,hunfed,hdiner,hzeros⟩ := hm
      rw [Eating,← hd,← ha] at *
      exact .meal ⟨htwo,hzero,hunfed,hdiner,hzeros⟩
    | giving hg =>
      obtain ⟨htwo,hzero,hunfed,hgiver,hflags⟩ := hg
      rw [← hd,← ha] at *
      exact .giving ⟨htwo,hzero,hunfed,hgiver,hflags⟩

theorem served_step {thread : Option (Fin n)} (hs : Served t) (h : PoliteSteps t thread t')
    (hharm : Harmless t thread) : Served t' := by
  obtain ⟨hstep,hpolite⟩ := h
  cases thread with
  | none => exact hs.shutDown hstep
  | some id =>
    obtain ⟨rnd,hrun⟩ := hstep
    obtain ⟨me,hacts⟩ := thread_acts hrun
    exact ⟨sole_acts hs.sole hacts,early_acts hs (fun htaken => (hpolite id rfl htaken).1) (hharm id rfl) hacts⟩

theorem mistaken_step (hn : 2 ≤ n) {thread : Option (Fin n)} (hs : Served t) (h : PoliteSteps t thread t')
    (hm : Mirrors t') : Harmless t thread := by
  obtain ⟨hstep,hpolite⟩ := h
  rintro id rfl
  obtain ⟨rnd,hrun⟩ := hstep
  obtain ⟨me,hacts⟩ := thread_acts hrun
  exact mistaken_acts hn hs (fun htaken => (hpolite id rfl htaken).1) hacts hm

theorem served_start : Served (setTable n) where
  sole _ hi := nomatch hi
  early := .fresh ⟨fun _ => trivial,fun _ _ => rfl,nofun,nofun⟩

theorem always_mirrors (hn : 2 ≤ n) {tr : List (Table n × Option (Fin n))} (h : PoliteRun n tr t) :
    Always Mirrors tr t ↔ Throughout Harmless tr := by
  refine h.always_iff served_start (fun s hs => hs.early.mirrors hs.sole) ?_ ?_
  · exact fun s i s' hs hstep hharm => served_step hs hstep hharm
  · exact fun s i s' hs hstep hharm hm => hharm (mistaken_step hn hs hstep hm)

theorem first_meal (hn : 2 ≤ n) (id : Fin n) :
    ∃ tr t, PoliteRun n tr t ∧ Eating t id ∧ (Throughout Harmless tr → n = 2 ∧ id.val = 0) := by
  obtain ⟨tr,t,hrun,hmeal⟩ := idle_acquires hn .start idle_start id rfl
  obtain ⟨e,he,htaken⟩ := hmeal.leaves
  refine ⟨tr,t,hrun.restrict (fun e he j hj _ => ?_),hmeal.eating,fun hharm => ?_⟩
  · obtain ⟨hid,hothers⟩ := hmeal.alone e he
    obtain rfl := Option.some.inj (hid.symm.trans hj)
    rw [Eating,Eating,hothers _ (left_phil_ne hn id),hothers _ (right_phil_ne hn id)]
    simp [setTable]
  · exact (hharm e he id (hmeal.alone e he).1).1 htaken

theorem flags_mirror_iff (hn : 2 ≤ n) :
    (∀ tr t, PoliteRun n tr t → (Always Mirrors tr t ↔ Throughout Harmless tr)) ∧
    ∀ id : Fin n, ¬ (n = 2 ∧ id.val = 0) → ∃ tr t, PoliteRun n tr t ∧ Eating t id ∧ ¬ Always Mirrors tr t := by
  refine ⟨fun tr t h => always_mirrors hn h,fun id hid => ?_⟩
  obtain ⟨tr,t,hrun,heating,hharm⟩ := first_meal hn id
  exact ⟨tr,t,hrun,heating,fun hm => hid (hharm ((always_mirrors hn hrun).mp hm))⟩

theorem flags_mirror_iff_two :
    ∃ tr t, PoliteRun 2 tr t ∧ Eating t 0 ∧ (Always Mirrors tr t ↔ Throughout Harmless tr) := by
  obtain ⟨hiff,-⟩ := flags_mirror_iff (n := 2) (by decide)
  obtain ⟨tr,t,hrun,heating,-⟩ := first_meal (n := 2) (by decide) 0
  exact ⟨tr,t,hrun,heating,hiff tr t hrun⟩

theorem flags_not_mirrored : ¬ ∀ n, 2 ≤ n → ∀ tr t, PoliteRun n tr t → Always Mirrors tr t := by
  intro h
  obtain ⟨tr,t,hrun,-,hharm⟩ := first_meal (n := 5) (by decide) 0
  have hn := hharm ((always_mirrors (by decide) hrun).mp (h 5 (by decide) tr t hrun))
  exact absurd hn.1 (by decide)

end OperatingSystemLabs.Philosophers.Waiter

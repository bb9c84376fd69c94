import Mathlib.Data.List.Basic

namespace OperatingSystemLabs.Interleaving

variable {σ ι : Type} {step : σ → ι → σ → Prop} {init : σ}

-- A run lists its steps: the state each was taken in, and who took it.
inductive Trace (step : σ → ι → σ → Prop) (init : σ) : List (σ × ι) → σ → Prop
  | start : Trace step init [] init
  | snoc {tr : List (σ × ι)} {s t : σ} {i : ι} :
      Trace step init tr s → step s i t → Trace step init (tr ++ [(s,i)]) t

def Always (P : σ → Prop) (tr : List (σ × ι)) (last : σ) : Prop := (∀ e ∈ tr, P e.1) ∧ P last

def Throughout (allowed : σ → ι → Prop) (tr : List (σ × ι)) : Prop := ∀ e ∈ tr, allowed e.1 e.2

variable {tr : List (σ × ι)} {s t : σ} {P I : σ → Prop} {allowed : σ → ι → Prop}

theorem always_snoc {i : ι} : Always P (tr ++ [(s,i)]) t ↔ Always P tr s ∧ P t := by
  simp [Always,or_imp,forall_and]

theorem throughout_snoc {i : ι} : Throughout allowed (tr ++ [(s,i)]) ↔ Throughout allowed tr ∧ allowed s i := by
  simp [Throughout,or_imp,forall_and]

theorem Trace.invariant (h0 : I init) (hstep : ∀ s i t, I s → allowed s i → step s i t → I t)
    (h : Trace step init tr t) (ha : Throughout allowed tr) : Always I tr t := by
  induction h with
  | start => exact ⟨nofun,h0⟩
  | @snoc tr s t i _ hs ih =>
    obtain ⟨ha,hi⟩ := throughout_snoc.mp ha
    exact always_snoc.mpr ⟨ih ha,hstep s i t (ih ha).2 hi hs⟩

theorem Trace.restrict (h : Trace step init tr t) (ha : Throughout allowed tr) :
    Trace (fun s i t => step s i t ∧ allowed s i) init tr t := by
  induction h with
  | start => exact .start
  | snoc _ hs ih =>
    obtain ⟨ha,hi⟩ := throughout_snoc.mp ha
    exact .snoc (ih ha) ⟨hs,hi⟩

theorem Trace.always_iff (h0 : I init) (hsafe : ∀ s, I s → P s)
    (hgood : ∀ s i t, I s → step s i t → allowed s i → I t)
    (hbad : ∀ s i t, I s → step s i t → ¬ allowed s i → ¬ P t)
    (h : Trace step init tr t) : Always P tr t ↔ Throughout allowed tr := by
  have hinv {tr : List (σ × ι)} {t : σ} (h : Trace step init tr t) (ha : Throughout allowed tr) :
      Always I tr t := h.invariant h0 (fun s i t hs hi hst => hgood s i t hs hst hi) ha
  constructor
  · intro hp
    induction h with
    | start => exact nofun
    | @snoc tr s t i h hs ih =>
      obtain ⟨hp,hpt⟩ := always_snoc.mp hp
      refine throughout_snoc.mpr ⟨ih hp,?_⟩
      by_contra hi
      exact hbad s i t (hinv h (ih hp)).2 hs hi hpt
  · intro ha
    obtain ⟨hall,hlast⟩ := hinv h ha
    exact ⟨fun e he => hsafe e.1 (hall e he),hsafe t hlast⟩

theorem Trace.append {tr' : List (σ × ι)} (h : Trace step init tr s) (h' : Trace step s tr' t) :
    Trace step init (tr ++ tr') t := by
  induction h' with
  | start => rwa [List.append_nil]
  | snoc _ hs ih =>
    rw [← List.append_assoc]
    exact ih.snoc hs

theorem trace_follows {f : σ → ι → Option σ} {actors : List ι} (h : actors.foldlM f s = some t) :
    ∃ tr, Trace (fun s i t => f s i = some t) s tr t := by
  induction actors generalizing s with
  | nil =>
    cases h
    exact ⟨[],.start⟩
  | cons i actors ih =>
    obtain ⟨u,hu,h⟩ := Option.bind_eq_some_iff.mp (List.foldlM_cons.symm.trans h)
    obtain ⟨tr,htr⟩ := ih h
    exact ⟨_,(Trace.start.snoc hu).append htr⟩

theorem exists_finished {finished : σ → Prop} (bound : Nat)
    (hshort : ∀ tr s, Trace step init tr s → tr.length ≤ bound)
    (hgo : ∀ tr s, Trace step init tr s → ¬ finished s → ∃ i t, step s i t) :
    ∃ tr s, Trace step init tr s ∧ finished s := by
  have hlong (n : Nat) : (∃ tr s, Trace step init tr s ∧ finished s) ∨
      ∃ tr s, Trace step init tr s ∧ tr.length = n := by
    induction n with
    | zero => exact .inr ⟨[],init,.start,rfl⟩
    | succ n ih =>
      refine ih.elim .inl fun ⟨tr,s,htr,hlength⟩ => ?_
      by_cases hfinished : finished s
      · exact .inl ⟨tr,s,htr,hfinished⟩
      · obtain ⟨i,t,hstep⟩ := hgo tr s htr hfinished
        exact .inr ⟨_,t,htr.snoc hstep,by rw [List.length_append,hlength]; rfl⟩
  refine (hlong (bound + 1)).resolve_right fun ⟨tr,s,htr,hlength⟩ => ?_
  have hbound := hshort tr s htr
  omega

theorem trace_through (states : Nat → σ) (n : Nat) (h : ∀ k < n, ∃ i, step (states k) i (states (k + 1))) :
    ∃ tr, Trace step (states 0) tr (states n) := by
  induction n with
  | zero => exact ⟨[],.start⟩
  | succ n ih =>
    obtain ⟨tr,htr⟩ := ih fun k hk => h k (Nat.lt_succ_of_lt hk)
    obtain ⟨i,hi⟩ := h n (Nat.lt_succ_self n)
    exact ⟨_,htr.snoc hi⟩

end OperatingSystemLabs.Interleaving

import Mathlib.Order.WellFounded

namespace OperatingSystemLabs.Transition

variable {σ ε : Type}

def iterate (step : σ → Except ε σ) : Nat → σ → Except ε σ
  | 0, s => .ok s
  | n + 1, s => (step s).bind (iterate step n)

def Reach (step : σ → Except ε σ) (s t : σ) : Prop := ∃ n, iterate step n s = .ok t

def Preserved (step : σ → Except ε σ) (P : σ → Prop) : Prop :=
  ∀ s, P s → ∃ t, step s = .ok t ∧ P t

theorem iterate_succ_ok {step : σ → Except ε σ} {n : Nat} {s t : σ} (h : step s = .ok t) :
    iterate step (n + 1) s = iterate step n t := by
  rw [iterate, h]
  rfl

theorem iterate_add {step : σ → Except ε σ} {n k : Nat} {s t : σ}
    (h : iterate step n s = .ok t) : iterate step (n + k) s = iterate step k t := by
  induction n generalizing s with
  | zero =>
    cases h
    rw [Nat.zero_add]
  | succ n ih =>
    rw [Nat.add_right_comm]
    cases hs : step s with
    | error e =>
      rw [iterate, hs] at h
      cases h
    | ok u =>
      rw [iterate_succ_ok hs] at h ⊢
      exact ih h

theorem iterate_snoc {step : σ → Except ε σ} {n : Nat} {s t : σ}
    (h : iterate step n s = .ok t) : iterate step (n + 1) s = step t := by
  rw [iterate_add h, iterate]
  cases step t <;> rfl

theorem Reach.refl (step : σ → Except ε σ) (s : σ) : Reach step s s := ⟨0, rfl⟩

theorem Reach.trans {step : σ → Except ε σ} {s t u : σ} (h : Reach step s t)
    (k : Reach step t u) : Reach step s u := by
  obtain ⟨n, hn⟩ := h
  obtain ⟨m, hm⟩ := k
  exact ⟨n + m, by rw [iterate_add hn, hm]⟩

theorem Reach.head {step : σ → Except ε σ} {s t u : σ} (h : step s = .ok t)
    (k : Reach step t u) : Reach step s u := by
  obtain ⟨n, hn⟩ := k
  exact ⟨n + 1, by rw [iterate_succ_ok h, hn]⟩

theorem Reach.tail {step : σ → Except ε σ} {s t u : σ} (h : Reach step s t)
    (k : step t = .ok u) : Reach step s u :=
  h.trans (Reach.head k (Reach.refl step u))

theorem Preserved.iterate {step : σ → Except ε σ} {P : σ → Prop} (hp : Preserved step P)
    {s : σ} (hs : P s) (n : Nat) : ∃ t, iterate step n s = .ok t ∧ P t := by
  induction n generalizing s with
  | zero => exact ⟨s, rfl, hs⟩
  | succ n ih =>
    obtain ⟨t, ht, hpt⟩ := hp s hs
    rw [iterate_succ_ok ht]
    exact ih hpt

theorem Preserved.reach {step : σ → Except ε σ} {P : σ → Prop} (hp : Preserved step P)
    {s t : σ} (hs : P s) (h : Reach step s t) : P t := by
  obtain ⟨n, hn⟩ := h
  obtain ⟨u, hu, hpu⟩ := hp.iterate hs n
  rw [hn] at hu
  cases hu
  exact hpu

theorem Reach.induction {step : σ → Except ε σ} {P Q : σ → Prop} (hp : Preserved step P)
    {s t : σ} (hs : P s) (hq : Q s)
    (hstep : ∀ a b, Reach step s a → P a → Q a → step a = .ok b → Q b)
    (h : Reach step s t) : Q t := by
  obtain ⟨n, hn⟩ := h
  induction n generalizing t with
  | zero =>
    cases hn
    exact hq
  | succ n ih =>
    obtain ⟨u, hu, hpu⟩ := hp.iterate hs n
    rw [iterate_snoc hu] at hn
    exact hstep u t ⟨n, hu⟩ hpu (ih hu) hn

theorem Reach.invariant {step : σ → Except ε σ} {P : σ → Prop}
    (hstep : ∀ a b, P a → step a = .ok b → P b) {s t : σ} (hs : P s) (h : Reach step s t) : P t := by
  obtain ⟨n, hn⟩ := h
  induction n generalizing s with
  | zero =>
    cases hn
    exact hs
  | succ n ih =>
    cases hs' : step s with
    | error e =>
      rw [iterate, hs'] at hn
      cases hn
    | ok u =>
      rw [iterate_succ_ok hs'] at hn
      exact ih (hstep s u hs hs') hn

theorem iterate_lockstep {τ : Type} {step : σ → Except ε σ} {step' : τ → Except ε τ} {R : σ → τ → Prop}
    (hstep : ∀ s t, R s t → ∃ s' t', step s = .ok s' ∧ step' t = .ok t' ∧ R s' t')
    {s : σ} {t : τ} (h : R s t) (n : Nat) :
    ∃ s' t', iterate step n s = .ok s' ∧ iterate step' n t = .ok t' ∧ R s' t' := by
  induction n generalizing s t with
  | zero => exact ⟨s, t, rfl, rfl, h⟩
  | succ n ih =>
    obtain ⟨a, b, ha, hb, hab⟩ := hstep s t h
    rw [iterate_succ_ok ha, iterate_succ_ok hb]
    exact ih hab

theorem Reach.simulation {τ ε' : Type} {step : σ → Except ε σ} {step' : τ → Except ε' τ} {R : σ → τ → Prop}
    (hstep : ∀ s t, R s t → ∃ s' t', step s = .ok s' ∧ Reach step' t t' ∧ R s' t')
    {s s' : σ} {t : τ} (h : R s t) (k : Reach step s s') : ∃ t', Reach step' t t' ∧ R s' t' := by
  obtain ⟨n, hn⟩ := k
  induction n generalizing s t with
  | zero =>
    cases hn
    exact ⟨t, Reach.refl step' t, h⟩
  | succ n ih =>
    obtain ⟨a, b, ha, hb, hab⟩ := hstep s t h
    rw [iterate_succ_ok ha] at hn
    obtain ⟨t', hbt, ht'⟩ := ih hab hn
    exact ⟨t', hb.trans hbt, ht'⟩

theorem Reach.linear {step : σ → Except ε σ} {s t u : σ} (h : Reach step s t)
    (k : Reach step s u) : Reach step t u ∨ Reach step u t := by
  obtain ⟨n, hn⟩ := h
  obtain ⟨m, hm⟩ := k
  rcases Nat.le_total n m with hle | hle
  · obtain ⟨d, rfl⟩ := Nat.exists_eq_add_of_le hle
    exact .inl ⟨d, by rw [← iterate_add hn, hm]⟩
  · obtain ⟨d, rfl⟩ := Nat.exists_eq_add_of_le hle
    exact .inr ⟨d, by rw [← iterate_add hm, hn]⟩

theorem reach_final {β : Type} {r : β → β → Prop} (wf : WellFounded r) (rank : σ → β)
    {step : σ → Except ε σ} {P Final : σ → Prop}
    (hstep : ∀ s, P s → ¬ Final s → ∃ t, step s = .ok t ∧ P t ∧ r (rank t) (rank s))
    {s : σ} (hs : P s) : ∃ t, Reach step s t ∧ P t ∧ Final t := by
  induction hb : rank s using wf.induction generalizing s with
  | _ b ih =>
    by_cases hf : Final s
    · exact ⟨s, Reach.refl step s, hs, hf⟩
    · obtain ⟨t, ht, hpt, hr⟩ := hstep s hs hf
      obtain ⟨u, hu, hpu, hfu⟩ := ih (rank t) (hb ▸ hr) hpt rfl
      exact ⟨u, Reach.head ht hu, hpu, hfu⟩

end OperatingSystemLabs.Transition

import Mathlib.Data.List.Nodup

namespace OperatingSystemLabs.Links

variable {α : Type} {next next' prev prev' : α → Option α}

def Chain (next : α → Option α) : Option α → List α → Prop
  | cur, [] => cur = none
  | cur, p :: ps => cur = some p ∧ Chain next (next p) ps

theorem chain_unique {cur : Option α} {ps qs : List α} (h : Chain next cur ps) (k : Chain next cur qs) :
    ps = qs := by
  induction ps generalizing cur qs with
  | nil =>
    cases qs with
    | nil => rfl
    | cons q qs => exact absurd (h.symm.trans k.1) (by simp)
  | cons p ps ih =>
    cases qs with
    | nil => exact absurd (k.symm.trans h.1) (by simp)
    | cons q qs =>
      obtain rfl : p = q := Option.some.inj (h.1.symm.trans k.1)
      rw [ih h.2 k.2]

theorem chain_suffix {cur : Option α} {l : List α} {p : α} {r : List α}
    (h : Chain next cur (l ++ p :: r)) : Chain next (some p) (p :: r) := by
  induction l generalizing cur with
  | nil => exact ⟨rfl,h.2⟩
  | cons x xs ih => exact ih h.2

theorem chain_nodup {cur : Option α} {ps : List α} (h : Chain next cur ps) : ps.Nodup := by
  induction ps generalizing cur with
  | nil => exact List.nodup_nil
  | cons p ps ih =>
    refine List.nodup_cons.mpr ⟨fun hp => ?_,ih h.2⟩
    obtain ⟨l,r,rfl⟩ := List.append_of_mem hp
    -- Both visits of `p` are followed by the same list, which is then longer than itself.
    have hr : l ++ p :: r = r := chain_unique h.2 (chain_suffix h.2).2
    have hlen := congrArg List.length hr
    simp only [List.length_append,List.length_cons] at hlen
    omega

theorem chain_congr {cur : Option α} {ps : List α} (he : ∀ p ∈ ps, next' p = next p)
    (h : Chain next cur ps) : Chain next' cur ps := by
  induction ps generalizing cur with
  | nil => exact h
  | cons p ps ih =>
    refine ⟨h.1,?_⟩
    rw [he p (by simp)]
    exact ih (fun q hq => he q (by simp [hq])) h.2

theorem chain_insert {cur : Option α} {l : List α} {p q : α} {r : List α}
    (h : Chain next cur (l ++ p :: r)) (he : ∀ x ∈ l ++ r, next' x = next x)
    (hp : next' p = some q) (hq : next' q = next p) : Chain next' cur (l ++ p :: q :: r) := by
  induction l generalizing cur with
  | nil =>
    refine ⟨h.1,hp,?_⟩
    rw [hq]
    exact chain_congr (fun x hx => he x (by simpa using hx)) h.2
  | cons x xs ih =>
    refine ⟨h.1,?_⟩
    rw [he x (by simp)]
    exact ih h.2 (fun y hy => he y (by simp only [List.cons_append,List.mem_cons]; exact .inr hy))

theorem chain_remove {cur : Option α} {l : List α} {p q : α} {r : List α} (h : Chain next cur (l ++ p :: q :: r))
    (he : ∀ x ∈ l ++ r, next' x = next x) (hp : next' p = next q) : Chain next' cur (l ++ p :: r) := by
  induction l generalizing cur with
  | nil =>
    refine ⟨h.1,?_⟩
    rw [hp]
    exact chain_congr (fun x hx => he x (by simpa using hx)) h.2.2
  | cons x xs ih =>
    refine ⟨h.1,?_⟩
    rw [he x (by simp)]
    exact ih h.2 (fun y hy => he y (by simp only [List.cons_append,List.mem_cons]; exact .inr hy))

def Back (prev : α → Option α) : Option α → List α → Prop
  | _, [] => True
  | before, p :: ps => prev p = before ∧ Back prev (some p) ps

theorem back_congr {before : Option α} {ps : List α} (he : ∀ p ∈ ps, prev' p = prev p) :
    Back prev' before ps ↔ Back prev before ps := by
  induction ps generalizing before with
  | nil => exact Iff.rfl
  | cons p ps ih =>
    rw [Back,Back,he p (by simp),ih fun q hq => he q (by simp [hq])]

theorem back_append {before : Option α} {l r : List α} {p : α} :
    Back prev before (l ++ p :: r) ↔ Back prev before (l ++ [p]) ∧ Back prev (some p) r := by
  induction l generalizing before with
  | nil => simp [Back]
  | cons x xs ih => rw [List.cons_append,List.cons_append,Back,Back,ih,and_assoc]

theorem back_next {cur before : Option α} {ps : List α} (h : Chain next cur ps) :
    Back prev before ps ↔
      (∀ p ∈ cur, prev p = before) ∧ ∀ p ∈ ps, ∀ q ∈ next p, prev q = some p := by
  induction ps generalizing cur before with
  | nil =>
    obtain rfl : cur = none := h
    simp [Back]
  | cons p ps ih =>
    obtain ⟨rfl,h⟩ := h
    rw [Back,ih h,List.forall_mem_cons]
    simp

theorem back_walk {before : Option α} {ps seen : List α} (h : Back prev before ps)
    (hseen : Chain prev before seen) : Chain prev (ps.getLast?.or before) (ps.reverse ++ seen) := by
  induction ps generalizing before seen with
  | nil => exact hseen
  | cons p ps ih =>
    obtain ⟨rfl,h⟩ := h
    have hseen' : Chain prev (some p) (p :: seen) := ⟨rfl,hseen⟩
    have hwalk := ih h hseen'
    simpa [List.getLast?_cons] using hwalk

end OperatingSystemLabs.Links

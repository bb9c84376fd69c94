import Mathlib.Data.Multiset.Filter

namespace OperatingSystemLabs.Correspondence

open Multiset

variable {α β γ : Type} {R : α → β → Prop} {S : β → γ → Prop} {T : α → γ → Prop}
variable {s : Multiset α} {t : Multiset β} {u : Multiset γ}

theorem rel_of_forall₂ {l : List α} {m : List β} (h : List.Forall₂ R l m) :
    Rel R (l : Multiset α) (m : Multiset β) := by
  induction h with
  | nil => exact .zero
  | cons hab _ ih => exact .cons hab ih

theorem partner_of_mem {l : List α} {m : List β} (h : List.Forall₂ R l m) : ∀ b ∈ m, ∃ a ∈ l, R a b := by
  induction h with
  | nil => simp
  | cons hab _ ih =>
    intro b hb
    rcases List.mem_cons.mp hb with rfl | hb
    · exact ⟨_,List.mem_cons_self,hab⟩
    · obtain ⟨a,hm,hR⟩ := ih b hb
      exact ⟨a,List.mem_cons_of_mem _ hm,hR⟩

theorem rel_comp (hR : Rel R s t) (hS : Rel S t u) (h : ∀ a b c, R a b → S b c → T a c) : Rel T s u := by
  induction hR generalizing u with
  | zero =>
    rw [rel_zero_left.mp hS]
    exact .zero
  | cons hab _ ih =>
    obtain ⟨c,u',hbc,hrest,rfl⟩ := rel_cons_left.mp hS
    exact .cons (h _ _ _ hab hbc) (ih hrest)

theorem rel_filter {p : α → Prop} {q : β → Prop} [DecidablePred p] [DecidablePred q]
    (hpq : ∀ a b, R a b → (p a ↔ q b)) (h : Rel R s t) : Rel R (s.filter p) (t.filter q) := by
  induction h with
  | zero => exact .zero
  | @cons a b s t hab _ ih =>
    by_cases hp : p a
    · rw [filter_cons_of_pos _ hp,filter_cons_of_pos _ ((hpq a b hab).mp hp)]
      exact .cons hab ih
    · rw [filter_cons_of_neg _ hp,filter_cons_of_neg _ (fun hq => hp ((hpq a b hab).mpr hq))]
      exact ih

theorem rel_separate {p : α → Prop} {q : β → Prop} [DecidablePred p] [DecidablePred q] {l : List α} {m n : List β}
    (hpq : ∀ a b, R a b → (p a ↔ q b)) (hm : ∀ b ∈ m, q b) (hn : ∀ b ∈ n, ¬q b)
    (h : Rel R (l : Multiset α) (m ++ n : List β)) :
    Rel R (l.filter p : Multiset α) (m : Multiset β) ∧
      Rel R (l.filter (fun a => ¬p a) : Multiset α) (n : Multiset β) := by
  have hyes : (m ++ n).filter (fun b => q b) = m := by
    rw [List.filter_append,List.filter_eq_self.mpr (by simpa using hm),List.filter_eq_nil_iff.mpr (by simpa using hn),
      List.append_nil]
  have hno : (m ++ n).filter (fun b => ¬q b) = n := by
    rw [List.filter_append,List.filter_eq_nil_iff.mpr (by simpa using hm),List.filter_eq_self.mpr (by simpa using hn),
      List.nil_append]
  constructor
  · have hrel := rel_filter hpq h
    rwa [filter_coe,filter_coe,hyes] at hrel
  · have hrel := rel_filter (fun a b hab => not_congr (hpq a b hab)) h
    rwa [filter_coe,filter_coe,hno] at hrel

end OperatingSystemLabs.Correspondence

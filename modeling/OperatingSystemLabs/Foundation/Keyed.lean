import Mathlib.Algebra.BigOperators.Group.List.Basic
import Mathlib.Data.List.Nodup
import Mathlib.Data.List.Perm.Subperm
import Mathlib.Data.List.Perm.Basic
import Mathlib.Data.List.Pairwise
import Mathlib.Algebra.Order.Ring.Int
import Mathlib.Logic.Function.Basic

namespace OperatingSystemLabs.Keyed

variable {α β κ : Type}

theorem map_self {f : α → α} {xs : List α} (h : ∀ x ∈ xs, f x = x) : xs.map f = xs :=
  (List.map_congr_left h).trans (List.map_id xs)

theorem filter_self {p : α → Bool} {xs : List α} (h : ∀ x ∈ xs, p x = true) : xs.filter p = xs :=
  List.filter_eq_self.mpr h

theorem forall_mem_snoc {P : α → Prop} {xs : List α} {a : α} (h : ∀ x ∈ xs, P x) (ha : P a) :
    ∀ x ∈ xs ++ [a], P x := List.forall_mem_append.mpr ⟨h,List.forall_mem_singleton.mpr ha⟩

theorem mem_middle {l r : List α} {x y : α} : y ∈ l ++ x :: r ↔ y = x ∨ y ∈ l ++ r :=
  List.perm_middle.mem_iff.trans List.mem_cons

theorem mem_middle_map {β : Type} {f : β → α} {l r : List β} {x y : α} :
    y ∈ l.map f ++ x :: r.map f ↔ y = x ∨ ∃ z ∈ l ++ r, f z = y := by
  rw [mem_middle,← List.map_append,List.mem_map]

theorem mem_split {l r : List α} {x y : α} (h : y ∈ l ++ r) : y ∈ l ++ x :: r :=
  mem_middle.mpr (.inr h)

theorem key_injective {key : α → κ} {xs : List α} (h : (xs.map key).Nodup) {a b : α}
    (ha : a ∈ xs) (hb : b ∈ xs) (he : key a = key b) : a = b :=
  List.inj_on_of_nodup_map h ha hb he

theorem find?_perm {α : Type} {p : α → Bool} {xs ys : List α} (h : xs.Perm ys)
    (hone : ∀ a ∈ xs, ∀ b ∈ xs, p a = true → p b = true → a = b) : ys.find? p = xs.find? p := by
  cases hx : xs.find? p with
  | none =>
    exact List.find?_eq_none.mpr (fun y hy => List.find?_eq_none.mp hx y (h.mem_iff.mpr hy))
  | some a =>
    have ha := List.mem_of_find?_eq_some hx
    have hpa := List.find?_some hx
    cases hy : ys.find? p with
    | none => exact absurd hpa (List.find?_eq_none.mp hy a (h.mem_iff.mp ha))
    | some b =>
      have hb := h.mem_iff.mpr (List.mem_of_find?_eq_some hy)
      rw [hone a ha b hb hpa (List.find?_some hy)]

theorem key_ne_of_split {key : α → κ} {l r : List α} {x : α} (h : ((l ++ x :: r).map key).Nodup) :
    ∀ y ∈ l ++ r, key y ≠ key x := by
  have hp : ((x :: (l ++ r)).map key).Nodup := (List.perm_middle.map key).nodup_iff.mp h
  intro y hy he
  exact (List.nodup_cons.mp hp).1 (he ▸ List.mem_map_of_mem hy)

theorem key_nodup_of_split {key : α → κ} {l r : List α} {x : α} (h : ((l ++ x :: r).map key).Nodup) :
    ((l ++ r).map key).Nodup := by
  have hp : ((x :: (l ++ r)).map key).Nodup := (List.perm_middle.map key).nodup_iff.mp h
  exact (List.nodup_cons.mp hp).2

theorem filter_split {p : α → Bool} {l r : List α} {x : α} (hx : p x = false)
    (h : ∀ y ∈ l ++ r, p y = true) : (l ++ x :: r).filter p = l ++ r := by
  rw [List.filter_append,List.filter_cons_of_neg (by simp [hx]),← List.filter_append]
  exact filter_self h

theorem map_split {f : α → α} {l r : List α} {x : α} (h : ∀ y ∈ l ++ r, f y = y) :
    (l ++ x :: r).map f = l ++ f x :: r := by
  rw [List.map_append,List.map_cons,
    map_self (fun y hy => h y (List.mem_append_left _ hy)),
    map_self (fun y hy => h y (List.mem_append_right _ hy))]

theorem map_update_split [DecidableEq α] (f : α → β) (v : β) {l r : List α} {p : α}
    (h : (l ++ p :: r).Nodup) :
    (l ++ p :: r).map (Function.update f p v) = l.map f ++ v :: r.map f := by
  have hp : p ∉ l ++ r := (List.nodup_cons.mp (List.perm_middle.nodup_iff.mp h)).1
  have hne : ∀ y ∈ l ++ r, y ≠ p := fun y hy he => hp (he ▸ hy)
  rw [List.map_append,List.map_cons,Function.update_self]
  congr 1
  · exact List.map_congr_left
      (fun y hy => Function.update_of_ne (hne y (List.mem_append_left _ hy)) _ _)
  · congr 1
    exact List.map_congr_left
      (fun y hy => Function.update_of_ne (hne y (List.mem_append_right _ hy)) _ _)

theorem map_update_of_notMem [DecidableEq α] (f : α → β) (v : β) {xs : List α} {p : α}
    (h : p ∉ xs) : xs.map (Function.update f p v) = xs.map f :=
  List.map_congr_left (fun y hy => Function.update_of_ne (fun he : y = p => h (he ▸ hy)) _ _)

def integers (n : Nat) : List Int := (List.range n).map (fun i : Nat => (i : Int))

theorem mem_integers {n : Nat} {c : Int} : c ∈ integers n ↔ 0 ≤ c ∧ c < n := by
  simp only [integers,List.mem_map,List.mem_range]
  constructor
  · rintro ⟨i,hi,rfl⟩
    omega
  · rintro ⟨h0,hn⟩
    exact ⟨c.toNat,by omega,by omega⟩

theorem integers_nodup (n : Nat) : (integers n).Nodup :=
  List.nodup_range.map (fun _ _ hab => Int.ofNat.inj hab)

theorem length_le_of_bounded {n : Nat} {xs : List Int} (hd : xs.Nodup)
    (h : ∀ c ∈ xs, 0 ≤ c ∧ c < n) : xs.length ≤ n := by
  have hsub : xs ⊆ integers n := fun c hc => mem_integers.mpr (h c hc)
  simpa [integers] using (List.subperm_of_subset hd hsub).length_le

theorem length_of_range {n : Nat} {xs : List Int} (hd : xs.Nodup)
    (h : ∀ c, c ∈ xs ↔ 0 ≤ c ∧ c < n) : xs.length = n := by
  have hp : xs.Perm (integers n) := by
    rw [List.perm_ext_iff_of_nodup hd (integers_nodup n)]
    exact fun c => (h c).trans mem_integers.symm
  simpa [integers] using hp.length_eq

theorem sum_change {f g : α → Int} {d : Int} {xs : List α} {x : α} (hd : xs.Nodup) (hx : x ∈ xs)
    (hnew : g x = f x + d) (hold : ∀ y ∈ xs, y ≠ x → g y = f y) :
    (xs.map g).sum = (xs.map f).sum + d := by
  obtain ⟨l,r,rfl⟩ := List.append_of_mem hx
  have hne : ∀ y ∈ l ++ r, y ≠ x :=
    fun y hy he => (List.nodup_cons.mp (List.perm_middle.nodup_iff.mp hd)).1 (he ▸ hy)
  have hl : l.map g = l.map f :=
    List.map_congr_left (fun y hy => hold y (by simp [hy]) (hne y (by simp [hy])))
  have hr : r.map g = r.map f :=
    List.map_congr_left (fun y hy => hold y (by simp [hy]) (hne y (by simp [hy])))
  simp only [List.map_append,List.map_cons,List.sum_append,List.sum_cons,hl,hr,hnew]
  omega

theorem length_missing {n : Nat} {a : Int} {xs : List Int} (hd : xs.Nodup)
    (h : ∀ x ∈ xs, a ≤ x ∧ x < a + n) :
    ((integers n).filter (fun i => a + i ∉ xs)).length + xs.length = n := by
  have hsplit := List.length_eq_length_filter_add (l := integers n) (fun i => decide (a + i ∈ xs))
  have hp : (((integers n).filter (fun i => a + i ∈ xs)).map (a + ·)).Perm xs := by
    refine (List.perm_ext_iff_of_nodup ?_ hd).mpr (fun x => ?_)
    · exact ((integers_nodup n).filter _).map (fun _ _ he => Int.add_left_cancel he)
    · simp only [List.mem_map,List.mem_filter,mem_integers,decide_eq_true_eq]
      constructor
      · rintro ⟨i,⟨-,hi⟩,rfl⟩
        exact hi
      · intro hx
        have := h x hx
        exact ⟨x - a,⟨by omega,by simpa using hx⟩,by omega⟩
  have hlen := hp.length_eq
  rw [List.length_map] at hlen
  have htotal : (integers n).length = n := by simp [integers]
  simp only [decide_not]
  omega

end OperatingSystemLabs.Keyed

import Mathlib.InformationTheory.Coding.UniquelyDecodable

namespace OperatingSystemLabs.PrefixCode

open InformationTheory

variable {α β : Type} {S : Set (List β)}

structure PrefixFree (S : Set (List β)) : Prop where
  nonempty : [] ∉ S
  alone : ∀ v ∈ S, ∀ w ∈ S, v <+: w → v = w

theorem PrefixFree.head_eq (h : PrefixFree S) {v w s t : List β} (hv : v ∈ S) (hw : w ∈ S)
    (heq : v ++ s = w ++ t) : v = w ∧ s = t := by
  have hsame : v = w := by
    rcases List.prefix_or_prefix_of_prefix (List.prefix_append v s) (heq ▸ List.prefix_append w t) with hvw | hwv
    · exact h.alone v hv w hw hvw
    · exact (h.alone w hw v hv hwv).symm
  subst hsame
  exact ⟨rfl,List.append_cancel_left heq⟩

theorem PrefixFree.uniquelyDecodable (h : PrefixFree S) : UniquelyDecodable S := by
  intro vs ws hvs hws heq
  induction vs generalizing ws with
  | nil =>
    cases ws with
    | nil => rfl
    | cons w ws =>
      have hnil : w = [] := (List.append_eq_nil_iff.mp heq.symm).1
      exact absurd (hnil ▸ hws w (by simp)) h.nonempty
  | cons v vs ih =>
    obtain ⟨hv,hvs⟩ := List.forall_mem_cons.mp hvs
    cases ws with
    | nil =>
      have hnil : v = [] := (List.append_eq_nil_iff.mp heq).1
      exact absurd (hnil ▸ hv) h.nonempty
    | cons w ws =>
      obtain ⟨hw,hrest⟩ := List.forall_mem_cons.mp hws
      obtain ⟨rfl,hflat⟩ := h.head_eq hv hw heq
      rw [ih ws hvs hrest hflat]

theorem map_injective_on {code : α → List β} {P : α → Prop} (hcode : ∀ a b, P a → P b → code a = code b → a = b)
    {xs ys : List α} (hxs : ∀ a ∈ xs, P a) (hys : ∀ a ∈ ys, P a) (h : xs.map code = ys.map code) : xs = ys := by
  induction xs generalizing ys with
  | nil => exact (List.map_eq_nil_iff.mp h.symm).symm
  | cons x xs ih =>
    cases ys with
    | nil => cases h
    | cons y ys =>
      obtain ⟨hx,hxs⟩ := List.forall_mem_cons.mp hxs
      obtain ⟨hy,hys⟩ := List.forall_mem_cons.mp hys
      obtain ⟨hxy,hrest⟩ := List.cons.inj h
      rw [hcode x y hx hy hxy,ih hxs hys hrest]

theorem PrefixFree.decodes {code : α → List β} {P : α → Prop} (h : PrefixFree (code '' {a | P a}))
    (hcode : ∀ a b, P a → P b → code a = code b → a = b) {xs ys : List α} (hxs : ∀ a ∈ xs, P a)
    (hys : ∀ a ∈ ys, P a) (heq : (xs.map code).flatten = (ys.map code).flatten) : xs = ys := by
  have hwords {zs : List α} (hzs : ∀ a ∈ zs, P a) : ∀ w ∈ zs.map code, w ∈ code '' {a | P a} := by
    intro w hw
    obtain ⟨a,ha,rfl⟩ := List.mem_map.mp hw
    exact ⟨a,hzs a ha,rfl⟩
  exact map_injective_on hcode hxs hys (h.uniquelyDecodable _ _ (hwords hxs) (hwords hys) heq)

theorem marked_words_apart {mark : β} {v w : List β} (hv : mark ∉ v) (hw : mark ∉ w)
    (h : v ++ [mark] <+: w ++ [mark]) : v = w := by
  induction v generalizing w with
  | nil =>
    cases w with
    | nil => rfl
    | cons y w =>
      obtain ⟨rfl,-⟩ := List.cons_prefix_cons.mp h
      exact absurd List.mem_cons_self hw
  | cons x v ih =>
    obtain ⟨hx,hv⟩ := not_or.mp (List.mem_cons.not.mp hv)
    cases w with
    | nil =>
      obtain ⟨rfl,-⟩ := List.cons_prefix_cons.mp h
      exact absurd rfl hx
    | cons y w =>
      obtain ⟨rfl,hrest⟩ := List.cons_prefix_cons.mp h
      rw [ih hv (fun hmem => hw (List.mem_cons_of_mem _ hmem)) hrest]

end OperatingSystemLabs.PrefixCode

import Mathlib.Data.List.Chain
import Mathlib.Data.List.Nodup
import Mathlib.Data.Option.Basic
import Mathlib.Logic.Function.Basic

namespace OperatingSystemLabs.Wiring

open Function

variable {α : Type}

structure Wires (α : Type) where
  next : α → α
  prev : α → α

namespace Wires

def join [DecidableEq α] (w : Wires α) (p q : α) : Wires α := ⟨update w.next p q,update w.prev q p⟩

def Runs (w : Wires α) (path : List α) : Prop := List.IsChain (fun p q => w.next p = q ∧ w.prev q = p) path

def Ring (w : Wires α) (h : α) (xs : List α) : Prop := (h :: xs).Nodup ∧ w.Runs (h :: (xs ++ [h]))

def Same (w w' : Wires α) (p : α) : Prop := w'.next p = w.next p ∧ w'.prev p = w.prev p

end Wires

open Wires

variable {w w' : Wires α} {a b l r xs ys : List α} {h g p q e new : α}

theorem runs_congr {path : List α} (hn : ∀ p ∈ path.dropLast, w'.next p = w.next p)
    (hp : ∀ p ∈ path.tail, w'.prev p = w.prev p) (hw : w.Runs path) : w'.Runs path := by
  induction path with
  | nil => exact .nil
  | cons p path ih =>
    cases path with
    | nil => exact .singleton p
    | cons q path =>
      obtain ⟨hpq,hrest⟩ := List.isChain_cons_cons.mp hw
      refine List.isChain_cons_cons.mpr ⟨⟨(hn p (by simp)).trans hpq.1,(hp q (by simp)).trans hpq.2⟩,?_⟩
      exact ih (fun x hx => hn x (by simp [hx])) (fun x hx => hp x (List.mem_of_mem_tail hx)) hrest

theorem runs_split : w.Runs (a ++ p :: q :: b) ↔
    w.Runs (a ++ [p]) ∧ (w.next p = q ∧ w.prev q = p) ∧ w.Runs (q :: b) := List.isChain_append_cons_cons

theorem Wires.Ring.congr (hsame : ∀ p ∈ h :: xs, w.Same w' p) (hr : w.Ring h xs) : w'.Ring h xs := by
  refine ⟨hr.1,runs_congr (fun p hp => (hsame p ?_).1) (fun p hp => (hsame p ?_).2) hr.2⟩
  · rwa [← List.cons_append,List.dropLast_concat] at hp
  · simpa [or_comm] using hp

-- `p` and `q` are the neighbours of the gap between `l` and `r` in a circle with head `h`.
def Gap (h : α) (l r : List α) (p q : α) : Prop := (∃ a, h :: l = a ++ [p]) ∧ ∃ b, r ++ [h] = q :: b

theorem Wires.Ring.gap_first (hr : w.Ring h xs) : Gap h [] xs h (w.next h) := by
  obtain ⟨q,b,hb⟩ := List.exists_cons_of_ne_nil (show xs ++ [h] ≠ [] by simp)
  have hrun := hr.2
  rw [hb] at hrun
  obtain rfl := (List.isChain_cons_cons.mp hrun).1.1
  exact ⟨⟨[],rfl⟩,b,hb⟩

theorem Wires.Ring.gap_last (hr : w.Ring h xs) : Gap h xs [] (w.prev h) h := by
  obtain ⟨a,p,ha⟩ := (List.eq_nil_or_concat (h :: xs)).resolve_left (by simp)
  rw [List.concat_eq_append] at ha
  have hrun := hr.2
  rw [← List.cons_append,ha,List.append_assoc] at hrun
  obtain rfl := (runs_split.mp hrun).2.1.2
  exact ⟨⟨a,ha⟩,[],rfl⟩

theorem Wires.Ring.gap_around (hr : w.Ring h (l ++ e :: r)) : Gap h l r (w.prev e) (w.next e) := by
  obtain ⟨a,p,ha⟩ := (List.eq_nil_or_concat (h :: l)).resolve_left (by simp)
  obtain ⟨q,b,hb⟩ := List.exists_cons_of_ne_nil (show r ++ [h] ≠ [] by simp)
  rw [List.concat_eq_append] at ha
  have hrun := hr.2
  rw [List.append_assoc,List.cons_append,hb,← List.cons_append,ha,List.append_assoc] at hrun
  obtain ⟨-,⟨-,rfl⟩,hrest⟩ := runs_split.mp hrun
  obtain rfl := (List.isChain_cons_cons.mp hrest).1.1
  exact ⟨⟨a,ha⟩,b,hb⟩

theorem Wires.Ring.next_head (hr : w.Ring h xs) : w.next h = xs.headD h := by
  obtain ⟨-,b,hb⟩ := hr.gap_first
  cases xs with
  | nil => exact (List.cons.inj hb).1.symm
  | cons x xs => exact (List.cons.inj hb).1.symm

theorem Wires.Ring.next_entry (hr : w.Ring h (l ++ e :: r)) : w.next e = r.headD h := by
  obtain ⟨-,b,hb⟩ := hr.gap_around
  cases r with
  | nil => exact (List.cons.inj hb).1.symm
  | cons x r => exact (List.cons.inj hb).1.symm

def Wires.flip (w : Wires α) : Wires α := ⟨w.prev,w.next⟩

theorem runs_flip {path : List α} (hw : w.Runs path) : w.flip.Runs path.reverse := by
  rw [Wires.Runs,List.isChain_reverse]
  exact hw.imp fun _ _ hpq => ⟨hpq.2,hpq.1⟩

theorem Wires.Ring.flip (hr : w.Ring h xs) : w.flip.Ring h xs.reverse := by
  refine ⟨List.nodup_cons.mpr ⟨?_,List.nodup_reverse.mpr (List.nodup_cons.mp hr.1).2⟩,?_⟩
  · rw [List.mem_reverse]
    exact (List.nodup_cons.mp hr.1).1
  · have hpath := runs_flip hr.2
    rwa [List.reverse_cons,List.reverse_append,List.reverse_singleton,List.singleton_append] at hpath

theorem gap_apart (hnodup : (h :: (l ++ r)).Nodup) (ha : h :: l = a ++ [p]) (hb : r ++ [h] = q :: b) :
    (p ∉ a ∧ p ∉ r) ∧ q ∉ l ∧ q ∉ b := by
  obtain ⟨hh,hlr⟩ := List.nodup_cons.mp hnodup
  have hparts := List.nodup_append'.mp hlr
  have hright : (q :: b).Nodup := hb ▸ (List.perm_append_singleton h r).nodup_iff.mpr
    (List.nodup_cons.mpr ⟨fun hm => hh (List.mem_append_right l hm),hparts.2.1⟩)
  have hleft : (a ++ ([p] ++ r)).Nodup := by
    rw [← List.append_assoc,← ha]
    exact hnodup
  refine ⟨⟨?_,?_⟩,?_,(List.nodup_cons.mp hright).1⟩
  · exact fun hp => (List.nodup_append'.mp hleft).2.2 hp (by simp)
  · exact (List.nodup_cons.mp (List.nodup_append'.mp hleft).2.1).1
  · intro hq
    have hm : q ∈ r ++ [h] := hb ▸ List.mem_cons_self
    rcases List.mem_append.mp hm with hm | hm
    · exact hparts.2.2 hq hm
    · obtain rfl := List.mem_singleton.mp hm
      exact hh (List.mem_append_left r hq)

theorem walk_eq (ha : h :: l = a ++ [p]) (hb : r ++ [h] = q :: b) (mid : List α) :
    h :: (l ++ (mid ++ r) ++ [h]) = a ++ p :: (mid ++ q :: b) := by
  rw [← List.cons_append,← List.cons_append,ha,← hb]
  simp only [List.append_assoc,List.cons_append,List.nil_append]

theorem Wires.Ring.first (hr : w.Ring h xs) (hne : xs ≠ []) : ∃ t, xs = w.next h :: t := by
  obtain ⟨-,b,hb⟩ := hr.gap_first
  obtain ⟨x,t,rfl⟩ := List.exists_cons_of_ne_nil hne
  obtain rfl := (List.cons.inj hb).1
  exact ⟨t,rfl⟩

theorem Wires.Ring.last (hr : w.Ring h xs) (hne : xs ≠ []) : ∃ t, xs = t ++ [w.prev h] := by
  obtain ⟨⟨a,ha⟩,-⟩ := hr.gap_last
  obtain ⟨t,x,rfl⟩ := (List.eq_nil_or_concat xs).resolve_left hne
  rw [List.concat_eq_append,← List.cons_append] at ha
  obtain ⟨-,hx⟩ := List.append_inj' ha rfl
  rw [← List.cons.inj hx|>.1,List.concat_eq_append]
  exact ⟨t,rfl⟩

theorem Wires.Ring.next_eq_iff (hr : w.Ring h xs) : w.next h = h ↔ xs = [] := by
  constructor
  · intro hself
    by_contra hne
    obtain ⟨t,ht⟩ := hr.first hne
    have hm : w.next h ∈ xs := by
      rw [ht]
      exact List.mem_cons_self
    exact (List.nodup_cons.mp hr.1).1 (hself ▸ hm)
  · rintro rfl
    exact (List.isChain_cons_cons.mp hr.2).1.1

-- The lists a program holds: head and entries.
abbrev Spelling (α : Type) := α → Option (List α)

structure Spells (w : Wires α) (σ : Spelling α) : Prop where
  ring : ∀ {h xs}, σ h = some xs → w.Ring h xs
  apart : ∀ {h xs k ys}, h ≠ k → σ h = some xs → σ k = some ys → (h :: xs).Disjoint (k :: ys)

def Unlisted (σ : Spelling α) (p : α) : Prop := ∀ h xs, σ h = some xs → p ∉ xs

variable {σ : Spelling α}

theorem gap_mem (hgap : Gap h l r p q) : p ∈ h :: (l ++ r) ∧ q ∈ h :: (l ++ r) := by
  obtain ⟨⟨a,ha⟩,b,hb⟩ := hgap
  have hp : p ∈ h :: l := ha ▸ List.mem_append_right a List.mem_cons_self
  have hq : q ∈ r ++ [h] := hb ▸ List.mem_cons_self
  simp only [List.mem_cons,List.mem_append] at hp hq ⊢
  tauto

theorem Wires.Same.trans {w'' : Wires α} {x : α} (h : w.Same w' x) (h' : w'.Same w'' x) : w.Same w'' x :=
  ⟨h'.1.trans h.1,h'.2.trans h.2⟩

theorem Spells.congr (hs : Spells w σ) (hsame : ∀ h xs, σ h = some xs → ∀ p ∈ h :: xs, w.Same w' p) :
    Spells w' σ := ⟨fun hh => (hs.ring hh).congr (hsame _ _ hh),hs.apart⟩

variable [DecidableEq α]

theorem runs_join (ha : w.Runs (a ++ [p])) (hb : w.Runs (q :: b)) (hpa : p ∉ a) (hpb : p ∉ (q :: b).dropLast)
    (hqa : q ∉ (a ++ [p]).tail) (hqb : q ∉ b) : (w.join p q).Runs (a ++ p :: q :: b) := by
  have hnext {x : α} (hx : x ≠ p) : (w.join p q).next x = w.next x := update_of_ne hx ..
  have hprev {x : α} (hx : x ≠ q) : (w.join p q).prev x = w.prev x := update_of_ne hx ..
  refine runs_split.mpr ⟨?_,⟨update_self ..,update_self ..⟩,?_⟩
  · refine runs_congr (fun x hx => hnext ?_) (fun x hx => hprev (ne_of_mem_of_not_mem hx hqa)) ha
    rw [List.dropLast_concat] at hx
    exact ne_of_mem_of_not_mem hx hpa
  · exact runs_congr (fun x hx => hnext (ne_of_mem_of_not_mem hx hpb))
      (fun x hx => hprev (ne_of_mem_of_not_mem hx hqb)) hb

theorem Wires.Ring.single (w : Wires α) (p : α) : (w.join p p).Ring p [] :=
  ⟨List.nodup_singleton p,List.isChain_cons_cons.mpr ⟨⟨update_self ..,update_self ..⟩,.singleton p⟩⟩

theorem Wires.Ring.remove (hr : w.Ring h (l ++ e :: r)) (hgap : Gap h l r p q) : (w.join p q).Ring h (l ++ r) := by
  obtain ⟨⟨a,ha⟩,b,hb⟩ := hgap
  obtain ⟨hnodup,hrun⟩ := hr
  have hless : (h :: (l ++ r)).Nodup := hnodup.sublist (((List.sublist_cons_self e r).append_left l).cons_cons h)
  obtain ⟨⟨hpa,hpr⟩,hql,hqb⟩ := gap_apart hless ha hb
  rw [show l ++ e :: r = l ++ ([e] ++ r) from rfl,walk_eq ha hb] at hrun
  obtain ⟨hfirst,-,hrest⟩ := runs_split.mp hrun
  refine ⟨hless,(walk_eq ha hb []).symm ▸ runs_join hfirst hrest.of_cons hpa ?_ ?_ hqb⟩
  · rwa [← hb,List.dropLast_concat]
  · rwa [← ha,List.tail_cons]

theorem Wires.Ring.insert (hr : w.Ring h (l ++ r)) (hgap : Gap h l r p q) (hnew : new ∉ h :: (l ++ r)) :
    ((w.join new q).join p new).Ring h (l ++ new :: r) := by
  obtain ⟨⟨a,ha⟩,b,hb⟩ := hgap
  obtain ⟨hnodup,hrun⟩ := hr
  obtain ⟨⟨hpa,hpr⟩,hql,hqb⟩ := gap_apart hnodup ha hb
  have hne : new ∉ h :: l ∧ new ∉ r ++ [h] := by
    simp only [List.mem_cons,List.mem_append,not_or] at hnew ⊢
    exact ⟨⟨hnew.1,hnew.2.1⟩,hnew.2.2,hnew.1,List.not_mem_nil⟩
  have htail : (a ++ [p]).tail = l := by rw [← ha,List.tail_cons]
  have hlast : (q :: b).dropLast = r := by rw [← hb,List.dropLast_concat]
  rw [show l ++ r = l ++ ([] ++ r) from rfl,walk_eq ha hb] at hrun
  obtain ⟨hfirst,-,hrest⟩ := runs_split.mp hrun
  have hleft : (w.join new q).Runs (a ++ [p]) := by
    refine runs_congr (fun x hx => update_of_ne ?_ ..) (fun x hx => update_of_ne ?_ ..) hfirst
    · rw [List.dropLast_concat] at hx
      refine ne_of_mem_of_not_mem (List.mem_append_left [p] hx) ?_
      rw [← ha]
      exact hne.1
    · rw [htail] at hx
      exact ne_of_mem_of_not_mem hx hql
  have hright : (w.join new q).Runs ([] ++ new :: q :: b) :=
    runs_join (.singleton new) hrest (by simp) (fun hm => hne.2 (List.mem_append_left [h] (hlast ▸ hm))) (by simp) hqb
  refine ⟨?_,(walk_eq ha hb [new]).symm ▸ runs_join hleft hright hpa ?_ ?_ ?_⟩
  · have hperm : (h :: (l ++ new :: r)).Perm (new :: h :: (l ++ r)) :=
      (List.perm_middle.cons h).trans (.swap new h (l ++ r))
    exact hperm.nodup_iff.mpr (List.nodup_cons.mpr ⟨hnew,hnodup⟩)
  · have hpn : p ∈ h :: l := ha ▸ List.mem_append_right a List.mem_cons_self
    change p ∉ (new :: q :: b).dropLast
    rw [List.dropLast_cons_of_ne_nil (by simp),hlast,List.mem_cons,not_or]
    exact ⟨ne_of_mem_of_not_mem hpn hne.1,hpr⟩
  · rw [htail]
    exact fun hm => hne.1 (List.mem_cons_of_mem h hm)
  · rw [← hb]
    exact hne.2

theorem Wires.Ring.splice (hr : w.Ring h xs) (hs : w.Ring g ys) (hapart : (h :: xs).Disjoint (g :: ys))
    (hne : ys ≠ []) : ((w.join h (w.next g)).join (w.prev g) (w.next h)).Ring h (ys ++ xs) := by
  obtain ⟨t,ht⟩ := hs.first hne
  obtain ⟨a,ha⟩ := hs.last hne
  obtain ⟨-,b,hb⟩ := hr.gap_first
  obtain ⟨hhx,hxs⟩ := List.nodup_cons.mp hr.1
  obtain ⟨-,hys⟩ := List.nodup_cons.mp hs.1
  have hfar {x : α} (hx : x ∈ ys) : x ∉ xs ++ [h] := by
    rw [(List.perm_append_singleton h xs).mem_iff]
    exact fun hm => hapart hm (List.mem_cons_of_mem g hx)
  have hhy : h ∉ ys := fun hm => hfar hm (by simp)
  have hnodup : (xs ++ [h]).Nodup := (List.perm_append_singleton h xs).nodup_iff.mpr hr.1
  have hinner : w.Runs ys := hs.2.of_cons.left_of_append
  have hleft : (w.join h (w.next g)).Runs (h :: ys) := by
    rw [ht] at hinner hhy hys ⊢
    refine runs_join (a := []) (.singleton h) hinner (by simp) (fun hm => hhy (List.dropLast_subset _ hm)) (by simp) ?_
    exact (List.nodup_cons.mp hys).1
  have hright : (w.join h (w.next g)).Runs (xs ++ [h]) := by
    refine runs_congr (fun x hx => update_of_ne ?_ ..) (fun x hx => update_of_ne ?_ ..) hr.2.of_cons
    · rw [List.dropLast_concat] at hx
      exact ne_of_mem_of_not_mem hx hhx
    · have hg : w.next g ∈ ys := ht ▸ List.mem_cons_self
      exact ne_of_mem_of_not_mem (List.mem_of_mem_tail hx) (hfar hg)
  have hq : w.prev g ∈ ys := ha ▸ List.mem_append_right a List.mem_cons_self
  refine ⟨List.nodup_cons.mpr ⟨?_,List.nodup_append'.mpr ⟨hys,hxs,?_⟩⟩,?_⟩
  · exact fun hm => (List.mem_append.mp hm).elim hhy hhx
  · exact fun x hx hx' => hfar hx (List.mem_append_left [h] hx')
  · have hne' : w.prev g ∉ h :: a := by
      rw [ha] at hys
      refine List.not_mem_cons_of_ne_of_not_mem (ne_of_mem_of_not_mem hq hhy) ?_
      exact fun hm => (List.nodup_append'.mp hys).2.2 hm List.mem_cons_self
    have hpath : h :: (ys ++ xs ++ [h]) = (h :: a) ++ w.prev g :: w.next h :: b := by
      rw [List.append_assoc,hb,ha]
      simp only [List.append_assoc,List.cons_append,List.nil_append]
    rw [hpath]
    refine runs_join ?_ (hb ▸ hright) hne' ?_ ?_ (List.nodup_cons.mp (hb ▸ hnodup)).1
    · rwa [List.cons_append,← ha]
    · rw [← hb,List.dropLast_concat]
      exact fun hm => hfar hq (List.mem_append_left [h] hm)
    · rw [List.cons_append,List.tail_cons,← ha]
      exact fun hm => hfar hm (hb ▸ List.mem_cons_self)

theorem forgotten {zs : List α} : update σ g none h = some zs ↔ h ≠ g ∧ σ h = some zs := by
  by_cases hg : h = g
  · subst hg
    simp
  · rw [update_of_ne hg,and_iff_right hg]

theorem join_same {x : α} (hp : x ≠ p) (hq : x ≠ q) : w.Same (w.join p q) x := ⟨update_of_ne hp ..,update_of_ne hq ..⟩

theorem Spells.forget (hs : Spells w σ) (g : α) : Spells w (update σ g none) where
  ring hh := hs.ring (forgotten.mp hh).2
  apart hne hh hk := hs.apart hne (forgotten.mp hh).2 (forgotten.mp hk).2

theorem Spells.put (hs : Spells w σ) (hring : w'.Ring h xs)
    (hother : ∀ k ys, k ≠ h → σ k = some ys → (h :: xs).Disjoint (k :: ys) ∧ ∀ p ∈ k :: ys, w.Same w' p) :
    Spells w' (update σ h (some xs)) where
  ring {k ys} hk := by
    by_cases hkh : k = h
    · subst hkh
      rw [update_self] at hk
      cases hk
      exact hring
    · rw [update_of_ne hkh] at hk
      exact (hs.ring hk).congr (hother k ys hkh hk).2
  apart {k ys m zs} hne hk hm := by
    by_cases hkh : k = h
    · subst hkh
      rw [update_self] at hk
      rw [update_of_ne hne.symm] at hm
      cases hk
      exact (hother m zs hne.symm hm).1
    · rw [update_of_ne hkh] at hk
      by_cases hmh : m = h
      · subst hmh
        rw [update_self] at hm
        cases hm
        exact fun x hx hx' => (hother k ys hkh hk).1 hx' hx
      · rw [update_of_ne hmh] at hm
        exact hs.apart hne hk hm

theorem Spells.single (hs : Spells w σ) (hp : Unlisted σ p) : Spells (w.join p p) (update σ p (some [])) := by
  refine hs.put (.single w p) fun k ys hk hys => ?_
  have hpk : p ∉ k :: ys := List.not_mem_cons_of_ne_of_not_mem hk.symm (hp k ys hys)
  refine ⟨List.singleton_disjoint.mpr hpk,fun x hx => ?_⟩
  have hne := ne_of_mem_of_not_mem hx hpk
  exact join_same hne hne

theorem Spells.insert (hs : Spells w σ) (hh : σ h = some (l ++ r)) (hgap : Gap h l r p q) (hnew : Unlisted σ new)
    (hne : new ≠ h) :
    Spells ((w.join new q).join p new) (update (update σ new none) h (some (l ++ new :: r))) := by
  have hfresh : new ∉ h :: (l ++ r) := List.not_mem_cons_of_ne_of_not_mem hne (hnew h _ hh)
  refine (hs.forget new).put ((hs.ring hh).insert hgap hfresh) fun k ys hk hys => ?_
  obtain ⟨hkn,hys⟩ := forgotten.mp hys
  have hapart := hs.apart hk.symm hh hys
  have hnk : new ∉ k :: ys := List.not_mem_cons_of_ne_of_not_mem hkn.symm (hnew k ys hys)
  have hmem := gap_mem hgap
  constructor
  · intro x hx
    have hx' : x = new ∨ x ∈ h :: (l ++ r) := by
      simp only [List.mem_cons,List.mem_append] at hx ⊢
      tauto
    rcases hx' with rfl | hx'
    · exact hnk
    · exact fun hm => hapart hx' hm
  · intro x hx
    have hxn := ne_of_mem_of_not_mem hx hnk
    have hxh : x ∉ h :: (l ++ r) := fun hm => hapart hm hx
    exact (join_same hxn (ne_of_mem_of_not_mem hmem.2 hxh).symm).trans
      (join_same (ne_of_mem_of_not_mem hmem.1 hxh).symm hxn)

theorem Spells.remove (hs : Spells w σ) (hh : σ h = some (l ++ e :: r)) (hgap : Gap h l r p q) :
    Spells (w.join p q) (update σ h (some (l ++ r))) := by
  have hsub : h :: (l ++ r) ⊆ h :: (l ++ e :: r) := by
    intro x hx
    simp only [List.mem_cons,List.mem_append] at hx ⊢
    tauto
  have hmem := gap_mem hgap
  refine hs.put ((hs.ring hh).remove hgap) fun k ys hk hys => ?_
  have hapart : (h :: (l ++ r)).Disjoint (k :: ys) := fun x hx hx' => hs.apart hk.symm hh hys (hsub hx) hx'
  exact ⟨hapart,fun x hx => join_same (fun h' => hapart hmem.1 (h' ▸ hx)) fun h' => hapart hmem.2 (h' ▸ hx)⟩

theorem Spells.splice (hs : Spells w σ) (hh : σ h = some xs) (hg : σ g = some ys) (hne : h ≠ g) (hys : ys ≠ []) :
    Spells ((w.join h (w.next g)).join (w.prev g) (w.next h)) (update (update σ g none) h (some (ys ++ xs))) := by
  have hfirst := (gap_mem (hs.ring hg).gap_first).2
  have hlast := (gap_mem (hs.ring hg).gap_last).1
  have hat := (gap_mem (hs.ring hh).gap_first).2
  rw [List.append_nil] at hlast
  rw [List.nil_append] at hfirst hat
  refine (hs.forget g).put ((hs.ring hh).splice (hs.ring hg) (hs.apart hne hh hg) hys) fun k zs hk hzs => ?_
  obtain ⟨hkg,hzs⟩ := forgotten.mp hzs
  have hkh {x : α} (hx : x ∈ k :: zs) : x ∉ h :: xs := fun hm => hs.apart hk.symm hh hzs hm hx
  have hkg {x : α} (hx : x ∈ k :: zs) : x ∉ g :: ys := fun hm => hs.apart hkg.symm hg hzs hm hx
  constructor
  · intro x hx hx'
    rcases List.mem_cons.mp hx with rfl | hx
    · exact hkh hx' List.mem_cons_self
    · rcases List.mem_append.mp hx with hx | hx
      · exact hkg hx' (List.mem_cons_of_mem g hx)
      · exact hkh hx' (List.mem_cons_of_mem h hx)
  · intro x hx
    have hxh := ne_of_mem_of_not_mem (List.mem_cons_self (a := h)) (hkh hx)
    exact (join_same hxh.symm (ne_of_mem_of_not_mem hfirst (hkg hx)).symm).trans
      (join_same (ne_of_mem_of_not_mem hlast (hkg hx)).symm (ne_of_mem_of_not_mem hat (hkh hx)).symm)

theorem Spells.pushFront (hs : Spells w σ) (hh : σ h = some xs) (hnew : Unlisted σ new) (hne : new ≠ h) :
    Spells ((w.join new (w.next h)).join h new) (update (update σ new none) h (some (new :: xs))) :=
  hs.insert (l := []) hh (hs.ring hh).gap_first hnew hne

theorem Spells.pushBack (hs : Spells w σ) (hh : σ h = some xs) (hnew : Unlisted σ new) (hne : new ≠ h) :
    Spells ((w.join new h).join (w.prev h) new) (update (update σ new none) h (some (xs ++ [new]))) :=
  hs.insert (r := []) (hh.trans (by rw [List.append_nil])) (hs.ring hh).gap_last hnew hne

theorem Spells.take (hs : Spells w σ) (hh : σ h = some (l ++ e :: r)) :
    Spells (w.join (w.prev e) (w.next e)) (update σ h (some (l ++ r))) := hs.remove hh (hs.ring hh).gap_around

theorem Spells.taken (hs : Spells w σ) (hh : σ h = some (l ++ e :: r)) :
    Unlisted (update σ h (some (l ++ r))) e ∧ update σ h (some (l ++ r)) e = none := by
  have he : e ∈ h :: (l ++ e :: r) := by simp
  have hfresh : e ∉ h :: (l ++ r) := by
    have hperm : (h :: (l ++ e :: r)).Perm (e :: h :: (l ++ r)) :=
      (List.perm_middle.cons h).trans (.swap e h (l ++ r))
    exact (List.nodup_cons.mp (hperm.nodup_iff.mp (hs.ring hh).1)).1
  obtain ⟨heh,hlr⟩ := not_or.mp (mt List.mem_cons.mpr hfresh)
  constructor
  · intro k ys hk hm
    by_cases hkh : k = h
    · subst hkh
      rw [update_self] at hk
      cases hk
      exact hlr hm
    · rw [update_of_ne hkh] at hk
      exact hs.apart (Ne.symm hkh) hh hk he (List.mem_cons_of_mem k hm)
  · rw [update_of_ne heh,Option.eq_none_iff_forall_ne_some]
    exact fun ys hys => hs.apart (Ne.symm heh) hh hys he List.mem_cons_self

theorem Spells.moved {k : α} (hs : Spells w σ) (hh : σ h = some (l ++ e :: r))
    (hk : update σ h (some (l ++ r)) k = some xs) :
    e ≠ k ∧ update (update σ h (some (l ++ r))) e none = update σ h (some (l ++ r)) := by
  have hnone := (hs.taken hh).2
  refine ⟨?_,(congrArg (update _ e) hnone.symm).trans (update_eq_self ..)⟩
  rintro rfl
  rw [hnone] at hk
  cases hk

theorem Spells.unlisted_head (hs : Spells w σ) (hh : σ h = some xs) : Unlisted σ h := by
  intro k ys hk hm
  by_cases hkh : h = k
  · subst hkh
    exact (List.nodup_cons.mp (hs.ring hk).1).1 hm
  · exact hs.apart hkh hh hk List.mem_cons_self (List.mem_cons_of_mem k hm)

theorem Unlisted.forget (hun : Unlisted σ p) (g : α) : Unlisted (update σ g none) p := fun k ys hk =>
  hun k ys (forgotten.mp hk).2

theorem Unlisted.put (hun : Unlisted σ p) (hp : p ∉ xs) : Unlisted (update σ h (some xs)) p := by
  intro k ys hk
  by_cases hkh : k = h
  · subst hkh
    rw [update_self] at hk
    cases hk
    exact hp
  · rw [update_of_ne hkh] at hk
    exact hun k ys hk

theorem Spells.scribble (hs : Spells w σ) (hun : Unlisted σ p) (hnone : σ p = none) (x y : α) :
    Spells ⟨update w.next p x,update w.prev p y⟩ σ := by
  refine hs.congr fun k ys hk z hz => ?_
  have hzp : z ≠ p := by
    rintro rfl
    rcases List.mem_cons.mp hz with rfl | hz
    · rw [hnone] at hk
      cases hk
    · exact hun k ys hk hz
  exact ⟨update_of_ne hzp ..,update_of_ne hzp ..⟩

end OperatingSystemLabs.Wiring

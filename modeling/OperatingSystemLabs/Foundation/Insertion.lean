import Mathlib.Order.Basic
import Mathlib.Algebra.Order.Ring.Int
import Mathlib.Data.List.Basic

namespace OperatingSystemLabs.Insertion

variable {α β : Type}

-- The head is passed on a failed "smaller" test, every later node on a "greater" test.
def Placed (cmp : α → α → Int) (x : α) : List α → List α → Prop
  | [], r => ∀ y ∈ r.head?, cmp x y < 0
  | h :: t, r => ¬ cmp x h < 0 ∧ (∀ y ∈ t, 0 < cmp x y) ∧ ∀ y ∈ r.head?, ¬ 0 < cmp x y

def Reads [LinearOrder β] (cmp : α → α → Int) (key : α → β) (x y : α) : Prop :=
  (cmp x y < 0 → key x ≤ key y) ∧ (0 < cmp x y → key y ≤ key x) ∧ (cmp x y = 0 → key x = key y)

def Sorted [LinearOrder β] (key : α → β) (xs : List α) : Prop :=
  xs.Pairwise (fun a b => key a ≤ key b)

theorem placed_map (cmp : α → α → Int) {γ : Type} (f : γ → α) (x : γ) (l r : List γ) :
    Placed cmp (f x) (l.map f) (r.map f) ↔ Placed (fun a b => cmp (f a) (f b)) x l r := by
  cases l <;> cases r <;> simp [Placed]

theorem not_placed_past {cmp : α → α → Int} {x y : α} {l r r' : List α} (h : Placed cmp x l (y :: r)) :
    ¬ Placed cmp x (l ++ y :: r') [] := by
  intro hpast
  cases l with
  | nil => exact hpast.1 (h y rfl)
  | cons k l => exact h.2.2 y rfl (hpast.2.1 y (List.mem_append_right l List.mem_cons_self))

theorem placed_past {cmp : α → α → Int} {x : α} {l k r : List α} (hne : l ≠ [])
    (h : Placed cmp x (l ++ k) r) : Placed cmp x l [] := by
  cases l with
  | nil => exact absurd rfl hne
  | cons y l => exact ⟨h.1,fun z hz => h.2.1 z (List.mem_append_left k hz),nofun⟩

def place (cmp : α → α → Int) (x : α) : List α → Nat
  | [] => 0
  | h :: t => if cmp x h < 0 then 0 else (t.takeWhile (0 < cmp x ·)).length + 1

theorem place_of_placed {cmp : α → α → Int} {x : α} {l r : List α} (h : Placed cmp x l r) :
    place cmp x (l ++ r) = l.length := by
  cases l with
  | nil =>
    cases r with
    | nil => rfl
    | cons y ys => exact if_pos (h y rfl)
  | cons y l =>
    have hleft : ∀ z ∈ l, decide (0 < cmp x z) = true := fun z hz => decide_eq_true (h.2.1 z hz)
    have hstop : r.takeWhile (0 < cmp x ·) = [] := by
      cases r with
      | nil => rfl
      | cons z zs => exact List.takeWhile_cons_of_neg (by simpa using h.2.2 z rfl)
    rw [List.cons_append,place,if_neg h.1,List.takeWhile_append_of_pos hleft,hstop,List.append_nil]
    rfl

structure TotalPreorder (cmp : α → α → Int) : Prop where
  flip : ∀ a b, 0 < cmp a b ↔ cmp b a < 0
  trans : ∀ a b c, cmp a b ≤ 0 → cmp b c ≤ 0 → cmp a c ≤ 0

def Ordered (cmp : α → α → Int) (xs : List α) : Prop := xs.Pairwise (fun a b => cmp a b ≤ 0)

namespace TotalPreorder

variable {cmp : α → α → Int} {x : α} {l r : List α}

theorem le_flip (h : TotalPreorder cmp) {a b : α} (hn : ¬ cmp a b < 0) : cmp b a ≤ 0 := by
  have := h.flip b a
  omega

theorem refl (h : TotalPreorder cmp) (a : α) : cmp a a ≤ 0 := by
  have := h.flip a a
  omega

theorem head_le (h : TotalPreorder cmp) (hs : Ordered cmp r) (hh : ∀ y ∈ r.head?, cmp x y ≤ 0) :
    ∀ y ∈ r, cmp x y ≤ 0 := by
  cases r with
  | nil => nofun
  | cons y ys =>
    intro z hz
    have hxy : cmp x y ≤ 0 := hh y rfl
    rcases List.mem_cons.mp hz with rfl | hz
    · exact hxy
    · exact h.trans x y z hxy ((List.pairwise_cons.mp hs).1 z hz)

theorem placed_left (h : TotalPreorder cmp) (hp : Placed cmp x l r) : ∀ y ∈ l, cmp y x ≤ 0 := by
  cases l with
  | nil => nofun
  | cons y ys =>
    intro z hz
    rcases List.mem_cons.mp hz with rfl | hz
    · exact h.le_flip hp.1
    · exact ((h.flip x z).mp (hp.2.1 z hz)).le

theorem placed_right (h : TotalPreorder cmp) (hp : Placed cmp x l r) (hs : Ordered cmp r) :
    ∀ y ∈ r, cmp x y ≤ 0 := by
  refine h.head_le hs (fun y hy => ?_)
  cases l with
  | nil => exact (hp y hy).le
  | cons => exact Int.not_lt.mp (hp.2.2 y hy)

theorem placed_ordered (h : TotalPreorder cmp) (hp : Placed cmp x l r) (hs : Ordered cmp (l ++ r)) :
    Ordered cmp (l ++ x :: r) := by
  obtain ⟨hl,hr,hlr⟩ := List.pairwise_append.mp hs
  have hright := h.placed_right hp hr
  refine List.pairwise_append.mpr ⟨hl,List.pairwise_cons.mpr ⟨hright,hr⟩,fun a ha b hb => ?_⟩
  rcases List.mem_cons.mp hb with rfl | hb
  · exact h.placed_left hp a ha
  · exact hlr a ha b hb

end TotalPreorder

section Keys

variable [LinearOrder β] {cmp : α → α → Int} {key : α → β} {x y : α}

theorem Reads.le_of_not_neg (h : Reads cmp key x y) (hn : ¬ cmp x y < 0) : key y ≤ key x := by
  rcases (Int.not_lt.mp hn).lt_or_eq with hp | hz
  · exact h.2.1 hp
  · exact (h.2.2 hz.symm).ge

theorem Reads.le_of_not_pos (h : Reads cmp key x y) (hn : ¬ 0 < cmp x y) : key x ≤ key y := by
  rcases (Int.not_lt.mp hn).lt_or_eq with hp | hz
  · exact h.1 hp
  · exact (h.2.2 hz).le

theorem Reads.of_sign (hn : cmp x y < 0 ↔ key x < key y) (hp : 0 < cmp x y ↔ key y < key x) :
    Reads cmp key x y := by
  refine ⟨fun h => (hn.mp h).le,fun h => (hp.mp h).le,fun h => ?_⟩
  have h1 : ¬ key x < key y := fun hk => by
    have := hn.mpr hk
    omega
  have h2 : ¬ key y < key x := fun hk => by
    have := hp.mpr hk
    omega
  exact le_antisymm (not_lt.mp h2) (not_lt.mp h1)

def Ranks (cmp : α → α → Int) (key : α → β) (x y : α) : Prop :=
  (cmp x y < 0 ↔ key x < key y) ∧ (cmp x y = 0 ↔ key x = key y) ∧ (0 < cmp x y ↔ key y < key x)

theorem TotalPreorder.of_ranks (h : ∀ x y, Ranks cmp key x y) : TotalPreorder cmp where
  flip x y := (h x y).2.2.trans (h y x).1.symm
  trans x y z hxy hyz := by
    have hle (x y : α) : cmp x y ≤ 0 ↔ key x ≤ key y := by rw [← not_lt,(h x y).2.2,not_lt]
    rw [hle] at hxy hyz ⊢
    exact hxy.trans hyz

theorem head_le_of_sorted {r : List α} (hs : Sorted key r)
    (hh : ∀ y ∈ r.head?, key x ≤ key y) : ∀ y ∈ r, key x ≤ key y := by
  cases r with
  | nil => simp
  | cons h t =>
    intro y hy
    have hx : key x ≤ key h := hh h (by simp)
    rcases List.mem_cons.mp hy with rfl | hy
    · exact hx
    · exact hx.trans ((List.pairwise_cons.mp hs).1 y hy)

theorem placed_left_le {l r : List α} (hp : Placed cmp x l r)
    (hr : ∀ y ∈ l, Reads cmp key x y) : ∀ y ∈ l, key y ≤ key x := by
  cases l with
  | nil => simp
  | cons h t =>
    intro y hy
    have hread := hr y hy
    rcases List.mem_cons.mp hy with rfl | hy
    · exact hread.le_of_not_neg hp.1
    · exact hread.2.1 (hp.2.1 y hy)

theorem placed_right_le {l r : List α} (hp : Placed cmp x l r) (hs : Sorted key r)
    (hr : ∀ y ∈ r, Reads cmp key x y) : ∀ y ∈ r, key x ≤ key y := by
  apply head_le_of_sorted hs
  intro y hy
  have hread := hr y (List.mem_of_mem_head? hy)
  cases l with
  | nil => exact hread.1 (hp y hy)
  | cons h t => exact hread.le_of_not_pos (hp.2.2 y hy)

theorem placed_sorted {l r : List α} (hp : Placed cmp x l r) (hs : Sorted key (l ++ r))
    (hr : ∀ y ∈ l ++ r, Reads cmp key x y) : Sorted key (l ++ x :: r) := by
  obtain ⟨hl,hrs,hlr⟩ := List.pairwise_append.mp hs
  have left := placed_left_le hp (fun y hy => hr y (List.mem_append_left _ hy))
  have right := placed_right_le hp hrs (fun y hy => hr y (List.mem_append_right _ hy))
  refine List.pairwise_append.mpr ⟨hl,List.pairwise_cons.mpr ⟨right,hrs⟩,?_⟩
  intro a ha b hb
  rcases List.mem_cons.mp hb with rfl | hb
  · exact left a ha
  · exact hlr a ha b hb

theorem sorted_of_map {xs ys : List α} (h : xs.map key = ys.map key) (hs : Sorted key xs) :
    Sorted key ys := by
  have hm : (ys.map key).Pairwise (· ≤ ·) := h ▸ List.pairwise_map.mpr hs
  exact List.pairwise_map.mp hm

theorem Sorted.strict {xs : List α} (hs : Sorted key xs) (hd : xs.Pairwise (fun a b => key a ≠ key b)) :
    xs.Pairwise (fun a b => key a < key b) :=
  (hs.and hd).imp (fun h => lt_of_le_of_ne h.1 h.2)

theorem filter_below {l r : List α} (h : (l ++ x :: r).Pairwise (fun a b => key a < key b)) :
    (l ++ x :: r).filter (key · < key x) = l := by
  obtain ⟨-,hr,hl⟩ := List.pairwise_append.mp h
  have hleft : l.filter (key · < key x) = l :=
    List.filter_eq_self.mpr (fun y hy => decide_eq_true (hl y hy x (by simp)))
  have hright : (x :: r).filter (key · < key x) = [] := by
    refine List.filter_eq_nil_iff.mpr (fun y hy => ?_)
    rcases List.mem_cons.mp hy with rfl | hy
    · simp
    · simpa using ((List.pairwise_cons.mp hr).1 y hy).le
  rw [List.filter_append,hleft,hright,List.append_nil]

end Keys

end OperatingSystemLabs.Insertion

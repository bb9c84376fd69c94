import Mathlib.Logic.Function.Basic
import OperatingSystemLabs.Fault
import OperatingSystemLabs.Foundation.Loop

namespace OperatingSystemLabs.Pages

def minOrder : Nat := 12

def maxOrder : Nat := 20

def pageSize : Nat := 2 ^ minOrder

def nPages : Nat := 2 ^ maxOrder / pageSize

abbrev Address := Nat

abbrev Memory := Address → Address

structure Object where
  start : Nat
  bytes : Nat

def Object.Holds (o : Object) (p : Nat) : Prop := o.start ≤ p ∧ p < o.start + o.bytes

def Object.Apart (o o' : Object) : Prop := o.start + o.bytes ≤ o'.start ∨ o'.start + o'.bytes ≤ o.start

-- Where the linker puts the three globals; `mapped` are the addresses that can be accessed.
structure Layout where
  pointerSize : Nat
  freeArea : Object
  gMemory : Object
  gPages : Object
  mapped : Address → Bool
  pointerSize_pos : 0 < pointerSize
  freeArea_bytes : freeArea.bytes = (maxOrder + 1) * (2 * pointerSize)
  gMemory_bytes : gMemory.bytes = 2 ^ maxOrder
  gPages_bytes : gPages.bytes = nPages * (2 * pointerSize)
  null_unmapped : mapped 0 = false
  freeArea_mapped : ∀ p, freeArea.Holds p → mapped p = true
  gMemory_mapped : ∀ p, gMemory.Holds p → mapped p = true
  gPages_mapped : ∀ p, gPages.Holds p → mapped p = true
  area_memory : freeArea.Apart gMemory
  area_pages : freeArea.Apart gPages
  memory_pages : gMemory.Apart gPages

variable (L : Layout)

-- &free_area[i]
def Layout.freeAreaAt (i : Nat) : Address := L.freeArea.start + i * (2 * L.pointerSize)

-- &g_pages[i].list
def Layout.pageAt (i : Nat) : Address := L.gPages.start + i * (2 * L.pointerSize)

-- &ptr->next and &ptr->prev
def next (ptr : Address) : Address := ptr

def Layout.prev (ptr : Address) : Address := ptr + L.pointerSize

def Layout.load (m : Memory) (p : Address) : Except Fault Address :=
  if L.mapped p then .ok (m p) else .error .outOfBounds

def Layout.store (m : Memory) (p v : Address) : Except Fault Memory :=
  if L.mapped p then .ok (Function.update m p v) else .error .outOfBounds

def initListHead (ptr : Address) (m : Memory) : Except Fault Memory := do
  let m ← L.store m (next ptr) ptr
  L.store m (L.prev ptr) ptr

-- __list_add
def listAddBetween (new before after : Address) (m : Memory) : Except Fault Memory := do
  let m ← L.store m (L.prev after) new
  let m ← L.store m (next new) after
  let m ← L.store m (L.prev new) before
  L.store m (next before) new

def listAdd (new head : Address) (m : Memory) : Except Fault Memory := do
  let after ← L.load m (next head)
  listAddBetween L new head after m

-- __list_del
def listDelBetween (before after : Address) (m : Memory) : Except Fault Memory := do
  let m ← L.store m (L.prev after) before
  L.store m (next before) after

def listDelInit (entry : Address) (m : Memory) : Except Fault Memory := do
  let before ← L.load m (L.prev entry)
  let after ← L.load m (next entry)
  let m ← listDelBetween L before after m
  initListHead L entry m

def listEmpty (head : Address) (m : Memory) : Except Fault Bool := do
  let after ← L.load m (next head)
  return after == head

def Linked (m : Memory) (p q : Address) : Prop := m (next p) = q ∧ m (L.prev q) = p

variable {L} {m m' : Memory}

theorem slot_held {o : Object} {count i : Nat} (w : Nat) (hw : 0 < w) (hbytes : o.bytes = count * (2 * w))
    (hi : i < count) : o.Holds (o.start + i * (2 * w)) ∧ o.Holds (o.start + i * (2 * w) + w) := by
  have hle : (i + 1) * (2 * w) ≤ count * (2 * w) := Nat.mul_le_mul_right _ hi
  rw [Nat.add_one_mul] at hle
  rw [Object.Holds,Object.Holds,hbytes]
  omega

theorem slot_apart (base : Nat) {i j : Nat} (w : Nat) (hw : 0 < w) (hij : i ≠ j) :
    base + i * (2 * w) ≠ base + j * (2 * w) ∧ base + i * (2 * w) ≠ base + j * (2 * w) + w ∧
      base + i * (2 * w) + w ≠ base + j * (2 * w) + w := by
  rcases Nat.lt_or_gt_of_ne hij with hlt | hlt
  · have hle : (i + 1) * (2 * w) ≤ j * (2 * w) := Nat.mul_le_mul_right _ hlt
    rw [Nat.add_one_mul] at hle
    omega
  · have hle : (j + 1) * (2 * w) ≤ i * (2 * w) := Nat.mul_le_mul_right _ hlt
    rw [Nat.add_one_mul] at hle
    omega

theorem Object.Apart.ne {o o' : Object} (h : o.Apart o') {p q : Address} (hp : o.Holds p)
    (hq : o'.Holds q) : p ≠ q := by
  rintro rfl
  rcases h with h | h
  · exact absurd (hp.2.trans_le h) (not_lt.mpr hq.1)
  · exact absurd (hq.2.trans_le h) (not_lt.mpr hp.1)

theorem freeAreaAt_held (L : Layout) {i : Nat} (hi : i ≤ maxOrder) :
    L.freeArea.Holds (next (L.freeAreaAt i)) ∧ L.freeArea.Holds (L.prev (L.freeAreaAt i)) :=
  slot_held L.pointerSize L.pointerSize_pos L.freeArea_bytes (Nat.lt_succ_of_le hi)

theorem pageAt_held (L : Layout) {i : Nat} (hi : i < nPages) :
    L.gPages.Holds (next (L.pageAt i)) ∧ L.gPages.Holds (L.prev (L.pageAt i)) :=
  slot_held L.pointerSize L.pointerSize_pos L.gPages_bytes hi

theorem freeAreaAt_ne_null (L : Layout) {i : Nat} (hi : i ≤ maxOrder) : L.freeAreaAt i ≠ 0 := by
  intro h
  have hmapped := L.freeArea_mapped _ (freeAreaAt_held L hi).1
  rw [next,h,L.null_unmapped] at hmapped
  cases hmapped

theorem pageAt_ne_freeAreaAt (L : Layout) {i j : Nat} (hi : i < nPages) (hj : j ≤ maxOrder) :
    L.pageAt i ≠ L.freeAreaAt j := (L.area_pages.ne (freeAreaAt_held L hj).1 (pageAt_held L hi).1).symm

theorem load_ok {p v : Address} (h : L.load m p = .ok v) : v = m p := by
  rw [Layout.load] at h
  split at h <;> cases h
  rfl

theorem load_mapped {p : Address} (h : L.mapped p = true) : L.load m p = .ok (m p) := if_pos h

theorem store_mapped {p v : Address} (h : L.mapped p = true) :
    L.store m p v = .ok (Function.update m p v) := if_pos h

def Layout.Accessible (L : Layout) (p : Address) : Prop := L.mapped (next p) = true ∧ L.mapped (L.prev p) = true

theorem freeAreaAt_accessible (L : Layout) {i : Nat} (hi : i ≤ maxOrder) : L.Accessible (L.freeAreaAt i) :=
  ⟨L.freeArea_mapped _ (freeAreaAt_held L hi).1,L.freeArea_mapped _ (freeAreaAt_held L hi).2⟩

theorem pageAt_accessible (L : Layout) {i : Nat} (hi : i < nPages) : L.Accessible (L.pageAt i) :=
  ⟨L.gPages_mapped _ (pageAt_held L hi).1,L.gPages_mapped _ (pageAt_held L hi).2⟩

theorem next_ne_prev (L : Layout) (p : Address) : next p ≠ L.prev p :=
  Nat.ne_of_lt (Nat.lt_add_of_pos_right L.pointerSize_pos)

theorem initListHead_spec {p : Address} (h : L.Accessible p) :
    ∃ m', initListHead L p m = .ok m' ∧ Linked L m' p p ∧ ∀ q, q ≠ next p → q ≠ L.prev p → m' q = m q := by
  refine ⟨_,(bind_ok _ (store_mapped h.1)).trans (store_mapped h.2),⟨?_,Function.update_self ..⟩,fun q hn hp => ?_⟩
  · rw [Function.update_of_ne (next_ne_prev L p),Function.update_self]
  · rw [Function.update_of_ne hp,Function.update_of_ne hn]

def Layout.Outside (L : Layout) (q p : Address) : Prop := q ≠ next p ∧ q ≠ L.prev p

theorem Linked.frame {p q : Address} (h : Linked L m p q) (hp : m' (next p) = m (next p))
    (hq : m' (L.prev q) = m (L.prev q)) : Linked L m' p q := ⟨hp.trans h.1,hq.trans h.2⟩

theorem slot_outside (L : Layout) (base : Nat) {i j : Nat} (hij : i ≠ j) :
    L.Outside (next (base + i * (2 * L.pointerSize))) (base + j * (2 * L.pointerSize)) ∧
      L.Outside (L.prev (base + i * (2 * L.pointerSize))) (base + j * (2 * L.pointerSize)) := by
  obtain ⟨hnn,hnp,hpp⟩ := slot_apart base L.pointerSize L.pointerSize_pos hij
  obtain ⟨-,hpn,-⟩ := slot_apart base L.pointerSize L.pointerSize_pos hij.symm
  exact ⟨⟨hnn,hnp⟩,hpn.symm,hpp⟩

theorem initAll_spec (base : Nat) (indices : List Nat)
    (h : ∀ i ∈ indices, L.Accessible (base + i * (2 * L.pointerSize))) (m : Memory) :
    ∃ m', indices.foldlM (fun m i => initListHead L (base + i * (2 * L.pointerSize)) m) m = .ok m' ∧
      (∀ i ∈ indices, Linked L m' (base + i * (2 * L.pointerSize)) (base + i * (2 * L.pointerSize))) ∧
      ∀ q, (∀ i ∈ indices, L.Outside q (base + i * (2 * L.pointerSize))) → m' q = m q := by
  induction indices generalizing m with
  | nil => exact ⟨m,rfl,by simp,fun _ _ => rfl⟩
  | cons i indices ih =>
    obtain ⟨hi,hrest⟩ := List.forall_mem_cons.mp h
    obtain ⟨m₁,hinit,hlinked,hframe⟩ := initListHead_spec (m := m) hi
    obtain ⟨m₂,hall,hlinks,hframe'⟩ := ih hrest m₁
    refine ⟨m₂,(bind_ok _ hinit).trans hall,List.forall_mem_cons.mpr ⟨?_,hlinks⟩,fun q hq => ?_⟩
    · by_cases hmem : i ∈ indices
      · exact hlinks i hmem
      · have hne (j : Nat) (hj : j ∈ indices) : i ≠ j := fun hij => hmem (hij ▸ hj)
        exact hlinked.frame (hframe' _ fun j hj => (slot_outside L base (hne j hj)).1)
          (hframe' _ fun j hj => (slot_outside L base (hne j hj)).2)
    · obtain ⟨hqi,hq⟩ := List.forall_mem_cons.mp hq
      rw [hframe' q hq,hframe q hqi.1 hqi.2]

theorem listAdd_empty {head p : Address} (hhead : L.Accessible head) (hp : L.Accessible p)
    (hnext : L.Outside (next head) p) (hprev : L.Outside (L.prev head) p) (hempty : Linked L m head head) :
    ∃ m', listAdd L p head m = .ok m' ∧ Linked L m' head p ∧ Linked L m' p head ∧
      ∀ q, L.Outside q head → L.Outside q p → m' q = m q := by
  have hhn := next_ne_prev L head
  have hpn := next_ne_prev L p
  refine ⟨Function.update (Function.update (Function.update (Function.update m (L.prev head) p) (next p) head)
    (L.prev p) head) (next head) p,?_,⟨?_,?_⟩,⟨?_,?_⟩,fun q hq hq' => ?_⟩
  · rw [listAdd,bind_ok _ (load_mapped hhead.1),hempty.1,listAddBetween,bind_ok _ (store_mapped hhead.2),
      bind_ok _ (store_mapped hp.1),bind_ok _ (store_mapped hp.2)]
    exact store_mapped hhead.1
  · exact Function.update_self ..
  · rw [Function.update_of_ne hnext.2.symm,Function.update_self]
  · rw [Function.update_of_ne hnext.1.symm,Function.update_of_ne hpn,Function.update_self]
  · rw [Function.update_of_ne hhn.symm,Function.update_of_ne hprev.2,Function.update_of_ne hprev.1,
      Function.update_self]
  · rw [Function.update_of_ne hq.1,Function.update_of_ne hq'.2,Function.update_of_ne hq'.1,Function.update_of_ne hq.2]

end OperatingSystemLabs.Pages

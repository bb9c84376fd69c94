import Mathlib.Data.Set.Basic
import OperatingSystemLabs.Foundation.Wiring
import OperatingSystemLabs.Pages.Arena

namespace OperatingSystemLabs.Pages

open Function Wiring

variable (L : Layout)

def listAddTail (new head : Address) (m : Memory) : Except Fault Memory := do
  let before ← L.load m (L.prev head)
  listAddBetween L new before head m

-- (void *)0x1010
def listPoison : Address := 4112

def listDel (entry : Address) (m : Memory) : Except Fault Memory := do
  let before ← L.load m (L.prev entry)
  let after ← L.load m (next entry)
  let m ← listDelBetween L before after m
  let m ← L.store m (next entry) listPoison
  L.store m (L.prev entry) listPoison

def listMove (list head : Address) (m : Memory) : Except Fault Memory := do
  let before ← L.load m (L.prev list)
  let after ← L.load m (next list)
  let m ← listDelBetween L before after m
  listAdd L list head m

def listMoveTail (list head : Address) (m : Memory) : Except Fault Memory := do
  let before ← L.load m (L.prev list)
  let after ← L.load m (next list)
  let m ← listDelBetween L before after m
  listAddTail L list head m

-- __list_splice
def listSpliceBetween (list head : Address) (m : Memory) : Except Fault Memory := do
  let first ← L.load m (next list)
  let last ← L.load m (L.prev list)
  let spot ← L.load m (next head)
  let m ← L.store m (L.prev first) head
  let m ← L.store m (next head) first
  let m ← L.store m (next last) spot
  L.store m (L.prev spot) last

def listSplice (list head : Address) (m : Memory) : Except Fault Memory := do
  if !(← listEmpty L list m) then listSpliceBetween L list head m
  else return m

def listSpliceInit (list head : Address) (m : Memory) : Except Fault Memory := do
  if !(← listEmpty L list m) then
    let m ← listSpliceBetween L list head m
    initListHead L list m
  else return m

inductive Call where
  | init (ptr : Address)
  | add (new head : Address)
  | addTail (new head : Address)
  | del (entry : Address)
  | delInit (entry : Address)
  | move (list head : Address)
  | moveTail (list head : Address)
  | splice (list head : Address)
  | spliceInit (list head : Address)
  deriving DecidableEq, Repr

def Call.run : Call → Memory → Except Fault Memory
  | .init ptr => initListHead L ptr
  | .add new head => listAdd L new head
  | .addTail new head => listAddTail L new head
  | .del entry => listDel L entry
  | .delInit entry => listDelInit L entry
  | .move list head => listMove L list head
  | .moveTail list head => listMoveTail L list head
  | .splice list head => listSplice L list head
  | .spliceInit list head => listSpliceInit L list head

def runCalls (calls : List Call) (m : Memory) : Except Fault Memory := calls.foldlM (fun m c => c.run L m) m

variable (nodes : Set Address)

-- What each call is for: a step on the lists themselves, which says nothing about pointers.
inductive Changes : Spelling Address → Call → Spelling Address → Prop
  | init {σ : Spelling Address} {ptr : Address} : ptr ∈ nodes → Unlisted σ ptr →
      Changes σ (.init ptr) (update σ ptr (some []))
  | add {σ : Spelling Address} {new head : Address} {xs : List Address} : new ∈ nodes → Unlisted σ new → new ≠ head →
      σ head = some xs → Changes σ (.add new head) (update (update σ new none) head (some (new :: xs)))
  | addTail {σ : Spelling Address} {new head : Address} {xs : List Address} : new ∈ nodes → Unlisted σ new →
      new ≠ head → σ head = some xs →
      Changes σ (.addTail new head) (update (update σ new none) head (some (xs ++ [new])))
  | del {σ : Spelling Address} {entry h : Address} {l r : List Address} : σ h = some (l ++ entry :: r) →
      Changes σ (.del entry) (update σ h (some (l ++ r)))
  | delInit {σ : Spelling Address} {entry h : Address} {l r : List Address} : σ h = some (l ++ entry :: r) →
      Changes σ (.delInit entry) (update (update σ h (some (l ++ r))) entry (some []))
  | move {σ : Spelling Address} {list h head : Address} {l r xs : List Address} : σ h = some (l ++ list :: r) →
      update σ h (some (l ++ r)) head = some xs →
      Changes σ (.move list head) (update (update σ h (some (l ++ r))) head (some (list :: xs)))
  | moveTail {σ : Spelling Address} {list h head : Address} {l r xs : List Address} : σ h = some (l ++ list :: r) →
      update σ h (some (l ++ r)) head = some xs →
      Changes σ (.moveTail list head) (update (update σ h (some (l ++ r))) head (some (xs ++ [list])))
  | splice {σ : Spelling Address} {list head : Address} {xs ys : List Address} : list ≠ head → σ head = some xs →
      σ list = some ys → Changes σ (.splice list head)
        (if ys = [] then σ else update (update σ list none) head (some (ys ++ xs)))
  | spliceInit {σ : Spelling Address} {list head : Address} {xs ys : List Address} : list ≠ head → σ head = some xs →
      σ list = some ys → Changes σ (.spliceInit list head)
        (update (update σ list (some [])) head (some (ys ++ xs)))

inductive Plays : Spelling Address → List Call → Spelling Address → Prop
  | done (σ : Spelling Address) : Plays σ [] σ
  | call {σ σ' σ'' : Spelling Address} {c : Call} {calls : List Call} : Changes nodes σ c σ' → Plays σ' calls σ'' →
      Plays σ (c :: calls) σ''

structure Arranged : Prop where
  accessible : ∀ p ∈ nodes, L.Accessible p
  apart : ∀ p ∈ nodes, ∀ q ∈ nodes, p ≠ q → L.Outside (next p) q ∧ L.Outside (L.prev p) q

def wires (m : Memory) : Wires Address := ⟨fun p => m (next p),fun p => m (L.prev p)⟩

def Inside (σ : Spelling Address) : Prop := ∀ h xs, σ h = some xs → ∀ p ∈ h :: xs, p ∈ nodes

structure Represents (m : Memory) (σ : Spelling Address) : Prop where
  spells : Spells (wires L m) σ
  inside : Inside nodes σ

def Follows (m : Memory) (w : Wires Address) : Prop := ∀ p ∈ nodes, w.Same (wires L m) p

def Leads (m : Memory) (x : Except Fault Memory) (w : Wires Address) : Prop :=
  ∃ m', x = .ok m' ∧ Follows L nodes m' w ∧ ∀ a, (∀ p ∈ nodes, L.Outside a p) → m' a = m a

variable {L nodes} {m m' : Memory} {w w' w'' : Wires Address} {p q v new head entry list : Address}

theorem follows_self : Follows L nodes m (wires L m) := fun _ _ => ⟨rfl,rfl⟩

theorem Leads.bind {x : Except Fault Memory} {f : Memory → Except Fault Memory} (hx : Leads L nodes m x w')
    (hf : ∀ m', Follows L nodes m' w' → Leads L nodes m' (f m') w'') : Leads L nodes m (x >>= f) w'' := by
  obtain ⟨m₁,hok,hw,hframe⟩ := hx
  obtain ⟨m₂,hok',hw',hframe'⟩ := hf m₁ hw
  exact ⟨m₂,(bind_ok f hok).trans hok',hw',fun a ha => (hframe' a ha).trans (hframe a ha)⟩

theorem leads_done (hw : Follows L nodes m w) : Leads L nodes m (.ok m) w := ⟨m,rfl,hw,fun _ _ => rfl⟩

section Stores

variable (ha : Arranged L nodes) (hw : Follows L nodes m w)

include ha hw

theorem load_next (hp : p ∈ nodes) : L.load m (next p) = .ok (w.next p) := by
  rw [load_mapped (ha.accessible p hp).1]
  exact congrArg Except.ok (hw p hp).1

theorem load_prev (hp : p ∈ nodes) : L.load m (L.prev p) = .ok (w.prev p) := by
  rw [load_mapped (ha.accessible p hp).2]
  exact congrArg Except.ok (hw p hp).2

theorem store_next (hp : p ∈ nodes) (v : Address) :
    Leads L nodes m (L.store m (next p) v) ⟨update w.next p v,w.prev⟩ := by
  refine ⟨_,store_mapped (ha.accessible p hp).1,fun q hq => ?_,fun a hout => update_of_ne (hout p hp).1 ..⟩
  by_cases hqp : q = p
  · subst hqp
    refine ⟨(update_self ..).trans (update_self q v w.next).symm,?_⟩
    exact (update_of_ne (next_ne_prev L q).symm ..).trans (hw q hq).2
  · have hout := ha.apart q hq p hp hqp
    refine ⟨?_,(update_of_ne hout.2.1 ..).trans (hw q hq).2⟩
    exact ((update_of_ne hout.1.1 ..).trans (hw q hq).1).trans (update_of_ne hqp ..).symm

theorem store_prev (hp : p ∈ nodes) (v : Address) :
    Leads L nodes m (L.store m (L.prev p) v) ⟨w.next,update w.prev p v⟩ := by
  refine ⟨_,store_mapped (ha.accessible p hp).2,fun q hq => ?_,fun a hout => update_of_ne (hout p hp).2 ..⟩
  by_cases hqp : q = p
  · subst hqp
    refine ⟨?_,(update_self ..).trans (update_self q v w.prev).symm⟩
    exact (update_of_ne (next_ne_prev L q) ..).trans (hw q hq).1
  · have hout := ha.apart q hq p hp hqp
    refine ⟨(update_of_ne hout.1.2 ..).trans (hw q hq).1,?_⟩
    exact ((update_of_ne hout.2.2 ..).trans (hw q hq).2).trans (update_of_ne hqp ..).symm

theorem initListHead_leads (hp : p ∈ nodes) : Leads L nodes m (initListHead L p m) (w.join p p) :=
  (store_next ha hw hp p).bind fun _ h => store_prev ha h hp p

theorem listAddBetween_leads (hn : new ∈ nodes) (hp : p ∈ nodes) (hq : q ∈ nodes) :
    Leads L nodes m (listAddBetween L new p q m) ((w.join new q).join p new) :=
  (store_prev ha hw hq new).bind fun _ h => (store_next ha h hn q).bind fun _ h =>
    (store_prev ha h hn p).bind fun _ h => store_next ha h hp new

theorem listDelBetween_leads (hp : p ∈ nodes) (hq : q ∈ nodes) :
    Leads L nodes m (listDelBetween L p q m) (w.join p q) :=
  (store_prev ha hw hq p).bind fun _ h => store_next ha h hp q

theorem listAdd_leads (hn : new ∈ nodes) (hh : head ∈ nodes) (hfirst : w.next head ∈ nodes) :
    Leads L nodes m (listAdd L new head m) ((w.join new (w.next head)).join head new) := by
  rw [listAdd,bind_ok _ (load_next ha hw hh)]
  exact listAddBetween_leads ha hw hn hh hfirst

theorem listAddTail_leads (hn : new ∈ nodes) (hh : head ∈ nodes) (hlast : w.prev head ∈ nodes) :
    Leads L nodes m (listAddTail L new head m) ((w.join new head).join (w.prev head) new) := by
  rw [listAddTail,bind_ok _ (load_prev ha hw hh)]
  exact listAddBetween_leads ha hw hn hlast hh

theorem unlink_leads {f : Memory → Except Fault Memory} (he : entry ∈ nodes) (hp : w.prev entry ∈ nodes)
    (hq : w.next entry ∈ nodes)
    (hf : ∀ m', Follows L nodes m' (w.join (w.prev entry) (w.next entry)) → Leads L nodes m' (f m') w'') :
    Leads L nodes m (do
      let before ← L.load m (L.prev entry)
      let after ← L.load m (next entry)
      let m ← listDelBetween L before after m
      f m) w'' := by
  rw [bind_ok _ (load_prev ha hw he),bind_ok _ (load_next ha hw he)]
  exact (listDelBetween_leads ha hw hp hq).bind hf

theorem listDel_leads (he : entry ∈ nodes) (hp : w.prev entry ∈ nodes) (hq : w.next entry ∈ nodes) :
    Leads L nodes m (listDel L entry m) ⟨update (w.join (w.prev entry) (w.next entry)).next entry listPoison,
      update (w.join (w.prev entry) (w.next entry)).prev entry listPoison⟩ :=
  unlink_leads ha hw he hp hq fun _ h => (store_next ha h he _).bind fun _ h' => store_prev ha h' he _

theorem listSpliceBetween_leads (hl : list ∈ nodes) (hh : head ∈ nodes) (hfirst : w.next list ∈ nodes)
    (hlast : w.prev list ∈ nodes) (hspot : w.next head ∈ nodes) :
    Leads L nodes m (listSpliceBetween L list head m)
      ((w.join head (w.next list)).join (w.prev list) (w.next head)) := by
  rw [listSpliceBetween,bind_ok _ (load_next ha hw hl),bind_ok _ (load_prev ha hw hl),
    bind_ok _ (load_next ha hw hh)]
  exact (store_prev ha hw hfirst head).bind fun _ h => (store_next ha h hh _).bind fun _ h =>
    (store_next ha h hlast _).bind fun _ h => store_prev ha h hspot _

theorem listEmpty_eq (hh : head ∈ nodes) : listEmpty L head m = .ok (w.next head == head) := by
  rw [listEmpty,bind_ok _ (load_next ha hw hh)]
  rfl

end Stores

variable {σ σ' σ'' : Spelling Address} {h : Address} {xs : List Address} {c : Call} {calls : List Call}

theorem Inside.forget (hin : Inside nodes σ) (g : Address) : Inside nodes (update σ g none) := fun h xs hh =>
  hin h xs (forgotten.mp hh).2

theorem Inside.put (hin : Inside nodes σ) (hh : ∀ p ∈ h :: xs, p ∈ nodes) :
    Inside nodes (update σ h (some xs)) := by
  intro k ys hk
  by_cases hkh : k = h
  · subst hkh
    rw [update_self] at hk
    cases hk
    exact hh
  · rw [update_of_ne hkh] at hk
    exact hin k ys hk

theorem Leads.represents {x : Except Fault Memory} (hx : Leads L nodes m x w) (hs : Spells w σ)
    (hin : Inside nodes σ) :
    ∃ m', x = .ok m' ∧ Represents L nodes m' σ ∧ ∀ a, (∀ p ∈ nodes, L.Outside a p) → m' a = m a := by
  obtain ⟨m',hok,hw,hframe⟩ := hx
  exact ⟨m',hok,⟨hs.congr fun h xs hh p hp => hw p (hin h xs hh p hp),hin⟩,hframe⟩

theorem ends_inside (hs : Spells w σ) (hin : Inside nodes σ) (hh : σ h = some xs) :
    h ∈ nodes ∧ w.next h ∈ nodes ∧ w.prev h ∈ nodes := by
  have hring := hs.ring hh
  refine ⟨hin h xs hh h List.mem_cons_self,hin h xs hh _ (gap_mem hring.gap_first).2,hin h xs hh _ ?_⟩
  exact List.append_nil xs ▸ (gap_mem hring.gap_last).1

theorem around_inside {l r : List Address} (hs : Spells w σ) (hin : Inside nodes σ)
    (hh : σ h = some (l ++ entry :: r)) : entry ∈ nodes ∧ w.prev entry ∈ nodes ∧ w.next entry ∈ nodes := by
  have hsub {x : Address} (hx : x ∈ h :: (l ++ r)) : x ∈ nodes := by
    refine hin h _ hh x ?_
    simp only [List.mem_cons,List.mem_append] at hx ⊢
    tauto
  have hmem := gap_mem (hs.ring hh).gap_around
  exact ⟨hin h _ hh entry (by simp),hsub hmem.1,hsub hmem.2⟩

theorem Changes.inside (hc : Changes nodes σ c σ') (hin : Inside nodes σ) : Inside nodes σ' := by
  have hless {h e : Address} {l r : List Address} (hh : σ h = some (l ++ e :: r)) :
      e ∈ nodes ∧ Inside nodes (update σ h (some (l ++ r))) := by
    refine ⟨hin h _ hh e (by simp),hin.put fun p hp => hin h _ hh p ?_⟩
    simp only [List.mem_cons,List.mem_append] at hp ⊢
    tauto
  have hmore {σ : Spelling Address} {h e : Address} {xs ys : List Address} (hin : Inside nodes σ) (he : e ∈ nodes)
      (hh : σ h = some xs) (hsub : ∀ p ∈ ys, p = e ∨ p ∈ xs) (p : Address) (hp : p ∈ h :: ys) : p ∈ nodes := by
    rcases List.mem_cons.mp hp with rfl | hp
    · exact hin p xs hh p List.mem_cons_self
    · rcases hsub p hp with rfl | hp
      · exact he
      · exact hin h xs hh p (List.mem_cons_of_mem h hp)
  have hjoin {h g : Address} {xs ys : List Address} (hh : σ h = some xs) (hg : σ g = some ys) (p : Address)
      (hp : p ∈ h :: (ys ++ xs)) : p ∈ nodes := by
    have hp' : p ∈ g :: ys ∨ p ∈ h :: xs := by
      simp only [List.mem_cons,List.mem_append] at hp ⊢
      tauto
    exact hp'.elim (hin g ys hg p) (hin h xs hh p)
  cases hc with
  | init hp _ => exact hin.put (by simpa using hp)
  | add hn _ _ hh => exact (hin.forget _).put (hmore hin hn hh (by simp))
  | addTail hn _ _ hh => exact (hin.forget _).put (hmore hin hn hh (by simp [or_comm]))
  | del hh => exact (hless hh).2
  | delInit hh => exact (hless hh).2.put (by simpa using (hless hh).1)
  | move hh hh' => exact (hless hh).2.put (hmore (hless hh).2 (hless hh).1 hh' (by simp))
  | moveTail hh hh' => exact (hless hh).2.put (hmore (hless hh).2 (hless hh).1 hh' (by simp [or_comm]))
  | splice hne hh hl =>
    split
    · exact hin
    · exact (hin.forget _).put (hjoin hh hl)
  | spliceInit hne hh hl => exact (hin.put fun p hp => hin _ _ hl p (by simp_all)).put (hjoin hh hl)

theorem empty_answer (ha : Arranged L nodes) (hw : Follows L nodes m w) (hs : Spells w σ) (hin : Inside nodes σ)
    (hh : σ h = some xs) : listEmpty L h m = .ok (decide (xs = [])) := by
  rw [listEmpty_eq ha hw (hin h xs hh h List.mem_cons_self)]
  exact congrArg Except.ok ((Bool.beq_eq_decide_eq ..).trans (decide_eq_decide.mpr (hs.ring hh).next_eq_iff))

theorem Changes.reaches (ha : Arranged L nodes) (hw : Follows L nodes m w) (hs : Spells w σ) (hin : Inside nodes σ)
    (hc : Changes nodes σ c σ') : ∃ w', Leads L nodes m (c.run L m) w' ∧ Spells w' σ' := by
  cases hc with
  | init hp hun => exact ⟨_,initListHead_leads ha hw hp,hs.single hun⟩
  | add hn hun hne hh =>
    obtain ⟨hhead,hfirst,-⟩ := ends_inside hs hin hh
    exact ⟨_,listAdd_leads ha hw hn hhead hfirst,hs.pushFront hh hun hne⟩
  | addTail hn hun hne hh =>
    obtain ⟨hhead,-,hlast⟩ := ends_inside hs hin hh
    exact ⟨_,listAddTail_leads ha hw hn hhead hlast,hs.pushBack hh hun hne⟩
  | del hh =>
    obtain ⟨he,hp,hn⟩ := around_inside hs hin hh
    obtain ⟨hun,hnone⟩ := hs.taken hh
    exact ⟨_,listDel_leads ha hw he hp hn,(hs.take hh).scribble hun hnone listPoison listPoison⟩
  | delInit hh =>
    obtain ⟨he,hp,hn⟩ := around_inside hs hin hh
    exact ⟨_,unlink_leads ha hw he hp hn fun m' h' => initListHead_leads ha h' he,(hs.take hh).single (hs.taken hh).1⟩
  | @move list h head l r xs hh hh' =>
    obtain ⟨he,hp,hn⟩ := around_inside hs hin hh
    obtain ⟨hne,hsame⟩ := hs.moved hh hh'
    have hless : Inside nodes (update σ h (some (l ++ r))) := (Changes.del hh).inside hin
    obtain ⟨hhead,hfirst,-⟩ := ends_inside (hs.take hh) hless hh'
    refine ⟨_,unlink_leads ha hw he hp hn fun m' h' => listAdd_leads ha h' he hhead hfirst,?_⟩
    rw [← hsame]
    exact (hs.take hh).pushFront hh' (hs.taken hh).1 hne
  | @moveTail list h head l r xs hh hh' =>
    obtain ⟨he,hp,hn⟩ := around_inside hs hin hh
    obtain ⟨hne,hsame⟩ := hs.moved hh hh'
    have hless : Inside nodes (update σ h (some (l ++ r))) := (Changes.del hh).inside hin
    obtain ⟨hhead,-,hlast⟩ := ends_inside (hs.take hh) hless hh'
    refine ⟨_,unlink_leads ha hw he hp hn fun m' h' => listAddTail_leads ha h' he hhead hlast,?_⟩
    rw [← hsame]
    exact (hs.take hh).pushBack hh' (hs.taken hh).1 hne
  | @splice list head xs ys hne hh hl =>
    obtain ⟨hhead,hspot,-⟩ := ends_inside hs hin hh
    obtain ⟨hlist,hfirst,hlast⟩ := ends_inside hs hin hl
    simp only [Call.run,listSplice,bind_ok _ (empty_answer ha hw hs hin hl)]
    by_cases hys : ys = []
    · rw [if_pos hys,decide_eq_true hys]
      exact ⟨w,leads_done hw,hs⟩
    · rw [if_neg hys,decide_eq_false hys]
      exact ⟨_,listSpliceBetween_leads ha hw hlist hhead hfirst hlast hspot,hs.splice hh hl hne.symm hys⟩
  | @spliceInit list head xs ys hne hh hl =>
    obtain ⟨hhead,hspot,-⟩ := ends_inside hs hin hh
    obtain ⟨hlist,hfirst,hlast⟩ := ends_inside hs hin hl
    simp only [Call.run,listSpliceInit,bind_ok _ (empty_answer ha hw hs hin hl)]
    by_cases hys : ys = []
    · subst hys
      have hsame : update (update σ list (some [])) head (some ([] ++ xs)) = σ := by
        rw [List.nil_append,← hl,update_eq_self,← hh,update_eq_self]
      rw [hsame]
      exact ⟨w,leads_done hw,hs⟩
    · have hun : Unlisted (update (update σ list none) head (some (ys ++ xs))) list := by
        refine ((hs.unlisted_head hl).forget list).put fun hm => ?_
        exact (List.mem_append.mp hm).elim (hs.unlisted_head hl list ys hl) (hs.unlisted_head hl head xs hh)
      have hsame : update (update (update σ list none) head (some (ys ++ xs))) list (some []) =
          update (update σ list (some [])) head (some (ys ++ xs)) := by rw [update_comm hne.symm,update_idem]
      rw [decide_eq_false hys,← hsame]
      exact ⟨_,(listSpliceBetween_leads ha hw hlist hhead hfirst hlast hspot).bind fun m' h' =>
        initListHead_leads ha h' hlist,(hs.splice hh hl hne.symm hys).single hun⟩

theorem Call.changes (ha : Arranged L nodes) (hm : Represents L nodes m σ) (hc : Changes nodes σ c σ') :
    ∃ m', c.run L m = .ok m' ∧ Represents L nodes m' σ' ∧ ∀ a, (∀ p ∈ nodes, L.Outside a p) → m' a = m a := by
  obtain ⟨w,hx,hs⟩ := hc.reaches ha follows_self hm.spells hm.inside
  exact hx.represents hs (hc.inside hm.inside)

theorem Represents.answers (ha : Arranged L nodes) (hm : Represents L nodes m σ) (hh : σ head = some xs) :
    listEmpty L head m = .ok (decide (xs = [])) := empty_answer ha follows_self hm.spells hm.inside hh

theorem plays_represented (ha : Arranged L nodes) (hm : Represents L nodes m σ) (hp : Plays nodes σ calls σ') :
    ∃ m', runCalls L calls m = .ok m' ∧ Represents L nodes m' σ' ∧
      ∀ a, (∀ p ∈ nodes, L.Outside a p) → m' a = m a := by
  induction hp generalizing m with
  | done σ => exact ⟨m,rfl,hm,fun _ _ => rfl⟩
  | call hc _ ih =>
    obtain ⟨m₁,hrun,hm₁,hframe⟩ := Call.changes ha hm hc
    obtain ⟨m₂,hruns,hm₂,hframe'⟩ := ih hm₁
    exact ⟨m₂,(bind_ok _ hrun).trans hruns,hm₂,fun a hout => (hframe' a hout).trans (hframe a hout)⟩

-- No list is held at first, so that any memory will do.
theorem represents_none (L : Layout) (nodes : Set Address) (m : Memory) :
    Represents L nodes m (fun _ => none) :=
  ⟨⟨fun hh => absurd hh (by simp),fun _ hh => absurd hh (by simp)⟩,fun _ _ hh => absurd hh (by simp)⟩

theorem kernel_lists_refine (ha : Arranged L nodes) (hp : Plays nodes (fun _ => none) calls σ) (m : Memory) :
    ∃ m', runCalls L calls m = .ok m' ∧ Represents L nodes m' σ ∧
      (∀ head xs, σ head = some xs → listEmpty L head m' = .ok (decide (xs = []))) ∧
      ∀ a, (∀ p ∈ nodes, L.Outside a p) → m' a = m a := by
  obtain ⟨m',hrun,hm',hframe⟩ := plays_represented ha (represents_none L nodes m) hp
  exact ⟨m',hrun,hm',fun head xs hh => hm'.answers ha hh,hframe⟩

-- free_area and the list members of g_pages.
def Layout.heads (L : Layout) : Set Address :=
  {p | (∃ i, i ≤ maxOrder ∧ p = L.freeAreaAt i) ∨ ∃ i, i < nPages ∧ p = L.pageAt i}

theorem freeAreaAt_head (L : Layout) {i : Nat} (hi : i ≤ maxOrder) : L.freeAreaAt i ∈ L.heads := .inl ⟨i,hi,rfl⟩

theorem pageAt_head (L : Layout) {i : Nat} (hi : i < nPages) : L.pageAt i ∈ L.heads := .inr ⟨i,hi,rfl⟩

theorem heads_arranged (L : Layout) : Arranged L L.heads where
  accessible := by
    rintro p (⟨i,hi,rfl⟩ | ⟨i,hi,rfl⟩)
    · exact freeAreaAt_accessible L hi
    · exact pageAt_accessible L hi
  apart := by
    have hcross {i j : Nat} (hi : i ≤ maxOrder) (hj : j < nPages) :
        (L.Outside (next (L.freeAreaAt i)) (L.pageAt j) ∧ L.Outside (L.prev (L.freeAreaAt i)) (L.pageAt j)) ∧
          L.Outside (next (L.pageAt j)) (L.freeAreaAt i) ∧ L.Outside (L.prev (L.pageAt j)) (L.freeAreaAt i) := by
      have harea := freeAreaAt_held L hi
      have hpage := pageAt_held L hj
      have hne {p q : Address} (hp : L.freeArea.Holds p) (hq : L.gPages.Holds q) : p ≠ q := L.area_pages.ne hp hq
      exact ⟨⟨⟨hne harea.1 hpage.1,hne harea.1 hpage.2⟩,hne harea.2 hpage.1,hne harea.2 hpage.2⟩,
        ⟨(hne harea.1 hpage.1).symm,(hne harea.2 hpage.1).symm⟩,(hne harea.1 hpage.2).symm,(hne harea.2 hpage.2).symm⟩
    rintro p (⟨i,hi,rfl⟩ | ⟨i,hi,rfl⟩) q (⟨j,hj,rfl⟩ | ⟨j,hj,rfl⟩) hpq
    · exact slot_outside L L.freeArea.start fun hij => hpq (congrArg L.freeAreaAt hij)
    · exact (hcross hi hj).1
    · exact (hcross hj hi).2
    · exact slot_outside L L.gPages.start fun hij => hpq (congrArg L.pageAt hij)

theorem kernel_lists_refine_low : ∃ m', runCalls lowGlobals
      [.init (lowGlobals.freeAreaAt 20),.addTail (lowGlobals.pageAt 0) (lowGlobals.freeAreaAt 20)]
      (fun _ => 0) = .ok m' ∧
    listEmpty lowGlobals (lowGlobals.freeAreaAt 20) m' = .ok false := by
  have hplays : Plays lowGlobals.heads (fun _ => none)
      [.init (lowGlobals.freeAreaAt 20),.addTail (lowGlobals.pageAt 0) (lowGlobals.freeAreaAt 20)] _ :=
    .call (.init (freeAreaAt_head lowGlobals le_rfl) fun _ _ hh => absurd hh (by simp))
      (.call (.addTail (pageAt_head lowGlobals (by decide)) (Unlisted.put (fun _ _ hh => absurd hh (by simp)) (by simp))
        (by decide) (update_self ..)) (.done _))
  obtain ⟨m',hrun,-,hempty,-⟩ := kernel_lists_refine (heads_arranged lowGlobals) hplays (fun _ => 0)
  exact ⟨m',hrun,hempty _ _ (update_self ..)⟩

end OperatingSystemLabs.Pages

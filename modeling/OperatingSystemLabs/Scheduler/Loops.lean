import OperatingSystemLabs.Foundation.Keyed
import OperatingSystemLabs.Foundation.Loop
import OperatingSystemLabs.Scheduler.Library

namespace OperatingSystemLabs.Scheduler

open Insertion Keyed

theorem idleCore_spec (i : Int) (coreList : List CoreT) :
    (idleCore i coreList = -1 ∧ ∀ core ∈ coreList, core.active ≠ -1) ∨
    ∃ l core r, coreList = l ++ core :: r ∧ (∀ k ∈ l, k.active ≠ -1) ∧ core.active = -1 ∧
      idleCore i coreList = i + l.length := by
  induction coreList generalizing i with
  | nil => exact .inl ⟨rfl,by simp⟩
  | cons k ks ih =>
    by_cases h : k.active = -1
    · exact .inr ⟨[],k,ks,rfl,by simp,h,by simp [idleCore,h]⟩
    · rw [idleCore,if_neg h]
      rcases ih (i + 1) with ⟨he,hall⟩ | ⟨l,core,r,rfl,hl,hc,he⟩
      · exact .inl ⟨he,by simpa [h] using hall⟩
      · refine .inr ⟨k :: l,core,r,rfl,by simpa [h] using hl,hc,?_⟩
        rw [he,List.length_cons]
        omega

theorem search_append (test : Ptr → Bool) {q : PriqueueT Ptr JobT} {pre suf : List Ptr}
    (hq : q.head = pre ++ suf) :
    (search test q suf.length pre.length = .ok none ∧ ∀ p ∈ suf, test p = false) ∨
    ∃ l p r, suf = l ++ p :: r ∧ (∀ x ∈ l, test x = false) ∧ test p = true ∧
      search test q suf.length pre.length = .ok (some (pre.length + l.length,p)) := by
  induction suf generalizing pre with
  | nil => exact .inl ⟨rfl,by simp⟩
  | cons x xs ih =>
    have hat := priqueueAt_append hq
    rw [List.length_cons,search,bind_ok _ hat]
    by_cases hx : test x = true
    · exact .inr ⟨[],x,xs,rfl,by simp,hx,by simp [hx]; rfl⟩
    · rw [if_neg hx]
      have hq' : q.head = (pre ++ [x]) ++ xs := by rw [hq,List.append_assoc,List.singleton_append]
      have hlen : (pre ++ [x]).length = pre.length + 1 := by simp
      rcases ih hq' with ⟨he,hall⟩ | ⟨l,p,r,rfl,hl,hp,he⟩
      · rw [hlen] at he
        exact .inl ⟨he,by simpa [hx] using hall⟩
      · rw [hlen] at he
        refine .inr ⟨x :: l,p,r,rfl,by simpa [hx] using hl,hp,?_⟩
        rw [he,List.length_cons,Nat.add_right_comm,Nat.add_assoc]

theorem search_spec (test : Ptr → Bool) (q : PriqueueT Ptr JobT) :
    (search test q (priqueueSize q) 0 = .ok none ∧ ∀ p ∈ q.head, test p = false) ∨
    ∃ l p r, q.head = l ++ p :: r ∧ (∀ x ∈ l, test x = false) ∧ test p = true ∧
      search test q (priqueueSize q) 0 = .ok (some (l.length,p)) := by
  have hq : q.head = [] ++ q.head := rfl
  simpa [priqueueSize] using search_append test hq

theorem chargeRunning_append (time : Int) {q : PriqueueT Ptr JobT} {pre mid post : List Ptr}
    (mem : Ptr → JobT) (temp : Option Ptr) (hq : q.head = pre ++ (mid ++ post)) (hd : mid.Nodup) :
    ∃ mem', chargeRunning q time mid.length pre.length mem temp = .ok (mem',mid.getLast?.or temp) ∧
      (∀ p ∈ mid, mem' p = (mem p).charged time) ∧ ∀ p, p ∉ mid → mem' p = mem p := by
  induction mid generalizing pre mem temp with
  | nil => exact ⟨mem,rfl,by simp,by simp⟩
  | cons x xs ih =>
    obtain ⟨hx,hxs⟩ := List.nodup_cons.mp hd
    have hx' : q.head = pre ++ x :: (xs ++ post) := hq
    have hat := priqueueAt_append hx'
    have hq' : q.head = (pre ++ [x]) ++ (xs ++ post) := by simpa using hq
    obtain ⟨mem',he,hin,hout⟩ := ih (Function.update mem x ((mem x).charged time)) (some x) hq' hxs
    refine ⟨mem',?_,?_,?_⟩
    · rw [List.length_cons,chargeRunning,bind_ok _ hat]
      rw [List.length_append,List.length_singleton] at he
      rw [he,List.getLast?_cons]
      cases xs.getLast? <;> rfl
    · intro p hp
      rcases List.mem_cons.mp hp with rfl | hp
      · rw [hout p hx,Function.update_self]
      · rw [hin p hp,Function.update_of_ne (fun h : p = x => hx (h ▸ hp))]
    · intro p hp
      have hne : p ≠ x := fun h => hp (h ▸ List.mem_cons_self)
      rw [hout p (fun h => hp (List.mem_cons_of_mem _ h)),Function.update_of_ne hne]

def swapIn (mem : Ptr → JobT) (newJob victim : Ptr) (time : Int) : Ptr → JobT :=
  let mem' := Function.update mem newJob ((mem newJob).preempting (mem victim).coreId time)
  Function.update mem' victim ((mem' victim).preempted time)

theorem swapIn_map {newJob victim : Ptr} {l r post : List Ptr} (mem : Ptr → JobT) (time : Int)
    (hd : (l ++ newJob :: (r ++ victim :: post)).Nodup) :
    (l ++ newJob :: (r ++ victim :: post)).map (swapIn mem newJob victim time) =
      l.map mem ++ (mem newJob).preempting (mem victim).coreId time ::
        (r.map mem ++ (mem victim).preempted time :: post.map mem) := by
  have hassoc : l ++ newJob :: (r ++ victim :: post) = (l ++ newJob :: r) ++ victim :: post := by simp
  have hfresh := (List.nodup_cons.mp (List.perm_middle.nodup_iff.mp hd)).1
  have hvictim : victim ≠ newJob := fun h => hfresh (by simp [h])
  have hpost : newJob ∉ post := fun h => hfresh (by simp [h])
  rw [hassoc] at hd ⊢
  rw [swapIn,map_update_split _ _ hd,map_update_split _ _ (hd.sublist (List.sublist_append_left _ _)),
    map_update_of_notMem _ _ hpost,Function.update_of_ne hvictim]
  simp

theorem preemptLoop_other {newJob job : Ptr} {temp : Option Ptr} {time : Int}
    {q : PriqueueT Ptr JobT} {n i : Nat} {mem : Ptr → JobT} {coreIndex : Int}
    (hat : priqueueAt q i = .ok job) (hne : job ≠ newJob) :
    preemptLoop q newJob temp time (n + 1) i mem coreIndex =
      preemptLoop q newJob temp time n (i + 1) mem coreIndex := by
  unfold preemptLoop
  rw [bind_ok _ hat,if_neg hne]
  cases n <;> rfl

theorem preemptLoop_newJob {newJob victim : Ptr} {time : Int} {q : PriqueueT Ptr JobT}
    {n i : Nat} {mem : Ptr → JobT} {coreIndex : Int} (hat : priqueueAt q i = .ok newJob) :
    preemptLoop q newJob (some victim) time (n + 1) i mem coreIndex =
      preemptLoop q newJob (some victim) time n (i + 1) (swapIn mem newJob victim time)
        (mem victim).coreId := by
  conv_lhs => unfold preemptLoop
  rw [bind_ok _ hat,if_pos rfl]
  rfl

theorem preemptLoop_skip {newJob : Ptr} (temp : Option Ptr) (time : Int) {q : PriqueueT Ptr JobT}
    {pre mid post : List Ptr} (mem : Ptr → JobT) (coreIndex : Int)
    (hq : q.head = pre ++ (mid ++ post)) (hn : newJob ∉ mid) :
    preemptLoop q newJob temp time mid.length pre.length mem coreIndex = .ok (mem,coreIndex) := by
  induction mid generalizing pre with
  | nil => rfl
  | cons x xs ih =>
    have hx' : q.head = pre ++ x :: (xs ++ post) := hq
    have hat := priqueueAt_append hx'
    have hq' : q.head = (pre ++ [x]) ++ (xs ++ post) := by simpa using hq
    have hne : x ≠ newJob := fun h => hn (h ▸ List.mem_cons_self)
    have := ih hq' (fun h => hn (List.mem_cons_of_mem _ h))
    rw [List.length_append,List.length_singleton] at this
    rw [List.length_cons,preemptLoop_other hat hne,this]

theorem preemptLoop_hit {newJob : Ptr} (victim : Ptr) (time : Int) {q : PriqueueT Ptr JobT}
    {pre l r post : List Ptr} (mem : Ptr → JobT) (coreIndex : Int)
    (hq : q.head = pre ++ ((l ++ newJob :: r) ++ post)) (hl : newJob ∉ l) (hr : newJob ∉ r) :
    preemptLoop q newJob (some victim) time (l ++ newJob :: r).length pre.length mem coreIndex =
      .ok (swapIn mem newJob victim time,(mem victim).coreId) := by
  induction l generalizing pre with
  | nil =>
    have hx' : q.head = pre ++ newJob :: (r ++ post) := hq
    have hat := priqueueAt_append hx'
    have hq' : q.head = (pre ++ [newJob]) ++ (r ++ post) := by simpa using hq
    have hlen : (pre ++ [newJob]).length = pre.length + 1 := by simp
    rw [List.nil_append,List.length_cons,preemptLoop_newJob hat,← hlen]
    exact preemptLoop_skip (some victim) time (swapIn mem newJob victim time) (mem victim).coreId hq' hr
  | cons x xs ih =>
    have hx' : q.head = pre ++ x :: ((xs ++ newJob :: r) ++ post) := hq
    have hat := priqueueAt_append hx'
    have hq' : q.head = (pre ++ [x]) ++ ((xs ++ newJob :: r) ++ post) := by simpa using hq
    have hne : x ≠ newJob := fun h => hl (h ▸ List.mem_cons_self)
    have hlen : (pre ++ [x]).length = pre.length + 1 := by simp
    rw [List.cons_append,List.length_cons,preemptLoop_other hat hne,← hlen]
    exact ih hq' (fun h => hl (List.mem_cons_of_mem _ h))

end OperatingSystemLabs.Scheduler

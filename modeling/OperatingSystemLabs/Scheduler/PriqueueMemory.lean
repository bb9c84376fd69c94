import OperatingSystemLabs.Scheduler.PriqueueNodes

namespace OperatingSystemLabs.Scheduler.Nodes

open Function Heaps Links Loop

variable {α ρ : Type} {A : Malloc (Node α)} {base h h' : Heap (Node α)} {q : PriqueueT ρ} {head : Option Nat}
variable {p a b : Nat} {ps l r : List Nat} {lost : Nat} {mem : α → ρ} {ptr : α} {x : Scheduler.PriqueueT α ρ}

theorem relink_same (hnext : (h.cell p).next = head) : relink p head h = h := by
  have hcell : (⟨(h.cell p).data,head⟩ : Node α) = h.cell p := by rw [← hnext]
  rw [relink,hcell,update_eq_self]

theorem Holds.next (hh : Holds base h head (l ++ p :: r) lost) : (h.cell p).next = r.head? := by
  have hs : Strung Node.next h (some p) (p :: r) :=
    ⟨chain_suffix hh.strung.chain,fun x hx => hh.strung.live x (List.mem_append_right l hx)⟩
  exact hs.tail.head

structure Loose (base h : Heap (Node α)) (head : Option Nat) (ps : List Nat) (lost a : Nat) : Prop where
  holds : Holds base h head ps (lost + 1)
  live : a ∈ h.live
  outside : a ∉ ps
  new : a ∉ base.live

theorem Holds.loose (hh : Holds base h head ps lost) (n : Node α) :
    Loose base ⟨(h.alloc A).live,update h.cell (A.address h) n⟩ head ps lost (A.address h) := by
  have hcell {p : Nat} (hp : p ∈ h.live) : update h.cell (A.address h) n p = h.cell p :=
    update_of_ne (ne_of_mem_of_not_mem hp (A.fresh h)) ..
  refine ⟨⟨?_,fun p hp => ?_,?_⟩,alloc_mem A h,fun hm => A.fresh h (hh.strung.live _ hm),
    fun hm => A.fresh h (hh.kept _ hm).1⟩
  · exact hh.strung.congr (fun p hp => alloc_live (hh.strung.live p hp))
      fun p hp => congrArg Node.next (hcell (hh.strung.live p hp))
  · obtain ⟨hlive,hsame,hout⟩ := hh.kept p hp
    exact ⟨alloc_live hlive,(hcell hlive).trans hsame,hout⟩
  · exact hh.alloc.card

theorem Loose.relink (hl : Loose base h head ps lost a) (v : Option Nat) :
    Loose base (relink a v h) head ps lost a := by
  have hcell {p : Nat} (hp : p ∈ ps) : (Nodes.relink a v h).cell p = h.cell p :=
    relink_of_ne (ne_of_mem_of_not_mem hp hl.outside) v
  refine ⟨⟨?_,fun p hp => ?_,hl.holds.card⟩,hl.live,hl.outside,hl.new⟩
  · exact hl.holds.strung.congr hl.holds.strung.live fun p hp => congrArg Node.next (hcell hp)
  · obtain ⟨hlive,hsame,hout⟩ := hl.holds.kept p hp
    exact ⟨hlive,(relink_of_ne (ne_of_mem_of_not_mem hp hl.new) v).trans hsame,hout⟩

theorem Loose.front (hl : Loose base h head ps lost a) (hnext : (h.cell a).next = head) :
    Holds base h (some a) (a :: ps) lost where
  strung := by
    refine ⟨⟨rfl,?_⟩,List.forall_mem_cons.mpr ⟨hl.live,hl.holds.strung.live⟩⟩
    show Chain _ (h.cell a).next ps
    rw [hnext]
    exact hl.holds.strung.chain
  kept p hp := by
    obtain ⟨hlive,hsame,hout⟩ := hl.holds.kept p hp
    refine ⟨hlive,hsame,fun hm => ?_⟩
    exact (List.mem_cons.mp hm).elim (ne_of_mem_of_not_mem hp hl.new) hout
  card := by
    rw [hl.holds.card,List.length_cons]
    omega

theorem Loose.after (hl : Loose base h head (l ++ b :: r) lost a) (hnext : (h.cell a).next = r.head?) :
    Holds base (Nodes.relink b (some a) h) head (l ++ b :: a :: r) lost := by
  have hs := hl.holds.strung
  have hba : a ≠ b := fun he => hl.outside (by simp [he])
  have hnodup : b ∉ l ++ r := (List.nodup_middle.mp hs.nodup).notMem
  refine ⟨⟨chain_insert hs.chain (fun x hx => ?_) (by rw [relink_self]) ?_,fun x hx => ?_⟩,fun x hx => ?_,?_⟩
  · rw [relink_of_ne (ne_of_mem_of_not_mem hx hnodup)]
  · rw [relink_of_ne hba,hnext,hl.holds.next]
  · have hx' : x = a ∨ x ∈ l ++ b :: r := by
      simp only [List.mem_append,List.mem_cons] at hx ⊢
      tauto
    exact hx'.elim (fun he => he ▸ hl.live) (hs.live x)
  · obtain ⟨hlive,hsame,hout⟩ := hl.holds.kept x hx
    refine ⟨hlive,(relink_of_ne (fun he => hout (by simp [he])) _).trans hsame,fun hm => ?_⟩
    have hx' : x = a ∨ x ∈ l ++ b :: r := by
      simp only [List.mem_append,List.mem_cons] at hm ⊢
      tauto
    exact hx'.elim (ne_of_mem_of_not_mem hx hl.new) hout
  · have hcard := hl.holds.card
    simp only [List.length_append,List.length_cons] at hcard ⊢
    exact hcard.trans (by omega)

theorem stroll_insertAfter (cmp : α → α → Int) (ptr : α) (h : Heap (Node α)) (b : Nat) (ps : List Nat) :
    ∃ l b' r, b :: ps = l ++ b' :: r ∧
      stroll (fun _ p => decide (0 < cmp ptr (h.cell p).data)) (fun _ p => some p) (some b) ps = (some b',r) ∧
      (h.cell b).data :: insertAfter cmp ptr (contents h ps) = contents h (l ++ [b']) ++ ptr :: contents h r := by
  induction ps generalizing b with
  | nil => exact ⟨[],b,[],rfl,rfl,rfl⟩
  | cons p ps ih =>
    rw [contents,List.map_cons,insertAfter]
    by_cases hlt : 0 < cmp ptr (h.cell p).data
    · obtain ⟨l,b',r,hps,hstroll,hlist⟩ := ih p
      refine ⟨b :: l,b',r,congrArg (b :: ·) hps,?_,?_⟩
      · rw [stroll,if_pos (decide_eq_true hlt),hstroll]
      · rw [if_pos hlt]
        exact congrArg ((h.cell b).data :: ·) hlist
    · refine ⟨[],b,p :: ps,rfl,?_,?_⟩
      · rw [stroll,if_neg (by simpa using hlt)]
      · rw [if_neg hlt]
        rfl

theorem linkNode_follows (mem : α → ρ) (hl : Loose base h q.head ps lost a) (ha : h.cell a = ⟨ptr,none⟩) :
    ∃ q' h', linkNode mem q (some a) h = .ok (q',h') ∧ q'.cmp = q.cmp ∧ ∃ ps', Holds base h' q'.head ps' lost ∧
      contents h' ps' = insertNode (fun a b => q.cmp (mem a) (mem b)) ptr (contents h ps) := by
  have hs := hl.holds.strung
  have hload : h.load (some a) = .ok ⟨ptr,none⟩ := (load_live hl.live).trans (congrArg _ ha)
  rw [linkNode]
  rcases hs.cases with ⟨hq,rfl⟩ | ⟨p,ps,hq,rfl⟩
  · rw [if_pos hq]
    refine ⟨_,_,rfl,rfl,[a],hl.front (by rw [ha,hq]),?_⟩
    rw [contents,List.map_cons,ha]
    rfl
  · have hp : h.load (some p) = .ok (h.cell p) := load_live (hs.live p List.mem_cons_self)
    rw [hq,if_neg (by simp),bind_ok _ hload,bind_ok _ hp,contents,List.map_cons,insertNode]
    rw [hq] at hl hs
    by_cases hlt : q.cmp (mem ptr) (mem (h.cell p).data) < 0
    · rw [if_pos hlt,if_pos hlt,bind_ok _ (setNext_live hl.live _)]
      refine ⟨_,_,rfl,rfl,a :: p :: ps,(hl.relink (some p)).front (by rw [relink_self]),?_⟩
      rw [contents_relink,contents,List.map_cons,ha]
      rfl
    · rw [if_neg hlt,if_neg hlt,bind_ok _ hp]
      obtain ⟨l,b,r,hps,hstroll,hlist⟩ := stroll_insertAfter (fun a b => q.cmp (mem a) (mem b)) ptr h p ps
      have hlive : b ∈ h.live := hs.live b (by simp [hps])
      have hloop : passLower mem q (some a) h (some p,(h.cell p).next) = .ok (some b,r.head?) := by
        rw [passLower,repeatWhile_stroll (fun _ p => decide (0 < q.cmp (mem ptr) (mem (h.cell p).data)))
          (fun _ p => some p) hs.tail (fun _ => rfl) ?_ ?_ (Nat.lt_of_succ_lt hl.holds.fuel),hstroll]
        · intro s t ht
          have htl : h.load (some t) = .ok (h.cell t) := load_live (hs.live t (List.mem_cons_of_mem p ht))
          rw [if_neg (by simp),bind_ok _ hload,bind_ok _ htl]
          rfl
        · exact fun s t ht => bind_ok _ (load_live (hs.live t (List.mem_cons_of_mem p ht)))
      rw [bind_ok _ hloop]
      -- What `insert->next` is set to: it is NULL already when `temp` is.
      have hlinked : Loose base (relink a r.head? h) (some p) (l ++ b :: r) lost a := hps ▸ hl.relink r.head?
      refine ⟨q,relink b (some a) (relink a r.head? h),?_,rfl,l ++ b :: a :: r,?_,?_⟩
      · show (if r.head? = none then _ else _) = _
        cases r with
        | nil =>
          have hsame : relink a none h = h := relink_same (by rw [ha])
          rw [List.head?_nil,if_pos rfl,bind_ok _ (setNext_live hlive _),hsame]
          rfl
        | cons t r =>
          rw [if_neg (by simp),bind_ok _ (setNext_live hl.live _),bind_ok _ (setNext_live (by exact hlive) _)]
          rfl
      · exact hq ▸ hlinked.after (by rw [relink_self])
      · rw [contents_relink,contents_relink]
        refine Eq.trans ?_ hlist.symm
        rw [contents,contents,contents,List.append_cons,List.map_append,List.map_cons,ha]

-- What malloc left in the block does not matter, since both of its members are set.
theorem set_new (A : Malloc (Node α)) (h : Heap (Node α)) (ptr : α) :
    (setData (some (A.address h)) ptr (h.alloc A) >>= setNext (some (A.address h)) none) =
      .ok ⟨(h.alloc A).live,update h.cell (A.address h) ⟨ptr,none⟩⟩ := by
  rw [setData,bind_ok _ (load_live (alloc_mem A h)),store_live (alloc_mem A h)]
  refine (setNext_live (by exact alloc_mem A h) none).trans (congrArg Except.ok ?_)
  simp [relink,Heap.alloc]

theorem priqueueOffer_follows (A : Malloc (Node α)) (mem : α → ρ) (ptr : α) (hf : Follows base lost x q h) :
    Agree (fun r s => r.2 = s.2.1 ∧ Follows base lost r.1 s.1 s.2.2) (.ok (Scheduler.priqueueOffer mem x ptr))
      (priqueueOffer A mem q ptr h) := by
  obtain ⟨hcmp,ps,hh,hx⟩ := hf
  have hl := hh.loose (A := A) ⟨ptr,none⟩
  obtain ⟨q',h',hlink,hcmp',ps',hh',hx'⟩ := linkNode_follows mem hl (update_self ..)
  have hsame : contents ⟨(h.alloc A).live,update h.cell (A.address h) ⟨ptr,none⟩⟩ ps = x.head := by
    rw [← hx]
    refine List.map_congr_left fun p hp => congrArg Node.data (update_of_ne ?_ ..)
    exact ne_of_mem_of_not_mem hp hl.outside
  rw [hsame,hcmp] at hx'
  have hrun : priqueueOffer A mem q ptr h = .ok (q',(ps'.length : Int) - 1,h') := by
    rw [priqueueOffer,← bind_assoc,bind_ok _ (set_new A h ptr),bind_ok _ hlink]
    show priqueueSize q' h' >>= _ = _
    rw [bind_ok _ (priqueueSize_holds hh')]
    rfl
  rw [hrun]
  have hlen := congrArg List.length hx'
  rw [contents,List.length_map] at hlen
  have hanswer : (Scheduler.priqueueOffer mem x ptr).2 =
      ((insertNode (fun a b => x.cmp (mem a) (mem b)) ptr x.head).length : Int) - 1 := rfl
  exact ⟨hanswer.trans (by rw [← hlen]),hcmp'.trans hcmp,ps',hh',hx'⟩

structure Removing (base : Heap (Node α)) (lost : Nat) (kept : Option (List α)) (ks ts : List Nat) (k : Nat)
    (s : Removal α) : Prop where
  holds : Holds base s.heap s.head (ks ++ ts) (lost + k)
  temp : s.temp = ts.head?
  numRemoved : s.numRemoved = k
  previous : s.previous = kept.map fun _ => ks.getLast?
  stayed : kept.getD [] = contents s.heap ks
  nonempty : ∀ xs ∈ kept, xs ≠ []

theorem removeLoop_follows (compared : α → Int) {kept : Option (List α)} {ks ts : List Nat} {k fuel : Nat}
    {s : Removal α} (hr : Removing base lost kept ks ts k s) (hf : ts.length < fuel) :
    Agree (fun r s => r.2 = s.numRemoved ∧
        ∃ ps, Holds base s.heap s.head ps (lost + r.2.toNat) ∧ contents s.heap ps = r.1)
      ((removeFrom compared kept (contents s.heap ts) k).mapError fun _ => Misuse.uninitialised)
      (repeatWhile .endless remains (removeRound compared) fuel s) := by
  induction ts generalizing kept ks k fuel s with
  | nil =>
    obtain ⟨n,rfl⟩ := Nat.exists_eq_succ_of_ne_zero (Nat.ne_of_gt hf)
    have hstop : remains s = .ok false := by rw [remains,hr.temp]; rfl
    rw [repeatWhile_stop hstop]
    refine ⟨hr.numRemoved.symm,ks,?_,hr.stayed.symm⟩
    exact List.append_nil ks ▸ hr.holds
  | cons t ts ih =>
    obtain ⟨n,rfl⟩ := Nat.exists_eq_succ_of_ne_zero (Nat.ne_of_gt (Nat.zero_lt_of_lt hf))
    have hgo : remains s = .ok true := by rw [remains,hr.temp]; rfl
    have hload : s.heap.load s.temp = .ok (s.heap.cell t) := by
      rw [hr.temp]
      exact load_live (hr.holds.strung.live t (by simp))
    have hnext : (s.heap.cell t).next = ts.head? := hr.holds.next
    rw [contents,List.map_cons]
    by_cases h0 : compared (s.heap.cell t).data = 0
    · cases kept with
      | none =>
        have hround : removeRound compared s = .error .uninitialised := by
          rw [removeRound,bind_ok _ hload,if_pos h0,hr.previous]
          rfl
        rw [repeatWhile_fail hgo hround,removeFrom,if_pos h0]
        rfl
      | some xs =>
        cases ks using List.reverseRecOn with
        | nil => exact absurd hr.stayed (hr.nonempty xs rfl)
        | append_singleton l b =>
          have hb : b ∈ s.heap.live := hr.holds.strung.live b (by simp)
          have hafter : (relink b (s.heap.cell t).next s.heap).load (some b) = .ok ⟨(s.heap.cell b).data,ts.head?⟩ := by
            rw [load_live (by exact hb),relink_self,hnext]
          have hround : removeRound compared s = .ok { s with
              temp := ts.head?, numRemoved := s.numRemoved + 1, heap := relink b (s.heap.cell t).next s.heap } := by
            have hprevious : s.previous = some (some b) := hr.previous.trans (by simp)
            rw [removeRound,bind_ok _ hload,if_pos h0,hprevious]
            show setNext (some b) _ _ >>= _ = _
            rw [bind_ok _ (setNext_live hb _),bind_ok _ hafter]
            rfl
          have hholds := hr.holds
          rw [List.append_assoc,List.singleton_append] at hholds
          have hremoving : Removing base lost (some xs) (l ++ [b]) ts (k + 1) { s with
              temp := ts.head?, numRemoved := s.numRemoved + 1, heap := relink b (s.heap.cell t).next s.heap } := by
            refine ⟨?_,rfl,congrArg (· + 1) hr.numRemoved,hr.previous,?_,hr.nonempty⟩
            · rw [List.append_assoc,List.singleton_append]
              exact hholds.unlink
            · exact hr.stayed.trans (contents_relink _).symm
          have hrest := ih hremoving (Nat.lt_of_succ_lt_succ hf)
          rw [repeatWhile_round hgo hround,removeFrom,if_pos h0]
          rwa [contents_relink] at hrest
    · have hround : removeRound compared s = .ok { s with previous := some s.temp, temp := ts.head? } := by
        rw [removeRound,bind_ok _ hload,if_neg h0,hnext]
        rfl
      have hkeep : removeFrom compared kept ((s.heap.cell t).data :: contents s.heap ts) k =
          removeFrom compared (some (kept.getD [] ++ [(s.heap.cell t).data])) (contents s.heap ts) k := by
        cases kept <;> rw [removeFrom,if_neg h0]
      have hremoving : Removing base lost (some (kept.getD [] ++ [(s.heap.cell t).data])) (ks ++ [t]) ts k
          { s with previous := some s.temp, temp := ts.head? } := by
        refine ⟨?_,rfl,hr.numRemoved,by simp [hr.temp],?_,by simp⟩
        · rw [List.append_assoc,List.singleton_append]
          exact hr.holds
        · rw [hr.stayed,contents,contents,List.map_append]
          rfl
      rw [repeatWhile_round hgo hround]
      exact hkeep ▸ ih hremoving (Nat.lt_of_succ_lt_succ hf)

theorem priqueueRemove_follows (mem : α → ρ) (ptr : α) (hf : Follows base lost x q h) :
    Agree (fun r s => r.2 = s.2.1 ∧ Follows base (lost + r.2.toNat) r.1 s.1 s.2.2)
      ((Scheduler.priqueueRemove mem x ptr).mapError fun _ => .uninitialised) (priqueueRemove mem q ptr h) := by
  obtain ⟨hcmp,ps,hh,hx⟩ := hf
  have hremoving : Removing base lost none [] ps 0 ⟨q.head,none,q.head,0,h⟩ :=
    ⟨hh,hh.strung.head,rfl,rfl,rfl,by simp⟩
  have hloop := removeLoop_follows (fun data => x.cmp (mem data) (mem ptr)) hremoving hh.fuel
  have hanswer : (Scheduler.priqueueRemove mem x ptr).mapError (fun _ => Misuse.uninitialised) =
      ((removeFrom (fun data => x.cmp (mem data) (mem ptr)) none x.head 0).mapError fun _ => Misuse.uninitialised) >>=
        fun r => .ok ({ x with head := r.1 },r.2) := by
    rw [Scheduler.priqueueRemove]
    cases removeFrom (fun data => x.cmp (mem data) (mem ptr)) none x.head 0 <;> rfl
  rw [hx] at hloop
  rw [hanswer,priqueueRemove,hcmp]
  exact hloop.bind fun r s hrs => ⟨hrs.1,rfl,hrs.2⟩

-- The node is not used any more once its `next` has been read.
theorem Holds.drop (hh : Holds base h (some p) (p :: ps) lost) :
    Holds base ⟨h.live.erase p,h.cell⟩ (h.cell p).next ps lost where
  strung := by
    refine hh.strung.tail.congr (fun x hx => ?_) fun x hx => rfl
    refine Finset.mem_erase.mpr ⟨?_,hh.strung.live x (List.mem_cons_of_mem p hx)⟩
    exact ne_of_mem_of_not_mem hx (List.nodup_cons.mp hh.strung.nodup).1
  kept x hx := by
    obtain ⟨hlive,hsame,hout⟩ := hh.kept x hx
    have hxp : x ≠ p := fun he => hout (by simp [he])
    exact ⟨Finset.mem_erase.mpr ⟨hxp,hlive⟩,hsame,fun hm => hout (List.mem_cons_of_mem p hm)⟩
  card := by
    have hcard := hh.card
    rw [List.length_cons] at hcard
    show (h.live.erase p).card = _
    rw [Finset.card_erase_of_mem (hh.strung.live p List.mem_cons_self),hcard]
    omega

theorem destroyLoop_frees {fuel : Nat} (hh : Holds base h head ps lost) (hf : ps.length < fuel) :
    ∃ h', repeatWhile Misuse.endless occupied freeRound fuel (head,h) = .ok (none,h') ∧ Holds base h' none [] lost ∧
      ∀ x ∈ h'.live, x ∈ h.live ∧ x ∉ ps := by
  induction ps generalizing h head fuel with
  | nil =>
    obtain ⟨n,rfl⟩ := Nat.exists_eq_succ_of_ne_zero (Nat.ne_of_gt hf)
    obtain rfl : head = none := hh.strung.head
    exact ⟨h,repeatWhile_stop rfl,hh,fun x hx => ⟨hx,List.not_mem_nil⟩⟩
  | cons p ps ih =>
    obtain ⟨n,rfl⟩ := Nat.exists_eq_succ_of_ne_zero (Nat.ne_of_gt (Nat.zero_lt_of_lt hf))
    obtain rfl : head = some p := hh.strung.head
    have hp : p ∈ h.live := hh.strung.live p List.mem_cons_self
    have hround : freeRound (some p,h) = .ok ((h.cell p).next,⟨h.live.erase p,h.cell⟩) := by
      rw [freeRound,bind_ok _ (load_live hp),bind_ok _ (free_live hp)]
      rfl
    have hgo : occupied (some p,h) = .ok true := rfl
    rw [repeatWhile_round hgo hround]
    obtain ⟨h',hrun,hh',hrest⟩ := ih hh.drop (Nat.lt_of_succ_lt_succ hf)
    refine ⟨h',hrun,hh',fun x hx => ?_⟩
    obtain ⟨hlive,hout⟩ := hrest x hx
    obtain ⟨hne,hlive⟩ := Finset.mem_erase.mp hlive
    exact ⟨hlive,fun hm => (List.mem_cons.mp hm).elim hne hout⟩

theorem priqueueDestroy_frees (A : Malloc (Node α)) (hh : Holds base h q.head ps lost) :
    ∃ h', priqueueDestroy A q h = .ok ({ q with head := none },h') ∧ Holds base h' none [] (lost + 1) ∧
      ∀ p ∈ ps, p ∉ h'.live := by
  obtain ⟨h',hrun,hh',hrest⟩ := destroyLoop_frees (hh.alloc (A := A)) hh.alloc.fuel
  rw [priqueueDestroy,bind_ok _ hrun]
  exact ⟨h',rfl,hh',fun p hp hlive => (hrest p hlive).2 hp⟩

end OperatingSystemLabs.Scheduler.Nodes

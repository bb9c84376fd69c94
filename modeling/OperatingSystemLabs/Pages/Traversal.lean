import OperatingSystemLabs.Pages.KernelList

namespace OperatingSystemLabs.Pages

open Function Loop Wiring

variable (L : Layout) {β : Type}

-- A round of a loop over a list, `visit` being its body; `none` is a loop not over after `fuel` rounds.
def walkRound (field : Address → Address) (visit : Address → β × Memory → Except Fault (β × Memory))
    (t : Address × β × Memory) : Except (Option Fault) (Address × β × Memory) := do
  let s ← (visit t.1 t.2).mapError some
  let pos ← (L.load s.2 (field t.1)).mapError some
  return (pos,s)

-- for (pos = head->field; pos != head; pos = pos->field)
def walkList (field : Address → Address) (visit : Address → β × Memory → Except Fault (β × Memory))
    (head : Address) (fuel : Nat) (s : β × Memory) : Except (Option Fault) (β × Memory) := do
  let pos ← (L.load s.2 (field head)).mapError some
  let t ← repeatWhile none (fun t => .ok (t.1 != head)) (walkRound L field visit) fuel (pos,s)
  return t.2

def listForEach : (Address → β × Memory → Except Fault (β × Memory)) → Address → Nat → β × Memory →
    Except (Option Fault) (β × Memory) := walkList L next

def listForEachPrev : (Address → β × Memory → Except Fault (β × Memory)) → Address → Nat → β × Memory →
    Except (Option Fault) (β × Memory) := walkList L L.prev

-- pos and n come first in the state.
def safeRound (visit : Address → β × Memory → Except Fault (β × Memory)) (t : (Address × Address) × β × Memory) :
    Except (Option Fault) ((Address × Address) × β × Memory) := do
  let s ← (visit t.1.1 t.2).mapError some
  let n ← (L.load s.2 (next t.1.2)).mapError some
  return ((t.1.2,n),s)

def listForEachSafe (visit : Address → β × Memory → Except Fault (β × Memory)) (head : Address) (fuel : Nat)
    (s : β × Memory) : Except (Option Fault) (β × Memory) := do
  let pos ← (L.load s.2 (next head)).mapError some
  let n ← (L.load s.2 (next pos)).mapError some
  let t ← repeatWhile none (fun t => .ok (t.1.1 != head)) (safeRound L visit) fuel ((pos,n),s)
  return t.2

variable {L} {visit : Address → β × Memory → Except Fault (β × Memory)} {head : Address} {xs : List Address}
  {fuel : Nat}

theorem walk_step {field : Address → Address} {p : Address} {s : β × Memory} {t : Address × β × Memory}
    (hne : p ≠ head) (hround : walkRound L field visit (p,s) = .ok t) :
    repeatWhile none (fun t => .ok (t.1 != head)) (walkRound L field visit) (fuel + 1) (p,s) =
      repeatWhile none (fun t => .ok (t.1 != head)) (walkRound L field visit) fuel t :=
  repeatWhile_round (congrArg Except.ok (bne_iff_ne.mpr hne)) hround

theorem walk_rounds {field : Address → Address} {I : β × Memory → Prop} (hhead : head ∉ xs)
    (hnext : ∀ s l p r, I s → xs = l ++ p :: r → L.load s.2 (field p) = .ok (r.headD head))
    (hvisit : ∀ s, ∀ p ∈ xs, I s → ∃ s', visit p s = .ok s' ∧ I s') {rest seen : List Address}
    (hxs : xs = seen ++ rest) {s : β × Memory} (hs : I s) (hfuel : rest.length < fuel) :
    ∃ s', repeatWhile none (fun t => .ok (t.1 != head)) (walkRound L field visit) fuel (rest.headD head,s) =
        .ok (head,s') ∧ I s' ∧ rest.foldlM (fun s p => visit p s) s = .ok s' := by
  induction rest generalizing seen s fuel with
  | nil =>
    cases fuel with
    | zero => cases hfuel
    | succ fuel => exact ⟨s,repeatWhile_stop (by simp),hs,rfl⟩
  | cons p rest ih =>
    cases fuel with
    | zero => cases hfuel
    | succ fuel =>
      have hp : p ∈ xs := by simp [hxs]
      obtain ⟨s₁,hv,hs₁⟩ := hvisit s p hp hs
      have hrest : xs = seen ++ [p] ++ rest := by simp [hxs]
      obtain ⟨s',hrun,hs',hfold⟩ := ih hrest hs₁ (Nat.lt_of_succ_lt_succ hfuel)
      refine ⟨s',?_,hs',(bind_ok _ hv).trans hfold⟩
      have hround : walkRound L field visit (p,s) = .ok (rest.headD head,s₁) := by
        rw [walkRound,hv]
        exact bind_ok _ (congrArg (Except.mapError some) (hnext s₁ seen p rest hs₁ hxs))
      exact (walk_step (ne_of_mem_of_not_mem hp hhead) hround).trans hrun

theorem walkList_visits {field : Address → Address} {I : β × Memory → Prop} (hhead : head ∉ xs)
    (hfirst : ∀ s, I s → L.load s.2 (field head) = .ok (xs.headD head))
    (hnext : ∀ s l p r, I s → xs = l ++ p :: r → L.load s.2 (field p) = .ok (r.headD head))
    (hvisit : ∀ s, ∀ p ∈ xs, I s → ∃ s', visit p s = .ok s' ∧ I s') {s : β × Memory} (hs : I s)
    (hfuel : xs.length < fuel) :
    ∃ s', walkList L field visit head fuel s = .ok s' ∧ I s' ∧ xs.foldlM (fun s p => visit p s) s = .ok s' := by
  obtain ⟨s',hrun,hs',hfold⟩ := walk_rounds hhead hnext hvisit (List.nil_append xs).symm hs hfuel
  refine ⟨s',?_,hs',hfold⟩
  rw [walkList,hfirst s hs]
  exact (bind_ok _ hrun).trans rfl

theorem safe_rounds {I : List Address → List Address → β × Memory → Prop}
    (hhead : ∀ kept rest s, I kept rest s → head ∉ rest)
    (hnext : ∀ kept p rest s, I kept (p :: rest) s → L.load s.2 (next p) = .ok (rest.headD head))
    (hfirst : ∀ kept s, I kept [] s → ∃ n, L.load s.2 (next head) = .ok n)
    (hvisit : ∀ kept p rest s, I kept (p :: rest) s → ∃ s' kept', visit p s = .ok s' ∧ I kept' rest s')
    {rest kept : List Address} {s : β × Memory} {n : Address} (hs : I kept rest s)
    (hn : rest ≠ [] → n = rest.tail.headD head) (hfuel : rest.length < fuel) :
    ∃ n' s' kept', repeatWhile none (fun t => .ok (t.1.1 != head)) (safeRound L visit) fuel ((rest.headD head,n),s) =
      .ok ((head,n'),s') ∧ I kept' [] s' := by
  induction rest generalizing kept s n fuel with
  | nil =>
    cases fuel with
    | zero => cases hfuel
    | succ fuel => exact ⟨n,s,kept,repeatWhile_stop (by simp),hs⟩
  | cons p rest ih =>
    cases fuel with
    | zero => cases hfuel
    | succ fuel =>
      obtain rfl := hn (List.cons_ne_nil p rest)
      obtain ⟨s₁,kept₁,hv,hs₁⟩ := hvisit kept p rest s hs
      have hload : ∃ n₁, L.load s₁.2 (next (rest.headD head)) = .ok n₁ ∧ (rest ≠ [] → n₁ = rest.tail.headD head) := by
        cases rest with
        | nil =>
          obtain ⟨n₁,hn₁⟩ := hfirst kept₁ s₁ hs₁
          exact ⟨n₁,hn₁,fun h => absurd rfl h⟩
        | cons q rest => exact ⟨_,hnext kept₁ q rest s₁ hs₁,fun _ => rfl⟩
      obtain ⟨n₁,hn₁,hn₁'⟩ := hload
      obtain ⟨n',s',kept',hrun,hs'⟩ := ih hs₁ hn₁' (Nat.lt_of_succ_lt_succ hfuel)
      refine ⟨n',s',kept',?_,hs'⟩
      have hround : safeRound L visit ((p,rest.headD head),s) = .ok ((rest.headD head,n₁),s₁) := by
        rw [safeRound,hv]
        exact bind_ok _ (congrArg (Except.mapError some) hn₁)
      have hgo : (p != head) = true := bne_iff_ne.mpr (ne_of_mem_of_not_mem List.mem_cons_self (hhead kept _ s hs))
      refine (repeatWhile_round ?_ hround).trans hrun
      exact congrArg Except.ok hgo

-- The body may take the entry it is at out of the list: `kept` are those it has left in, `rest` those to come.
theorem listForEachSafe_visits {I : List Address → List Address → β × Memory → Prop}
    (hhead : ∀ kept rest s, I kept rest s → head ∉ rest)
    (hnext : ∀ kept p rest s, I kept (p :: rest) s → L.load s.2 (next p) = .ok (rest.headD head))
    (hfirst : ∀ kept rest s, I kept rest s → L.load s.2 (next head) = .ok ((kept ++ rest).headD head))
    (hvisit : ∀ kept p rest s, I kept (p :: rest) s → ∃ s' kept', visit p s = .ok s' ∧ I kept' rest s')
    {s : β × Memory} (hs : I [] xs s) (hfuel : xs.length < fuel) :
    ∃ s' kept', listForEachSafe L visit head fuel s = .ok s' ∧ I kept' [] s' := by
  have hpos : L.load s.2 (next head) = .ok (xs.headD head) := hfirst [] xs s hs
  have hload : ∃ n, L.load s.2 (next (xs.headD head)) = .ok n ∧ (xs ≠ [] → n = xs.tail.headD head) := by
    cases xs with
    | nil => exact ⟨_,hpos,fun h => absurd rfl h⟩
    | cons p xs => exact ⟨_,hnext [] p xs s hs,fun _ => rfl⟩
  obtain ⟨n,hn,hn'⟩ := hload
  obtain ⟨n',s',kept',hrun,hs'⟩ := safe_rounds hhead hnext (fun kept s h => ⟨_,hfirst kept [] s h⟩) hvisit hs hn' hfuel
  refine ⟨s',kept',?_,hs'⟩
  rw [listForEachSafe,hpos]
  exact (bind_ok _ (congrArg (Except.mapError some) hn)).trans ((bind_ok _ hrun).trans rfl)

inductive Fate where
  | keep
  | drop
  | send (dest : Address)
  deriving DecidableEq, Repr

variable (L)

def settle (fate : Address → Fate) (pos : Address) (s : List Address × Memory) :
    Except Fault (List Address × Memory) := do
  match fate pos with
  | .keep => return (s.1 ++ [pos],s.2)
  | .drop =>
    let m ← listDel L pos s.2
    return (s.1 ++ [pos],m)
  | .send dest =>
    let m ← listMoveTail L pos dest s.2
    return (s.1 ++ [pos],m)

def settled (fate : Address → Fate) (head : Address) (σ : Spelling Address) (seen rest : List Address) :
    Spelling Address := fun h =>
  if h = head then some (seen.filter (fate · = .keep) ++ rest)
    else (σ h).map (· ++ seen.filter (fate · = .send h))

variable {L} {nodes : Set Address} {m : Memory} {σ : Spelling Address} {fate : Address → Fate} {p : Address}
  {seen rest : List Address}

theorem settled_start (hh : σ head = some xs) : settled fate head σ [] xs = σ := by
  funext h
  by_cases hhead : h = head
  · subst hhead
    rw [settled,if_pos rfl,hh]
    rfl
  · rw [settled,if_neg hhead]
    simp

theorem settled_head : settled fate head σ seen rest head = some (seen.filter (fate · = .keep) ++ rest) := if_pos rfl

theorem settled_keep (hkeep : fate p = .keep) :
    settled fate head σ (seen ++ [p]) rest = settled fate head σ seen (p :: rest) := by
  funext h
  simp [settled,List.filter_append,hkeep]

theorem settled_drop (hdrop : fate p = .drop) : settled fate head σ (seen ++ [p]) rest =
    update (settled fate head σ seen (p :: rest)) head (some (seen.filter (fate · = .keep) ++ rest)) := by
  funext h
  by_cases hhead : h = head
  · subst hhead
    simp [settled,List.filter_append,hdrop]
  · simp [settled,List.filter_append,hdrop,hhead]

theorem settled_send {dest : Address} {ys : List Address} (hsend : fate p = .send dest) (hne : dest ≠ head)
    (hys : settled fate head σ seen (p :: rest) dest = some ys) : settled fate head σ (seen ++ [p]) rest =
      update (update (settled fate head σ seen (p :: rest)) head (some (seen.filter (fate · = .keep) ++ rest)))
        dest (some (ys ++ [p])) := by
  have hys' : (σ dest).map (· ++ seen.filter (fate · = .send dest)) = some ys := by
    rwa [settled,if_neg hne] at hys
  funext h
  by_cases hdest : h = dest
  · subst hdest
    obtain ⟨zs,hzs,rfl⟩ := Option.map_eq_some_iff.mp hys'
    simp [settled,hne,hzs,List.filter_append,hsend]
  · rw [update_of_ne hdest]
    by_cases hhead : h = head
    · subst hhead
      simp [settled,List.filter_append,hsend]
    · have hother : dest ≠ h := Ne.symm hdest
      simp [settled,List.filter_append,hsend,hhead,hother]

theorem settle_settled (ha : Arranged L nodes) (hm : Represents L nodes m (settled fate head σ seen (p :: rest)))
    (hfate : ∀ dest, fate p = .send dest → dest ≠ head ∧ σ dest ≠ none) :
    ∃ m', settle L fate p (seen,m) = .ok (seen ++ [p],m') ∧
      Represents L nodes m' (settled fate head σ (seen ++ [p]) rest) ∧
      ∀ a, (∀ p ∈ nodes, L.Outside a p) → m' a = m a := by
  have hhead : settled fate head σ seen (p :: rest) head = some (seen.filter (fate · = .keep) ++ p :: rest) :=
    settled_head
  cases hp : fate p with
  | keep =>
    refine ⟨m,?_,settled_keep hp ▸ hm,fun _ _ => rfl⟩
    simp only [settle,hp]
    rfl
  | drop =>
    obtain ⟨m',hrun,hm',hframe⟩ := Call.changes ha hm (.del hhead)
    refine ⟨m',?_,settled_drop hp ▸ hm',hframe⟩
    simp only [settle,hp]
    exact bind_ok _ hrun
  | send dest =>
    obtain ⟨hne,hsome⟩ := hfate dest hp
    obtain ⟨zs,hzs⟩ := Option.ne_none_iff_exists'.mp hsome
    have hys : settled fate head σ seen (p :: rest) dest = some (zs ++ seen.filter (fate · = .send dest)) := by
      rw [settled,if_neg hne,hzs]
      rfl
    obtain ⟨m',hrun,hm',hframe⟩ := Call.changes ha hm (.moveTail hhead ((update_of_ne hne ..).trans hys))
    refine ⟨m',?_,settled_send hp hne hys ▸ hm',hframe⟩
    simp only [settle,hp]
    exact bind_ok _ hrun

theorem Represents.load_head (ha : Arranged L nodes) (hm : Represents L nodes m σ) (hh : σ head = some xs) :
    L.load m (next head) = .ok (xs.headD head) := by
  rw [load_next ha follows_self (hm.inside head xs hh head List.mem_cons_self),(hm.spells.ring hh).next_head]

theorem Represents.load_entry {l r : List Address} (ha : Arranged L nodes) (hm : Represents L nodes m σ)
    (hh : σ head = some (l ++ p :: r)) : L.load m (next p) = .ok (r.headD head) := by
  rw [load_next ha follows_self (hm.inside head _ hh p (by simp)),(hm.spells.ring hh).next_entry]

theorem one_entry_represented (L : Layout) (m : Memory) : ∃ m', Represents L L.heads m'
    (update (update (update (fun _ => none) (L.freeAreaAt maxOrder) (some [])) (L.pageAt 0) none)
      (L.freeAreaAt maxOrder) (some [L.pageAt 0])) := by
  have hplays : Plays L.heads (fun _ => none)
      [.init (L.freeAreaAt maxOrder),.add (L.pageAt 0) (L.freeAreaAt maxOrder)] _ :=
    .call (.init (freeAreaAt_head L le_rfl) fun _ _ hh => absurd hh (by simp))
      (.call (.add (pageAt_head L (by decide)) (Unlisted.put (fun _ _ hh => absurd hh (by simp)) (by simp))
        (pageAt_ne_freeAreaAt L (by decide) le_rfl) (update_self ..)) (.done _))
  obtain ⟨m',-,hm',-⟩ := plays_represented (heads_arranged L) (represents_none L L.heads m) hplays
  exact ⟨m',hm'⟩

theorem Represents.load_last (ha : Arranged L nodes) (hm : Represents L nodes m σ) (hh : σ head = some xs) :
    L.load m (L.prev head) = .ok (xs.reverse.headD head) := by
  rw [load_prev ha follows_self (hm.inside head xs hh head List.mem_cons_self)]
  exact congrArg Except.ok (hm.spells.ring hh).flip.next_head

theorem Represents.load_before {l r : List Address} (ha : Arranged L nodes) (hm : Represents L nodes m σ)
    (hh : σ head = some xs) (hxs : xs.reverse = l ++ p :: r) : L.load m (L.prev p) = .ok (r.headD head) := by
  have hp : p ∈ xs := by
    rw [← List.mem_reverse,hxs]
    simp
  rw [load_prev ha follows_self (hm.inside head xs hh p (List.mem_cons_of_mem head hp))]
  have hring := (hm.spells.ring hh).flip
  rw [hxs] at hring
  exact congrArg Except.ok hring.next_entry

theorem loops_visit_in_order {visit : Address → β × Memory → Except Fault (β × Memory)} {s : β × Memory}
    (ha : Arranged L nodes) (hm : Represents L nodes s.2 σ) (hh : σ head = some xs)
    (hvisit : ∀ s, ∀ p ∈ xs, Represents L nodes s.2 σ → ∃ s', visit p s = .ok s' ∧ Represents L nodes s'.2 σ)
    (hfuel : xs.length < fuel) :
    (∃ s', listForEach L visit head fuel s = .ok s' ∧ xs.foldlM (fun s p => visit p s) s = .ok s') ∧
      ∃ s', listForEachPrev L visit head fuel s = .ok s' ∧ xs.reverse.foldlM (fun s p => visit p s) s = .ok s' := by
  have hhead : head ∉ xs := (List.nodup_cons.mp (hm.spells.ring hh).1).1
  constructor
  · have hloop : ∃ s', listForEach L visit head fuel s = .ok s' ∧ Represents L nodes s'.2 σ ∧ _ :=
      walkList_visits (I := fun s => Represents L nodes s.2 σ) hhead (fun s hs => hs.load_head ha hh)
        (fun s l p r hs hxs => hs.load_entry ha (hxs ▸ hh)) hvisit hm hfuel
    obtain ⟨s',hrun,-,hfold⟩ := hloop
    exact ⟨s',hrun,hfold⟩
  · have hloop : ∃ s', listForEachPrev L visit head fuel s = .ok s' ∧ Represents L nodes s'.2 σ ∧ _ :=
      walkList_visits (I := fun s => Represents L nodes s.2 σ) (fun hin => hhead (List.mem_reverse.mp hin))
        (fun s hs => hs.load_last ha hh) (fun s l p r hs hxs => hs.load_before ha hh hxs)
        (fun s p hp => hvisit s p (List.mem_reverse.mp hp)) hm (by rwa [List.length_reverse])
    obtain ⟨s',hrun,-,hfold⟩ := hloop
    exact ⟨s',hrun,hfold⟩

theorem loops_visit_in_order_low : ∃ m, (∃ s', listForEach lowGlobals (fun p s => .ok (s.1 ++ [p],s.2))
      (lowGlobals.freeAreaAt maxOrder) 2 ([],m) = .ok s' ∧
        [lowGlobals.pageAt 0].foldlM (fun s p => .ok (s.1 ++ [p],s.2)) ([],m) = (.ok s' : Except Fault _)) ∧
    ∃ s', listForEachPrev lowGlobals (fun p s => .ok (s.1 ++ [p],s.2))
      (lowGlobals.freeAreaAt maxOrder) 2 ([],m) = .ok s' ∧
        [lowGlobals.pageAt 0].foldlM (fun s p => .ok (s.1 ++ [p],s.2)) ([],m) = (.ok s' : Except Fault _) := by
  obtain ⟨m,hm⟩ := one_entry_represented lowGlobals (fun _ => 0)
  exact ⟨m,loops_visit_in_order (s := ([],m)) (heads_arranged lowGlobals) hm (update_self ..)
    (fun _ _ _ h => ⟨_,rfl,h⟩) (by simp)⟩

theorem safe_loop_settles (ha : Arranged L nodes) (hm : Represents L nodes m σ) (hh : σ head = some xs)
    (hfate : ∀ p ∈ xs, ∀ dest, fate p = .send dest → dest ≠ head ∧ σ dest ≠ none) (hfuel : xs.length < fuel) :
    ∃ m', listForEachSafe L (settle L fate) head fuel ([],m) = .ok (xs,m') ∧
      Represents L nodes m' (settled fate head σ xs []) ∧ ∀ a, (∀ p ∈ nodes, L.Outside a p) → m' a = m a := by
  let I (kept rest : List Address) (s : List Address × Memory) : Prop :=
    xs = s.1 ++ rest ∧ kept = s.1.filter (fate · = .keep) ∧ Represents L nodes s.2 (settled fate head σ s.1 rest) ∧
      ∀ a, (∀ p ∈ nodes, L.Outside a p) → s.2 a = m a
  have hstart : I [] xs ([],m) := ⟨rfl,rfl,(settled_start hh).symm ▸ hm,fun _ _ => rfl⟩
  have hloop : ∃ s' kept', listForEachSafe L (settle L fate) head fuel ([],m) = .ok s' ∧ I kept' [] s' := by
    refine listForEachSafe_visits ?_ ?_ ?_ ?_ hstart hfuel
    · intro kept rest s hs
      have hnodup := (hs.2.2.1.spells.ring settled_head).1
      exact fun hin => (List.nodup_cons.mp hnodup).1 (List.mem_append_right _ hin)
    · exact fun kept p rest s hs => hs.2.2.1.load_entry ha settled_head
    · rintro kept rest s ⟨-,rfl,hm,-⟩
      exact hm.load_head ha settled_head
    · rintro kept p rest s ⟨hxs,-,hm,hframe⟩
      have hp : p ∈ xs := by simp [hxs]
      obtain ⟨m',hrun,hm',hframe'⟩ := settle_settled ha hm (hfate p hp)
      exact ⟨_,_,hrun,by simp [hxs],rfl,hm',fun a hout => (hframe' a hout).trans (hframe a hout)⟩
  obtain ⟨s',kept',hrun,hend,-,hm',hframe⟩ := hloop
  rw [List.append_nil] at hend
  subst hend
  exact ⟨s'.2,hrun,hm',hframe⟩

theorem safe_loop_settles_low : ∃ m m', listForEachSafe lowGlobals (settle lowGlobals fun _ => .drop)
      (lowGlobals.freeAreaAt maxOrder) 2 ([],m) = .ok ([lowGlobals.pageAt 0],m') ∧
    listEmpty lowGlobals (lowGlobals.freeAreaAt maxOrder) m' = .ok true := by
  obtain ⟨m,hm⟩ := one_entry_represented lowGlobals (fun _ => 0)
  have hloop : ∃ m', listForEachSafe lowGlobals (settle lowGlobals fun _ => .drop) (lowGlobals.freeAreaAt maxOrder) 2
      ([],m) = .ok ([lowGlobals.pageAt 0],m') ∧ Represents lowGlobals lowGlobals.heads m' _ ∧ _ :=
    safe_loop_settles (heads_arranged lowGlobals) hm (update_self ..) (fun _ _ _ h => absurd h (by simp)) (by simp)
  obtain ⟨m',hrun,hm',-⟩ := hloop
  exact ⟨m,m',hrun,hm'.answers (heads_arranged lowGlobals) settled_head⟩

theorem listDel_poisons {l r : List Address} (ha : Arranged L nodes) (hm : Represents L nodes m σ)
    (hh : σ head = some (l ++ p :: r)) : ∃ m', listDel L p m = .ok m' ∧ L.load m' (next p) = .ok listPoison := by
  obtain ⟨hp,hbefore,hafter⟩ := around_inside hm.spells hm.inside hh
  obtain ⟨m',hrun,hw,-⟩ := listDel_leads ha follows_self hp hbefore hafter
  exact ⟨m',hrun,(load_next ha hw hp).trans (congrArg Except.ok (update_self ..))⟩

-- After `list_del(pos)` the step `pos = pos->next` reads the poison, where nothing is mapped.
theorem poisoned_round (hnext : L.mapped (next listPoison) = false) (hprev : L.mapped (L.prev listPoison) = false)
    (s : List Address × Memory) :
    walkRound L next (settle L fate) (listPoison,s) = .error (some .outOfBounds) := by
  have hload {a : Address} (h : L.mapped a = false) (m : Memory) : L.load m a = .error .outOfBounds := by
    rw [Layout.load,if_neg (by simp [h])]
  cases hp : fate listPoison with
  | keep =>
    simp only [walkRound,settle,hp]
    exact bind_ok _ rfl |>.trans (congrArg (· >>= _) (congrArg (Except.mapError some) (hload hnext s.2)))
  | drop =>
    simp only [walkRound,settle,hp,listDel,hload hprev]
    rfl
  | send dest =>
    simp only [walkRound,settle,hp,listMoveTail,hload hprev]
    rfl

theorem poisoned_rounds (ha : Arranged L nodes) (hm : Represents L nodes m σ) (hh : σ head = some xs)
    (hnext : L.mapped (next listPoison) = false) (hprev : L.mapped (L.prev listPoison) = false)
    (hfate : ∀ p ∈ xs, fate p = .keep ∨ fate p = .drop) (hxs : xs = seen ++ rest) (hfuel : rest.length < fuel) :
    repeatWhile none (fun t => .ok (t.1 != head)) (walkRound L next (settle L fate)) fuel (rest.headD head,(seen,m)) =
      if ∀ p ∈ rest, fate p = .keep then .ok (head,(xs,m)) else .error (some .outOfBounds) := by
  have hhead : head ∉ xs := (List.nodup_cons.mp (hm.spells.ring hh).1).1
  induction rest generalizing seen fuel with
  | nil =>
    cases fuel with
    | zero => cases hfuel
    | succ fuel =>
      rw [if_pos (by simp),hxs,List.append_nil]
      exact repeatWhile_stop (by simp)
  | cons p rest ih =>
    cases fuel with
    | zero => cases hfuel
    | succ fuel =>
      have hp : p ∈ xs := by simp [hxs]
      have hne : p ≠ head := ne_of_mem_of_not_mem hp hhead
      rcases hfate p hp with hkeep | hdrop
      · have hround : walkRound L next (settle L fate) (p,(seen,m)) = .ok (rest.headD head,(seen ++ [p],m)) := by
          simp only [walkRound,settle,hkeep]
          exact (bind_ok _ rfl).trans (bind_ok _ (congrArg (Except.mapError some) (hm.load_entry ha (hxs ▸ hh))))
        have hrest : xs = seen ++ [p] ++ rest := by simp [hxs]
        have hiff : (∀ q ∈ p :: rest, fate q = .keep) ↔ ∀ q ∈ rest, fate q = .keep := by simp [hkeep]
        rw [List.headD_cons,walk_step hne hround,ih hrest (Nat.lt_of_succ_lt_succ hfuel)]
        simp only [hiff]
      · obtain ⟨m',hdel,hload⟩ := listDel_poisons ha hm (hxs ▸ hh)
        have hround : walkRound L next (settle L fate) (p,(seen,m)) = .ok (listPoison,(seen ++ [p],m')) := by
          simp only [walkRound,settle,hdrop]
          rw [bind_ok _ hdel]
          exact (bind_ok _ rfl).trans (bind_ok _ (congrArg (Except.mapError some) hload))
        have hpoison : listPoison ≠ head := by
          rintro rfl
          have hmapped := (ha.accessible _ (hm.inside _ xs hh _ List.mem_cons_self)).1
          rw [hnext] at hmapped
          cases hmapped
        have hkept : ¬∀ q ∈ p :: rest, fate q = .keep := fun h => by simp [h p List.mem_cons_self] at hdrop
        rw [List.headD_cons,walk_step hne hround,if_neg hkept]
        cases fuel with
        | zero => simp at hfuel
        | succ fuel =>
          rw [repeatWhile,bind_ok _ (congrArg Except.ok (bne_iff_ne.mpr hpoison)),if_pos rfl,
            poisoned_round hnext hprev]
          rfl

theorem plain_loop_needs_whole_list (ha : Arranged L nodes) (hm : Represents L nodes m σ) (hh : σ head = some xs)
    (hnext : L.mapped (next listPoison) = false) (hprev : L.mapped (L.prev listPoison) = false)
    (hfate : ∀ p ∈ xs, fate p = .keep ∨ fate p = .drop) (hfuel : xs.length < fuel) :
    listForEach L (settle L fate) head fuel ([],m) =
      if ∀ p ∈ xs, fate p = .keep then .ok (xs,m) else .error (some .outOfBounds) := by
  have hrounds := poisoned_rounds ha hm hh hnext hprev hfate (List.nil_append xs).symm hfuel
  rw [listForEach,walkList,hm.load_head ha hh]
  refine (bind_ok _ rfl).trans ?_
  rw [hrounds]
  split <;> rfl

-- The page of the poison is not mapped.
def highGlobals : Layout where
  pointerSize := 8
  freeArea := ⟨65536,336⟩
  gMemory := ⟨2097152,1048576⟩
  gPages := ⟨69632,4096⟩
  mapped p := 65536 ≤ p ∧ p < 3145728
  pointerSize_pos := by decide
  freeArea_bytes := rfl
  gMemory_bytes := rfl
  gPages_bytes := rfl
  null_unmapped := rfl
  freeArea_mapped _ hp := decide_eq_true ⟨hp.1,hp.2.trans (by decide)⟩
  gMemory_mapped _ hp := decide_eq_true ⟨le_trans (by decide) hp.1,hp.2⟩
  gPages_mapped _ hp := decide_eq_true ⟨le_trans (by decide) hp.1,hp.2.trans (by decide)⟩
  area_memory := .inl (by decide)
  area_pages := .inl (by decide)
  memory_pages := .inr (by decide)

theorem plain_loop_needs_whole_list_high : ∃ m, listForEach highGlobals (settle highGlobals fun _ => .drop)
    (highGlobals.freeAreaAt maxOrder) 2 ([],m) = .error (some .outOfBounds) := by
  obtain ⟨m,hm⟩ := one_entry_represented highGlobals (fun _ => 0)
  exact ⟨m,plain_loop_needs_whole_list (heads_arranged highGlobals) hm (update_self ..) (by decide) (by decide)
    (fun _ _ => .inr rfl) (by simp)⟩

end OperatingSystemLabs.Pages

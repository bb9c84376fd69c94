import OperatingSystemLabs.Pages.Traversal

namespace OperatingSystemLabs.Pages

open Function Wiring

variable (L : Layout)

-- One line of text; `fuel` bounds each of the loops.
def buddyDump (fuel : Nat) (m : Memory) : Except (Option Fault) String := do
  let parts ← (List.range' minOrder (maxOrder + 1 - minOrder)).mapM fun o => do
    let s ← listForEach L (fun _ s => .ok (s.1 + 1,s.2)) (L.freeAreaAt o) fuel (0,m)
    return toString s.1 ++ ":" ++ toString (2 ^ o / 1024) ++ "K "
  return String.join parts ++ "\n"

def initCalls : List Call :=
  (List.range nPages).map (fun i => .init (L.pageAt i)) ++
    (List.range' minOrder (maxOrder + 1 - minOrder)).map (fun i => .init (L.freeAreaAt i)) ++
      [.add (L.pageAt 0) (L.freeAreaAt maxOrder)]

theorem runCalls_append (calls calls' : List Call) (m : Memory) :
    runCalls L (calls ++ calls') m = runCalls L calls m >>= runCalls L calls' := by
  rw [runCalls,List.foldlM_append]
  rfl

theorem runCalls_init (base : Nat → Address) (indices : List Nat) (m : Memory) :
    runCalls L (indices.map fun i => .init (base i)) m = indices.foldlM (fun m i => initListHead L (base i) m) m := by
  rw [runCalls,List.foldlM_map]
  rfl

theorem buddyInit_calls (m : Memory) : buddyInit L m = runCalls L (initCalls L) m := by
  rw [initCalls,runCalls_append,runCalls_append,runCalls_init,bind_assoc,buddyInit]
  refine bind_congr fun m => ?_
  rw [runCalls_init]
  refine bind_congr fun m => ?_
  rw [runCalls]
  exact (bind_pure _).symm

def blank (σ : Spelling Address) (ps : List Address) : Spelling Address := ps.foldl (fun σ p => update σ p (some [])) σ

def blankLists : Spelling Address := blank (blank (fun _ => none) ((List.range nPages).map L.pageAt))
  ((List.range' minOrder (maxOrder + 1 - minOrder)).map L.freeAreaAt)

def afterInit : Spelling Address :=
  update (update (blankLists L) (L.pageAt 0) none) (L.freeAreaAt maxOrder) (some [L.pageAt 0])

variable {L} {nodes : Set Address} {σ σ' σ'' : Spelling Address} {calls calls' : List Call} {ps : List Address}

theorem Plays.append (hp : Plays nodes σ calls σ') (hp' : Plays nodes σ' calls' σ'') :
    Plays nodes σ (calls ++ calls') σ'' := by
  induction hp with
  | done σ => exact hp'
  | call hc _ ih => exact .call hc (ih hp')

theorem blank_eq (σ : Spelling Address) (ps : List Address) (h : Address) :
    blank σ ps h = if h ∈ ps then some [] else σ h := by
  induction ps generalizing σ with
  | nil => rfl
  | cons p ps ih =>
    rw [blank,List.foldl_cons]
    refine (ih _).trans ?_
    by_cases hp : h = p
    · simp [hp]
    · simp [hp]

theorem blank_plays (hin : ∀ p ∈ ps, p ∈ nodes) (hempty : ∀ h xs, σ h = some xs → xs = []) :
    Plays nodes σ (ps.map .init) (blank σ ps) := by
  induction ps generalizing σ with
  | nil => exact .done σ
  | cons p ps ih =>
    have hun : Unlisted σ p := fun h xs hh => by simp [hempty h xs hh]
    refine .call (.init (hin p (by simp)) hun) (ih (fun q hq => hin q (by simp [hq])) fun h xs hh => ?_)
    by_cases hp : h = p
    · subst hp
      simpa using hh.symm
    · exact hempty h xs ((update_of_ne hp ..).symm.trans hh)

theorem init_plays (L : Layout) : Plays L.heads (fun _ => none) (initCalls L) (afterInit L) := by
  have hpages : ∀ p ∈ (List.range nPages).map L.pageAt, p ∈ L.heads := by
    intro p hp
    obtain ⟨i,hi,rfl⟩ := List.mem_map.mp hp
    exact pageAt_head L (List.mem_range.mp hi)
  have hareas : ∀ p ∈ (List.range' minOrder (maxOrder + 1 - minOrder)).map L.freeAreaAt, p ∈ L.heads := by
    intro p hp
    obtain ⟨i,hi,rfl⟩ := List.mem_map.mp hp
    refine freeAreaAt_head L ?_
    rw [List.mem_range'_1] at hi
    omega
  have hempty {σ : Spelling Address} {ps : List Address} (h : ∀ p xs, σ p = some xs → xs = []) (p : Address)
      (xs : List Address) (hp : blank σ ps p = some xs) : xs = [] := by
    rw [blank_eq] at hp
    split at hp
    · exact (Option.some.inj hp).symm
    · exact h p xs hp
  have hnone (p : Address) (xs : List Address) (h : (fun _ => none : Spelling Address) p = some xs) : xs = [] := by
    cases h
  have hlast : L.freeAreaAt maxOrder ∈ (List.range' minOrder (maxOrder + 1 - minOrder)).map L.freeAreaAt :=
    List.mem_map_of_mem (by decide)
  have hadd : Plays L.heads (blankLists L) [.add (L.pageAt 0) (L.freeAreaAt maxOrder)] (afterInit L) := by
    refine .call (.add (pageAt_head L (by decide)) (fun h xs hh => ?_)
      (pageAt_ne_freeAreaAt L (by decide) le_rfl) ?_) (.done _)
    · rw [hempty (hempty hnone) h xs hh]
      exact List.not_mem_nil
    · rw [blankLists,blank_eq,if_pos hlast]
  have hplays := ((blank_plays hpages hnone).append (blank_plays hareas (hempty hnone))).append hadd
  rw [List.map_map,List.map_map] at hplays
  exact hplays

theorem count_entries {m : Memory} {head : Address} {xs : List Address} {fuel : Nat} (ha : Arranged L nodes)
    (hm : Represents L nodes m σ) (hh : σ head = some xs) (hfuel : xs.length < fuel) :
    listForEach L (fun _ s => .ok (s.1 + 1,s.2)) head fuel ((0 : Nat),m) = .ok (xs.length,m) := by
  have hfold (ys : List Address) (k : Nat) : ys.foldlM (fun (s : Nat × Memory) _ => Except.ok (s.1 + 1,s.2)) (k,m) =
      (.ok (k + ys.length,m) : Except Fault (Nat × Memory)) := by
    induction ys generalizing k with
    | nil => rfl
    | cons y ys ih =>
      rw [List.foldlM_cons,List.length_cons,Nat.add_comm ys.length,← Nat.add_assoc]
      exact ih (k + 1)
  have hloop : ∃ s', listForEach L (fun _ s => .ok (s.1 + 1,s.2)) head fuel ((0 : Nat),m) = .ok s' ∧ s'.2 = m ∧
      xs.foldlM (fun (s : Nat × Memory) _ => Except.ok (s.1 + 1,s.2)) (0,m) =
        (.ok s' : Except Fault (Nat × Memory)) := by
    refine walkList_visits (I := fun s => s.2 = m) (List.nodup_cons.mp (hm.spells.ring hh).1).1 ?_ ?_ ?_ rfl hfuel
    · rintro s rfl
      exact hm.load_head ha hh
    · rintro s l p r rfl hxs
      exact hm.load_entry ha (hxs ▸ hh)
    · exact fun s p _ hs => ⟨_,rfl,hs⟩
  obtain ⟨s',hrun,-,hs'⟩ := hloop
  rw [hfold,Nat.zero_add] at hs'
  cases hs'
  exact hrun

theorem mapM_ok {ε α β : Type} {f : α → Except ε β} {g : α → β} {l : List α} (h : ∀ x ∈ l, f x = .ok (g x)) :
    l.mapM f = .ok (l.map g) := by
  induction l with
  | nil => rfl
  | cons x l ih =>
    rw [List.mapM_cons,bind_ok _ (h x (by simp)),bind_ok _ (ih fun y hy => h y (by simp [hy]))]
    rfl

theorem buddy_dump_reports {lists : Nat → List Address} {fuel : Nat} (hp : Plays L.heads (afterInit L) calls σ)
    (hlists : ∀ o, minOrder ≤ o → o ≤ maxOrder → σ (L.freeAreaAt o) = some (lists o) ∧ (lists o).length < fuel)
    (m : Memory) :
    ∃ m', (buddyInit L m >>= runCalls L calls) = .ok m' ∧ buddyDump L fuel m' =
      .ok (String.join ((List.range' minOrder (maxOrder + 1 - minOrder)).map fun o =>
        toString (lists o).length ++ ":" ++ toString (2 ^ o / 1024) ++ "K ") ++ "\n") := by
  obtain ⟨m',hrun,hm',-⟩ :=
    plays_represented (heads_arranged L) (represents_none L L.heads m) ((init_plays L).append hp)
  rw [runCalls_append,← buddyInit_calls] at hrun
  refine ⟨m',hrun,?_⟩
  rw [buddyDump]
  refine (bind_ok _ (mapM_ok fun o ho => ?_)).trans rfl
  rw [List.mem_range'_1] at ho
  obtain ⟨hlist,hfuel⟩ := hlists o ho.1 (by omega)
  rw [bind_ok _ (count_entries (heads_arranged L) hm' hlist hfuel)]
  rfl

theorem afterInit_areas (L : Layout) {o : Nat} (ho : minOrder ≤ o) (ho' : o ≤ maxOrder) :
    afterInit L (L.freeAreaAt o) = some (if o = maxOrder then [L.pageAt 0] else []) := by
  by_cases hlast : o = maxOrder
  · subst hlast
    rw [if_pos rfl]
    exact update_self ..
  · have hne : L.freeAreaAt o ≠ L.freeAreaAt maxOrder := (slot_apart L.freeArea.start _ L.pointerSize_pos hlast).1
    have hpage : L.freeAreaAt o ≠ L.pageAt 0 := (pageAt_ne_freeAreaAt L (by decide) ho').symm
    have hmem : L.freeAreaAt o ∈ (List.range' minOrder (maxOrder + 1 - minOrder)).map L.freeAreaAt := by
      refine List.mem_map_of_mem (List.mem_range'_1.mpr ⟨ho,?_⟩)
      omega
    rw [afterInit,update_of_ne hne,update_of_ne hpage,blankLists,blank_eq,if_pos hmem,if_neg hlast]

theorem buddy_dump_reports_low : ∃ m', buddyInit lowGlobals (fun _ => 0) = .ok m' ∧
    buddyDump lowGlobals 2 m' = .ok "0:4K 0:8K 0:16K 0:32K 0:64K 0:128K 0:256K 0:512K 1:1024K \n" := by
  have hlists : ∀ o, minOrder ≤ o → o ≤ maxOrder → afterInit lowGlobals (lowGlobals.freeAreaAt o) =
      some (if o = maxOrder then [lowGlobals.pageAt 0] else []) ∧
      (if o = maxOrder then [lowGlobals.pageAt 0] else []).length < 2 :=
    fun o ho ho' => ⟨afterInit_areas lowGlobals ho ho',by split <;> simp⟩
  have htext : String.join ((List.range' minOrder (maxOrder + 1 - minOrder)).map fun o =>
      toString (if o = maxOrder then [lowGlobals.pageAt 0] else []).length ++ ":" ++ toString (2 ^ o / 1024) ++
        "K ") ++ "\n" = "0:4K 0:8K 0:16K 0:32K 0:64K 0:128K 0:256K 0:512K 1:1024K \n" := rfl
  obtain ⟨m',hrun,hdump⟩ := buddy_dump_reports (.done _) hlists (fun _ => 0)
  rw [show runCalls lowGlobals [] = pure from rfl,bind_pure] at hrun
  exact ⟨m',hrun,hdump.trans (congrArg Except.ok htext)⟩

end OperatingSystemLabs.Pages

import OperatingSystemLabs.Scheduler.Protocol

namespace OperatingSystemLabs.Scheduler

open Insertion Keyed

variable {β : Type} {key : Int → JobT → β}
variable {scheme : SchemeT} {cores : Nat} {call : Call} {b b' : Board} {ret : Int} {jobs : List JobT}

structure Ranking (key : Int → JobT → β) : Prop where
  started : ∀ id t run pri c, c ≠ -1 →
    key t ((JobT.new id t run pri).started c t) = key t (JobT.new id t run pri)
  preempting : ∀ id t run pri c, c ≠ -1 →
    key t ((JobT.new id t run pri).preempting c t) = key t (JobT.new id t run pri)
  charged : ∀ t j, Running j → key t (j.charged t) = key t j
  preempted : ∀ t j, Running j → key t ((j.charged t).preempted t) = key t j
  woken : ∀ t j c pause, j.coreId = -1 → c ≠ -1 → key t (j.woken c t pause) = key t j

theorem wake_keys {core time pause : Int} (hk : Ranking key) (h : Wake core time pause b ret b')
    (hc : core ≠ -1) : b'.jobs.map (key time) = b.jobs.map (key time) := by
  cases h with
  | @woke a z w hb _ hw =>
    rw [hb,List.map_append,List.map_append,List.map_cons,List.map_cons,hk.woken time w core pause hw hc]
  | idled _ => rfl

theorem map_key_charged (hk : Ranking key) (t : Int) {front : List JobT} (h : ∀ j ∈ front, Running j) :
    (front.map (·.charged t)).map (key t) = front.map (key t) := by
  rw [List.map_map]
  exact List.map_congr_left (fun j hj => hk.charged t j (h j hj))

variable [LinearOrder β]

def Comparable (scheme : SchemeT) (cores : Nat) (key : Int → JobT → β) (jobs : List JobT) : Call → Prop
  | .newJob id t run pri =>
      (¬ Full cores jobs → ∀ j ∈ jobs, Reads scheme.compare (key t) (JobT.new id t run pri) j) ∧
      (Full cores jobs → ∀ j ∈ jobs, Reads scheme.compare (key t) (JobT.new id t run pri)
        (if Running j then j.charged t else j))
  | _ => True

theorem reads_charged {cmp : JobT → JobT → Int} {k : JobT → β} {x : JobT} {t : Int}
    {front wait : List JobT} (hrun : ∀ j ∈ front, Running j) (hwait : ∀ j ∈ wait, j.coreId = -1)
    (h : ∀ j ∈ front ++ wait, Reads cmp k x (if Running j then j.charged t else j)) :
    ∀ y ∈ front.map (·.charged t) ++ wait, Reads cmp k x y := by
  intro y hy
  rcases List.mem_append.mp hy with hy | hy
  · obtain ⟨j,hj,rfl⟩ := List.mem_map.mp hy
    have hread := h j (List.mem_append_left _ hj)
    rwa [if_pos (hrun j hj)] at hread
  · have hread := h y (List.mem_append_right _ hy)
    rwa [if_neg (fun hr : Running y => hr (hwait y hy))] at hread

theorem step_sorted (hk : Ranking key) (hp : scheme.preemptive = true)
    (h : Step scheme cores call b ret b') (ha : call.Admissible scheme cores b.jobs)
    (hc : Comparable scheme cores key b.jobs call)
    (hsort : Sorted (key call.time) b.jobs) : Sorted (key call.time) b'.jobs := by
  cases h with
  | @startIdle b id t run pri _ l r hb hplaced h0 hcore hidle _ =>
    have hfree : ¬ Full cores b.jobs := by
      intro hf
      obtain ⟨j,hj,hjc⟩ := hf ret h0 hcore
      exact hidle j hj hjc
    have hnew := placed_sorted hplaced (hb ▸ hsort) (hb ▸ hc.1 hfree)
    refine sorted_of_map ?_ hnew
    rw [List.map_append,List.map_append,List.map_cons,List.map_cons]
    rw [Call.time,hk.started id t run pri ret (by omega)]
  | @preempt b id t run pri front l r wait v _ hb _ hf hplaced hfull hrun hv hwait =>
    have hcharged : Sorted (key t) (l ++ (r ++ v.charged t :: wait)) := by
      refine sorted_of_map ?_ hsort
      rw [hb,← List.append_assoc,← hf,List.map_append,List.map_append,List.map_cons,List.map_cons]
      rw [map_key_charged hk t hrun,hk.charged t v hv]
    have hreads : ∀ y ∈ l ++ (r ++ v.charged t :: wait),
        Reads scheme.compare (key t) (JobT.new id t run pri) y := by
      have hfront : ∀ j ∈ front ++ [v], Running j := by
        intro j hj
        rcases List.mem_append.mp hj with hj | hj
        · exact hrun j hj
        · rwa [List.mem_singleton.mp hj]
      have hall := reads_charged hfront hwait (fun j hj => hc.2 hfull j (by simpa [hb] using hj))
      rwa [List.map_append,hf,List.append_assoc,List.append_assoc] at hall
    refine sorted_of_map ?_ (placed_sorted hplaced hcharged hreads)
    simp only [List.map_append,List.map_cons,Call.time]
    rw [hk.preempting id t run pri v.coreId hv,hk.preempted t v hv,hk.charged t v hv]
  | @queueBehind b id t run pri front l r _ hb _ hplaced hfull hrun hwait =>
    have hcharged : Sorted (key t) ((front.map (·.charged t) ++ l) ++ r) := by
      refine sorted_of_map ?_ hsort
      simp only [hb,List.append_assoc,List.map_append,map_key_charged hk t hrun]
    have hreads : ∀ y ∈ (front.map (·.charged t) ++ l) ++ r,
        Reads scheme.compare (key t) (JobT.new id t run pri) y := by
      rw [List.append_assoc]
      exact reads_charged hrun hwait (hb ▸ hc.2 hfull)
    have := placed_sorted hplaced hcharged hreads
    rwa [List.append_assoc] at this
  | queueUp hnp => exact absurd hp (by simp [hnp])
  | @finish b b' c id t ret l r f hb _ _ hw =>
    have hrest : Sorted (key t) (l ++ r) :=
      (hb ▸ hsort).sublist ((List.sublist_cons_self f r).append_left l)
    exact sorted_of_map (wake_keys hk hw ha.1).symm hrest
  | expire => exact absurd hp (by simp [ha.1,SchemeT.preemptive])
  | expireIdle => exact hsort

theorem step_sorted_waiting {key : JobT → β} (hk : Ranking (fun _ => key)) (hp : scheme.preemptive = false)
    (hrr : scheme ≠ .rr) (h : Step scheme cores call b ret b') (ha : call.Admissible scheme cores b.jobs)
    (hreads : ∀ id t run pri, call = .newJob id t run pri →
      ∀ j ∈ b.jobs, Reads scheme.compare key (JobT.new id t run pri) j)
    (hsort : Sorted key b.jobs) : Sorted key b'.jobs := by
  cases h with
  | @startIdle b id t run pri _ l r hb hplaced h0 =>
    have hnew := placed_sorted hplaced (hb ▸ hsort) (hb ▸ hreads id t run pri rfl)
    refine sorted_of_map ?_ hnew
    rw [List.map_append,List.map_append,List.map_cons,List.map_cons,
      hk.started id t run pri ret (by omega)]
  | preempt hpre => exact absurd (hpre.symm.trans hp) (by decide)
  | queueBehind hpre => exact absurd (hpre.symm.trans hp) (by decide)
  | @queueUp b id t run pri l r _ hb hplaced =>
    exact placed_sorted hplaced (hb ▸ hsort) (hb ▸ hreads id t run pri rfl)
  | @finish b b' c id t ret l r f hb _ _ hw =>
    have hrest : Sorted key (l ++ r) := (hb ▸ hsort).sublist ((List.sublist_cons_self f r).append_left l)
    exact sorted_of_map (wake_keys hk hw ha.1).symm hrest
  | expire => exact absurd ha.1 hrr
  | expireIdle => exact hsort

theorem sorted_running_le {t : Int} (hsort : Sorted (key t) jobs) (hl : Leading jobs) {r w : JobT}
    (hr : r ∈ jobs) (hw : w ∈ jobs) (hrun : Running r) (hwait : w.coreId = -1) :
    key t r ≤ key t w := by
  obtain ⟨front,wait,rfl,hf,hwt⟩ := leading_split hl
  have hrf : r ∈ front := (List.mem_append.mp hr).resolve_right (fun h => hrun (hwt r h))
  have hww : w ∈ wait := (List.mem_append.mp hw).resolve_left (fun h => hf w h hwait)
  exact (List.pairwise_append.mp hsort).2.2 r hrf w hww

theorem victim_last (key : Int → JobT → β) {id t run pri : Int} (h : Step scheme cores (.newJob id t run pri) b ret b')
    (hs : Sound cores b.jobs) (hsort : Sorted (key t) b.jobs) {v : JobT} (hv : v ∈ b.jobs)
    (hrun : Running v) (hret : v.coreId = ret) :
    ∀ k ∈ b.jobs, Running k → key t k ≤ key t v := by
  cases h with
  | startIdle _ _ _ _ hidle _ => exact absurd hret (hidle v hv)
  | @preempt _ _ _ _ _ front l r wait x _ hb _ _ _ _ hf hx hwait =>
    have hxv : x = v := hs.core_injective (by simp [hb]) hv hret.symm hx
    subst hxv
    intro k hk hkr
    rw [hb] at hk hsort
    rcases List.mem_append.mp hk with hk | hk
    · exact (List.pairwise_append.mp hsort).2.2 k hk x (by simp)
    · rcases List.mem_cons.mp hk with rfl | hk
      · exact le_refl _
      · exact absurd (hwait k hk) hkr
  | queueBehind => exact absurd hret hrun
  | queueUp => exact absurd hret hrun

theorem woken_first {core id t : Int} (h : Step scheme cores (.jobFinished core id t) b ret b')
    (hs : Sound cores b.jobs) (ha : (Call.jobFinished core id t).Admissible scheme cores b.jobs)
    (hsort : Sorted (key t) b.jobs) {w : JobT} (hw : w ∈ b.jobs) (hret : w.jobId = ret) :
    ∀ k ∈ b.jobs, k.coreId = -1 → key t w ≤ key t k := by
  cases h with
  | @finish _ _ _ _ _ _ l r f hb hfid hfc hwake =>
    intro k hk hkc
    have hrest : Sorted (key t) (l ++ r) :=
      (hb ▸ hsort).sublist ((List.sublist_cons_self f r).append_left l)
    have hkf : k ≠ f := by
      rintro rfl
      exact ha.1 (hfc.symm.trans hkc)
    have hklr : k ∈ l ++ r := by
      rw [hb] at hk
      exact (mem_middle.mp hk).resolve_left hkf
    generalize hrl : l ++ r = rest at hwake hrest hklr
    cases hwake with
    | @woke a z x hx hrun _ =>
      simp only at hx
      have hxw : x = w := by
        refine hs.job_injective ?_ hw hret.symm
        rw [hb]
        exact mem_split (hrl ▸ hx ▸ by simp)
      subst hxw
      rw [hx] at hrest hklr
      rcases List.mem_append.mp hklr with hk | hk
      · exact absurd hkc (hrun k hk)
      · rcases List.mem_cons.mp hk with rfl | hk
        · exact le_refl _
        · exact (List.pairwise_cons.mp (List.pairwise_append.mp hrest).2.1).1 k hk
    | idled _ => exact absurd hret (Table.toRoster hs |>.numbered (entry 0 w) (List.mem_map_of_mem hw))

theorem running_iff_rank (key : Int → JobT → β) (t : Int) (hs : Sound cores jobs) (hl : Leading jobs)
    (hsort : jobs.Pairwise (fun a b => key t a < key t b)) {j : JobT} (hj : j ∈ jobs) :
    Running j ↔ (jobs.filter (key t · < key t j)).length < min cores jobs.length := by
  obtain ⟨l,r,rfl⟩ := List.append_of_mem hj
  rw [filter_below hsort,← running_count hs,List.filter_append,List.filter_cons,List.length_append]
  have hle := List.length_filter_le (fun j => decide (Running j)) l
  constructor
  · intro hr
    have hall : ∀ k ∈ l, Running k :=
      fun k hk => (List.pairwise_append.mp hl).2.2 k hk j (by simp) hr
    rw [filter_self (fun k hk => decide_eq_true (hall k hk)),if_pos (decide_eq_true hr),List.length_cons]
    omega
  · intro hlt
    by_contra hr
    have hnone : r.filter (fun k => decide (Running k)) = [] := by
      refine List.filter_eq_nil_iff.mpr (fun k hk => ?_)
      have := (List.pairwise_cons.mp (List.pairwise_append.mp hl).2.1).1 k hk
      simpa using fun h => hr (this h)
    rw [hnone,if_neg (by simpa using hr),List.length_nil] at hlt
    omega

end OperatingSystemLabs.Scheduler

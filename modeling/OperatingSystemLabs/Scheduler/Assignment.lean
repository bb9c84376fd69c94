import OperatingSystemLabs.Foundation.Keyed
import OperatingSystemLabs.Scheduler.Board

namespace OperatingSystemLabs.Scheduler

open Keyed

structure Entry where
  jobId : Int
  coreId : Int
  left : Int
  deriving DecidableEq, Repr

def remaining (time : Int) (j : JobT) : Int :=
  if j.coreId = -1 then j.timeRemaining else j.timeRemaining - (time - j.startTime)

def entry (time : Int) (j : JobT) : Entry := ⟨j.jobId,j.coreId,remaining time j⟩

def vacate (core : Int) (e : Entry) : Entry := if e.coreId = core then { e with coreId := -1 } else e

def occupy (id core : Int) (e : Entry) : Entry := if e.jobId = id then { e with coreId := core } else e

def reassign : Call → Int → List Entry → List Entry
  | .newJob id _ run _, ret, es => ⟨id,ret,run⟩ :: es.map (vacate ret)
  | .jobFinished core id _, ret, es => (es.filter (·.jobId ≠ id)).map (occupy ret core)
  | .quantumExpired core _, ret, es => (es.map (vacate core)).map (occupy ret core)

structure Roster (cores : Nat) (es : List Entry) : Prop where
  valid : ∀ e ∈ es, e.coreId = -1 ∨ (0 ≤ e.coreId ∧ e.coreId < cores)
  exclusive : es.Pairwise (fun a b => a.coreId = b.coreId → a.coreId = -1)
  distinct : (es.map Entry.jobId).Nodup
  numbered : ∀ e ∈ es, e.jobId ≠ -1

def Occupied (cores : Nat) (es : List Entry) : Prop :=
  ∀ c : Int, 0 ≤ c → c < cores → ∃ e ∈ es, e.coreId = c

structure Table (cores : Nat) (es : List Entry) : Prop extends Roster cores es where
  busy : (∃ e ∈ es, e.coreId = -1) → Occupied cores es

def Admits (cores : Nat) : Call → List Entry → Prop
  | .newJob id _ _ _, es => id ≠ -1 ∧ ∀ e ∈ es, e.jobId ≠ id
  | .jobFinished core id _, es => core ≠ -1 ∧ ∃ e ∈ es, e.jobId = id ∧ e.coreId = core
  | .quantumExpired core _, _ => 0 ≤ core ∧ core < cores

def Answer (cores : Nat) : Call → Int → List Entry → Prop
  | .newJob _ _ _ _, ret, es => (ret = -1 ∧ Occupied cores es) ∨
      (0 ≤ ret ∧ ret < cores ∧ ((∀ e ∈ es, e.coreId ≠ ret) ∨ Occupied cores es))
  | .jobFinished _ id _, ret, es => (ret = -1 ∧ ∀ e ∈ es, e.jobId ≠ id → e.coreId ≠ -1) ∨
      ∃ e ∈ es, e.jobId = ret ∧ e.coreId = -1
  | .quantumExpired core _, ret, es => (ret = -1 ∧ ∀ e ∈ es, e.coreId ≠ core) ∨
      ((∃ e ∈ es, e.coreId = core) ∧ ∃ e ∈ es, e.jobId = ret ∧ (e.coreId = -1 ∨ e.coreId = core))

def Sound (cores : Nat) (jobs : List JobT) : Prop := Table cores (jobs.map (entry 0))

@[simp] theorem entry_jobId (time : Int) (j : JobT) : (entry time j).jobId = j.jobId := rfl

@[simp] theorem entry_coreId (time : Int) (j : JobT) : (entry time j).coreId = j.coreId := rfl

@[simp] theorem vacate_jobId (core : Int) (e : Entry) : (vacate core e).jobId = e.jobId := by
  unfold vacate
  split <;> rfl

@[simp] theorem occupy_jobId (id core : Int) (e : Entry) : (occupy id core e).jobId = e.jobId := by
  unfold occupy
  split <;> rfl

theorem vacate_coreId (core : Int) (e : Entry) :
    (vacate core e).coreId = if e.coreId = core then -1 else e.coreId := by
  unfold vacate
  split <;> rfl

theorem occupy_coreId (id core : Int) (e : Entry) :
    (occupy id core e).coreId = if e.jobId = id then core else e.coreId := by
  unfold occupy
  split <;> rfl

theorem vacate_of_ne {core : Int} {e : Entry} (h : e.coreId ≠ core) : vacate core e = e := if_neg h

theorem vacate_idle (e : Entry) : vacate (-1) e = e := by
  unfold vacate
  split
  · next h => rw [← h]
  · rfl

theorem occupy_of_ne {id core : Int} {e : Entry} (h : e.jobId ≠ id) : occupy id core e = e := if_neg h

theorem map_vacate {core : Int} {es : List Entry} (h : ∀ e ∈ es, e.coreId ≠ core) :
    es.map (vacate core) = es :=
  map_self (fun e he => vacate_of_ne (h e he))

theorem map_occupy {id core : Int} {es : List Entry} (h : ∀ e ∈ es, e.jobId ≠ id) :
    es.map (occupy id core) = es :=
  map_self (fun e he => occupy_of_ne (h e he))

theorem entry_started {id t run pri c : Int} (h : c ≠ -1) :
    entry t ((JobT.new id t run pri).started c t) = ⟨id,c,run⟩ := by
  simp [entry,remaining,JobT.new,JobT.started,h]

theorem entry_preempting {id t run pri c : Int} (h : c ≠ -1) :
    entry t ((JobT.new id t run pri).preempting c t) = ⟨id,c,run⟩ := by
  simp [entry,remaining,JobT.new,JobT.preempting,h]

theorem entry_new (id t run pri : Int) : entry t (JobT.new id t run pri) = ⟨id,-1,run⟩ := by
  simp [entry,remaining,JobT.new]

theorem entry_charged {j : JobT} (t : Int) (h : Running j) : entry t (j.charged t) = entry t j := by
  simp only [Running] at h
  simp [entry,remaining,JobT.charged,h]

theorem entry_preempted {j : JobT} (t : Int) (h : Running j) :
    entry t ((j.charged t).preempted t) = vacate j.coreId (entry t j) := by
  simp only [Running] at h
  simp [entry,remaining,JobT.charged,JobT.preempted,vacate,h]

theorem entry_expired {j : JobT} (t : Int) (h : Running j) :
    entry t (j.expired t) = vacate j.coreId (entry t j) := by
  simp only [Running] at h
  simp [entry,remaining,JobT.expired,vacate,h]

theorem entry_woken {j : JobT} {c : Int} (t pause : Int) (h : j.coreId = -1) (hc : c ≠ -1) :
    entry t (j.woken c t pause) = occupy j.jobId c (entry t j) := by
  simp [entry,remaining,JobT.woken,occupy,h,hc]

theorem map_entry_charged {front : List JobT} (t : Int) (h : ∀ j ∈ front, Running j) :
    (front.map (·.charged t)).map (entry t) = front.map (entry t) := by
  rw [List.map_map]
  exact List.map_congr_left (fun j hj => entry_charged t (h j hj))

theorem entry_time_jobId (t : Int) (jobs : List JobT) :
    (jobs.map (entry t)).map Entry.jobId = jobs.map JobT.jobId := by
  rw [List.map_map]
  rfl

theorem roster_perm {cores : Nat} {es es' : List Entry} (hp : es.Perm es') (h : Roster cores es) :
    Roster cores es' where
  valid := fun e he => h.valid e (hp.mem_iff.mpr he)
  exclusive := hp.pairwise h.exclusive (fun hxy he => by rw [he]; exact hxy he.symm)
  distinct := (hp.map _).nodup_iff.mp h.distinct
  numbered := fun e he => h.numbered e (hp.mem_iff.mpr he)

theorem table_perm {cores : Nat} {es es' : List Entry} (hp : es.Perm es') (h : Table cores es) :
    Table cores es' where
  toRoster := roster_perm hp h.toRoster
  busy := by
    rintro ⟨w,hw,hwc⟩ c h0 hc
    obtain ⟨e,he,hec⟩ := h.busy ⟨w,hp.mem_iff.mpr hw,hwc⟩ c h0 hc
    exact ⟨e,hp.mem_iff.mp he,hec⟩

section Rosters

variable {cores : Nat} {es : List Entry}

theorem Roster.core_injective (h : Roster cores es) {a b : Entry} (ha : a ∈ es) (hb : b ∈ es)
    (hc : a.coreId = b.coreId) (hr : a.coreId ≠ -1) : a = b := by
  by_contra hne
  have hsym : Std.Symm (fun a b : Entry => a.coreId = b.coreId → a.coreId = -1) :=
    ⟨fun x y hxy he => he ▸ hxy he.symm⟩
  exact hr (h.exclusive.forall ha hb hne hc)

theorem Roster.job_injective (h : Roster cores es) {a b : Entry} (ha : a ∈ es) (hb : b ∈ es)
    (he : a.jobId = b.jobId) : a = b := key_injective h.distinct ha hb he

theorem Roster.split_ne {l r : List Entry} {e : Entry} (h : Roster cores (l ++ e :: r))
    (hr : e.coreId ≠ -1) : ∀ x ∈ l ++ r, x.coreId ≠ e.coreId := by
  intro x hx hc
  have hxe : x = e := h.core_injective (mem_split hx) (by simp) hc (by rw [hc]; exact hr)
  exact key_ne_of_split h.distinct x hx (by rw [hxe])

theorem Roster.filter (h : Roster cores es) (p : Entry → Bool) : Roster cores (es.filter p) where
  valid := fun e he => h.valid e (List.mem_of_mem_filter he)
  exclusive := h.exclusive.filter p
  distinct := h.distinct.sublist (List.filter_sublist.map _)
  numbered := fun e he => h.numbered e (List.mem_of_mem_filter he)

theorem Roster.vacated (h : Roster cores es) (core : Int) : Roster cores (es.map (vacate core)) where
  valid := by
    simp only [List.mem_map,forall_exists_index,and_imp,forall_apply_eq_imp_iff₂,vacate_coreId]
    intro e he
    split
    · exact .inl rfl
    · exact h.valid e he
  exclusive := by
    rw [List.pairwise_map]
    refine h.exclusive.imp (fun {a b} hab => ?_)
    simp only [vacate_coreId]
    split <;> split <;> simp_all
  distinct := by
    have hm : (es.map (vacate core)).map Entry.jobId = es.map Entry.jobId := by
      rw [List.map_map]
      exact List.map_congr_left (fun e _ => vacate_jobId core e)
    exact hm ▸ h.distinct
  numbered := by simpa using h.numbered

theorem vacated_ne {core : Int} (hc : core ≠ -1) : ∀ e ∈ es.map (vacate core), e.coreId ≠ core := by
  simp only [List.mem_map,forall_exists_index,and_imp,forall_apply_eq_imp_iff₂,vacate_coreId]
  intro e _
  split
  · exact hc.symm
  · assumption

theorem Roster.occupied (h : Roster cores es) {core : Int} (id : Int) (h0 : 0 ≤ core)
    (hc : core < cores) (hfree : ∀ e ∈ es, e.coreId ≠ core) :
    Roster cores (es.map (occupy id core)) where
  valid := by
    simp only [List.mem_map,forall_exists_index,and_imp,forall_apply_eq_imp_iff₂,occupy_coreId]
    intro e he
    split
    · exact .inr ⟨h0,hc⟩
    · exact h.valid e he
  exclusive := by
    rw [List.pairwise_map]
    have hd : es.Pairwise (fun a b => a.jobId ≠ b.jobId) := List.pairwise_map.mp h.distinct
    refine (h.exclusive.and hd).imp_of_mem (fun {a b} ha hb hab => ?_)
    have hfa := hfree a ha
    have hfb := hfree b hb
    simp only [occupy_coreId]
    split <;> split <;> grind
  distinct := by
    have hm : (es.map (occupy id core)).map Entry.jobId = es.map Entry.jobId := by
      rw [List.map_map]
      exact List.map_congr_left (fun e _ => occupy_jobId id core e)
    exact hm ▸ h.distinct
  numbered := by simpa using h.numbered

theorem Roster.arrived (h : Roster cores es) {id ret : Int} (run : Int) (h0 : id ≠ -1)
    (hid : ∀ e ∈ es, e.jobId ≠ id) (hret : ret = -1 ∨ (0 ≤ ret ∧ ret < cores)) :
    Roster cores (⟨id,ret,run⟩ :: es.map (vacate ret)) where
  valid := by
    intro e he
    rcases List.mem_cons.mp he with rfl | he
    · exact hret
    · exact (h.vacated ret).valid e he
  exclusive := by
    refine List.pairwise_cons.mpr ⟨?_,(h.vacated ret).exclusive⟩
    intro e he heq
    by_contra hne
    exact vacated_ne hne e he heq.symm
  distinct := by
    refine List.nodup_cons.mpr ⟨?_,(h.vacated ret).distinct⟩
    simpa using hid
  numbered := by
    intro e he
    rcases List.mem_cons.mp he with rfl | he
    · exact h0
    · exact (h.vacated ret).numbered e he

end Rosters

theorem Table.of_time {cores : Nat} {jobs : List JobT} (t u : Int)
    (h : Table cores (jobs.map (entry t))) : Table cores (jobs.map (entry u)) where
  valid := by simpa using h.valid
  exclusive := by simpa [List.pairwise_map] using h.exclusive
  distinct := by simpa only [entry_time_jobId] using h.distinct
  numbered := by simpa using h.numbered
  busy := by simpa [Occupied] using h.busy

theorem Sound.table {cores : Nat} {jobs : List JobT} (h : Sound cores jobs) (t : Int) :
    Table cores (jobs.map (entry t)) := Table.of_time 0 t h

theorem Table.sound {cores : Nat} {jobs : List JobT} {t : Int}
    (h : Table cores (jobs.map (entry t))) : Sound cores jobs := Table.of_time t 0 h

section Reassignment

variable {cores : Nat} {es : List Entry} {ret : Int}

theorem table_newJob {id t run pri : Int} (h : Table cores es)
    (ha : Admits cores (.newJob id t run pri) es) (hr : Answer cores (.newJob id t run pri) ret es) :
    Table cores (reassign (.newJob id t run pri) ret es) where
  toRoster := h.toRoster.arrived run ha.1 ha.2 (hr.imp And.left (fun k => ⟨k.1,k.2.1⟩))
  busy := by
    rintro ⟨w,hw,hwc⟩ c h0 hc
    have keep (hf : Occupied cores es) : ∃ e ∈ reassign (.newJob id t run pri) ret es, e.coreId = c := by
      obtain ⟨e,he,rfl⟩ := hf c h0 hc
      by_cases heq : e.coreId = ret
      · exact ⟨_,List.mem_cons_self,heq.symm⟩
      · exact ⟨e,List.mem_cons_of_mem _ (List.mem_map.mpr ⟨e,he,vacate_of_ne heq⟩),rfl⟩
    rcases hr with ⟨-,hf⟩ | ⟨hr0,hrc,hidle | hf⟩
    · exact keep hf
    · have hsame : es.map (vacate ret) = es := map_vacate hidle
      simp only [reassign,hsame,List.mem_cons] at hw
      rcases hw with rfl | hw
      · simp only at hwc
        omega
      · obtain ⟨e,he,hec⟩ := h.busy ⟨w,hw,hwc⟩ ret hr0 hrc
        exact absurd hec (hidle e he)
    · exact keep hf

theorem table_jobFinished {core id t : Int} (h : Table cores es)
    (ha : Admits cores (.jobFinished core id t) es) (hr : Answer cores (.jobFinished core id t) ret es) :
    Table cores (reassign (.jobFinished core id t) ret es) := by
  obtain ⟨hne,f,hf,hfid,hfc⟩ := ha
  have hcore : 0 ≤ core ∧ core < cores := by
    rcases h.valid f hf with hv | hv
    · exact absurd (hfc.symm.trans hv) hne
    · exact hfc ▸ hv
  have hfree : ∀ e ∈ es.filter (·.jobId ≠ id), e.coreId ≠ core := by
    intro e he hec
    simp only [List.mem_filter,decide_eq_true_eq] at he
    have := h.core_injective he.1 hf (hec.trans hfc.symm) (by rw [hec]; exact hne)
    exact he.2 (this ▸ hfid)
  refine ⟨(h.toRoster.filter _).occupied ret hcore.1 hcore.2 hfree,?_⟩
  rintro ⟨w,hw,hwc⟩ c h0 hc
  simp only [reassign,List.mem_map,List.mem_filter,decide_eq_true_eq] at hw ⊢
  obtain ⟨w0,⟨hw0,hw0id⟩,rfl⟩ := hw
  rw [occupy_coreId] at hwc
  rcases hr with ⟨-,hrun⟩ | ⟨s,hs,hsid,hsc⟩
  · split at hwc
    · exact absurd hwc hne
    · exact absurd hwc (hrun w0 hw0 hw0id)
  · obtain ⟨e,he,hec⟩ := h.busy ⟨s,hs,hsc⟩ c h0 hc
    by_cases heid : e.jobId = id
    · -- the finished job held `c`, which the woken one takes over
      have hef : e = f := h.job_injective he hf (heid.trans hfid.symm)
      have hsne : s.jobId ≠ id := by
        intro heq
        have := h.job_injective hs hf (heq.trans hfid.symm)
        subst this
        exact hne (hfc.symm.trans hsc)
      refine ⟨_,⟨s,⟨hs,hsne⟩,rfl⟩,?_⟩
      rw [occupy_coreId,if_pos hsid,← hec,hef,hfc]
    · refine ⟨_,⟨e,⟨he,heid⟩,rfl⟩,?_⟩
      have hne' : e.jobId ≠ ret := by
        intro heq
        have := h.job_injective he hs (heq.trans hsid.symm)
        subst this
        omega
      rw [occupy_coreId,if_neg hne',hec]

theorem table_quantumExpired {core t : Int} (h : Table cores es)
    (ha : Admits cores (.quantumExpired core t) es) (hr : Answer cores (.quantumExpired core t) ret es) :
    Table cores (reassign (.quantumExpired core t) ret es) := by
  obtain ⟨hcore0,hcore⟩ := ha
  refine ⟨(h.toRoster.vacated core).occupied ret hcore0 hcore (vacated_ne (by omega)),?_⟩
  rcases hr with ⟨rfl,hnone⟩ | ⟨-,s,hs,hsid,hsc⟩
  · have hsame : reassign (.quantumExpired core t) (-1) es = es := by
      simp only [reassign,map_vacate hnone]
      exact map_occupy h.numbered
    rw [hsame]
    exact h.busy
  · rintro ⟨w,hw,hwc⟩ c h0 hc
    simp only [reassign,List.mem_map,exists_exists_and_eq_and] at hw ⊢
    obtain ⟨w0,hw0,rfl⟩ := hw
    -- some entry waited before the call, so every core was taken
    have hfull : Occupied cores es := by
      rcases hsc with hsc | hsc
      · exact h.busy ⟨s,hs,hsc⟩
      · refine h.busy ⟨w0,hw0,?_⟩
        rw [occupy_coreId,vacate_jobId,vacate_coreId] at hwc
        split at hwc
        · omega
        · next hid =>
          split at hwc
          · next hcw =>
            have := h.core_injective hw0 hs (hcw.trans hsc.symm) (by omega)
            exact absurd (this ▸ hsid) hid
          · exact hwc
    by_cases hcc : c = core
    · exact ⟨s,hs,by rw [occupy_coreId,vacate_jobId,if_pos hsid,hcc]⟩
    · obtain ⟨e,he,hec⟩ := hfull c h0 hc
      have hne' : e.jobId ≠ ret := by
        intro heq
        have := h.job_injective he hs (heq.trans hsid.symm)
        subst this
        omega
      exact ⟨e,he,by rw [occupy_coreId,vacate_jobId,if_neg hne',vacate_coreId,if_neg (by omega),hec]⟩

theorem table_reassign {call : Call} (h : Table cores es) (ha : Admits cores call es)
    (hr : Answer cores call ret es) : Table cores (reassign call ret es) := by
  cases call with
  | newJob => exact table_newJob h ha hr
  | jobFinished => exact table_jobFinished h ha hr
  | quantumExpired => exact table_quantumExpired h ha hr

end Reassignment

end OperatingSystemLabs.Scheduler

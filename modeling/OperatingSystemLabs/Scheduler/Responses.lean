import OperatingSystemLabs.Scheduler.Occupancy
import OperatingSystemLabs.Scheduler.Records

namespace OperatingSystemLabs.Scheduler

open Keyed

variable {scheme : SchemeT} {cores : Nat} {call : Call} {b b' : Board} {ret : Int}
variable {P : Int → Prop} {jobs l r : List JobT} {j : JobT}

def Dispatched : Call → Int → Int → Prop
  | .newJob new _ _ _, ret, id => id = new ∧ ret ≠ -1
  | .jobFinished _ _ _, ret, id => id = ret
  | .quantumExpired _ _, ret, id => id = ret

def Call.seat : Call → Int → Int
  | .newJob _ _ _ _, ret => ret
  | .jobFinished core _ _, _ => core
  | .quantumExpired core _, _ => core

def Flagged (P : Int → Prop) (jobs : List JobT) : Prop := ∀ j ∈ jobs, j.responded ≠ -1 ↔ P j.jobId

theorem flagged_append : Flagged P (l ++ r) ↔ Flagged P l ∧ Flagged P r := List.forall_mem_append

theorem flagged_cons : Flagged P (j :: r) ↔ (j.responded ≠ -1 ↔ P j.jobId) ∧ Flagged P r :=
  List.forall_mem_cons

theorem flagged_split : Flagged P (l ++ j :: r) ↔ (j.responded ≠ -1 ↔ P j.jobId) ∧ Flagged P (l ++ r) := by
  rw [flagged_append,flagged_cons,flagged_append]
  tauto

theorem Flagged.imp {Q : Int → Prop} (h : Flagged P jobs) (hpq : ∀ j ∈ jobs, P j.jobId ↔ Q j.jobId) :
    Flagged Q jobs :=
  fun j hj => (h j hj).trans (hpq j hj)

theorem flagged_charged (t : Int) : Flagged P (jobs.map (·.charged t)) ↔ Flagged P jobs := by
  simp [Flagged,JobT.charged]

theorem woken_responded (core time pause : Int) : (j.woken core time pause).responded ≠ -1 := by
  simp only [JobT.woken]
  split
  · decide
  · assumption

theorem wake_flagged {core time pause : Int} (h : Wake core time pause b ret b')
    (hd : (b.jobs.map JobT.jobId).Nodup) (hn : ∀ j ∈ b.jobs, j.jobId ≠ -1) (hP : Flagged P b.jobs) :
    Flagged (fun id => P id ∨ id = ret) b'.jobs := by
  cases h with
  | @woke a z w hb _ _ =>
    rw [hb] at hd hP
    refine flagged_split.mpr ⟨iff_of_true (woken_responded core time pause) (.inr rfl),?_⟩
    refine (flagged_split.mp hP).2.imp (fun j hj => ?_)
    exact (or_iff_left (key_ne_of_split hd j hj)).symm
  | idled _ => exact hP.imp (fun j hj => (or_iff_left (hn j hj)).symm)

theorem wake_response {core time pause : Int} (h : Wake core time pause b ret b') :
    (ret = -1 ∧ b'.responseTime = b.responseTime) ∨ ∃ w ∈ b.jobs, w.jobId = ret ∧
      b'.responseTime = b.responseTime + if w.responded = -1 then time - w.arrivalTime else 0 := by
  cases h with
  | @woke a z w hb _ _ =>
    refine .inr ⟨w,by simp [hb],rfl,?_⟩
    by_cases hr : w.responded = -1
    · simp only [if_pos hr]
    · simp only [if_neg hr,Int.add_zero]
  | idled _ => exact .inl ⟨rfl,rfl⟩

theorem Flagged.newJob {id : Int} (h : Flagged P jobs) (hid : ∀ j ∈ jobs, j.jobId ≠ id)
    (t run pri ret : Int) : Flagged (fun k => P k ∨ Dispatched (.newJob id t run pri) ret k) jobs :=
  h.imp (fun j hj => (or_iff_left (fun hd => hid j hj hd.1)).symm)

theorem step_flagged (h : Step scheme cores call b ret b') (hs : Sound cores b.jobs)
    (ha : call.Admissible scheme cores b.jobs) (hP : Flagged P b.jobs)
    (hfresh : ∀ id t run pri, call = .newJob id t run pri → ¬ P id) :
    Flagged (fun id => P id ∨ Dispatched call ret id) b'.jobs := by
  have hnumbered : ∀ j ∈ b.jobs, j.jobId ≠ -1 := by simpa using hs.numbered
  have hids : (b.jobs.map JobT.jobId).Nodup := Sound.distinct hs
  cases h with
  | @startIdle b id t run pri c l r hb _ h0 =>
    have hold := hP.newJob ha.2 t run pri ret
    rw [hb] at hold
    exact flagged_split.mpr ⟨iff_of_true (by simp [JobT.started]) (.inr ⟨rfl,by omega⟩),hold⟩
  | @preempt b id t run pri front l r wait v _ hb _ hf _ _ _ hv _ =>
    have hold := hP.newJob ha.2 t run pri v.coreId
    rw [hb,flagged_append,flagged_cons,← flagged_charged t,hf,flagged_append] at hold
    obtain ⟨⟨hl,hr⟩,hvf,hw⟩ := hold
    refine flagged_append.mpr ⟨hl,flagged_cons.mpr ⟨?_,flagged_append.mpr ⟨hr,flagged_cons.mpr ⟨hvf,hw⟩⟩⟩⟩
    exact iff_of_true (by simp [JobT.preempting]) (.inr ⟨rfl,hv⟩)
  | @queueBehind b id t run pri front l r _ hb _ _ _ _ _ =>
    have hold := hP.newJob ha.2 t run pri (-1)
    rw [hb,flagged_append,← flagged_charged t,flagged_append] at hold
    obtain ⟨hf,hl,hr⟩ := hold
    refine flagged_append.mpr ⟨hf,flagged_append.mpr ⟨hl,flagged_cons.mpr ⟨?_,hr⟩⟩⟩
    exact iff_of_false (fun hne => hne rfl) (not_or.mpr ⟨hfresh id t run pri rfl,fun hd => hd.2 rfl⟩)
  | @queueUp b id t run pri l r _ hb =>
    have hold := hP.newJob ha.2 t run pri (-1)
    rw [hb] at hold
    refine flagged_split.mpr ⟨iff_of_false (fun hne => hne rfl) ?_,hold⟩
    exact not_or.mpr ⟨hfresh id t run pri rfl,fun hd => hd.2 rfl⟩
  | @finish b b' c id t ret l r f hb hfid hfc hw =>
    rw [hb] at hids hP hnumbered
    exact wake_flagged hw (key_nodup_of_split hids) (fun j hj => hnumbered j (mem_split hj))
      (flagged_split.mp hP).2
  | @expire b b' c t ret l r l' r' e hb hec hlr _ hw =>
    rw [hb] at hids hP hnumbered
    have hnd : ((l' ++ e.expired t :: r').map JobT.jobId).Nodup := by
      have hfront : ((e :: (l ++ r)).map JobT.jobId).Nodup :=
        (List.perm_middle.map JobT.jobId).nodup_iff.mp hids
      rw [hlr] at hfront
      exact (List.perm_middle.map JobT.jobId).nodup_iff.mpr hfront
    obtain ⟨he,hrest⟩ := flagged_split.mp hP
    refine wake_flagged hw hnd (fun j hj => ?_) (flagged_split.mpr ⟨he,hlr ▸ hrest⟩)
    rcases mem_middle.mp hj with rfl | hj
    · exact hnumbered e (by simp)
    · exact hnumbered j (mem_split (hlr ▸ hj))
  | @expireIdle b c t hnone =>
    exact hP.imp (fun j hj => (or_iff_left (hnumbered j hj)).symm)

theorem step_response (h : Step scheme cores call b ret b')
    (hcall : ∀ id t run pri, call ≠ .newJob id t run pri) :
    (ret = -1 ∧ b'.responseTime = b.responseTime) ∨ ∃ w ∈ b.jobs, w.jobId = ret ∧
      b'.responseTime = b.responseTime + if w.responded = -1 then call.time - w.arrivalTime else 0 := by
  cases h with
  | @finish b b' c id t ret l r f hb hfid hfc hw =>
    rcases wake_response hw with hnone | ⟨w,hw,hid,hresp⟩
    · exact .inl hnone
    · exact .inr ⟨w,hb ▸ mem_split hw,hid,hresp⟩
  | @expire b b' c t ret l r l' r' e hb hec hlr _ hw =>
    rcases wake_response hw with hnone | ⟨w,hw,hid,hresp⟩
    · exact .inl hnone
    · rcases mem_middle.mp hw with rfl | hw
      · exact .inr ⟨e,by simp [hb],hid,hresp⟩
      · exact .inr ⟨w,hb ▸ mem_split (hlr ▸ hw),hid,hresp⟩
  | expireIdle => exact .inl ⟨rfl,rfl⟩
  | startIdle => exact absurd rfl (hcall _ _ _ _)
  | preempt => exact absurd rfl (hcall _ _ _ _)
  | queueBehind => exact absurd rfl (hcall _ _ _ _)
  | queueUp => exact absurd rfl (hcall _ _ _ _)

theorem newJob_response {id t run pri : Int} (h : Step scheme cores (.newJob id t run pri) b ret b') :
    b'.responseTime = b.responseTime := by
  cases h <;> rfl

end OperatingSystemLabs.Scheduler

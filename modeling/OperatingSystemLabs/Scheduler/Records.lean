import OperatingSystemLabs.Foundation.Keyed
import OperatingSystemLabs.Scheduler.Board

namespace OperatingSystemLabs.Scheduler

open Keyed

variable {scheme : SchemeT} {cores : Nat} {call : Call} {b b' : Board} {ret : Int}

inductive Touched (t : Int) : JobT → JobT → Prop
  | same {j : JobT} : Touched t j j
  | charged {j : JobT} : Running j → Touched t j (j.charged t)
  | preempted {j : JobT} : Running j → Touched t j ((j.charged t).preempted t)
  | woken {j : JobT} (c pause : Int) : j.coreId = -1 → Touched t j (j.woken c t pause)
  | expired {j : JobT} : Running j → Touched t j (j.expired t)
  | cycled {j : JobT} (c pause : Int) : Running j → Touched t j ((j.expired t).woken c t pause)

inductive Entered : Call → JobT → Prop
  | started {id t run pri : Int} (c : Int) :
      Entered (.newJob id t run pri) ((JobT.new id t run pri).started c t)
  | preempting {id t run pri : Int} (c : Int) :
      Entered (.newJob id t run pri) ((JobT.new id t run pri).preempting c t)
  | queued {id t run pri : Int} : Entered (.newJob id t run pri) (JobT.new id t run pri)

theorem wake_touched {core t pause : Int} (h : Wake core t pause b ret b') {j' : JobT}
    (hj' : j' ∈ b'.jobs) :
    j' ∈ b.jobs ∨ ∃ j ∈ b.jobs, j.coreId = -1 ∧ j' = j.woken core t pause := by
  cases h with
  | @woke a z w hb _ hw =>
    rcases mem_middle.mp hj' with rfl | hj'
    · exact .inr ⟨w,by simp [hb],hw,rfl⟩
    · exact .inl (hb ▸ mem_split hj')
  | idled _ => exact .inl hj'

theorem step_touched (h : Step scheme cores call b ret b') (ha : call.Admissible scheme cores b.jobs)
    {j' : JobT} (hj' : j' ∈ b'.jobs) :
    Entered call j' ∨ ∃ j ∈ b.jobs, Touched call.time j j' := by
  have hkept {j : JobT} (hj : j ∈ b.jobs) : Entered call j ∨ ∃ i ∈ b.jobs, Touched call.time i j :=
    .inr ⟨j,hj,.same⟩
  cases h with
  | @startIdle b id t run pri c l r hb =>
    rcases mem_middle.mp hj' with rfl | hj'
    · exact .inl (.started ret)
    · exact hkept (hb ▸ hj')
  | @preempt b id t run pri front l r wait v _ hb _ hf _ _ hrun hv _ =>
    rcases mem_middle.mp hj' with rfl | hj'
    · exact .inl (.preempting v.coreId)
    · rw [← List.append_assoc,← hf] at hj'
      rcases List.mem_append.mp hj' with hj' | hj'
      · obtain ⟨j,hj,rfl⟩ := List.mem_map.mp hj'
        exact .inr ⟨j,by simp [hb,hj],.charged (hrun j hj)⟩
      · rcases List.mem_cons.mp hj' with rfl | hj'
        · exact .inr ⟨v,by simp [hb],.preempted hv⟩
        · exact hkept (by simp [hb,hj'])
  | @queueBehind b id t run pri front l r _ hb _ _ _ hrun _ =>
    rcases List.mem_append.mp hj' with hj' | hj'
    · obtain ⟨j,hj,rfl⟩ := List.mem_map.mp hj'
      exact .inr ⟨j,by simp [hb,hj],.charged (hrun j hj)⟩
    · rcases mem_middle.mp hj' with rfl | hj'
      · exact .inl .queued
      · exact hkept (hb ▸ List.mem_append_right _ hj')
  | @queueUp b id t run pri l r _ hb =>
    rcases mem_middle.mp hj' with rfl | hj'
    · exact .inl .queued
    · exact hkept (hb ▸ hj')
  | @finish b b' c id t ret l r f hb _ _ hw =>
    rcases wake_touched hw hj' with hj' | ⟨j,hj,hc,rfl⟩
    · exact hkept (hb ▸ mem_split hj')
    · exact .inr ⟨j,hb ▸ mem_split hj,.woken c 0 hc⟩
  | @expire b b' c t ret l r l' r' e hb hec hlr _ hw =>
    have he : Running e := by
      have := ha.2.1
      rw [Running,hec]
      omega
    have hold {j : JobT} (hj : j ∈ l' ++ r') : j ∈ b.jobs := hb ▸ mem_split (hlr ▸ hj)
    rcases wake_touched hw hj' with hj' | ⟨j,hj,hc,rfl⟩
    · rcases mem_middle.mp hj' with rfl | hj'
      · exact .inr ⟨e,by simp [hb],.expired he⟩
      · exact hkept (hold hj')
    · rcases mem_middle.mp hj with rfl | hj
      · exact .inr ⟨e,by simp [hb],.cycled c (-1) he⟩
      · exact .inr ⟨j,hold hj,.woken c (-1) hc⟩
  | expireIdle _ => exact hkept hj'

end OperatingSystemLabs.Scheduler

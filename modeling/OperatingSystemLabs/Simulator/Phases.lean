import OperatingSystemLabs.Simulator.Moves

namespace OperatingSystemLabs.Simulator

open Scheduler Keyed

variable {o : Options} {m m' : Machine} {jobs l r : List SimulatorJobListT} {job : SimulatorJobListT}
variable {f : SimulatorJobListT → SimulatorJobListT} {reached : Int → Prop} {rel : Prop → Prop → Prop}

theorem Dated.map (h : Dated rel reached jobs) (hf : Reseats f) : Dated rel reached (jobs.map f) := by
  intro job hj
  obtain ⟨k,hk,rfl⟩ := List.mem_map.mp hj
  rw [hf.arrived,hf.arrivalTime]
  exact h k hk

theorem Unfinished.map (h : Unfinished jobs) (hf : Reseats f) : Unfinished (jobs.map f) := by
  intro job hj
  obtain ⟨k,hk,rfl⟩ := List.mem_map.mp hj
  rw [hf.runTime]
  exact h k hk

theorem take_split (l r : List SimulatorJobListT) (job : SimulatorJobListT) :
    (l ++ job :: r).take (l.length + 1) = l ++ [job] := by
  have h : l ++ job :: r = (l ++ [job]) ++ r := by simp
  rw [h]
  exact List.take_left' (by simp)

theorem drop_split (l r : List SimulatorJobListT) (job : SimulatorJobListT) :
    (l ++ job :: r).drop (l.length + 1) = r := by
  simp [List.drop_append]

theorem Dated.append_one (h : Dated rel reached l) (hj : rel (job.arrived = true) (reached job.arrivalTime)) :
    Dated rel reached (l ++ [job]) := forall_mem_snoc h hj

theorem rel_congr {p q q' : Prop} (hq : q ↔ q') (h : rel p q) : rel p q' := propext hq ▸ h

theorem move_phased_by (hrel : Dates rel) (hp : PhasedBy rel m) (hm : Move o m m') : PhasedBy rel m' := by
  rw [PhasedBy] at hp
  cases hm with
  | @unfinished l r job hpc hj hrun =>
    simp only [hpc,hj,List.take_left] at hp
    simp only [PhasedBy,hj,take_split]
    exact ⟨hp.1,forall_mem_snoc hp.2.1 hrun,hp.2.2⟩
  | @finished l r r' job lib' ret hpc hj hrun hperm hc hs =>
    simp only [hpc,hj,List.take_left] at hp
    have hf := reseats_seat ret job.coreId
    have hsub {k : SimulatorJobListT} (hk : k ∈ l ++ r') : k ∈ l ++ job :: r :=
      mem_split ((hperm.append_left l).mem_iff.mp hk)
    have htake : ((l ++ r').map (seat ret job.coreId)).take l.length = l.map (seat ret job.coreId) := by
      rw [List.map_append]
      exact List.take_left' (List.length_map _)
    simp only [PhasedBy,hpc,htake]
    refine ⟨Dated.map (fun k hk => hp.1 k (hsub hk)) hf,Unfinished.map hp.2.1 hf,fun k hk => ?_⟩
    obtain ⟨k',hk',rfl⟩ := List.mem_map.mp hk
    rw [hf.runTime]
    intro hrun'
    have hk'c := hp.2.2 k' (hsub hk') hrun'
    unfold seat
    split
    · exact hc
    · exact hk'c
  | allFinished _ hnil => exact hnil
  | @toQuantums i hpc hlen hne =>
    simp only [hpc,List.take_of_length_le hlen] at hp
    exact ⟨hp.1,hp.2.1,hne⟩
  | unexpired hpc =>
    simp only [hpc] at hp
    exact hp
  | @expired i job lib' ret hpc =>
    simp only [hpc] at hp
    refine ⟨(hp.1.map (reseats_leave i)).map (reseats_seat ret i),
      (hp.2.1.map (reseats_leave i)).map (reseats_seat ret i),?_⟩
    simpa using hp.2.2
  | toArrivals hpc =>
    simp only [hpc] at hp
    exact ⟨by simp [Dated],hp.1,hp.2.1,hp.2.2⟩
  | @elsewhen l r job hpc hj htime =>
    simp only [hpc,hj,List.take_left,List.drop_left] at hp
    obtain ⟨hbefore,hafter,hrun,hne⟩ := hp
    have hjob := hafter job List.mem_cons_self
    simp only [PhasedBy,hj,take_split,drop_split]
    refine ⟨hbefore.append_one ?_,fun k hk => hafter k (List.mem_cons_of_mem _ hk),hrun,hne⟩
    exact rel_congr (by omega) hjob
  | @arrived l r job lib' ret hpc hj htime _ hs =>
    simp only [hpc,hj,List.take_left,List.drop_left] at hp
    obtain ⟨hbefore,hafter,hrun,-⟩ := hp
    have hf := reseats_leave ret
    have hlen : l.length + 1 = (l.map (leave ret)).length + 1 := by rw [List.length_map]
    simp only [PhasedBy]
    rw [hlen,take_split,drop_split]
    refine ⟨(hbefore.map hf).append_one ?_,Dated.map (fun k hk => hafter k (by simp [hk])) hf,?_,
      by simp⟩
    · have htrue : (job.arrivalTime ≤ m.time) = True := eq_true htime.le
      simp only [htrue]
      exact hrel.present
    · intro k hk
      rcases mem_middle_map.mp hk with rfl | ⟨k',hk',rfl⟩
      · exact hrun job (by simp)
      · rw [hf.runTime]
        exact hrun k' (mem_split hk')
  | @toUnit i hpc hlen =>
    simp only [hpc,List.take_of_length_le hlen] at hp
    exact ⟨hp.1,hp.2.2⟩
  | ran _ hpc =>
    simp only [hpc] at hp
    refine ⟨?_,by simp [Unfinished],?_⟩
    · intro k hk
      obtain ⟨k',hk',rfl⟩ := List.mem_map.mp hk
      have hdate := rel_congr Int.lt_add_one_iff.symm (hp.1 k' hk')
      unfold work
      split <;> exact hdate
    · intro k hk
      obtain ⟨k',hk',rfl⟩ := List.mem_map.mp hk
      have hne := hp.2.1 k' hk'
      unfold work
      split
      · next hc => exact fun _ => hc
      · exact fun h0 => absurd h0 hne
  | stopped hpc => exact hp

theorem move_phased (hp : Phased m) (hm : Move o m m') : Phased m' :=
  phased_iff.mpr (move_phased_by dates_iff (phased_iff.mp hp) hm)

end OperatingSystemLabs.Simulator

import OperatingSystemLabs.Threads.Counter

namespace OperatingSystemLabs.Threads

open Function Interleaving

variable {n : Nat}

def ahead (loop : Int) (me : Thread) : Int :=
  match me.next with
  | .absent => 4 * rounds loop + 4
  | .lock => 4 * rounds loop + 4
  | .test => 4 * (rounds loop - me.i) + 3
  | .load => 4 * (rounds loop - me.i) + 2
  | .store => 4 * (rounds loop - me.i) + 1
  | .addLoc => 4 * (rounds loop - me.i)
  | .unlock => 2
  | .print => 1
  | .exited => 0

def mainAhead (n : Nat) : MainThread → Int
  | .corrupted => 0
  | .creating i => 2 * n + 2 - i
  | .joining i => n + 1 - i
  | .finished => 0

def remaining (loop : Int) (p : Process n) : Int := mainAhead n p.main + ∑ id, ahead loop (p.threads id)

variable {loop inc count count' : Int} {countMutex countMutex' : Bool} {p p' : Process n} {id : Fin n}
  {me me' : Thread} {actor : Option (Fin n)} {usable : Nat}

theorem Effect.ahead (h : Effect loop inc count countMutex me me' count' countMutex') (hloop : loop < 2 ^ 31)
    (hc : Counted loop inc count me) : ahead loop me' + 1 = ahead loop me := by
  cases h with
  | lock hs => simp only [Threads.ahead,hs]; omega
  | enter hs => simp only [Threads.ahead,hs]; omega
  | leave hs hi =>
    simp only [Counted,hs,rounds] at hc
    simp only [Threads.ahead,hs,rounds]
    omega
  | load hs => simp only [Threads.ahead,hs]; omega
  | store hs => simp only [Threads.ahead,hs]
  | addLoc hs =>
    simp only [Counted,hs] at hc
    have hnext := intAdd_one hc.1 (lt_of_lt_of_le hc.2.1 (rounds_lt hloop))
    simp only [Threads.ahead,hs,hnext]
    omega
  | unlock hs => simp only [Threads.ahead,hs]; rfl
  | print hs => simp only [Threads.ahead,hs]; rfl

theorem Worked.remaining (h : Worked loop inc p id me p') (hloop : loop < 2 ^ 31) (hs : Sound loop inc p) :
    remaining loop p' + 1 = remaining loop p := by
  rw [Threads.remaining,Threads.remaining,h.main,h.threads,sum_set (ahead loop),← h.effect.ahead hloop (hs.counted id)]
  omega

theorem Managed.remaining (h : Managed p p') (hp : Placed p) : remaining loop p' + 1 = remaining loop p := by
  cases h with
  | @create i hi hmain =>
    have habsent := ((hp.creating hmain).2 ⟨i,hi⟩).mpr le_rfl
    have hahead : ahead loop { p.threads ⟨i,hi⟩ with next := .lock } = ahead loop (p.threads ⟨i,hi⟩) := by
      rw [Threads.ahead,Threads.ahead,habsent]
    show mainAhead n (.creating (i + 1)) + ∑ id, ahead loop (update p.threads ⟨i,hi⟩ _ id) + 1 = _
    rw [sum_set (ahead loop),hahead,Threads.remaining,hmain,mainAhead,mainAhead]
    push_cast
    omega
  | @created i hmain hi =>
    have hle := (hp.creating hmain).1
    have hin : i = n := by omega
    rw [Threads.remaining,Threads.remaining,hmain,mainAhead,mainAhead]
    subst hin
    push_cast
    omega
  | @join i hi hmain =>
    rw [Threads.remaining,Threads.remaining,hmain,mainAhead,mainAhead]
    push_cast
    omega
  | @joined i hmain hi =>
    have hle := (hp.joining hmain).1
    have hin : i = n := by omega
    rw [Threads.remaining,Threads.remaining,hmain,mainAhead,mainAhead]
    subst hin
    show 0 + ∑ id, ahead loop (p.threads id) + 1 = _
    omega

theorem acts_step (hroom : 12 ≤ usable) (hloop : loop < 2 ^ 31) (h : Acts usable loop inc p actor p')
    (hp : Orderly loop inc p) : Orderly loop inc p' ∧ remaining loop p' + 1 = remaining loop p ∧
      ∑ id, added loop (p'.threads id) = ∑ id, added loop (p.threads id) + if stores (p,actor) then 1 else 0 := by
  cases actor with
  | none =>
    have hm := mainStep_managed hroom h
    exact ⟨hm.orderly hp,hm.remaining hp.placed,by simp [stores,hm.added hp.placed]⟩
  | some id =>
    obtain ⟨me,hw⟩ := incCount_worked h
    exact ⟨hw.orderly hloop hp,hw.remaining hloop hp.sound,by simpa [stores] using hw.added hloop hp.sound⟩

theorem run_orderly (hroom : 12 ≤ usable) (hloop : loop < 2 ^ 31) {tr : List (Process n × Option (Fin n))}
    (h : Trace (Acts usable loop inc) (start n) tr p) :
    Orderly loop inc p ∧ tr.length + remaining loop p = remaining loop (start n) ∧
    ∑ id, added loop (p.threads id) = tr.countP stores := by
  induction h with
  | start => exact ⟨orderly_start,by simp,by simp [start,added]⟩
  | @snoc tr p p' actor _ hact ih =>
    obtain ⟨horderly,hremaining,hadded⟩ := ih
    obtain ⟨horderly',hremaining',hadded'⟩ := acts_step hroom hloop hact horderly
    refine ⟨horderly',by rw [List.length_append,List.length_singleton]; push_cast; omega,?_⟩
    rw [hadded',hadded,List.countP_append,List.countP_singleton]
    push_cast
    rfl

theorem remaining_start : remaining loop (start n) = 2 * n + 2 + n * (4 * rounds loop + 4) := by
  have hahead (id : Fin n) : ahead loop ((start n).threads id) = 4 * rounds loop + 4 := rfl
  simp only [remaining,hahead,Finset.sum_const,Finset.card_univ,Fintype.card_fin,nsmul_eq_mul]
  simp [start,mainAhead]

theorem Counted.ahead_nonneg (h : Counted loop inc count me) : 0 ≤ ahead loop me := by
  have hrounds : 0 ≤ rounds loop := le_max_right loop 0
  cases hs : me.next <;> simp only [Counted,ahead,hs] at h ⊢ <;> omega

theorem Orderly.remaining_nonneg (h : Orderly loop inc p) : 0 ≤ remaining loop p ∧
    (remaining loop p = 0 ↔ p.main = .finished) := by
  have hsum : 0 ≤ ∑ id, ahead loop (p.threads id) :=
    Finset.sum_nonneg fun id _ => (h.sound.counted id).ahead_nonneg
  rw [remaining]
  cases hmain : p.main with
  | corrupted =>
    have hplaced := h.placed
    rw [Placed,hmain] at hplaced
    exact hplaced.elim
  | creating i =>
    have hi := (h.placed.creating hmain).1
    simp only [mainAhead,reduceCtorEq,iff_false]
    omega
  | joining i =>
    have hi := (h.placed.joining hmain).1
    simp only [mainAhead,reduceCtorEq,iff_false]
    omega
  | finished =>
    have hplaced := h.placed
    rw [Placed,hmain] at hplaced
    have hzero (id : Fin n) : ahead loop (p.threads id) = 0 := by rw [ahead,hplaced.1 id]
    simp [mainAhead,hzero]

theorem incCount_ready (habsent : (p.threads id).next ≠ .absent) (hexited : (p.threads id).next ≠ .exited)
    (hlock : (p.threads id).next = .lock → p.countMutex = false) : ∃ p', incCount loop inc p id = some p' := by
  rw [incCount]
  split <;> simp_all

theorem inside_ready (hin : inside (p.threads id).next) : ∃ p', incCount loop inc p id = some p' := by
  refine incCount_ready ?_ ?_ ?_ <;> intro hs <;> rw [hs] at hin <;> exact hin.elim

theorem Orderly.thread_ready (h : Orderly loop inc p) (habsent : (p.threads id).next ≠ .absent)
    (hexited : (p.threads id).next ≠ .exited) : ∃ j p', incCount loop inc p j = some p' := by
  by_cases hmutex : p.countMutex = true
  · obtain ⟨j,hj⟩ := h.sound.locked.mp hmutex
    exact ⟨j,inside_ready hj⟩
  · exact ⟨id,incCount_ready habsent hexited fun _ => Bool.eq_false_iff.mpr hmutex⟩

theorem Orderly.ready (hroom : 12 ≤ usable) (h : Orderly loop inc p) (hmain : p.main ≠ .finished) :
    ∃ actor p', Acts usable loop inc p actor p' := by
  cases hm : p.main with
  | corrupted =>
    have hplaced := h.placed
    rw [Placed,hm] at hplaced
    exact hplaced.elim
  | creating i =>
    by_cases hi : i < n
    · exact ⟨none,_,by rw [Acts,mainStep,hm]; exact (dif_pos hi).trans (if_neg (Nat.not_lt.mpr hroom))⟩
    · exact ⟨none,_,by rw [Acts,mainStep,hm]; exact dif_neg hi⟩
  | joining i =>
    by_cases hi : i < n
    · by_cases hexited : (p.threads ⟨i,hi⟩).next = .exited
      · exact ⟨none,_,by rw [Acts,mainStep,hm]; exact (dif_pos hi).trans (if_pos hexited)⟩
      · obtain ⟨j,p',hp'⟩ := h.thread_ready ((h.placed.joining hm).2 ⟨i,hi⟩).1 hexited
        exact ⟨some j,p',hp'⟩
    · exact ⟨none,_,by rw [Acts,mainStep,hm]; exact dif_neg hi⟩
  | finished => exact (hmain hm).elim

theorem Orderly.over (hroom : 12 ≤ usable) (hloop : loop < 2 ^ 31) (h : Orderly loop inc p)
    (hmain : p.main = .finished) : ¬ Acts usable loop inc p actor p' := by
  intro hact
  obtain ⟨horderly,hstep,-⟩ := acts_step hroom hloop hact h
  rw [h.remaining_nonneg.2.mpr hmain] at hstep
  have hnonneg := horderly.remaining_nonneg.1
  omega

theorem run_finishes (n : Nat) (inc : Int) (hroom : 12 ≤ usable) (hloop : loop < 2 ^ 31) :
    ∃ tr p, Trace (Acts usable loop inc) (start n) tr p ∧ p.main = .finished := by
  refine exists_finished (remaining loop (start n)).toNat (fun tr p h => ?_)
    fun tr p h hmain => (run_orderly hroom hloop h).1.ready hroom hmain
  obtain ⟨horderly,hlength,-⟩ := run_orderly hroom hloop h
  have hnonneg := horderly.remaining_nonneg.1
  omega

theorem Counted.added_le (h : Counted loop inc count me) : 0 ≤ added loop me ∧ added loop me ≤ rounds loop := by
  have hrounds : 0 ≤ rounds loop := le_max_right loop 0
  cases hs : me.next <;> simp only [Counted,added,hs] at h ⊢ <;> omega

theorem bmod_between {k total : Int} (hk : 0 ≤ k) (hle : k ≤ total) (hfits : Text.Fits (inc * total)) :
    (inc * k).bmod (2 ^ 32) = inc * k := by
  obtain ⟨hlow,hhigh⟩ := hfits
  have hbounds : -(2 ^ 31) ≤ inc * k ∧ inc * k < 2 ^ 31 := by
    rcases le_total 0 inc with hinc | hinc
    · have hup := Int.mul_le_mul_of_nonneg_left hle hinc
      have hdown := Int.mul_nonneg hinc hk
      omega
    · have hdown := Int.mul_le_mul_of_nonpos_left hinc hle
      have hup := Int.mul_nonpos_of_nonpos_of_nonneg hinc hk
      omega
  exact Int.bmod_eq_of_le (by omega) (by omega)

theorem Orderly.added_le (h : Orderly loop inc p) : ∑ id, added loop (p.threads id) ≤ n * rounds loop := by
  have hle := Finset.sum_le_card_nsmul Finset.univ (fun id => added loop (p.threads id)) (rounds loop)
    fun id _ => (h.sound.counted id).added_le.2
  simpa using hle

theorem Orderly.printed (h : Orderly loop inc p) (hmain : p.main = .finished) :
    p.final = some ((inc * (n * rounds loop)).bmod (2 ^ 32)) ∧
    p.output.Perm ((List.finRange n).map fun id => (id,(inc * rounds loop).bmod (2 ^ 32))) := by
  have hplaced := h.placed
  rw [Placed,hmain] at hplaced
  obtain ⟨hexited,hfinal⟩ := hplaced
  constructor
  · have hall (id : Fin n) : added loop (p.threads id) = rounds loop := by rw [added,hexited id]
    rw [hfinal,h.sound.count]
    simp [hall]
  · refine (List.perm_ext_iff_of_nodup h.reported.once.of_map ?_).mpr ?_
    · exact (List.nodup_finRange n).map fun id id' hid => congrArg Prod.fst hid
    · rintro ⟨id,v⟩
      rw [h.reported.lines id v]
      simp [hexited,eq_comm]

theorem no_lost_update (hroom : 12 ≤ usable) (hloop : loop < 2 ^ 31) {tr : List (Process n × Option (Fin n))}
    (h : Trace (Acts usable loop inc) (start n) tr p) :
    p.count = (inc * tr.countP stores).bmod (2 ^ 32) ∧
    (∀ id id', inside (p.threads id).next → inside (p.threads id').next → id = id') ∧
    (p.main = .finished → p.final = some ((inc * (n * rounds loop)).bmod (2 ^ 32)) ∧
      p.output.Perm ((List.finRange n).map fun id => (id,(inc * rounds loop).bmod (2 ^ 32)))) ∧
    (Text.Fits (inc * (n * rounds loop)) → p.count = inc * tr.countP stores ∧
      (p.main = .finished → p.final = some (inc * (n * rounds loop)) ∧
        p.output.Perm ((List.finRange n).map fun id => (id,inc * rounds loop)))) := by
  obtain ⟨horderly,-,hadded⟩ := run_orderly hroom hloop h
  have hcount : p.count = (inc * tr.countP stores).bmod (2 ^ 32) := hadded ▸ horderly.sound.count
  have hrounds : 0 ≤ rounds loop := le_max_right loop 0
  refine ⟨hcount,horderly.sound.single,horderly.printed,fun hfits => ⟨?_,fun hmain => ?_⟩⟩
  · rw [hcount]
    exact bmod_between (Int.natCast_nonneg _) (hadded ▸ horderly.added_le) hfits
  · obtain ⟨hfinal,houtput⟩ := horderly.printed hmain
    rw [bmod_between (Int.mul_nonneg (Int.natCast_nonneg n) hrounds) le_rfl hfits] at hfinal
    have hline (id : Fin n) : (inc * rounds loop).bmod (2 ^ 32) = inc * rounds loop := by
      have hn := id.pos
      exact bmod_between hrounds (le_mul_of_one_le_left hrounds (by omega)) hfits
    exact ⟨hfinal,houtput.trans (.of_eq (List.map_congr_left fun id _ => by rw [hline id]))⟩

theorem no_lost_update_thirty : ∃ tr p, Trace (Acts 24 2 5) (start 3) tr p ∧ p.final = some 30 := by
  obtain ⟨tr,p,h,hmain⟩ : ∃ tr p, Trace (Acts 24 2 5) (start 3) tr p ∧ p.main = .finished :=
    run_finishes 3 5 (by decide) (by decide)
  obtain ⟨-,-,-,hexact⟩ := no_lost_update (by decide) (by decide) h
  exact ⟨tr,p,h,((hexact (by decide)).2 hmain).1⟩

theorem counting_always_finishes (hroom : 12 ≤ usable) (hloop : loop < 2 ^ 31)
    {tr : List (Process n × Option (Fin n))} (h : Trace (Acts usable loop inc) (start n) tr p) :
    (tr.length : Int) ≤ 2 * n + 2 + n * (4 * rounds loop + 4) ∧
    (p.main = .finished ↔ (tr.length : Int) = 2 * n + 2 + n * (4 * rounds loop + 4)) ∧
    (p.main = .finished ↔ ∀ actor p', ¬ Acts usable loop inc p actor p') := by
  obtain ⟨horderly,hlength,-⟩ := run_orderly hroom hloop h
  obtain ⟨hnonneg,hzero⟩ := horderly.remaining_nonneg
  rw [← remaining_start]
  refine ⟨by omega,hzero.symm.trans (by omega),fun hmain _ _ => horderly.over hroom hloop hmain,fun hstuck => ?_⟩
  by_contra hmain
  obtain ⟨actor,p',hact⟩ := horderly.ready hroom hmain
  exact hstuck actor p' hact

theorem counting_always_finishes_three :
    ∃ tr p, Trace (Acts 24 2 5) (start 3) tr p ∧ p.main = .finished ∧ tr.length = 44 := by
  obtain ⟨tr,p,h,hmain⟩ : ∃ tr p, Trace (Acts 24 2 5) (start 3) tr p ∧ p.main = .finished :=
    run_finishes 3 5 (by decide) (by decide)
  have hrounds : rounds 2 = 2 := rfl
  have hlength := (counting_always_finishes (by decide) (by decide) h).2.1.mp hmain
  rw [hrounds] at hlength
  exact ⟨tr,p,h,hmain,by omega⟩

end OperatingSystemLabs.Threads

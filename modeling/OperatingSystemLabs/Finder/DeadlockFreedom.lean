import OperatingSystemLabs.Finder.Plumbing

namespace OperatingSystemLabs.Finder

open Function Descriptors Interleaving StandardStreams

variable {inherited fds : Fds} {p : Pipes} {k : Fin 4} {σ : Type} {m : Machine σ} {argv : Arguments}
  {s s' : Processes σ} {actor : Option (Fin 4)} {input : List UInt8}

def Stuck (m : Machine σ) (argv : Arguments) (p : Pipes) (s : Processes σ) : Prop :=
  ∀ actor s', ¬ Acts m argv p s actor s'

def AwaitsInput (s : Processes σ) (k : Fin 4) : Prop :=
  ∃ i : Fin 3, k = i.succ ∧ s.buffer i = [] ∧ s.isOpen (.writeEnd i) = true

def AwaitsSpace (m : Machine σ) (s : Processes σ) (k : Fin 4) : Prop :=
  ∃ i : Fin 3, k = i.castSucc ∧ m.capacity ≤ (s.buffer i).length ∧ s.isOpen (.readEnd i) = true

theorem read_waits (h : s.read (some (source k)) = none) : AwaitsInput s k := by
  cases k using Fin.cases with
  | zero =>
    change s.read (some .stdin) = none at h
    rw [Processes.read] at h
    split at h <;> cases h
  | succ i =>
    change s.read (some (.readEnd i)) = none at h
    rw [Processes.read] at h
    split at h
    · next hbuffer =>
      split at h
      · next hopen => exact ⟨i,rfl,hbuffer,hopen⟩
      · cases h
    · cases h

theorem write_waits {b : UInt8} (h : s.write m (some (sink k)) b = none) : AwaitsSpace m s k := by
  cases k using Fin.lastCases with
  | last =>
    rw [sink_last] at h
    cases h
  | cast i =>
    rw [sink_castSucc,Processes.write] at h
    split at h
    · next hopen =>
      split at h
      · cases h
      · next hfull => exact ⟨i,rfl,Nat.not_lt.mp hfull,hopen⟩
    · cases h

theorem Stuck.waits (h : Stuck m argv p s) (hp : Plumbed inherited p s) (hrunning : Running s k) :
    AwaitsInput s k ∨ AwaitsSpace m s k := by
  obtain ⟨fds,program,hchild⟩ := hrunning
  have hfit := hp.child k
  rw [hchild] at hfit
  have hnone : childStep m argv s k = none := Option.eq_none_iff_forall_ne_some.mpr fun s' => h (some k) s'
  rw [childStep,hchild] at hnone
  change fds.file = fitted inherited k at hfit
  simp only [hfit,fitted_stdin,fitted_stdout] at hnone
  split at hnone
  · cases hnone
  · exact .inl (read_waits (Option.map_eq_none_iff.mp hnone))
  · exact .inr (write_waits (Option.map_eq_none_iff.mp hnone))

-- A child that waits for input has a predecessor that does; one that waits for space, a successor that does.
theorem Stuck.nobody_runs (h : Stuck m argv p s) (hp : Plumbed inherited p s) (hs : Standard inherited)
    (hprepared : Prepared s) : ∀ k, ¬ Running s k := by
  have hinput (k : Fin 4) : Running s k → ¬ AwaitsInput s k := by
    induction k using Fin.induction with
    | zero =>
      rintro - ⟨i,hi,-⟩
      exact Fin.succ_ne_zero i hi.symm
    | succ i ih =>
      rintro - ⟨j,hj,hbuffer,hopen⟩
      obtain rfl := Fin.succ_injective _ hj
      have hrunning := (hp.holder hs hprepared).2 hopen
      rcases h.waits hp hrunning with hwaits | ⟨j,hj,hfull,-⟩
      · exact ih hrunning hwaits
      · obtain rfl := Fin.castSucc_injective _ hj
        rw [hbuffer] at hfull
        exact absurd hfull (Nat.not_le.mpr m.positive)
  have hspace (k : Fin 4) : Running s k → ¬ AwaitsSpace m s k := by
    induction k using Fin.reverseInduction with
    | last =>
      rintro - ⟨i,hi,-⟩
      exact (Fin.castSucc_lt_last i).ne hi.symm
    | cast i ih =>
      rintro - ⟨j,hj,-,hopen⟩
      obtain rfl := Fin.castSucc_injective _ hj
      have hrunning := (hp.holder hs hprepared).1 hopen
      exact (h.waits hp hrunning).elim (hinput _ hrunning) (ih hrunning)
  intro k hrunning
  exact (h.waits hp hrunning).elim (hinput k hrunning) (hspace k hrunning)

theorem Stuck.prepared (h : Stuck m argv p s) (htodo : s.todo ≠ []) :
    Prepared s ∧ ∃ k todo, s.todo = .waitpid k :: todo ∧ s.child k ≠ .ended := by
  have hnone : parentStep p s = none := Option.eq_none_iff_forall_ne_some.mpr fun s' => h none s'
  have hpreparing (k : Fin 4) (todo : List Call) (fds : Fds) : s.child k ≠ .preparing todo fds := by
    intro hchild
    have hnone : childStep m argv s k = none := Option.eq_none_iff_forall_ne_some.mpr fun s' => h (some k) s'
    rw [childStep,hchild] at hnone
    cases todo with
    | nil => cases hnone
    | cons c todo =>
      dsimp only at hnone
      split at hnone <;> cases hnone
  rw [parentStep] at hnone
  split at hnone
  · next hnil => exact (htodo hnil).elim
  · cases hnone
  · cases hnone
  · next k todo hwait =>
    refine ⟨⟨⟨k,todo,hwait⟩,hpreparing⟩,k,todo,hwait,fun hended => ?_⟩
    rw [hended] at hnone
    cases hnone

theorem Plumbed.all_ended (h : Plumbed inherited p s) (htodo : s.todo = []) (k : Fin 4) : s.child k = .ended := by
  have hawaited := h.awaited k
  rw [htodo] at hawaited
  exact hawaited.resolve_left List.not_mem_nil

theorem Plumbed.over (h : Plumbed inherited p s) (htodo : s.todo = []) : Stuck m argv p s := by
  intro actor s' hact
  cases actor with
  | none =>
    rw [Acts,turn,parentStep,htodo] at hact
    cases hact
  | some k =>
    rw [Acts,turn,childStep,h.all_ended htodo k] at hact
    cases hact

theorem stuck_finished {tr : List (Processes σ × Option (Fin 4))} (hs : Standard inherited)
    (hfit : ∀ k, (cmdbuf argv k).utf8ByteSize < bsize)
    (h : Trace (Acts m argv (openPipes inherited).2) (start inherited input) tr s)
    (hstuck : Stuck m argv (openPipes inherited).2 s) : s.todo = [] := by
  have hplumbed := run_plumbed hs h
  by_contra htodo
  obtain ⟨hprepared,k,todo,hwait,hended⟩ := hstuck.prepared htodo
  cases hchild : s.child k with
  | unborn => exact (hplumbed.waiting hwait).2 k hchild
  | preparing todo fds => exact hprepared.2 k todo fds hchild
  | running fds program => exact hstuck.nobody_runs hplumbed hs hprepared k ⟨fds,program,hchild⟩
  | ended => exact hended hchild
  | broken => exact run_unbroken hfit h k hchild

theorem finder_never_deadlocks {tr : List (Processes σ × Option (Fin 4))} (hs : Standard inherited)
    (hfit : ∀ k, (cmdbuf argv k).utf8ByteSize < bsize)
    (h : Trace (Acts m argv (openPipes inherited).2) (start inherited input) tr s) :
    Stuck m argv (openPipes inherited).2 s ↔ s.todo = [] ∧ ∀ k, s.child k = .ended := by
  have hplumbed := run_plumbed hs h
  refine ⟨fun hstuck => ?_,fun h => hplumbed.over h.1⟩
  have htodo := stuck_finished hs hfit h hstuck
  exact ⟨htodo,hplumbed.all_ended htodo⟩

theorem finder_never_deadlocks_grep :
    ∃ tr s, Trace (Acts twoFiles mainInFive (openPipes terminal).2) (start terminal []) tr s ∧
      childStep twoFiles mainInFive s 1 = none ∧ ¬ Stuck twoFiles mainInFive (openPipes terminal).2 s := by
  let actors : List (Option (Fin 4)) := List.replicate 10 none ++ List.replicate 10 (some 1)
  have hwaits : ((actors.foldlM (turn twoFiles mainInFive (openPipes terminal).2) (start terminal [])).any
      fun s => (childStep twoFiles mainInFive s 1).isNone && isRunning s 1 && !s.todo.isEmpty) = true := by
    decide +kernel
  cases hs : actors.foldlM (turn twoFiles mainInFive (openPipes terminal).2) (start terminal []) with
  | none =>
    rw [hs] at hwaits
    cases hwaits
  | some s =>
    obtain ⟨tr,htr⟩ := trace_follows hs
    rw [hs,Option.any_some,Bool.and_eq_true,Bool.and_eq_true] at hwaits
    obtain ⟨⟨hnone,-⟩,htodo⟩ := hwaits
    refine ⟨tr,s,htr,Option.isNone_iff_eq_none.mp hnone,fun hstuck => ?_⟩
    rw [((finder_never_deadlocks terminal_standard mainInFive_fits htr).mp hstuck).1] at htodo
    cases htodo

end OperatingSystemLabs.Finder

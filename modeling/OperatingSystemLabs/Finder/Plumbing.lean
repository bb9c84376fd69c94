import OperatingSystemLabs.Finder.Pipeline

namespace OperatingSystemLabs.Finder

open Function Descriptors Interleaving StandardStreams

structure Standard (inherited : Fds) : Prop where
  stdin : inherited.file stdinFileno = some .stdin
  stdout : inherited.file stdoutFileno = some .stdout
  fresh : ∀ fd i, inherited.file fd ≠ some (.readEnd i) ∧ inherited.file fd ≠ some (.writeEnd i)

def source : Fin 4 → File := Fin.cases .stdin .readEnd

def sink : Fin 4 → File := Fin.lastCases .stdout .writeEnd

def fitted (inherited : Fds) (k : Fin 4) : Nat → Option File :=
  update (update inherited.file stdinFileno (some (source k))) stdoutFileno (some (sink k))

def execute (fds : Fds) (todo : List Call) : Fds := todo.foldl (fun fds c => c.make fds) fds

def closings (todo : List ParentCall) : List Call :=
  todo.filterMap fun c => match c with
    | .close fd => some (.close fd)
    | _ => none

def Before : ParentCall → ParentCall → Prop
  | .fork k, .fork l => k ≠ l
  | .close _, .fork _ => False
  | .waitpid _, .fork _ => False
  | .waitpid _, .close _ => False
  | _, _ => True

def Fit {σ : Type} (inherited : Fds) (k : Fin 4) (c : Child σ) : Prop :=
  match c with
  | .preparing todo fds => (execute fds todo).file = fitted inherited k
  | .running fds _ => fds.file = fitted inherited k
  | _ => True

structure Opened (inherited fds : Fds) (p : Pipes) : Prop where
  fd1 : fds.file p.fd1.readEnd = some (.readEnd 0) ∧ fds.file p.fd1.writeEnd = some (.writeEnd 0)
  fd2 : fds.file p.fd2.readEnd = some (.readEnd 1) ∧ fds.file p.fd2.writeEnd = some (.writeEnd 1)
  fd3 : fds.file p.fd3.readEnd = some (.readEnd 2) ∧ fds.file p.fd3.writeEnd = some (.writeEnd 2)
  free : ∀ fd ∈ ends p, inherited.file fd = none
  other : ∀ fd ∉ ends p, fds.file fd = inherited.file fd

structure Plumbed {σ : Type} (inherited : Fds) (p : Pipes) (s : Processes σ) : Prop where
  ordered : s.todo.Pairwise Before
  forks : ∀ k, .fork k ∈ s.todo ↔ s.child k = .unborn
  whole : ∀ k, .fork k ∈ s.todo → Opened inherited s.fds p
  emptied : (execute s.fds (closings s.todo)).file = inherited.file
  awaited : ∀ k, .waitpid k ∈ s.todo ∨ s.child k = .ended
  child : ∀ k, Fit inherited k (s.child k)

inductive Effect {σ : Type} (m : Machine σ) (argv : Arguments) (s : Processes σ) (k : Fin 4) : Processes σ → Prop
  | exec {fds : Fds} : s.child k = .preparing [] fds →
      Effect m argv s k (s.become k (.running fds (m.bash (cmdbuf argv k))))
  | call {c : Call} {todo : List Call} {fds : Fds} : s.child k = .preparing (c :: todo) fds →
      Effect m argv s k (s.become k (.preparing todo (c.make fds)))
  | overrun {c : Call} {todo : List Call} {fds : Fds} : s.child k = .preparing (c :: todo) fds →
      bsize ≤ (cmdbuf argv k).utf8ByteSize → Effect m argv s k (s.become k .broken)
  | exit {fds : Fds} {program : σ} : s.child k = .running fds program → m.action program = .exit →
      Effect m argv s k (s.become k .ended)
  | read {fds : Fds} {program : σ} {next : Received UInt8 → σ} {received : Received UInt8} {s' : Processes σ} :
      s.child k = .running fds program → m.action program = .read next →
      s.read (fds.file stdinFileno) = some (received,s') →
      Effect m argv s k (s'.become k (.running fds (next received)))
  | write {fds : Fds} {program next failed : σ} {b : UInt8} {written : Processes.Written} {s' : Processes σ} :
      s.child k = .running fds program → m.action program = .write b next failed →
      s.write m (fds.file stdoutFileno) b = some (written,s') →
      Effect m argv s k (s'.become k (Child.wrote fds next failed written))

inductive Managed {σ : Type} (p : Pipes) (s : Processes σ) : Processes σ → Prop
  | fork {k : Fin 4} {todo : List ParentCall} : s.todo = .fork k :: todo →
      Managed p s { s.become k (.preparing (script p k) s.fds) with todo }
  | close {fd : Nat} {todo : List ParentCall} : s.todo = .close fd :: todo →
      Managed p s { s with todo, fds := close s.fds fd }
  | waitpid {k : Fin 4} {todo : List ParentCall} : s.todo = .waitpid k :: todo → s.child k = .ended →
      Managed p s { s with todo }

variable {inherited fds : Fds} {p : Pipes} {k : Fin 4} {f : File} {σ : Type} {m : Machine σ} {argv : Arguments}
  {s s' : Processes σ} {c : Child σ} {actor : Option (Fin 4)} {input : List UInt8}

theorem execute_cons (fds : Fds) (c : Call) (todo : List Call) : execute fds (c :: todo) = execute (c.make fds) todo :=
  rfl

theorem make_holds {c : Call} (h : holds (c.make fds) f = true) : holds fds f = true := by
  cases c with
  | dup2 old new => exact dup2_holds h
  | sprintf => exact h
  | close fd => exact close_holds h

theorem execute_holds {todo : List Call} (h : holds (execute fds todo) f = true) : holds fds f = true := by
  induction todo generalizing fds with
  | nil => exact h
  | cons c todo ih => exact make_holds (ih h)

theorem execute_closes (fds : Fds) (l : List Nat) (fd : Nat) :
    (execute fds (l.map .close)).file fd = if fd ∈ l then none else fds.file fd := by
  induction l generalizing fds with
  | nil => simp [execute]
  | cons k l ih =>
    rw [List.map_cons,execute_cons,ih,Call.make,close]
    by_cases hfd : fd = k
    · subst hfd
      simp [assign_self]
    · rw [assign_other fds none hfd]
      simp [hfd]

theorem openPipes_opened (inherited : Fds) : Opened inherited (openPipes inherited).1 (openPipes inherited).2 := by
  have h1 := pipe_piped inherited (.readEnd 0) (.writeEnd 0)
  have h2 := pipe_piped (pipe inherited (.readEnd 0) (.writeEnd 0)).1 (.readEnd 1) (.writeEnd 1)
  have h3 := pipe_piped (pipe (pipe inherited (.readEnd 0) (.writeEnd 0)).1 (.readEnd 1) (.writeEnd 1)).1
    (.readEnd 2) (.writeEnd 2)
  refine ⟨⟨h3.keeps (h2.keeps h1.readEnd),h3.keeps (h2.keeps h1.writeEnd)⟩,
    ⟨h3.keeps h2.readEnd,h3.keeps h2.writeEnd⟩,⟨h3.readEnd,h3.writeEnd⟩,?_,?_⟩
  · simp only [ends,List.mem_cons,List.not_mem_nil,or_false]
    rintro fd (rfl | rfl | rfl | rfl | rfl | rfl)
    · exact h1.free.1
    · exact h1.free.2
    · exact h1.free_before h2.free.1
    · exact h1.free_before h2.free.2
    · exact h1.free_before (h2.free_before h3.free.1)
    · exact h1.free_before (h2.free_before h3.free.2)
  · simp only [ends,List.mem_cons,List.not_mem_nil,or_false,not_or]
    rintro fd ⟨hr1,hw1,hr2,hw2,hr3,hw3⟩
    rw [openPipes]
    exact (h3.other fd hr3 hw3).trans ((h2.other fd hr2 hw2).trans (h1.other fd hr1 hw1))

theorem Opened.not_standard (h : Opened inherited fds p) (hs : Standard inherited) :
    stdinFileno ∉ ends p ∧ stdoutFileno ∉ ends p := by
  constructor <;> intro hfd
  · cases hs.stdin.symm.trans (h.free _ hfd)
  · cases hs.stdout.symm.trans (h.free _ hfd)

theorem Opened.closed (h : Opened inherited fds p) (hs : Standard inherited) {fds' : Fds}
    (hin : fds'.file stdinFileno = some (source k)) (hout : fds'.file stdoutFileno = some (sink k))
    (hother : ∀ fd, fd ≠ stdinFileno → fd ≠ stdoutFileno → fds'.file fd = fds.file fd) :
    (execute fds' ((ends p).map .close)).file = fitted inherited k := by
  obtain ⟨hstdin,hstdout⟩ := h.not_standard hs
  funext fd
  rw [execute_closes]
  by_cases hfd1 : fd = stdoutFileno
  · subst hfd1
    rw [if_neg hstdout,hout,fitted,update_self]
  · rw [fitted,update_of_ne hfd1]
    by_cases hfd0 : fd = stdinFileno
    · subst hfd0
      rw [if_neg hstdin,hin,update_self]
    · rw [update_of_ne hfd0,hother fd hfd0 hfd1]
      split
      · next hfd => exact (h.free fd hfd).symm
      · next hfd => exact h.other fd hfd

theorem Opened.stdin (h : Opened inherited fds p) (hs : Standard inherited) : fds.file stdinFileno = some .stdin :=
  (h.other _ (h.not_standard hs).1).trans hs.stdin

theorem Opened.stdout (h : Opened inherited fds p) (hs : Standard inherited) : fds.file stdoutFileno = some .stdout :=
  (h.other _ (h.not_standard hs).2).trans hs.stdout

theorem script_fits (h : Opened inherited fds p) (hs : Standard inherited) (k : Fin 4) :
    (execute fds (script p k)).file = fitted inherited k := by
  have hne : stdinFileno ≠ stdoutFileno := Nat.zero_ne_one
  -- dup2 onto standard input does not move the end that goes to standard output.
  have hkeep {old fd : Nat} {f : File} (hfd : fds.file fd = some f) (hf : f ≠ .stdin) :
      (dup2 fds old stdinFileno).file fd = some f := by
    rw [dup2_other]
    · exact hfd
    · rintro rfl
      exact hf (Option.some.inj (hfd.symm.trans (h.stdin hs)))
  match k with
  | 0 =>
    refine h.closed hs ?_ (dup2_self h.fd1.2) fun fd _ hfd => dup2_other hfd
    exact (dup2_other hne).trans (h.stdin hs)
  | 1 =>
    refine h.closed hs ?_ (dup2_self (hkeep h.fd2.2 nofun)) fun fd hfd hfd' =>
      (dup2_other hfd').trans (dup2_other hfd)
    exact (dup2_other hne).trans (dup2_self h.fd1.1)
  | 2 =>
    refine h.closed hs ?_ (dup2_self (hkeep h.fd3.2 nofun)) fun fd hfd hfd' =>
      (dup2_other hfd').trans (dup2_other hfd)
    exact (dup2_other hne).trans (dup2_self h.fd2.1)
  | 3 =>
    refine h.closed hs (dup2_self h.fd3.1) ?_ fun fd hfd _ => dup2_other hfd
    exact (dup2_other hne.symm).trans (h.stdout hs)

theorem childStep_effect (h : childStep m argv s k = some s') : Effect m argv s k s' := by
  rw [childStep] at h
  split at h
  · cases h
  · next hchild =>
    cases h
    exact .exec hchild
  · next hchild =>
    split at h
    · next hover =>
      cases h
      exact .overrun hchild hover.2
    · cases h
      exact .call hchild
  · next hchild =>
    split at h
    · next haction =>
      cases h
      exact .exit hchild haction
    · next haction =>
      obtain ⟨⟨received,s1⟩,hread,rfl⟩ := Option.map_eq_some_iff.mp h
      exact .read hchild haction hread
    · next haction =>
      obtain ⟨⟨written,s1⟩,hwrite,rfl⟩ := Option.map_eq_some_iff.mp h
      exact .write hchild haction hwrite
  · cases h
  · cases h

structure SameProcesses (s s' : Processes σ) : Prop where
  todo : s'.todo = s.todo
  fds : s'.fds = s.fds
  child : s'.child = s.child

theorem read_same {file : Option File} {r : Received UInt8} (h : s.read file = some (r,s')) : SameProcesses s s' := by
  have hrfl : SameProcesses s s := ⟨rfl,rfl,rfl⟩
  match file with
  | some .stdin =>
    rw [Processes.read] at h
    split at h <;> cases h <;> exact ⟨rfl,rfl,rfl⟩
  | some (.readEnd i) =>
    rw [Processes.read] at h
    split at h
    · split at h <;> cases h
      exact hrfl
    · cases h
      exact ⟨rfl,rfl,rfl⟩
  | none => cases h; exact hrfl
  | some .stdout => cases h; exact hrfl
  | some (.other _) => cases h; exact hrfl
  | some (.writeEnd _) => cases h; exact hrfl

theorem write_same {file : Option File} {b : UInt8} {r : Processes.Written} (h : s.write m file b = some (r,s')) :
    SameProcesses s s' := by
  have hrfl : SameProcesses s s := ⟨rfl,rfl,rfl⟩
  match file with
  | some .stdout => cases h; exact ⟨rfl,rfl,rfl⟩
  | some (.writeEnd i) =>
    rw [Processes.write] at h
    split at h
    · split at h <;> cases h
      exact ⟨rfl,rfl,rfl⟩
    · cases h
      exact hrfl
  | none => cases h; exact hrfl
  | some .stdin => cases h; exact hrfl
  | some (.other _) => cases h; exact hrfl
  | some (.readEnd _) => cases h; exact hrfl

theorem Plumbed.become (h : Plumbed inherited p s) (hsame : SameProcesses s s') (hborn : s.child k ≠ .unborn)
    (halive : s.child k ≠ .ended) (hnew : c ≠ .unborn) (hfit : Fit inherited k c) :
    Plumbed inherited p (s'.become k c) := by
  obtain ⟨htodo,hfds,hchild⟩ := hsame
  have hbecome : (s'.become k c).child = update s.child k c := by rw [Processes.become,hchild]
  refine ⟨htodo ▸ h.ordered,fun j => ?_,fun j hj => hfds ▸ h.whole j (htodo ▸ hj),?_,fun j => ?_,fun j => ?_⟩
  · rw [hbecome]
    show _ ∈ s'.todo ↔ _
    rw [htodo,h.forks j]
    by_cases hj : j = k
    · subst hj
      rw [update_self]
      exact iff_of_false hborn hnew
    · rw [update_of_ne hj]
  · show (execute s'.fds (closings s'.todo)).file = _
    rw [hfds,htodo]
    exact h.emptied
  · rw [hbecome]
    show _ ∈ s'.todo ∨ _
    rw [htodo]
    by_cases hj : j = k
    · subst hj
      exact .inl ((h.awaited j).resolve_right halive)
    · rw [update_of_ne hj]
      exact h.awaited j
  · rw [hbecome]
    by_cases hj : j = k
    · subst hj
      rwa [update_self]
    · rw [update_of_ne hj]
      exact h.child j

theorem Plumbed.effect (h : Plumbed inherited p s) (he : Effect m argv s k s') : Plumbed inherited p s' := by
  have hfit := h.child k
  have hrfl : SameProcesses s s := ⟨rfl,rfl,rfl⟩
  cases he with
  | exec hchild =>
    rw [hchild] at hfit
    exact h.become hrfl (by rw [hchild]; nofun) (by rw [hchild]; nofun) nofun hfit
  | call hchild =>
    rw [hchild] at hfit
    exact h.become hrfl (by rw [hchild]; nofun) (by rw [hchild]; nofun) nofun hfit
  | overrun hchild => exact h.become hrfl (by rw [hchild]; nofun) (by rw [hchild]; nofun) nofun trivial
  | exit hchild => exact h.become hrfl (by rw [hchild]; nofun) (by rw [hchild]; nofun) nofun trivial
  | read hchild _ hread =>
    rw [hchild] at hfit
    exact h.become (read_same hread) (by rw [hchild]; nofun) (by rw [hchild]; nofun) nofun hfit
  | @write _ _ _ _ _ written _ hchild _ hwrite =>
    rw [hchild] at hfit
    refine h.become (write_same hwrite) (by rw [hchild]; nofun) (by rw [hchild]; nofun) ?_ ?_
    · cases written <;> nofun
    · cases written
      · exact hfit
      · exact hfit
      · trivial

theorem parentStep_managed (h : parentStep p s = some s') : Managed p s s' := by
  rw [parentStep] at h
  split at h
  · cases h
  · next htodo =>
    cases h
    exact .fork htodo
  · next htodo =>
    cases h
    exact .close htodo
  · next htodo =>
    split at h
    · next hended =>
      cases h
      exact .waitpid htodo hended
    · cases h

theorem Plumbed.managed (h : Plumbed inherited p s) (hs : Standard inherited) (hm : Managed p s s') :
    Plumbed inherited p s' := by
  obtain ⟨hordered,hforks,hwhole,hemptied,hawaited,hchild⟩ := h
  cases hm with
  | @fork k todo htodo =>
    rw [htodo] at hordered hforks hwhole hemptied hawaited
    obtain ⟨hbefore,hordered⟩ := List.pairwise_cons.mp hordered
    have hunborn := (hforks k).mp List.mem_cons_self
    refine ⟨hordered,fun j => ?_,fun j hj => hwhole j (List.mem_cons_of_mem _ hj),hemptied,fun j => ?_,fun j => ?_⟩
    · show _ ↔ update s.child k _ j = _
      by_cases hj : j = k
      · subst hj
        rw [update_self]
        exact iff_of_false (fun hmem => hbefore _ hmem rfl) nofun
      · rw [update_of_ne hj,← hforks j]
        simp [hj]
    · show _ ∨ update s.child k _ j = _
      by_cases hj : j = k
      · subst hj
        refine .inl ?_
        simpa [hunborn] using hawaited j
      · rw [update_of_ne hj]
        simpa using hawaited j
    · show Fit inherited j (update s.child k _ j)
      by_cases hj : j = k
      · subst hj
        rw [update_self]
        exact script_fits (hwhole j List.mem_cons_self) hs j
      · rw [update_of_ne hj]
        exact hchild j
  | @close fd todo htodo =>
    rw [htodo] at hordered hforks hwhole hemptied hawaited
    obtain ⟨hbefore,hordered⟩ := List.pairwise_cons.mp hordered
    exact ⟨hordered,fun j => by simpa using hforks j,fun j hj => (hbefore _ hj).elim,hemptied,
      fun j => by simpa using hawaited j,hchild⟩
  | @waitpid k todo htodo hended =>
    rw [htodo] at hordered hforks hwhole hemptied hawaited
    obtain ⟨hbefore,hordered⟩ := List.pairwise_cons.mp hordered
    refine ⟨hordered,fun j => by simpa using hforks j,fun j hj => (hbefore _ hj).elim,hemptied,fun j => ?_,hchild⟩
    by_cases hj : j = k
    · exact .inr (hj ▸ hended)
    · simpa [hj] using hawaited j

theorem Plumbed.acts (h : Plumbed inherited p s) (hs : Standard inherited) (hact : Acts m argv p s actor s') :
    Plumbed inherited p s' := by
  cases actor with
  | none => exact h.managed hs (parentStep_managed hact)
  | some k => exact h.effect (childStep_effect hact)

theorem Opened.emptied (h : Opened inherited fds p) :
    (execute fds (closings (parent p))).file = inherited.file := by
  have hclosings : closings (parent p) = (ends p).map .close := rfl
  funext fd
  rw [hclosings,execute_closes]
  split
  · next hfd => exact (h.free fd hfd).symm
  · next hfd => exact h.other fd hfd

theorem parent_ordered (p : Pipes) : (parent p).Pairwise Before := by
  have hforks : [ParentCall.fork 0,.fork 1,.fork 2,.fork 3].Pairwise Before := by simp [Before]
  have hcloses : ((ends p).map ParentCall.close).Pairwise Before :=
    List.pairwise_map.mpr (List.pairwise_of_forall fun _ _ => trivial)
  have hwaits : [ParentCall.waitpid 0,.waitpid 1,.waitpid 2,.waitpid 3].Pairwise Before := by simp [Before]
  refine List.pairwise_append.mpr ⟨List.pairwise_append.mpr ⟨hforks,hcloses,?_⟩,hwaits,?_⟩
  · simp [Before]
  · simp [or_imp,forall_and,Before]

theorem mem_parent (p : Pipes) (k : Fin 4) : .fork k ∈ parent p ∧ .waitpid k ∈ parent p := by
  match k with
  | 0 | 1 | 2 | 3 => simp [parent]

theorem plumbed_start : Plumbed inherited (openPipes inherited).2 (start (σ := σ) inherited input) := by
  have hopened := openPipes_opened inherited
  exact ⟨parent_ordered _,fun k => iff_of_true (mem_parent _ k).1 rfl,fun _ _ => hopened,hopened.emptied,
    fun k => .inl (mem_parent _ k).2,fun _ => trivial⟩

theorem run_plumbed {tr : List (Processes σ × Option (Fin 4))} (hs : Standard inherited)
    (h : Trace (Acts m argv (openPipes inherited).2) (start inherited input) tr s) :
    Plumbed inherited (openPipes inherited).2 s := by
  induction h with
  | start => exact plumbed_start
  | snoc _ hact ih => exact ih.acts hs hact

theorem fitted_stdin : fitted inherited k stdinFileno = some (source k) := by
  rw [fitted,update_of_ne (show stdinFileno ≠ stdoutFileno from Nat.zero_ne_one),update_self]

theorem fitted_stdout : fitted inherited k stdoutFileno = some (sink k) := update_self ..

theorem fitted_holds (h : fds.file = fitted inherited k) :
    Descriptors.holds fds (source k) = true ∧ Descriptors.holds fds (sink k) = true :=
  ⟨holds_iff.mpr ⟨stdinFileno,by rw [h,fitted_stdin]⟩,holds_iff.mpr ⟨stdoutFileno,by rw [h,fitted_stdout]⟩⟩

theorem isOpen_iff : s.isOpen f = true ↔ Descriptors.holds s.fds f = true ∨ ∃ k, (s.child k).holds f = true := by
  simp [Processes.isOpen]

theorem Plumbed.keeps_open (h : Plumbed inherited p s) (hs : Standard inherited) (hended : s.child k ≠ .ended)
    (hbroken : s.child k ≠ .broken) : s.isOpen (source k) = true ∧ s.isOpen (sink k) = true := by
  have hfit := h.child k
  rw [isOpen_iff,isOpen_iff]
  cases hchild : s.child k with
  | unborn =>
    have hfork := script_fits (h.whole k ((h.forks k).mpr hchild)) hs k
    exact ⟨.inl (execute_holds (fitted_holds hfork).1),.inl (execute_holds (fitted_holds hfork).2)⟩
  | preparing todo fds =>
    rw [hchild] at hfit
    exact ⟨.inr ⟨k,by rw [hchild]; exact execute_holds (fitted_holds hfit).1⟩,
      .inr ⟨k,by rw [hchild]; exact execute_holds (fitted_holds hfit).2⟩⟩
  | running fds program =>
    rw [hchild] at hfit
    exact ⟨.inr ⟨k,by rw [hchild]; exact (fitted_holds hfit).1⟩,.inr ⟨k,by rw [hchild]; exact (fitted_holds hfit).2⟩⟩
  | ended => exact (hended hchild).elim
  | broken => exact (hbroken hchild).elim

theorem sink_last : sink (Fin.last 3) = .stdout := Fin.lastCases_last

theorem sink_castSucc (i : Fin 3) : sink i.castSucc = .writeEnd i := Fin.lastCases_castSucc i

theorem Standard.not_end (hs : Standard inherited) {fd : Nat} {i : Fin 3} :
    (fitted inherited k fd = some (.readEnd i) → k = i.succ) ∧
    (fitted inherited k fd = some (.writeEnd i) → k = i.castSucc) := by
  rw [fitted]
  by_cases hfd1 : fd = stdoutFileno
  · subst hfd1
    rw [update_self]
    cases k using Fin.lastCases with
    | last =>
      rw [sink_last]
      exact ⟨nofun,nofun⟩
    | cast j => simp [sink_castSucc]
  · rw [update_of_ne hfd1]
    by_cases hfd0 : fd = stdinFileno
    · subst hfd0
      rw [update_self]
      cases k using Fin.cases with
      | zero => simp [source]
      | succ j => simp [source]
    · rw [update_of_ne hfd0]
      exact ⟨fun h => ((hs.fresh fd i).1 h).elim,fun h => ((hs.fresh fd i).2 h).elim⟩

def Running (s : Processes σ) (k : Fin 4) : Prop := ∃ fds program, s.child k = .running fds program

def Prepared (s : Processes σ) : Prop :=
  (∃ k todo, s.todo = .waitpid k :: todo) ∧ ∀ k todo fds, s.child k ≠ .preparing todo fds

theorem Plumbed.waiting (h : Plumbed inherited p s) {todo : List ParentCall} (htodo : s.todo = .waitpid k :: todo) :
    s.fds.file = inherited.file ∧ ∀ j, s.child j ≠ .unborn := by
  have hordered := h.ordered
  have hemptied := h.emptied
  rw [htodo] at hordered hemptied
  obtain ⟨hbefore,-⟩ := List.pairwise_cons.mp hordered
  constructor
  · have hclosings : closings todo = [] := by
      rw [closings,List.filterMap_eq_nil_iff]
      intro c hc
      cases c with
      | close fd => exact (hbefore _ hc).elim
      | fork _ => rfl
      | waitpid _ => rfl
    rw [← hemptied]
    show s.fds.file = (execute s.fds (closings todo)).file
    rw [hclosings]
    rfl
  · intro j hj
    have hmem := (h.forks j).mpr hj
    rw [htodo] at hmem
    exact (List.mem_cons.mp hmem).elim nofun fun hj => hbefore _ hj

theorem Plumbed.holder (h : Plumbed inherited p s) (hs : Standard inherited) (hp : Prepared s) {i : Fin 3} :
    (s.isOpen (.readEnd i) = true → Running s i.succ) ∧ (s.isOpen (.writeEnd i) = true → Running s i.castSucc) := by
  obtain ⟨⟨k,todo,htodo⟩,hprepared⟩ := hp
  obtain ⟨hfds,hborn⟩ := h.waiting htodo
  have hrunning {f : File} (hf : ∀ fd, inherited.file fd ≠ some f) (hopen : s.isOpen f = true) :
      ∃ j fd, Running s j ∧ fitted inherited j fd = some f := by
    rcases isOpen_iff.mp hopen with hparent | ⟨j,hj⟩
    · obtain ⟨fd,hfd⟩ := holds_iff.mp hparent
      exact (hf fd (hfds ▸ hfd)).elim
    · have hfit := h.child j
      cases hchild : s.child j with
      | running fds program =>
        rw [hchild] at hfit hj
        obtain ⟨fd,hfd⟩ := holds_iff.mp hj
        exact ⟨j,fd,⟨fds,program,hchild⟩,hfit ▸ hfd⟩
      | preparing todo fds => exact (hprepared j todo fds hchild).elim
      | unborn => exact (hborn j hchild).elim
      | ended =>
        rw [hchild] at hj
        cases hj
      | broken =>
        rw [hchild] at hj
        cases hj
  constructor
  · intro hopen
    obtain ⟨j,fd,hj,hfd⟩ := hrunning (fun fd => (hs.fresh fd i).1) hopen
    exact (hs.not_end.1 hfd) ▸ hj
  · intro hopen
    obtain ⟨j,fd,hj,hfd⟩ := hrunning (fun fd => (hs.fresh fd i).2) hopen
    exact (hs.not_end.2 hfd) ▸ hj

theorem Running.opens (h : Plumbed inherited p s) (hs : Standard inherited) (hrunning : Running s k) :
    s.isOpen (source k) = true ∧ s.isOpen (sink k) = true := by
  obtain ⟨fds,program,hchild⟩ := hrunning
  exact h.keeps_open hs (by rw [hchild]; nofun) (by rw [hchild]; nofun)

def Unbroken (s : Processes σ) : Prop := ∀ k, s.child k ≠ .broken

theorem Unbroken.become {c : Child σ} (h : Unbroken s) (hsame : SameProcesses s s') (hc : c ≠ .broken) :
    Unbroken (s'.become k c) := by
  intro j
  show update s'.child k c j ≠ .broken
  rw [hsame.child]
  by_cases hj : j = k
  · subst hj
    rwa [update_self]
  · rw [update_of_ne hj]
    exact h j

theorem Unbroken.acts (h : Unbroken s) (hfit : ∀ k, (cmdbuf argv k).utf8ByteSize < bsize)
    (hact : Acts m argv p s actor s') : Unbroken s' := by
  have hrfl : SameProcesses s s := ⟨rfl,rfl,rfl⟩
  cases actor with
  | none =>
    cases parentStep_managed hact with
    | fork => exact h.become hrfl nofun
    | close => exact h
    | waitpid => exact h
  | some k =>
    cases childStep_effect hact with
    | exec => exact h.become hrfl nofun
    | call => exact h.become hrfl nofun
    | overrun _ hover => exact (Nat.not_le.mpr (hfit k) hover).elim
    | exit => exact h.become hrfl nofun
    | read _ _ hread => exact h.become (read_same hread) nofun
    | @write _ _ _ _ _ written _ _ _ hwrite =>
      refine h.become (write_same hwrite) ?_
      cases written <;> nofun

theorem run_unbroken {tr : List (Processes σ × Option (Fin 4))} (hfit : ∀ k, (cmdbuf argv k).utf8ByteSize < bsize)
    (h : Trace (Acts m argv p) (start inherited input) tr s) : Unbroken s := by
  induction h with
  | start => exact fun _ => nofun
  | snoc _ hact ih => exact ih.acts hfit hact

theorem pipe_ends_kept_apart {tr : List (Processes σ × Option (Fin 4))} (hs : Standard inherited)
    (hfit : ∀ k, (cmdbuf argv k).utf8ByteSize < bsize)
    (h : Trace (Acts m argv (openPipes inherited).2) (start inherited input) tr s) :
    Unbroken s ∧ (∀ k fds program, s.child k = .running fds program → fds.file = fitted inherited k) ∧
    (∀ k todo, s.todo = .waitpid k :: todo → s.fds.file = inherited.file) ∧
    (Prepared s → ∀ i : Fin 3, (s.isOpen (.readEnd i) = true ↔ Running s i.succ) ∧
      (s.isOpen (.writeEnd i) = true ↔ Running s i.castSucc)) := by
  have hplumbed := run_plumbed hs h
  refine ⟨run_unbroken hfit h,fun k fds program hchild => ?_,fun k todo htodo => (hplumbed.waiting htodo).1,
    fun hp i => ?_⟩
  · have hfit := hplumbed.child k
    rwa [hchild] at hfit
  · obtain ⟨hread,hwrite⟩ := hplumbed.holder hs hp (i := i)
    exact ⟨⟨hread,fun hrunning => (hrunning.opens hplumbed hs).1⟩,
      ⟨hwrite,fun hrunning => sink_castSucc i ▸ (hrunning.opens hplumbed hs).2⟩⟩

theorem terminal_standard : Standard terminal := by
  refine ⟨rfl,rfl,fun fd i => ?_⟩
  match fd with
  | 0 | 1 | 2 => exact ⟨nofun,nofun⟩
  | fd + 3 => exact ⟨nofun,nofun⟩

theorem mainInFive_fits : ∀ k, (cmdbuf mainInFive k).utf8ByteSize < bsize := by decide +kernel

def isRunning (s : Processes σ) (k : Fin 4) : Bool :=
  match s.child k with
  | .running _ _ => true
  | _ => false

theorem pipe_ends_kept_apart_grep :
    ∃ tr s, Trace (Acts twoFiles mainInFive (openPipes terminal).2) (start terminal []) tr s ∧
      ∃ fds program, s.child 1 = .running fds program ∧ fds.file = fitted terminal 1 := by
  let actors : List (Option (Fin 4)) := [none,none] ++ List.replicate 10 (some 1)
  have hruns : ((actors.foldlM (turn twoFiles mainInFive (openPipes terminal).2) (start terminal [])).any
      fun s => isRunning s 1) = true := by decide +kernel
  cases hs : actors.foldlM (turn twoFiles mainInFive (openPipes terminal).2) (start terminal []) with
  | none =>
    rw [hs] at hruns
    cases hruns
  | some s =>
    obtain ⟨tr,htr⟩ := trace_follows hs
    rw [hs,Option.any_some,isRunning] at hruns
    split at hruns
    · next fds program hchild =>
      have hkept := pipe_ends_kept_apart terminal_standard mainInFive_fits htr
      exact ⟨tr,s,htr,fds,program,hchild,hkept.2.1 1 fds program hchild⟩
    · cases hruns

end OperatingSystemLabs.Finder

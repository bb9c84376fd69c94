import OperatingSystemLabs.Simulator.Buffers

namespace OperatingSystemLabs.Simulator

open Scheduler Text Transition

-- A scheme of -1 is none.
structure Settings where
  cores : Int
  scheme : Option SchemeT
  quantum : Int
  deriving DecidableEq, Repr

def toLower (s : List Char) : List Char := s.map Char.toLower

def setCores (optarg : List Char) (s : Settings) : Except Stop Settings :=
  match atoi optarg with
  | none => .error .undefined
  | some cores => if cores ≤ 0 then .error (.refused .coresNotPositive) else .ok { s with cores := cores }

-- An argument that names no scheme changes nothing.
def setScheme (optarg : List Char) (s : Settings) : Except Stop Settings :=
  if toLower optarg = ['f','c','f','s'] then .ok { s with scheme := some .fcfs }
  else if toLower optarg = ['s','j','f'] then .ok { s with scheme := some .sjf }
  else if toLower optarg = ['p','s','j','f'] then .ok { s with scheme := some .psjf }
  else if toLower optarg = ['p','r','i'] then .ok { s with scheme := some .pri }
  else if toLower optarg = ['p','p','r','i'] then .ok { s with scheme := some .ppri }
  else if toLower (optarg.take 2) = ['r','r'] then
    match atoi (optarg.drop 2) with
    | none => .error .undefined
    | some quantum =>
        if quantum ≤ 0 then .error (.refused .quantumNotPositive)
        else .ok { s with scheme := some .rr, quantum := quantum }
  else .ok s

def setOption (opt : Char) (optarg : List Char) (s : Settings) : Except Stop Settings :=
  if opt = 'c' then setCores optarg s else setScheme optarg s

-- getopt(argc, argv, "c:s:"), and what main does with each option. The arguments that are no options are left for
-- last, and from "--" on none is one.
def readOptions : List (List Char) → Settings → List (List Char) → Except Stop (Settings × List (List Char))
  | [], s, names => .ok (s,names)
  | ['-','-'] :: argv, s, names => .ok (s,names ++ argv)
  | ['-',opt] :: optarg :: argv, s, names =>
      if opt = 'c' ∨ opt = 's' then setOption opt optarg s >>= fun s => readOptions argv s names
      else .error (.refused .unknownOption)
  | ['-',_] :: [], _, _ => .error (.refused .unknownOption)
  | ('-' :: opt :: optarg) :: argv, s, names =>
      if opt = 'c' ∨ opt = 's' then setOption opt optarg s >>= fun s => readOptions argv s names
      else .error (.refused .unknownOption)
  | name :: argv, s, names => readOptions argv s (names ++ [name])

def readCommand (argv : List (List Char)) : Except Stop (Options × List Char) := do
  let (s,names) ← readOptions argv ⟨0,none,0⟩ []
  if s.cores = 0 then throw (.refused .coresMissing)
  match s.scheme with
  | none => throw (.refused .schemeMissing)
  | some scheme =>
      match names with
      | [fileName] => return (⟨s.cores.toNat,scheme,s.quantum⟩,fileName)
      | _ => throw (.refused .inputFileMissing)

-- What realloc finds: for so many bytes of jobs, and for so many of the diagram of a core.
structure Memory where
  jobs : Nat → Bool
  diagram : Nat → Nat → Bool

-- main up to the simulation; `files` are the texts of the files that can be opened.
def prepare (memory : Memory) (files : List Char → Option (List Char)) (argv : List (List Char)) :
    Except Stop (Options × List SimulatorJobListT) := do
  let (o,fileName) ← readCommand argv
  match files fileName with
  | none => throw (.refused (.unableToOpen fileName))
  | some file => return (o,← loadFile memory.jobs file)

def Refusal.status : Refusal → Int
  | .unableToOpen _ => 2
  | .outOfMemory => 2
  | .illegalFormat => 2
  | _ => 1

def startJobs (o : Options) (jobs : List SimulatorJobListT) : Machine × Buffers :=
  ({ start o [] with jobs := jobs },.first)

inductive Returns (memory : Memory) (files : List Char → Option (List Char)) (argv : List (List Char)) : Int → Prop
  | refused {refusal : Refusal} : prepare memory files argv = .error (.refused refusal) →
      Returns memory files argv refusal.status
  | finished {o : Options} {jobs : List SimulatorJobListT} {s : Machine × Buffers} :
      prepare memory files argv = .ok (o,jobs) → Reach (mainStep memory.diagram o) (startJobs o jobs) s →
      s.1.pc = .done → Returns memory files argv 0
  | outOfMemory {o : Options} {jobs : List SimulatorJobListT} {s : Machine × Buffers} :
      prepare memory files argv = .ok (o,jobs) → Reach (mainStep memory.diagram o) (startJobs o jobs) s →
      mainStep memory.diagram o s = .error .outOfMemory → Returns memory files argv 3
  | complained {o : Options} {jobs : List SimulatorJobListT} {s : Machine × Buffers} {status : Int}
      {complaint : Complaint} : prepare memory files argv = .ok (o,jobs) →
      Reach (mainStep memory.diagram o) (startJobs o jobs) s →
      mainStep memory.diagram o s = .error (.fault (.exited status complaint)) → Returns memory files argv status

structure Settings.Usable (s : Settings) : Prop where
  cores : 0 ≤ s.cores
  quantum : s.scheme = some .rr → 1 ≤ s.quantum

structure Options.Usable (o : Options) : Prop where
  cores : 1 ≤ o.cores
  quantum : o.scheme = .rr → 1 ≤ o.quantum

variable {memory : Memory} {files : List Char → Option (List Char)} {argv names names' : List (List Char)}
variable {s s' : Settings}
variable {o : Options} {opt : Char} {optarg fileName header : List Char} {jobs : List SimulatorJobListT}
variable {rows : List Row}

theorem setCores_usable (hs : s.Usable) (h : setCores optarg s = .ok s') : s'.Usable := by
  rw [setCores] at h
  cases hv : atoi optarg with
  | none =>
    rw [hv] at h
    cases h
  | some cores =>
    rw [hv] at h
    by_cases h0 : cores ≤ 0
    · simp only [if_pos h0] at h
      cases h
    · simp only [if_neg h0] at h
      cases h
      exact ⟨(Int.not_le.mp h0).le,hs.quantum⟩

theorem setScheme_usable (hs : s.Usable) (h : setScheme optarg s = .ok s') : s'.Usable := by
  have hother {scheme : SchemeT} (hne : scheme ≠ .rr)
      (h : Except.ok (ε := Stop) { s with scheme := some scheme } = .ok s') : s'.Usable := by
    cases h
    exact ⟨hs.cores,fun he => absurd (Option.some.inj he) hne⟩
  rw [setScheme] at h
  split at h
  · exact hother (by decide) h
  split at h
  · exact hother (by decide) h
  split at h
  · exact hother (by decide) h
  split at h
  · exact hother (by decide) h
  split at h
  · exact hother (by decide) h
  split at h
  · cases hv : atoi (optarg.drop 2) with
    | none =>
      rw [hv] at h
      cases h
    | some quantum =>
      rw [hv] at h
      by_cases h0 : quantum ≤ 0
      · simp only [if_pos h0] at h
        cases h
      · simp only [if_neg h0] at h
        cases h
        exact ⟨hs.cores,fun _ => Int.not_le.mp h0⟩
  · cases h
    exact hs

theorem setOption_usable (hs : s.Usable) (h : setOption opt optarg s = .ok s') : s'.Usable := by
  rw [setOption] at h
  split at h
  · exact setCores_usable hs h
  · exact setScheme_usable hs h

theorem readOptions_usable (hs : s.Usable) (h : readOptions argv s names = .ok (s',names')) : s'.Usable := by
  fun_induction readOptions argv s names with
  | case1 s names =>
    cases h
    exact hs
  | case2 argv s names =>
    cases h
    exact hs
  | case3 opt optarg argv s names _ _ ih =>
    obtain ⟨t,ht,h⟩ := ok_of_bind h
    exact ih t (setOption_usable hs ht) h
  | case6 opt optarg argv s names _ _ _ _ ih =>
    obtain ⟨t,ht,h⟩ := ok_of_bind h
    exact ih t (setOption_usable hs ht) h
  | case8 name argv s names _ _ _ _ ih => exact ih hs h
  | _ => cases h

theorem readCommand_usable (h : readCommand argv = .ok (o,fileName)) : o.Usable := by
  rw [readCommand] at h
  obtain ⟨⟨s,names⟩,hread,h⟩ := ok_of_bind h
  have hs : s.Usable := readOptions_usable (s := ⟨0,none,0⟩) ⟨le_rfl,fun he => by cases he⟩ hread
  by_cases h0 : s.cores = 0
  · simp only [if_pos h0] at h
    cases h
  · simp only [if_neg h0] at h
    cases hscheme : s.scheme with
    | none =>
      rw [hscheme] at h
      cases h
    | some scheme =>
      rw [hscheme] at h
      have husable : Options.Usable ⟨s.cores.toNat,scheme,s.quantum⟩ := by
        have := hs.cores
        refine ⟨?_,fun he => hs.quantum (hscheme.trans (congrArg some he))⟩
        show 1 ≤ s.cores.toNat
        omega
      rcases names with _ | ⟨name,_ | ⟨name',names⟩⟩
      · cases h
      · cases h
        exact husable
      · cases h

theorem prepare_cases (h : prepare memory files argv = .ok (o,jobs)) :
    o.Usable ∧ ∃ fileName file, files fileName = some file ∧ loadFile memory.jobs file = .ok jobs := by
  rw [prepare] at h
  obtain ⟨⟨o',fileName⟩,hread,h⟩ := ok_of_bind h
  cases hfile : files fileName with
  | none =>
    simp only [hfile] at h
    cases h
  | some file =>
    simp only [hfile] at h
    obtain ⟨jobs',hload,h⟩ := ok_of_bind h
    cases h
    exact ⟨readCommand_usable hread,fileName,file,hfile,hload⟩

theorem loaded_rows {grants : Nat → Bool} {file : List Char} (h : loadFile grants file = .ok jobs) :
    ∃ rows, jobs = loadJobs 0 rows := by
  obtain ⟨rows,hjobs,-⟩ := loadFile_ok_iff.mp h
  exact ⟨rows,hjobs⟩

theorem returns_cases {status : Int} (hprepare : prepare memory files argv = .ok (o,loadJobs 0 rows))
    (hcores : 1 ≤ o.cores) (hrows : Runnable rows) (hbrief : Brief rows) (h : Returns memory files argv status) :
    status = 0 ∨ status = 3 ∧ ¬ AllGranted memory.diagram := by
  cases h with
  | refused hrefused =>
    rw [hprepare] at hrefused
    cases hrefused
  | finished => exact .inl rfl
  | outOfMemory hprepared hreach hstep =>
    cases hprepare.symm.trans hprepared
    rcases mainStep_cases hcores hrows hbrief (reach_buffered hcores hrows hbrief hreach) with ⟨s',hs',-⟩ | ⟨-,hno⟩
    · cases hstep.symm.trans hs'
    · exact .inr ⟨rfl,hno⟩
  | complained hprepared hreach hstep =>
    cases hprepare.symm.trans hprepared
    rcases mainStep_cases hcores hrows hbrief (reach_buffered hcores hrows hbrief hreach) with ⟨s',hs',-⟩ | ⟨hs',-⟩
    · cases hstep.symm.trans hs'
    · cases hstep.symm.trans hs'

theorem returns_zero (hprepare : prepare memory files argv = .ok (o,loadJobs 0 rows)) (hcores : 1 ≤ o.cores)
    (hrows : Runnable rows) (hbrief : Brief rows) (hgranted : AllGranted memory.diagram) (status : Int) :
    Returns memory files argv status ↔ status = 0 := by
  constructor
  · intro h
    exact (returns_cases hprepare hcores hrows hbrief h).resolve_right fun h => h.2 hgranted
  · rintro rfl
    obtain ⟨s,hreach,hdone⟩ := buffers_last hcores hrows hbrief hgranted
    exact .finished hprepare hreach hdone

theorem prepare_file {file : List Char} (hread : readCommand argv = .ok (o,fileName))
    (hfile : files fileName = some file) (hload : loadFile memory.jobs file = .ok jobs) :
    prepare memory files argv = .ok (o,jobs) := by
  rw [prepare,bind_ok _ hread]
  simp only [hfile]
  rw [bind_ok _ hload]
  rfl

theorem main_returns_zero (h : prepare memory files argv = .ok (o,jobs)) :
    o.Usable ∧ (∃ rows, jobs = loadJobs 0 rows) ∧ ∀ rows, jobs = loadJobs 0 rows → Runnable rows → Brief rows →
      (∀ s, Reach (mainStep memory.diagram o) (startJobs o jobs) s →
        (∀ diagram ∈ s.1.coreTimingDiagram, diagram.length < s.2.size) ∧
        ((∃ s', mainStep memory.diagram o s = .ok s') ∨ mainStep memory.diagram o s = .error .outOfMemory)) ∧
      (∀ status, Returns memory files argv status → status = 0 ∨ status = 3 ∧ ¬ AllGranted memory.diagram) ∧
      (AllGranted memory.diagram → ∀ status, Returns memory files argv status ↔ status = 0) := by
  obtain ⟨ho,fileName,file,-,hload⟩ := prepare_cases h
  refine ⟨ho,loaded_rows hload,fun rows hjobs hrows hbrief => ?_⟩
  subst hjobs
  refine ⟨fun s hreach => ?_,fun status => returns_cases h ho.cores hrows hbrief,returns_zero h ho.cores hrows hbrief⟩
  have hs := reach_buffered ho.cores hrows hbrief hreach
  exact ⟨hs.within,(mainStep_cases ho.cores hrows hbrief hs).imp (fun ⟨s',hs',_⟩ => ⟨s',hs'⟩) And.left⟩

-- simulator -c 3 -c2 p -s RR4: the last -c is the one that counts.
theorem main_returns_zero_proc1 : ∃ memory files, files ['p'] = some (fileText ['A'] [⟨0,8,4⟩,⟨4,6,1⟩]) ∧ ∀ status,
    Returns memory files [['-','c'],['3'],['-','c','2'],['p'],['-','s'],['R','R','4']] status ↔ status = 0 := by
  have hload : loadFile (fun _ => true) (fileText ['A'] [⟨0,8,4⟩,⟨4,6,1⟩]) = .ok (loadJobs 0 [⟨0,8,4⟩,⟨4,6,1⟩]) :=
    loadFile_whole (by decide) (by decide) (by simp [Row.Fits,Text.Fits]) (granted_all (fun _ => rfl) (by decide))
  have hread : readCommand [['-','c'],['3'],['-','c','2'],['p'],['-','s'],['R','R','4']] = .ok (⟨2,.rr,4⟩,['p']) := rfl
  have hprepare : prepare ⟨fun _ => true,fun _ _ => true⟩ (fun _ => some (fileText ['A'] [⟨0,8,4⟩,⟨4,6,1⟩])) _ = _ :=
    prepare_file hread rfl hload
  obtain ⟨-,-,hreturns⟩ := (main_returns_zero hprepare).2.2 _ rfl (by simp [Runnable])
    (by simp [Brief,lastArrival,totalRunTime])
  exact ⟨_,_,rfl,hreturns fun _ _ => rfl⟩

def schemeName : SchemeT → Int → List Char
  | .fcfs, _ => ['f','c','f','s']
  | .sjf, _ => ['s','j','f']
  | .psjf, _ => ['p','s','j','f']
  | .pri, _ => ['p','r','i']
  | .ppri, _ => ['p','p','r','i']
  | .rr, quantum => ['r','r'] ++ decimal quantum

-- An option with its argument in the same element of argv, or in the next one.
def given (opt : Char) (optarg : List Char) : List (List (List Char)) := [[['-',opt],optarg],['-' :: opt :: optarg]]

theorem readOptions_given {group : List (List Char)} (hg : group ∈ given opt optarg) (hopt : opt = 'c' ∨ opt = 's')
    (harg : optarg ≠ []) (hs : setOption opt optarg s = .ok s') (argv names : List (List Char)) :
    readOptions (group ++ argv) s names = readOptions argv s' names := by
  have hdash : opt ≠ '-' := by rcases hopt with rfl | rfl <;> decide
  rcases List.mem_cons.mp hg with rfl | hg
  · show readOptions (['-',opt] :: optarg :: argv) s names = _
    rw [readOptions,if_pos hopt,bind_ok _ hs]
    exact hdash
  · obtain rfl := List.mem_singleton.mp hg
    obtain ⟨c,cs,rfl⟩ := List.exists_cons_of_ne_nil harg
    show readOptions (('-' :: opt :: c :: cs) :: argv) s names = _
    rw [readOptions,if_pos hopt,bind_ok _ hs] <;> simp

theorem readOptions_name (h : ∀ c cs, fileName ≠ '-' :: c :: cs) (argv : List (List Char)) (s : Settings)
    (names : List (List Char)) : readOptions (fileName :: argv) s names = readOptions argv s (names ++ [fileName]) := by
  rw [readOptions]
  · exact h '-' []
  · exact fun c _ _ he _ => h c [] he
  · exact fun c he _ => h c [] he
  · exact h

theorem setCores_decimal {cores : Nat} (h1 : 1 ≤ cores) (hf : Text.Fits cores) (s : Settings) :
    setOption 'c' (decimal cores) s = .ok { s with cores := cores } := by
  have hpos : ¬ (cores : Int) ≤ 0 := by omega
  rw [setOption,if_pos rfl,setCores,atoi_printed hf]
  exact if_neg hpos

theorem setScheme_name (scheme : SchemeT) {quantum : Int} (h1 : scheme = .rr → 1 ≤ quantum) (hf : Text.Fits quantum)
    (s : Settings) : setOption 's' (schemeName scheme quantum) s =
      .ok { s with scheme := some scheme, quantum := if scheme = .rr then quantum else s.quantum } := by
  cases scheme with
  | rr =>
    have hpos : ¬ quantum ≤ 0 := Int.not_le.mpr (h1 rfl)
    have hother {c : Char} (cs : List Char) (hc : 'r' ≠ c) : ¬ toLower (schemeName .rr quantum) = c :: cs := fun he =>
      hc (List.cons.inj he).1
    rw [setOption,if_neg (by decide),setScheme,if_neg (hother _ (by decide)),if_neg (hother _ (by decide)),
      if_neg (hother _ (by decide)),if_neg (hother _ (by decide)),if_neg (hother _ (by decide)),if_pos rfl]
    show (match atoi (decimal quantum) with | none => _ | some quantum => _) = _
    rw [atoi_printed hf]
    exact if_neg hpos
  | _ => rfl

def arrangements (o : Options) (fileName : List Char) : List (List (List Char)) :=
  (given 'c' (decimal o.cores)).flatMap fun c => (given 's' (schemeName o.scheme o.quantum)).flatMap fun s =>
    [c ++ s ++ [fileName],s ++ c ++ [fileName],c ++ [fileName] ++ s,s ++ [fileName] ++ c,[fileName] ++ c ++ s,
      [fileName] ++ s ++ c]

theorem readCommand_arranged (ho : o.Usable) (hcores : Text.Fits o.cores) (hquantum : Text.Fits o.quantum)
    (hrest : o.scheme ≠ .rr → o.quantum = 0) (hname : ∀ c cs, fileName ≠ '-' :: c :: cs)
    (hargv : argv ∈ arrangements o fileName) : readCommand argv = .ok (o,fileName) := by
  obtain ⟨c,hc,hargv⟩ := List.mem_flatMap.mp hargv
  obtain ⟨s,hs,hargv⟩ := List.mem_flatMap.mp hargv
  have hcore (rest names : List (List Char)) (t : Settings) :
      readOptions (c ++ rest) t names = readOptions rest { t with cores := o.cores } names :=
    readOptions_given hc (.inl rfl) (decimal_ne_nil _) (setCores_decimal ho.cores hcores t) rest names
  have hnone : schemeName o.scheme o.quantum ≠ [] := by cases o.scheme <;> simp [schemeName]
  have hscheme (rest names : List (List Char)) (t : Settings) : readOptions (s ++ rest) t names = readOptions rest
      { t with scheme := some o.scheme, quantum := if o.scheme = .rr then o.quantum else t.quantum } names :=
    readOptions_given hs (.inr rfl) hnone (setScheme_name o.scheme ho.quantum hquantum t) rest names
  have hcore' (names : List (List Char)) (t : Settings) := (congrArg (readOptions · t names) c.append_nil).symm.trans
    (hcore [] names t)
  have hscheme' (names : List (List Char)) (t : Settings) := (congrArg (readOptions · t names) s.append_nil).symm.trans
    (hscheme [] names t)
  have hq : (if o.scheme = .rr then o.quantum else 0) = o.quantum := by
    split
    · rfl
    · exact (hrest ‹_›).symm
  have hread : readOptions argv ⟨0,none,0⟩ [] = .ok (⟨o.cores,some o.scheme,o.quantum⟩,[fileName]) := by
    simp only [List.mem_cons,List.not_mem_nil,or_false] at hargv
    rcases hargv with rfl | rfl | rfl | rfl | rfl | rfl <;>
      simp only [List.append_assoc,List.cons_append,List.nil_append,hcore,hscheme,hcore',hscheme',
        readOptions_name hname,hq,readOptions]
  have h0 : ¬ (o.cores : Int) = 0 := by have := ho.cores; omega
  rw [readCommand,bind_ok _ hread]
  simp only [if_neg h0]
  rfl

theorem documented_usage_returns_zero (ho : o.Usable) (hcores : Text.Fits o.cores) (hquantum : Text.Fits o.quantum)
    (hrest : o.scheme ≠ .rr → o.quantum = 0) (hname : ∀ c cs, fileName ≠ '-' :: c :: cs)
    (hargv : argv ∈ arrangements o fileName) (hfile : files fileName = some (fileText header rows))
    (hheader : '\n' ∉ header) (hlen : header.length ≤ 1022) (hfits : ∀ row ∈ rows, row.Fits)
    (hjobs : Granted memory.jobs rows.length) (hrows : Runnable rows) (hbrief : Brief rows)
    (hdiagram : AllGranted memory.diagram) (status : Int) :
    prepare memory files argv = .ok (o,loadJobs 0 rows) ∧ (Returns memory files argv status ↔ status = 0) := by
  have hprepare : prepare memory files argv = .ok (o,loadJobs 0 rows) :=
    prepare_file (readCommand_arranged ho hcores hquantum hrest hname hargv) hfile
      (loadFile_whole hheader hlen hfits hjobs)
  exact ⟨hprepare,returns_zero hprepare ho.cores hrows hbrief hdiagram status⟩

-- simulator p -srr2 -c 1
theorem documented_usage_returns_zero_rr : ∃ memory files, files ['p'] = some (fileText ['A'] [⟨0,8,4⟩,⟨4,6,1⟩]) ∧
    Returns memory files [['p'],['-','s','r','r','2'],['-','c'],['1']] 0 := by
  have hargv : [['p'],['-','s','r','r','2'],['-','c'],['1']] ∈ arrangements ⟨1,.rr,2⟩ ['p'] := by decide
  obtain ⟨files,hfile⟩ : ∃ files : List Char → Option (List Char),
      files ['p'] = some (fileText ['A'] [⟨0,8,4⟩,⟨4,6,1⟩]) := ⟨fun _ => some _,rfl⟩
  obtain ⟨memory,hjobs,hdiagram⟩ : ∃ memory : Memory, (∀ n, memory.jobs n = true) ∧ AllGranted memory.diagram :=
    ⟨⟨fun _ => true,fun _ _ => true⟩,fun _ => rfl,fun _ _ => rfl⟩
  have hreturns := documented_usage_returns_zero ⟨by decide,by decide⟩ (by decide) (by decide) (by decide) (by simp)
    hargv hfile (by decide) (by decide) (by simp [Row.Fits,Text.Fits]) (granted_all hjobs (by decide))
    (by simp [Runnable]) (by simp [Brief,lastArrival,totalRunTime]) hdiagram 0
  exact ⟨memory,files,hfile,hreturns.2.mpr rfl⟩

end OperatingSystemLabs.Simulator

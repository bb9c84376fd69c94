import OperatingSystemLabs.Foundation.Loop
import OperatingSystemLabs.Foundation.Text
import OperatingSystemLabs.Simulator.Accounting

namespace OperatingSystemLabs.Simulator

open Text

inductive Refusal where
  | coresNotPositive
  | quantumNotPositive
  | unknownOption
  | coresMissing
  | schemeMissing
  | inputFileMissing
  | unableToOpen (fileName : List Char)
  | outOfMemory
  | illegalFormat
  deriving DecidableEq, Repr

inductive Stop where
  | refused (refusal : Refusal)
  | undefined
  | outOfBounds
  deriving DecidableEq, Repr

-- job_id is how many of the jobs_ct entries of `jobs` are set.
structure JobTable where
  jobsCt : Nat
  jobs : List SimulatorJobListT

-- int jobs_ct = 10;
def JobTable.first : JobTable := ⟨10,[]⟩

-- `grants n` is whether realloc finds n bytes for jobs; an entry takes 24. Twice too many is no int.
def JobTable.grow (grants : Nat → Bool) (t : JobTable) : Except Stop JobTable :=
  if t.jobs.length = t.jobsCt then
    if ¬ Text.Fits (t.jobsCt * 2 : Nat) then .error .undefined
    else if grants (t.jobsCt * 2 * 24) then .ok { t with jobsCt := t.jobsCt * 2 }
    else .error (.refused .outOfMemory)
  else .ok t

def rowFrom (arrivalTime runTime priority : List Char) : Option Row :=
  (atoi arrivalTime).bind fun arrivalTime => (atoi runTime).bind fun runTime =>
    (atoi priority).map fun priority => ⟨arrivalTime,runTime,priority⟩

def JobTable.enter (arrivalTime runTime priority : List Char) (t : JobTable) : Except Stop JobTable :=
  match rowFrom arrivalTime runTime priority with
  | none => .error .undefined
  | some row =>
      if t.jobs.length < t.jobsCt then
        .ok { t with jobs := t.jobs ++ [{
          jobId := t.jobs.length
          arrivalTime := row.arrivalTime
          runTime := row.runTime
          priority := row.priority
          coreId := -1
          arrived := false }] }
      else .error .outOfBounds

def readLine (grants : Nat → Bool) (t : JobTable) (line : List Char) : Except Stop JobTable :=
  let arrivalTime := strtok ',' (cString line)
  let runTime := strtok ',' arrivalTime.2
  let priority := strtok ',' runTime.2
  match arrivalTime.1, runTime.1, priority.1 with
  | some arrivalTime, some runTime, some priority =>
      t.grow grants >>= JobTable.enter arrivalTime runTime priority
  | _, _, _ => .error (.refused .illegalFormat)

-- while (fgets(line, 1024, file) != NULL)
def readLines (grants : Nat → Bool) (t : JobTable) (file : List Char) : Except Stop JobTable :=
  match h : fgets 1024 file with
  | none => .ok t
  | some (line,rest) =>
      have := fgets_shorter (by decide) h
      readLine grants t line >>= fun t => readLines grants t rest
termination_by file.length

-- The first (header) line is ignored.
def loadFile (grants : Nat → Bool) (file : List Char) : Except Stop (List SimulatorJobListT) := do
  let t ← readLines grants .first (match fgets 1024 file with | none => file | some (_,rest) => rest)
  return t.jobs

def Row.Fits (row : Row) : Prop := Text.Fits row.arrivalTime ∧ Text.Fits row.runTime ∧ Text.Fits row.priority

def rowText (row : Row) : List Char :=
  decimal row.arrivalTime ++ ',' :: (decimal row.runTime ++ ',' :: decimal row.priority)

def fileText (header : List Char) (rows : List Row) : List Char :=
  header ++ '\n' :: rows.flatMap fun row => rowText row ++ ['\n']

-- At least three values that are not empty; what comes after them does not count.
structure Spells (line : List Char) (row : Row) : Prop where
  values : ∃ arrivalTime runTime priority more,
    fields ',' (cString line) = arrivalTime :: runTime :: priority :: more ∧
      atoi arrivalTime = some row.arrivalTime ∧ atoi runTime = some row.runTime ∧ atoi priority = some row.priority

def rowOf (line : List Char) : Except Stop Row :=
  match fields ',' (cString line) with
  | arrivalTime :: runTime :: priority :: _ =>
      match rowFrom arrivalTime runTime priority with
      | some row => .ok row
      | none => .error .undefined
  | _ => .error (.refused .illegalFormat)

-- jobs_ct starts at 10 and is doubled.
def TableFull (n : Nat) : Prop := ∃ k, n = 10 * 2 ^ k

-- What entry n needs, and what the first n entries need, of realloc and of int jobs_ct.
def Room (grants : Nat → Bool) (n : Nat) : Prop := TableFull n → Text.Fits (n * 2 : Nat) ∧ grants (n * 2 * 24) = true

def Granted (grants : Nat → Bool) (n : Nat) : Prop := ∀ i < n, Room grants i

structure JobTable.Sound (grants : Nat → Bool) (t : JobTable) : Prop where
  full : TableFull t.jobsCt
  within : t.jobs.length ≤ t.jobsCt
  granted : Granted grants t.jobsCt

variable {grants : Nat → Bool} {t t' : JobTable} {file line header : List Char} {rows : List Row} {row : Row}
variable {ending : List Char}

theorem readLines_lines (grants : Nat → Bool) (t : JobTable) (file : List Char) :
    readLines grants t file = (lines 1024 file).foldlM (readLine grants) t := by
  induction t, file using readLines.induct with
  | case1 t file h =>
    rw [readLines,lines_none h]
    split
    · rfl
    · simp_all
  | case2 t file line rest h hshort ih =>
    rw [readLines,lines_some (by decide) h,List.foldlM_cons]
    split
    · simp_all
    · next line' rest' h' =>
      obtain ⟨rfl,rfl⟩ := Prod.mk.inj (Option.some.inj (h'.symm.trans h))
      exact congrArg _ (funext ih)

theorem between_doublings {n m : Nat} (hn : TableFull n) (hm : TableFull m) (hlt : n < m) : n * 2 ≤ m := by
  obtain ⟨k,rfl⟩ := hn
  obtain ⟨j,rfl⟩ := hm
  have hkj : k < j := (Nat.pow_lt_pow_iff_right (by decide)).mp (Nat.lt_of_mul_lt_mul_left hlt)
  have hpow : 2 ^ (k + 1) ≤ 2 ^ j := Nat.pow_le_pow_right (by decide) hkj
  rw [Nat.pow_succ] at hpow
  omega

theorem TableFull.double {n : Nat} (hn : TableFull n) : TableFull (n * 2) := by
  obtain ⟨k,rfl⟩ := hn
  exact ⟨k + 1,by rw [Nat.pow_succ,Nat.mul_assoc]⟩

theorem JobTable.Sound.doubled (ht : t.Sound grants) (hroom : Room grants t.jobsCt) :
    JobTable.Sound grants { t with jobsCt := t.jobsCt * 2 } where
  full := ht.full.double
  within := ht.within.trans (Nat.le_mul_of_pos_right _ (by decide))
  granted := by
    intro n hn hfull
    rcases Nat.lt_trichotomy n t.jobsCt with hlt | rfl | hlt
    · exact ht.granted n hlt hfull
    · exact hroom hfull
    · exact absurd (between_doublings ht.full hfull hlt) (Nat.not_le.mpr hn)

theorem JobTable.Sound.grow (ht : t.Sound grants) :
    (Room grants t.jobs.length ∧ ∃ t', t.grow grants = .ok t' ∧ t'.jobs = t.jobs ∧ t.jobs.length < t'.jobsCt ∧
      t'.Sound grants) ∨
    (¬ Text.Fits (t.jobs.length * 2 : Nat) ∧ TableFull t.jobs.length ∧ t.grow grants = .error .undefined) ∨
    (Text.Fits (t.jobs.length * 2 : Nat) ∧ TableFull t.jobs.length ∧ grants (t.jobs.length * 2 * 24) = false ∧
      t.grow grants = .error (.refused .outOfMemory)) := by
  rw [JobTable.grow]
  by_cases hfull : t.jobs.length = t.jobsCt
  · rw [if_pos hfull,hfull]
    by_cases hfits : Text.Fits (t.jobsCt * 2 : Nat)
    · rw [if_neg (not_not.mpr hfits)]
      cases hg : grants (t.jobsCt * 2 * 24) with
      | false => exact .inr (.inr ⟨hfits,ht.full,rfl,rfl⟩)
      | true =>
        have hpos : 0 < t.jobsCt := by
          obtain ⟨k,hk⟩ := ht.full
          exact hk ▸ Nat.mul_pos (by decide) (Nat.two_pow_pos k)
        exact .inl ⟨fun _ => ⟨hfits,hg⟩,_,rfl,rfl,by simp only; omega,ht.doubled fun _ => ⟨hfits,hg⟩⟩
    · rw [if_pos hfits]
      exact .inr (.inl ⟨hfits,ht.full,rfl⟩)
  · rw [if_neg hfull]
    have hlt := Nat.lt_of_le_of_ne ht.within hfull
    exact .inl ⟨ht.granted _ hlt,t,rfl,rfl,hlt,ht⟩

theorem loadJobs_append (n : Int) (rows more : List Row) :
    loadJobs n (rows ++ more) = loadJobs n rows ++ loadJobs (n + rows.length) more := by
  induction rows generalizing n with
  | nil => simp [loadJobs]
  | cons row rows ih =>
    rw [List.cons_append,loadJobs,loadJobs,ih,List.cons_append,List.length_cons]
    congr 3
    omega

theorem rowFrom_eq_some {a r p : List Char} :
    rowFrom a r p = some row ↔
      atoi a = some row.arrivalTime ∧ atoi r = some row.runTime ∧ atoi p = some row.priority := by
  obtain ⟨arrivalTime,runTime,priority⟩ := row
  rw [rowFrom]
  cases atoi a <;> cases atoi r <;> cases atoi p <;> simp

theorem rowOf_cases (line : List Char) :
    ((fields ',' (cString line)).length < 3 ∧ rowOf line = .error (.refused .illegalFormat)) ∨
    (3 ≤ (fields ',' (cString line)).length ∧ rowOf line = .error .undefined ∧ ∀ row, ¬ Spells line row) ∨
    ∃ row, rowOf line = .ok row ∧ Spells line row ∧ 3 ≤ (fields ',' (cString line)).length := by
  rw [rowOf]
  rcases hf : fields ',' (cString line) with _ | ⟨a,_ | ⟨r,_ | ⟨p,more⟩⟩⟩
  · exact .inl ⟨by simp,rfl⟩
  · exact .inl ⟨by simp,rfl⟩
  · exact .inl ⟨by simp,rfl⟩
  · refine .inr ?_
    cases hrow : rowFrom a r p with
    | none =>
      refine .inl ⟨by simp,by simp only [hrow],fun row hs => ?_⟩
      obtain ⟨a',r',p',more',hf',hvalues⟩ := hs
      cases hf.symm.trans hf'
      exact absurd (hrow.symm.trans (rowFrom_eq_some.mpr hvalues)) (by simp)
    | some row => exact .inr ⟨row,by simp only [hrow],⟨a,r,p,more,hf,rowFrom_eq_some.mp hrow⟩,by simp⟩

theorem readLine_rowOf (t : JobTable) (line : List Char) :
    readLine grants t line = if (fields ',' (cString line)).length < 3 then .error (.refused .illegalFormat)
      else t.grow grants >>= fun t' => rowOf line >>= fun row =>
        if t'.jobs.length < t'.jobsCt then
          .ok { t' with jobs := t'.jobs ++ loadJobs t'.jobs.length [row] }
        else .error .outOfBounds := by
  rw [readLine,rowOf]
  cases ha : (strtok ',' (cString line)).1 with
  | none =>
    rw [fields_none ha]
    rfl
  | some a =>
    rw [fields_some ha]
    cases hr : (strtok ',' (strtok ',' (cString line)).2).1 with
    | none =>
      rw [fields_none hr]
      rfl
    | some r =>
      rw [fields_some hr]
      cases hp : (strtok ',' (strtok ',' (strtok ',' (cString line)).2).2).1 with
      | none =>
        rw [fields_none hp]
        rfl
      | some p =>
        rw [fields_some hp,if_neg (by simp)]
        show t.grow grants >>= JobTable.enter a r p = _
        refine congrArg _ (funext fun t' => ?_)
        simp only [JobTable.enter]
        cases rowFrom a r p with
        | none => rfl
        | some row => rfl

theorem Spells.fields (h : Spells line row) : 3 ≤ (fields ',' (cString line)).length := by
  obtain ⟨a,r,p,more,hf,-⟩ := h
  rw [hf,List.length_cons,List.length_cons,List.length_cons]
  omega

theorem Spells.unique {row' : Row} (h : Spells line row) (h' : Spells line row') : row = row' := by
  obtain ⟨a,r,p,more,hf,hvalues⟩ := h
  obtain ⟨a',r',p',more',hf',hvalues'⟩ := h'
  cases hf.symm.trans hf'
  exact Option.some.inj ((rowFrom_eq_some.mpr hvalues).symm.trans (rowFrom_eq_some.mpr hvalues'))

inductive LineRead (grants : Nat → Bool) (t : JobTable) (line : List Char) : Except Stop JobTable → Prop
  | illegal : (fields ',' (cString line)).length < 3 → LineRead grants t line (.error (.refused .illegalFormat))
  | overflow : 3 ≤ (fields ',' (cString line)).length → TableFull t.jobs.length →
      ¬ Text.Fits (t.jobs.length * 2 : Nat) → LineRead grants t line (.error .undefined)
  | denied : 3 ≤ (fields ',' (cString line)).length → TableFull t.jobs.length → Text.Fits (t.jobs.length * 2 : Nat) →
      grants (t.jobs.length * 2 * 24) = false → LineRead grants t line (.error (.refused .outOfMemory))
  | noInt : 3 ≤ (fields ',' (cString line)).length → Room grants t.jobs.length → (∀ row, ¬ Spells line row) →
      LineRead grants t line (.error .undefined)
  | entered {row : Row} {t' : JobTable} : Spells line row → Room grants t.jobs.length →
      t'.jobs = t.jobs ++ loadJobs t.jobs.length [row] → t'.Sound grants → LineRead grants t line (.ok t')

theorem readLine_read (ht : t.Sound grants) (line : List Char) : LineRead grants t line (readLine grants t line) := by
  rw [readLine_rowOf]
  by_cases hlt : (fields ',' (cString line)).length < 3
  · rw [if_pos hlt]
    exact .illegal hlt
  · rw [if_neg hlt]
    have hge := Nat.not_lt.mp hlt
    rcases ht.grow with ⟨hroom,t',hgrow,hjobs,hlen,ht'⟩ | ⟨hfits,hfull,hgrow⟩ | ⟨hfits,hfull,hno,hgrow⟩
    · rw [bind_ok _ hgrow,hjobs]
      rcases rowOf_cases line with ⟨h3,-⟩ | ⟨-,hrow,hspells⟩ | ⟨row,hrow,hspells,-⟩
      · exact absurd h3 hlt
      · rw [hrow]
        exact .noInt hge hroom hspells
      · rw [bind_ok _ hrow,if_pos hlen]
        refine .entered hspells hroom rfl ⟨ht'.full,?_,ht'.granted⟩
        rw [List.length_append]
        exact hlen
    · rw [hgrow]
      exact .overflow hge hfull hfits
    · rw [hgrow]
      exact .denied hge hfull hfits hno

theorem readLine_illegal_iff (ht : t.Sound grants) :
    readLine grants t line = .error (.refused .illegalFormat) ↔ (fields ',' (cString line)).length < 3 := by
  have h := readLine_read ht line
  generalize readLine grants t line = read at h
  cases h with
  | illegal hlt => exact iff_of_true rfl hlt
  | overflow hge => exact iff_of_false (by simp) (Nat.not_lt.mpr hge)
  | denied hge => exact iff_of_false (by simp) (Nat.not_lt.mpr hge)
  | noInt hge => exact iff_of_false (by simp) (Nat.not_lt.mpr hge)
  | entered hs => exact iff_of_false (by simp) (Nat.not_lt.mpr hs.fields)

theorem readLine_memory_iff (ht : t.Sound grants) : readLine grants t line = .error (.refused .outOfMemory) ↔
    3 ≤ (fields ',' (cString line)).length ∧ TableFull t.jobs.length ∧ Text.Fits (t.jobs.length * 2 : Nat) ∧
      grants (t.jobs.length * 2 * 24) = false := by
  have h := readLine_read ht line
  generalize readLine grants t line = read at h
  have hroom (h : Room grants t.jobs.length) : ¬ (TableFull t.jobs.length ∧ Text.Fits (t.jobs.length * 2 : Nat) ∧
      grants (t.jobs.length * 2 * 24) = false) :=
    fun ⟨hfull,_,hno⟩ => absurd (hno.symm.trans (h hfull).2) (by decide)
  cases h with
  | illegal hlt => exact iff_of_false (by simp) fun hge => absurd hlt (Nat.not_lt.mpr hge.1)
  | overflow _ _ hfits => exact iff_of_false (by simp) fun h => hfits h.2.2.1
  | denied hge hfull hfits hno => exact iff_of_true rfl ⟨hge,hfull,hfits,hno⟩
  | noInt _ h => exact iff_of_false (by simp) fun hall => hroom h hall.2
  | entered _ h => exact iff_of_false (by simp) fun hall => hroom h hall.2

theorem loaded_snoc {row : Row} (hjobs : t.jobs = loadJobs 0 rows)
    (h : t'.jobs = t.jobs ++ loadJobs t.jobs.length [row]) : t'.jobs = loadJobs 0 (rows ++ [row]) := by
  rw [h,loadJobs_append,hjobs,loadJobs_length,Int.zero_add]

theorem Granted.snoc {n : Nat} (h : Granted grants n) (hroom : Room grants n) : Granted grants (n + 1) := by
  intro i hi
  rcases Nat.lt_succ_iff_lt_or_eq.mp hi with hlt | rfl
  · exact h i hlt
  · exact hroom

theorem lines_loaded {ls : List (List Char)} (ht : t.Sound grants) (hjobs : t.jobs = loadJobs 0 rows)
    (hg : Granted grants rows.length) (h : ls.foldlM (readLine grants) t = .ok t') :
    ∃ more, List.Forall₂ Spells ls more ∧ Granted grants (rows ++ more).length ∧ t'.jobs = loadJobs 0 (rows ++ more) ∧
      t'.Sound grants := by
  induction ls generalizing t rows with
  | nil =>
    cases h
    exact ⟨[],.nil,by rwa [List.append_nil],by rwa [List.append_nil],ht⟩
  | cons line ls ih =>
    rw [List.foldlM_cons] at h
    obtain ⟨u,hu,h⟩ := ok_of_bind h
    have hread := readLine_read ht line
    rw [hu] at hread
    cases hread with
    | @entered row _ hs hroom hnew hu' =>
      have hlen : t.jobs.length = rows.length := by rw [hjobs,loadJobs_length]
      have hg' : Granted grants (rows ++ [row]).length := by
        rw [List.length_append]
        exact hg.snoc (hlen ▸ hroom)
      obtain ⟨more,hmore,hgmore,hjobs',ht'⟩ := ih hu' (loaded_snoc hjobs hnew) hg' h
      rw [List.append_assoc] at hgmore hjobs'
      exact ⟨row :: more,.cons hs hmore,hgmore,hjobs',ht'⟩

theorem lines_load {ls : List (List Char)} {more : List Row} (ht : t.Sound grants) (hjobs : t.jobs = loadJobs 0 rows)
    (hs : List.Forall₂ Spells ls more) (hg : Granted grants (rows ++ more).length) :
    ∃ t', ls.foldlM (readLine grants) t = .ok t' ∧ t'.jobs = loadJobs 0 (rows ++ more) ∧ t'.Sound grants := by
  induction hs generalizing t rows with
  | nil => exact ⟨t,rfl,by rwa [List.append_nil],ht⟩
  | @cons line row ls more hline hs ih =>
    have hroom : Room grants t.jobs.length := by
      refine hg _ ?_
      rw [hjobs,loadJobs_length,List.length_append,List.length_cons]
      omega
    have hread := readLine_read ht line
    rw [List.foldlM_cons]
    generalize readLine grants t line = read at hread
    cases hread with
    | illegal h3 => exact absurd hline.fields (Nat.not_le.mpr h3)
    | overflow _ hfull hfits => exact absurd (hroom hfull).1 hfits
    | denied _ hfull _ hno => exact absurd (hno.symm.trans (hroom hfull).2) (by decide)
    | noInt _ _ hnone => exact absurd hline (hnone row)
    | @entered row' u hs' _ hnew hu =>
      cases hline.unique hs'
      rw [List.append_cons] at hg ⊢
      exact ih hu (loaded_snoc hjobs hnew) hg

theorem loadFile_eq (grants : Nat → Bool) (file : List Char) :
    loadFile grants file = (lines 1024 file).tail.foldlM (readLine grants) .first >>= fun t => .ok t.jobs := by
  rw [loadFile,readLines_lines]
  cases h : fgets 1024 file with
  | none => rw [lines_none h]; rfl
  | some p => rw [lines_some (by decide) h]; rfl

theorem first_jobs : JobTable.first.jobs = loadJobs 0 [] := rfl

theorem first_sound (grants : Nat → Bool) : JobTable.first.Sound grants where
  full := ⟨0,rfl⟩
  within := by decide
  granted := by
    rintro n hn ⟨k,rfl⟩
    have := Nat.two_pow_pos k
    have hlt : 10 * 2 ^ k < 10 := hn
    omega

theorem granted_nil (grants : Nat → Bool) : Granted grants ([] : List Row).length := nofun

theorem loadFile_ok_iff {jobs : List SimulatorJobListT} : loadFile grants file = .ok jobs ↔
    ∃ rows, jobs = loadJobs 0 rows ∧ List.Forall₂ Spells (lines 1024 file).tail rows ∧ Granted grants rows.length := by
  rw [loadFile_eq]
  constructor
  · intro h
    obtain ⟨t,ht,h⟩ := ok_of_bind h
    obtain ⟨rows,hs,hg,hjobs,-⟩ := lines_loaded (first_sound grants) first_jobs (granted_nil grants) ht
    exact ⟨rows,(Except.ok.inj h).symm.trans hjobs,hs,hg⟩
  · rintro ⟨rows,rfl,hs,hg⟩
    obtain ⟨t,ht,hjobs,-⟩ := lines_load (first_sound grants) first_jobs hs hg
    rw [bind_ok _ ht,hjobs,List.nil_append]

theorem loadFile_stops {stop : Stop} (P : Nat → List Char → Prop)
    (hstop : ∀ t line, t.Sound grants → (readLine grants t line = .error stop ↔ P t.jobs.length line)) :
    loadFile grants file = .error stop ↔ ∃ l line r rows, (lines 1024 file).tail = l ++ line :: r ∧
      List.Forall₂ Spells l rows ∧ Granted grants rows.length ∧ P rows.length line := by
  have hload : loadFile grants file = .error stop ↔
      (lines 1024 file).tail.foldlM (readLine grants) .first = .error stop := by
    rw [loadFile_eq,bind_error_iff]
    exact or_iff_left fun ⟨_,_,h⟩ => by cases h
  rw [hload,foldlM_error_iff]
  constructor
  · rintro ⟨l,line,r,t,hls,hl,hline⟩
    obtain ⟨rows,hs,hg,hjobs,ht⟩ := lines_loaded (first_sound grants) first_jobs (granted_nil grants) hl
    have hlen : t.jobs.length = rows.length := by rw [hjobs,loadJobs_length,List.nil_append]
    exact ⟨l,line,r,rows,hls,hs,hg,hlen ▸ (hstop t line ht).mp hline⟩
  · rintro ⟨l,line,r,rows,hls,hs,hg,hline⟩
    obtain ⟨t,hl,hjobs,ht⟩ := lines_load (first_sound grants) first_jobs hs hg
    have hlen : t.jobs.length = rows.length := by rw [hjobs,loadJobs_length,List.nil_append]
    exact ⟨l,line,r,t,hls,hl,(hstop t line ht).mpr (hlen ▸ hline)⟩

theorem loader_accepts (grants : Nat → Bool) (file : List Char) :
    (∀ jobs, loadFile grants file = .ok jobs ↔ ∃ rows, jobs = loadJobs 0 rows ∧
      List.Forall₂ Spells (lines 1024 file).tail rows ∧ Granted grants rows.length) ∧
    (loadFile grants file = .error (.refused .illegalFormat) ↔
      ∃ l line r rows, (lines 1024 file).tail = l ++ line :: r ∧ List.Forall₂ Spells l rows ∧
        Granted grants rows.length ∧ (fields ',' (cString line)).length < 3) ∧
    (loadFile grants file = .error (.refused .outOfMemory) ↔
      ∃ l line r rows, (lines 1024 file).tail = l ++ line :: r ∧ List.Forall₂ Spells l rows ∧
        Granted grants rows.length ∧ 3 ≤ (fields ',' (cString line)).length ∧ TableFull rows.length ∧
        Text.Fits (rows.length * 2 : Nat) ∧ grants (rows.length * 2 * 24) = false) ∧
    loadFile grants file ≠ .error .outOfBounds := by
  refine ⟨fun jobs => loadFile_ok_iff,
    loadFile_stops (fun _ line => (fields ',' (cString line)).length < 3) fun t line ht => readLine_illegal_iff ht,
    loadFile_stops (fun n line => 3 ≤ (fields ',' (cString line)).length ∧ TableFull n ∧
      Text.Fits (n * 2 : Nat) ∧ grants (n * 2 * 24) = false) fun t line ht => readLine_memory_iff ht,
    fun h => ?_⟩
  have hnever : ∀ t line, t.Sound grants → (readLine grants t line = .error .outOfBounds ↔ False) := by
    intro t line ht
    have hread := readLine_read ht line
    generalize readLine grants t line = read at hread
    cases hread <;> simp
  obtain ⟨l,line,r,rows,-,-,-,hfalse⟩ := (loadFile_stops (fun _ _ => False) hnever).mp h
  exact hfalse

theorem granted_all {n : Nat} (hgrants : ∀ size, grants size = true) (hn : n ≤ 10 * 2 ^ 27) : Granted grants n := by
  intro i hi hfull
  have hhalf := between_doublings hfull ⟨27,rfl⟩ (by omega)
  exact ⟨⟨by omega,by omega⟩,hgrants _⟩

theorem decimal_avoids {c : Char} {i : Int} (hc : c ≠ '-') (hd : c.isDigit = false) : c ∉ decimal i := fun h =>
  (decimal_char h).elim hc fun h => by simp [hd] at h

theorem rowText_avoids {c : Char} (hc : c ≠ ',') (hc' : c ≠ '-') (hd : c.isDigit = false) : c ∉ rowText row := by
  simp only [rowText,List.mem_append,List.mem_cons]
  rintro (h | h | h | h | h)
  · exact decimal_avoids hc' hd h
  · exact hc h
  · exact decimal_avoids hc' hd h
  · exact hc h
  · exact decimal_avoids hc' hd h

theorem rowText_length (hr : row.Fits) : (rowText row).length ≤ 35 := by
  have ha := decimal_length hr.1
  have hr' := decimal_length hr.2.1
  have hp := decimal_length hr.2.2
  simp only [rowText,List.length_append,List.length_cons]
  omega

theorem spells_rowText (hr : row.Fits) (hending : ending = [] ∨ ending = ['\n']) :
    Spells (rowText row ++ ending) row := by
  have hcomma {i : Int} : ',' ∉ decimal i := decimal_avoids (by decide) (by decide)
  have hend : ',' ∉ ending ∧ Char.ofNat 0 ∉ ending ∧ ∀ c ∈ ending.head?, c.isDigit = false := by
    rcases hending with rfl | rfl <;> simp
  have hcut : cString (rowText row ++ ending) = rowText row ++ ending := by
    refine List.takeWhile_eq_self_iff.mpr fun c hc => decide_eq_true fun h0 => ?_
    rcases List.mem_append.mp hc with hc | hc
    · exact rowText_avoids (by rw [h0]; decide) (by rw [h0]; decide) (by rw [h0]; decide) hc
    · exact hend.2.1 (h0 ▸ hc)
  have hlast : fields ',' (decimal row.priority ++ ending) = [decimal row.priority ++ ending] := by
    refine fields_last (List.append_ne_nil_of_left_ne_nil (decimal_ne_nil _) _) fun h => ?_
    exact (List.mem_append.mp h).elim hcomma hend.1
  refine ⟨_,_,_,[],?_,atoi_printed hr.1,atoi_printed hr.2.1,atoi_decimal hr.2.2 hend.2.2⟩
  rw [hcut,rowText,List.append_assoc,List.cons_append,List.append_assoc,List.cons_append,
    fields_token (decimal_ne_nil _) hcomma,fields_token (decimal_ne_nil _) hcomma,hlast]

theorem lines_rows (hrows : ∀ row ∈ rows, row.Fits) (rest : List Char) :
    lines 1024 ((rows.flatMap fun row => rowText row ++ ['\n']) ++ rest) =
      rows.map (fun row => rowText row ++ ['\n']) ++ lines 1024 rest := by
  induction rows with
  | nil => rfl
  | cons row rows ih =>
    obtain ⟨hrow,hrows⟩ := List.forall_mem_cons.mp hrows
    have hnewline : '\n' ∉ rowText row := rowText_avoids (by decide) (by decide) (by decide)
    have hlen := rowText_length hrow
    rw [List.flatMap_cons,List.append_assoc,List.append_assoc,List.singleton_append,lines_line hnewline (by omega),
      ih hrows]
    rfl

theorem spells_rows (hrows : ∀ row ∈ rows, row.Fits) :
    List.Forall₂ Spells (rows.map fun row => rowText row ++ ['\n']) rows := by
  rw [List.forall₂_map_left_iff,List.forall₂_same]
  exact fun row hrow => spells_rowText (hrows row hrow) (.inr rfl)

theorem loadFile_text {rest : List Char} {more : List Row} (hheader : '\n' ∉ header) (hlen : header.length ≤ 1022)
    (hrows : ∀ row ∈ rows, row.Fits) (hrest : List.Forall₂ Spells (lines 1024 rest) more)
    (hg : Granted grants (rows ++ more).length) :
    loadFile grants (fileText header rows ++ rest) = .ok (loadJobs 0 (rows ++ more)) := by
  refine loadFile_ok_iff.mpr ⟨_,rfl,?_,hg⟩
  rw [fileText,List.append_assoc,List.cons_append,lines_line hheader (by omega),List.tail_cons,lines_rows hrows]
  exact List.rel_append (spells_rows hrows) hrest

theorem loadFile_whole (hheader : '\n' ∉ header) (hlen : header.length ≤ 1022) (hrows : ∀ row ∈ rows, row.Fits)
    (hg : Granted grants rows.length) : loadFile grants (fileText header rows) = .ok (loadJobs 0 rows) := by
  have hnone : loadFile grants (fileText header rows ++ []) = .ok (loadJobs 0 (rows ++ [])) :=
    loadFile_text hheader hlen hrows .nil (by rwa [List.append_nil])
  rwa [List.append_nil,List.append_nil] at hnone

theorem loader_reads_back (hheader : '\n' ∉ header) (hlen : header.length ≤ 1022) (hrows : ∀ row ∈ rows, row.Fits) :
    (Granted grants rows.length → loadFile grants (fileText header rows) = .ok (loadJobs 0 rows)) ∧
    ∀ last : Row, last.Fits → Granted grants (rows.length + 1) →
      loadFile grants (fileText header rows ++ rowText last) = .ok (loadJobs 0 (rows ++ [last])) := by
  refine ⟨loadFile_whole hheader hlen hrows,fun last hlast hg => loadFile_text hheader hlen hrows ?_ ?_⟩
  · have hshort := rowText_length hlast
    have hsome : rowText last ≠ [] := List.append_ne_nil_of_left_ne_nil (decimal_ne_nil _) _
    have hnewline : '\n' ∉ rowText last := rowText_avoids (by decide) (by decide) (by decide)
    rw [lines_last hsome hnewline (by omega)]
    refine .cons ?_ .nil
    simpa using spells_rowText hlast (.inl rfl)
  · rwa [List.length_append]

-- examples/proc1.csv, with a shorter header.
theorem loader_reads_back_proc1 :
    loadFile (fun _ => false) (fileText ['A','r','r','i','v','a','l'] [⟨0,8,4⟩,⟨4,6,1⟩,⟨20,7,3⟩] ++ rowText ⟨22,3,2⟩) =
      .ok (loadJobs 0 [⟨0,8,4⟩,⟨4,6,1⟩,⟨20,7,3⟩,⟨22,3,2⟩]) := by
  have hsmall : Granted (fun _ => false) 4 := by
    rintro n hn ⟨k,rfl⟩
    have := Nat.two_pow_pos k
    omega
  exact (loader_reads_back (by decide) (by decide) (by simp [Row.Fits,Text.Fits])).2 ⟨22,3,2⟩
    (by simp [Row.Fits,Text.Fits]) hsmall

end OperatingSystemLabs.Simulator

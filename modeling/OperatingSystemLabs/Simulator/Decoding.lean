import OperatingSystemLabs.Foundation.PrefixCode
import OperatingSystemLabs.Simulator.Diagram

namespace OperatingSystemLabs.Simulator

open PrefixCode

-- What a core does in a tick: nothing, or it runs the job with this id.
abbrev Occupant := Option Int

def cellText : Occupant → List Char
  | none => ['-']
  | some jobId => timeStringOf jobId

def diagram (occupants : List Occupant) : List Char := (occupants.map cellText).flatten

-- The ids whose text is not cut off.
def Legible (occupant : Occupant) : Prop := ∀ jobId ∈ occupant, 0 ≤ jobId ∧ jobId < 10 ^ 7

def occupant (log : List Event) (core time : Int) : Occupant :=
  ((slots log).find? (fun slot => slot.time = time ∧ slot.coreId = core)).map (·.jobId)

def occupants (log : List Event) (core : Int) (time : Nat) : List Occupant :=
  (List.range time).map (fun t : Nat => occupant log core t)

def bareChar (n : Nat) : Char :=
  if n < 10 then n.digitChar else if n < 36 then Char.ofNat (n - 10 + 97) else Char.ofNat (n - 36 + 65)

variable {n : Nat} {a b : Occupant} {o o' : Options} {rows rows' : List Row} {m m' : Machine}

theorem timeStringOf_bare (h : n < 62) : timeStringOf n = [bareChar n] := by
  unfold timeStringOf bareChar
  by_cases h10 : n < 10
  · rw [if_pos (by omega),if_pos h10]
    change n.repr.toList = _
    rw [Nat.toList_repr,Nat.toDigits_of_lt_base h10]
  · rw [if_neg (by omega),if_neg h10]
    by_cases h36 : n < 36
    · rw [if_pos (by omega),if_pos h36]
      congr 2
      omega
    · rw [if_neg (by omega),if_pos (by omega),if_neg h36]
      congr 2
      omega

theorem timeStringOf_parenthesised (h : 62 ≤ n) (hlt : n < 10 ^ 7) :
    timeStringOf n = '(' :: (Nat.toDigits 10 n ++ [')']) := by
  have hdigits : (Nat.toDigits 10 n).length ≤ 7 := (Nat.length_toDigits_le_iff (by decide) (by decide)).mpr hlt
  unfold timeStringOf
  rw [if_neg (by omega),if_neg (by omega),if_neg (by omega)]
  change List.take 9 ('(' :: n.repr.toList ++ [')']) = _
  rw [Nat.toList_repr]
  refine List.take_of_length_le ?_
  simp only [List.length_append,List.length_cons,List.length_nil]
  omega

def bareCell : Nat → Occupant
  | 0 => none
  | n + 1 => some n

def bareChars : List Char := '-' :: (List.range 62).map bareChar

theorem bareChars_nodup : bareChars.Nodup := by decide

theorem parenthesis_not_bare : '(' ∉ bareChars := by decide

theorem closing_not_digit (n : Nat) : ')' ∉ Nat.toDigits 10 n := by
  intro h
  exact absurd (Nat.isDigit_of_mem_toDigits (by decide) (by decide) h) (by decide)

theorem toDigits_injective {m n : Nat} (h : Nat.toDigits 10 m = Nat.toDigits 10 n) : m = n := by
  rw [← Nat.ofDigitChars_ten_toDigits (n := m),h,Nat.ofDigitChars_ten_toDigits]

inductive Shape (a : Occupant) : Prop
  | bare {i : Nat} {c : Char} : a = bareCell i → bareChars[i]? = some c → cellText a = [c] → Shape a
  | parenthesised {n : Nat} : a = some (n : Int) → cellText a = '(' :: (Nat.toDigits 10 n ++ [')']) → Shape a

theorem shape_of_legible (h : Legible a) : Shape a := by
  cases a with
  | none => exact .bare (i := 0) rfl rfl rfl
  | some jobId =>
    obtain ⟨h0,hlt⟩ := h jobId rfl
    obtain ⟨n,rfl⟩ := Int.eq_ofNat_of_zero_le h0
    by_cases hn : n < 62
    · refine .bare (i := n + 1) rfl ?_ (timeStringOf_bare hn)
      simp [bareChars,hn]
    · exact .parenthesised rfl (timeStringOf_parenthesised (Nat.le_of_not_lt hn) (by omega))

theorem cellText_ne_nil (a : Occupant) : cellText a ≠ [] := by
  cases a with
  | none => exact List.cons_ne_nil _ _
  | some jobId => exact timeStringOf_ne_nil jobId

theorem cellText_injective (ha : Legible a) (hb : Legible b) (h : cellText a = cellText b) : a = b := by
  cases shape_of_legible ha with
  | bare hi hc hbare =>
    rw [hbare] at h
    cases shape_of_legible hb with
    | bare hj hd hbare' =>
      rw [hbare'] at h
      cases h
      have hlt := (List.getElem?_eq_some_iff.mp hc).1
      rw [hi,hj,(List.getElem?_inj hlt bareChars_nodup).mp (hc.trans hd.symm)]
    | parenthesised _ hlong => simp [hlong] at h
  | parenthesised hm hlong =>
    rw [hlong] at h
    cases shape_of_legible hb with
    | bare _ _ hbare => simp [hbare] at h
    | parenthesised hn hlong' =>
      rw [hlong'] at h
      have hdigits := List.append_cancel_right (List.cons.inj h).2
      rw [hm,hn,toDigits_injective hdigits]

theorem cells_prefixFree : PrefixFree (cellText '' {a | Legible a}) where
  nonempty := by
    rintro ⟨a,-,ha⟩
    exact cellText_ne_nil a ha
  alone := by
    rintro _ ⟨a,ha,rfl⟩ _ ⟨b,hb,rfl⟩ h
    cases shape_of_legible ha with
    | bare _ hc hbare =>
      rw [hbare] at h ⊢
      cases shape_of_legible hb with
      | bare _ _ hbare' =>
        rw [hbare'] at h ⊢
        obtain ⟨rfl,-⟩ := List.cons_prefix_cons.mp h
        rfl
      | parenthesised _ hlong =>
        rw [hlong] at h
        obtain ⟨rfl,-⟩ := List.cons_prefix_cons.mp h
        exact absurd (List.mem_of_getElem? hc) parenthesis_not_bare
    | @parenthesised m _ hlong =>
      rw [hlong] at h ⊢
      cases shape_of_legible hb with
      | bare _ _ hbare =>
        rw [hbare] at h
        have hlen := h.length_le
        simp at hlen
      | @parenthesised n _ hlong' =>
        rw [hlong'] at h ⊢
        rw [marked_words_apart (closing_not_digit m) (closing_not_digit n) (List.cons_prefix_cons.mp h).2]

theorem diagram_decodes {xs ys : List Occupant} (hxs : ∀ a ∈ xs, Legible a) (hys : ∀ a ∈ ys, Legible a)
    (h : diagram xs = diagram ys) : xs = ys ∧ xs.length = ys.length := by
  have hsame := cells_prefixFree.decodes (fun _ _ => cellText_injective) hxs hys h
  exact ⟨hsame,congrArg List.length hsame⟩

theorem diagram_decodes_mixed : occupants [.executed 0 7 0,.executed 2 1234567 0] 0 3 = [some 7,none,some 1234567] ∧
    (occupants [.executed 0 7 0,.executed 2 1234567 0] 0 3).length = 3 :=
  diagram_decodes (by simp [occupants,occupant,slots,Event.execution?,Legible,List.range_succ])
    (by simp [Legible]) rfl


theorem tickText_occupant (log : List Event) (core time : Int) :
    tickText log core time = cellText (occupant log core time) := by
  unfold tickText occupant
  cases (slots log).find? (fun slot => slot.time = time ∧ slot.coreId = core) <;> rfl

theorem tickTexts_occupants (log : List Event) (core : Int) (time : Nat) :
    (tickTexts log core time).flatten = diagram (occupants log core time) := by
  rw [diagram,occupants,List.map_map,tickTexts]
  congr 1
  exact List.map_congr_left fun t _ => tickText_occupant log core t

theorem loaded_below {job : SimulatorJobListT} {k : Int} (h : job ∈ loadJobs k rows) :
    k ≤ job.jobId ∧ job.jobId < k + rows.length := by
  induction rows generalizing k with
  | nil => cases h
  | cons row rows ih =>
    rw [List.length_cons]
    rcases List.mem_cons.mp h with rfl | h
    · dsimp only
      omega
    · have := ih h
      omega

theorem visits_slots_loaded (hcores : 1 ≤ o.cores) (h : Runnable rows) (hv : Visits o rows m) :
    ∀ slot ∈ slots m.log, ∃ loaded ∈ loadJobs 0 rows, loaded.jobId = slot.jobId := by
  let Q (m : Machine) : Prop := ∀ slot ∈ slots m.log, ∃ loaded ∈ loadJobs 0 rows, loaded.jobId = slot.jobId
  have hstart : Q (start o rows) := by simp [Q,start,slots]
  refine visits_induction hcores h hstart ?_ hv
  intro m m' hv hs hslots hm
  have hcalled (call : Scheduler.Call) (ret : Int) : ∀ slot ∈ slots (m.log ++ [.called call ret]),
      ∃ loaded ∈ loadJobs 0 rows, loaded.jobId = slot.jobId := by
    rw [slots_called]
    exact hslots
  cases hm with
  | ran =>
    intro slot hslot
    rw [slots_append] at hslot
    rcases List.mem_append.mp hslot with hslot | hslot
    · exact hslots slot hslot
    · obtain ⟨job,hj,-,he⟩ := mem_executions (mem_slots.mp hslot)
      obtain ⟨loaded,hl,hc⟩ := (visits_recorded hcores h hv).origin job hj
      obtain ⟨-,hid,-⟩ := (Event.executed.injEq ..).mp he
      exact ⟨loaded,hl,hc.jobId.trans hid.symm⟩
  | finished => exact hcalled _ _
  | expired => exact hcalled _ _
  | arrived => exact hcalled _ _
  | _ => exact hslots

theorem visits_legible (hcores : 1 ≤ o.cores) (h : Runnable rows) (hfew : rows.length ≤ 10 ^ 7) (hv : Visits o rows m)
    (core : Int) (time : Nat) : ∀ a ∈ occupants m.log core time, Legible a := by
  intro a ha jobId hid
  obtain ⟨t,-,rfl⟩ := List.mem_map.mp ha
  obtain ⟨slot,hslot,rfl⟩ := Option.map_eq_some_iff.mp hid
  obtain ⟨loaded,hl,hloaded⟩ := visits_slots_loaded hcores h hv slot (List.mem_of_find?_eq_some hslot)
  have hbounds := loaded_below hl
  omega

theorem visits_diagram (hcores : 1 ≤ o.cores) (h : Runnable rows) (hv : Visits o rows m) :
    ∃ n : Nat, m.time = n ∧
      ∀ c : Nat, c < o.cores → m.coreTimingDiagram[c]? = some (diagram (occupants m.log c n)) := by
  obtain ⟨n,hn,hshown⟩ := (visits_pictured hcores h hv).elapsed
  exact ⟨n,hn,fun c hc => by rw [hshown c hc,tickTexts_occupants]⟩

theorem same_diagram_same_run (hcores : 1 ≤ o.cores) (hcores' : 1 ≤ o'.cores) (h : Runnable rows)
    (h' : Runnable rows') (hfew : rows.length ≤ 10 ^ 7) (hfew' : rows'.length ≤ 10 ^ 7) (hv : Visits o rows m)
    (hv' : Visits o' rows' m') {c : Nat} (hc : c < o.cores) (hc' : c < o'.cores)
    (hsame : m.coreTimingDiagram[c]? = m'.coreTimingDiagram[c]?) :
    m.time = m'.time ∧ ∀ t : Nat, t < m.time → occupant m.log c t = occupant m'.log c t := by
  obtain ⟨n,hn,hshown⟩ := visits_diagram hcores h hv
  obtain ⟨n',hn',hshown'⟩ := visits_diagram hcores' h' hv'
  rw [hshown c hc,hshown' c hc'] at hsame
  have heq := cells_prefixFree.decodes (fun _ _ => cellText_injective) (visits_legible hcores h hfew hv c n)
    (visits_legible hcores' h' hfew' hv' c n') (Option.some.inj hsame)
  have hlen : n = n' := by simpa [occupants] using congrArg List.length heq
  subst hlen
  refine ⟨hn.trans hn'.symm,fun t ht => ?_⟩
  exact List.map_eq_map_iff.mp heq t (List.mem_range.mpr (by omega))

end OperatingSystemLabs.Simulator

import Mathlib.Data.List.TakeWhile
import Mathlib.Algebra.Order.Ring.Int

namespace OperatingSystemLabs.Text

def chunk : Nat → List Char → List Char × List Char
  | 0, cs => ([],cs)
  | _ + 1, [] => ([],[])
  | n + 1, c :: cs => if c = '\n' then ([c],cs) else (c :: (chunk n cs).1,(chunk n cs).2)

-- fgets(line, n, file): at most n - 1 characters, and none after a newline.
def fgets (n : Nat) : List Char → Option (List Char × List Char)
  | [] => none
  | c :: cs => some (chunk (n - 1) (c :: cs))

-- What str* functions see of an array: the characters before the first NUL.
def cString (line : List Char) : List Char := line.takeWhile (· ≠ Char.ofNat 0)

-- The next token, and what is left to search in the calls with a NULL argument.
def strtok (delim : Char) (s : List Char) : Option (List Char) × List Char :=
  match s.dropWhile (· = delim) with
  | [] => (none,[])
  | c :: cs => (some ((c :: cs).takeWhile (· ≠ delim)),((c :: cs).dropWhile (· ≠ delim)).tail)

def isSpace (c : Char) : Bool := c.toNat = 32 ∨ 9 ≤ c.toNat ∧ c.toNat ≤ 13

def Fits (v : Int) : Prop := -2147483648 ≤ v ∧ v ≤ 2147483647

instance (v : Int) : Decidable (Fits v) := inferInstanceAs (Decidable (_ ∧ _))

def digitsOf (s : List Char) : Int := Nat.ofDigitChars 10 (s.takeWhile Char.isDigit) 0

def signed : List Char → Int
  | '-' :: s => -digitsOf s
  | '+' :: s => digitsOf s
  | s => digitsOf s

-- Undefined, so none, where the value is no int.
def atoi (s : List Char) : Option Int :=
  if Fits (signed (s.dropWhile isSpace)) then some (signed (s.dropWhile isSpace)) else none

-- printf("%d", i)
def decimal (i : Int) : List Char := (if i < 0 then ['-'] else []) ++ Nat.toDigits 10 i.natAbs

def linesFrom (n : Nat) : Nat → List Char → List (List Char)
  | 0, _ => []
  | fuel + 1, file =>
      match fgets n file with
      | none => []
      | some (line,rest) => line :: linesFrom n fuel rest

def lines (n : Nat) (file : List Char) : List (List Char) := linesFrom n file.length file

def fields (delim : Char) (s : List Char) : List (List Char) := (s.splitOn delim).filter (· ≠ [])

variable {n k fuel : Nat} {file line rest cs s : List Char} {delim : Char} {i : Int}

theorem chunk_length (n : Nat) (cs : List Char) : (chunk n cs).1.length + (chunk n cs).2.length = cs.length := by
  induction n, cs using chunk.induct with
  | case1 cs => exact Nat.zero_add _
  | case2 n => rfl
  | case3 n cs =>
    rw [chunk,if_pos rfl,List.length_singleton,List.length_cons]
    exact Nat.add_comm ..
  | case4 n c cs hc ih =>
    rw [chunk,if_neg hc,List.length_cons]
    show (chunk n cs).1.length + 1 + (chunk n cs).2.length = cs.length + 1
    omega

theorem fgets_shorter (hn : 2 ≤ n) (h : fgets n file = some (line,rest)) : rest.length < file.length := by
  cases file with
  | nil => cases h
  | cons c cs =>
    obtain ⟨k,hk⟩ : ∃ k, n - 1 = k + 1 := ⟨n - 2,by omega⟩
    have hchunk : chunk (k + 1) (c :: cs) = (line,rest) := by
      rw [← hk]
      exact Option.some.inj h
    have hlen := chunk_length (k + 1) (c :: cs)
    have hone : 0 < (chunk (k + 1) (c :: cs)).1.length := by
      rw [chunk]
      split <;> simp
    rw [hchunk] at hlen hone
    show rest.length < (c :: cs).length
    exact hlen ▸ Nat.lt_add_of_pos_left hone

theorem linesFrom_enough (hn : 2 ≤ n) (hf : file.length ≤ fuel) (hk : file.length ≤ k) :
    linesFrom n fuel file = linesFrom n k file := by
  induction fuel generalizing k file with
  | zero =>
    obtain rfl := List.length_eq_zero_iff.mp (Nat.le_zero.mp hf)
    cases k <;> rfl
  | succ fuel ih =>
    cases k with
    | zero =>
      obtain rfl := List.length_eq_zero_iff.mp (Nat.le_zero.mp hk)
      rfl
    | succ k =>
      rw [linesFrom,linesFrom]
      cases hg : fgets n file with
      | none => rfl
      | some p =>
        have hshort := fgets_shorter hn hg
        exact congrArg (p.1 :: ·) (ih (by omega) (by omega))

theorem lines_none (h : fgets n file = none) : lines n file = [] := by
  cases file with
  | nil => rfl
  | cons c cs => cases h

theorem lines_some (hn : 2 ≤ n) (h : fgets n file = some (line,rest)) : lines n file = line :: lines n rest := by
  have hshort := fgets_shorter hn h
  cases file with
  | nil => cases h
  | cons c cs =>
    rw [lines,List.length_cons,linesFrom,h]
    rw [List.length_cons] at hshort
    exact congrArg (line :: ·) (linesFrom_enough hn (by omega) le_rfl)

theorem chunk_line (hs : '\n' ∉ s) (hn : s.length < n) : chunk n (s ++ '\n' :: rest) = (s ++ ['\n'],rest) := by
  induction s generalizing n with
  | nil =>
    obtain ⟨n,rfl⟩ := Nat.exists_eq_succ_of_ne_zero (Nat.ne_of_gt hn)
    rfl
  | cons c s ih =>
    obtain ⟨n,rfl⟩ := Nat.exists_eq_succ_of_ne_zero (Nat.ne_of_gt (Nat.zero_lt_of_lt hn))
    have hc : ¬ c = '\n' := fun he => hs (by simp [he])
    rw [List.cons_append,chunk,if_neg hc,ih (fun h => hs (List.mem_cons_of_mem c h)) (Nat.lt_of_succ_lt_succ hn)]
    rfl

theorem fgets_line (hs : '\n' ∉ s) (hn : s.length + 1 < n) :
    fgets n (s ++ '\n' :: rest) = some (s ++ ['\n'],rest) := by
  have hchunk : chunk (n - 1) (s ++ '\n' :: rest) = (s ++ ['\n'],rest) := chunk_line hs (by omega)
  cases s with
  | nil => exact congrArg some hchunk
  | cons c s => exact congrArg some hchunk

theorem lines_line (hs : '\n' ∉ s) (hn : s.length + 1 < n) :
    lines n (s ++ '\n' :: rest) = (s ++ ['\n']) :: lines n rest := lines_some (by omega) (fgets_line hs hn)

theorem chunk_last (hs : '\n' ∉ s) (hn : s.length ≤ n) : chunk n s = (s,[]) := by
  induction s generalizing n with
  | nil => cases n <;> rfl
  | cons c s ih =>
    obtain ⟨n,rfl⟩ := Nat.exists_eq_succ_of_ne_zero (Nat.ne_of_gt (Nat.zero_lt_of_lt hn))
    have hc : ¬ c = '\n' := fun he => hs (by simp [he])
    rw [chunk,if_neg hc,ih (fun h => hs (List.mem_cons_of_mem c h)) (Nat.le_of_succ_le_succ hn)]

theorem lines_last (h0 : s ≠ []) (hs : '\n' ∉ s) (hn : s.length < n) : lines n s = [s] := by
  have hone : 0 < s.length := List.length_pos_iff.mpr h0
  have hfgets : fgets n s = some (s,[]) := by
    cases s with
    | nil => exact absurd rfl h0
    | cons c cs => exact congrArg some (chunk_last hs (by omega))
  rw [lines_some (by omega) hfgets]
  rfl

theorem fields_delim (delim : Char) (s : List Char) : fields delim (delim :: s) = fields delim s := by
  rw [fields,List.splitOn_cons_eq_if_modifyHead,if_pos (by simp)]
  rfl

theorem fields_dropWhile (delim : Char) (s : List Char) : fields delim (s.dropWhile (· = delim)) = fields delim s := by
  induction s with
  | nil => rfl
  | cons c s ih =>
    by_cases hc : c = delim
    · rw [List.dropWhile_cons_of_pos (by simpa using hc),ih,hc,fields_delim]
    · rw [List.dropWhile_cons_of_neg (by simpa using hc)]

theorem fields_token {t : List Char} (ht : t ≠ []) (hd : delim ∉ t) :
    fields delim (t ++ delim :: s) = t :: fields delim s := by
  rw [fields,List.splitOn_append_cons_self_of_not_mem hd,List.filter_cons_of_pos (by simpa using ht)]
  rfl

theorem fields_last {t : List Char} (ht : t ≠ []) (hd : delim ∉ t) : fields delim t = [t] := by
  rw [fields,List.splitOn_eq_singleton hd,List.filter_cons_of_pos (by simpa using ht)]
  rfl

theorem fields_strtok (delim : Char) (s : List Char) :
    fields delim s = (strtok delim s).1.toList ++ fields delim (strtok delim s).2 := by
  rw [← fields_dropWhile,strtok]
  cases hs : s.dropWhile (· = delim) with
  | nil => rfl
  | cons c cs =>
    have hc : ¬ c = delim := by
      have hfirst := List.head_dropWhile_not (· = delim) (l := s) (by simp [hs])
      simpa [hs] using hfirst
    show fields delim (c :: cs) = (c :: cs).takeWhile (· ≠ delim) :: fields delim ((c :: cs).dropWhile (· ≠ delim)).tail
    have ht : (c :: cs).takeWhile (· ≠ delim) ≠ [] := by simp [hc]
    have hd : delim ∉ (c :: cs).takeWhile (· ≠ delim) := fun h => by simpa using List.mem_takeWhile_imp h
    have hcut : (c :: cs).takeWhile (· ≠ delim) ++ (c :: cs).dropWhile (· ≠ delim) = c :: cs :=
      List.takeWhile_append_dropWhile
    have hlast := List.head?_dropWhile_not (· ≠ delim) (c :: cs)
    generalize (c :: cs).takeWhile (· ≠ delim) = token at ht hd hcut
    generalize (c :: cs).dropWhile (· ≠ delim) = r at hcut hlast
    rw [← hcut]
    cases r with
    | nil => rw [List.append_nil,fields_last ht hd]; rfl
    | cons d r =>
      obtain rfl : d = delim := by simpa using hlast
      exact fields_token ht hd

theorem fields_none (h : (strtok delim s).1 = none) : fields delim s = [] := by
  rw [strtok] at h
  rw [← fields_dropWhile]
  cases hs : s.dropWhile (· = delim) with
  | nil => rfl
  | cons c cs =>
    rw [hs] at h
    cases h

theorem fields_some {t : List Char} (h : (strtok delim s).1 = some t) :
    fields delim s = t :: fields delim (strtok delim s).2 := by
  rw [fields_strtok,h]
  rfl

theorem digit_range {c : Char} (h : c.isDigit = true) : 48 ≤ c.toNat ∧ c.toNat ≤ 57 := by
  simp only [Char.isDigit,Bool.and_eq_true,decide_eq_true_eq] at h
  exact ⟨UInt32.le_iff_toNat_le.mp h.1,UInt32.le_iff_toNat_le.mp h.2⟩

theorem decimal_char {c : Char} (h : c ∈ decimal i) : c = '-' ∨ c.isDigit = true := by
  rcases List.mem_append.mp h with h | h
  · split at h
    · exact .inl (List.mem_singleton.mp h)
    · cases h
  · exact .inr (Nat.isDigit_of_mem_toDigits (by decide) (by decide) h)

theorem decimal_ne_nil (i : Int) : decimal i ≠ [] := by
  rw [decimal]
  exact List.append_ne_nil_of_right_ne_nil _ Nat.toDigits_ne_nil

theorem decimal_length (hi : Fits i) : (decimal i).length ≤ 11 := by
  have hdigits : (Nat.toDigits 10 i.natAbs).length ≤ 10 :=
    (Nat.length_toDigits_le_iff (by decide) (by decide)).mpr (by have := hi.1; have := hi.2; omega)
  rw [decimal,List.length_append]
  split
  · rw [List.length_singleton]
    omega
  · rw [List.length_nil]
    omega

theorem digitsOf_toDigits (n : Nat) (hrest : ∀ c ∈ rest.head?, c.isDigit = false) :
    digitsOf (Nat.toDigits 10 n ++ rest) = n := by
  have hnone : rest.takeWhile Char.isDigit = [] := by
    cases rest with
    | nil => rfl
    | cons c rest => exact List.takeWhile_cons_of_neg (by simp [hrest c rfl])
  rw [digitsOf,List.takeWhile_append_of_pos fun c hc => Nat.isDigit_of_mem_toDigits (by decide) (by decide) hc,hnone,
    List.append_nil,Nat.ofDigitChars_ten_toDigits]

theorem signed_digit {c : Char} (h : c.isDigit = true) (cs : List Char) : signed (c :: cs) = digitsOf (c :: cs) := by
  unfold signed
  split
  · exact absurd h (by simp_all)
  · exact absurd h (by simp_all)
  · rfl

theorem isSpace_digit {c : Char} (h : c.isDigit = true) : isSpace c = false := by
  have := digit_range h
  simp only [isSpace,decide_eq_false_iff_not]
  omega

theorem atoi_decimal (hi : Fits i) (hrest : ∀ c ∈ rest.head?, c.isDigit = false) :
    atoi (decimal i ++ rest) = some i := by
  have hvalue : signed ((decimal i ++ rest).dropWhile isSpace) = i := by
    by_cases h0 : i < 0
    · rw [decimal,if_pos h0,List.singleton_append,List.cons_append,List.dropWhile_cons_of_neg (by decide),signed,
        digitsOf_toDigits _ hrest]
      omega
    · rw [decimal,if_neg h0,List.nil_append]
      have hdigits := digitsOf_toDigits i.natAbs hrest
      cases hd : Nat.toDigits 10 i.natAbs with
      | nil => exact absurd hd Nat.toDigits_ne_nil
      | cons c ds =>
        have hc : c.isDigit = true :=
          Nat.isDigit_of_mem_toDigits (b := 10) (by decide) (by decide) (hd ▸ List.mem_cons_self)
        rw [hd,List.cons_append] at hdigits
        rw [List.cons_append,List.dropWhile_cons_of_neg (by simp [isSpace_digit hc]),signed_digit hc,hdigits]
        omega
  rw [atoi,hvalue,if_pos hi]

theorem atoi_printed (hi : Fits i) : atoi (decimal i) = some i := by
  have h : atoi (decimal i ++ []) = some i := atoi_decimal hi (by simp)
  rwa [List.append_nil] at h

end OperatingSystemLabs.Text

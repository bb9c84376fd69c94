namespace OperatingSystemLabs.StandardStreams

inductive Received (β : Type) where
  | byte (b : β)
  | eof
  | error

-- What a program does next, as far as its standard input and output go.
inductive Action (β σ : Type) where
  | read (next : Received β → σ)
  | write (b : β) (next failed : σ)
  | exit

variable {β σ : Type} {action : σ → Action β σ} {program next' failed : σ} {next : Received β → σ} {b : β}
  {input output : List β} {n : Nat}

inductive Filters (action : σ → Action β σ) : σ → List β → List β → Nat → Prop
  | exit {program : σ} {input : List β} : action program = .exit → Filters action program input [] 1
  | byte {program : σ} {next : Received β → σ} {b : β} {input output : List β} {n : Nat} :
      action program = .read next → Filters action (next (.byte b)) input output n →
      Filters action program (b :: input) output (n + 1)
  | eof {program : σ} {next : Received β → σ} {output : List β} {n : Nat} :
      action program = .read next → Filters action (next .eof) [] output n → Filters action program [] output (n + 1)
  | write {program next failed : σ} {b : β} {input output : List β} {n : Nat} :
      action program = .write b next failed → Filters action next input output n →
      Filters action program input (b :: output) (n + 1)

theorem Filters.of_exit (h : Filters action program input output n) (ha : action program = .exit) :
    output = [] ∧ n = 1 := by
  cases h with
  | exit => exact ⟨rfl,rfl⟩
  | byte h => cases ha.symm.trans h
  | eof h => cases ha.symm.trans h
  | write h => cases ha.symm.trans h

theorem Filters.of_byte (h : Filters action program (b :: input) output n) (ha : action program = .read next) :
    ∃ m, n = m + 1 ∧ Filters action (next (.byte b)) input output m := by
  cases h with
  | exit h => cases ha.symm.trans h
  | byte h hnext =>
    cases ha.symm.trans h
    exact ⟨_,rfl,hnext⟩
  | write h => cases ha.symm.trans h

theorem Filters.of_eof (h : Filters action program [] output n) (ha : action program = .read next) :
    ∃ m, n = m + 1 ∧ Filters action (next .eof) [] output m := by
  cases h with
  | exit h => cases ha.symm.trans h
  | eof h hnext =>
    cases ha.symm.trans h
    exact ⟨_,rfl,hnext⟩
  | write h => cases ha.symm.trans h

theorem Filters.of_write (h : Filters action program input output n) (ha : action program = .write b next' failed) :
    ∃ m output', n = m + 1 ∧ output = b :: output' ∧ Filters action next' input output' m := by
  cases h with
  | exit h => cases ha.symm.trans h
  | byte h => cases ha.symm.trans h
  | eof h => cases ha.symm.trans h
  | write h hnext =>
    cases ha.symm.trans h
    exact ⟨_,_,rfl,rfl,hnext⟩

end OperatingSystemLabs.StandardStreams

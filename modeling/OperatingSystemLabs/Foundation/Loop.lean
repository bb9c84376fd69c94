import Mathlib.Data.List.Basic

namespace OperatingSystemLabs

theorem bind_ok {ε α β : Type} {x : Except ε α} {a : α} (f : α → Except ε β)
    (h : x = .ok a) : (x >>= f) = f a := by
  rw [h]
  rfl

theorem ok_of_bind {ε α β : Type} {x : Except ε α} {f : α → Except ε β} {b : β}
    (h : (x >>= f) = .ok b) : ∃ a, x = .ok a ∧ f a = .ok b := by
  cases x with
  | error e => cases h
  | ok a => exact ⟨a,rfl,h⟩

theorem bind_error_iff {ε α β : Type} {x : Except ε α} {f : α → Except ε β} {e : ε} :
    (x >>= f) = .error e ↔ x = .error e ∨ ∃ a, x = .ok a ∧ f a = .error e := by
  cases x with
  | error e' =>
    refine ⟨fun h => .inl (congrArg Except.error (Except.error.inj h)),?_⟩
    rintro (h | ⟨a,h,-⟩)
    · exact congrArg Except.error (Except.error.inj h)
    · cases h
  | ok a =>
    refine ⟨fun h => .inr ⟨a,rfl,h⟩,?_⟩
    rintro (h | ⟨b,h,hb⟩)
    · cases h
    · cases h
      exact hb

theorem foldlM_error_iff {ε α β : Type} {f : β → α → Except ε β} {xs : List α} {b : β} {e : ε} :
    xs.foldlM f b = .error e ↔ ∃ l x r c, xs = l ++ x :: r ∧ l.foldlM f b = .ok c ∧ f c x = .error e := by
  induction xs generalizing b with
  | nil =>
    rw [List.foldlM_nil]
    exact iff_of_false (fun h => by cases h) fun ⟨l,x,r,c,h,_⟩ => by cases l <;> cases h
  | cons x xs ih =>
    rw [List.foldlM_cons,bind_error_iff]
    constructor
    · rintro (hx | ⟨c,hc,h⟩)
      · exact ⟨[],x,xs,b,rfl,rfl,hx⟩
      · obtain ⟨l,y,r,d,rfl,hl,hy⟩ := ih.mp h
        refine ⟨x :: l,y,r,d,rfl,?_,hy⟩
        rw [List.foldlM_cons,bind_ok _ hc,hl]
    · rintro ⟨l,y,r,d,h,hl,hy⟩
      cases l with
      | nil =>
        cases h
        cases hl
        exact .inl hy
      | cons z l =>
        cases h
        rw [List.foldlM_cons] at hl
        obtain ⟨c,hc,hl⟩ := ok_of_bind hl
        exact .inr ⟨c,hc,ih.mpr ⟨l,y,r,d,rfl,hl,hy⟩⟩

def Agree {ε α β : Type} (R : α → β → Prop) : Except ε α → Except ε β → Prop
  | .ok a, .ok b => R a b
  | .error e, .error e' => e = e'
  | _, _ => False

theorem Agree.bind {ε α β α' β' : Type} {R : α → β → Prop} {S : α' → β' → Prop} {x : Except ε α} {y : Except ε β}
    {f : α → Except ε α'} {g : β → Except ε β'} (h : Agree R x y) (hfg : ∀ a b, R a b → Agree S (f a) (g b)) :
    Agree S (x >>= f) (y >>= g) := by
  cases x with
  | error e =>
    cases y with
    | error e' => exact h
    | ok b => exact h.elim
  | ok a =>
    cases y with
    | error e => exact h.elim
    | ok b => exact hfg a b h

theorem Agree.imp {ε α β : Type} {R S : α → β → Prop} {x : Except ε α} {y : Except ε β} (h : Agree R x y)
    (hrs : ∀ a b, R a b → S a b) : Agree S x y := by
  cases x with
  | error e =>
    cases y with
    | error e' => exact h
    | ok b => exact h.elim
  | ok a =>
    cases y with
    | error e => exact h.elim
    | ok b => exact hrs a b h

theorem Agree.ok {ε α β : Type} {R : α → β → Prop} {y : Except ε β} {a : α} (h : Agree R (.ok a) y) :
    ∃ b, y = .ok b ∧ R a b := by
  cases y with
  | error e => exact h.elim
  | ok b => exact ⟨b,rfl,h⟩

namespace Loop

variable {σ ε : Type} {endless : ε} {test : σ → Except ε Bool} {body : σ → Except ε σ}

-- A while loop with a test that may fail; `endless` stands for every run of more than `fuel` rounds.
def repeatWhile (endless : ε) (test : σ → Except ε Bool) (body : σ → Except ε σ) : Nat → σ → Except ε σ
  | 0, _ => .error endless
  | fuel + 1, s => do
      if ← test s then
        let t ← body s
        repeatWhile endless test body fuel t
      else return s

theorem repeatWhile_stop {fuel : Nat} {s : σ} (h : test s = .ok false) :
    repeatWhile endless test body (fuel + 1) s = .ok s := by
  rw [repeatWhile,bind_ok _ h]
  rfl

theorem repeatWhile_round {fuel : Nat} {s t : σ} (h : test s = .ok true) (hb : body s = .ok t) :
    repeatWhile endless test body (fuel + 1) s = repeatWhile endless test body fuel t := by
  rw [repeatWhile,bind_ok _ h,if_pos rfl,bind_ok _ hb]

theorem repeatWhile_fail {fuel : Nat} {s : σ} {e : ε} (h : test s = .ok true) (hb : body s = .error e) :
    repeatWhile endless test body (fuel + 1) s = .error e := by
  rw [repeatWhile,bind_ok _ h,if_pos rfl,hb]
  rfl

theorem repeatWhile_total {Inv : σ → Prop} (variant : σ → Nat)
    (hround : ∀ s, Inv s → test s = .ok false ∨
      test s = .ok true ∧ ∃ t, body s = .ok t ∧ Inv t ∧ variant t < variant s)
    {fuel : Nat} {s : σ} (hs : Inv s) (hf : variant s < fuel) :
    ∃ t, repeatWhile endless test body fuel s = .ok t ∧ Inv t ∧ test t = .ok false := by
  induction fuel generalizing s with
  | zero => omega
  | succ fuel ih =>
    rcases hround s hs with hstop | ⟨hgo,t,hb,ht,hlt⟩
    · exact ⟨s,repeatWhile_stop hstop,hs,hstop⟩
    · rw [repeatWhile_round hgo hb]
      exact ih ht (by omega)

-- The states in which a run of the loop tests its condition.
inductive Rounds (test : σ → Except ε Bool) (body : σ → Except ε σ) (s : σ) : σ → Prop
  | start : Rounds test body s s
  | next {t u : σ} : Rounds test body s t → test t = .ok true → body t = .ok u → Rounds test body s u

theorem Rounds.invariant {Inv : σ → Prop}
    (hround : ∀ s t, Inv s → test s = .ok true → body s = .ok t → Inv t) {s t : σ} (hs : Inv s)
    (h : Rounds test body s t) : Inv t := by
  induction h with
  | start => exact hs
  | next _ hgo hb ih => exact hround _ _ ih hgo hb

theorem rounds_of_repeatWhile {fuel : Nat} {s t : σ} (h : repeatWhile endless test body fuel s = .ok t) :
    Rounds test body s t ∧ test t = .ok false := by
  have hrun {fuel : Nat} {u : σ} (hu : Rounds test body s u) (h : repeatWhile endless test body fuel u = .ok t) :
      Rounds test body s t ∧ test t = .ok false := by
    induction fuel generalizing u with
    | zero => cases h
    | succ fuel ih =>
      obtain ⟨go,hgo,h⟩ := ok_of_bind h
      cases go with
      | false =>
        cases h
        exact ⟨hu,hgo⟩
      | true =>
        obtain ⟨v,hv,h⟩ := ok_of_bind h
        exact ih (hu.next hgo hv) h
  exact hrun .start h

end Loop

end OperatingSystemLabs

import OperatingSystemLabs.Scheduler.PriqueueRemove

namespace OperatingSystemLabs.Scheduler

open Insertion

variable {α ρ : Type}

def priqueuePeek (q : PriqueueT α ρ) : Except Fault α :=
  match q.head with
  | [] => .error .nullDereference
  | n :: _ => .ok n

inductive Built (mem : α → ρ) (comparer : ρ → ρ → Int) : PriqueueT α ρ → Prop
  | init : Built mem comparer (priqueueInit comparer)
  | offer {q : PriqueueT α ρ} (ptr : α) : Built mem comparer q → Built mem comparer (priqueueOffer mem q ptr).1
  | poll {q q' : PriqueueT α ρ} {value : α} :
      Built mem comparer q → priqueuePoll q = .ok (q',value) → Built mem comparer q'
  | removeAt {q q' : PriqueueT α ρ} {index : Int} {data : α} :
      Built mem comparer q → priqueueRemoveAt q index = .ok (q',data) → Built mem comparer q'
  | remove {q q' : PriqueueT α ρ} {ptr : α} {numRemoved : Int} :
      Built mem comparer q → priqueueRemove mem q ptr = .ok (q',numRemoved) → Built mem comparer q'

def elementAt (xs : List α) (index : Int) : Option α := if 0 ≤ index then xs[index.toNat]? else none

def withoutAt (xs : List α) (index : Int) : List α := if 0 ≤ index then xs.eraseIdx index.toNat else xs

-- What the comments in libpriqueue.c promise of each function, with none for a NULL result.
def AtAnswers (q : PriqueueT α ρ) (index : Int) : Prop :=
  (priqueueAt q index).map some = .ok (elementAt q.head index)

def RemoveAtAnswers (q : PriqueueT α ρ) (index : Int) : Prop :=
  (priqueueRemoveAt q index).map (fun r => (r.1,some r.2)) =
    .ok ({ q with head := withoutAt q.head index },elementAt q.head index)

def PeekAnswers (q : PriqueueT α ρ) : Prop := (priqueuePeek q).map some = .ok q.head.head?

def PollAnswers (q : PriqueueT α ρ) : Prop :=
  (priqueuePoll q).map (fun r => (r.1,some r.2)) = .ok ({ q with head := q.head.tail },q.head.head?)

def OfferAnswers (mem : α → ρ) (q : PriqueueT α ρ) (ptr : α) : Prop :=
  let (q',r) := priqueueOffer mem q ptr
  0 ≤ r ∧ r < priqueueSize q' ∧ priqueueAt q' r = .ok ptr ∧ q'.head = q.head.insertIdx r.toNat ptr

section

variable {q q' : PriqueueT α ρ} {index : Int}

theorem walkTo_absent (xs : List α) {index i : Int} (h : index < i ∨ i + xs.length ≤ index) :
    walkTo index i xs = (xs,[]) := by
  induction xs generalizing i with
  | nil => rfl
  | cons n next ih =>
    rw [List.length_cons] at h
    have hne : ¬ i = index := by omega
    rw [walkTo,if_neg hne,ih (by omega)]

theorem priqueueAt_absent (h : index < 0 ∨ priqueueSize q ≤ index) :
    priqueueAt q index = .error .nullDereference := by
  rw [priqueueAt,walkTo_absent q.head (by rwa [Int.zero_add])]

theorem priqueueRemoveAt_absent (h : index < 0 ∨ priqueueSize q ≤ index) :
    priqueueRemoveAt q index = .error .nullDereference := by
  rw [priqueueRemoveAt,walkTo_absent q.head (by rwa [Int.zero_add])]
  cases q.head <;> rfl

theorem elementAt_cut {l : List α} (n : α) (next : List α) (h : (l.length : Int) = index) :
    elementAt (l ++ n :: next) index = some n ∧ withoutAt (l ++ n :: next) index = l ++ next := by
  subst h
  rw [elementAt,withoutAt,if_pos (Int.natCast_nonneg _),if_pos (Int.natCast_nonneg _),Int.toNat_natCast]
  constructor
  · simp
  · rw [List.eraseIdx_append_of_length_le le_rfl,Nat.sub_self,List.eraseIdx_cons_zero]

theorem atAnswers_iff (q : PriqueueT α ρ) (index : Int) :
    AtAnswers q index ↔ 0 ≤ index ∧ index < priqueueSize q := by
  by_cases h : 0 ≤ index ∧ index < priqueueSize q
  · obtain ⟨l,n,next,hq,hl,-⟩ := removeAt_cut h.1 h.2
    refine iff_of_true ?_ h
    rw [AtAnswers,← hl,priqueueAt_append hq,hq,(elementAt_cut n next rfl).1]
    rfl
  · refine iff_of_false (fun ha => ?_) h
    rw [AtAnswers,priqueueAt_absent (by omega)] at ha
    cases ha

theorem removeAtAnswers_iff (q : PriqueueT α ρ) (index : Int) :
    RemoveAtAnswers q index ↔ 0 ≤ index ∧ index < priqueueSize q := by
  by_cases h : 0 ≤ index ∧ index < priqueueSize q
  · obtain ⟨l,n,next,hq,hl,hremove⟩ := removeAt_cut h.1 h.2
    obtain ⟨hat,hwithout⟩ := elementAt_cut n next hl
    refine iff_of_true ?_ h
    rw [RemoveAtAnswers,hremove,hq,hat,hwithout]
    rfl
  · refine iff_of_false (fun ha => ?_) h
    rw [RemoveAtAnswers,priqueueRemoveAt_absent (by omega)] at ha
    cases ha

theorem peekAnswers_iff (q : PriqueueT α ρ) : PeekAnswers q ↔ q.head ≠ [] := by
  rw [PeekAnswers,priqueuePeek]
  cases q.head with
  | nil => exact iff_of_false nofun (fun h => h rfl)
  | cons n next => exact iff_of_true rfl (List.cons_ne_nil n next)

theorem pollAnswers_iff (q : PriqueueT α ρ) : PollAnswers q ↔ q.head ≠ [] := by
  rw [PollAnswers,priqueuePoll]
  cases q.head with
  | nil => exact iff_of_false (by simp [Except.map]) (fun h => h rfl)
  | cons n next => exact iff_of_true rfl (List.cons_ne_nil n next)

end

theorem absent_elements (q : PriqueueT α ρ) (index : Int) :
    (AtAnswers q index ↔ 0 ≤ index ∧ index < priqueueSize q) ∧
    (RemoveAtAnswers q index ↔ 0 ≤ index ∧ index < priqueueSize q) ∧
    (PeekAnswers q ↔ q.head ≠ []) ∧ (PollAnswers q ↔ q.head ≠ []) :=
  ⟨atAnswers_iff q index,removeAtAnswers_iff q index,peekAnswers_iff q,pollAnswers_iff q⟩

theorem empty_queue_peeked : ¬ ∀ (q : PriqueueT Int Int) (index : Int),
    AtAnswers q index ∧ RemoveAtAnswers q index ∧ PeekAnswers q ∧ PollAnswers q := by
  intro h
  exact (peekAnswers_iff _).mp (h (priqueueInit (fun a b => a - b)) 0).2.2.1 rfl

section

variable {mem : α → ρ} {comparer : ρ → ρ → Int} {q : PriqueueT α ρ}

theorem removeAt_in_range {q' : PriqueueT α ρ} {index : Int} {data : α}
    (h : priqueueRemoveAt q index = .ok (q',data)) : 0 ≤ index ∧ index < priqueueSize q := by
  by_contra hout
  rw [priqueueRemoveAt_absent (by omega)] at h
  cases h

theorem removeAt_sublist {q' : PriqueueT α ρ} {index : Int} {data : α}
    (h : priqueueRemoveAt q index = .ok (q',data)) : q'.cmp = q.cmp ∧ q'.head.Sublist q.head := by
  obtain ⟨h0,hlt⟩ := removeAt_in_range h
  obtain ⟨l,n,next,hq,-,hremove⟩ := removeAt_cut h0 hlt
  rw [hremove] at h
  cases h
  rw [hq]
  exact ⟨rfl,(List.sublist_cons_self _ next).append_left l⟩

theorem poll_sublist {q' : PriqueueT α ρ} {value : α} (h : priqueuePoll q = .ok (q',value)) :
    q'.cmp = q.cmp ∧ q'.head.Sublist q.head := by
  rw [priqueuePoll] at h
  cases hq : q.head with
  | nil =>
    rw [hq] at h
    cases h
  | cons n next =>
    rw [hq] at h
    cases h
    exact ⟨rfl,List.sublist_cons_self _ next⟩

theorem remove_sublist {q' : PriqueueT α ρ} {ptr : α} {numRemoved : Int}
    (h : priqueueRemove mem q ptr = .ok (q',numRemoved)) : q'.cmp = q.cmp ∧ q'.head.Sublist q.head := by
  rw [priqueueRemove_head_kept (head_kept_of_ok h)] at h
  cases h
  exact ⟨rfl,List.filter_sublist⟩

theorem Built.ordered (hcmp : TotalPreorder (fun a b => comparer (mem a) (mem b))) (h : Built mem comparer q) :
    q.cmp = comparer ∧ Ordered (fun a b => comparer (mem a) (mem b)) q.head := by
  have hless {q q' : PriqueueT α ρ} (hq : q.cmp = comparer ∧ Ordered (fun a b => comparer (mem a) (mem b)) q.head)
      (hs : q'.cmp = q.cmp ∧ q'.head.Sublist q.head) :
      q'.cmp = comparer ∧ Ordered (fun a b => comparer (mem a) (mem b)) q'.head :=
    ⟨hs.1.trans hq.1,hq.2.sublist hs.2⟩
  induction h with
  | init => exact ⟨rfl,.nil⟩
  | @offer q ptr _ ih =>
    obtain ⟨l,r,hq,hoffer,hp⟩ := priqueueOffer_placed mem q ptr
    rw [hoffer]
    rw [ih.1] at hp
    exact ⟨ih.1,hcmp.placed_ordered ((placed_map comparer mem ptr l r).mp hp) (hq ▸ ih.2)⟩
  | poll _ hpoll ih => exact hless ih (poll_sublist hpoll)
  | removeAt _ hremove ih => exact hless ih (removeAt_sublist hremove)
  | remove _ hremove ih => exact hless ih (remove_sublist hremove)

theorem append_same_iff {a : α} {xs : List α} : a :: xs = xs ++ [a] ↔ ∀ x ∈ xs, x = a := by
  induction xs with
  | nil => simp
  | cons x xs ih =>
    rw [List.cons_append,List.cons_eq_cons,List.forall_mem_cons,← ih]
    constructor
    · rintro ⟨rfl,h⟩
      exact ⟨rfl,h⟩
    · rintro ⟨rfl,h⟩
      exact ⟨rfl,h⟩

-- The answer is always the last index, so it is right when no other element is behind the new one.
theorem offerAnswers_iff_last {ptr : α} {l r : List α} (hq : q.head = l ++ r)
    (hoffer : (priqueueOffer mem q ptr).1 = { q with head := l ++ ptr :: r }) :
    OfferAnswers mem q ptr ↔ ∀ x ∈ r, x = ptr := by
  have hans : (priqueueOffer mem q ptr).2 = (q.head.length : Int) := by
    show (priqueueSize (priqueueOffer mem q ptr).1 : Int) - 1 = _
    rw [hoffer,priqueueSize,hq]
    simp only [List.length_append,List.length_cons]
    omega
  have hlast : OfferAnswers mem q ptr ↔ l ++ ptr :: r = q.head ++ [ptr] := by
    have hpair : priqueueOffer mem q ptr = ({ q with head := l ++ ptr :: r },(q.head.length : Int)) :=
      Prod.ext hoffer hans
    rw [OfferAnswers,hpair]
    simp only [Int.toNat_natCast,List.insertIdx_length_self]
    refine ⟨fun h => h.2.2.2,fun h => ⟨Int.natCast_nonneg _,?_,priqueueAt_append h,h⟩⟩
    rw [priqueueSize,h]
    simp
  rw [hlast,hq,List.append_assoc,List.append_cancel_left_eq,append_same_iff]

theorem offer_reports_place (hcmp : TotalPreorder (fun a b => comparer (mem a) (mem b)))
    (h : Built mem comparer q) (ptr : α) : OfferAnswers mem q ptr ↔
      (∀ x ∈ q.head.head?, 0 ≤ comparer (mem ptr) (mem x)) ∧
        ∀ x ∈ q.head.tail, 0 < comparer (mem ptr) (mem x) ∨ x = ptr := by
  obtain ⟨hqcmp,hordered⟩ := h.ordered hcmp
  obtain ⟨l,r,hq,hoffer,hp⟩ := priqueueOffer_placed mem q ptr
  rw [hqcmp] at hp
  have hplaced := (placed_map comparer mem ptr l r).mp hp
  have hright := hcmp.placed_right hplaced (List.pairwise_append.mp (hq ▸ hordered)).2.1
  rw [offerAnswers_iff_last hq hoffer,hq]
  cases l with
  | nil =>
    cases r with
    | nil => simp
    | cons y ys =>
      have hlt : comparer (mem ptr) (mem y) < 0 := hplaced y rfl
      refine iff_of_false (fun hsame => ?_) (fun hcond => ?_)
      · have hflip := hcmp.flip ptr ptr
        rw [hsame y List.mem_cons_self] at hlt
        omega
      · exact absurd (hcond.1 y rfl) (Int.not_le.mpr hlt)
  | cons y l =>
    obtain ⟨hhead,hleft,-⟩ := hplaced
    simp only [List.cons_append,List.head?_cons,List.tail_cons,Option.mem_def,Option.some.injEq,forall_eq',
      List.forall_mem_append]
    refine ⟨fun hsame => ⟨Int.not_lt.mp hhead,fun x hx => .inl (hleft x hx),fun x hx => .inr (hsame x hx)⟩,?_⟩
    rintro ⟨-,-,hcond⟩ x hx
    exact (hcond x hx).resolve_left (Int.not_lt.mpr (hright x hx))

theorem offer_reports_place_ascending : ∃ q : PriqueueT Int Int, Built id (fun a b => a - b) q ∧
    q.head = [12] ∧ (OfferAnswers id q 13 ↔
      (∀ x ∈ q.head.head?, 0 ≤ 13 - x) ∧ ∀ x ∈ q.head.tail, 0 < 13 - x ∨ x = 13) := by
  have hcmp : TotalPreorder (fun a b : Int => a - b) :=
    ⟨fun a b => by omega,fun a b c hab hbc => by omega⟩
  have hbuilt : Built (id : Int → Int) (fun a b => a - b) { cmp := fun a b => a - b, head := [12] } :=
    .offer 12 .init
  exact ⟨_,hbuilt,rfl,offer_reports_place hcmp hbuilt 13⟩

theorem offer_to_the_front : ¬ ∀ (q : PriqueueT Int Int) (ptr : Int), Built id (fun a b => a - b) q →
    OfferAnswers id q ptr := by
  intro h
  have hfront := (h _ 12 (.offer 13 .init)).2.2.1
  exact absurd (Except.ok.inj hfront) (by decide)

end

end OperatingSystemLabs.Scheduler

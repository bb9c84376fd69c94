import Mathlib.Algebra.BigOperators.Fin
import Mathlib.Algebra.Order.BigOperators.Group.Finset
import OperatingSystemLabs.Finder.DeadlockFreedom

namespace OperatingSystemLabs.Finder

open Function Descriptors Interleaving StandardStreams

variable {inherited fds : Fds} {p : Pipes} {k : Fin 4} {σ : Type} {m : Machine σ} {argv : Arguments}
  {s s' : Processes σ} {c : Child σ} {actor : Option (Fin 4)} {input output : List UInt8}
  {rest rest' : Fin 4 → List UInt8} {fuel fuel' : Fin 4 → Nat}

def left (s : Processes σ) (rest : Fin 4 → List UInt8) : Fin 4 → List UInt8 :=
  Fin.cases s.stdin fun i => s.buffer i ++ rest i.castSucc

def programOf (m : Machine σ) (argv : Arguments) (k : Fin 4) (c : Child σ) : Option σ :=
  match c with
  | .unborn => some (m.bash (cmdbuf argv k))
  | .preparing _ _ => some (m.bash (cmdbuf argv k))
  | .running _ program => some program
  | _ => none

-- The programs are on their way to what they would do alone; one that ended early has nobody left to read it.
structure Flows (m : Machine σ) (argv : Arguments) (output : List UInt8) (rest : Fin 4 → List UInt8)
    (fuel : Fin 4 → Nat) (s : Processes σ) : Prop where
  filters : ∀ k program, programOf m argv k (s.child k) = some program →
    Filters m.action program (left s rest k) (rest k) (fuel k)
  ended : ∀ k, s.child k = .ended → rest k = [] ∨ ∃ i : Fin 3, k = i.castSucc ∧ s.child i.succ = .ended
  printed : s.stdout ++ rest (Fin.last 3) = output

def childLeft (p : Pipes) (k : Fin 4) (fuel : Nat) (c : Child σ) : Nat :=
  match c with
  | .unborn => (script p k).length + 1 + fuel
  | .preparing todo _ => todo.length + 1 + fuel
  | .running _ _ => fuel
  | _ => 0

def stepsLeft (p : Pipes) (fuel : Fin 4 → Nat) (s : Processes σ) : Nat :=
  s.todo.length + ∑ k, childLeft p k (fuel k) (s.child k)

theorem Flows.turn (h : Flows m argv output rest fuel s) (halive : s.child k ≠ .ended)
    (hsame : SameProcesses s s') (hrest : ∀ j ≠ k, rest' j = rest j) (hfuel : ∀ j ≠ k, fuel' j = fuel j)
    (hleft : ∀ j ≠ k, left s' rest' j = left s rest j)
    (hfilters : ∀ program, programOf m argv k c = some program →
      Filters m.action program (left s' rest' k) (rest' k) (fuel' k))
    (hended : c = .ended → rest' k = [] ∨ ∃ i : Fin 3, k = i.castSucc ∧ s.child i.succ = .ended)
    (hprinted : s'.stdout ++ rest' (Fin.last 3) = output)
    (hdrop : childLeft p k (fuel' k) c < childLeft p k (fuel k) (s.child k)) :
    Flows m argv output rest' fuel' (s'.become k c) ∧ stepsLeft p fuel' (s'.become k c) < stepsLeft p fuel s := by
  have hself : (s'.become k c).child k = c := update_self ..
  have hother {j : Fin 4} (hj : j ≠ k) : (s'.become k c).child j = s.child j := by
    rw [← hsame.child]
    exact update_of_ne hj ..
  refine ⟨⟨fun j program hj => ?_,fun j hj => ?_,hprinted⟩,?_⟩
  · by_cases hjk : j = k
    · subst hjk
      rw [hself] at hj
      exact hfilters program hj
    · rw [hother hjk] at hj
      have hbefore := h.filters j program hj
      rw [← hleft j hjk,← hrest j hjk,← hfuel j hjk] at hbefore
      exact hbefore
  · have hkeep {i : Fin 3} (hi : s.child i.succ = .ended) : (s'.become k c).child i.succ = .ended := by
      rw [hother]
      · exact hi
      · rintro rfl
        exact halive hi
    have hended : rest' j = [] ∨ ∃ i : Fin 3, j = i.castSucc ∧ s.child i.succ = .ended := by
      by_cases hjk : j = k
      · subst hjk
        exact hended (hself.symm.trans hj)
      · rw [hrest j hjk]
        exact h.ended j ((hother hjk).symm.trans hj)
    exact hended.imp id fun ⟨i,hi,hnext⟩ => ⟨i,hi,hkeep hnext⟩
  · have hsum : ∑ j, childLeft p j (fuel' j) ((s'.become k c).child j) < ∑ j, childLeft p j (fuel j) (s.child j) := by
      refine Finset.sum_lt_sum (fun j _ => ?_) ⟨k,Finset.mem_univ k,by rwa [hself]⟩
      by_cases hjk : j = k
      · subst hjk
        rw [hself]
        exact hdrop.le
      · rw [hother hjk,hfuel j hjk]
    have htodo : (s'.become k c).todo = s.todo := hsame.todo
    rw [stepsLeft,stepsLeft,htodo]
    omega

theorem Flows.quiet (h : Flows m argv output rest fuel s) (halive : s.child k ≠ .ended)
    (hprogram : ∀ program, programOf m argv k c = some program → programOf m argv k (s.child k) = some program)
    (hended : c = .ended → rest k = [] ∨ ∃ i : Fin 3, k = i.castSucc ∧ s.child i.succ = .ended)
    (hdrop : childLeft p k (fuel k) c < childLeft p k (fuel k) (s.child k)) :
    Flows m argv output rest fuel (s.become k c) ∧ stepsLeft p fuel (s.become k c) < stepsLeft p fuel s :=
  h.turn halive ⟨rfl,rfl,rfl⟩ (fun _ _ => rfl) (fun _ _ => rfl) (fun _ _ => rfl)
    (fun program hc => h.filters k program (hprogram program hc)) hended h.printed hdrop

theorem Flows.read (h : Flows m argv output rest fuel s) (hp : Plumbed inherited p s) (hs : Standard inherited)
    (hunbroken : Unbroken s) {program : σ} {next : Received UInt8 → σ} {received : Received UInt8}
    (hchild : s.child k = .running fds program) (haction : m.action program = .read next)
    (hread : s.read (some (source k)) = some (received,s')) :
    ∃ rest' fuel', Flows m argv output rest' fuel' (s'.become k (.running fds (next received))) ∧
      stepsLeft p fuel' (s'.become k (.running fds (next received))) < stepsLeft p fuel s := by
  have hfilters := h.filters k program (by rw [hchild]; rfl)
  have halive : s.child k ≠ .ended := by rw [hchild]; nofun
  -- It is enough to say what is left to read, and to go on from there.
  have hgo {n : Nat} (hfuel : fuel k = n + 1)
      (hnext : Filters m.action (next received) (left s' rest k) (rest k) n)
      (hleft : ∀ j ≠ k, left s' rest j = left s rest j) (hstdout : s'.stdout = s.stdout) :
      ∃ rest' fuel', Flows m argv output rest' fuel' (s'.become k (.running fds (next received))) ∧
        stepsLeft p fuel' (s'.become k (.running fds (next received))) < stepsLeft p fuel s := by
    refine ⟨rest,update fuel k n,h.turn halive (read_same hread) (fun _ _ => rfl)
      (fun j hj => update_of_ne hj ..) hleft ?_ nofun (by rw [hstdout]; exact h.printed) ?_⟩
    · intro _ hnew
      obtain rfl := Option.some.inj hnew
      rwa [update_self]
    · rw [update_self,hchild]
      show n < fuel k
      omega
  cases k using Fin.cases with
  | zero =>
    change s.read (some .stdin) = _ at hread
    rw [Processes.read] at hread
    change Filters _ _ s.stdin _ _ at hfilters
    split at hread
    · next hstdin =>
      cases hread
      rw [hstdin] at hfilters
      obtain ⟨n,hn,hnext⟩ := hfilters.of_eof haction
      rw [← hstdin] at hnext
      exact hgo hn hnext (fun _ _ => rfl) rfl
    · next b tail hstdin =>
      cases hread
      rw [hstdin] at hfilters
      obtain ⟨n,hn,hnext⟩ := hfilters.of_byte haction
      refine hgo hn hnext (fun j hj => ?_) rfl
      cases j using Fin.cases with
      | zero => exact (hj rfl).elim
      | succ j => rfl
  | succ i =>
    change s.read (some (.readEnd i)) = _ at hread
    rw [Processes.read] at hread
    change Filters _ _ (s.buffer i ++ rest i.castSucc) _ _ at hfilters
    split at hread
    · next hbuffer =>
      split at hread
      · cases hread
      · next hclosed =>
        cases hread
        -- Nobody can write to the pipe any more, so its writer ended, and not because nobody reads it.
        have hwriter : s.child i.castSucc = .ended := by
          by_contra hended
          have hopen := (hp.keeps_open hs hended (hunbroken _)).2
          rw [sink_castSucc] at hopen
          exact hclosed hopen
        have hrest : rest i.castSucc = [] := by
          refine (h.ended _ hwriter).resolve_right ?_
          rintro ⟨j,hj,hended⟩
          obtain rfl := Fin.castSucc_injective _ hj
          exact halive hended
        have hempty : s.buffer i ++ rest i.castSucc = [] := by rw [hbuffer,hrest]; rfl
        rw [hempty] at hfilters
        obtain ⟨n,hn,hnext⟩ := hfilters.of_eof haction
        rw [← hempty] at hnext
        exact hgo hn hnext (fun _ _ => rfl) rfl
    · next b tail hbuffer =>
      cases hread
      rw [hbuffer] at hfilters
      obtain ⟨n,hn,hnext⟩ := hfilters.of_byte haction
      refine hgo hn ?_ (fun j hj => ?_) rfl
      · show Filters _ _ (update s.buffer i tail i ++ rest i.castSucc) _ _
        rwa [update_self]
      · cases j using Fin.cases with
        | zero => rfl
        | succ j =>
          have hji : j ≠ i := fun h => hj (congrArg Fin.succ h)
          show update s.buffer i tail j ++ _ = _
          rw [update_of_ne hji]
          rfl

theorem left_write {s' : Processes σ} {i : Fin 3} {b : UInt8} {tail : List UInt8}
    (hrest : rest i.castSucc = b :: tail) (hstdin : s'.stdin = s.stdin)
    (hbuffer : s'.buffer = update s.buffer i (s.buffer i ++ [b])) :
    left s' (update rest i.castSucc tail) = left s rest := by
  funext j
  cases j using Fin.cases with
  | zero => exact hstdin
  | succ j =>
    show s'.buffer j ++ update rest i.castSucc tail j.castSucc = s.buffer j ++ rest j.castSucc
    rw [hbuffer]
    by_cases hj : j = i
    · subst hj
      rw [update_self,update_self,hrest,List.append_assoc]
      rfl
    · have hne : j.castSucc ≠ i.castSucc := fun h => hj (Fin.castSucc_injective _ h)
      rw [update_of_ne hj,update_of_ne hne]

theorem left_print {s' : Processes σ} {tail : List UInt8} (hstdin : s'.stdin = s.stdin)
    (hbuffer : s'.buffer = s.buffer) : left s' (update rest (Fin.last 3) tail) = left s rest := by
  funext j
  cases j using Fin.cases with
  | zero => exact hstdin
  | succ j =>
    show s'.buffer j ++ update rest (Fin.last 3) tail j.castSucc = s.buffer j ++ rest j.castSucc
    rw [hbuffer,update_of_ne (Fin.castSucc_lt_last j).ne]

theorem Flows.write (h : Flows m argv output rest fuel s) (hp : Plumbed inherited p s) (hs : Standard inherited)
    (hunbroken : Unbroken s) {program next failed : σ} {b : UInt8} {written : Processes.Written}
    (hchild : s.child k = .running fds program) (haction : m.action program = .write b next failed)
    (hwrite : s.write m (some (sink k)) b = some (written,s')) :
    ∃ rest' fuel', Flows m argv output rest' fuel' (s'.become k (Child.wrote fds next failed written)) ∧
      stepsLeft p fuel' (s'.become k (Child.wrote fds next failed written)) < stepsLeft p fuel s := by
  have hfilters := h.filters k program (by rw [hchild]; rfl)
  have halive : s.child k ≠ .ended := by rw [hchild]; nofun
  obtain ⟨n,tail,hn,hrest,hnext⟩ := hfilters.of_write haction
  -- What was written moves from the rest of k to where k writes, so that all that is left to read stays.
  have hgo (hsame : SameProcesses s s') (hleft : left s' (update rest k tail) = left s rest)
      (hprinted : s'.stdout ++ update rest k tail (Fin.last 3) = output) :
      Flows m argv output (update rest k tail) (update fuel k n) (s'.become k (.running fds next)) ∧
        stepsLeft p (update fuel k n) (s'.become k (.running fds next)) < stepsLeft p fuel s := by
    refine h.turn halive hsame (fun j hj => update_of_ne hj ..) (fun j hj => update_of_ne hj ..)
      (fun j _ => congrFun hleft j) ?_ (fun hc => by cases hc) hprinted ?_
    · intro _ hnew
      obtain rfl := Option.some.inj hnew
      rw [hleft,update_self,update_self]
      exact hnext
    · rw [update_self,hchild]
      show n < fuel k
      omega
  have hsame := write_same hwrite
  cases k using Fin.lastCases with
  | last =>
    rw [sink_last] at hwrite
    cases hwrite
    refine ⟨_,_,hgo hsame (left_print rfl rfl) ?_⟩
    have hprinted := h.printed
    rw [hrest] at hprinted
    rw [update_self,← hprinted,List.append_assoc]
    rfl
  | cast i =>
    rw [sink_castSucc,Processes.write] at hwrite
    have hlast : Fin.last 3 ≠ i.castSucc := (Fin.castSucc_lt_last i).ne'
    split at hwrite
    · split at hwrite <;> cases hwrite
      refine ⟨_,_,hgo hsame (left_write hrest rfl rfl) ?_⟩
      rw [update_of_ne hlast]
      exact h.printed
    · next hclosed =>
      cases hwrite
      have hreader : s.child i.succ = .ended := by
        by_contra hended
        exact hclosed (hp.keeps_open hs hended (hunbroken _)).1
      refine ⟨rest,fuel,h.quiet halive (fun _ hc => by cases hc) (fun _ => .inr ⟨i,rfl,hreader⟩) ?_⟩
      rw [hchild]
      show 0 < fuel _
      omega

theorem Flows.effect (h : Flows m argv output rest fuel s) (hp : Plumbed inherited p s) (hs : Standard inherited)
    (hunbroken : Unbroken s) (hfit : ∀ k, (cmdbuf argv k).utf8ByteSize < bsize) (he : Effect m argv s k s') :
    ∃ rest' fuel', Flows m argv output rest' fuel' s' ∧ stepsLeft p fuel' s' < stepsLeft p fuel s := by
  have hchild_fit := hp.child k
  cases he with
  | exec hchild =>
    refine ⟨rest,fuel,h.quiet (by rw [hchild]; nofun) (fun _ hc => by rw [hchild]; exact hc) nofun ?_⟩
    rw [hchild]
    show fuel k < 0 + 1 + fuel k
    omega
  | @call c todo fds hchild =>
    refine ⟨rest,fuel,h.quiet (by rw [hchild]; nofun) (fun _ hc => by rw [hchild]; exact hc) nofun ?_⟩
    rw [hchild]
    show todo.length + 1 + fuel k < todo.length + 1 + 1 + fuel k
    omega
  | overrun _ hover => exact (Nat.not_le.mpr (hfit k) hover).elim
  | exit hchild haction =>
    obtain ⟨hrest,hfuel⟩ := (h.filters k _ (by rw [hchild]; rfl)).of_exit haction
    refine ⟨rest,fuel,h.quiet (by rw [hchild]; nofun) nofun (fun _ => .inl hrest) ?_⟩
    rw [hchild]
    show 0 < fuel k
    omega
  | read hchild haction hread =>
    rw [hchild] at hchild_fit
    change _ = fitted inherited k at hchild_fit
    rw [hchild_fit,fitted_stdin] at hread
    exact h.read hp hs hunbroken hchild haction hread
  | write hchild haction hwrite =>
    rw [hchild] at hchild_fit
    change _ = fitted inherited k at hchild_fit
    rw [hchild_fit,fitted_stdout] at hwrite
    exact h.write hp hs hunbroken hchild haction hwrite

theorem Flows.managed (h : Flows m argv output rest fuel s) (hp : Plumbed inherited p s) (hm : Managed p s s') :
    Flows m argv output rest fuel s' ∧ stepsLeft p fuel s' < stepsLeft p fuel s := by
  cases hm with
  | @fork k todo htodo =>
    have hunborn : s.child k = .unborn := (hp.forks k).mp (by rw [htodo]; exact List.mem_cons_self)
    have hforked {α : Type} (g : Fin 4 → Child σ → α) (hg : g k (.preparing (script p k) s.fds) = g k .unborn)
        (j : Fin 4) : g j (update s.child k (.preparing (script p k) s.fds) j) = g j (s.child j) := by
      by_cases hj : j = k
      · subst hj
        rw [update_self,hunborn,hg]
      · rw [update_of_ne hj]
    have hprogram := hforked (programOf m argv) rfl
    have hended := hforked (fun _ c => c = .ended) (by simp)
    have hleft := hforked (fun j => childLeft p j (fuel j)) rfl
    refine ⟨⟨fun j program hj => h.filters j program ((hprogram j).symm.trans hj),fun j hj => ?_,h.printed⟩,?_⟩
    · refine (h.ended j ((hended j).mp hj)).imp id fun ⟨i,hi,hnext⟩ => ⟨i,hi,?_⟩
      exact (hended i.succ).mpr hnext
    · rw [stepsLeft,stepsLeft,htodo,List.length_cons]
      show todo.length + ∑ j, childLeft p j (fuel j) (update s.child k (.preparing (script p k) s.fds) j) < _
      rw [Finset.sum_congr rfl fun j _ => hleft j]
      omega
  | @close fd todo htodo =>
    refine ⟨⟨h.filters,h.ended,h.printed⟩,?_⟩
    rw [stepsLeft,stepsLeft,htodo,List.length_cons]
    show todo.length + ∑ j, childLeft p j (fuel j) (s.child j) < _
    omega
  | @waitpid k todo htodo _ =>
    refine ⟨⟨h.filters,h.ended,h.printed⟩,?_⟩
    rw [stepsLeft,stepsLeft,htodo,List.length_cons]
    show todo.length + ∑ j, childLeft p j (fuel j) (s.child j) < _
    omega

theorem flows_start (streams : Fin 5 → List UInt8) (steps : Fin 4 → Nat) (hinput : streams 0 = input)
    (hfilters : ∀ k : Fin 4, Filters m.action (m.bash (cmdbuf argv k)) (streams k.castSucc) (streams k.succ)
      (steps k)) :
    Flows m argv (streams (Fin.last 4)) (fun k => streams k.succ) steps (start inherited input) := by
  have hleft : left (start inherited input : Processes σ) (fun k => streams k.succ) = fun k => streams k.castSucc := by
    funext k
    cases k using Fin.cases with
    | zero => exact hinput.symm
    | succ i => rfl
  refine ⟨fun k program hk => ?_,fun _ => nofun,rfl⟩
  obtain rfl := Option.some.inj hk
  rw [hleft]
  exact hfilters k

theorem stepsLeft_start (inherited : Fds) (input : List UInt8) (steps : Fin 4 → Nat) :
    stepsLeft (openPipes inherited).2 steps (start inherited input : Processes σ) = 52 + ∑ k, steps k := by
  rw [stepsLeft]
  simp only [Fin.sum_univ_four]
  show 14 + ((8 + 1 + steps 0) + (9 + 1 + steps 1) + (9 + 1 + steps 2) + (8 + 1 + steps 3)) = _
  omega

theorem run_flows {tr : List (Processes σ × Option (Fin 4))} (hs : Standard inherited)
    (hfit : ∀ k, (cmdbuf argv k).utf8ByteSize < bsize)
    (hflows : Flows m argv output rest fuel (start inherited input))
    (h : Trace (Acts m argv (openPipes inherited).2) (start inherited input) tr s) :
    ∃ rest' fuel', Flows m argv output rest' fuel' s ∧
      tr.length + stepsLeft (openPipes inherited).2 fuel' s ≤
        stepsLeft (openPipes inherited).2 fuel (start inherited input : Processes σ) := by
  induction h with
  | start => exact ⟨rest,fuel,hflows,by simp⟩
  | @snoc tr s s' actor htr hact ih =>
    obtain ⟨rest1,fuel1,hflows1,hle⟩ := ih
    have hplumbed := run_plumbed hs htr
    rw [List.length_append,List.length_singleton]
    cases actor with
    | none =>
      obtain ⟨hnext,hlt⟩ := hflows1.managed hplumbed (parentStep_managed hact)
      exact ⟨rest1,fuel1,hnext,by omega⟩
    | some k =>
      obtain ⟨rest2,fuel2,hnext,hlt⟩ :=
        hflows1.effect hplumbed hs (run_unbroken hfit htr) hfit (childStep_effect hact)
      exact ⟨rest2,fuel2,hnext,by omega⟩

theorem run_finishes (hs : Standard inherited) (hfit : ∀ k, (cmdbuf argv k).utf8ByteSize < bsize)
    (hflows : Flows m argv output rest fuel (start inherited input)) :
    ∃ tr s, Trace (Acts m argv (openPipes inherited).2) (start inherited input) tr s ∧ s.todo = [] := by
  refine exists_finished (stepsLeft (openPipes inherited).2 fuel (start inherited input : Processes σ))
    (fun tr s h => ?_) fun tr s h htodo => ?_
  · obtain ⟨rest',fuel',-,hle⟩ := run_flows hs hfit hflows h
    exact (Nat.le_add_right ..).trans hle
  · have hgo := mt (stuck_finished hs hfit h) htodo
    rw [Stuck] at hgo
    push Not at hgo
    exact hgo

theorem pipeline_computes_composition {tr : List (Processes σ × Option (Fin 4))} (hs : Standard inherited)
    (hfit : ∀ k, (cmdbuf argv k).utf8ByteSize < bsize) (streams : Fin 5 → List UInt8) (steps : Fin 4 → Nat)
    (hinput : streams 0 = input)
    (hfilters : ∀ k : Fin 4, Filters m.action (m.bash (cmdbuf argv k)) (streams k.castSucc) (streams k.succ) (steps k))
    (h : Trace (Acts m argv (openPipes inherited).2) (start inherited input) tr s) :
    s.stdout <+: streams (Fin.last 4) ∧ (s.todo = [] → s.stdout = streams (Fin.last 4)) ∧
      tr.length ≤ 52 + ∑ k, steps k := by
  obtain ⟨rest,fuel,hflows,hle⟩ := run_flows hs hfit (flows_start streams steps hinput hfilters) h
  have hprinted := hflows.printed
  refine ⟨⟨_,hprinted⟩,fun htodo => ?_,?_⟩
  · have hrest : rest (Fin.last 3) = [] := by
      refine (hflows.ended _ ((run_plumbed hs h).all_ended htodo _)).resolve_right ?_
      rintro ⟨i,hi,-⟩
      exact (Fin.castSucc_lt_last i).ne hi.symm
    rwa [hrest,List.append_nil] at hprinted
  · exact (Nat.le_add_right ..).trans (hle.trans_eq (stepsLeft_start inherited input steps))

theorem twoFiles_prints (input output : List UInt8) :
    Filters twoFiles.action (false,output) input output (output.length + 1) := by
  induction output with
  | nil => exact .exit rfl
  | cons b output ih => exact .write rfl ih

theorem twoFiles_reads (input output : List UInt8) :
    Filters twoFiles.action (true,output) input output (input.length + 1 + (output.length + 1)) := by
  induction input with
  | nil =>
    rw [List.length_nil,Nat.add_comm (0 + 1)]
    exact .eof rfl (twoFiles_prints [] output)
  | cons b input ih =>
    rw [List.length_cons,Nat.add_right_comm _ 1]
    exact .byte rfl ih

theorem pipeline_computes_composition_two_files :
    ∃ tr s, Trace (Acts twoFiles mainInFive (openPipes terminal).2) (start terminal []) tr s ∧ s.todo = [] ∧
      s.stdout = text "./b.c:5\n./a.c:3\n" := by
  let steps : Fin 4 → Nat := fun k =>
    if k = 0 then (printed 1).length + 1
    else (printed k.castSucc).length + 1 + ((printed k.succ).length + 1)
  have hfilters (k : Fin 4) : Filters twoFiles.action (twoFiles.bash (cmdbuf mainInFive k)) (printed k.castSucc)
      (printed k.succ) (steps k) := by
    match k with
    | 0 => exact twoFiles_prints _ _
    | 1 => exact twoFiles_reads _ _
    | 2 => exact twoFiles_reads _ _
    | 3 => exact twoFiles_reads _ _
  obtain ⟨tr,s,htr,htodo⟩ := run_finishes terminal_standard mainInFive_fits (flows_start printed steps rfl hfilters)
  exact ⟨tr,s,htr,htodo,
    (pipeline_computes_composition terminal_standard mainInFive_fits printed steps rfl hfilters htr).2.1 htodo⟩

end OperatingSystemLabs.Finder

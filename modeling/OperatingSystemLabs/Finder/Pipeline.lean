import Mathlib.Data.Fin.Basic
import Mathlib.Data.List.FinRange
import OperatingSystemLabs.Foundation.Descriptors
import OperatingSystemLabs.Foundation.Interleaving
import OperatingSystemLabs.Foundation.StandardStreams

namespace OperatingSystemLabs.Finder

open Function Descriptors StandardStreams

inductive File where
  | stdin
  | stdout
  | other (k : Nat)
  | readEnd (i : Fin 3)
  | writeEnd (i : Fin 3)
  deriving DecidableEq, Repr

abbrev Fds := Table File

structure Pipes where
  fd1 : Pipe
  fd2 : Pipe
  fd3 : Pipe
  deriving DecidableEq, Repr

def openPipes (inherited : Fds) : Fds × Pipes :=
  let (fds1,fd1) := pipe inherited (.readEnd 0) (.writeEnd 0)
  let (fds2,fd2) := pipe fds1 (.readEnd 1) (.writeEnd 1)
  let (fds3,fd3) := pipe fds2 (.readEnd 2) (.writeEnd 2)
  (fds3,⟨fd1,fd2,fd3⟩)

structure Arguments where
  dir : String
  str : String
  numFiles : String
  deriving DecidableEq, Repr

def bsize : Nat := 256
def findExec : String := "/bin/find"
def xargsExec : String := "/usr/bin/xargs"
def grepExec : String := "/bin/grep"
def sortExec : String := "/bin/sort"
def headExec : String := "/usr/bin/head"

def cmdbuf (argv : Arguments) : Fin 4 → String
  | 0 => findExec ++ " " ++ argv.dir ++ " -name '*'.[ch]"
  | 1 => xargsExec ++ " " ++ grepExec ++ " -c " ++ argv.str
  | 2 => sortExec ++ " -t : +1.0 -2.0 --numeric --reverse"
  | 3 => headExec ++ " --lines=" ++ argv.numFiles

inductive Call where
  | dup2 (old new : Nat)
  | sprintf
  | close (fd : Nat)
  deriving DecidableEq, Repr

def ends (p : Pipes) : List Nat :=
  [p.fd1.readEnd,p.fd1.writeEnd,p.fd2.readEnd,p.fd2.writeEnd,p.fd3.readEnd,p.fd3.writeEnd]

def stdinFileno : Nat := 0
def stdoutFileno : Nat := 1

-- What each child does between fork and execl.
def script (p : Pipes) : Fin 4 → List Call
  | 0 => .dup2 p.fd1.writeEnd stdoutFileno :: .sprintf :: (ends p).map .close
  | 1 => .dup2 p.fd1.readEnd stdinFileno :: .dup2 p.fd2.writeEnd stdoutFileno :: .sprintf :: (ends p).map .close
  | 2 => .dup2 p.fd2.readEnd stdinFileno :: .dup2 p.fd3.writeEnd stdoutFileno :: .sprintf :: (ends p).map .close
  | 3 => .dup2 p.fd3.readEnd stdinFileno :: .sprintf :: (ends p).map .close

inductive ParentCall where
  | fork (k : Fin 4)
  | close (fd : Nat)
  | waitpid (k : Fin 4)
  deriving DecidableEq, Repr

def parent (p : Pipes) : List ParentCall :=
  [.fork 0,.fork 1,.fork 2,.fork 3] ++ (ends p).map .close ++ [.waitpid 0,.waitpid 1,.waitpid 2,.waitpid 3]

-- The programs that bash runs, and how much a pipe holds.
structure Machine (σ : Type) where
  bash : String → σ
  action : σ → Action UInt8 σ
  capacity : Nat
  positive : 0 < capacity

-- A command that does not fit in cmdbuf leaves the child broken.
inductive Child (σ : Type) where
  | unborn
  | preparing (todo : List Call) (fds : Fds)
  | running (fds : Fds) (program : σ)
  | ended
  | broken

structure Processes (σ : Type) where
  todo : List ParentCall
  fds : Fds
  child : Fin 4 → Child σ
  buffer : Fin 3 → List UInt8
  stdin : List UInt8
  stdout : List UInt8

variable {σ : Type}

def start (inherited : Fds) (stdin : List UInt8) : Processes σ where
  todo := parent (openPipes inherited).2
  fds := (openPipes inherited).1
  child _ := .unborn
  buffer _ := []
  stdin := stdin
  stdout := []

def Child.holds (c : Child σ) (f : File) : Bool :=
  match c with
  | .preparing _ fds => Descriptors.holds fds f
  | .running fds _ => Descriptors.holds fds f
  | _ => false

namespace Processes

def become (s : Processes σ) (k : Fin 4) (c : Child σ) : Processes σ := { s with child := update s.child k c }

def isOpen (s : Processes σ) (f : File) : Bool :=
  Descriptors.holds s.fds f || (List.finRange 4).any fun k => (s.child k).holds f

-- None is for a call that has to wait.
def read (s : Processes σ) (file : Option File) : Option (Received UInt8 × Processes σ) :=
  match file with
  | some .stdin =>
      match s.stdin with
      | [] => some (.eof,s)
      | b :: rest => some (.byte b,{ s with stdin := rest })
  | some (.readEnd i) =>
      match s.buffer i with
      | [] => if s.isOpen (.writeEnd i) then none else some (.eof,s)
      | b :: rest => some (.byte b,{ s with buffer := update s.buffer i rest })
  | _ => some (.error,s)

inductive Written where
  | done
  | failed
  | killed
  deriving DecidableEq, Repr

def write (m : Machine σ) (s : Processes σ) (file : Option File) (b : UInt8) : Option (Written × Processes σ) :=
  match file with
  | some .stdout => some (.done,{ s with stdout := s.stdout ++ [b] })
  | some (.writeEnd i) =>
      if s.isOpen (.readEnd i) then
        if (s.buffer i).length < m.capacity then
          some (.done,{ s with buffer := update s.buffer i (s.buffer i ++ [b]) })
        else none
      else some (.killed,s)
  | _ => some (.failed,s)

end Processes

-- SIGPIPE ends a writer that nobody can read any more.
def Child.wrote (fds : Fds) (next failed : σ) : Processes.Written → Child σ
  | .done => .running fds next
  | .failed => .running fds failed
  | .killed => .ended

def Call.make (c : Call) (fds : Fds) : Fds :=
  match c with
  | .dup2 old new => Descriptors.dup2 fds old new
  | .sprintf => fds
  | .close fd => Descriptors.close fds fd

def parentStep (p : Pipes) (s : Processes σ) : Option (Processes σ) :=
  match s.todo with
  | [] => none
  | .fork k :: todo => some { s.become k (.preparing (script p k) s.fds) with todo }
  | .close fd :: todo => some { s with todo, fds := close s.fds fd }
  | .waitpid k :: todo =>
      match s.child k with
      | .ended => some { s with todo }
      | _ => none

def childStep (m : Machine σ) (argv : Arguments) (s : Processes σ) (k : Fin 4) : Option (Processes σ) :=
  match s.child k with
  | .unborn => none
  | .preparing [] fds => some (s.become k (.running fds (m.bash (cmdbuf argv k))))
  | .preparing (c :: todo) fds =>
      if c = .sprintf ∧ bsize ≤ (cmdbuf argv k).utf8ByteSize then some (s.become k .broken)
      else some (s.become k (.preparing todo (c.make fds)))
  | .running fds program =>
      match m.action program with
      | .exit => some (s.become k .ended)
      | .read next =>
          (s.read (fds.file stdinFileno)).map fun r => r.2.become k (.running fds (next r.1))
      | .write b next failed =>
          (s.write m (fds.file stdoutFileno) b).map fun r => r.2.become k (Child.wrote fds next failed r.1)
  | .ended => none
  | .broken => none

-- The parent is none.
def turn (m : Machine σ) (argv : Arguments) (p : Pipes) (s : Processes σ) : Option (Fin 4) → Option (Processes σ)
  | none => parentStep p s
  | some k => childStep m argv s k

def Acts (m : Machine σ) (argv : Arguments) (p : Pipes) (s : Processes σ) (actor : Option (Fin 4)) (s' : Processes σ) :
    Prop :=
  turn m argv p s actor = some s'

def terminal : Fds :=
  assign (assign (assign ⟨fun _ => none,0,fun _ _ => rfl⟩ 0 (some .stdin)) 1 (some .stdout)) 2 (some (.other 2))

def mainInFive : Arguments := ⟨".","main","5"⟩

def text (s : String) : List UInt8 := s.toUTF8.toList

-- What the four commands print where two files hold "main" in three and in five lines.
def printed : Fin 5 → List UInt8
  | 0 => []
  | 1 => text "./a.c\n./b.c\n"
  | 2 => text "./a.c:3\n./b.c:5\n"
  | 3 => text "./b.c:5\n./a.c:3\n"
  | 4 => text "./b.c:5\n./a.c:3\n"

-- A program that reads to the end of its input before it prints, or that prints at once.
def twoFiles : Machine (Bool × List UInt8) where
  bash command :=
    if command = cmdbuf mainInFive 0 then (false,printed 1)
    else if command = cmdbuf mainInFive 1 then (true,printed 2)
    else if command = cmdbuf mainInFive 2 then (true,printed 3)
    else (true,printed 4)
  action program :=
    match program with
    | (true,out) => .read fun received =>
        match received with
        | .byte _ => (true,out)
        | _ => (false,out)
    | (false,b :: out) => .write b (false,out) (false,[])
    | (false,[]) => .exit
  capacity := 4096
  positive := by decide

end OperatingSystemLabs.Finder

import Mathlib.Algebra.Order.Ring.Int
import OperatingSystemLabs.Foundation.Loop

namespace OperatingSystemLabs.Buddy

open Loop

def maxOrder : Nat := 20

def minOrder : Nat := 12

abbrev Address := Nat

-- none is NULL
abbrev Ptr := Option Address

structure MemBlock where
  prev : Ptr
  next : Ptr
  inUse : Bool
  usedSpace : Nat
  blockSize : Nat
  order : Nat
  value : Char
  wasted : Int32
  isHead : Bool
  deriving DecidableEq, Repr

structure MemList where
  head : Ptr
  freeMemory : Nat
  allocatedMemory : Nat
  listSize : Nat
  deriving DecidableEq, Repr

-- The block at address i is heap[i]; `lst` is the only other storage the allocator has.
structure Arena where
  heap : List MemBlock
  lst : MemList
  deriving DecidableEq, Repr

inductive Stuck where
  | invalidPointer
  | endless
  | assertionFailed
  deriving DecidableEq, Repr

def Arena.deref (a : Arena) : Ptr → Except Stuck MemBlock
  | none => .error .invalidPointer
  | some p =>
      match a.heap[p]? with
      | some b => .ok b
      | none => .error .invalidPointer

def Arena.write (a : Arena) (p : Ptr) (b : MemBlock) : Except Stuck Arena :=
  match p with
  | some p => if p < a.heap.length then .ok { a with heap := a.heap.set p b } else .error .invalidPointer
  | none => .error .invalidPointer

def Arena.new (a : Arena) (b : MemBlock) : Arena × Ptr :=
  ({ a with heap := a.heap ++ [b] },some a.heap.length)

-- An int compared with a size_t is converted first, so a negative one is huge.
def toSizeT (n : Int32) : Nat := (n.toInt % 2 ^ 64).toNat

def wholeBlock : MemBlock where
  prev := none
  next := none
  inUse := false
  usedSpace := 0
  blockSize := 2 ^ maxOrder
  order := maxOrder
  value := 'N'
  wasted := 0
  isHead := true

def buddyInit : Arena where
  heap := [wholeBlock]
  lst := { head := some 0, freeMemory := 2 ^ maxOrder, allocatedMemory := 0, listSize := 0 }

-- The two loops over ints: an int is zero after 32 halvings.
def blockOrder (blockSize : Nat) : Except Stuck (Nat × Nat) :=
  repeatWhile .endless (fun s => .ok (decide (s.2 / 2 ≥ 1))) (fun s => .ok (s.1 + 1,s.2 / 2)) 32 (0,blockSize)

def minimumBlockSizeToFind (size : Int32) : Except Stuck Int :=
  repeatWhile .endless (fun s => .ok (decide (s / 2 > size.toInt))) (fun s => .ok (s / 2)) 32 (2 ^ maxOrder)

def setBlockOrder (a : Arena) (block : Ptr) : Except Stuck Arena := do
  let b ← a.deref block
  let (order,_) ← blockOrder b.blockSize
  a.write block { b with order := order }

def MemBlock.blockRight (b : MemBlock) (toSplit : Ptr) : MemBlock where
  prev := toSplit
  next := b.next
  inUse := false
  usedSpace := 0
  blockSize := b.blockSize / 2
  order := b.order - 1
  value := 'N'
  wasted := 0
  isHead := false

def MemBlock.blockLeft (b : MemBlock) (blockRight : Ptr) : MemBlock :=
  { b with order := b.order - 1, next := blockRight, blockSize := b.blockSize / 2, wasted := 0, usedSpace := 0 }

def splitBlock (a : Arena) (toSplit : Ptr) : Except Stuck (Arena × Ptr) := do
  let b ← a.deref toSplit
  if b.blockSize = 2 ^ minOrder then
    return (a,none)
  else
    let (a,blockRight) := a.new (b.blockRight toSplit)
    let a ← a.write toSplit (b.blockLeft blockRight)
    return ({ a with lst := { a.lst with listSize := a.lst.listSize + 1 } },toSplit)

def findLoop (a : Arena) (size : Nat) : Nat → Ptr → Ptr → Nat → Except Stuck Ptr
  | 0, _, _, _ => .error .endless
  | _ + 1, none, closest, _ => .ok closest
  | fuel + 1, some p, closest, closestBlockSize => do
      let current ← a.deref (some p)
      if current.inUse = false then
        if current.blockSize = size then
          return some p
        else if current.blockSize ≥ size ∧ current.blockSize ≤ closestBlockSize then
          findLoop a size fuel current.next (some p) current.blockSize
        else findLoop a size fuel current.next closest closestBlockSize
      else findLoop a size fuel current.next closest closestBlockSize

-- A walk along `next` that is longer than the heap never ends.
def findFreeBlock (a : Arena) (size : Int32) : Except Stuck Ptr :=
  findLoop a (toSizeT size) (a.heap.length + 1) a.lst.head a.lst.head (2 ^ maxOrder)

def largeEnough (size : Int32) (s : Arena × Ptr) : Except Stuck Bool := do
  let leftBlock ← s.1.deref s.2
  return decide (leftBlock.blockSize / 2 ≥ toSizeT size ∧ leftBlock.blockSize / 2 ≥ 2 ^ minOrder)

def MemBlock.allotted (b : MemBlock) (size : Int32) (val : Char) : MemBlock :=
  { b with inUse := true, value := val, wasted := Int32.ofInt (b.blockSize - toSizeT size), usedSpace := toSizeT size }

-- buddy_alloc returns nothing; this is the message it prints or the block it marks.
inductive Reply where
  | notEnoughMemory
  | noSuitableBlock
  | allocated (leftBlock : Ptr)
  deriving DecidableEq, Repr

def buddyAlloc (a : Arena) (size : Int32) (val : Char) : Except Stuck (Arena × Reply) := do
  if toSizeT size > a.lst.freeMemory then
    return (a,.notEnoughMemory)
  else
    let _blockSizeToFind ← minimumBlockSizeToFind size
    let leftBlock ← findFreeBlock a size
    if leftBlock = none then
      return (a,.noSuitableBlock)
    else
      let (a,leftBlock) ← repeatWhile .endless (largeEnough size) (fun s => splitBlock s.1 s.2) 64 (a,leftBlock)
      let b ← a.deref leftBlock
      let a ← a.write leftBlock (b.allotted size val)
      let a ← setBlockOrder a leftBlock
      let b ← a.deref leftBlock
      if b.blockSize ≥ 2 ^ minOrder ∧ b.blockSize ≤ 2 ^ maxOrder then
        return (a,.allocated leftBlock)
      else throw .assertionFailed

def allocAll (a : Arena) : List (Int32 × Char) → Except Stuck Arena
  | [] => .ok a
  | (size,val) :: requests => do
      let (a,_) ← buddyAlloc a size val
      allocAll a requests

end OperatingSystemLabs.Buddy

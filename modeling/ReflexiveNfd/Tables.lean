import Mathlib.Data.List.Sort
import ReflexiveNfd.Pit

namespace ReflexiveNfd

-- What the pipelines take from outside the tables: the decoding convention of
-- the process, the value read past a short PIT token's end, and the hash and
-- floating-point products the tables compute.
structure Env where
  convention : Convention
  pastEnd : PitToken → UInt32
  cityHash : Name → Nonce → UInt64
  scaleInterval : UInt32 → Int → Int
  capacityUp : Nat → Nat
  capacityDown : Nat → Nat

def tokenValue (env : Env) (pitToken : PitToken) : UInt32 := (readPitToken pitToken).getD (env.pastEnd pitToken)

def interestToken (env : Env) (interest : Interest) : UInt32 :=
  match interest.pitToken with
  | none => 0
  | some pitToken => tokenValue env pitToken

def findLongestPrefixMatch (key : ρ → Name) (table : List ρ) (name : Name) : Option ρ :=
  (List.range (min name.length maxDepth + 1)).reverse.findSome? fun depth =>
    table.find? (fun record => key record = name.take depth)

structure NextHop where
  face : Face
  cost : Nat
  deriving DecidableEq, Repr

structure FibEntry where
  name : Name
  nextHops : List NextHop
  deriving DecidableEq, Repr

abbrev Fib := List FibEntry

namespace Fib

def lookup (fib : Fib) (name : Name) : FibEntry := (findLongestPrefixMatch FibEntry.name fib name).getD ⟨[],[]⟩

def sortNextHops (nextHops : List NextHop) : List NextHop :=
  nextHops.insertionSort (fun a b => a.cost ≤ b.cost)

def addOrUpdateNextHop (nextHops : List NextHop) (face : Face) (cost : Nat) : List NextHop :=
  sortNextHops (if nextHops.any (fun n => n.face == face)
    then nextHops.map (fun n => if n.face = face then { n with cost := cost } else n)
    else nextHops ++ [⟨face,cost⟩])

section
variable (fib : Fib) (name : Name) (face : Face)

def insertNextHop (cost : Nat) : Fib :=
  if fib.any (fun e => e.name == name)
  then fib.map (fun e => if e.name = name then { e with nextHops := addOrUpdateNextHop e.nextHops face cost } else e)
  else fib ++ [⟨name,addOrUpdateNextHop [] face cost⟩]

def hasNextHop : Bool :=
  fib.any (fun e => e.name == name && e.nextHops.any (fun n => n.face == face))

-- The position where a nexthop is appended is read again once they are sorted.
def newNextHop (cost : Nat) : NextHop :=
  let nextHops := (fib.find? (fun e => e.name = name)).elim [] FibEntry.nextHops
  (addOrUpdateNextHop nextHops face cost)[nextHops.length]?.getD ⟨face,cost⟩

end

def removeNextHop (fib : Fib) (selected : Name → Bool) (face : Face) : Fib :=
  fib.filterMap fun e =>
    if selected e.name && e.nextHops.any (fun n => n.face == face) then
      let remaining := e.nextHops.filter (fun n => n.face ≠ face)
      if remaining.isEmpty then none else some ⟨e.name,remaining⟩
    else some e

end Fib

inductive StrategyKind where
  | bestRoute
  | multicast
  | random
  | asf
  | access
  | selfLearning
  deriving DecidableEq, Repr

-- A strategy instance with its retransmission suppression parameters; the
-- multiplier is the bit pattern of the float.
structure Strategy where
  kind : StrategyKind
  initialInterval : Int := 10
  maxInterval : Int := 250
  multiplier : UInt32 := 0x40000000
  deriving DecidableEq, Repr

structure StrategyChoiceEntry where
  name : Name
  strategy : Strategy
  deriving DecidableEq, Repr

abbrev StrategyChoice := List StrategyChoiceEntry

def defaultStrategy : Strategy := { kind := .bestRoute }

def StrategyChoice.findEffectiveStrategy (choice : StrategyChoice) (name : Name) : Strategy :=
  ((findLongestPrefixMatch StrategyChoiceEntry.name choice name).map StrategyChoiceEntry.strategy).getD defaultStrategy

def isInProducerRegion (regions forwardingHint : List Name) : Bool :=
  regions.any (fun regionName => forwardingHint.any (fun delegation => delegation.isPrefixOf regionName))

-- The Dead Nonce List: a queue of 64-bit hashes with MARKs among them.
structure DeadNonceList where
  lifetime : Int
  queue : List UInt64
  capacity : Nat
  actualMarkCounts : List Nat
  deriving DecidableEq, Repr

namespace DeadNonceList

def mark : UInt64 := 0
def expectedMarkCount : Nat := 5
def initialCapacity : Nat := 16384
def minCapacity : Nat := 1024
def maxCapacity : Nat := 16777216
def evictLimit : Nat := 64

def new (lifetime : Int) : DeadNonceList := ⟨lifetime,List.replicate expectedMarkCount mark,initialCapacity,[]⟩

section
variable (env : Env) (d : DeadNonceList) (name : Name) (nonce : Nonce)

def has : Bool :=
  d.queue.contains (env.cityHash name nonce)

def evictEntries : DeadNonceList :=
  if d.queue.length ≤ d.capacity then d
  else { d with queue := d.queue.drop (min (d.queue.length - d.capacity) evictLimit) }

def add : DeadNonceList :=
  let entry := env.cityHash name nonce
  if d.queue.contains entry then { d with queue := d.queue.erase entry ++ [entry] }
  else evictEntries { d with queue := d.queue ++ [entry] }

def addMark : DeadNonceList :=
  let queue := d.queue ++ [mark]
  { d with queue := queue, actualMarkCounts := queue.count mark :: d.actualMarkCounts }

def adjustCapacity : DeadNonceList :=
  let capacity :=
    if d.actualMarkCounts.all (fun n => n > expectedMarkCount) then max minCapacity (env.capacityDown d.capacity)
    else if d.actualMarkCounts.all (fun n => n < expectedMarkCount) then min maxCapacity (env.capacityUp d.capacity)
    else d.capacity
  evictEntries { d with capacity := capacity, actualMarkCounts := [] }

end

end DeadNonceList
end ReflexiveNfd

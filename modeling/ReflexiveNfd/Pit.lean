import ReflexiveNfd.Lib.Keyed
import ReflexiveNfd.Packet

namespace ReflexiveNfd
open Keyed

abbrev ObjId := Nat
abbrev EntryId := Nat
abbrev TimerId := Nat

-- Clock readings are nanoseconds, lifetimes and intervals milliseconds.
def nanoseconds (milliseconds : Int) : Int := milliseconds * 1000000
def toMilliseconds (duration : Int) : Int := duration.tdiv 1000000
def maxLifetime : Int := 864000000

-- An in-record keeps a shared pointer to the Interest object it was updated
-- with, so later writes to that object's tags show through it.
structure InRecord where
  face : Face
  lastNonce : Nonce
  lastRenewed : Int
  expiry : Int
  interest : ObjId
  isNonDiscovery : Option Bool := none
  deriving DecidableEq, Repr

structure OutRecord where
  face : Face
  lastNonce : Nonce
  lastRenewed : Int
  expiry : Int
  incomingNack : Option NackReason := none
  suppressionInterval : Option Int := none
  isNonDiscovery : Option Bool := none
  deriving DecidableEq, Repr

-- name, selectors and forwarding hint are those of the representative Interest,
-- none of which changes after the entry is made.
structure Entry where
  id : EntryId
  interest : ObjId
  name : Name
  canBePrefix : Bool
  mustBeFresh : Bool
  forwardingHint : List Name
  inRecords : List InRecord := []
  outRecords : List OutRecord := []
  expiryTimer : Option TimerId := none
  isSatisfied : Bool := false
  dataFreshnessPeriod : Int := 0
  suppressionInterval : Option Int := none
  rtoTimer : Option TimerId := none
  deriving DecidableEq, Repr, Inhabited

def expiryOf (now : Int) (interest : Interest) : Int := now + nanoseconds (min interest.lifetime maxLifetime)

def InRecord.new (face : Face) (object : ObjId) : InRecord := ⟨face,0,0,0,object,none⟩
def OutRecord.new (face : Face) : OutRecord := ⟨face,0,0,0,none,none,none⟩

def InRecord.update (r : InRecord) (now : Int) (object : ObjId) (interest : Interest) : InRecord :=
  { r with lastNonce := interest.nonce, lastRenewed := now, expiry := expiryOf now interest, interest := object }

def OutRecord.update (r : OutRecord) (now : Int) (interest : Interest) : OutRecord :=
  { r with lastNonce := interest.nonce, lastRenewed := now, expiry := expiryOf now interest }

-- NameTree::getMaxDepth, and the depth at which Pit::findOrInsert attaches.
def maxDepth : Nat := 32

def nteDepth (name : Name) : Nat :=
  min (if name.endsWithDigest then name.length - 1 else name.length) maxDepth

namespace Entry

section
variable (e : Entry)

def hasInRecords : Bool := !e.inRecords.isEmpty

def nte : Name := e.name.take (nteDepth e.name)

section
variable (face : Face) (now : Int) (interest : Interest)

def getInRecord : Option InRecord := lookup InRecord.face face e.inRecords
def getOutRecord (e : Entry) (face : Face) : Option OutRecord := lookup OutRecord.face face e.outRecords

def insertOrUpdateInRecord (object : ObjId) (interest : Interest) : Entry :=
  { e with inRecords := upsert InRecord.face face (.new face object) (·.update now object interest) e.inRecords }

def deleteInRecord : Entry :=
  { e with inRecords := remove InRecord.face face e.inRecords }

def clearInRecords : Entry := { e with inRecords := [] }

def insertOrUpdateOutRecord : Entry :=
  { e with outRecords := upsert OutRecord.face face (.new face) (·.update now interest) e.outRecords }

def deleteOutRecord : Entry :=
  { e with outRecords := remove OutRecord.face face e.outRecords }

def updateInRecord (f : InRecord → InRecord) : Entry :=
  { e with inRecords := modifyFirst InRecord.face face f e.inRecords }

def updateOutRecord (f : OutRecord → OutRecord) : Entry :=
  { e with outRecords := modifyFirst OutRecord.face face f e.outRecords }

def canMatch (nEqualNameComps : Nat) : Bool :=
  decide (e.name.drop nEqualNameComps = interest.name.drop nEqualNameComps) &&
    e.canBePrefix == interest.canBePrefix && e.mustBeFresh == interest.mustBeFresh

end

end

end Entry

-- The PIT as the sequence of its entries; the entries of one name tree entry
-- stand in the order of that tree entry's vector.
abbrev Pit := List Entry

namespace Pit

section
variable (pit : Pit) (id : EntryId)

def pitEntries (nte : Name) : List Entry := pit.filter (fun e => e.nte = nte)

def findBasedOnName (name : Name) : Option Entry :=
  if name.length > maxDepth then none else (pitEntries pit name).find? (fun e => e.name = name)

def find (interest : Interest) : Option Entry :=
  (pitEntries pit (interest.name.take (nteDepth interest.name))).find?
    (fun e => e.canMatch interest (nteDepth interest.name))

def newEntry (object : ObjId) (interest : Interest) : Entry :=
  { id := id, interest := object, name := interest.name, canBePrefix := interest.canBePrefix,
    mustBeFresh := interest.mustBeFresh, forwardingHint := interest.forwardingHint }

-- Tree entries on the path of the Data name, deepest first.
def findAllDataMatches (data : Data) : List Entry :=
  (List.range (min data.name.length maxDepth + 1)).reverse.flatMap fun depth =>
    (pitEntries pit (data.name.take depth)).filter (fun e => matchesData e.name e.canBePrefix e.mustBeFresh data)

-- Erasing moves the last entry of the tree entry's vector into the gap.
def erase (entry : Entry) : Pit :=
  match (pitEntries pit entry.nte).getLast? with
  | none => pit
  | some last =>
    if last.id = entry.id then pit.filter (fun e => e.id ≠ entry.id)
    else (pit.filter (fun e => e.id ≠ last.id)).map (fun e => if e.id = entry.id then last else e)

def modify (f : Entry → Entry) : Pit :=
  pit.map (fun e => if e.id = id then f e else e)

def get : Option Entry := List.find? (fun e => e.id = id) pit

end

end Pit
end ReflexiveNfd

import ReflexiveNfd.Lib.Timers
import ReflexiveNfd.Assist
import ReflexiveNfd.ContentStore

namespace ReflexiveNfd
open Timers

inductive Effect where
  | interest (egress : Face) (packet : Interest)
  | data (egress : Face) (packet : Data)
  | nack (egress : Face) (packet : Nack)
  deriving DecidableEq, Repr

inductive Task where
  | finalize (entry : EntryId)
  | rtoTimeout (entry : EntryId) (inFace firstOutFace : FaceId)
  deriving DecidableEq, Repr

inductive UnsolicitedDataPolicy where
  | dropAll
  | admitLocal
  | admitNetwork
  | admitAll
  deriving DecidableEq, Repr

structure Announcing where
  entry : EntryId
  inFace : FaceId
  data : Data
  deriving DecidableEq, Repr

-- One Forwarder. interests are the Interest objects made so far, and a shared
-- pointer to one is its index; sent are the packets of the current pipeline run.
structure State where
  now : Int
  defaultHopLimit : Nat
  faces : List Face
  lastFaceId : FaceId
  networkRegions : List Name
  unsolicitedDataPolicy : UnsolicitedDataPolicy
  fib : Fib
  strategyChoice : StrategyChoice
  deadNonceList : DeadNonceList
  cs : ContentStore
  pitAssist : PitAssist
  nextEntry : EntryId
  interests : List Interest
  pit : Pit
  scheduler : Scheduler Task
  announcing : List Announcing
  sent : List Effect

namespace State

section
variable (s : State)

section
variable (object : ObjId) (id : EntryId) (face : Face)

def interest : Interest := s.interests.getD object default

def entry : Entry := (s.pit.get id).getD default

def getFace (id : FaceId) : Option Face := s.faces.find? (fun f => f.id = id)

def allocate (interest : Interest) : State := { s with interests := s.interests ++ [interest] }

def modifyInterest (f : Interest → Interest) : State :=
  { s with interests := s.interests.modify object f }

def setTag (pitToken : PitToken) : State :=
  s.modifyInterest object (fun i => { i with pitToken := some pitToken })

def modifyEntry (f : Entry → Entry) : State :=
  { s with pit := s.pit.modify id f }

def emit (effect : Effect) : State := { s with sent := s.sent ++ [effect] }

def cancelTimer (handle : Option TimerId) : State := { s with scheduler := s.scheduler.cancel handle }

def setExpiryTimer (duration : Int) : State :=
  let due := s.now + nanoseconds (max duration 0)
  { s with
    scheduler := (s.scheduler.cancel (s.entry id).expiryTimer).schedule due (.finalize id)
    pit := s.pit.modify id (fun e => { e with expiryTimer := some s.scheduler.nextId }) }

def setRtoTimer (delay : Int) (inFace firstOutFace : FaceId) : State :=
  { s with
    scheduler := (s.scheduler.cancel (s.entry id).rtoTimer).schedule (s.now + delay) (.rtoTimeout id inFace firstOutFace)
    pit := s.pit.modify id (fun e => { e with rtoTimer := some s.scheduler.nextId }) }

def insertOrUpdateInRecord (object : ObjId) : State :=
  s.modifyEntry id (·.insertOrUpdateInRecord face s.now object (s.interest object))

def insertOrUpdateOutRecord (object : ObjId) : State :=
  s.modifyEntry id (·.insertOrUpdateOutRecord face s.now (s.interest object))

def deleteInRecord : State := s.modifyEntry id (·.deleteInRecord face)

end

end

end State
end ReflexiveNfd

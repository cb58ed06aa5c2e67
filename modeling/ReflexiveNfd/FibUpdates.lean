import Mathlib.Data.List.Sort
import ReflexiveNfd.Rib

namespace ReflexiveNfd

inductive FibAction where
  | addNextHop
  | removeNextHop
  deriving DecidableEq, Repr

structure FibUpdate where
  name : Name
  faceId : FaceId
  cost : Nat
  action : FibAction
  deriving DecidableEq, Repr

def FibUpdate.createAddUpdate (name : Name) (faceId : FaceId) (cost : Nat) : FibUpdate := ⟨name,faceId,cost,.addNextHop⟩
def FibUpdate.createRemoveUpdate (name : Name) (faceId : FaceId) : FibUpdate := ⟨name,faceId,0,.removeNextHop⟩

inductive RibAction where
  | register
  | unregister
  | removeFace
  deriving DecidableEq, Repr

structure RibUpdate where
  action : RibAction
  name : Name
  route : Route
  deriving DecidableEq, Repr

abbrev RouteSet := OrderedMap FaceId Route compare

namespace RouteSet

def insertRoute (set : RouteSet) (route : Route) : RouteSet :=
  match set.find route.faceId with
  | some _ => set
  | none => set.insert route.faceId route

def single (route : Route) : RouteSet := insertRoute .empty route

def routes (set : RouteSet) : List Route := set.entries.map Prod.snd

def keep (set : RouteSet) (kept : FaceId → Bool) : RouteSet := ⟨set.entries.filter (fun e => kept e.1),set.ascending.filter _⟩

end RouteSet

namespace RibEntry

section
variable (e : RibEntry) (route : Route) (faceId : FaceId)

def hasFaceId : Bool := e.routes.any (·.faceId == faceId)

def hasCapture : Bool := decide (0 < e.nRoutesWithCaptureSet)

def addInheritedRoute : RibEntry := { e with inheritedRoutes := e.inheritedRoutes ++ [route] }

def removeInheritedRoute : RibEntry :=
  { e with inheritedRoutes := e.inheritedRoutes.filter (fun r => r.faceId ≠ route.faceId) }

def hasInheritedRoute : Bool := e.inheritedRoutes.any (·.faceId == route.faceId)

def hasChildInheritOnFaceId : Bool := e.routes.any (fun r => r.faceId == faceId && r.isChildInherit)

def lowestCost (candidate : Option Route) : List Route → Option Route
  | [] => candidate
  | route :: later => match candidate with
      | none => lowestCost (some route) later
      | some best => lowestCost (some (if route.cost < best.cost then route else best)) later

def getRouteWithLowestCostByFaceId : Option Route :=
  lowestCost none (e.routes.filter (·.faceId == faceId))

def getRouteWithLowestCostAndChildInheritByFaceId : Option Route :=
  lowestCost none (e.routes.filter (fun r => r.faceId == faceId && r.isChildInherit))

end

end RibEntry

-- std::nth_element for the second position: which of the routes with the same
-- cost it puts there is not determined.
structure SecondLowest where
  pick : List Route → Option Route
  second : ∀ found : List Route, 2 ≤ found.length → ∃ lowest next others, found.Perm (lowest :: next :: others) ∧ pick found = some next ∧
    lowest.cost ≤ next.cost ∧ ∀ other ∈ others, next.cost ≤ other.cost

def SecondLowest.stable : SecondLowest where
  pick found := (found.insertionSort (fun a b => a.cost ≤ b.cost))[1]?
  second found enough := by
    have perm := List.perm_insertionSort (fun a b : Route => a.cost ≤ b.cost) found
    have sorted := List.pairwise_insertionSort (fun a b : Route => a.cost ≤ b.cost) found
    generalize found.insertionSort (fun a b => a.cost ≤ b.cost) = result at perm sorted
    rw [← perm.length_eq] at enough
    cases result with
    | nil => cases enough
    | cons lowest tail => cases tail with
        | nil => simp at enough
        | cons next others =>
          obtain ⟨first,rest⟩ := List.pairwise_cons.mp sorted
          exact ⟨lowest,next,others,perm.symm,rfl,first next (List.mem_cons_self ..),(List.pairwise_cons.mp rest).1⟩

def RibEntry.getRouteWithSecondLowestCostByFaceId (second : SecondLowest) (e : RibEntry) (faceId : FaceId) : Option Route :=
  let found := e.routes.filter (·.faceId == faceId)
  if found.length < 2 then none else second.pick found

namespace Rib

-- The entries upward from one, as far as a capture. An entry is below fewer
-- others than there are entries.
def collectRoutes (rib : Rib) : Nat → RouteSet → Option Name → RouteSet
  | 0,set,_ => set
  | _ + 1,set,none => set
  | fuel + 1,set,some parent =>
    match rib.find parent with
    | none => set
    | some entry =>
      let set := (entry.routes.filter Route.isChildInherit).foldl RouteSet.insertRoute set
      if entry.hasCapture then set else collectRoutes rib fuel set entry.parent

def getAncestorRoutes (rib : Rib) (entry : RibEntry) : RouteSet := rib.collectRoutes rib.table.size .empty entry.parent

def getAncestorRoutesOfName (rib : Rib) (name : Name) : RouteSet := rib.collectRoutes rib.table.size .empty (rib.findParent name)

end Rib

-- What the computation of updates does to the updater: it adds FIB updates to its
-- lists, records inherited routes, and a copy of an entry that erases a route
-- cancels the route's event. None of it is read back by the computation.
inductive UpdaterCall where
  | addFibUpdate (update : FibUpdate)
  | inheritedRoute (update : RibUpdate)
  | cancelExpirationEvent (event : EventId)
  deriving DecidableEq, Repr

namespace FibUpdater
open FibUpdate

section
variable (name : Name) (route : Route)

def addInheritedRoute : UpdaterCall := .inheritedRoute ⟨.register,name,route⟩

def removeInheritedRoute : UpdaterCall := .inheritedRoute ⟨.unregister,name,route⟩

def inherit : List UpdaterCall :=
  [addInheritedRoute name route,.addFibUpdate (createAddUpdate name route.faceId route.cost)]

def disinherit : List UpdaterCall :=
  [removeInheritedRoute name route,.addFibUpdate (createRemoveUpdate name route.faceId)]

end

section
variable (rib : Rib) (name : Name) (entry : RibEntry) (routesToAdd : RouteSet) (route : Route) (children : List Name)

def addInheritedRoutes : List UpdaterCall :=
  routesToAdd.routes.flatMap (fun route => if entry.hasFaceId route.faceId then [] else inherit name route)

def addInheritedRoutesIgnoring (ignore : Route) : List UpdaterCall :=
  routesToAdd.routes.flatMap (fun route => if route.faceId ≠ ignore.faceId then inherit name route else [])

def removeInheritedRoutes (routesToRemove : RouteSet) : List UpdaterCall :=
  routesToRemove.routes.flatMap (fun route => if entry.hasInheritedRoute route then disinherit name route else [])

def traverseSubTree (rib : Rib) : Nat → RouteSet → RouteSet → Name → List UpdaterCall
  | 0,_,_,_ => []
  | fuel + 1,routesToAdd,routesToRemove,name =>
    match rib.find name with
    | none => []
    | some entry =>
      if entry.hasCapture then []
      else
        let routesToRemove := routesToRemove.keep (fun faceId => !entry.hasChildInheritOnFaceId faceId)
        let routesToAdd := routesToAdd.keep (fun faceId => !entry.hasChildInheritOnFaceId faceId)
        removeInheritedRoutes name entry routesToRemove ++ addInheritedRoutes name entry routesToAdd ++
          entry.children.flatMap (traverseSubTree rib fuel routesToAdd routesToRemove)

def modifyChildrensInheritedRoutes (routesToAdd routesToRemove : RouteSet) : List UpdaterCall :=
  children.flatMap (traverseSubTree rib rib.table.size routesToAdd routesToRemove)

def createFibUpdatesForNewRibEntry : List UpdaterCall :=
  .addFibUpdate (createAddUpdate name route.faceId route.cost) ::
    match route.isChildInherit,route.isRibCapture with
    | false,false => addInheritedRoutesIgnoring name (rib.getAncestorRoutesOfName name) route
    | true,true => modifyChildrensInheritedRoutes rib children (.single route) (rib.getAncestorRoutesOfName name)
    | true,false =>
      let ancestorRoutes := rib.getAncestorRoutesOfName name
      addInheritedRoutesIgnoring name ancestorRoutes route ++
        modifyChildrensInheritedRoutes rib children (RouteSet.insertRoute (ancestorRoutes.erase route.faceId) route) .empty
    | false,true => modifyChildrensInheritedRoutes rib children .empty (rib.getAncestorRoutesOfName name)

def notAbove : Option Route → Bool
  | none => true
  | some candidate => decide (route.cost ≤ candidate.cost)

def createFibUpdatesForNewRoute (captureWasTurnedOn : Bool) : List UpdaterCall :=
  let prevRoute := entry.getRouteWithLowestCostAndChildInheritByFaceId route.faceId
  let routesToAdd : RouteSet := if route.isChildInherit && notAbove route prevRoute then .single route else .empty
  let routesToRemove : RouteSet := if captureWasTurnedOn then rib.getAncestorRoutes entry else .empty
  removeInheritedRoutes name entry routesToRemove ++ modifyChildrensInheritedRoutes rib entry.children routesToAdd routesToRemove ++
    (if notAbove route (entry.getRouteWithLowestCostByFaceId route.faceId) then
      [.addFibUpdate (createAddUpdate name route.faceId route.cost)] else [])

-- The entry's own update after a change of cost. Without a route with child
-- inherit prevRoute is a null pointer that is dereferenced.
def createFibUpdatesForChangedCost (route existingRoute : Route) : Option (List UpdaterCall) := do
  let lowest ← entry.getRouteWithLowestCostByFaceId route.faceId
  if route.cost ≤ lowest.cost then some [.addFibUpdate (createAddUpdate name route.faceId route.cost)]
  else if existingRoute.cost < lowest.cost then
    let prevRoute ← entry.getRouteWithLowestCostAndChildInheritByFaceId route.faceId
    some [.addFibUpdate (createAddUpdate name prevRoute.faceId prevRoute.cost)]
  else some []

def createFibUpdatesForChildInherit (route existingRoute : Route) : List UpdaterCall :=
  let prevRoute := entry.getRouteWithLowestCostAndChildInheritByFaceId route.faceId
  match existingRoute.isChildInherit,route.isChildInherit with
  | false,true =>
    if notAbove route prevRoute then modifyChildrensInheritedRoutes rib entry.children (.single route) .empty else []
  | true,false =>
    let routesToAdd : RouteSet := match prevRoute with
      | some prevRoute => .single prevRoute
      | none => match (rib.getAncestorRoutes entry).find route.faceId with
          | some ancestorRoute => .single ancestorRoute
          | none => .empty
    modifyChildrensInheritedRoutes rib entry.children routesToAdd (.single route)
  | _,_ => []

end

section
variable (rib : Rib) (name : Name) (entry : RibEntry)

def createFibUpdatesForCapture (route existingRoute : Route) : List UpdaterCall :=
  match existingRoute.isRibCapture,route.isRibCapture with
  | false,true =>
    let ancestorRoutes := rib.getAncestorRoutes entry
    removeInheritedRoutes name entry ancestorRoutes ++ modifyChildrensInheritedRoutes rib entry.children .empty ancestorRoutes
  | true,false =>
    let ancestorRoutes := rib.getAncestorRoutes entry
    addInheritedRoutes name entry ancestorRoutes ++ modifyChildrensInheritedRoutes rib entry.children ancestorRoutes .empty
  | _,_ => []

def createFibUpdatesForUpdatedRoute (route existingRoute : Route) : Option (List UpdaterCall) :=
  if route.flags = existingRoute.flags ∧ route.cost = existingRoute.cost then some []
  else do
    let own ← if route.cost ≠ existingRoute.cost then createFibUpdatesForChangedCost name entry route existingRoute else some []
    if route.cost ≠ existingRoute.cost ∧ notAbove route (entry.getRouteWithLowestCostAndChildInheritByFaceId route.faceId) ∧
        route.flags = existingRoute.flags ∧ route.isChildInherit then
      some (own ++ modifyChildrensInheritedRoutes rib entry.children (.single route) .empty)
    else
      some (own ++ createFibUpdatesForChildInherit rib entry route existingRoute ++ createFibUpdatesForCapture rib name entry route existingRoute)

-- entry is a copy without the route.
def createFibUpdatesForErasedRoute (route : Route) (captureWasTurnedOff : Bool) : List UpdaterCall :=
  let ancestorRoutes := rib.getAncestorRoutes entry
  let released : RouteSet := if captureWasTurnedOff && entry.routes.length != 0 then ancestorRoutes else .empty
  .addFibUpdate (createRemoveUpdate name route.faceId) ::
    (match route.isChildInherit,route.isRibCapture with
    | true,true => addInheritedRoutes name entry released ++ modifyChildrensInheritedRoutes rib entry.children released (.single route)
    | true,false => modifyChildrensInheritedRoutes rib entry.children (if entry.hasCapture then .empty else ancestorRoutes) (.single route)
    | false,true => addInheritedRoutes name entry released ++ modifyChildrensInheritedRoutes rib entry.children released .empty
    | false,false => []) ++
    (if !entry.hasCapture && entry.routes.length != 0 then
      match ancestorRoutes.find route.faceId with
      | some ancestorRoute => inherit name ancestorRoute
      | none => []
    else [])

end

def createFibUpdatesForErasedRibEntry (name : Name) (entry : RibEntry) : List UpdaterCall :=
  entry.inheritedRoutes.map (fun route => .addFibUpdate (createRemoveUpdate name route.faceId))

def computeUpdatesForRegistration (rib : Rib) (name : Name) (route : Route) : Option (List UpdaterCall) :=
  match rib.find name with
  | some entry =>
    match entry.findRoute route with
    | none => some (createFibUpdatesForNewRoute rib name entry route (!entry.hasCapture && route.isRibCapture))
    | some existingRoute =>
      let routeToUpdate := { existingRoute with flags := route.flags, cost := route.cost, expires := route.expires }
      createFibUpdatesForUpdatedRoute rib name (entry.assignRoute routeToUpdate) route existingRoute
  | none =>
    let parent := rib.findParent name
    let children := (rib.findDescendantsForNonInsertedName name).filter (fun descendant => rib.parentOf descendant = parent)
    some (createFibUpdatesForNewRibEntry rib name route children)

def computeUpdatesForUnregistration (second : SecondLowest) (rib : Rib) (name : Name) (route : Route) : List UpdaterCall :=
  match rib.find name with
  | none => []
  | some entry =>
    match entry.findRoute route with
    | none => []
    | some existing =>
      let temp := entry.eraseRoute route
      existing.expirationEvent.toList.map .cancelExpirationEvent ++
        createFibUpdatesForErasedRoute rib name temp existing (entry.hasCapture && !temp.hasCapture) ++
        (match entry.getRouteWithSecondLowestCostByFaceId second route.faceId with
        | some next => createFibUpdatesForNewRoute rib name temp next false
        | none => []) ++
        (if entry.routes.length = 1 then createFibUpdatesForErasedRibEntry name entry else [])

end FibUpdater

structure FibUpdater where
  batchFaceId : FaceId
  updatesForBatchFaceId : List FibUpdate
  updatesForNonBatchFaceId : List FibUpdate
  inheritedRoutes : List RibUpdate

namespace FibUpdater

def replaceUpdate (update : FibUpdate) : List FibUpdate → List FibUpdate
  | [] => [update]
  | other :: later =>
    if update.name = other.name ∧ update.faceId = other.faceId then { other with action := update.action, cost := update.cost } :: later
    else other :: replaceUpdate update later

def addFibUpdate (u : FibUpdater) (update : FibUpdate) : FibUpdater :=
  if update.faceId = u.batchFaceId then { u with updatesForBatchFaceId := replaceUpdate update u.updatesForBatchFaceId }
  else { u with updatesForNonBatchFaceId := replaceUpdate update u.updatesForNonBatchFaceId }

def perform (u : FibUpdater) : UpdaterCall → FibUpdater
  | .addFibUpdate update => u.addFibUpdate update
  | .inheritedRoute update => { u with inheritedRoutes := u.inheritedRoutes ++ [update] }
  | .cancelExpirationEvent _ => u

def cancelledBy : UpdaterCall → Option EventId
  | .cancelExpirationEvent event => some event
  | _ => none

def blank (batchFaceId : FaceId) : FibUpdater := ⟨batchFaceId,[],[],[]⟩

-- Updates with the face of a removed face are not applied.
def computeUpdates (second : SecondLowest) (rib : Rib) (update : RibUpdate) : Option (FibUpdater × List EventId) :=
  let empty := blank update.route.faceId
  match update.action with
  | .register => do
      let calls ← computeUpdatesForRegistration rib update.name update.route
      some (calls.foldl perform empty,calls.filterMap cancelledBy)
  | .unregister =>
    let calls := computeUpdatesForUnregistration second rib update.name update.route
    some (calls.foldl perform empty,calls.filterMap cancelledBy)
  | .removeFace =>
    let calls := computeUpdatesForUnregistration second rib update.name update.route
    some ({ calls.foldl perform empty with updatesForBatchFaceId := [] },calls.filterMap cancelledBy)

def key (update : FibUpdate) : Name × FaceId := (update.name,update.faceId)

theorem keys_replaceUpdate (update : FibUpdate) (updates : List FibUpdate) :
    (replaceUpdate update updates).map key = if key update ∈ updates.map key then updates.map key else updates.map key ++ [key update] := by
  induction updates with
  | nil => simp [replaceUpdate]
  | cons other later ih =>
    rw [replaceUpdate]
    split
    · rename_i same
      have here : key update = key other := Prod.ext same.1 same.2
      have listed : key update ∈ (other :: later).map key := List.mem_cons.mpr (.inl here)
      rw [if_pos listed]
      rfl
    · rename_i apart
      have differs : key update ≠ key other := fun same => apart ⟨congrArg Prod.fst same,congrArg Prod.snd same⟩
      simp only [List.map_cons,ih,List.mem_cons,differs,false_or]
      split
      · rfl
      · rfl

theorem replaceUpdate_nodup (update : FibUpdate) (distinct : (updates.map key).Nodup) :
    ((replaceUpdate update updates).map key).Nodup := by
  rw [keys_replaceUpdate]
  split
  · exact distinct
  · rename_i new
    exact (List.perm_append_singleton ..).nodup_iff.mpr (List.nodup_cons.mpr ⟨new,distinct⟩)

theorem faceId_replaceUpdate
    (present : other ∈ replaceUpdate update updates) : other.faceId = update.faceId ∨ ∃ old ∈ updates, other.faceId = old.faceId := by
  have listed : key other ∈ (replaceUpdate update updates).map key := List.mem_map_of_mem present
  rw [keys_replaceUpdate] at listed
  split at listed
  · obtain ⟨old,inside,same⟩ := List.mem_map.mp listed
    exact .inr ⟨old,inside,(congrArg Prod.snd same).symm⟩
  · rcases List.mem_append.mp listed with before | last
    · obtain ⟨old,inside,same⟩ := List.mem_map.mp before
      exact .inr ⟨old,inside,(congrArg Prod.snd same).symm⟩
    · exact .inl (congrArg Prod.snd (List.mem_singleton.mp last))

structure Divided (u : FibUpdater) : Prop where
  batch : ∀ update ∈ u.updatesForBatchFaceId, update.faceId = u.batchFaceId
  nonBatch : ∀ update ∈ u.updatesForNonBatchFaceId, update.faceId ≠ u.batchFaceId
  batchDistinct : (u.updatesForBatchFaceId.map key).Nodup
  nonBatchDistinct : (u.updatesForNonBatchFaceId.map key).Nodup

variable {u v : FibUpdater}

theorem addFibUpdate_divided (divided : Divided u) (update : FibUpdate) :
    Divided (u.addFibUpdate update) ∧ (u.addFibUpdate update).batchFaceId = u.batchFaceId := by
  rw [addFibUpdate]
  split
  · rename_i here
    refine ⟨⟨fun other present => ?_,divided.nonBatch,replaceUpdate_nodup update divided.batchDistinct,divided.nonBatchDistinct⟩,rfl⟩
    rcases faceId_replaceUpdate present with new | ⟨old,inside,same⟩
    · exact new.trans here
    · exact same.trans (divided.batch old inside)
  · rename_i elsewhere
    refine ⟨⟨divided.batch,fun other present => ?_,divided.batchDistinct,replaceUpdate_nodup update divided.nonBatchDistinct⟩,rfl⟩
    rcases faceId_replaceUpdate present with new | ⟨old,inside,same⟩
    · exact new ▸ elsewhere
    · exact same ▸ divided.nonBatch old inside

theorem perform_divided (divided : Divided u) (calls : List UpdaterCall) :
    Divided (calls.foldl perform u) ∧ (calls.foldl perform u).batchFaceId = u.batchFaceId := by
  induction calls generalizing u with
  | nil => exact ⟨divided,rfl⟩
  | cons call later ih =>
    cases call with
    | addFibUpdate update =>
      obtain ⟨added,face⟩ := addFibUpdate_divided divided update
      exact ⟨(ih added).1,(ih added).2.trans face⟩
    | inheritedRoute update => exact ih { divided with }
    | cancelExpirationEvent event => exact ih divided

theorem computeUpdates_divided
    (computed : computeUpdates second rib update = some (u,cancelled)) : Divided u ∧ u.batchFaceId = update.route.faceId := by
  have all : ∀ calls : List UpdaterCall, Divided (calls.foldl perform (blank update.route.faceId)) ∧
      (calls.foldl perform (blank update.route.faceId)).batchFaceId = update.route.faceId :=
    perform_divided ⟨nofun,nofun,List.nodup_nil,List.nodup_nil⟩
  rw [computeUpdates] at computed
  cases action : update.action with
  | register =>
    simp only [action] at computed
    obtain ⟨calls,_,made⟩ := Option.bind_eq_some_iff.mp computed
    cases made
    exact all calls
  | unregister =>
    simp only [action] at computed
    cases computed
    exact all _
  | removeFace =>
    simp only [action] at computed
    cases computed
    obtain ⟨divided,face⟩ := all (computeUpdatesForUnregistration second rib update.name update.route)
    exact ⟨{ divided with batch := nofun,batchDistinct := List.nodup_nil },face⟩

end FibUpdater

end ReflexiveNfd

import ReflexiveNfd.Lib.Results
import ReflexiveNfd.FibUpdates

namespace ReflexiveNfd
open Results List Transition

-- A queued batch, which has one update. An expired route or a removed face is
-- queued without callbacks of a manager.
structure UpdateQueueItem where
  id : Nat
  update : RibUpdate
  hasCallbacks : Bool
  deriving DecidableEq, Repr

-- A command to the FIB with what its callbacks have captured; sent is the command
-- that was really started.
structure FibCommand where
  item : UpdateQueueItem
  update : FibUpdate
  sent : FibAction
  nTimeouts : Nat
  deriving DecidableEq, Repr

inductive FibResponse where
  | success
  | error (code : Nat)
  deriving DecidableEq, Repr

-- inProgress is the batch that has set m_isUpdateInProgress. The last five fields
-- record what happened: the callbacks of managers, the batches that changed the
-- RIB, the routes they erased, and of the commands for the face of a batch those
-- that the batch has and those that were carried out.
structure RibQueue where
  rib : Rib
  fibUpdater : FibUpdater
  updateBatches : List UpdateQueueItem
  inProgress : Option UpdateQueueItem
  outstanding : List FibCommand
  nextId : Nat
  calls : List (Nat × Bool)
  changes : List Nat
  erased : List (Nat × Route)
  required : List (Nat × FibUpdate)
  succeeded : List (Nat × FibUpdate)

inductive RibFault where
  | assertion
  | nullPointer
  | nonRecoverable
  deriving DecidableEq, Repr

-- beginApplyUpdate queues one update, the removal of faces one for each route.
inductive RibEvent where
  | apply (updates : List (RibUpdate × Bool))
  | respond (command : FibCommand) (response : FibResponse)

def maxNumTimeouts : Nat := 10
def errorFaceNotFound : Nat := 410
def errorTimeout : Nat := 10060

namespace Rib

def modifyInheritedRoute (rib : Rib) (update : RibUpdate) : Except RibFault Rib :=
  match rib.find update.name with
  | none => .error .assertion
  | some entry => match update.action with
      | .register => .ok (rib.put update.name (entry.addInheritedRoute update.route))
      | .unregister => .ok (rib.put update.name (entry.removeInheritedRoute update.route))
      | .removeFace => .ok rib

def modifyInheritedRoutes (rib : Rib) (inheritedRoutes : List RibUpdate) : Except RibFault Rib := inheritedRoutes.foldlM modifyInheritedRoute rib

-- The assertions in the RIB's tree do not fail there.
def applyUpdate (rib : Rib) (update : RibUpdate) : Except RibFault Rib :=
  (match update.action with
  | .register => rib.insert update.name update.route
  | .unregister => rib.erase update.name update.route
  | .removeFace => rib.erase update.name update.route).elim (.error .assertion) .ok

end Rib

namespace RibQueue

def initial : RibQueue := ⟨.empty,.blank 0,[],none,[],0,[],[],[],[],[]⟩

section
variable (second : SecondLowest) (s : RibQueue) (item : UpdateQueueItem)

def addUpdateToQueue (entry : RibUpdate × Bool) : RibQueue :=
  { s with updateBatches := s.updateBatches ++ [⟨s.nextId,entry.1,entry.2⟩], nextId := s.nextId + 1 }

def take (later : List UpdateQueueItem) : Except RibFault RibQueue :=
  match FibUpdater.computeUpdates second s.rib item.update with
  | none => .error .nullPointer
  | some (fibUpdater,cancelled) => .ok { s with
      rib := { s.rib with cancelled := s.rib.cancelled ++ cancelled }
      fibUpdater := fibUpdater
      updateBatches := later
      inProgress := some item
      required := s.required ++ fibUpdater.updatesForBatchFaceId.map (fun update => (item.id,update)) }

def sendUpdates (updates : List FibUpdate) : RibQueue :=
  { s with outstanding := s.outstanding ++ updates.map (fun update => ⟨item,update,update.action,0⟩) }

def conclude (success : Bool) : RibQueue :=
  { s with inProgress := none, calls := s.calls ++ if item.hasCallbacks then [(item.id,success)] else [] }

def erasedBy (rib : Rib) (item : UpdateQueueItem) : List (Nat × Route) :=
  match item.update.action with
  | .register => []
  | _ => (rib.stored item.update.name item.update.route).toList.map (fun route => (item.id,route))

def change : Except RibFault RibQueue := do
  let rib ← s.rib.applyUpdate item.update
  let rib ← rib.modifyInheritedRoutes s.fibUpdater.inheritedRoutes
  .ok (conclude { s with rib := rib, changes := s.changes ++ [item.id], erased := s.erased ++ erasedBy s.rib item } item true)

def sendBatches (second : SecondLowest) : RibQueue → List UpdateQueueItem → Except RibFault RibQueue
  | s,[] => .ok s
  | s,item :: later => do
      let s ← s.take second item later
      if s.fibUpdater.updatesForBatchFaceId ≠ [] then .ok (s.sendUpdates item s.fibUpdater.updatesForBatchFaceId)
      else if s.fibUpdater.updatesForNonBatchFaceId ≠ [] then .ok (s.sendUpdates item s.fibUpdater.updatesForNonBatchFaceId)
      else do
        let s ← s.change item
        sendBatches second s later

def sendBatchFromQueue : Except RibFault RibQueue :=
  if s.inProgress.isSome then .ok s else sendBatches second s s.updateBatches

end

section
variable (second : SecondLowest) (s : RibQueue) (item : UpdateQueueItem)

def onFibUpdateSuccess : Except RibFault RibQueue := do
  let s ← s.change item
  s.sendBatchFromQueue second

def onFibUpdateFailure : Except RibFault RibQueue :=
  (s.conclude item false).sendBatchFromQueue second

def sendUpdatesForNonBatchFaceId : Except RibFault RibQueue :=
  if s.fibUpdater.updatesForNonBatchFaceId ≠ [] then .ok (s.sendUpdates item s.fibUpdater.updatesForNonBatchFaceId)
  else s.onFibUpdateSuccess second item

end

section
variable (second : SecondLowest) (s : RibQueue) (update : FibUpdate) (command : FibCommand)

def removeBatch : RibQueue :=
  { s with fibUpdater := { s.fibUpdater with updatesForBatchFaceId := s.fibUpdater.updatesForBatchFaceId.filter (· ≠ update) } }

def removeNonBatch : RibQueue :=
  { s with fibUpdater := { s.fibUpdater with updatesForNonBatchFaceId := s.fibUpdater.updatesForNonBatchFaceId.filter (· ≠ update) } }

def doneNonBatch : Except RibFault RibQueue :=
  let s := s.removeNonBatch command.update
  if s.fibUpdater.updatesForNonBatchFaceId = [] then s.onFibUpdateSuccess second command.item else .ok s

def onUpdateSuccess : Except RibFault RibQueue :=
  if command.update.faceId = s.fibUpdater.batchFaceId then
    let s := s.removeBatch command.update
    if s.fibUpdater.updatesForBatchFaceId = [] then s.sendUpdatesForNonBatchFaceId second command.item else .ok s
  else s.doneNonBatch second command

def sendAgain : RibQueue :=
  { s with outstanding := s.outstanding ++ [{ command with sent := .addNextHop, nTimeouts := command.nTimeouts + 1 }] }

def onUpdateError (code : Nat) : Except RibFault RibQueue :=
  if code = errorTimeout ∧ command.nTimeouts < maxNumTimeouts then .ok (s.sendAgain command)
  else if code = errorFaceNotFound then
    if command.update.faceId = s.fibUpdater.batchFaceId then s.onFibUpdateFailure second command.item
    else s.doneNonBatch second command
  else .error .nonRecoverable

def receive (response : FibResponse) : RibQueue :=
  { s with
    outstanding := s.outstanding.erase command
    succeeded := if response = .success ∧ command.sent = command.update.action then s.succeeded ++ [(command.item.id,command.update)] else s.succeeded }

def attempt : RibEvent → Except RibFault RibQueue
  | .apply updates => (updates.foldl addUpdateToQueue s).sendBatchFromQueue second
  | .respond command .success => (s.receive command .success).onUpdateSuccess second command
  | .respond command (.error code) => (s.receive command (.error code)).onUpdateError second command code

def Enabled : RibEvent → Prop
  | .apply _ => True
  | .respond command _ => command ∈ s.outstanding

end

instance (s : RibQueue) (event : RibEvent) : Decidable (s.Enabled event) := by
  cases event <;> unfold Enabled <;> infer_instance

def step (second : SecondLowest) (s : RibQueue) (event : RibEvent) : Option RibQueue :=
  if s.Enabled event then (s.attempt second event).toOption else none

-- A batch calls its manager back once, it changes the RIB after the commands for
-- its face were carried out, and commands belong to the batch in progress.
structure Atomic (s : RibQueue) : Prop where
  once : (s.calls.map Prod.fst).Nodup
  earned : ∀ id ∈ s.changes, ∀ update, (id,update) ∈ s.required → (id,update) ∈ s.succeeded
  own : ∀ command ∈ s.outstanding, s.inProgress = some command.item

-- A face that is not found is reported by the last command of its batch.
def Last (s : RibQueue) : RibEvent → Prop
  | .apply _ => True
  | .respond command response => response = .error errorFaceNotFound → command.update.faceId = s.fibUpdater.batchFaceId →
      ∀ other ∈ s.outstanding, other.item.id = command.item.id → other = command

-- A command that removes a nexthop of its batch's face does not time out.
def Kept (s : RibQueue) : RibEvent → Prop
  | .apply _ => True
  | .respond command response => response = .error errorTimeout → command.update.faceId = s.fibUpdater.batchFaceId →
      command.update.action = .addNextHop

def Orderly (s : RibQueue) (event : RibEvent) : Prop := s.Last event ∧ s.Kept event

instance (s : RibQueue) (event : RibEvent) : Decidable (s.Last event) := by
  cases event <;> unfold Last <;> infer_instance

instance (s : RibQueue) (event : RibEvent) : Decidable (s.Orderly event) := by
  cases event <;> unfold Orderly Kept <;> infer_instance

def launch (s : RibQueue) (item : UpdateQueueItem) : RibQueue :=
  s.sendUpdates item (if s.fibUpdater.updatesForBatchFaceId ≠ [] then s.fibUpdater.updatesForBatchFaceId else s.fibUpdater.updatesForNonBatchFaceId)

-- What the queue and the updater do, one thing at a time; sending a command
-- again is apart. fails tells which batches may fail.
inductive Move (second : SecondLowest) (fails : UpdateQueueItem → Prop) : RibQueue → RibQueue → Prop where
  | start {later : List UpdateQueueItem} (free : s.inProgress = none) (front : s.updateBatches = item :: later)
      (taken : s.take second item later = .ok u) : Move second fails s (u.launch item)
  | remove (pending : command ∈ s.outstanding) (own : s.inProgress = some command.item) (face : command.update.faceId = s.fibUpdater.batchFaceId) :
      Move second fails s ((s.receive command .success).removeBatch command.update)
  | removeOther (pending : command ∈ s.outstanding) (own : s.inProgress = some command.item)
      (face : command.update.faceId ≠ s.fibUpdater.batchFaceId) : Move second fails s ((s.receive command response).removeNonBatch command.update)
  | proceed (own : s.inProgress = some item) (done : s.fibUpdater.updatesForBatchFaceId = []) (silent : s.outstanding = []) :
      Move second fails s (s.sendUpdates item s.fibUpdater.updatesForNonBatchFaceId)
  | change (own : s.inProgress = some item) (done : s.fibUpdater.updatesForBatchFaceId = []) (silent : s.outstanding = [])
      (changed : s.change item = .ok t) : Move second fails s t
  | fail (may : fails command.item) (own : s.inProgress = some command.item) (alone : s.outstanding = [command]) :
      Move second fails s ((s.receive command (.error errorFaceNotFound)).conclude command.item false)

abbrev Moves (second : SecondLowest) (fails : UpdateQueueItem → Prop) : RibQueue → RibQueue → Prop := Relation.ReflTransGen (Move second fails)

structure Waiting (s : RibQueue) (item : UpdateQueueItem) (updates : List FibUpdate) : Prop where
  current : s.inProgress = some item
  divided : s.fibUpdater.Divided
  same : (s.outstanding.map FibCommand.update).Perm updates
  own : ∀ command ∈ s.outstanding, command.item = item

inductive Phase (s : RibQueue) : Prop where
  | idle (free : s.inProgress = none) (silent : s.outstanding = [])
  | batch (item : UpdateQueueItem) (waiting : Waiting s item s.fibUpdater.updatesForBatchFaceId)
  | nonBatch (item : UpdateQueueItem) (done : s.fibUpdater.updatesForBatchFaceId = []) (waiting : Waiting s item s.fibUpdater.updatesForNonBatchFaceId)

variable {s t u : RibQueue} {item : UpdateQueueItem} {command : FibCommand} {update : FibUpdate} {updates : List FibUpdate}

theorem Phase.own (phase : Phase s) (pending : command ∈ s.outstanding) : s.inProgress = some command.item := by
  cases phase with
  | idle free silent => rw [silent] at pending; cases pending
  | batch item waiting => rw [waiting.current,waiting.own command pending]
  | nonBatch item done waiting => rw [waiting.current,waiting.own command pending]

theorem Phase.silent (phase : Phase s) (free : s.inProgress = none) : s.outstanding = [] := by
  cases phase with
  | idle _ silent => exact silent
  | batch item waiting => cases free.symm.trans waiting.current
  | nonBatch item done waiting => cases free.symm.trans waiting.current

theorem updates_nodup (distinct : (updates.map FibUpdater.key).Nodup) : updates.Nodup := Nodup.of_map _ distinct

theorem remove_perm (pending : command ∈ s.outstanding) (same : (s.outstanding.map FibCommand.update).Perm updates) (distinct : updates.Nodup) :
    ((s.outstanding.erase command).map FibCommand.update).Perm (updates.filter (· ≠ command.update)) := by
  have split : (s.outstanding.map FibCommand.update).Perm (command.update :: (s.outstanding.erase command).map FibCommand.update) :=
    (perm_cons_erase pending).map FibCommand.update
  have rest := split.symm.trans same
  have alone := (nodup_cons.mp (rest.nodup_iff.mpr distinct)).1
  have filtered := rest.filter (· ≠ command.update)
  rw [filter_cons_of_neg (by simp)] at filtered
  have all : ((s.outstanding.erase command).map FibCommand.update).filter (· ≠ command.update) =
      (s.outstanding.erase command).map FibCommand.update := by
    refine filter_eq_self.mpr (fun other member => decide_eq_true (p := other ≠ command.update) (fun equal => alone ?_))
    rw [← equal]
    exact member
  rw [all] at filtered
  exact filtered

theorem sendAgain_perm (response : FibResponse) (pending : command ∈ s.outstanding) :
    (((s.receive command response).sendAgain command).outstanding.map FibCommand.update).Perm (s.outstanding.map FibCommand.update) := by
  have split := (perm_cons_erase pending).map FibCommand.update
  refine Perm.trans ?_ split.symm
  rw [sendAgain,map_append]
  exact perm_append_singleton ..

theorem take_parts (taken : s.take second item later = .ok u) :
    u.inProgress = some item ∧ u.updateBatches = later ∧ u.fibUpdater.Divided ∧ u.outstanding = s.outstanding ∧ u.calls = s.calls ∧
      u.changes = s.changes ∧ u.erased = s.erased ∧ u.nextId = s.nextId ∧ u.succeeded = s.succeeded ∧
      u.required = s.required ++ u.fibUpdater.updatesForBatchFaceId.map (fun update => (item.id,update)) ∧
      (∃ cancelled, FibUpdater.computeUpdates second s.rib item.update = some (u.fibUpdater,cancelled) ∧
        u.rib = { s.rib with cancelled := s.rib.cancelled ++ cancelled }) := by
  rw [take] at taken
  split at taken
  · cases taken
  · rename_i fibUpdater cancelled computed
    cases taken
    exact ⟨rfl,rfl,(FibUpdater.computeUpdates_divided computed).1,rfl,rfl,rfl,rfl,rfl,rfl,rfl,cancelled,computed,rfl⟩

theorem change_parts (changed : s.change item = .ok t) :
    ∃ middle rib, s.rib.applyUpdate item.update = .ok middle ∧ middle.modifyInheritedRoutes s.fibUpdater.inheritedRoutes = .ok rib ∧
      t = conclude { s with rib := rib, changes := s.changes ++ [item.id], erased := s.erased ++ erasedBy s.rib item } item true := by
  obtain ⟨middle,applied,changed⟩ := bind_parts changed
  obtain ⟨rib,modified,⟨⟩⟩ := bind_parts changed
  exact ⟨middle,rib,applied,modified,rfl⟩

theorem sendUpdates_waiting (current : s.inProgress = some item) (divided : s.fibUpdater.Divided) (silent : s.outstanding = []) :
    Waiting (s.sendUpdates item updates) item updates := by
  refine ⟨current,divided,?_,fun other member => ?_⟩
  · rw [sendUpdates,silent,nil_append,map_map]
    exact .of_eq (map_id _)
  · rw [sendUpdates,silent,nil_append] at member
    obtain ⟨update,_,rfl⟩ := mem_map.mp member
    rfl

theorem launch_phase (current : u.inProgress = some item) (divided : u.fibUpdater.Divided) (silent : u.outstanding = []) : Phase (u.launch item) := by
  rw [launch]
  split
  · exact .batch item (sendUpdates_waiting current divided silent)
  · rename_i empty
    exact .nonBatch item (not_not.mp empty) (sendUpdates_waiting current divided silent)

theorem Phase.of_batch (phase : Phase s) (pending : command ∈ s.outstanding) (face : command.update.faceId = s.fibUpdater.batchFaceId) :
    Waiting s command.item s.fibUpdater.updatesForBatchFaceId := by
  cases phase with
  | idle free silent => rw [silent] at pending; cases pending
  | batch item waiting =>
    rw [waiting.own command pending]
    exact waiting
  | nonBatch item done waiting =>
    have listed := waiting.same.subset (mem_map_of_mem pending)
    exact absurd face (waiting.divided.nonBatch _ listed)

theorem Phase.of_nonBatch (phase : Phase s) (pending : command ∈ s.outstanding) (face : command.update.faceId ≠ s.fibUpdater.batchFaceId) :
    s.fibUpdater.updatesForBatchFaceId = [] ∧ Waiting s command.item s.fibUpdater.updatesForNonBatchFaceId := by
  cases phase with
  | idle free silent => rw [silent] at pending; cases pending
  | batch item waiting =>
    have listed := waiting.same.subset (mem_map_of_mem pending)
    exact absurd (waiting.divided.batch _ listed) face
  | nonBatch item done waiting =>
    rw [waiting.own command pending]
    exact ⟨done,waiting⟩

theorem removeBatch_waiting (pending : command ∈ s.outstanding) (waiting : Waiting s item s.fibUpdater.updatesForBatchFaceId) :
    Waiting ((s.receive command response).removeBatch command.update) item
      ((s.receive command response).removeBatch command.update).fibUpdater.updatesForBatchFaceId := by
  refine ⟨waiting.current,?_,?_,fun other member => waiting.own other (mem_of_mem_erase member)⟩
  · exact { waiting.divided with
      batch := fun other member => waiting.divided.batch other (mem_filter.mp member).1
      batchDistinct := waiting.divided.batchDistinct.sublist (filter_sublist.map _) }
  · exact remove_perm pending waiting.same (updates_nodup waiting.divided.batchDistinct)

theorem removeNonBatch_waiting (pending : command ∈ s.outstanding) (waiting : Waiting s item s.fibUpdater.updatesForNonBatchFaceId) :
    Waiting ((s.receive command response).removeNonBatch command.update) item
      ((s.receive command response).removeNonBatch command.update).fibUpdater.updatesForNonBatchFaceId := by
  refine ⟨waiting.current,?_,?_,fun other member => waiting.own other (mem_of_mem_erase member)⟩
  · exact { waiting.divided with
      nonBatch := fun other member => waiting.divided.nonBatch other (mem_filter.mp member).1
      nonBatchDistinct := waiting.divided.nonBatchDistinct.sublist (filter_sublist.map _) }
  · exact remove_perm pending waiting.same (updates_nodup waiting.divided.nonBatchDistinct)

theorem Move.phase (move : Move second fails s t) (phase : Phase s) : Phase t := by
  cases move with
  | start free front taken =>
    obtain ⟨current,_,divided,same,_⟩ := take_parts taken
    exact launch_phase current divided (same.trans (phase.silent free))
  | remove pending own face => exact .batch _ (removeBatch_waiting pending (phase.of_batch pending face))
  | removeOther pending own face =>
    obtain ⟨done,waiting⟩ := phase.of_nonBatch pending face
    exact .nonBatch _ done (removeNonBatch_waiting pending waiting)
  | proceed own done silent =>
    cases phase with
    | idle free => cases free.symm.trans own
    | batch item waiting =>
      cases own.symm.trans waiting.current
      exact .nonBatch _ done (sendUpdates_waiting own waiting.divided silent)
    | nonBatch item _ waiting =>
      cases own.symm.trans waiting.current
      exact .nonBatch _ done (sendUpdates_waiting own waiting.divided silent)
  | change own done silent changed =>
    obtain ⟨_,rib,_,_,rfl⟩ := change_parts changed
    exact .idle rfl silent
  | fail may own alone =>
    refine .idle rfl ?_
    show List.erase s.outstanding _ = []
    rw [alone]
    exact erase_cons_head ..

theorem sendAgain_phase (phase : Phase s) (pending : command ∈ s.outstanding) : Phase ((s.receive command response).sendAgain command) := by
  have back := sendAgain_perm response pending
  have owned : ∀ item, (∀ other ∈ s.outstanding, other.item = item) →
      ∀ other ∈ ((s.receive command response).sendAgain command).outstanding, other.item = item := by
    intro item own other member
    rcases mem_append.mp member with before | last
    · exact own other (mem_of_mem_erase before)
    · rw [mem_singleton.mp last]
      exact own command pending
  cases phase with
  | idle free silent => rw [silent] at pending; cases pending
  | batch item waiting => exact .batch item { waiting with same := back.trans waiting.same,own := owned item waiting.own }
  | nonBatch item done waiting => exact .nonBatch item done { waiting with same := back.trans waiting.same,own := owned item waiting.own }

theorem sendBatches_moves (queue : List UpdateQueueItem) (same : s.updateBatches = queue) (free : s.inProgress = none) (silent : s.outstanding = [])
    (sent : s.sendBatches second queue = .ok t) : Moves second fails s t := by
  induction queue generalizing s with
  | nil =>
    cases sent
    exact .refl
  | cons item later ih =>
    obtain ⟨u,taken,sent⟩ := bind_parts sent
    have first : Move second fails s (u.launch item) := .start free same taken
    obtain ⟨current,rest,_,quiet,_⟩ := take_parts taken
    split at sent
    · rename_i some
      cases sent
      rw [launch,if_pos some] at first
      exact .single first
    · rename_i none
      rw [launch,if_neg none] at first
      split at sent
      · cases sent
        exact .single first
      · rename_i empty
        rw [not_not.mp empty] at first
        have unsent : u.sendUpdates item [] = u := by
          rw [sendUpdates,map_nil,append_nil]
        rw [unsent] at first
        obtain ⟨v,changed,sent⟩ := bind_parts sent
        have move : Move second fails u v := .change current (not_not.mp none) (quiet.trans silent) changed
        obtain ⟨_,rib,_,_,made⟩ := change_parts changed
        have after : v.updateBatches = later ∧ v.inProgress = Option.none ∧ v.outstanding = [] := by
          rw [made]
          exact ⟨rest,rfl,quiet.trans silent⟩
        exact (Relation.ReflTransGen.single first).trans (.head move (ih after.1 after.2.1 after.2.2 sent))

theorem sendBatchFromQueue_moves (phase : Phase s) (sent : s.sendBatchFromQueue second = .ok t) : Moves second fails s t := by
  rw [sendBatchFromQueue] at sent
  split at sent
  · cases sent
    exact .refl
  · rename_i free
    have free : s.inProgress = none := by simpa using free
    exact sendBatches_moves s.updateBatches rfl free (phase.silent free) sent

theorem onFibUpdateSuccess_moves (phase : Phase s) (own : s.inProgress = some item) (done : s.fibUpdater.updatesForBatchFaceId = [])
    (silent : s.outstanding = []) (success : s.onFibUpdateSuccess second item = .ok t) : Moves second fails s t := by
  obtain ⟨u,changed,sent⟩ := bind_parts success
  have move : Move second fails s u := .change own done silent changed
  exact .head move (sendBatchFromQueue_moves (move.phase phase) sent)

theorem Waiting.silent (waiting : Waiting s item updates) (empty : updates = []) : s.outstanding = [] := by
  rw [empty] at waiting
  exact map_eq_nil_iff.mp waiting.same.eq_nil

theorem doneNonBatch_moves (phase : Phase s) (pending : command ∈ s.outstanding) (face : command.update.faceId ≠ s.fibUpdater.batchFaceId)
    (done : (s.receive command response).doneNonBatch second command = .ok t) : Moves second fails s t := by
  have own := phase.own pending
  have move : Move second fails s ((s.receive command response).removeNonBatch command.update) := .removeOther pending own face
  obtain ⟨sent,waiting⟩ := phase.of_nonBatch pending face
  rw [doneNonBatch] at done
  split at done
  · rename_i empty
    exact .head move (onFibUpdateSuccess_moves (move.phase phase) own sent ((removeNonBatch_waiting pending waiting).silent empty) done)
  · cases done
    exact .single move

theorem onUpdateSuccess_moves (phase : Phase s) (pending : command ∈ s.outstanding)
    (done : (s.receive command .success).onUpdateSuccess second command = .ok t) : Moves second fails s t := by
  have own := phase.own pending
  rw [onUpdateSuccess] at done
  split at done
  · rename_i face
    have move : Move second fails s ((s.receive command .success).removeBatch command.update) := .remove pending own face
    dsimp only at done
    split at done
    · rename_i empty
      have silent := (removeBatch_waiting pending (phase.of_batch pending face)).silent empty
      rw [sendUpdatesForNonBatchFaceId] at done
      split at done
      · cases done
        exact .head move (.single (.proceed own empty silent))
      · exact .head move (onFibUpdateSuccess_moves (move.phase phase) own empty silent done)
    · cases done
      exact .single move
  · rename_i face
    exact doneNonBatch_moves phase pending face done

theorem Waiting.alone (waiting : Waiting s command.item updates) (distinct : updates.Nodup) (pending : command ∈ s.outstanding)
    (last : ∀ other ∈ s.outstanding, other.item.id = command.item.id → other = command) : s.outstanding = [command] := by
  have all := eq_replicate_of_mem (fun other member => last other member (congrArg UpdateQueueItem.id (waiting.own other member)))
  have nodup : s.outstanding.Nodup := Nodup.of_map _ (waiting.same.nodup_iff.mpr distinct)
  rw [all] at nodup
  have most := nodup_replicate.mp nodup
  have least := length_pos_of_mem pending
  rw [all,Nat.le_antisymm most least]
  rfl

theorem onUpdateError_moves (fails : UpdateQueueItem → Prop) (phase : Phase s) (pending : command ∈ s.outstanding) (last : s.Last (.respond command (.error code)))
    (may : code = errorFaceNotFound → command.update.faceId = s.fibUpdater.batchFaceId → fails command.item)
    (done : (s.receive command (.error code)).onUpdateError second command code = .ok t) :
    code = errorTimeout ∧ t = (s.receive command (.error code)).sendAgain command ∨ Moves second fails s t := by
  have own := phase.own pending
  rw [onUpdateError] at done
  split at done
  · rename_i timeout
    cases done
    exact .inl ⟨timeout.1,rfl⟩
  · refine .inr ?_
    split at done
    · rename_i code410
      split at done
      · rename_i face
        rw [code410] at done last
        have alone := (phase.of_batch pending face).alone (updates_nodup (phase.of_batch pending face).divided.batchDistinct) pending (last rfl face)
        have move : Move second fails s ((s.receive command (.error errorFaceNotFound)).conclude command.item false) := .fail (may code410 face) own alone
        exact .head move (sendBatchFromQueue_moves (move.phase phase) done)
      · rename_i face
        exact doneNonBatch_moves phase pending face done
    · cases done

def pending (s : RibQueue) : List UpdateQueueItem := s.inProgress.toList ++ s.updateBatches

structure Numbered (s : RibQueue) : Prop where
  ascending : s.pending.Pairwise (fun a b => a.id < b.id)
  bounded : ∀ item ∈ s.pending, item.id < s.nextId
  called : ∀ id ∈ s.calls.map Prod.fst, id < s.nextId ∧ ∀ item ∈ s.pending, id < item.id
  changed : ∀ id ∈ s.changes, id < s.nextId ∧ ∀ item ∈ s.pending, id < item.id
  asked : ∀ p ∈ s.required, p.1 < s.nextId ∧ ∀ item ∈ s.updateBatches, p.1 < item.id
  once : (s.calls.map Prod.fst).Nodup

theorem Numbered.congr (numbered : Numbered s) (same : (t.inProgress,t.updateBatches,t.nextId,t.calls,t.changes,t.required) =
    (s.inProgress,s.updateBatches,s.nextId,s.calls,s.changes,s.required)) : Numbered t := by
  simp only [Prod.mk.injEq] at same
  obtain ⟨current,queue,next,calls,changes,required⟩ := same
  have waiting : t.pending = s.pending := by rw [pending,pending,current,queue]
  obtain ⟨ascending,bounded,called,changed,asked,once⟩ := numbered
  rw [← waiting,← next] at bounded
  rw [← waiting,← next,← calls] at called
  rw [← waiting,← next,← changes] at changed
  rw [← next,← queue,← required] at asked
  rw [← waiting] at ascending
  rw [← calls] at once
  exact ⟨ascending,bounded,called,changed,asked,once⟩

theorem conclude_numbered (success : Bool) (numbered : Numbered s) (own : s.inProgress = some item) : Numbered (s.conclude item success) := by
  have waiting : s.pending = item :: s.updateBatches := by rw [pending,own]; rfl
  obtain ⟨ascending,bounded,called,changed,asked,once⟩ := numbered
  rw [waiting] at ascending bounded called changed
  obtain ⟨first,rest⟩ := pairwise_cons.mp ascending
  have beyond : ∀ id, id ∈ (s.conclude item success).calls.map Prod.fst → id ∈ s.calls.map Prod.fst ∨ id = item.id := by
    intro id member
    rw [conclude,map_append] at member
    rcases mem_append.mp member with before | last
    · exact .inl before
    · split at last
      · exact .inr (mem_singleton.mp last)
      · cases last
  refine ⟨rest,fun other member => bounded other (mem_cons_of_mem _ member),fun id member => ?_,
    fun id member => ⟨(changed id member).1,fun other behind => (changed id member).2 other (mem_cons_of_mem _ behind)⟩,asked,?_⟩
  · rcases beyond id member with before | rfl
    · exact ⟨(called id before).1,fun other behind => (called id before).2 other (mem_cons_of_mem _ behind)⟩
    · exact ⟨bounded item (mem_cons_self ..),first⟩
  · rw [conclude,map_append]
    split
    · refine (perm_append_singleton ..).nodup_iff.mpr (nodup_cons.mpr ⟨fun member => ?_,once⟩)
      exact Nat.lt_irrefl _ ((called item.id member).2 item (mem_cons_self ..))
    · rw [map_nil,append_nil]
      exact once

theorem Move.numbered (move : Move second fails s t) (numbered : Numbered s) : Numbered t := by
  cases move with
  | remove pending own face => exact numbered.congr rfl
  | removeOther pending own face => exact numbered.congr rfl
  | proceed own done silent => exact numbered.congr rfl
  | fail may own alone => exact conclude_numbered false (numbered.congr (t := s.receive _ _) rfl) own
  | change own done silent changed =>
    rename_i item
    obtain ⟨_,rib,_,_,rfl⟩ := change_parts changed
    have waiting : s.pending = item :: s.updateBatches := by rw [RibQueue.pending,own]; rfl
    have beyond := conclude_numbered true numbered own
    refine { beyond with changed := fun id member => ?_ }
    rcases mem_append.mp member with before | last
    · exact beyond.changed id before
    · have ascending := numbered.ascending
      rw [waiting] at ascending
      rw [mem_singleton.mp last]
      exact ⟨numbered.bounded item (waiting ▸ mem_cons_self ..),(pairwise_cons.mp ascending).1⟩
  | start free front taken =>
    rename_i item u later
    obtain ⟨current,queue,_,_,calls,changes,_,next,_,required,_⟩ := take_parts taken
    have front' : s.pending = item :: later := by rw [RibQueue.pending,free,front]; rfl
    have waiting : (u.launch item).pending = item :: later := by rw [RibQueue.pending,launch,sendUpdates,current,queue]; rfl
    obtain ⟨ascending,bounded,called,changed,asked,once⟩ := numbered
    rw [front'] at ascending bounded called changed
    rw [front] at asked
    have same : (u.launch item).nextId = s.nextId ∧ (u.launch item).calls = s.calls ∧ (u.launch item).changes = s.changes ∧
        (u.launch item).updateBatches = later ∧
        (u.launch item).required = s.required ++ u.fibUpdater.updatesForBatchFaceId.map (fun update => (item.id,update)) :=
      ⟨next,calls,changes,queue,required⟩
    obtain ⟨next,calls,changes,queue,required⟩ := same
    refine ⟨by rw [waiting]; exact ascending,by rw [waiting,next]; exact bounded,by rw [waiting,next,calls]; exact called,
      by rw [waiting,next,changes]; exact changed,fun p member => ?_,by rw [calls]; exact once⟩
    rw [next,queue]
    rw [required] at member
    rcases mem_append.mp member with before | new
    · exact ⟨(asked p before).1,fun other behind => (asked p before).2 other (mem_cons_of_mem _ behind)⟩
    · obtain ⟨update,_,rfl⟩ := mem_map.mp new
      exact ⟨bounded item (mem_cons_self ..),(pairwise_cons.mp ascending).1⟩

theorem addUpdateToQueue_numbered (numbered : Numbered s) (entry : RibUpdate × Bool) : Numbered (s.addUpdateToQueue entry) := by
  have waiting : (s.addUpdateToQueue entry).pending = s.pending ++ [⟨s.nextId,entry.1,entry.2⟩] := (append_assoc ..).symm
  obtain ⟨ascending,bounded,called,changed,asked,once⟩ := numbered
  have behind : ∀ (P : Nat → Prop), P s.nextId → (∀ item ∈ s.pending, P item.id) → ∀ item ∈ (s.addUpdateToQueue entry).pending, P item.id := by
    intro P last before item member
    rw [waiting] at member
    rcases mem_append.mp member with old | new
    · exact before item old
    · rw [mem_singleton.mp new]
      exact last
  refine ⟨?_,behind (· < s.nextId + 1) (Nat.lt_succ_self _) (fun item member => Nat.lt_succ_of_lt (bounded item member)),
    fun id member => ⟨Nat.lt_succ_of_lt (called id member).1,behind (id < ·) (called id member).1 (called id member).2⟩,
    fun id member => ⟨Nat.lt_succ_of_lt (changed id member).1,behind (id < ·) (changed id member).1 (changed id member).2⟩,
    fun p member => ⟨Nat.lt_succ_of_lt (asked p member).1,fun item queued => ?_⟩,once⟩
  · rw [waiting]
    refine pairwise_append.mpr ⟨ascending,pairwise_singleton ..,fun item member last new => ?_⟩
    rw [mem_singleton.mp new]
    exact bounded item member
  · rcases mem_append.mp queued with old | new
    · exact (asked p member).2 item old
    · rw [mem_singleton.mp new]
      exact (asked p member).1

structure Earned (s : RibQueue) : Prop where
  earned : ∀ id ∈ s.changes, ∀ update, (id,update) ∈ s.required → (id,update) ∈ s.succeeded
  underway : ∀ item, s.inProgress = some item → ∀ update, (item.id,update) ∈ s.required →
    update ∈ s.fibUpdater.updatesForBatchFaceId ∨ (item.id,update) ∈ s.succeeded
  faithful : ∀ command ∈ s.outstanding, command.update.faceId = s.fibUpdater.batchFaceId → command.sent = command.update.action

theorem receive_succeeded (member : p ∈ s.succeeded) : p ∈ (s.receive command response).succeeded := by
  rw [receive]
  split
  · exact mem_append_left _ member
  · exact member

theorem sendUpdates_faithful (silent : s.outstanding = []) : ∀ command ∈ (s.sendUpdates item updates).outstanding, command.sent = command.update.action := by
  intro command member
  rw [sendUpdates,silent,nil_append] at member
  obtain ⟨update,_,rfl⟩ := mem_map.mp member
  rfl

theorem Move.earned (move : Move second fails s t) (phase : Phase s) (numbered : Numbered s) (earned : Earned s) : Earned t := by
  cases move with
  | remove pending own face =>
    rename_i command
    have faithful := earned.faithful command pending face
    have recorded : (s.receive command .success).succeeded = s.succeeded ++ [(command.item.id,command.update)] := if_pos ⟨rfl,faithful⟩
    refine ⟨fun id member update asked => receive_succeeded (earned.earned id member update asked),fun item current update asked => ?_,
      fun other member => earned.faithful other (mem_of_mem_erase member)⟩
    cases own.symm.trans current
    by_cases same : update = command.update
    · refine .inr ?_
      show _ ∈ (s.receive command .success).succeeded
      rw [recorded,same]
      exact mem_append_right _ (mem_singleton.mpr rfl)
    · rcases earned.underway _ current update asked with listed | done
      · exact .inl (mem_filter.mpr ⟨listed,decide_eq_true same⟩)
      · exact .inr (receive_succeeded done)
  | removeOther pending own face =>
    refine ⟨fun id member update asked => receive_succeeded (earned.earned id member update asked),fun item current update asked => ?_,
      fun other member => earned.faithful other (mem_of_mem_erase member)⟩
    rcases earned.underway item current update asked with listed | done
    · exact .inl listed
    · exact .inr (receive_succeeded done)
  | proceed own done silent =>
    exact { earned with faithful := fun other member _ => sendUpdates_faithful silent other member }
  | fail may own alone =>
    rename_i command
    refine ⟨fun id member update asked => ?_,nofun,
      fun other member => earned.faithful other (mem_of_mem_erase member)⟩
    have before := earned.earned id member update asked
    have after : (id,update) ∈ (s.receive command (.error errorFaceNotFound)).succeeded := receive_succeeded before
    exact after
  | change own done silent changed =>
    rename_i item
    obtain ⟨_,rib,_,_,rfl⟩ := change_parts changed
    refine ⟨fun id member update asked => ?_,nofun,earned.faithful⟩
    rcases mem_append.mp member with before | last
    · exact earned.earned id before update asked
    · rw [mem_singleton.mp last] at asked ⊢
      rcases earned.underway item own update asked with listed | success
      · rw [done] at listed
        cases listed
      · exact success
  | start free front taken =>
    rename_i item u later
    obtain ⟨current,_,_,quiet,_,changes,_,_,succeeded,required,_⟩ := take_parts taken
    have asked : ∀ p, p ∈ (u.launch item).required → p ∈ s.required ∨ p.1 = item.id ∧ p.2 ∈ u.fibUpdater.updatesForBatchFaceId := by
      intro p member
      have member : p ∈ u.required := member
      rw [required] at member
      rcases mem_append.mp member with before | new
      · exact .inl before
      · obtain ⟨update,listed,rfl⟩ := mem_map.mp new
        exact .inr ⟨rfl,listed⟩
    have first : item ∈ s.pending := by
      rw [RibQueue.pending,free,front]
      exact mem_cons_self ..
    refine ⟨fun id member update wanted => ?_,fun other now update wanted => ?_,
      fun other member _ => sendUpdates_faithful (quiet.trans (phase.silent free)) other member⟩
    · have member : id ∈ u.changes := member
      rw [changes] at member
      show _ ∈ u.succeeded
      rw [succeeded]
      rcases asked _ wanted with before | ⟨same,_⟩
      · exact earned.earned id member update before
      · have less := (numbered.changed id member).2 item first
        exact absurd same (Nat.ne_of_lt less)
    · cases current.symm.trans now
      rcases asked _ wanted with before | ⟨_,listed⟩
      · have less := (numbered.asked _ before).2 item (front ▸ mem_cons_self ..)
        exact absurd less (Nat.lt_irrefl _)
      · exact .inl listed

structure Sound (s : RibQueue) : Prop where
  phase : Phase s
  numbered : Numbered s
  earned : Earned s

theorem Moves.sound (moves : Moves second fails s t) (sound : Sound s) : Sound t := by
  induction moves with
  | refl => exact sound
  | tail _ move ih => exact ⟨move.phase ih.phase,move.numbered ih.numbered,move.earned ih.phase ih.numbered ih.earned⟩

theorem addUpdateToQueue_phase (phase : Phase s) (entry : RibUpdate × Bool) : Phase (s.addUpdateToQueue entry) := by
  cases phase with
  | idle free silent => exact .idle free silent
  | batch item waiting => exact .batch item { waiting with }
  | nonBatch item done waiting => exact .nonBatch item done { waiting with }

theorem addUpdatesToQueue_sound (sound : Sound s) (entries : List (RibUpdate × Bool)) : Sound (entries.foldl addUpdateToQueue s) := by
  induction entries generalizing s with
  | nil => exact sound
  | cons entry later ih =>
    exact ih ⟨addUpdateToQueue_phase sound.phase entry,addUpdateToQueue_numbered sound.numbered entry,
      { sound.earned with }⟩

theorem sendAgain_sound (sound : Sound s) (pending : command ∈ s.outstanding)
    (kept : command.update.faceId = s.fibUpdater.batchFaceId → command.update.action = .addNextHop) :
    Sound ((s.receive command response).sendAgain command) := by
  refine ⟨sendAgain_phase sound.phase pending,sound.numbered.congr rfl,?_⟩
  refine ⟨fun id member update asked => receive_succeeded (sound.earned.earned id member update asked),fun item current update asked => ?_,
    fun other member face => ?_⟩
  · exact (sound.earned.underway item current update asked).imp_right receive_succeeded
  · rcases mem_append.mp member with before | last
    · exact sound.earned.faithful other (mem_of_mem_erase before) face
    · rw [mem_singleton.mp last] at face ⊢
      exact (kept face).symm

theorem step_sound (sound : Sound s) (last : s.Last event) (kept : s.Kept event) (taken : s.step second event = some t) : Sound t := by
  obtain ⟨enabled,done⟩ := Option.ite_none_right_eq_some.mp taken
  have attempted := toOption_parts done
  cases event with
  | apply entries =>
    have queued := addUpdatesToQueue_sound sound entries
    have moves : Moves second (fun _ => True) (entries.foldl addUpdateToQueue s) t := sendBatchFromQueue_moves queued.phase attempted
    exact moves.sound queued
  | respond command response =>
    cases response with
    | success =>
      have moves : Moves second (fun _ => True) s t := onUpdateSuccess_moves sound.phase enabled attempted
      exact moves.sound sound
    | error code =>
      rcases onUpdateError_moves (fun _ => True) sound.phase enabled last (fun _ _ => True.intro) attempted with ⟨timeout,rfl⟩ | moves
      · exact sendAgain_sound sound enabled (kept (by rw [timeout]))
      · exact moves.sound sound

theorem initial_sound : Sound initial := by
  refine ⟨.idle rfl rfl,⟨Pairwise.nil,?_,?_,?_,?_,nodup_nil⟩,⟨?_,?_,?_⟩⟩
  all_goals exact nofun

-- While a face that is not found is reported by the last command of its batch and
-- the removal of a nexthop of its face does not time out, batches are atomic.
theorem orderly_atomic (second : SecondLowest) (path : Guarded (step second) (· = initial) Orderly s) : Atomic s := by
  have sound : Sound s := by
    refine path.invariant ?_ ?_
    · rintro s rfl
      exact initial_sound
    · intro s event t _ sound orderly taken
      exact step_sound sound orderly.1 orderly.2 taken
  exact ⟨sound.numbered.once,sound.earned.earned,fun command pending => sound.phase.own pending⟩

def innerName : Name := [⟨8,[97]⟩,⟨8,[98]⟩]

def outerName : Name := [⟨8,[97]⟩]

def innerItem : UpdateQueueItem := ⟨0,⟨.register,innerName,⟨2,0,10,0,none,none⟩⟩,true⟩

def outerItem : UpdateQueueItem := ⟨1,⟨.register,outerName,⟨1,0,20,1,none,none⟩⟩,true⟩

def innerGone : UpdateQueueItem := ⟨1,⟨.unregister,innerName,⟨2,0,10,0,none,none⟩⟩,true⟩

def registered : List RibEvent := [.apply [(innerItem.update,true)],.respond ⟨innerItem,.createAddUpdate innerName 2 10,.addNextHop,0⟩ .success]

theorem orderly_atomic_inherited : ∃ s, Guarded (step .stable) (· = initial) Orderly s ∧ s.changes = [0,1] ∧ Atomic s := by
  obtain ⟨s,taken,both⟩ : ∃ s ∈ run (checked (step .stable) Orderly) initial (registered ++ [.apply [(outerItem.update,true)],
      .respond ⟨outerItem,.createAddUpdate outerName 1 20,.addNextHop,0⟩ (.error errorTimeout),
      .respond ⟨outerItem,.createAddUpdate innerName 1 20,.addNextHop,0⟩ .success,
      .respond ⟨outerItem,.createAddUpdate outerName 1 20,.addNextHop,1⟩ .success]), s.changes = [0,1] := by decide
  have path : Guarded (step .stable) (· = initial) Orderly s := checked_guarded (.start rfl) taken
  exact ⟨s,path,both,orderly_atomic .stable path⟩

-- Both commands of a batch report that its face is not found, and its manager is
-- told twice; the removal of a nexthop times out, it is added instead, and the
-- route is erased.
theorem crossed_batches :
    (∃ s, Reached (step .stable) (· = initial) s ∧ s.calls = [(0,true),(1,false),(1,false)] ∧ ¬Atomic s) ∧
    ∃ s, Reached (step .stable) (· = initial) s ∧ s.changes = [0,1] ∧ (1,.createRemoveUpdate innerName 2) ∉ s.succeeded ∧ ¬Atomic s := by
  obtain ⟨s,takenS,calls⟩ : ∃ s ∈ run (step .stable) initial (registered ++ [.apply [(outerItem.update,true)],
      .respond ⟨outerItem,.createAddUpdate outerName 1 20,.addNextHop,0⟩ (.error errorFaceNotFound),
      .respond ⟨outerItem,.createAddUpdate innerName 1 20,.addNextHop,0⟩ (.error errorFaceNotFound)]),
    s.calls = [(0,true),(1,false),(1,false)] := by decide
  obtain ⟨t,takenT,changes,missing,changed,required⟩ : ∃ t ∈ run (step .stable) initial (registered ++ [.apply [(innerGone.update,true)],
      .respond ⟨innerGone,.createRemoveUpdate innerName 2,.removeNextHop,0⟩ (.error errorTimeout),
      .respond ⟨innerGone,.createRemoveUpdate innerName 2,.addNextHop,1⟩ .success]),
    t.changes = [0,1] ∧ (1,.createRemoveUpdate innerName 2) ∉ t.succeeded ∧ 1 ∈ t.changes ∧ (1,.createRemoveUpdate innerName 2) ∈ t.required := by decide
  refine ⟨⟨s,run_reached (.start rfl) takenS,calls,fun atomic => ?_⟩,
    ⟨t,run_reached (.start rfl) takenT,changes,missing,fun atomic => missing (atomic.earned 1 changed _ required)⟩⟩
  have once := atomic.once
  rw [calls] at once
  exact absurd once (by decide)

end RibQueue

end ReflexiveNfd

import ReflexiveNfd.Lib.Actions
import ReflexiveNfd.Forwarder

namespace ReflexiveNfd
open List Function
variable {s t : State} {e e' : Entry} {id : EntryId}

-- What identifies an in-record and what it says about its downstream; strategy
-- information is left out.
def InRecord.facts (r : InRecord) : Face × Nonce × Int × Int × ObjId :=
  (r.face,r.lastNonce,r.lastRenewed,r.expiry,r.interest)

-- The entry after pipelines that may only lose in-records, or change out-records
-- and bookkeeping.
structure Trimmed (e e' : Entry) : Prop where
  id : e'.id = e.id
  interest : e'.interest = e.interest
  name : e'.name = e.name
  canBePrefix : e'.canBePrefix = e.canBePrefix
  mustBeFresh : e'.mustBeFresh = e.mustBeFresh
  forwardingHint : e'.forwardingHint = e.forwardingHint
  downstreams : (e'.inRecords.map InRecord.facts).Sublist (e.inRecords.map InRecord.facts)

namespace Trimmed

theorem refl (e : Entry) : Trimmed e e := ⟨rfl,rfl,rfl,rfl,rfl,rfl,Sublist.refl _⟩

theorem trans (one : Trimmed a b) (two : Trimmed b c) : Trimmed a c :=
  ⟨two.id.trans one.id,two.interest.trans one.interest,two.name.trans one.name,two.canBePrefix.trans one.canBePrefix,
    two.mustBeFresh.trans one.mustBeFresh,two.forwardingHint.trans one.forwardingHint,two.downstreams.trans one.downstreams⟩

theorem inRecord (trimmed : Trimmed e e') (present : r ∈ e'.inRecords) : ∃ old ∈ e.inRecords, old.facts = r.facts := by
  have listed := trimmed.downstreams.subset (mem_map_of_mem present)
  obtain ⟨old,inside,equal⟩ := mem_map.mp listed
  exact ⟨old,inside,equal⟩

theorem distinct (trimmed : Trimmed e e') (before : Keyed.Distinct InRecord.face e.inRecords) :
    Keyed.Distinct InRecord.face e'.inRecords := by
  have faces : ∀ x : Entry, x.inRecords.map InRecord.face = (x.inRecords.map InRecord.facts).map Prod.fst := by
    intro x; simp [InRecord.facts,comp_def]
  unfold Keyed.Distinct at before ⊢
  rw [faces] at before ⊢
  exact Nodup.sublist (trimmed.downstreams.map Prod.fst) before

theorem deleteInRecord : Trimmed e (e.deleteInRecord face) :=
  ⟨rfl,rfl,rfl,rfl,rfl,rfl,(eraseP_sublist).map _⟩

theorem clearInRecords : Trimmed e e.clearInRecords :=
  ⟨rfl,rfl,rfl,rfl,rfl,rfl,by simp [Entry.clearInRecords]⟩

theorem updateInRecord (same : ∀ r, (f r).facts = r.facts) : Trimmed e (e.updateInRecord face f) :=
  ⟨rfl,rfl,rfl,rfl,rfl,rfl,by rw [Entry.updateInRecord,Keyed.modifyFirst_map same]⟩

theorem of_core (same : (e'.id,e'.interest,e'.name,e'.canBePrefix,e'.mustBeFresh,e'.forwardingHint,e'.inRecords) =
    (e.id,e.interest,e.name,e.canBePrefix,e.mustBeFresh,e.forwardingHint,e.inRecords)) : Trimmed e e' := by
  simp only [Prod.mk.injEq] at same
  obtain ⟨id,interest,name,canBePrefix,mustBeFresh,forwardingHint,inRecords⟩ := same
  exact ⟨id,interest,name,canBePrefix,mustBeFresh,forwardingHint,by rw [inRecords]⟩

end Trimmed

namespace Pit
variable {pit : Pit} {interest : Interest}

theorem get_map (same : ∀ e, (f e).id = e.id) : Pit.get (pit.map f) id = (pit.get id).map f := by
  have ids : (fun e => decide (e.id = id)) ∘ f = fun e => decide (e.id = id) := funext fun e => by simp [same]
  rw [get,get,List.find?_map,ids]

theorem pitEntries_map (names : ∀ e, (f e).name = e.name) : pitEntries (pit.map f) nte = (pitEntries pit nte).map f := by
  have same : ∀ e, (f e).nte = e.nte := fun e => by simp [Entry.nte,names]
  simp [pitEntries,filter_map,comp_def,same]

theorem find_map (names : ∀ e, (f e).name = e.name)
    (selectors : ∀ e, (f e).canBePrefix = e.canBePrefix ∧ (f e).mustBeFresh = e.mustBeFresh) :
    Pit.find (pit.map f) interest = (pit.find interest).map f := by
  have same : (fun e => e.canMatch interest (nteDepth interest.name)) ∘ f = fun e => e.canMatch interest (nteDepth interest.name) :=
    funext fun e => by simp [Entry.canMatch,names e,selectors e]
  rw [find,find,pitEntries_map names,List.find?_map,same]

theorem modify_get (same : ∀ e, (f e).id = e.id) :
    Pit.get (pit.modify id f) other = (pit.get other).map (fun e => if e.id = id then f e else e) :=
  get_map (fun e => by split <;> simp [same])

theorem get_id (found : Pit.get pit id = some e) : e ∈ pit ∧ e.id = id :=
  ⟨mem_of_find?_eq_some found,by simpa using List.find?_some found⟩

end Pit

def Rewritten (i i' : Interest) : Prop :=
  i' = { i with hopLimit := i'.hopLimit, pitToken := i'.pitToken, nonDiscovery := i'.nonDiscovery }

namespace Rewritten

theorem refl (i : Interest) : Rewritten i i := rfl

theorem trans (one : Rewritten a b) (two : Rewritten b c) : Rewritten a c := by
  unfold Rewritten at *
  rw [two,one]

theorem name (same : Rewritten i i') : i'.name = i.name := by rw [show i' = _ from same]
end Rewritten

-- What every part of a pipeline except the handling of a new arrival and the
-- end of an entry does to tables and objects.
structure Quiet (s t : State) : Prop where
  pitAssist : t.pitAssist = s.pitAssist
  nextEntry : t.nextEntry = s.nextEntry
  grown : s.interests.length ≤ t.interests.length
  heap : ∀ object < s.interests.length, Rewritten (s.interest object) (t.interest object)
  entries : ∃ f, t.pit = s.pit.map f ∧ ∀ e, Trimmed e (f e)

def State.settings (s : State) : State :=
  { s with deadNonceList := .new 0, cs := .empty 0, interests := [], pit := [], scheduler := .empty, announcing := [], sent := [] }

structure Frame (s t : State) : Prop extends Quiet s t where
  settings : t.settings = s.settings
  sent : s.sent <+: t.sent

namespace Quiet

theorem refl (s : State) : Quiet s s := ⟨rfl,rfl,Nat.le_refl _,fun _ _ => .refl _,id,by simp,fun e => .refl e⟩

theorem trans (one : Quiet s t) (two : Quiet t u) : Quiet s u := by
  obtain ⟨f,mapped,trimmed⟩ := one.entries
  obtain ⟨g,remapped,retrimmed⟩ := two.entries
  refine ⟨two.pitAssist.trans one.pitAssist,two.nextEntry.trans one.nextEntry,one.grown.trans two.grown,?_,g ∘ f,?_,?_⟩
  · intro object bound
    exact (one.heap object bound).trans (two.heap object (Nat.lt_of_lt_of_le bound one.grown))
  · rw [remapped,mapped,map_map]
  · intro e
    exact (trimmed e).trans (retrimmed (f e))

section
variable (quiet : Quiet s t)
include quiet

theorem get (found : s.pit.get id = some e) : ∃ e', t.pit.get id = some e' ∧ Trimmed e e' := by
  obtain ⟨f,mapped,trimmed⟩ := quiet.entries
  refine ⟨f e,?_,trimmed e⟩
  rw [mapped,Pit.get_map (fun e => (trimmed e).id),found,Option.map_some]

theorem entry : Trimmed (s.entry id) (t.entry id) := by
  obtain ⟨f,mapped,trimmed⟩ := quiet.entries
  unfold State.entry
  rw [mapped,Pit.get_map (fun e => (trimmed e).id)]
  cases s.pit.get id with
  | none => exact .refl _
  | some e => exact trimmed e

theorem origin (present : e' ∈ t.pit) : ∃ e ∈ s.pit, Trimmed e e' := by
  obtain ⟨f,mapped,trimmed⟩ := quiet.entries
  rw [mapped] at present
  obtain ⟨e,inside,rfl⟩ := mem_map.mp present
  exact ⟨e,inside,trimmed e⟩

theorem survives (present : e ∈ s.pit) : ∃ e' ∈ t.pit, Trimmed e e' := by
  obtain ⟨f,mapped,trimmed⟩ := quiet.entries
  exact ⟨f e,by rw [mapped]; exact mem_map_of_mem present,trimmed e⟩

theorem ids : t.pit.map Entry.id = s.pit.map Entry.id := by
  obtain ⟨f,mapped,trimmed⟩ := quiet.entries
  simp [mapped,comp_def,(trimmed _).id]

end

end Quiet

namespace State

theorem interest_allocate (bound : object < s.interests.length) : (s.allocate i).interest object = s.interest object := by
  simp [interest,allocate,getD_eq_getElem?_getD,List.getElem?_append_left bound]

@[simp] theorem interest_allocated : (s.allocate i).interest s.interests.length = i := by
  simp [interest,allocate,getD_eq_getElem?_getD]

@[simp] theorem allocate_length : (s.allocate i).interests.length = s.interests.length + 1 := by
  simp [allocate]

@[simp] theorem modifyInterest_length : (s.modifyInterest object f).interests.length = s.interests.length := by
  simp [modifyInterest]

theorem entry_of_get (found : s.pit.get id = some e) : s.entry id = e := by rw [entry,found,Option.getD_some]

theorem get_modifyEntry (same : ∀ e, (f e).id = e.id) (found : s.pit.get id = some e) :
    (s.modifyEntry id f).pit.get id = some (f e) := by
  unfold modifyEntry
  rw [Pit.modify_get same,found]
  simp [(Pit.get_id found).2]

theorem interest_modify (bound : o < s.interests.length) :
    (s.modifyInterest object f).interest o = if o = object then f (s.interest o) else s.interest o := by
  by_cases equal : o = object
  · subst equal
    simp [interest,modifyInterest,getD_eq_getElem?_getD,bound]
  · simp [interest,modifyInterest,getD_eq_getElem?_getD,equal,Ne.symm equal]

end State

structure Outgoing (R : State → State → Prop) : Prop where
  refl : ∀ s, R s s
  trans : ∀ {s t u}, R s t → R t u → R s u
  setTag : ∀ {s : State} {object pitToken}, R s (s.setTag object pitToken)
  allocate : ∀ {s : State} {i}, R s (s.allocate i)
  record : ∀ {s : State} {id egress object}, R s (s.insertOrUpdateOutRecord id egress object)
  emit : ∀ {s : State} {effect}, R s (s.emit effect)

namespace Outgoing
variable (outgoing : Outgoing R)
include outgoing

theorem transmit : R s (transmit s object egress id).1 := outgoing.trans outgoing.record outgoing.emit

theorem onOutgoingInterest : R s (onOutgoingInterest env s object egress id).1 := by
  unfold ReflexiveNfd.onOutgoingInterest
  dsimp only
  split
  · exact outgoing.refl s
  · split
    · split
      · exact outgoing.setTag
      · exact outgoing.trans outgoing.setTag outgoing.transmit
    · split
      · exact outgoing.trans outgoing.setTag outgoing.transmit
      · exact outgoing.transmit

theorem sendInterest : R s (sendInterest env s object egress id).1 := by
  unfold ReflexiveNfd.sendInterest
  split
  · exact outgoing.trans outgoing.allocate outgoing.onOutgoingInterest
  · exact outgoing.onOutgoingInterest

theorem onOutgoingData : R s (onOutgoingData s data egress) := by
  unfold ReflexiveNfd.onOutgoingData
  split
  · exact outgoing.refl s
  · split
    · exact outgoing.refl s
    · exact outgoing.emit

theorem onOutgoingNack (deleted : R s (s.deleteInRecord id egress)) : R s (onOutgoingNack s reason egress id) := by
  unfold ReflexiveNfd.onOutgoingNack
  split
  · exact outgoing.refl s
  · split
    · exact outgoing.refl s
    · split
      · exact outgoing.refl s
      · exact outgoing.trans deleted outgoing.emit

theorem sendData (deleted : R s (s.deleteInRecord id egress)) : R s (sendData s data egress id) := by
  unfold ReflexiveNfd.sendData
  split <;> exact outgoing.trans deleted outgoing.onOutgoingData

end Outgoing

namespace Frame

theorem refl (s : State) : Frame s s := ⟨.refl s,rfl,prefix_rfl⟩

theorem trans (one : Frame s t) (two : Frame t u) : Frame s u :=
  ⟨one.toQuiet.trans two.toQuiet,two.settings.trans one.settings,one.sent.trans two.sent⟩

section
variable (frame : Frame s t)
include frame

theorem now : t.now = s.now := (congrArg State.now frame.settings :)
theorem faces : t.faces = s.faces := (congrArg State.faces frame.settings :)
theorem fib : t.fib = s.fib := (congrArg State.fib frame.settings :)
theorem strategyChoice : t.strategyChoice = s.strategyChoice :=
  (congrArg State.strategyChoice frame.settings :)
theorem lookupFib : lookupFib t id = lookupFib s id := by
  simp [ReflexiveNfd.lookupFib,frame.entry.name,frame.entry.forwardingHint,frame.fib]

end

theorem allocate : Frame s (s.allocate i) := by
  refine ⟨⟨rfl,rfl,by simp,?_,fun e => e,by simp [State.allocate],.refl⟩,rfl,prefix_rfl⟩
  intro object bound
  rw [State.interest_allocate bound]
  exact .refl _

theorem modifyInterest (same : ∀ i, Rewritten i (f i)) : Frame s (s.modifyInterest object f) := by
  refine ⟨⟨rfl,rfl,by simp,?_,fun e => e,by simp [State.modifyInterest],.refl⟩,rfl,prefix_rfl⟩
  intro o bound
  rw [State.interest_modify bound]
  split
  · exact same _
  · exact .refl _

theorem modifyEntry (trimmed : ∀ e, Trimmed e (f e)) : Frame s (s.modifyEntry id f) := by
  refine ⟨⟨rfl,rfl,Nat.le_refl _,fun _ _ => .refl _,fun e => if e.id = id then f e else e,rfl,?_⟩,rfl,prefix_rfl⟩
  intro e
  dsimp only
  split
  · exact trimmed e
  · exact .refl e

theorem setTag : Frame s (s.setTag object pitToken) := modifyInterest (fun _ => rfl)

theorem emit : Frame s (s.emit effect) := ⟨⟨rfl,rfl,Nat.le_refl _,fun _ _ => .refl _,fun e => e,by simp [State.emit],.refl⟩,rfl,
  prefix_append _ _⟩

theorem cancelTimer : Frame s (s.cancelTimer h) :=
  ⟨⟨rfl,rfl,Nat.le_refl _,fun _ _ => .refl _,fun e => e,by simp [State.cancelTimer],.refl⟩,rfl,prefix_rfl⟩

theorem setExpiryTimer : Frame s (s.setExpiryTimer id duration) := by
  have marked : Frame s (s.modifyEntry id (fun e => { e with expiryTimer := some s.scheduler.nextId })) :=
    modifyEntry (fun e => .of_core rfl)
  exact ⟨⟨rfl,rfl,Nat.le_refl _,marked.heap,marked.entries⟩,rfl,prefix_rfl⟩

theorem setRtoTimer : Frame s (s.setRtoTimer id delay inFace firstOutFace) := by
  have marked : Frame s (s.modifyEntry id (fun e => { e with rtoTimer := some s.scheduler.nextId })) :=
    modifyEntry (fun e => .of_core rfl)
  exact ⟨⟨rfl,rfl,Nat.le_refl _,marked.heap,marked.entries⟩,rfl,prefix_rfl⟩

theorem insertOrUpdateOutRecord : Frame s (s.insertOrUpdateOutRecord id face object) :=
  modifyEntry (fun _ => .of_core rfl)

theorem deleteInRecord : Frame s (s.deleteInRecord id face) := modifyEntry (fun _ => .deleteInRecord)

theorem outgoing : Outgoing Frame := ⟨refl,trans,setTag,allocate,insertOrUpdateOutRecord,emit⟩

theorem onOutgoingNack : Frame s (onOutgoingNack s reason egress id) := outgoing.onOutgoingNack deleteInRecord

theorem sendData : Frame s (sendData s data egress id) := outgoing.sendData deleteInRecord

end Frame
end ReflexiveNfd

import Mathlib.Data.List.Infix
import ReflexiveNfd.RibRoutes

namespace ReflexiveNfd
open Ancestors Function List Option Transition

namespace Rib
variable (rib : Rib) (name : Name) (route : Route)

-- Rib::find of a name and a route is stored.
def findLongestPrefix : Option Route :=
  match rib.stored name route with
  | some existingRoute => some existingRoute
  | none => (rib.findParent name).bind (rib.stored · route)

def IsLongest : Option Route → Prop
  | some found => ∃ up, up <+: name ∧ rib.stored up route = some found ∧ ∀ q, q <+: name → rib.stored q route ≠ none → q <+: up
  | none => ∀ q, q <+: name → rib.stored q route = none

theorem stored_contains {rib : Rib} (present : rib.stored name route ≠ none) : rib.contains name := by
  obtain ⟨existing,found⟩ := ne_none_iff_exists'.mp present
  obtain ⟨entry,there,_⟩ := bind_eq_some_iff.mp found
  exact mem_contains.mpr ⟨entry,there⟩

-- Only the closest entry above the name is tried after its own.
theorem longest_prefix_iff : rib.IsLongest name route (rib.findLongestPrefix name route) ↔
    rib.stored name route ≠ none ∨ ∀ up, IsNearest rib.contains name up →
      rib.stored up route ≠ none ∨ ∀ q, q <+: up → rib.stored q route = none := by
  rw [findLongestPrefix]
  cases here : rib.stored name route with
  | some existing => exact iff_of_true ⟨name,prefix_rfl,here,fun q front _ => front⟩ (.inl (some_ne_none _))
  | none =>
    have proper : ∀ q, rib.stored q route ≠ none → q ≠ name := by
      rintro q present rfl
      exact present here
    cases above : rib.findParent name with
    | none =>
      refine iff_of_true (fun q front => by_contra fun present => ?_) (.inr fun up near => ?_)
      · have missing := nearest_eq_none.mp above q front (proper q present)
        simp [stored_contains q route present] at missing
      · cases above.symm.trans (nearest_eq_some.mpr near)
    | some up =>
      have near := isNearest_of_nearest above
      have within : ∀ q, q <+: name → rib.stored q route ≠ none → q <+: up :=
        fun q front present => near.longest q front (proper q present) (stored_contains q route present)
      cases there : rib.stored up route with
      | some existing =>
        rw [bind_some,there]
        refine iff_of_true ⟨up,near.front,there,within⟩ (.inr fun other nearest => .inl ?_)
        rw [nearest.unique near,there]
        exact some_ne_none _
      | none =>
        rw [bind_some,there]
        constructor
        · intro none
          refine .inr fun other nearest => .inr fun q front => ?_
          exact none q (front.trans nearest.front)
        · rintro (never | none)
          · exact absurd rfl never
          · refine fun q front => by_contra fun present => ?_
            exact (none up near).elim (fun found => found there) (fun empty => present (empty q (within q front present)))

-- The route of /a is not found from /a/b/c past the entry /a/b.
theorem longest_prefix_hidden : ∃ rib, Reached rib ∧ rib.stored [⟨8,[97]⟩] ⟨1,0,5,0,none,none⟩ = some ⟨1,0,5,0,none,none⟩ ∧
    rib.findLongestPrefix [⟨8,[97]⟩,⟨8,[98]⟩,⟨8,[99]⟩] ⟨1,0,5,0,none,none⟩ = none :=
  reached_shows empty [.insert [⟨8,[97]⟩] ⟨1,0,5,0,none,none⟩,.insert [⟨8,[97]⟩,⟨8,[98]⟩] ⟨2,0,5,0,none,none⟩] rfl (by decide)

-- afterInsertEntry and afterEraseEntry: what a call does to the names that have
-- entries.
def signal : RibCall → Option (Name × Bool)
  | .insert name _ => if rib.contains name then none else some (name,true)
  | .erase name route => do
      let entry ← rib.find name
      let _ ← entry.findRoute route
      if (entry.eraseRoute route).routes = [] then some (name,false) else none

variable {rib name route} {after : Rib}

theorem step_signals (sound : Sound rib) (call : RibCall) : ∃ after, rib.step call = some after ∧ Sound after ∧
    after.contains = (rib.signal call).elim rib.contains fun change => update rib.contains change.1 change.2 := by
  cases call with
  | insert name route =>
    obtain ⟨after,inserted,soundA,written,_⟩ := insert_exact sound name route
    refine ⟨after,inserted,soundA,(contains_written written).trans ?_⟩
    rw [signal]
    split
    · rename_i there
      exact update_eq_self_iff.mpr there.symm
    · rfl
  | erase name route =>
    obtain ⟨after,erased,soundA,written,_⟩ := erase_exact sound name route
    refine ⟨after,erased,soundA,(contains_written written).trans ?_⟩
    cases found : rib.find name with
    | none =>
      have missing : rib.contains name = false := by rw [contains,found]; rfl
      simp [signal,found,remains,missing]
    | some entry =>
      have there : rib.contains name := mem_contains.mpr ⟨entry,found⟩
      cases existing : entry.findRoute route with
      | none =>
        have same : entry.eraseRoute route = entry := by rw [RibEntry.eraseRoute,existing]
        simp [signal,found,existing,remains,same,sound.occupied name entry found,there]
      | some old =>
        by_cases last : (entry.eraseRoute route).routes = []
        · simp [signal,found,existing,remains,last]
        · simp [signal,found,existing,remains,last,there]

end Rib

structure ReadvertiseDestination where
  rib : Rib
  isAvailable : Bool
  emitted : List Bool

namespace ReadvertiseDestination
variable (commandPrefix : Name)

def setAvailability (d : ReadvertiseDestination) (isAvailable : Bool) : ReadvertiseDestination :=
  if d.isAvailable ≠ isAvailable then { d with isAvailable := isAvailable, emitted := d.emitted ++ [isAvailable] } else d

def step (d : ReadvertiseDestination) (call : RibCall) : Option ReadvertiseDestination := do
  let rib ← d.rib.step call
  match d.rib.signal call with
  | some (name,inserted) => if name <+: commandPrefix then some ({ d with rib := rib }.setAvailability inserted) else some { d with rib := rib }
  | none => some { d with rib := rib }

def initial : ReadvertiseDestination := ⟨.empty,false,[]⟩

def served (rib : Rib) : Bool := commandPrefix.inits.any rib.contains

-- An entry above the command prefix is erased only if it is the last one.
def ErasesLast (rib : Rib) (call : RibCall) : Prop :=
  ∀ name, rib.signal call = some (name,false) → name <+: commandPrefix → ∀ q, q <+: commandPrefix → rib.contains q → q = name

variable {commandPrefix} {d e : ReadvertiseDestination} {rib after : Rib}

theorem setAvailability_exact (d : ReadvertiseDestination) (isAvailable : Bool) : d.setAvailability isAvailable =
    ⟨d.rib,isAvailable,d.emitted ++ if isAvailable = d.isAvailable then [] else [isAvailable]⟩ := by
  rw [setAvailability]
  by_cases same : d.isAvailable = isAvailable
  · subst same
    simp
  · rw [if_pos same,if_neg (fun equal => same equal.symm)]

theorem step_exact (taken : d.rib.step call = some rib) : ∃ e, step commandPrefix d call = some e ∧ e.rib = rib ∧
    e.isAvailable = ((d.rib.signal call).elim d.isAvailable fun change => if change.1 <+: commandPrefix then change.2 else d.isAvailable) ∧
    e.emitted = d.emitted ++ if e.isAvailable = d.isAvailable then [] else [e.isAvailable] := by
  cases told : d.rib.signal call with
  | none => exact ⟨{ d with rib := rib },by simp [step,taken,told],rfl,rfl,by simp⟩
  | some change =>
    by_cases front : change.1 <+: commandPrefix
    · refine ⟨{ d with rib := rib }.setAvailability change.2,by simp [step,taken,told,front],?_⟩
      rw [setAvailability_exact]
      exact ⟨rfl,(if_pos front).symm,rfl⟩
    · exact ⟨{ d with rib := rib },by simp [step,taken,told,front],rfl,by simp [front],by simp⟩

theorem served_iff : served commandPrefix rib ↔ ∃ q, q <+: commandPrefix ∧ rib.contains q := by
  simp [served,mem_inits]

theorem served_erased (contains : after.contains = update rib.contains name false) :
    served commandPrefix after = false ↔ ∀ q, q <+: commandPrefix → rib.contains q → q = name := by
  rw [← Bool.not_eq_true,served_iff,contains]
  constructor
  · intro missing q front there
    refine by_contra fun other => missing ⟨q,front,?_⟩
    rwa [update_of_ne other]
  · rintro only ⟨q,front,there⟩
    rw [update_apply] at there
    split at there
    · cases there
    · rename_i other
      exact other (only q front there)

theorem served_apart (contains : after.contains = update rib.contains name inserted) (apart : ¬ name <+: commandPrefix) :
    served commandPrefix after = served commandPrefix rib := by
  refine Bool.eq_iff_iff.mpr ?_
  rw [served_iff,served_iff,contains]
  refine exists_congr fun q => and_congr_right fun front => ?_
  have other : q ≠ name := by
    rintro rfl
    exact apart front
  rw [update_of_ne other]

theorem step_accurate (sound : d.rib.Sound) (accurate : d.isAvailable = served commandPrefix d.rib) (taken : step commandPrefix d call = some e) :
    e.isAvailable = served commandPrefix e.rib ↔ ErasesLast commandPrefix d.rib call := by
  obtain ⟨after,called,_,contains⟩ := Rib.step_signals sound call
  obtain ⟨again,same,rfl,available,_⟩ := step_exact called
  cases same.symm.trans taken
  rw [available,ErasesLast]
  cases told : d.rib.signal call with
  | none =>
    rw [told] at contains
    refine iff_of_true ?_ nofun
    rw [served,contains]
    exact accurate
  | some change =>
    obtain ⟨name,inserted⟩ := change
    rw [told] at contains
    by_cases front : name <+: commandPrefix
    · cases inserted with
      | true =>
        refine iff_of_true ?_ nofun
        have here : served commandPrefix e.rib := served_iff.mpr ⟨name,front,by simp [contains]⟩
        rw [here]
        exact if_pos front
      | false =>
        simp only [elim_some,if_pos front]
        rw [eq_comm,served_erased contains]
        constructor
        · rintro only other ⟨⟩ _
          exact only
        · exact fun only => only name rfl front
    · refine iff_of_true ?_ ?_
      · rw [served_apart contains front,← accurate]
        exact if_neg front
      · rintro other ⟨⟩ above
        exact absurd above front

end ReadvertiseDestination

-- The RIB with its index, in the order in which a multimap keeps equal keys. A
-- pointer to an entry is its name.
structure IndexedRib where
  rib : Rib
  faceEntries : List (FaceId × Name)

namespace IndexedRib
variable (s : IndexedRib)

def indexAfter : RibCall → List (FaceId × Name)
  | .insert name route => if s.rib.stored name route = none then s.faceEntries ++ [(route.faceId,name)] else s.faceEntries
  | .erase name route => (s.rib.find name).elim s.faceEntries fun entry =>
      if (entry.findRoute route).isSome ∧ (entry.eraseRoute route).hasFaceId route.faceId = false then s.faceEntries.erase (route.faceId,name)
      else s.faceEntries

def step (call : RibCall) : Option IndexedRib := (s.rib.step call).map (⟨·,s.indexAfter call⟩)

def beginRemoveFace (faceId : FaceId) : List RibUpdate :=
  (s.faceEntries.filter (·.1 == faceId)).flatMap fun pair => ((s.rib.find pair.2).toList.flatMap RibEntry.routes).filterMap fun route =>
    if route.faceId = faceId then some ⟨.removeFace,pair.2,route⟩ else none

def initial : IndexedRib := ⟨.empty,[]⟩

def onFace (rib : Rib) (faceId : FaceId) (name : Name) : Bool := (rib.find name).any (·.hasFaceId faceId)

def Indexed : Prop := ∀ faceId name, s.faceEntries.count (faceId,name) = if onFace s.rib faceId name then 1 else 0

def Single : RibCall → Prop
  | .insert name route => s.rib.stored name route = none → onFace s.rib route.faceId name = false
  | .erase _ _ => True

variable {s t : IndexedRib} {rib after : Rib} {route : Route}

theorem hasFaceId_iff {entry : RibEntry} : entry.hasFaceId faceId ↔ ∃ route : Route, route.faceId = faceId ∧ entry.findRoute route ≠ none := by
  rw [RibEntry.hasFaceId,List.any_eq_true]
  constructor
  · rintro ⟨r,listed,own⟩
    exact ⟨r,beq_iff_eq.mp own,fun missing => withKey_eq_none.mp missing (mem_map_of_mem listed)⟩
  · rintro ⟨route,rfl,present⟩
    obtain ⟨r,listed,same⟩ := mem_map.mp (not_not.mp (mt withKey_eq_none.mpr present))
    exact ⟨r,listed,beq_iff_eq.mpr (congrArg Prod.fst same)⟩

theorem onFace_iff : onFace rib faceId name ↔ ∃ route : Route, route.faceId = faceId ∧ rib.stored name route ≠ none := by
  rw [onFace]
  cases found : rib.find name with
  | none => simp [Rib.stored,found]
  | some entry => simp [Rib.stored,found,hasFaceId_iff]

theorem indexed_iff {pairs : List (FaceId × Name)} (indexed : s.Indexed)
    (changed : ∀ place other, after.stored place other = if place = name ∧ other.key = route.key then present else s.rib.stored place other)
    (counts : ∀ f n, (f,n) ≠ (route.faceId,name) → pairs.count (f,n) = s.faceEntries.count (f,n)) :
    Indexed ⟨after,pairs⟩ ↔ pairs.count (route.faceId,name) = if onFace after route.faceId name then 1 else 0 := by
  refine ⟨fun all => all route.faceId name,fun here f n => ?_⟩
  by_cases same : (f,n) = (route.faceId,name)
  · cases same
    exact here
  · have apart : onFace after f n = onFace s.rib f n := by
      rw [Bool.eq_iff_iff,onFace_iff,onFace_iff]
      refine exists_congr fun other => and_congr_right fun own => ?_
      rw [changed,if_neg]
      rintro ⟨rfl,key⟩
      exact same (by rw [← own,show other.faceId = route.faceId from congrArg Prod.fst key])
    rw [apart]
    exact (counts f n same).trans (indexed f n)

theorem step_indexed (sound : s.rib.Sound) (distinct : s.rib.Distinct) (indexed : s.Indexed) (taken : s.step call = some t) :
    t.Indexed ↔ s.Single call := by
  obtain ⟨after,called,rfl⟩ := map_eq_some_iff.mp taken
  cases call with
  | insert name route =>
    obtain ⟨_,_,_,changed⟩ := Rib.insert_stored sound distinct called
    have here : onFace after route.faceId name := onFace_iff.mpr ⟨route,rfl,by simp [changed]⟩
    rw [indexAfter,Single]
    split
    · rename_i new
      rw [indexed_iff indexed changed (fun f n other => by simp [count_append,Ne.symm other]),count_append,indexed,here]
      simp [new]
    · rename_i old
      have before := onFace_iff.mpr ⟨route,rfl,old⟩
      rw [indexed_iff indexed changed (fun _ _ _ => rfl),indexed,here,before]
      simp [old]
  | erase name route =>
    obtain ⟨_,_,_,changed⟩ := Rib.erase_stored sound distinct called
    refine iff_of_true ?_ trivial
    rw [indexAfter]
    cases found : s.rib.find name with
    | none =>
      have missing : ∀ other, s.rib.stored name other = none := fun other => by rw [Rib.stored,found]; rfl
      have same : onFace after route.faceId name = onFace s.rib route.faceId name := by
        rw [Bool.eq_iff_iff,onFace_iff,onFace_iff]
        simp [changed,missing]
      exact (indexed_iff indexed changed (fun _ _ _ => rfl)).mpr (same ▸ indexed _ _)
    | some entry =>
      have before : onFace s.rib route.faceId name = entry.hasFaceId route.faceId := by rw [onFace,found]; rfl
      have here : onFace after route.faceId name = (entry.eraseRoute route).hasFaceId route.faceId := by
        rw [Bool.eq_iff_iff,onFace_iff,hasFaceId_iff]
        refine exists_congr fun other => and_congr_right fun _ => ?_
        rw [changed,RibEntry.findRoute_eraseRoute (distinct.entry found),Rib.stored,found]
        simp
      rw [elim_some]
      split
      · rename_i last
        have own := hasFaceId_iff.mpr ⟨route,rfl,isSome_iff_ne_none.mp last.1⟩
        rw [indexed_iff indexed changed (fun f n other => count_erase_of_ne other),count_erase_self,indexed,before,here,last.2,own]
        rfl
      · rename_i left
        rw [indexed_iff indexed changed (fun _ _ _ => rfl),indexed,here,before]
        cases listed : entry.findRoute route with
        | none => rw [RibEntry.eraseRoute,listed]
        | some existing =>
          have own : entry.hasFaceId route.faceId := hasFaceId_iff.mpr ⟨route,rfl,by simp [listed]⟩
          rw [own]
          simpa [listed] using left

theorem Indexed.removes (indexed : s.Indexed) (faceId : FaceId) (update : RibUpdate) : update ∈ s.beginRemoveFace faceId ↔
    update.action = .removeFace ∧ update.route.faceId = faceId ∧ ∃ entry, s.rib.find update.name = some entry ∧ update.route ∈ entry.routes := by
  rw [beginRemoveFace,mem_flatMap]
  constructor
  · rintro ⟨pair,_,made⟩
    obtain ⟨route,inside,made⟩ := mem_filterMap.mp made
    obtain ⟨own,⟨⟩⟩ := ite_none_right_eq_some.mp made
    obtain ⟨entry,found,listed⟩ := mem_flatMap.mp inside
    exact ⟨rfl,own,entry,mem_toList.mp found,listed⟩
  · obtain ⟨action,name,route⟩ := update
    rintro ⟨rfl,rfl,entry,found,listed⟩
    have own : onFace s.rib route.faceId name := by
      rw [onFace,found]
      exact List.any_eq_true.mpr ⟨route,listed,beq_self_eq_true _⟩
    have once := indexed route.faceId name
    rw [own,if_pos rfl] at once
    refine ⟨(route.faceId,name),mem_filter.mpr ⟨count_pos_iff.mp (by omega),beq_self_eq_true _⟩,mem_filterMap.mpr ⟨route,?_,if_pos rfl⟩⟩
    exact mem_flatMap.mpr ⟨entry,mem_toList.mpr found,listed⟩

-- The index is right, and what is enqueued with it, as long as no entry gets a
-- second route on a face.
theorem face_entries_iff (calls : List RibCall) :
    (∀ s, Visits step initial calls s → s.Indexed ∧ ∀ faceId update, update ∈ s.beginRemoveFace faceId ↔
      update.action = .removeFace ∧ update.route.faceId = faceId ∧ ∃ entry, s.rib.find update.name = some entry ∧ update.route ∈ entry.routes) ↔
    ∀ s call, Takes step initial calls s call → s.Single call := by
  refine Iff.trans ⟨fun all s visited => (all s visited).1,fun all s visited => ⟨all s visited,(all s visited).removes⟩⟩
    (always_exact_total (Q := fun s => s.rib.Sound ∧ s.rib.Distinct) (fun s call kept => ?_) (fun _ _ _ kept => step_indexed kept.1 kept.2) ?_ ?_)
  · obtain ⟨after,called,_⟩ := Rib.step_signals kept.1 call
    refine ⟨⟨after,s.indexAfter call⟩,by rw [step,called]; rfl,?_⟩
    cases call with
    | insert =>
      obtain ⟨soundA,distinctA,_⟩ := Rib.insert_stored kept.1 kept.2 called
      exact ⟨soundA,distinctA⟩
    | erase =>
      obtain ⟨soundA,distinctA,_⟩ := Rib.erase_stored kept.1 kept.2 called
      exact ⟨soundA,distinctA⟩
  · exact ⟨Rib.Reached.sound (.start rfl),nofun⟩
  · exact fun _ _ => rfl

-- Two routes of one entry on face 1: both are erased and a pair stays.
theorem face_entries_left : ∃ s, Transition.Reached step (· = initial) s ∧ s.rib.table.keys = [] ∧ s.faceEntries = [(1,[])] :=
  reached_shows initial [.insert [] ⟨1,0,5,0,none,none⟩,.insert [] ⟨1,1,5,0,none,none⟩,.erase [] ⟨1,0,5,0,none,none⟩,
    .erase [] ⟨1,1,5,0,none,none⟩] rfl (by decide)

end IndexedRib
end ReflexiveNfd


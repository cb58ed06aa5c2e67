import ReflexiveNfd.Lib.Transition
import ReflexiveNfd.Lib.Forest
import ReflexiveNfd.Lib.OrderedMap
import ReflexiveNfd.Lib.Ancestors
import ReflexiveNfd.NameWires
import ReflexiveNfd.Packet

namespace ReflexiveNfd
open Ancestors Option Function OrderedMap
open List hiding beq_eq_decide

abbrev EventId := Nat

-- Bit 0 of flags is CHILD_INHERIT and bit 1 is CAPTURE.
structure Route where
  faceId : FaceId
  origin : Nat
  cost : Nat
  flags : Nat
  expires : Option Int
  expirationEvent : Option EventId
  deriving DecidableEq, Repr

def Route.isChildInherit (r : Route) : Bool := r.flags.testBit 0
def Route.isRibCapture (r : Route) : Bool := r.flags.testBit 1

-- A pointer to an entry is the name of the entry, which there is only one entry
-- for at a time.
structure RibEntry where
  routes : List Route
  children : List Name
  parent : Option Name
  nRoutesWithCaptureSet : UInt64
  inheritedRoutes : List Route
  deriving DecidableEq, Repr

-- cancelled collects the expiration events that were cancelled.
structure Rib where
  table : OrderedMap Name RibEntry Name.compare
  nItems : Nat
  cancelled : List EventId

inductive RibCall where
  | insert (name : Name) (route : Route)
  | erase (name : Name) (route : Route)

def RibCall.name : RibCall → Name
  | .insert name _ => name
  | .erase name _ => name

def compareFaceIdAndOrigin (lhs rhs : Route) : Bool := lhs.faceId == rhs.faceId && lhs.origin == rhs.origin

namespace RibEntry

def blank : RibEntry := ⟨[],[],none,0,[]⟩

section
variable (e : RibEntry) (route : Route)

def findRoute : Option Route := e.routes.find? (compareFaceIdAndOrigin · route)

def insertRoute : RibEntry × Bool :=
  if (e.findRoute route).isSome then (e,false)
  else ({ e with
    routes := e.routes ++ [route]
    nRoutesWithCaptureSet := if route.isRibCapture then e.nRoutesWithCaptureSet + 1 else e.nRoutesWithCaptureSet },true)

def assign (route : Route) : List Route → List Route
  | [] => []
  | r :: later => if compareFaceIdAndOrigin r route then route :: later else r :: assign route later

def assignRoute : RibEntry := { e with routes := assign route e.routes }

def eraseRoute : RibEntry :=
  match e.findRoute route with
  | none => e
  | some existing => { e with
      routes := e.routes.eraseP (compareFaceIdAndOrigin · route)
      nRoutesWithCaptureSet := if existing.isRibCapture then e.nRoutesWithCaptureSet - 1 else e.nRoutesWithCaptureSet }

def contents : List Route × UInt64 × List Route := (e.routes,e.nRoutesWithCaptureSet,e.inheritedRoutes)

def withRoute : RibEntry :=
  if (e.findRoute route).isSome then e.assignRoute route else (e.insertRoute route).1

end

end RibEntry

namespace Rib

def empty : Rib := ⟨.empty,0,[]⟩

section
variable (rib : Rib) (name : Name)

def find : Option RibEntry := rib.table.find name

def contains : Bool := (rib.find name).isSome

def put (entry : RibEntry) : Rib := { rib with table := rib.table.insert name entry }

def findParent : Option Name := nearest rib.contains name

-- The table is ordered by octets, and what is a prefix is left open here: the code
-- goes by types and values, for which names in their shortest encoding stand.
def findDescendantsBy (under : Name → Name → Bool) : List Name :=
  if rib.contains name then
    (((rib.table.entries.dropWhile (fun e => e.1 ≠ name)).drop 1).takeWhile (fun e => under name e.1)).map Prod.fst
  else []

def findDescendantsForNonInsertedNameBy (under : Name → Name → Bool) : List Name :=
  (rib.table.entries.filter (fun e => under name e.1)).map Prod.fst

def findDescendants : List Name := rib.findDescendantsBy name List.isPrefixOf

def findDescendantsForNonInsertedName : List Name := rib.findDescendantsForNonInsertedNameBy name List.isPrefixOf

end

section
variable (rib : Rib) (parent : Option Name) (child name : Name) (route : Route)

-- RibEntry::addChild and removeChild assert that the child has no parent and
-- that it has this one.
def addChild (parent child : Name) : Option Rib := do
  let entry ← rib.find child
  if entry.parent = none then
    let rib := rib.put child { entry with parent := some parent }
    let above ← rib.find parent
    some (rib.put parent { above with children := above.children ++ [child] })
  else none

def removeChild (parent child : Name) : Option Rib := do
  let entry ← rib.find child
  if entry.parent = some parent then
    let rib := rib.put child { entry with parent := none }
    let above ← rib.find parent
    some (rib.put parent { above with children := above.children.filter (· ≠ child) })
  else none

def joinParent : Option Rib :=
  match parent with
  | some parent => rib.addChild parent child
  | none => some rib

def leaveParent : Option Rib :=
  match parent with
  | some parent => rib.removeChild parent child
  | none => some rib

def adopt (parent : Option Name) (name : Name) : Rib → List Name → Option Rib
  | rib,[] => some rib
  | rib,child :: later => do
      let entry ← rib.find child
      if entry.parent = parent then
        let rib ← rib.leaveParent parent child
        let rib ← rib.addChild name child
        adopt parent name rib later
      else adopt parent name rib later

def insertEntryBy (under : Name → Name → Bool) : Option Rib := do
  let rib := { rib.put name (RibEntry.blank.insertRoute route).1 with nItems := rib.nItems + 1 }
  let parent := rib.findParent name
  let rib ← rib.joinParent parent name
  adopt parent name rib (rib.findDescendantsBy name under)

def insertBy (under : Name → Name → Bool) : Option Rib :=
  match rib.find name with
  | some entry =>
    match entry.findRoute route with
    | none => some { rib.put name (entry.insertRoute route).1 with nItems := rib.nItems + 1 }
    | some existing => some { rib.put name (entry.assignRoute route) with cancelled := rib.cancelled ++ existing.expirationEvent.toList }
  | none => rib.insertEntryBy name route under

def insertEntry : Option Rib := rib.insertEntryBy name route List.isPrefixOf

def insert : Option Rib := rib.insertBy name route List.isPrefixOf

def handOver (parent : Option Name) (name : Name) : Rib → List Name → Option Rib
  | rib,[] => some rib
  | rib,child :: later => do
      let rib ← rib.removeChild name child
      let rib ← rib.joinParent parent child
      handOver parent name rib later

def eraseEntry : Option Rib :=
  match rib.find name with
  | none => some rib
  | some entry => do
      let rib ← rib.leaveParent entry.parent name
      let rib ← handOver entry.parent name rib entry.children
      some { rib with table := rib.table.erase name }

def erase : Option Rib :=
  match rib.find name with
  | none => some rib
  | some entry =>
    match entry.findRoute route with
    | none => some rib
    | some existing =>
      let remaining := entry.eraseRoute route
      let rib := { rib.put name remaining with nItems := rib.nItems - 1, cancelled := rib.cancelled ++ existing.expirationEvent.toList }
      if remaining.routes = [] then rib.eraseEntry name else some rib

def stepBy (under : Name → Name → Bool) : RibCall → Option Rib
  | .insert name route => rib.insertBy name route under
  | .erase name route => rib.erase name route

def step : RibCall → Option Rib := rib.stepBy List.isPrefixOf

end

abbrev Reached (rib : Rib) : Prop := Transition.Reached step (· = empty) rib

-- Prefixes by types and values, and only names in their shortest encoding.
abbrev ReachedShortest (rib : Rib) : Prop :=
  Transition.Reached (fun rib call => if call.name.Shortest then rib.stepBy Name.isPrefixOfDecoded call else none) (· = empty) rib

variable {rib after : Rib} {name child other : Name} {parent : Option Name} {entry : RibEntry} {route : Route}

section
variable (rib : Rib) (name : Name)

def parentOf : Option Name := (rib.find name).bind RibEntry.parent

def childrenOf : List Name := ((rib.find name).map RibEntry.children).getD []

def contents : Option (List Route × UInt64 × List Route) := (rib.find name).map RibEntry.contents

def stored (route : Route) : Option Route := (rib.find name).bind (·.findRoute route)

end

section
variable (see : Option RibEntry → β) (rib : Rib) (name : Name) (entry : RibEntry)

def stock : List (Name × List Route × UInt64 × List Route) × Nat × List EventId :=
  (rib.table.entries.map (fun e => (e.1,e.2.routes,e.2.nRoutesWithCaptureSet,e.2.inheritedRoutes)),rib.nItems,rib.cancelled)

@[simp] theorem find_put (name other : Name) (entry : RibEntry) :
    (rib.put name entry).find other = if other = name then some entry else rib.find other := find_insert ..

theorem view_put :
    (fun n => see ((rib.put name entry).find n)) = update (fun n => see (rib.find n)) name (see (some entry)) := by
  funext n
  rw [find_put,update_apply]
  exact apply_ite see _ _ _

theorem view_erase (name : Name) :
    (fun n => see (find { rib with table := rib.table.erase name } n)) = update (fun n => see (rib.find n)) name (see none) := by
  funext n
  rw [update_apply]
  split
  · rename_i here
    rw [here,find,find_erase_self]
  · rename_i apart
    rw [find,find_erase_ne apart]
    rfl

theorem parentOf_put : (rib.put name entry).parentOf = update rib.parentOf name entry.parent :=
  view_put (·.bind RibEntry.parent) rib name entry

theorem childrenOf_put :
    (rib.put name entry).childrenOf = update rib.childrenOf name entry.children :=
  view_put (fun e => (e.map RibEntry.children).getD []) rib name entry

end

theorem stock_put (found : rib.find name = some old) (routes : entry.routes = old.routes)
    (captures : entry.nRoutesWithCaptureSet = old.nRoutesWithCaptureSet) (inherited : entry.inheritedRoutes = old.inheritedRoutes) :
    (rib.put name entry).stock = rib.stock := by
  have same : (rib.table.insert name entry).entries.map (fun e => (e.1,e.2.routes,e.2.nRoutesWithCaptureSet,e.2.inheritedRoutes)) = rib.stock.1 :=
    map_insert found (by simp only [routes,captures,inherited])
  simp only [stock,put,same]

theorem mem_contains : rib.contains name ↔ ∃ entry, rib.find name = some entry := isSome_iff_exists

theorem contains_of_stock (same : after.stock = rib.stock) : after.contains = rib.contains := by
  have entries := congrArg Prod.fst same
  funext n
  refine Bool.eq_iff_iff.mpr ?_
  have names : after.table.keys = rib.table.keys := by
    have firsts := congrArg (List.map Prod.fst) entries
    simp only [stock,List.map_map] at firsts
    exact firsts
  rw [mem_contains,mem_contains]
  simp only [find,← OrderedMap.mem_keys,names]

theorem contents_of_stock (same : after.stock = rib.stock) : after.contents = rib.contents := by
  have entries := congrArg Prod.fst same
  funext name
  rw [contents,contents,find,find,map_find,map_find]
  exact congrArg (fun l => (List.find? _ l).map Prod.snd) entries

theorem contents_put (rib : Rib) (name : Name) (entry : RibEntry) : (rib.put name entry).contents = update rib.contents name (some entry.contents) :=
  view_put (·.map RibEntry.contents) rib name entry

theorem total_of_stock (same : after.stock = rib.stock) :
    after.table.total (fun e => e.routes.length) = rib.table.total (fun e => e.routes.length) := by
  have entries := congrArg (List.map (fun e => e.2.1.length)) (congrArg Prod.fst same)
  simp only [stock,List.map_map] at entries
  exact congrArg List.sum entries

structure Relinked (rib after : Rib) (child : Name) (parent : Option Name) : Prop where
  consistent : Forest.Consistent after.parentOf after.childrenOf
  parents : after.parentOf = update rib.parentOf child parent
  stock : after.stock = rib.stock

theorem Relinked.again (first : Relinked rib between child none) (second : Relinked between after child parent) :
    Relinked rib after child parent :=
  ⟨second.consistent,by rw [second.parents,first.parents,update_idem],second.stock.trans first.stock⟩

theorem parent_of_find (found : rib.find name = some entry) : rib.parentOf name = entry.parent := by
  rw [parentOf,found]
  rfl

theorem children_of_find (found : rib.find name = some entry) : rib.childrenOf name = entry.children := by
  rw [childrenOf,found]
  rfl

theorem relink (found : rib.find child = some entry) (foundUp : rib.find up = some upper)
    (apart : up ≠ child) (consistent : Forest.Consistent (update rib.parentOf child parent) (update rib.childrenOf up xs)) :
    Relinked rib ((rib.put child { entry with parent := parent }).put up { upper with children := xs }) child parent := by
  have foundNow : (rib.put child { entry with parent := parent }).find up = some upper := by rw [find_put,if_neg apart,foundUp]
  have parents : ((rib.put child { entry with parent := parent }).put up { upper with children := xs }).parentOf =
      update rib.parentOf child parent := by
    have same : upper.parent = update rib.parentOf child parent up := by rw [update_of_ne apart,parent_of_find foundUp]
    rw [parentOf_put,parentOf_put]
    rw [same,update_eq_self]
  have children : ((rib.put child { entry with parent := parent }).put up { upper with children := xs }).childrenOf =
      update rib.childrenOf up xs := by
    rw [childrenOf_put,childrenOf_put]
    rw [← children_of_find found,update_eq_self]
  refine ⟨?_,parents,?_⟩
  · rw [parents,children]
    exact consistent
  · have inner : (rib.put child { entry with parent := parent }).stock = rib.stock := stock_put found rfl rfl rfl
    refine Eq.trans ?_ inner
    exact stock_put foundNow rfl rfl rfl

section
variable (up : Name) (consistent : Forest.Consistent rib.parentOf rib.childrenOf) (there : rib.contains child) (above : rib.contains up) (apart : up ≠ child)
include up consistent there above apart

theorem addChild_exact (loose : rib.parentOf child = none) :
    ∃ after, rib.addChild up child = some after ∧ Relinked rib after child (some up) := by
  obtain ⟨entry,found⟩ := mem_contains.mp there
  obtain ⟨upper,foundUp⟩ := mem_contains.mp above
  have free : entry.parent = none := (parent_of_find found).symm.trans loose
  have hung := consistent.hang (p := up) loose (perm_append_singleton child (rib.childrenOf up))
  rw [children_of_find foundUp] at hung
  refine ⟨_,?_,relink found foundUp apart hung⟩
  simp [addChild,found,free,apart,foundUp]

theorem removeChild_exact (hung : rib.parentOf child = some up) :
    ∃ after, rib.removeChild up child = some after ∧ Relinked rib after child none := by
  obtain ⟨entry,found⟩ := mem_contains.mp there
  obtain ⟨upper,foundUp⟩ := mem_contains.mp above
  have bound : entry.parent = some up := (parent_of_find found).symm.trans hung
  have inside := (consistent.listed up child).mpr hung
  have less : (rib.childrenOf up).Perm (child :: (rib.childrenOf up).filter (· ≠ child)) := by
    have same : (rib.childrenOf up).erase child = (rib.childrenOf up).filter (· ≠ child) := by
      rw [(consistent.distinct up).erase_eq_filter child]
      exact filter_congr (fun x _ => by rw [bne,beq_eq_decide,decide_not])
    rw [← same]
    exact perm_cons_erase inside
  have freed := consistent.unhang hung less
  rw [children_of_find foundUp] at freed
  refine ⟨_,?_,relink found foundUp apart freed⟩
  simp [removeChild,found,bound,apart,foundUp]

end

section
variable (parent : Option Name) (name : Name) (children : List Name)

section
variable (consistent : Forest.Consistent rib.parentOf rib.childrenOf)
include consistent

section
variable (there : rib.contains child) (above : ∀ up, parent = some up → rib.contains up ∧ up ≠ child)
include there above

theorem leaveParent_exact (hung : rib.parentOf child = parent) :
    ∃ after, rib.leaveParent parent child = some after ∧ Relinked rib after child none := by
  cases parent with
  | none => exact ⟨rib,rfl,consistent,by rw [← hung,update_eq_self],rfl⟩
  | some up =>
    obtain ⟨present,apart⟩ := above up rfl
    exact removeChild_exact up consistent there present apart hung

theorem joinParent_exact (loose : rib.parentOf child = none) :
    ∃ after, rib.joinParent parent child = some after ∧ Relinked rib after child parent := by
  cases parent with
  | none => exact ⟨rib,rfl,consistent,by rw [← loose,update_eq_self],rfl⟩
  | some up =>
    obtain ⟨present,apart⟩ := above up rfl
    exact addChild_exact up consistent there present apart loose

end

theorem adopt_exact (distinct : children.Nodup)
    (there : ∀ c ∈ children, rib.contains c ∧ c ≠ name ∧ parent ≠ some c) (here : rib.contains name)
    (above : ∀ up, parent = some up → rib.contains up ∧ up ≠ name) :
    ∃ after, adopt parent name rib children = some after ∧ Forest.Consistent after.parentOf after.childrenOf ∧ after.stock = rib.stock ∧
      ∀ n, after.parentOf n = if n ∈ children ∧ rib.parentOf n = parent then some name else rib.parentOf n := by
  induction children generalizing rib with
  | nil => exact ⟨rib,rfl,consistent,rfl,fun n => (if_neg (fun both => (nomatch both.1))).symm⟩
  | cons child later ih =>
    obtain ⟨unlisted,rest⟩ := nodup_cons.mp distinct
    obtain ⟨present,differs,notParent⟩ := there child mem_cons_self
    obtain ⟨entry,found⟩ := mem_contains.mp present
    have others : ∀ c ∈ later, rib.contains c ∧ c ≠ name ∧ parent ≠ some c := fun c inside => there c (mem_cons_of_mem _ inside)
    have parentIs := parent_of_find found
    rw [adopt,found,bind_eq_bind,bind_some]
    by_cases same : entry.parent = parent
    · rw [if_pos same]
      obtain ⟨free,left,freed⟩ := leaveParent_exact parent consistent present (fun up given => ⟨(above up given).1,by rintro rfl; exact notParent given⟩)
        (parentIs.trans same)
      have containsFree := contains_of_stock freed.stock
      obtain ⟨bound,joined,hung⟩ := addChild_exact name freed.consistent (containsFree ▸ present) (containsFree ▸ here) (Ne.symm differs)
        (by rw [freed.parents,update_self])
      have moved := freed.again hung
      have containsBound := contains_of_stock moved.stock
      simp only [left,joined,bind_eq_bind,bind_some]
      obtain ⟨after,done,consistentA,stockA,parents⟩ := ih moved.consistent rest (containsBound ▸ others) (containsBound ▸ here) (containsBound ▸ above)
      refine ⟨after,done,consistentA,stockA.trans moved.stock,fun n => ?_⟩
      rw [parents,moved.parents]
      by_cases this : n = child
      · subst this
        rw [if_neg (fun both => unlisted both.1),update_self,if_pos ⟨mem_cons_self,parentIs.trans same⟩]
      · rw [update_of_ne this]
        simp only [mem_cons,this,false_or]
    · rw [if_neg same]
      obtain ⟨after,done,consistentA,stockA,parents⟩ := ih consistent rest others here above
      refine ⟨after,done,consistentA,stockA,fun n => ?_⟩
      rw [parents]
      by_cases this : n = child
      · subst this
        rw [parentIs,if_neg (fun both => same both.2),if_neg (fun both => same both.2)]
      · simp only [mem_cons,this,false_or]

theorem handOver_exact (distinct : children.Nodup)
    (there : ∀ c ∈ children, rib.contains c ∧ c ≠ name ∧ parent ≠ some c ∧ rib.parentOf c = some name) (here : rib.contains name)
    (above : ∀ up, parent = some up → rib.contains up) :
    ∃ after, handOver parent name rib children = some after ∧ Forest.Consistent after.parentOf after.childrenOf ∧ after.stock = rib.stock ∧
      ∀ n, after.parentOf n = if n ∈ children then parent else rib.parentOf n := by
  induction children generalizing rib with
  | nil => exact ⟨rib,rfl,consistent,rfl,fun n => (if_neg not_mem_nil).symm⟩
  | cons child later ih =>
    obtain ⟨unlisted,rest⟩ := nodup_cons.mp distinct
    obtain ⟨present,differs,notParent,hung⟩ := there child mem_cons_self
    obtain ⟨free,left,freed⟩ := removeChild_exact name consistent present here (Ne.symm differs) hung
    have containsFree := contains_of_stock freed.stock
    obtain ⟨bound,joined,rehung⟩ := joinParent_exact parent freed.consistent (containsFree ▸ present)
      (fun up given => ⟨containsFree ▸ above up given,by rintro rfl; exact notParent given⟩) (by rw [freed.parents,update_self])
    have moved := freed.again rehung
    have containsBound := contains_of_stock moved.stock
    simp only [handOver,left,joined,bind_eq_bind,bind_some]
    have others : ∀ c ∈ later, bound.contains c ∧ c ≠ name ∧ parent ≠ some c ∧ bound.parentOf c = some name := by
      intro c inside
      obtain ⟨presentC,differsC,notParentC,hungC⟩ := there c (mem_cons_of_mem _ inside)
      refine ⟨containsBound ▸ presentC,differsC,notParentC,?_⟩
      rw [moved.parents,update_of_ne (by rintro rfl; exact unlisted inside)]
      exact hungC
    obtain ⟨after,done,consistentA,stockA,parents⟩ := ih moved.consistent rest others (containsBound ▸ here) (containsBound ▸ above)
    refine ⟨after,done,consistentA,stockA.trans moved.stock,fun n => ?_⟩
    rw [parents,moved.parents]
    by_cases this : n = child
    · subst this
      rw [if_neg unlisted,update_self,if_pos mem_cons_self]
    · rw [update_of_ne this]
      simp only [mem_cons,this,false_or]

end

end

theorem mem_findDescendants (there : rib.contains name) :
    other ∈ rib.findDescendants name ↔ rib.contains other ∧ name <+: other ∧ name ≠ other := by
  obtain ⟨entry,found⟩ := mem_contains.mp there
  have closed : ((rib.table.entries.dropWhile (fun e => e.1 ≠ name)).drop 1).Pairwise
      (fun a b => name.isPrefixOf b.1 → name.isPrefixOf a.1) := by
    have ascending := rib.table.ascending.sublist ((drop_sublist 1 _).trans (dropWhile_sublist (fun e => decide (e.1 ≠ name))))
    refine ascending.imp_of_mem (fun {a b} insideA _ less front => ?_)
    have behind := ((mem_behind found).mp insideA).2
    exact isPrefixOf_iff_prefix.mpr (Name.front_of_between behind less (List.isPrefixOf_iff_prefix.mp front))
  rw [findDescendants,findDescendantsBy,if_pos there,takeWhile_eq_filter closed]
  simp only [List.mem_map,mem_filter,mem_behind found,List.isPrefixOf_iff_prefix]
  constructor
  · rintro ⟨e,⟨⟨inside,less⟩,front⟩,rfl⟩
    refine ⟨mem_contains.mpr ⟨e.2,find_eq_some.mpr inside⟩,front,fun same => ?_⟩
    rw [same] at less
    exact not_lt_self less
  · rintro ⟨present,front,proper⟩
    obtain ⟨held,foundOther⟩ := mem_contains.mp present
    exact ⟨(other,held),⟨⟨find_eq_some.mp foundOther,Name.compare_of_front front proper⟩,front⟩,rfl⟩

theorem mem_findDescendantsForNonInsertedName (missing : rib.contains name = false) :
    other ∈ rib.findDescendantsForNonInsertedName name ↔ rib.contains other ∧ name <+: other ∧ name ≠ other := by
  simp only [findDescendantsForNonInsertedName,findDescendantsForNonInsertedNameBy,List.mem_map,mem_filter,List.isPrefixOf_iff_prefix]
  constructor
  · rintro ⟨e,⟨inside,front⟩,rfl⟩
    have present : rib.contains e.1 := mem_contains.mpr ⟨e.2,find_eq_some.mpr inside⟩
    refine ⟨present,front,fun same => ?_⟩
    rw [same,present] at missing
    cases missing
  · rintro ⟨present,front,_⟩
    obtain ⟨held,found⟩ := mem_contains.mp present
    exact ⟨(other,held),⟨find_eq_some.mp found,front⟩,rfl⟩

theorem findDescendants_nodup : (rib.findDescendants name).Nodup := by
  rw [findDescendants,findDescendantsBy]
  split
  · refine Nodup.sublist (Sublist.map _ ?_) rib.table.keys_nodup
    exact (takeWhile_sublist _).trans ((drop_sublist 1 _).trans (dropWhile_sublist _))
  · exact nodup_nil

theorem findDescendantsForNonInsertedName_nodup : (rib.findDescendantsForNonInsertedName name).Nodup :=
  Nodup.sublist (Sublist.map _ filter_sublist) rib.table.keys_nodup

structure Linked (rib : Rib) : Prop where
  consistent : Forest.Consistent rib.parentOf rib.childrenOf
  parents : ∀ n, rib.contains n → rib.parentOf n = rib.findParent n

structure Sound (rib : Rib) : Prop where
  linked : Linked rib
  counted : rib.nItems = rib.table.total (fun e => e.routes.length)
  occupied : ∀ n e, rib.find n = some e → e.routes ≠ []

section
variable (missing : rib.contains name = false)
include missing

theorem find_of_missing : rib.find name = none :=
  not_isSome_iff_eq_none.mp (Bool.eq_false_iff.mp missing)

theorem parentOf_of_missing : rib.parentOf name = none := by
  rw [parentOf,find_of_missing missing]
  rfl

theorem childrenOf_of_missing : rib.childrenOf name = [] := by
  rw [childrenOf,find_of_missing missing]
  rfl

end

theorem contains_put : (rib.put name entry).contains = update rib.contains name true := view_put Option.isSome rib name entry

theorem Linked.above (linked : Linked rib) (there : rib.contains name) (up : Name) (hung : rib.parentOf name = some up) :
    rib.contains up ∧ up <+: name ∧ up ≠ name := by
  have near := nearest_eq_some.mp ((linked.parents name there).symm.trans hung)
  exact ⟨near.inside,near.front,near.proper⟩

theorem findParent_above (up : Name) (found : rib.findParent name = some up) : rib.contains up ∧ up <+: name ∧ up ≠ name := by
  have near := nearest_eq_some.mp found
  exact ⟨near.inside,near.front,near.proper⟩

theorem insertRoute_links (e : RibEntry) (route : Route) :
    (e.insertRoute route).1.parent = e.parent ∧ (e.insertRoute route).1.children = e.children := by
  rw [RibEntry.insertRoute]
  split <;> exact ⟨rfl,rfl⟩

theorem insertEntry_exact (route : Route) (linked : Linked rib) (missing : rib.contains name = false) :
    ∃ after, rib.insertEntry name route = some after ∧ Linked after ∧
      after.stock = stock { rib.put name (RibEntry.blank.insertRoute route).1 with nItems := rib.nItems + 1 } := by
  obtain ⟨noParent,noChildren⟩ := insertRoute_links .blank route
  generalize new : (RibEntry.blank.insertRoute route).1 = entry at *
  have parents : (rib.put name entry).parentOf = rib.parentOf := by
    rw [parentOf_put,noParent]
    exact update_eq_self_iff.mpr (parentOf_of_missing missing).symm
  have children : (rib.put name entry).childrenOf = rib.childrenOf := by
    rw [childrenOf_put,noChildren]
    exact update_eq_self_iff.mpr (childrenOf_of_missing missing).symm
  generalize placedEq : Rib.mk (rib.put name entry).table (rib.nItems + 1) (rib.put name entry).cancelled = placed
  have containsP : placed.contains = update rib.contains name true := by rw [← placedEq]; exact contains_put
  have parentsP : placed.parentOf = rib.parentOf := by rw [← placedEq]; exact parents
  have consistentP : Forest.Consistent placed.parentOf placed.childrenOf := by
    have childrenP : placed.childrenOf = rib.childrenOf := by rw [← placedEq]; exact children
    rw [parentsP,childrenP]
    exact linked.consistent
  have hereP : placed.contains name := by rw [containsP,update_self]
  have parentP : placed.findParent name = rib.findParent name := by
    refine nearest_congr (fun q _ proper => ?_)
    rw [containsP,update_of_ne proper]
  have aboveP : ∀ up, placed.findParent name = some up → placed.contains up ∧ up ≠ name :=
    fun up found => ⟨(findParent_above up found).1,(findParent_above up found).2.2⟩
  obtain ⟨joined,took,bound⟩ := joinParent_exact _ consistentP hereP aboveP (by rw [parentsP]; exact parentOf_of_missing missing)
  have containsJ := contains_of_stock bound.stock
  have hereJ : joined.contains name := containsJ ▸ hereP
  have below : ∀ c ∈ joined.findDescendants name, joined.contains c ∧ c ≠ name ∧ placed.findParent name ≠ some c := by
    intro c inside
    obtain ⟨present,front,proper⟩ := (mem_findDescendants hereJ).mp inside
    refine ⟨present,Ne.symm proper,fun given => ?_⟩
    exact proper (front.eq_of_length_le (findParent_above c given).2.1.length_le)
  obtain ⟨after,adopted,consistentA,stockA,parentsA⟩ := adopt_exact (placed.findParent name) name (joined.findDescendants name) bound.consistent
    findDescendants_nodup below hereJ (containsJ ▸ aboveP)
  have computed : rib.insertEntry name route = some after := by
    rw [insertEntry,insertEntryBy,new]
    rw [placedEq,took]
    exact adopted
  refine ⟨after,computed,⟨consistentA,fun n there => ?_⟩,by rw [stockA,bound.stock,← placedEq]⟩
  have containsA : after.contains = update rib.contains name true := by rw [contains_of_stock stockA,containsJ,containsP]
  have found : after.findParent n = if name <+: n ∧ name ≠ n ∧ rib.findParent n = rib.findParent name then some name else rib.findParent n := by
    rw [findParent,containsA]
    exact nearest_insert missing
  have listed : n ∈ joined.findDescendants name ↔ joined.contains n ∧ name <+: n ∧ name ≠ n := mem_findDescendants hereJ
  rw [parentsA,found,bound.parents,parentsP,parentP]
  by_cases here : n = name
  · subst here
    rw [if_neg (fun both => (listed.mp both.1).2.2 rfl),if_neg (fun both => both.2.1 rfl),update_self]
  · have old : rib.contains n := by
      rw [containsA,update_of_ne here] at there
      exact there
    have presentJ : joined.contains n := by rw [containsJ,containsP,update_of_ne here,old]
    rw [update_of_ne here,linked.parents n old]
    refine if_congr ⟨fun both => ⟨(listed.mp both.1).2.1,(listed.mp both.1).2.2,both.2⟩,fun both => ⟨listed.mpr ⟨presentJ,both.1,both.2.1⟩,both.2.2⟩⟩ rfl rfl

theorem eraseEntry_exact (linked : Linked rib) (found : rib.find name = some entry) :
    ∃ after, rib.eraseEntry name = some after ∧ Linked after ∧ after.contents = update rib.contents name none ∧
      after.nItems = rib.nItems ∧ after.cancelled = rib.cancelled ∧
      after.table.total (fun e => e.routes.length) + entry.routes.length = rib.table.total (fun e => e.routes.length) := by
  have here : rib.contains name := mem_contains.mpr ⟨entry,found⟩
  have parentIs := parent_of_find found
  have childrenAre := children_of_find found
  have aboveName : ∀ up, entry.parent = some up → rib.contains up ∧ up ≠ name := fun up given =>
    ⟨(linked.above here up (parentIs.trans given)).1,(linked.above here up (parentIs.trans given)).2.2⟩
  obtain ⟨free,left,freed⟩ := leaveParent_exact entry.parent linked.consistent here aboveName parentIs
  have containsF := contains_of_stock freed.stock
  have hereF : free.contains name := containsF ▸ here
  have below : ∀ c ∈ entry.children, free.contains c ∧ c ≠ name ∧ entry.parent ≠ some c ∧ free.parentOf c = some name := by
    intro c inside
    have hung := (linked.consistent.listed name c).mp (childrenAre ▸ inside)
    have present : rib.contains c := by
      cases there : rib.contains c with
      | true => rfl
      | false => cases (parentOf_of_missing there).symm.trans hung
    obtain ⟨_,front,proper⟩ := linked.above present name hung
    refine ⟨containsF ▸ present,Ne.symm proper,fun given => ?_,?_⟩
    · exact proper (front.eq_of_length_le (linked.above here c (parentIs.trans given)).2.1.length_le)
    · rw [freed.parents,update_of_ne (Ne.symm proper)]
      exact hung
  obtain ⟨between,handed,consistentB,stockH,parentsB⟩ := handOver_exact entry.parent name entry.children freed.consistent
    (childrenAre ▸ linked.consistent.distinct name) below hereF (fun up given => containsF ▸ (aboveName up given).1)
  have stockB := stockH.trans freed.stock
  have parents : ∀ n, n ≠ name → between.parentOf n = if rib.parentOf n = some name then entry.parent else rib.parentOf n := by
    intro n apart
    rw [parentsB,freed.parents,update_of_ne apart,← childrenAre]
    exact if_congr (linked.consistent.listed name n) rfl rfl
  have unhung : between.parentOf name = none := by
    rw [parentsB,freed.parents,update_self,if_neg (fun inside => (below name inside).2.1 rfl)]
  have childless : between.childrenOf name = [] := by
    refine eq_nil_iff_forall_not_mem.mpr (fun c inside => ?_)
    have hung := (consistentB.listed name c).mp inside
    by_cases apart : c = name
    · rw [apart,unhung] at hung
      cases hung
    · rw [parents c apart] at hung
      split at hung
      · exact (aboveName name hung).2 rfl
      · rename_i other
        exact other hung
  have sameParents := (view_erase (·.bind RibEntry.parent) between name).trans (update_eq_self_iff.mpr unhung.symm)
  have sameChildren := (view_erase (fun e => (e.map RibEntry.children).getD []) between name).trans (update_eq_self_iff.mpr childless.symm)
  have fewer : contains { between with table := between.table.erase name } = update rib.contains name false := by
    rw [← contains_of_stock stockB]
    exact view_erase Option.isSome between name
  refine ⟨{ between with table := between.table.erase name },?_,⟨?_,fun n there => ?_⟩,?_,congrArg (fun s => s.2.1) stockB,
    congrArg (fun s => s.2.2) stockB,?_⟩
  · rw [eraseEntry,found]
    simp only [left,handed,bind_eq_bind,bind_some]
  · rw [show parentOf _ = _ from sameParents,show childrenOf _ = _ from sameChildren]
    exact consistentB
  · have apart : n ≠ name := by
      rintro rfl
      rw [fewer,update_self] at there
      cases there
    have old : rib.contains n := by
      rw [fewer,update_of_ne apart] at there
      exact there
    have nearer : findParent { between with table := between.table.erase name } n =
        if rib.findParent n = some name then rib.findParent name else rib.findParent n := by
      rw [findParent,fewer]
      exact nearest_erase
    rw [nearer,← linked.parents n old,← linked.parents name here,parentIs,← parents n apart]
    exact congrFun sameParents n
  · rw [← contents_of_stock stockB]
    exact view_erase (·.map RibEntry.contents) between name
  · have erased := total_erase (fun e : RibEntry => e.routes.length) between.table name
    have seen : between.contents name = some entry.contents := by rw [contents_of_stock stockB,contents,found,map_some]
    obtain ⟨last,foundLast,same⟩ := map_eq_some_iff.mp seen
    have routes : last.routes = entry.routes := congrArg Prod.fst same
    rwa [show between.table.find name = some last from foundLast,map_some,getD_some,routes,total_of_stock stockB] at erased

theorem Linked.alike (linked : Linked rib) (parents : after.parentOf = rib.parentOf) (children : after.childrenOf = rib.childrenOf)
    (contains : after.contains = rib.contains) : Linked after := by
  refine ⟨?_,fun n there => ?_⟩
  · rw [parents,children]
    exact linked.consistent
  · rw [parents,findParent,contains]
    exact linked.parents n (contains ▸ there)

theorem Linked.congr (linked : Linked rib) (same : after.table = rib.table) : Linked after := by
  obtain ⟨_,_,_⟩ := after
  cases same
  exact linked.alike rfl rfl rfl

theorem Linked.put (linked : Linked rib) (found : rib.find name = some old) (parent : entry.parent = old.parent)
    (children : entry.children = old.children) : Linked (rib.put name entry) := by
  have here : rib.contains name := mem_contains.mpr ⟨old,found⟩
  refine linked.alike ?_ ?_ ?_
  · rw [parentOf_put,parent,← parent_of_find found,update_eq_self]
  · rw [childrenOf_put,children,← children_of_find found,update_eq_self]
  · rw [contains_put,← here,update_eq_self]

theorem occupied_put (occupied : ∀ n e, rib.find n = some e → e.routes ≠ []) (nonempty : entry.routes ≠ []) :
    ∀ n e, (rib.put name entry).find n = some e → e.routes ≠ [] := by
  intro n e found
  rw [find_put] at found
  split at found
  · cases found
    exact nonempty
  · exact occupied n e found

theorem occupied_of_contents (occupied : ∀ n e, rib.find n = some e → e.routes ≠ []) (old : ∀ n c, after.contents n = some c → rib.contents n = some c) :
    ∀ n e, after.find n = some e → e.routes ≠ [] := by
  intro n e found
  obtain ⟨before,foundOld,same⟩ := map_eq_some_iff.mp (old n e.contents (congrArg (Option.map RibEntry.contents) found))
  have routes : before.routes = e.routes := congrArg Prod.fst same
  exact routes ▸ occupied n before foundOld

theorem total_put (rib : Rib) (name : Name) (entry : RibEntry) :
    (rib.put name entry).table.total (fun e => e.routes.length) + ((rib.find name).map (fun e => e.routes.length)).getD 0 =
      rib.table.total (fun e => e.routes.length) + entry.routes.length := total_insert ..

theorem Sound.put (sound : Sound rib) (found : rib.find name = some old)
    (parent : entry.parent = old.parent) (children : entry.children = old.children) (nonempty : entry.routes ≠ [])
    (count : items + old.routes.length = rib.nItems + entry.routes.length) : Sound ⟨(rib.put name entry).table,items,events⟩ := by
  have total := total_put rib name entry
  rw [found,map_some,getD_some,← sound.counted] at total
  refine ⟨(sound.linked.put found parent children).congr rfl,?_,occupied_put sound.occupied nonempty⟩
  show items = (rib.put name entry).table.total (fun e => e.routes.length)
  omega

theorem insertRoute_routes {e : RibEntry} (new : e.findRoute route = none) : (e.insertRoute route).1.routes = e.routes ++ [route] := by
  rw [RibEntry.insertRoute,new]
  rfl

theorem length_assign (route : Route) (routes : List Route) : (RibEntry.assign route routes).length = routes.length := by
  induction routes with
  | nil => rfl
  | cons r later ih =>
    rw [RibEntry.assign]
    split
    · rfl
    · rw [length_cons,length_cons,ih]

theorem length_eraseRoute {e : RibEntry} (found : e.findRoute route = some existing) :
    (e.eraseRoute route).routes.length + 1 = e.routes.length ∧ (e.eraseRoute route).parent = e.parent ∧
      (e.eraseRoute route).children = e.children := by
  rw [RibEntry.eraseRoute,found]
  refine ⟨?_,rfl,rfl⟩
  have inside := mem_of_find?_eq_some found
  have matched := List.find?_some found
  have positive := length_pos_of_mem inside
  have shorter : (e.routes.eraseP (compareFaceIdAndOrigin · route)).length = e.routes.length - 1 := length_eraseP_of_mem inside matched
  simp only
  omega

theorem withRoute_new {e : RibEntry} (new : e.findRoute route = none) : e.withRoute route = (e.insertRoute route).1 := by
  rw [RibEntry.withRoute,new]
  rfl

theorem withRoute_old {e : RibEntry} (found : e.findRoute route = some existing) : e.withRoute route = e.assignRoute route := by
  rw [RibEntry.withRoute,found]
  rfl

theorem insert_exact (sound : Sound rib) (name : Name) (route : Route) : ∃ after, rib.insert name route = some after ∧ Sound after ∧
    after.contents = update rib.contents name (some (((rib.find name).getD .blank).withRoute route).contents) ∧
    after.cancelled = rib.cancelled ++ ((rib.stored name route).bind Route.expirationEvent).toList := by
  rw [insert,insertBy,stored]
  cases found : rib.find name with
  | none =>
    have missing : rib.contains name = false := by rw [contains,found]; rfl
    obtain ⟨after,inserted,linked,stock⟩ := insertEntry_exact route sound.linked missing
    have routes : (RibEntry.blank.insertRoute route).1.routes = [route] := rfl
    have more := total_put rib name (RibEntry.blank.insertRoute route).1
    rw [found,routes] at more
    refine ⟨after,inserted,⟨linked,?_,?_⟩,?_,?_⟩
    · have items : after.nItems = rib.nItems + 1 := congrArg (fun s => s.2.1) stock
      rw [items,total_of_stock stock,sound.counted]
      exact more.symm
    · exact occupied_of_contents (occupied_put sound.occupied (by rw [routes]; exact cons_ne_nil _ _))
        (fun n c seen => (congrFun (contents_of_stock stock) n).symm.trans seen)
    · rw [contents_of_stock stock]
      exact contents_put rib name _
    · have events : after.cancelled = rib.cancelled := congrArg (fun s => s.2.2) stock
      rw [events]
      exact (append_nil _).symm
  | some entry =>
    cases existing : entry.findRoute route with
    | none =>
      have routes := insertRoute_routes existing
      have links := insertRoute_links entry route
      refine ⟨{ rib.put name (entry.insertRoute route).1 with nItems := rib.nItems + 1 },by simp only [existing],
        sound.put found links.1 links.2 (by rw [routes]; simp) ?_,?_,?_⟩
      · rw [routes,length_append,length_singleton]
        omega
      · rw [getD_some,withRoute_new existing]
        exact contents_put rib name _
      · rw [bind_some,existing]
        exact (append_nil _).symm
    | some old =>
      have routes : (entry.assignRoute route).routes.length = entry.routes.length := length_assign route entry.routes
      refine ⟨{ rib.put name (entry.assignRoute route) with cancelled := rib.cancelled ++ old.expirationEvent.toList },by simp only [existing],
        sound.put found rfl rfl (fun empty => sound.occupied name entry found ?_) (congrArg (rib.nItems + ·) routes.symm),?_,?_⟩
      · rw [empty] at routes
        exact length_eq_zero_iff.mp routes.symm
      · rw [getD_some,withRoute_old existing]
        exact contents_put rib name _
      · rw [bind_some,existing]
        rfl

def remains (rib : Rib) (name : Name) (route : Route) : Option (List Route × UInt64 × List Route) :=
  (rib.find name).bind (fun e => if (e.eraseRoute route).routes = [] then none else some (e.eraseRoute route).contents)

theorem remains_of_find (route : Route) (found : rib.find name = some entry) :
    rib.remains name route = if (entry.eraseRoute route).routes = [] then none else some (entry.eraseRoute route).contents := by
  rw [remains,found]
  rfl

theorem erase_exact (sound : Sound rib) (name : Name) (route : Route) : ∃ after, rib.erase name route = some after ∧ Sound after ∧
    after.contents = update rib.contents name (rib.remains name route) ∧
    after.cancelled = rib.cancelled ++ ((rib.stored name route).bind Route.expirationEvent).toList := by
  rw [erase,stored]
  cases found : rib.find name with
  | none =>
    refine ⟨rib,rfl,sound,?_,(append_nil _).symm⟩
    exact (update_eq_self_iff.mpr (by rw [remains,contents,found]; rfl)).symm
  | some entry =>
    cases existing : entry.findRoute route with
    | none =>
      have same : entry.eraseRoute route = entry := by rw [RibEntry.eraseRoute,existing]
      refine ⟨rib,by simp only [existing],sound,?_,?_⟩
      · refine (update_eq_self_iff.mpr ?_).symm
        rw [remains_of_find route found,same,if_neg (sound.occupied name entry found),contents,found]
        rfl
      · rw [bind_some,existing]
        exact (append_nil _).symm
    | some old =>
      obtain ⟨shorter,parent,children⟩ := length_eraseRoute existing
      have fewer := total_put rib name (entry.eraseRoute route)
      rw [found,map_some,getD_some,← sound.counted] at fewer
      have written := contents_put rib name (entry.eraseRoute route)
      have left := remains_of_find route found
      simp only [existing]
      generalize entry.eraseRoute route = remaining at *
      split
      · rename_i empty
        have linked : Linked ⟨(rib.put name remaining).table,rib.nItems - 1,rib.cancelled ++ old.expirationEvent.toList⟩ :=
          (sound.linked.put found parent children).congr rfl
        obtain ⟨after,erased,linkedA,contentsA,itemsA,cancelledA,totalA⟩ :=
          eraseEntry_exact linked ((find_put rib name name remaining).trans (if_pos rfl))
        have contents : after.contents = update rib.contents name none := by
          refine contentsA.trans ?_
          show update (rib.put name remaining).contents name none = _
          rw [written,update_idem]
        refine ⟨after,erased,⟨linkedA,?_,occupied_of_contents sound.occupied (fun n c seen => ?_)⟩,?_,?_⟩
        · rw [empty,length_nil] at totalA fewer
          refine itemsA.trans ?_
          show rib.nItems - 1 = after.table.total (fun e => e.routes.length)
          have same : after.table.total (fun e => e.routes.length) = (rib.put name remaining).table.total (fun e => e.routes.length) := totalA
          rw [empty,length_nil] at shorter
          omega
        · rw [contents,update_apply] at seen
          split at seen
          · cases seen
          · exact seen
        · rw [left,if_pos empty]
          exact contents
        · rw [bind_some,existing]
          exact cancelledA
      · rename_i nonempty
        refine ⟨_,rfl,sound.put found parent children nonempty (by omega),?_,?_⟩
        · rw [left,if_neg nonempty]
          exact written
        · rw [bind_some,existing]
          rfl

theorem step_exact (sound : Sound rib) (taken : rib.step call = some after) :
    Sound after ∧ ∃ contents, after.contents = update rib.contents call.name contents := by
  cases call with
  | insert name route =>
    obtain ⟨_,inserted,soundA,written,_⟩ := insert_exact sound name route
    cases inserted.symm.trans taken
    exact ⟨soundA,_,written⟩
  | erase name route =>
    obtain ⟨_,erased,soundA,written,_⟩ := erase_exact sound name route
    cases erased.symm.trans taken
    exact ⟨soundA,_,written⟩

theorem Reached.sound (reached : Reached rib) : Sound rib := by
  refine Transition.Reached.invariant ?_ (fun before call later soundB taken => (step_exact soundB taken).1) reached
  rintro _ rfl
  exact ⟨⟨⟨fun _ => nodup_nil,fun _ _ => ⟨nofun,nofun⟩⟩,nofun⟩,rfl,nofun⟩

theorem takeWhile_congr {p q : α → Bool} {xs : List α} (same : ∀ x ∈ xs, p x = q x) : xs.takeWhile p = xs.takeWhile q := by
  induction xs with
  | nil => rfl
  | cons x rest ih =>
    rw [forall_mem_cons] at same
    rw [takeWhile_cons,takeWhile_cons,same.1,ih same.2]

theorem isPrefixOfDecoded_shortest (shortest : name.Shortest) (below : other.Shortest) : name.isPrefixOfDecoded other = name.isPrefixOf other := by
  rw [Name.isPrefixOfDecoded,Name.decoded_shortest shortest,Name.decoded_shortest below]

theorem contains_entry {e : Name × RibEntry} (inside : e ∈ rib.table.entries) : rib.contains e.1 := mem_contains.mpr ⟨e.2,find_eq_some.mpr inside⟩

section
variable (names : ∀ n, rib.contains n → n.Shortest) (shortest : name.Shortest)
include names shortest

theorem findDescendantsBy_shortest : rib.findDescendantsBy name Name.isPrefixOfDecoded = rib.findDescendants name := by
  have same : ((rib.table.entries.dropWhile (fun e => e.1 ≠ name)).drop 1).takeWhile (fun e => name.isPrefixOfDecoded e.1) =
      ((rib.table.entries.dropWhile (fun e => e.1 ≠ name)).drop 1).takeWhile (fun e => name.isPrefixOf e.1) := by
    refine takeWhile_congr (fun e inside => isPrefixOfDecoded_shortest shortest (names _ (contains_entry ?_)))
    exact (dropWhile_sublist _).subset (mem_of_mem_drop inside)
  rw [findDescendantsBy,same]
  rfl

theorem findDescendantsForNonInsertedNameBy_shortest :
    rib.findDescendantsForNonInsertedNameBy name Name.isPrefixOfDecoded = rib.findDescendantsForNonInsertedName name := by
  have same : rib.table.entries.filter (fun e => name.isPrefixOfDecoded e.1) = rib.table.entries.filter (fun e => name.isPrefixOf e.1) :=
    filter_congr (fun e inside => isPrefixOfDecoded_shortest shortest (names _ (contains_entry inside)))
  rw [findDescendantsForNonInsertedNameBy,same]
  rfl

end

theorem contains_put_found (found : rib.find name = some old) : (rib.put name entry).contains = rib.contains := by
  rw [contains_put]
  exact update_eq_self_iff.mpr (mem_contains.mpr ⟨old,found⟩).symm

theorem joinParent_contains (joined : rib.joinParent parent child = some after) : after.contains = rib.contains := by
  cases parent with
  | none =>
    cases joined
    rfl
  | some up =>
    obtain ⟨entry,found,rest⟩ := bind_eq_some_iff.mp joined
    obtain ⟨_,rest⟩ := ite_none_right_eq_some.mp rest
    obtain ⟨above,foundUp,rest⟩ := bind_eq_some_iff.mp rest
    cases rest
    rw [contains_put_found foundUp,contains_put_found found]

theorem stepBy_shortest (names : ∀ n, rib.contains n → n.Shortest) (call : RibCall) (shortest : call.name.Shortest) :
    rib.stepBy Name.isPrefixOfDecoded call = rib.step call := by
  cases call with
  | erase name route => rfl
  | insert name route =>
    rw [step,stepBy,stepBy,insertBy,insertBy]
    split
    · rfl
    · rw [insertEntryBy,insertEntryBy]
      refine Option.bind_congr (fun joined taken => ?_)
      refine congrArg _ (findDescendantsBy_shortest (fun n there => ?_) shortest)
      rw [joinParent_contains taken] at there
      have inside : (rib.put name (RibEntry.blank.insertRoute route).1).contains n := there
      rw [contains_put,update_apply] at inside
      split at inside
      · rename_i here
        exact here ▸ shortest
      · exact names n inside

theorem contains_written {contents : Option (List Route × UInt64 × List Route)} (written : after.contents = update rib.contents name contents) :
    after.contains = update rib.contains name contents.isSome := by
  have seen : ∀ r : Rib, r.contains = isSome ∘ r.contents := fun r => funext fun n => isSome_map.symm
  rw [seen,written,comp_update,seen]

theorem ReachedShortest.reached (reached : ReachedShortest rib) : Reached rib ∧ ∀ n, rib.contains n → n.Shortest := by
  refine Transition.Reached.invariant (P := fun r => Reached r ∧ ∀ n, r.contains n → n.Shortest) ?_ (fun before call later kept taken => ?_) reached
  · rintro _ rfl
    exact ⟨.start rfl,nofun⟩
  · obtain ⟨earlier,names⟩ := kept
    obtain ⟨shortest,ran⟩ := ite_none_right_eq_some.mp taken
    rw [stepBy_shortest names call shortest] at ran
    refine ⟨earlier.next ran,fun n there => ?_⟩
    by_cases here : n = call.name
    · exact here ▸ shortest
    · obtain ⟨contents,written⟩ := (step_exact earlier.sound ran).2
      rw [contains_written written,update_of_ne here] at there
      exact names n there

-- With names in their shortest encoding each entry's parent is the one of its
-- longest proper front that has an entry, the children are its inverse, routes are
-- counted and no entry is without one, and the two searches return the names below
-- a name. Both calls can be made, so that no assertion fails.
theorem rib_tree (reached : ReachedShortest rib) :
    (∀ name entry, rib.find name = some entry → name.decoded = name ∧
      (∀ up, entry.parent = some up ↔ IsNearest rib.contains name up) ∧
      (entry.parent = none ↔ ∀ up, up <+: name → up ≠ name → rib.contains up = false) ∧
      entry.children.Nodup ∧ (∀ child, child ∈ entry.children ↔ ∃ below, rib.find child = some below ∧ below.parent = some name) ∧
      entry.routes ≠ []) ∧
    rib.nItems = (rib.table.entries.map (fun e => e.2.routes.length)).sum ∧
    (∀ name, name.Shortest → (rib.contains name → (rib.findDescendantsBy name Name.isPrefixOfDecoded).Nodup ∧
        ∀ other, other ∈ rib.findDescendantsBy name Name.isPrefixOfDecoded ↔
          rib.contains other ∧ name.decoded <+: other.decoded ∧ name.decoded ≠ other.decoded) ∧
      (rib.contains name = false → (rib.findDescendantsForNonInsertedNameBy name Name.isPrefixOfDecoded).Nodup ∧
        ∀ other, other ∈ rib.findDescendantsForNonInsertedNameBy name Name.isPrefixOfDecoded ↔
          rib.contains other ∧ name.decoded <+: other.decoded ∧ name.decoded ≠ other.decoded)) ∧
    ∀ name route, name.Shortest → (∃ after, rib.insertBy name route Name.isPrefixOfDecoded = some after) ∧ ∃ after, rib.erase name route = some after := by
  obtain ⟨plain,names⟩ := reached.reached
  have sound := plain.sound
  have below : ∀ name other : Name, name.Shortest → (rib.contains other ∧ name <+: other ∧ name ≠ other ↔
      rib.contains other ∧ name.decoded <+: other.decoded ∧ name.decoded ≠ other.decoded) := by
    refine fun name other shortest => and_congr_right (fun there => ?_)
    rw [Name.decoded_shortest shortest,Name.decoded_shortest (names other there)]
  refine ⟨fun name entry found => ?_,sound.counted,fun name shortest => ?_,fun name route shortest => ⟨?_,?_⟩⟩
  · have here : rib.contains name := mem_contains.mpr ⟨entry,found⟩
    have parent : entry.parent = nearest rib.contains name := (parent_of_find found).symm.trans (sound.linked.parents name here)
    have distinct := sound.linked.consistent.distinct name
    rw [children_of_find found] at distinct
    refine ⟨Name.decoded_shortest (names name here),fun up => by rw [parent,nearest_eq_some],by rw [parent,nearest_eq_none],distinct,
      fun child => ?_,sound.occupied name entry found⟩
    rw [← children_of_find found,sound.linked.consistent.listed name child]
    exact bind_eq_some_iff
  · rw [findDescendantsBy_shortest names shortest,findDescendantsForNonInsertedNameBy_shortest names shortest]
    exact ⟨fun there => ⟨findDescendants_nodup,fun other => (mem_findDescendants there).trans (below name other shortest)⟩,
      fun missing => ⟨findDescendantsForNonInsertedName_nodup,
        fun other => (mem_findDescendantsForNonInsertedName missing).trans (below name other shortest)⟩⟩
  · obtain ⟨after,inserted,_⟩ := insert_exact sound name route
    exact ⟨after,(stepBy_shortest names (.insert name route) shortest).trans inserted⟩
  · obtain ⟨after,erased,_⟩ := erase_exact sound name route
    exact ⟨after,erased⟩

theorem rib_tree_between : ∃ rib, ReachedShortest rib ∧ rib.table.keys = [[],[⟨8,[97]⟩],[⟨8,[97]⟩,⟨8,[98]⟩]] ∧
    ∃ entry, rib.find [⟨8,[97]⟩,⟨8,[98]⟩] = some entry ∧ (entry.parent = some [⟨8,[97]⟩] ↔ IsNearest rib.contains [⟨8,[97]⟩,⟨8,[98]⟩] [⟨8,[97]⟩]) := by
  obtain ⟨rib,taken,names,entry,found,_⟩ : ∃ rib ∈ Transition.run (fun rib call => if call.name.Shortest then rib.stepBy Name.isPrefixOfDecoded call else none)
    empty [.insert [] ⟨1,0,0,0,none,none⟩,
      .insert [⟨8,[97]⟩,⟨8,[98]⟩] ⟨1,0,0,0,none,none⟩,.insert [⟨8,[97]⟩] ⟨1,0,0,0,none,none⟩],
    rib.table.keys = [[],[⟨8,[97]⟩],[⟨8,[97]⟩,⟨8,[98]⟩]] ∧ ∃ entry ∈ rib.find [⟨8,[97]⟩,⟨8,[98]⟩], True := by decide
  have reached : ReachedShortest rib := Transition.run_reached (.start rfl) taken
  exact ⟨rib,reached,names,entry,found,((rib_tree reached).1 _ entry found).2.1 _⟩

-- The third name lies below the first, but its octets do not begin with those of the
-- first and come after those of the second.
theorem rib_tree_missed : (WireName.wireDecode [7,8,253,0,8,1,65,8,1,66]).map WireName.key = some [⟨0,[253,0,8,1,65]⟩,⟨8,[66]⟩] ∧
    ∃ rib ∈ Transition.run (fun rib => rib.stepBy Name.isPrefixOfDecoded) empty [.insert [⟨8,[65]⟩] ⟨1,0,0,0,none,none⟩,
        .insert [⟨8,[66]⟩] ⟨1,0,0,0,none,none⟩,.insert [⟨0,[253,0,8,1,65]⟩,⟨8,[66]⟩] ⟨1,0,0,0,none,none⟩],
      rib.table.keys = [[⟨8,[65]⟩],[⟨8,[66]⟩],[⟨0,[253,0,8,1,65]⟩,⟨8,[66]⟩]] ∧
      Name.isPrefixOfDecoded [⟨8,[65]⟩] [⟨0,[253,0,8,1,65]⟩,⟨8,[66]⟩] ∧ rib.parentOf [⟨0,[253,0,8,1,65]⟩,⟨8,[66]⟩] = none ∧
      rib.findDescendantsBy [⟨8,[65]⟩] Name.isPrefixOfDecoded = [] := by decide

end Rib

end ReflexiveNfd

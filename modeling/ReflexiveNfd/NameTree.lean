import ReflexiveNfd.Lib.Forest
import ReflexiveNfd.Lib.Vectors
import ReflexiveNfd.Hashtable

namespace ReflexiveNfd
open Vectors List Option Function Forest

-- The tables that attach entries to the tree; all but the PIT attach at most one
-- to a tree entry.
inductive Table where
  | fib
  | pit
  | measurements
  | strategyChoice
  deriving DecidableEq, Repr

inductive Slot where
  | fib
  | measurements
  | strategyChoice
  deriving DecidableEq, Repr

def Slot.table : Slot → Table
  | .fib => .fib
  | .measurements => .measurements
  | .strategyChoice => .strategyChoice

namespace TreeEntry

def slot (e : TreeEntry) : Slot → Option TableId
  | .fib => e.fibEntry
  | .measurements => e.measurementsEntry
  | .strategyChoice => e.strategyChoiceEntry

def setSlot (e : TreeEntry) (s : Slot) (new : Option TableId) : TreeEntry :=
  match s with
  | .fib => { e with fibEntry := new }
  | .measurements => { e with measurementsEntry := new }
  | .strategyChoice => { e with strategyChoiceEntry := new }

def entries (e : TreeEntry) : Table → List TableId
  | .fib => e.fibEntry.toList
  | .pit => e.pitEntries
  | .measurements => e.measurementsEntry.toList
  | .strategyChoice => e.strategyChoiceEntry.toList

def hasTableEntries (e : TreeEntry) : Bool :=
  e.fibEntry.isSome || !e.pitEntries.isEmpty || e.measurementsEntry.isSome || e.strategyChoiceEntry.isSome

def isEmpty (e : TreeEntry) : Bool := e.children.isEmpty && !e.hasTableEntries

end TreeEntry

structure NameTree where
  ht : Hashtable
  owner : Table → TableId → Option NodeId

namespace Hashtable
variable (hash : HashFunction) (options : HashtableOptions)

section
variable (t : Hashtable) (name : Name) (node : NodeId)

def setParent (node parent : NodeId) : Option Hashtable := do
  let this ← t.contents node
  let other ← t.contents parent
  if this.entry.parent = none ∧ this.entry.name ≠ [] ∧ other.entry.name = this.entry.name.dropLast then
    let linked ← t.write node (fun e => { e with parent := some parent })
    linked.write parent (fun e => { e with children := e.children ++ [node] })
  else none

def unsetParent : Option Hashtable := do
  let this ← t.contents node
  let parent ← this.entry.parent
  let other ← t.contents parent
  if node ∈ other.entry.children then
    let unlisted ← t.write parent (fun e => { e with children := e.children.erase node })
    unlisted.write node (fun e => { e with parent := none })
  else none

def lookupStep (hashes : List Nat) (s : Hashtable × Option NodeId) (i : Nat) : Option (Hashtable × Option NodeId) := do
  let (t,node,isNew) ← s.1.insert hash options name i hashes
  match isNew,node,s.2 with
  | true,some new,some parent => return (← t.setParent new parent,node)
  | _,_,_ => return (t,node)

def lookup (prefixLen : Nat) : Option (Hashtable × NodeId) :=
  if prefixLen ≤ name.length ∧ prefixLen ≤ maxDepth then do
    let (t,node) ← (List.range (prefixLen + 1)).foldlM (lookupStep hash options name (hash.computeHashes name prefixLen)) (t,none)
    return (t,← node)
  else none

def leaveParent (parent : Option NodeId) : Option Hashtable :=
  if parent.isSome then t.unsetParent node else some t

-- Names get shorter on the way up, so the depth limit bounds the loop.
def eraseLoop (canEraseAncestors : Bool) : Nat → Hashtable → Option NodeId → Nat → Option (Hashtable × Nat)
  | _,t,none,nErased => some (t,nErased)
  | 0,_,some _,_ => none
  | fuel + 1,t,some entry,nErased => do
      let this ← t.contents entry
      if this.entry.isEmpty then
        let unlinked ← t.leaveParent entry this.entry.parent
        let erased ← unlinked.erase options entry
        if canEraseAncestors then eraseLoop canEraseAncestors fuel erased this.entry.parent (nErased + 1)
        else some (erased,nErased + 1)
      else some (t,nErased)

def eraseIfEmpty (entry : NodeId) (canEraseAncestors : Bool) : Option (Hashtable × Nat) :=
  eraseLoop options canEraseAncestors (maxDepth + 1) t (some entry) 0

end

end Hashtable

namespace NameTree
variable (hash : HashFunction) (options : HashtableOptions)

def new : NameTree := ⟨Hashtable.new options,fun _ _ => none⟩

section
variable (tree : NameTree)

section
variable (name : Name) (prefixLen : Nat) (table : Table) (id : TableId) (node : NodeId) (new : Option TableId)

def getEntry : Option NodeId := tree.owner table id

def setOwner (node : Option NodeId) : NameTree :=
  { tree with owner := update tree.owner table (update (tree.owner table) id node) }

def write (f : TreeEntry → TreeEntry) : Option NameTree :=
  (tree.ht.write node f).map fun ht => { tree with ht := ht }

-- setFibEntry, setMeasurementsEntry and setStrategyChoiceEntry.
def setTableEntry (s : Slot) (node : NodeId) (new : Option TableId) : Option NameTree := do
  let this ← tree.ht.contents node
  if ∀ id ∈ new, tree.owner s.table id = none then
    let cleared := (this.entry.slot s).elim tree (tree.setOwner s.table · none)
    let stored ← cleared.write node (fun e => e.setSlot s new)
    return new.elim stored (stored.setOwner s.table · (some node))
  else none

def setFibEntry : Option NameTree := tree.setTableEntry .fib node new
def setMeasurementsEntry : Option NameTree :=
  tree.setTableEntry .measurements node new
def setStrategyChoiceEntry : Option NameTree :=
  tree.setTableEntry .strategyChoice node new

def insertPitEntry (id : EntryId) : Option NameTree :=
  if tree.owner .pit id = none then
    (tree.write node fun e => { e with pitEntries := e.pitEntries ++ [id] }).map (·.setOwner .pit id (some node))
  else none

def erasePitEntry (id : EntryId) : Option NameTree := do
  let this ← tree.ht.contents node
  if tree.owner .pit id = some node ∧ id ∈ this.entry.pitEntries then
    (tree.setOwner .pit id none).write node fun e => { e with pitEntries := eraseSwap e.pitEntries id }
  else none

def lookup : Option (NameTree × NodeId) :=
  (tree.ht.lookup hash options name prefixLen).map fun (ht,node) => ({ tree with ht := ht },node)

def eraseIfEmpty (entry : NodeId) (canEraseAncestors : Bool) : Option (NameTree × Nat) :=
  (tree.ht.eraseIfEmpty options entry canEraseAncestors).map fun (ht,nErased) => ({ tree with ht := ht },nErased)

def findExactMatch : Option (Option NodeId) :=
  if min name.length prefixLen > maxDepth then some none
  else tree.ht.find hash options name (min name.length prefixLen)

end

end

end NameTree

abbrev TreeNode.withChildren (n : TreeNode) (children : List NodeId) : TreeNode :=
  { n with entry := { n.entry with children := children } }

namespace Hashtable

section
variable (contents : NodeId → Option TreeNode)

def labelOf : NodeId → Option Name := Option.map (·.entry.name) ∘ contents
def parentOf : NodeId → Option NodeId := (Option.bind · (·.entry.parent)) ∘ contents
def childrenOf : NodeId → List NodeId := (Option.elim · [] (·.entry.children)) ∘ contents
def entriesOf : NodeId → Table → List TableId := (Option.elim · (fun _ => []) (·.entry.entries)) ∘ contents

-- The tree: an entry hangs below the entry of its name's prefix, and children
-- lists say the same from above.
structure Linked : Prop where
  labelled : Labelled (labelOf contents) (parentOf contents)
  consistent : Consistent (parentOf contents) (childrenOf contents)

end

variable {hash : HashFunction} {t : Hashtable} {contents : NodeId → Option TreeNode} {n m : TreeNode} {name : Name}

theorem holds_label : Holds contents name a ↔ labelOf contents a = some name := by simp [Holds,labelOf]

section
variable (sound : Sound hash t) (held : t.contents a = some n) (there : t.contents p = some m)
include sound held there

theorem setParent_exact (loose : n.entry.parent = none) (nonempty : n.entry.name ≠ []) (above : m.entry.name = n.entry.name.dropLast) :
    ∃ u, t.setParent a p = some u ∧ Sound hash u ∧
      u.contents = update (update t.contents a (some { n with entry := { n.entry with parent := some p } })) p
        (some (m.withChildren (m.entry.children ++ [a]))) := by
  have apart : p ≠ a := by
    rintro rfl
    cases held.symm.trans there
    have shorter := congrArg List.length above
    rw [length_dropLast] at shorter
    have := length_pos_iff.mpr nonempty
    omega
  obtain ⟨v,first,soundFirst,contentsFirst⟩ := write_exact sound held (f := fun e => { e with parent := some p }) rfl
  have still : v.contents p = some m := by rw [contentsFirst,update_of_ne apart,there]
  obtain ⟨u,second,soundSecond,contentsSecond⟩ := write_exact soundFirst still (f := fun e => { e with children := e.children ++ [a] }) rfl
  refine ⟨u,?_,soundSecond,contentsSecond.trans (by rw [contentsFirst])⟩
  simp [setParent,held,there,loose,nonempty,above,first,second]

theorem unsetParent_exact (apart : p ≠ a)
    (hung : n.entry.parent = some p) (listed : a ∈ m.entry.children) :
    ∃ u, t.unsetParent a = some u ∧ Sound hash u ∧
      u.contents = update (update t.contents p (some (m.withChildren (m.entry.children.erase a)))) a
        (some { n with entry := { n.entry with parent := none } }) := by
  obtain ⟨v,first,soundFirst,contentsFirst⟩ := write_exact sound there (f := fun e => { e with children := e.children.erase a }) rfl
  have still : v.contents a = some n := by rw [contentsFirst,update_of_ne apart.symm,held]
  obtain ⟨u,second,soundSecond,contentsSecond⟩ := write_exact soundFirst still (f := fun e => { e with parent := none }) rfl
  refine ⟨u,?_,soundSecond,contentsSecond.trans (by rw [contentsFirst])⟩
  simp [unsetParent,held,there,hung,listed,first,second]

end

section
variable (new : Option TreeNode)
include new

theorem labelOf_update :
    labelOf (update contents a new) = update (labelOf contents) a (new.map (·.entry.name)) := comp_update ..

theorem parentOf_update :
    parentOf (update contents a new) = update (parentOf contents) a (new.bind (·.entry.parent)) := comp_update ..

theorem childrenOf_update :
    childrenOf (update contents a new) = update (childrenOf contents) a (new.elim [] (·.entry.children)) :=
  comp_update ..

theorem entriesOf_update :
    entriesOf (update contents a new) = update (entriesOf contents) a (new.elim (fun _ => []) (·.entry.entries)) :=
  comp_update ..

end

theorem update_same [DecidableEq α] (x : α) (same : f x = y) : update f x y = f := by
  rw [← same,update_eq_self]

theorem Linked.addRoot (linked : Linked contents) (absent : contents a = none) :
    Linked (update contents a (some ⟨h,{ name := [] }⟩)) := by
  have label : labelOf contents a = none := by simp [labelOf,absent]
  refine ⟨?_,?_⟩
  · rw [labelOf_update,parentOf_update]
    refine linked.labelled.place (linked.labelled.childless label) nofun (fun _ => rfl) ?_
    rintro path ⟨⟩ nonempty
    cases nonempty rfl
  · have loose : update (parentOf contents) a none = parentOf contents := update_same a (by simp [parentOf,absent])
    have leaf : update (childrenOf contents) a [] = childrenOf contents := update_same a (by simp [childrenOf,absent])
    rw [parentOf_update,childrenOf_update]
    exact loose.symm ▸ leaf.symm ▸ linked.consistent

theorem parentOf_above {new : Option TreeNode} (there : contents p = some m) (apart : p ≠ a) :
    parentOf (update (update contents a new) p (some (m.withChildren children))) =
      update (parentOf contents) a (new.bind (·.entry.parent)) := by
  rw [parentOf_update,parentOf_update]
  exact update_same p (by simp [apart,parentOf,there])

theorem labelOf_above {new : Option TreeNode} (there : contents p = some m) (apart : p ≠ a) :
    labelOf (update (update contents a new) p (some (m.withChildren children))) =
      update (labelOf contents) a (new.map (·.entry.name)) := by
  rw [labelOf_update,labelOf_update]
  exact update_same p (by simp [apart,labelOf,there])

theorem childrenOf_above {new : Option TreeNode}
    (childless : childrenOf contents a = new.elim [] (·.entry.children)) :
    childrenOf (update (update contents a new) p (some (m.withChildren children))) =
      update (childrenOf contents) p children := by
  rw [childrenOf_update,childrenOf_update,update_same a childless]
  rfl

theorem entriesOf_above {new : Option TreeNode} (there : contents p = some m)
    (bare : entriesOf contents a = new.elim (fun _ => []) (·.entry.entries)) :
    entriesOf (update (update contents a new) p (some (m.withChildren children))) =
      entriesOf contents := by
  rw [entriesOf_update,entriesOf_update,update_same a bare]
  exact update_same p (by simp [entriesOf,there]; rfl)

section
variable (linked : Linked contents)
include linked

theorem Linked.hang {h : Nat} (absent : contents a = none) (there : contents p = some m) (apart : p ≠ a)
    (nonempty : name ≠ []) (above : m.entry.name = name.dropLast) :
    Linked (update (update contents a (some ⟨h,{ name := name, parent := some p }⟩)) p
      (some (m.withChildren (m.entry.children ++ [a])))) := by
  have label : labelOf contents a = none := by simp [labelOf,absent]
  have loose : parentOf contents a = none := by simp [parentOf,absent]
  refine ⟨?_,?_⟩
  · rw [parentOf_above there apart,labelOf_above there apart]
    refine linked.labelled.place (linked.labelled.childless label) nofun (fun empty => absurd (some.inj empty) nonempty) ?_
    rintro path ⟨⟩ _
    exact ⟨p,rfl,apart,by simp [labelOf,there,above]⟩
  · rw [parentOf_above there apart,childrenOf_above (by simp [childrenOf,absent])]
    exact linked.consistent.hang loose (by simp [childrenOf,there])

section
variable (held : contents a = some n) (bare : n.entry.children = [])
include held bare

theorem Linked.leaf (b : NodeId) : parentOf contents b ≠ some a := by
  rw [Ne,← linked.consistent.listed]
  simp [childrenOf,held,bare]

theorem Linked.remove (loose : n.entry.parent = none) : Linked (update contents a none) := by
  have parents : parentOf (update contents a none) = parentOf contents := by
    rw [parentOf_update]
    exact update_same a (by simp [parentOf,held,loose])
  refine ⟨?_,?_⟩
  · rw [labelOf_update,parentOf_update]
    exact linked.labelled.place (linked.leaf held bare) (fun _ => rfl) nofun nofun
  · rw [parents,childrenOf_update,update_same a (by simp [childrenOf,held,bare])]
    exact linked.consistent

theorem Linked.unhang (hung : n.entry.parent = some p) (there : contents p = some m) (apart : p ≠ a) :
    Linked (update (update contents a none) p
      (some (m.withChildren (m.entry.children.erase a)))) := by
  refine ⟨?_,?_⟩
  · rw [parentOf_above there apart,labelOf_above there apart]
    exact linked.labelled.place (linked.leaf held bare) (fun _ => rfl) nofun nofun
  · rw [parentOf_above there apart,childrenOf_above (by simp [childrenOf,held,bare])]
    have listed := (linked.consistent.listed p a).mpr (by simp [parentOf,held,hung])
    exact linked.consistent.unhang (by simp [parentOf,held,hung]) (by simpa [childrenOf,there] using perm_cons_erase listed)

end

end

-- What lookup and eraseIfEmpty leave alone: every tree entry's table entries,
-- where a tree entry that is not there has none.
def SameTables (before after : NodeId → Option TreeNode) : Prop := entriesOf after = entriesOf before

structure Grows (path : Name) (before after : NodeId → Option TreeNode) : Prop where
  tables : SameTables before after
  kept : ∀ b other, Holds before other b → Holds after other b
  added : ∀ b other, Holds after other b → Holds before other b ∨ other <+: path

theorem Grows.label {path : Name} {after : NodeId → Option TreeNode} (absent : contents a = none)
    (tables : SameTables contents after) (label : labelOf after = update (labelOf contents) a (some path)) :
    Grows path contents after := by
  refine ⟨tables,fun b other held => ?_,fun b other held => ?_⟩
  · have apart : b ≠ a := by
      rintro rfl
      obtain ⟨_,live,_⟩ := held
      cases absent.symm.trans live
    rw [holds_label,label,update_of_ne apart]
    exact holds_label.mp held
  · rw [holds_label,label] at held
    rcases update_eq_some.mp held with ⟨_,⟨⟩⟩ | ⟨_,old⟩
    · exact .inr prefix_rfl
    · exact .inl (holds_label.mpr old)

theorem Grows.trans {front path : Name} {before middle after : NodeId → Option TreeNode} (first : Grows front before middle)
    (second : Grows path middle after) (shorter : front <+: path) : Grows path before after := by
  refine ⟨second.tables.trans first.tables,fun b other held => second.kept b other (first.kept b other held),fun b other held => ?_⟩
  rcases second.added b other held with old | new
  · exact (first.added b other old).imp_right (·.trans shorter)
  · exact .inr new

theorem entries_new (name : Name) (parent : Option NodeId) : ({ name := name, parent := parent } : TreeEntry).entries = fun _ => [] := by
  funext table
  cases table <;> rfl

def Below (contents : NodeId → Option TreeNode) (path : Name) (current : Option NodeId) : Prop :=
  (current = none ∧ path = []) ∨ ∃ p, current = some p ∧ path ≠ [] ∧ Holds contents path.dropLast p

section
variable (options : HashtableOptions)

theorem lookupStep_exact (sound : Sound hash t) (linked : Linked t.contents) {i : Nat} {hashes : List Nat}
    (shallow : i ≤ maxDepth) (checked : checkedHash hash name i hashes = some (hash.computeHash name i))
    (below : Below t.contents (name.take i) current) :
    ∃ u a, lookupStep hash options name hashes (t,current) i = some (u,some a) ∧ Sound hash u ∧ Linked u.contents ∧
      Holds u.contents (name.take i) a ∧ Grows (name.take i) t.contents u.contents := by
  have short : (name.take i).length ≤ maxDepth := Nat.le_trans (length_take_le ..) shallow
  obtain ⟨v,a,isNew,inserted,soundV,cases⟩ := insert_exact options sound short checked
  rcases cases with ⟨rfl,rfl,held⟩ | ⟨rfl,unnamed,absent,contents⟩
  · exact ⟨v,a,by simp [lookupStep,inserted],sound,linked,held,rfl,fun _ _ here => here,fun _ _ here => .inl here⟩
  have bare : entriesOf t.contents a = fun _ => [] := by simp [entriesOf,absent]
  rcases below with ⟨rfl,empty⟩ | ⟨p,rfl,nonempty,m,there,above⟩
  · rw [empty] at contents ⊢
    refine ⟨v,a,by simp [lookupStep,inserted],soundV,contents ▸ linked.addRoot absent,⟨_,by rw [contents,update_self],rfl⟩,
      .label absent ?_ (by rw [contents,labelOf_update]; rfl)⟩
    rw [SameTables,contents,entriesOf_update]
    exact update_same a (bare.trans (entries_new [] none).symm)
  · have apart : p ≠ a := by
      rintro rfl
      cases absent.symm.trans there
    have held : v.contents a = some ⟨hash.computeHash name i,{ name := name.take i }⟩ := by rw [contents,update_self]
    have still : v.contents p = some m := by rw [contents,update_of_ne apart,there]
    obtain ⟨u,hung,soundU,contentsU⟩ := setParent_exact soundV held still rfl nonempty above
    rw [contents,update_idem] at contentsU
    refine ⟨u,a,by simp [lookupStep,inserted,hung],soundU,contentsU ▸ linked.hang absent there apart nonempty above,?_,.label absent ?_ ?_⟩
    · exact ⟨_,by rw [contentsU,update_of_ne apart.symm,update_self],rfl⟩
    · rw [SameTables,contentsU]
      exact entriesOf_above there (bare.trans (entries_new _ _).symm)
    · rw [contentsU,labelOf_above there apart]
      rfl

theorem lookupFold_exact {hashes : List Nat} (k : Nat) (shallow : k ≤ maxDepth) (inside : k ≤ name.length)
    (checked : ∀ i ≤ k, checkedHash hash name i hashes = some (hash.computeHash name i)) (sound : Sound hash t) (linked : Linked t.contents) :
    ∃ u a, (List.range (k + 1)).foldlM (lookupStep hash options name hashes) (t,none) = some (u,some a) ∧ Sound hash u ∧ Linked u.contents ∧
      Holds u.contents (name.take k) a ∧ Grows (name.take k) t.contents u.contents := by
  induction k with
  | zero =>
    obtain ⟨u,a,stepped,rest⟩ := lookupStep_exact options sound linked shallow (checked 0 (Nat.le_refl _)) (.inl ⟨rfl,rfl⟩)
    exact ⟨u,a,by simp [stepped],rest⟩
  | succ k ih =>
    obtain ⟨v,p,walked,soundV,linkedV,held,grows⟩ := ih (by omega) (by omega) (fun i early => checked i (by omega))
    have nonempty : name.take (k + 1) ≠ [] := by
      rw [Ne,take_eq_nil_iff]
      rintro (zero | rfl)
      · cases zero
      · cases inside
    have shorter : (name.take (k + 1)).dropLast = name.take k := by
      rw [dropLast_eq_take,take_take,length_take]
      congr 1
      omega
    obtain ⟨u,a,stepped,soundU,linkedU,heldU,growsU⟩ :=
      lookupStep_exact options soundV linkedV shallow (checked _ (Nat.le_refl _)) (.inr ⟨p,rfl,nonempty,shorter ▸ held⟩)
    refine ⟨u,a,?_,soundU,linkedU,heldU,grows.trans growsU (take_prefix_take_left (Nat.le_succ k))⟩
    rw [range_succ,foldlM_append,walked]
    simp [stepped]

theorem lookup_exact (sound : Sound hash t) (linked : Linked t.contents)
    (inside : prefixLen ≤ name.length) (shallow : prefixLen ≤ maxDepth) :
    ∃ u a, t.lookup hash options name prefixLen = some (u,a) ∧ Sound hash u ∧ Linked u.contents ∧
      Holds u.contents (name.take prefixLen) a ∧ Grows (name.take prefixLen) t.contents u.contents := by
  have checked : ∀ i ≤ prefixLen, checkedHash hash name i (hash.computeHashes name prefixLen) = some (hash.computeHash name i) := by
    intro i early
    simp [checkedHash,hash.sequence name prefixLen i early (Nat.le_trans early inside)]
  obtain ⟨u,a,walked,rest⟩ := lookupFold_exact options prefixLen shallow inside checked sound linked
  exact ⟨u,a,by simp [lookup,inside,shallow,walked],rest⟩

theorem isEmpty_parts {e : TreeEntry} (empty : e.isEmpty) : e.children = [] ∧ e.entries = fun _ => [] := by
  simp only [TreeEntry.isEmpty,TreeEntry.hasTableEntries,Bool.and_eq_true,Bool.not_eq_true',Bool.or_eq_false_iff,isSome_eq_false_iff,
    Option.isNone_iff_eq_none,Bool.not_eq_false',List.isEmpty_iff] at empty
  obtain ⟨leaf,⟨⟨fib,pit⟩,measurements⟩,strategyChoice⟩ := empty
  refine ⟨leaf,?_⟩
  funext table
  cases table <;> simp [TreeEntry.entries,fib,pit,measurements,strategyChoice]

theorem eraseOne_exact (sound : Sound hash t) (linked : Linked t.contents) (held : t.contents a = some n)
    (empty : n.entry.isEmpty) :
    ∃ v u, t.leaveParent a n.entry.parent = some v ∧ v.erase options a = some u ∧ Sound hash u ∧
      Linked u.contents ∧ SameTables t.contents u.contents ∧ labelOf u.contents = update (labelOf t.contents) a none := by
  obtain ⟨leaf,bare⟩ := isEmpty_parts empty
  have entries : entriesOf t.contents a = fun _ => [] := by simp [entriesOf,held,bare]
  cases up : n.entry.parent with
  | none =>
    obtain ⟨u,erased,soundU,contents⟩ := erase_exact options sound held up
    refine ⟨t,u,rfl,erased,soundU,contents ▸ linked.remove held leaf up,?_,by rw [contents,labelOf_update]; rfl⟩
    rw [SameTables,contents,entriesOf_update]
    exact update_same a entries
  | some p =>
    have hung : parentOf t.contents a = some p := by simp [parentOf,held,up]
    have apart : p ≠ a := by
      rintro rfl
      exact linked.leaf held leaf p hung
    obtain ⟨path,_,_,label⟩ := linked.labelled.climb hung
    obtain ⟨m,there,_⟩ := holds_label.mpr label
    have listed : a ∈ m.entry.children := by simpa [childrenOf,there] using (linked.consistent.listed p a).mpr hung
    obtain ⟨v,unset,soundV,contentsV⟩ := unsetParent_exact sound held there apart up listed
    have loose : v.contents a = some { n with entry := { n.entry with parent := none } } := by rw [contentsV,update_self]
    obtain ⟨u,erased,soundU,contentsU⟩ := erase_exact options soundV loose rfl
    rw [contentsV,update_idem,update_comm apart] at contentsU
    refine ⟨v,u,unset,erased,soundU,contentsU ▸ linked.unhang held leaf up there apart,?_,by rw [contentsU,labelOf_above there apart]; rfl⟩
    rw [SameTables,contentsU]
    exact entriesOf_above there entries

end

structure Shrinks (before after : NodeId → Option TreeNode) : Prop where
  tables : SameTables before after
  kept : ∀ b other, Holds after other b → Holds before other b

theorem eraseLoop_exact (options : HashtableOptions) (canEraseAncestors : Bool) (fuel nErased : Nat) (sound : Sound hash t)
    (linked : Linked t.contents) (held : Holds t.contents name a) (enough : name.length < fuel) :
    ∃ u count, eraseLoop options canEraseAncestors fuel t (some a) nErased = some (u,count) ∧ Sound hash u ∧ Linked u.contents ∧
      Shrinks t.contents u.contents := by
  induction fuel generalizing t a name nErased with
  | zero => cases enough
  | succ fuel ih =>
    obtain ⟨n,live,rfl⟩ := held
    by_cases empty : n.entry.isEmpty
    · obtain ⟨v,u,unset,erased,soundU,linkedU,tables,labels⟩ := eraseOne_exact options sound linked live empty
      have once : Shrinks t.contents u.contents := by
        refine ⟨tables,fun b other there => ?_⟩
        rw [holds_label,labels] at there
        rcases update_eq_some.mp there with ⟨_,⟨⟩⟩ | ⟨_,old⟩
        exact holds_label.mpr old
      cases canEraseAncestors with
      | false => exact ⟨u,nErased + 1,by simp [eraseLoop,live,empty,unset,erased],soundU,linkedU,once⟩
      | true =>
        cases up : n.entry.parent with
        | none => exact ⟨u,nErased + 1,by simp [eraseLoop,live,empty,up ▸ unset,erased,up],soundU,linkedU,once⟩
        | some p =>
          have hung : parentOf t.contents a = some p := by simp [parentOf,live,up]
          obtain ⟨path,named,nonempty,label⟩ := linked.labelled.climb hung
          have apart : p ≠ a := fun equal => linked.leaf live (isEmpty_parts empty).1 a (equal ▸ hung)
          have above := holds_label.mpr (by rw [labels,update_of_ne apart,label])
          have shorter : path.dropLast.length < fuel := by
            cases (some.inj ((show labelOf t.contents a = some n.entry.name by simp [labelOf,live]).symm.trans named))
            rw [length_dropLast]
            have := length_pos_iff.mpr nonempty
            omega
          obtain ⟨w,count,ran,soundW,linkedW,rest⟩ := ih (nErased + 1) soundU linkedU above shorter
          refine ⟨w,count,?_,soundW,linkedW,rest.tables.trans once.tables,fun b other there => once.kept b other (rest.kept b other there)⟩
          simp [eraseLoop,live,empty,up ▸ unset,erased,up,ran]
    · exact ⟨t,nErased,by simp [eraseLoop,live,empty],sound,linked,rfl,fun _ _ there => there⟩

theorem writeTables_exact (sound : Sound hash t) (linked : Linked t.contents) (held : t.contents a = some n)
    (name : (f n.entry).name = n.entry.name) (parent : (f n.entry).parent = n.entry.parent)
    (children : (f n.entry).children = n.entry.children) :
    ∃ u, t.write a f = some u ∧ Sound hash u ∧ Linked u.contents ∧ labelOf u.contents = labelOf t.contents ∧
      entriesOf u.contents = update (entriesOf t.contents) a (f n.entry).entries := by
  obtain ⟨u,written,soundU,contents⟩ := write_exact sound held name
  have labels : labelOf u.contents = labelOf t.contents := by
    rw [contents,labelOf_update]
    exact update_same a (by simp [labelOf,held,name])
  refine ⟨u,written,soundU,⟨?_,?_⟩,labels,by rw [contents,entriesOf_update]; rfl⟩
  · rw [labels,contents,parentOf_update,update_same a (by simp [parentOf,held,parent])]
    exact linked.labelled
  · rw [contents,parentOf_update,update_same a (by simp [parentOf,held,parent]),childrenOf_update,
      update_same a (by simp [childrenOf,held,children])]
    exact linked.consistent

end Hashtable

theorem entries_setSlot (e : TreeEntry) (s : Slot) (new : Option TableId) :
    (e.setSlot s new).entries = update e.entries s.table new.toList := by
  funext table
  cases s <;> cases table <;> rfl

theorem entries_setPit (e : TreeEntry) (xs : List EntryId) : { e with pitEntries := xs }.entries = update e.entries .pit xs := by
  funext table
  cases table <;> rfl

theorem entries_slot (e : TreeEntry) (s : Slot) : e.entries s.table = (e.slot s).toList := by cases s <;> rfl

namespace NameTree
open Hashtable
variable {hash : HashFunction} {tree : NameTree} {n : TreeNode} {name : Name}

structure Sound (hash : HashFunction) (tree : NameTree) : Prop where
  sound : Hashtable.Sound hash tree.ht
  linked : Linked tree.ht.contents
  owned : ∀ table, Consistent (tree.owner table) (entriesOf tree.ht.contents · table)

theorem owned_replace {owner : Table → TableId → Option NodeId} {E : NodeId → Table → List TableId}
    (owned : ∀ other, Consistent (owner other) (E · other))
    (one : Consistent own (update (E · table) a xs)) (other : Table) :
    Consistent (update owner table own other) (fun b => update E a (update (E a) table xs) b other) := by
  have column : (fun b => update E a (update (E a) table xs) b other) = update (E · other) a (update (E a) table xs other) := by
    funext b
    by_cases here : b = a
    · subst here
      simp
    · simp [here]
  rw [column]
  by_cases same : other = table
  · subst same
    rw [update_self,update_self]
    exact one
  · rw [update_of_ne same,update_of_ne same,update_same a rfl]
    exact owned other

theorem entriesOf_held (held : tree.ht.contents a = some n) : entriesOf tree.ht.contents a = n.entry.entries := by simp [entriesOf,held]

def overwritten (own : TableId → Option NodeId) (node : NodeId) (old new : Option TableId) : TableId → Option NodeId :=
  let cleared := old.elim own (update own · none)
  new.elim cleared (update cleared · (some node))

theorem overwritten_consistent {own : TableId → Option NodeId} {E : NodeId → List TableId} {old new : Option TableId}
    (consistent : Consistent own E) (holds : E a = old.toList) (loose : ∀ id ∈ new, own id = none) :
    Consistent (overwritten own a old new) (update E a new.toList) := by
  have cleared : Consistent (old.elim own (update own · none)) (update E a []) := by
    cases old with
    | none =>
      have empty : update E a [] = E := update_same a holds
      rw [empty]
      exact consistent
    | some id => exact consistent.unhang ((consistent.listed a id).mp (by simp [holds])) (by simp [holds])
  cases new with
  | none => exact cleared
  | some id =>
    have free : old.elim own (update own · none) id = none := by
      cases old with
      | none => exact loose id rfl
      | some other => by_cases same : id = other <;> simp [same,loose]
    have more : [id].Perm (id :: update E a [] a) := by simp
    have hung := cleared.hang free more
    rw [update_idem] at hung
    exact hung

structure Changes (tree after : NameTree) (a : NodeId) (table : Table) (xs : List TableId) : Prop where
  labels : labelOf after.ht.contents = labelOf tree.ht.contents
  entries : entriesOf after.ht.contents =
    update (entriesOf tree.ht.contents) a (update (entriesOf tree.ht.contents a) table xs)

section
variable (sound : Sound hash tree)
include sound

theorem changeTable_exact (held : tree.ht.contents a = some n) {f : TreeEntry → TreeEntry} {table : Table}
    (name : (f n.entry).name = n.entry.name)
    (parent : (f n.entry).parent = n.entry.parent) (children : (f n.entry).children = n.entry.children)
    (effect : (f n.entry).entries = update n.entry.entries table xs)
    (one : Consistent own (update (entriesOf tree.ht.contents · table) a xs)) :
    ∃ ht, tree.ht.write a f = some ht ∧ Sound hash ⟨ht,update tree.owner table own⟩ ∧
      Changes tree ⟨ht,update tree.owner table own⟩ a table xs := by
  obtain ⟨ht,written,soundHt,linked,labels,entries⟩ := writeTables_exact sound.sound sound.linked held name parent children
  rw [effect,← entriesOf_held held] at entries
  refine ⟨ht,written,⟨soundHt,linked,fun other => ?_⟩,labels,entries⟩
  rw [entries]
  exact owned_replace sound.owned one other

theorem setTableEntry_exact (s : Slot) (held : tree.ht.contents a = some n) {new : Option TableId}
    (loose : ∀ id ∈ new, tree.owner s.table id = none) :
    ∃ u, tree.setTableEntry s a new = some u ∧ Sound hash u ∧ Changes tree u a s.table new.toList := by
  have own : entriesOf tree.ht.contents a s.table = (n.entry.slot s).toList := by rw [entriesOf_held held,entries_slot]
  obtain ⟨ht,written,soundU,changes⟩ := changeTable_exact sound held (f := fun e => e.setSlot s new) (by cases s <;> rfl) (by cases s <;> rfl)
    (by cases s <;> rfl) (entries_setSlot ..) (overwritten_consistent (sound.owned s.table) own loose)
  refine ⟨_,?_,soundU,changes⟩
  rw [setTableEntry,held]
  simp only [bind_eq_bind,bind_some,if_pos loose]
  cases old : n.entry.slot s <;> cases new <;> simp [write,setOwner,written,overwritten]

theorem insertPitEntry_exact (held : tree.ht.contents a = some n) {id : EntryId}
    (loose : tree.owner .pit id = none) :
    ∃ u, tree.insertPitEntry a id = some u ∧ Sound hash u ∧ Changes tree u a .pit (n.entry.pitEntries ++ [id]) := by
  have own : entriesOf tree.ht.contents a .pit = n.entry.pitEntries := by rw [entriesOf_held held]; rfl
  have more : (n.entry.pitEntries ++ [id]).Perm (id :: entriesOf tree.ht.contents a .pit) := by simp [own]
  obtain ⟨ht,written,soundU,changes⟩ := changeTable_exact sound held (f := fun e => { e with pitEntries := e.pitEntries ++ [id] }) rfl rfl
    rfl (entries_setPit ..) ((sound.owned .pit).hang loose more)
  exact ⟨_,by simp [insertPitEntry,loose,write,written,setOwner],soundU,changes⟩

theorem erasePitEntry_exact (held : tree.ht.contents a = some n) {id : EntryId}
    (attached : tree.owner .pit id = some a) :
    ∃ u, tree.erasePitEntry a id = some u ∧ Sound hash u ∧ Changes tree u a .pit (eraseSwap n.entry.pitEntries id) := by
  have own : entriesOf tree.ht.contents a .pit = n.entry.pitEntries := by rw [entriesOf_held held]; rfl
  have listed : id ∈ n.entry.pitEntries := own ▸ ((sound.owned .pit).listed a id).mpr attached
  obtain ⟨ht,written,soundU,changes⟩ := changeTable_exact sound held (f := fun e => { e with pitEntries := eraseSwap e.pitEntries id }) rfl
    rfl rfl (entries_setPit ..) ((sound.owned .pit).unhang attached (own.symm ▸ eraseSwap_perm listed))
  exact ⟨_,by simp [erasePitEntry,held,attached,listed,write,written,setOwner],soundU,changes⟩

theorem sameTables_sound {ht : Hashtable} (soundHt : Hashtable.Sound hash ht) (linked : Linked ht.contents)
    (tables : SameTables tree.ht.contents ht.contents) : Sound hash { tree with ht := ht } :=
  ⟨soundHt,linked,fun table => by rw [tables]; exact sound.owned table⟩

end

section
variable (options : HashtableOptions) (sound : Sound hash tree)
include options sound

theorem lookup_exact {prefixLen : Nat} (inside : prefixLen ≤ name.length) (shallow : prefixLen ≤ maxDepth) :
    ∃ u a, tree.lookup hash options name prefixLen = some (u,a) ∧ Sound hash u ∧ u.owner = tree.owner ∧
      Holds u.ht.contents (name.take prefixLen) a ∧ Grows (name.take prefixLen) tree.ht.contents u.ht.contents := by
  obtain ⟨ht,a,looked,soundHt,linked,held,grows⟩ := Hashtable.lookup_exact options sound.sound sound.linked inside shallow
  exact ⟨{ tree with ht := ht },a,by simp [lookup,looked],sameTables_sound sound soundHt linked grows.tables,rfl,held,grows⟩

theorem eraseIfEmpty_exact (held : tree.ht.contents a = some n) (canEraseAncestors : Bool) :
    ∃ u count, tree.eraseIfEmpty options a canEraseAncestors = some (u,count) ∧ Sound hash u ∧ u.owner = tree.owner ∧
      Shrinks tree.ht.contents u.ht.contents := by
  have short := Nat.lt_succ_of_le (sound.sound.registered.depth a n held)
  obtain ⟨ht,count,erased,soundHt,linked,shrinks⟩ :=
    eraseLoop_exact options canEraseAncestors (maxDepth + 1) 0 sound.sound sound.linked ⟨n,held,rfl⟩ short
  exact ⟨{ tree with ht := ht },count,by simp [eraseIfEmpty,Hashtable.eraseIfEmpty,erased],sameTables_sound sound soundHt linked shrinks.tables,
    rfl,shrinks⟩

theorem findExactMatch_exact (name : Name) (prefixLen : Nat) :
    ∃ found, tree.findExactMatch hash options name prefixLen = some found ∧ ∀ a, found = some a ↔ Holds tree.ht.contents (name.take prefixLen) a := by
  by_cases deep : min name.length prefixLen > maxDepth
  · refine ⟨none,by simp only [findExactMatch,if_pos deep],fun a => ⟨nofun,?_⟩⟩
    rintro ⟨n,held,named⟩
    have depth := sound.sound.registered.depth a n held
    rw [named,length_take] at depth
    omega
  · have same : name.take (min name.length prefixLen) = name.take prefixLen := by
      rw [take_eq_take_iff]
      omega
    obtain ⟨found,ran,exactly⟩ := find_exact options sound.sound name (min name.length prefixLen)
    exact ⟨found,by simp only [findExactMatch,if_neg deep,ran],same ▸ exactly⟩

end

theorem new_sound : Sound hash (new options) := by
  refine ⟨Hashtable.new_sound options,⟨⟨fun a _ => ?_,nofun,nofun⟩,⟨fun x => ?_,fun x b => ?_⟩⟩,fun table => ⟨fun x => ?_,fun x id => ?_⟩⟩
  all_goals simp [new,Hashtable.new,computeThresholds,Hashtable.contents,LinkedList.valueAt,parentOf,childrenOf,entriesOf]

end NameTree
end ReflexiveNfd

import ReflexiveNfd.NameTree

namespace ReflexiveNfd
open Vectors Option Function Transition NameTree

inductive TreeCall where
  | lookup (name : Name) (prefixLen : Nat)
  | setTableEntry (slot : Slot) (node : NodeId) (new : Option TableId)
  | insertPitEntry (node : NodeId) (id : EntryId)
  | erasePitEntry (node : NodeId) (id : EntryId)
  | eraseIfEmpty (node : NodeId) (canEraseAncestors : Bool)

namespace NameTree
variable (hash : HashFunction) (options : HashtableOptions)

def step (tree : NameTree) : TreeCall → Option NameTree
  | .lookup name prefixLen => (tree.lookup hash options name prefixLen).map Prod.fst
  | .setTableEntry slot node new => tree.setTableEntry slot node new
  | .insertPitEntry node id => tree.insertPitEntry node id
  | .erasePitEntry node id => tree.erasePitEntry node id
  | .eraseIfEmpty node canEraseAncestors => (tree.eraseIfEmpty options node canEraseAncestors).map Prod.fst

variable {hash options} {tree after : NameTree}

theorem step_sound (sound : Sound hash tree) (taken : tree.step hash options call = some after) : Sound hash after := by
  cases call with
  | lookup name prefixLen =>
    obtain ⟨⟨_,node⟩,looked,rfl⟩ := map_eq_some_iff.mp taken
    obtain ⟨⟨ht,_⟩,found,_⟩ := map_eq_some_iff.mp looked
    obtain ⟨⟨inside,shallow⟩,_⟩ := ite_none_right_eq_some.mp found
    obtain ⟨u,a,exactly,soundU,_⟩ := lookup_exact options sound inside shallow
    cases looked.symm.trans exactly
    exact soundU
  | setTableEntry slot node new =>
    obtain ⟨n,held,rest⟩ := bind_eq_some_iff.mp taken
    obtain ⟨loose,_⟩ := ite_none_right_eq_some.mp rest
    obtain ⟨u,exactly,soundU,_⟩ := setTableEntry_exact sound slot held loose
    cases taken.symm.trans exactly
    exact soundU
  | insertPitEntry node id =>
    obtain ⟨loose,rest⟩ := ite_none_right_eq_some.mp taken
    obtain ⟨_,written,_⟩ := map_eq_some_iff.mp rest
    obtain ⟨_,wrote,_⟩ := map_eq_some_iff.mp written
    obtain ⟨cell,live,_⟩ := bind_eq_some_iff.mp wrote
    have held : tree.ht.contents node = some cell.value := by simp [Hashtable.contents,LinkedList.valueAt,live]
    obtain ⟨u,exactly,soundU,_⟩ := insertPitEntry_exact sound held loose
    cases taken.symm.trans exactly
    exact soundU
  | erasePitEntry node id =>
    obtain ⟨n,held,rest⟩ := bind_eq_some_iff.mp taken
    obtain ⟨⟨attached,_⟩,_⟩ := ite_none_right_eq_some.mp rest
    obtain ⟨u,exactly,soundU,_⟩ := erasePitEntry_exact sound held attached
    cases taken.symm.trans exactly
    exact soundU
  | eraseIfEmpty node canEraseAncestors =>
    obtain ⟨⟨_,count⟩,erased,rfl⟩ := map_eq_some_iff.mp taken
    obtain ⟨_,ran,_⟩ := map_eq_some_iff.mp erased
    obtain ⟨n,held,_⟩ := bind_eq_some_iff.mp ran
    obtain ⟨u,_,exactly,soundU,_⟩ := eraseIfEmpty_exact options sound held canEraseAncestors
    cases erased.symm.trans exactly
    exact soundU

end NameTree

-- The tables that share the tree. Table entries are allocated like nodes, at
-- addresses never used before; nItems are the sizes the tables keep.
structure TreeTables where
  tree : NameTree
  fresh : TableId
  nItems : Table → Int

-- Fib::s_emptyEntry, which is never attached.
def emptyFibEntry : TableId := 0

namespace TreeTables
variable (hash : HashFunction) (options : HashtableOptions)

def new : TreeTables := ⟨.new options,emptyFibEntry + 1,fun _ => 0⟩

def count (s : TreeTables) (table : Table) (change : Int) : TreeTables :=
  { s with nItems := update s.nItems table (s.nItems table + change) }

def getOrAttach (s : TreeTables) (slot : Slot) (nte : NodeId) : Option TreeTables := do
  let this ← s.tree.ht.contents nte
  match this.entry.slot slot with
  | some _ => return s
  | none =>
    let tree ← s.tree.setTableEntry slot nte (some s.fresh)
    return { s with tree := tree, fresh := s.fresh + 1 }.count slot.table 1

def tidy (tree : NameTree) (nte : NodeId) (canDeleteNte : Bool) : Option NameTree :=
  if canDeleteNte then (tree.eraseIfEmpty options nte true).map Prod.fst else some tree

section
variable (s : TreeTables)

section
variable (slot : Slot) (nte : NodeId) (entry : TableId) (name : Name) (id : EntryId) (canDeleteNte : Bool)

def detach : Option TreeTables := do
  let cleared ← s.tree.setTableEntry slot nte none
  let tree ← tidy options cleared nte canDeleteNte
  return { s with tree := tree }.count slot.table (-1)

def lookup (prefixLen : Nat) : Option (TreeTables × NodeId) :=
  (s.tree.lookup hash options name prefixLen).map fun (tree,node) => ({ s with tree := tree },node)

def entryAt : Option TableId := (s.tree.ht.contents nte).bind (·.entry.slot slot)

def fibInsert : Option TreeTables := do
  let (s,nte) ← s.lookup hash options name name.length
  s.getOrAttach .fib nte

-- Erasing by name goes ahead at a tree entry without a FIB entry too.
def fibErase : Option TreeTables := do
  match ← s.tree.findExactMatch hash options name name.length with
  | none => return s
  | some nte => s.detach options .fib nte true

def fibEraseEntry : Option TreeTables :=
  match s.tree.getEntry .fib entry with
  | none => if entry = emptyFibEntry then some s else none
  | some nte => s.detach options .fib nte true

-- removeNextHop on the last nexthop leaves the tree entry.
def fibRemoveNextHop : Option TreeTables := do
  let nte ← s.tree.getEntry .fib entry
  s.detach options .fib nte false

def lookupFibEntry : Option (TreeTables × NodeId) :=
  match s.tree.getEntry .fib entry with
  | none => if entry = emptyFibEntry then s.lookup hash options [] 0 else none
  | some nte => do
      let this ← s.tree.ht.contents nte
      if this.entry.fibEntry = some entry then some (s,nte) else none

-- A PIT entry whose name ends in a digest hangs one level above its full name.
def lookupPitEntry : Option (TreeTables × NodeId) :=
  if name.endsWithDigest ∧ name.length ≤ maxDepth then s.lookup hash options name name.length
  else do
    let nte ← s.tree.getEntry .pit id
    let this ← s.tree.ht.contents nte
    if this.entry.pitEntries.count id = 1 then some (s,nte) else none

def measurementsGet : Option TreeTables := do
  let (s,nte) ← s.lookup hash options name (min name.length maxDepth)
  s.getOrAttach .measurements nte

def measurementsGetFib : Option TreeTables := do
  let (s,nte) ← s.lookupFibEntry hash options entry
  s.getOrAttach .measurements nte

def measurementsGetPit : Option TreeTables := do
  let (s,nte) ← s.lookupPitEntry hash options name id
  s.getOrAttach .measurements nte

def measurementsGetParent (child : TableId) : Option TreeTables := do
  let nteChild ← s.tree.getEntry .measurements child
  let this ← s.tree.ht.contents nteChild
  if this.entry.name = [] then some s
  else
    let nte ← this.entry.parent
    s.getOrAttach .measurements nte

def measurementsCleanup : Option TreeTables := do
  let nte ← s.tree.getEntry .measurements entry
  s.detach options .measurements nte true

def strategyChoiceSetDefault : Option TreeTables := do
  let (s,nte) ← s.lookup hash options [] 0
  let tree ← s.tree.setStrategyChoiceEntry nte (some s.fresh)
  return { s with tree := tree, fresh := s.fresh + 1 }.count .strategyChoice 1

-- The strategy itself was made before; a prefix that is too deep is refused.
def strategyChoiceInsert : Option TreeTables :=
  if name.length > maxDepth then some s
  else do
    let (s,nte) ← s.lookup hash options name name.length
    s.getOrAttach .strategyChoice nte

def strategyChoiceErase : Option TreeTables :=
  if name = [] then none
  else do
    match ← s.tree.findExactMatch hash options name name.length with
    | none => return s
    | some nte =>
      let this ← s.tree.ht.contents nte
      if this.entry.strategyChoiceEntry = none then return s else s.detach options .strategyChoice nte true

def pitNode (allowInsert : Bool) : Option (TreeTables × Option NodeId) :=
  if allowInsert then (s.lookup hash options name (nteDepth name)).map fun (s,nte) => (s,some nte)
  else (s.tree.findExactMatch hash options name (nteDepth name)).map (s,·)

-- objects are the PIT entries by their addresses; fresh is where a new one goes.
def pitFindOrInsert (objects : EntryId → Option Entry) (interest : Interest) (allowInsert : Bool) (fresh : EntryId) :
    Option (TreeTables × Option EntryId × Bool) := do
  match ← s.pitNode hash options interest.name allowInsert with
  | (s,none) => return (s,none,true)
  | (s,some nte) =>
    let this ← s.tree.ht.contents nte
    match this.entry.pitEntries.find? (fun id => (objects id).any (·.canMatch interest (nteDepth interest.name))) with
    | some id => return (s,some id,false)
    | none =>
      if allowInsert then
        let tree ← s.tree.insertPitEntry nte fresh
        return ({ s with tree := tree }.count .pit 1,some fresh,true)
      else if this.entry.isEmpty then none else return (s,none,true)

def pitErase : Option TreeTables := do
  let nte ← s.tree.getEntry .pit id
  let erased ← s.tree.erasePitEntry nte id
  let tree ← tidy options erased nte canDeleteNte
  return { s with tree := tree }.count .pit (-1)

end

end

end TreeTables

-- The calls made on the tables, by the forwarder, the managers and the timers.
-- sweep is one erasure of cleanupOnFaceRemoval.
inductive TableCall where
  | fibInsert (name : Name)
  | fibErase (name : Name)
  | fibEraseEntry (entry : TableId)
  | fibRemoveNextHop (entry : TableId)
  | measurementsGet (name : Name)
  | measurementsGetFib (entry : TableId)
  | measurementsGetPit (name : Name) (id : EntryId)
  | measurementsGetParent (child : TableId)
  | measurementsCleanup (entry : TableId)
  | strategyChoiceSetDefault
  | strategyChoiceInsert (name : Name)
  | strategyChoiceErase (name : Name)
  | pitFindOrInsert (objects : EntryId → Option Entry) (interest : Interest) (allowInsert : Bool) (fresh : EntryId)
  | pitErase (id : EntryId) (canDeleteNte : Bool)
  | sweep (node : NodeId)

def TableCall.table : TableCall → Table
  | .fibInsert _ | .fibErase _ | .fibEraseEntry _ | .fibRemoveNextHop _ | .sweep _ => .fib
  | .measurementsGet _ | .measurementsGetFib _ | .measurementsGetPit .. | .measurementsGetParent _ | .measurementsCleanup _ => .measurements
  | .strategyChoiceSetDefault | .strategyChoiceInsert _ | .strategyChoiceErase _ => .strategyChoice
  | .pitFindOrInsert .. | .pitErase .. => .pit

namespace TreeTables
open Hashtable
variable (hash : HashFunction) (options : HashtableOptions)

-- A PIT entry is made at an address where none is attached.
def step (s : TreeTables) : TableCall → Option TreeTables
  | .fibInsert name => s.fibInsert hash options name
  | .fibErase name => s.fibErase hash options name
  | .fibEraseEntry entry => s.fibEraseEntry options entry
  | .fibRemoveNextHop entry => s.fibRemoveNextHop options entry
  | .measurementsGet name => s.measurementsGet hash options name
  | .measurementsGetFib entry => s.measurementsGetFib hash options entry
  | .measurementsGetPit name id => s.measurementsGetPit hash options name id
  | .measurementsGetParent child => s.measurementsGetParent child
  | .measurementsCleanup entry => s.measurementsCleanup options entry
  | .strategyChoiceSetDefault => s.strategyChoiceSetDefault hash options
  | .strategyChoiceInsert name => s.strategyChoiceInsert hash options name
  | .strategyChoiceErase name => s.strategyChoiceErase hash options name
  | .pitFindOrInsert objects interest allowInsert fresh =>
    if s.tree.owner .pit fresh = none then (s.pitFindOrInsert hash options objects interest allowInsert fresh).map Prod.fst else none
  | .pitErase id canDeleteNte => s.pitErase options id canDeleteNte
  | .sweep node => (s.tree.eraseIfEmpty options node false).map fun (tree,_) => { s with tree := tree }

-- What the callers promise: names within the depth limit where the table does
-- not cut them, and entries that are attached.
def Admissible (s : TreeTables) : TableCall → Prop
  | .fibInsert name => name.length ≤ maxDepth
  | .fibErase _ | .measurementsGet _ | .strategyChoiceSetDefault | .strategyChoiceInsert _ => True
  | .fibEraseEntry entry | .measurementsGetFib entry => entry = emptyFibEntry ∨ ∃ node, s.tree.owner .fib entry = some node
  | .fibRemoveNextHop entry => ∃ node, s.tree.owner .fib entry = some node
  | .measurementsGetPit name id => (name.endsWithDigest ∧ name.length ≤ maxDepth) ∨ ∃ node, s.tree.owner .pit id = some node
  | .measurementsGetParent entry | .measurementsCleanup entry => ∃ node, s.tree.owner .measurements entry = some node
  | .strategyChoiceErase name => name ≠ []
  | .pitFindOrInsert _ interest allowInsert fresh => s.tree.owner .pit fresh = none ∧ (allowInsert = false →
      ∀ a n, s.tree.ht.contents a = some n → n.entry.name = interest.name.take (nteDepth interest.name) → n.entry.isEmpty = false)
  | .pitErase id _ => ∃ node, s.tree.owner .pit id = some node
  | .sweep node => ∃ n, s.tree.ht.contents node = some n

def Runs (tree after : NameTree) : Prop := ∃ calls, run (NameTree.step hash options) tree calls = some after

structure Sound (s : TreeTables) : Prop where
  tree : NameTree.Sound hash s.tree
  fresh : ∀ slot a id, id ∈ entriesOf s.tree.ht.contents a (Slot.table slot) → id < s.fresh

variable {hash options} {s t : TreeTables} {tree middle after : NameTree} {n : TreeNode} {name : Name}

theorem Runs.refl : Runs hash options tree tree := ⟨[],rfl⟩

theorem Runs.call (call : TreeCall) (taken : tree.step hash options call = some after) : Runs hash options tree after :=
  ⟨[call],by simp [run,taken]⟩

theorem Runs.trans (first : Runs hash options tree middle) (second : Runs hash options middle after) : Runs hash options tree after := by
  obtain ⟨front,ranFront⟩ := first
  obtain ⟨back,ranBack⟩ := second
  exact ⟨front ++ back,by rw [run_append,ranFront]; exact ranBack⟩

structure Undisturbed (table : Table) (s t : TreeTables) : Prop where
  entries : ∀ a, entriesOf t.tree.ht.contents a table = entriesOf s.tree.ht.contents a table
  labels : ∀ a, entriesOf s.tree.ht.contents a table ≠ [] → labelOf t.tree.ht.contents a = labelOf s.tree.ht.contents a
  size : t.nItems table = s.nItems table

theorem Undisturbed.refl (s : TreeTables) : Undisturbed table s s := ⟨fun _ => rfl,fun _ _ => rfl,rfl⟩

theorem Undisturbed.trans (first : Undisturbed table s t) (second : Undisturbed table t u) :
    Undisturbed table s u := by
  refine ⟨fun a => (second.entries a).trans (first.entries a),fun a used => ?_,second.size.trans first.size⟩
  exact (second.labels a (by rwa [first.entries])).trans (first.labels a used)

theorem used_label {contents : NodeId → Option TreeNode} (used : entriesOf contents a table ≠ []) :
    ∃ name, labelOf contents a = some name := by
  cases held : contents a with
  | none => simp [entriesOf,held] at used
  | some n => exact ⟨n.entry.name,by simp [labelOf,held]⟩

theorem Undisturbed.grows {table : Table} (grows : Grows path s.tree.ht.contents t.tree.ht.contents)
    (size : t.nItems table = s.nItems table) : Undisturbed table s t := by
  refine ⟨fun a => by rw [grows.tables],fun a used => ?_,size⟩
  obtain ⟨name,label⟩ := used_label used
  rw [label,← holds_label]
  exact grows.kept a name (holds_label.mpr label)

theorem Undisturbed.shrinks {table : Table} (shrinks : Shrinks s.tree.ht.contents t.tree.ht.contents)
    (size : t.nItems table = s.nItems table) : Undisturbed table s t := by
  refine ⟨fun a => by rw [shrinks.tables],fun a used => ?_,size⟩
  rw [← shrinks.tables] at used
  obtain ⟨name,label⟩ := used_label used
  rw [label,eq_comm,← holds_label]
  exact shrinks.kept a name (holds_label.mpr label)

theorem changes_frame (changes : NameTree.Changes tree after a table xs) (apart : other ≠ table)
    (b : NodeId) : entriesOf after.ht.contents b other = entriesOf tree.ht.contents b other := by
  rw [changes.entries]
  by_cases here : b = a
  · subst here
    rw [update_self,update_of_ne apart]
  · rw [update_of_ne here]

theorem Undisturbed.changes (changes : NameTree.Changes s.tree t.tree a table xs)
    (apart : other ≠ table) (size : t.nItems other = s.nItems other) : Undisturbed other s t :=
  ⟨changes_frame changes apart,fun b _ => congrFun changes.labels b,size⟩

structure Does (hash : HashFunction) (options : HashtableOptions) (own : Table) (s t : TreeTables) : Prop where
  sound : Sound hash t
  runs : Runs hash options s.tree t.tree
  others : ∀ table, table ≠ own → Undisturbed table s t

theorem Does.refl (sound : Sound hash s) : Does hash options own s s := ⟨sound,.refl,fun _ _ => .refl s⟩

theorem lookup_does (options : HashtableOptions) (name : Name) (sound : Sound hash s) (inside : prefixLen ≤ name.length) (shallow : prefixLen ≤ maxDepth) :
    ∃ t a n, s.lookup hash options name prefixLen = some (t,a) ∧ (t.tree.ht.contents a = some n ∧ n.entry.name = name.take prefixLen) ∧
      t.tree.owner = s.tree.owner ∧ (∀ table, Undisturbed table s t) ∧ ∀ own, Does hash options own s t := by
  obtain ⟨tree,a,looked,soundTree,owner,⟨n,held⟩,grows⟩ := lookup_exact options sound.tree inside shallow
  have still : ∀ table, Undisturbed table s { s with tree := tree } := fun _ => .grows grows rfl
  refine ⟨{ s with tree := tree },a,n,by simp [lookup,looked],held,owner,still,fun own => ⟨⟨soundTree,?_⟩,
    .call (.lookup name prefixLen) (by simp [NameTree.step,looked]),fun table _ => still table⟩⟩
  intro slot b id listed
  exact sound.fresh slot b id (grows.tables ▸ listed)

theorem Does.trans (first : Does hash options own s t) (second : Does hash options own t u) :
    Does hash options own s u :=
  ⟨second.sound,first.runs.trans second.runs,fun table apart => (first.others table apart).trans (second.others table apart)⟩

theorem owner_live (sound : NameTree.Sound hash tree) {table : Table} {id : TableId} (attached : tree.owner table id = some a) :
    ∃ n, tree.ht.contents a = some n ∧ id ∈ n.entry.entries table := by
  have listed := ((sound.owned table).listed a id).mpr attached
  cases held : tree.ht.contents a with
  | none => simp [entriesOf,held] at listed
  | some n => exact ⟨n,rfl,entriesOf_held held ▸ listed⟩

structure Writes (slot : Slot) (a : NodeId) (xs : List TableId) (s t : TreeTables) : Prop where
  entries : ∀ b, entriesOf t.tree.ht.contents b slot.table = if b = a then xs else entriesOf s.tree.ht.contents b slot.table
  labels : ∀ b, entriesOf t.tree.ht.contents b slot.table ≠ [] → labelOf t.tree.ht.contents b = labelOf s.tree.ht.contents b

theorem Writes.changes (changes : NameTree.Changes s.tree t.tree a slot.table xs) : Writes slot a xs s t := by
  refine ⟨fun b => ?_,fun b _ => congrFun changes.labels b⟩
  rw [changes.entries]
  by_cases here : b = a
  · subst here
    rw [update_self,update_self,if_pos rfl]
  · rw [update_of_ne here,if_neg here]

theorem slot_apart (slot : Slot) : slot.table ≠ .pit := by cases slot <;> decide

theorem nteDepth_le (name : Name) : nteDepth name ≤ name.length ∧ nteDepth name ≤ maxDepth := by
  unfold nteDepth
  split <;> omega

def findMatch (objects : EntryId → Option Entry) (interest : Interest) (n : TreeNode) : Option EntryId :=
  n.entry.pitEntries.find? (fun id => (objects id).any (·.canMatch interest (nteDepth interest.name)))

structure Inserts (objects : EntryId → Option Entry) (interest : Interest) (fresh : EntryId) (s middle t : TreeTables) (nte : NodeId)
    (n : TreeNode) : Prop where
  still : Undisturbed .pit s middle
  place : middle.tree.ht.contents nte = some n ∧ n.entry.name = interest.name.take (nteDepth interest.name)
  found : findMatch objects interest n ≠ none → t = middle
  missing : findMatch objects interest n = none →
    NameTree.Changes middle.tree t.tree nte .pit (n.entry.pitEntries ++ [fresh]) ∧ t.nItems .pit = middle.nItems .pit + 1

section
variable (options) (sound : Sound hash s)
include sound

section
variable (name : Name) (objects : EntryId → Option Entry) (slot : Slot) (interest : Interest)

section
variable (held : s.tree.ht.contents a = some n)
include held

theorem setTableEntry_does
    (new : Option TableId) (next : ∀ id ∈ new, id = s.fresh) (size : Table → Int) (sizes : ∀ table, table ≠ slot.table → size table = s.nItems table) :
    ∃ tree, s.tree.setTableEntry slot a new = some tree ∧ Does hash options slot.table s ⟨tree,s.fresh + new.toList.length,size⟩ ∧
      NameTree.Changes s.tree tree a slot.table new.toList := by
  have loose : ∀ id ∈ new, s.tree.owner slot.table id = none := by
    intro id listed
    cases next id listed
    refine eq_none_iff_forall_ne_some.mpr fun b attached => ?_
    exact Nat.lt_irrefl _ (sound.fresh slot b _ (((sound.tree.owned slot.table).listed b _).mpr attached))
  obtain ⟨tree,stored,soundTree,changes⟩ := setTableEntry_exact sound.tree slot held loose
  refine ⟨tree,stored,⟨⟨soundTree,fun other b id listed => ?_⟩,.call (.setTableEntry slot a new) stored,
    fun table apart => .changes changes apart (sizes table apart)⟩,changes⟩
  change id < s.fresh + new.toList.length
  rw [changes.entries] at listed
  by_cases here : b = a
  · subst here
    rw [update_self] at listed
    by_cases same : other.table = slot.table
    · rw [same,update_self] at listed
      cases new with
      | none => cases listed
      | some new =>
        cases List.mem_singleton.mp listed
        cases next id rfl
        exact Nat.lt_succ_self _
    · rw [update_of_ne same] at listed
      exact Nat.lt_of_lt_of_le (sound.fresh other b id listed) (Nat.le_add_right ..)
  · rw [update_of_ne here] at listed
    exact Nat.lt_of_lt_of_le (sound.fresh other b id listed) (Nat.le_add_right ..)

theorem getOrAttach_does :
    ∃ t, s.getOrAttach slot a = some t ∧ Does hash options slot.table s t ∧ ((n.entry.slot slot).isSome ∧ t = s ∨
      n.entry.slot slot = none ∧ Writes slot a [s.fresh] s t ∧ t.fresh = s.fresh + 1 ∧ t.nItems slot.table = s.nItems slot.table + 1) := by
  cases present : n.entry.slot slot with
  | some id => exact ⟨s,by simp [getOrAttach,held,present],.refl sound,.inl ⟨rfl,rfl⟩⟩
  | none =>
    obtain ⟨tree,stored,does,changes⟩ := setTableEntry_does options sound slot held (some s.fresh) (by simp)
      (update s.nItems slot.table (s.nItems slot.table + 1)) (fun _ apart => update_of_ne apart ..)
    exact ⟨_,by simp [getOrAttach,held,present,stored,count],does,.inr ⟨rfl,.changes changes,rfl,update_self ..⟩⟩

theorem tidy_does (canDeleteNte : Bool)
    (own : Table) (size : Table → Int) (sizes : ∀ table, table ≠ own → size table = s.nItems table) :
    ∃ tree, tidy options s.tree a canDeleteNte = some tree ∧ Does hash options own s ⟨tree,s.fresh,size⟩ ∧
      Shrinks s.tree.ht.contents tree.ht.contents := by
  cases canDeleteNte with
  | false => exact ⟨s.tree,rfl,⟨⟨sound.tree,sound.fresh⟩,.refl,fun table apart => ⟨fun _ => rfl,fun _ _ => rfl,sizes table apart⟩⟩,rfl,fun _ _ held => held⟩
  | true =>
    obtain ⟨tree,erased,ran,soundTree,_,shrinks⟩ := eraseIfEmpty_exact options sound.tree held true
    refine ⟨tree,by simp [tidy,ran],⟨⟨soundTree,?_⟩,.call (.eraseIfEmpty a true) (by simp [NameTree.step,ran]),
      fun table apart => .shrinks shrinks (sizes table apart)⟩,shrinks⟩
    intro slot b id listed
    exact sound.fresh slot b id (shrinks.tables ▸ listed)

theorem detach_does (canDeleteNte : Bool) :
    ∃ t, s.detach options slot a canDeleteNte = some t ∧ Does hash options slot.table s t ∧ Writes slot a [] s t ∧
      t.nItems slot.table = s.nItems slot.table - 1 := by
  obtain ⟨cleared,stored,first,changes⟩ := setTableEntry_does options sound slot held none nofun s.nItems (fun _ _ => rfl)
  obtain ⟨m,there,_⟩ := holds_label.mpr ((congrFun changes.labels a).trans (holds_label.mp ⟨n,held,rfl⟩))
  obtain ⟨tree,tidied,second,shrinks⟩ := tidy_does options first.sound there canDeleteNte slot.table
    (update s.nItems slot.table (s.nItems slot.table + (-1))) (fun _ apart => update_of_ne apart ..)
  have written : Writes slot a [] s ⟨cleared,s.fresh,s.nItems⟩ := .changes changes
  have still : Undisturbed slot.table ⟨cleared,s.fresh,s.nItems⟩ ⟨tree,s.fresh,s.nItems⟩ := .shrinks shrinks rfl
  refine ⟨_,by simp [detach,stored,tidied,count],first.trans second,⟨fun b => (still.entries b).trans (written.entries b),fun b used => ?_⟩,?_⟩
  · rw [still.entries b] at used
    exact (still.labels b used).trans (written.labels b used)
  · exact update_self ..

end

theorem attachAt_does (inside : prefixLen ≤ name.length) (shallow : prefixLen ≤ maxDepth) :
    ∃ t, (s.lookup hash options name prefixLen).bind (fun (s,nte) => s.getOrAttach slot nte) = some t ∧ Does hash options slot.table s t := by
  obtain ⟨middle,nte,n,looked,⟨held,_⟩,_,_,first⟩ := lookup_does options _ sound inside shallow
  obtain ⟨t,attached,second,_⟩ := getOrAttach_does options (first .pit).sound slot held
  exact ⟨t,by rw [looked]; exact attached,(first slot.table).trans second⟩

theorem insertPit_does (held : s.tree.ht.contents a = some n) {id : EntryId} (loose : s.tree.owner .pit id = none)
    (size : Table → Int) (sizes : ∀ table, table ≠ .pit → size table = s.nItems table) :
    ∃ tree, s.tree.insertPitEntry a id = some tree ∧ Does hash options .pit s ⟨tree,s.fresh,size⟩ ∧
      NameTree.Changes s.tree tree a .pit (n.entry.pitEntries ++ [id]) := by
  obtain ⟨tree,ran,soundTree,changes⟩ := insertPitEntry_exact sound.tree held loose
  refine ⟨tree,ran,⟨⟨soundTree,fun slot b other listed => ?_⟩,.call (.insertPitEntry a id) ran,
    fun table apart => .changes changes apart (sizes table apart)⟩,changes⟩
  exact sound.fresh slot b other (changes_frame changes (slot_apart slot) b ▸ listed)

theorem pitInsert_does
    (fresh : EntryId) (loose : s.tree.owner .pit fresh = none) :
    ∃ t found isNew middle nte n, s.pitFindOrInsert hash options objects interest true fresh = some (t,found,isNew) ∧
      Does hash options .pit s t ∧ Sound hash middle ∧ Inserts objects interest fresh s middle t nte n := by
  obtain ⟨inside,shallow⟩ := nteDepth_le interest.name
  obtain ⟨middle,nte,n,looked,place,owner,still,first⟩ := lookup_does options _ sound inside shallow
  cases matched : findMatch objects interest n with
  | some id =>
    have ran : s.pitFindOrInsert hash options objects interest true fresh = some (middle,some id,false) := by
      rw [findMatch] at matched
      simp [pitFindOrInsert,pitNode,looked,place.1,matched]
    exact ⟨middle,some id,false,middle,nte,n,ran,first .pit,(first .pit).sound,still .pit,place,fun _ => rfl,by simp [matched]⟩
  | none =>
    obtain ⟨tree,inserted,second,changes⟩ := insertPit_does options (first .pit).sound place.1 (by rw [owner,loose])
      (update middle.nItems .pit (middle.nItems .pit + 1)) (fun _ apart => update_of_ne apart ..)
    have ran : s.pitFindOrInsert hash options objects interest true fresh =
        some (⟨tree,middle.fresh,update middle.nItems .pit (middle.nItems .pit + 1)⟩,some fresh,true) := by
      rw [findMatch] at matched
      simp [pitFindOrInsert,pitNode,looked,place.1,matched,inserted,count]
    exact ⟨_,some fresh,true,middle,nte,n,ran,(first .pit).trans second,(first .pit).sound,still .pit,place,fun found => absurd matched found,
      fun _ => ⟨changes,by simp⟩⟩

theorem pitFindOrInsert_does (allowInsert : Bool)
    (fresh : EntryId) (loose : s.tree.owner .pit fresh = none) (used : allowInsert = false →
      ∀ a n, s.tree.ht.contents a = some n → n.entry.name = interest.name.take (nteDepth interest.name) → n.entry.isEmpty = false) :
    ∃ t found isNew, s.pitFindOrInsert hash options objects interest allowInsert fresh = some (t,found,isNew) ∧ Does hash options .pit s t := by
  cases allowInsert with
  | true =>
    obtain ⟨t,found,isNew,_,_,_,ran,does,_,_⟩ := pitInsert_does options sound objects interest fresh loose
    exact ⟨t,found,isNew,ran,does⟩
  | false =>
    obtain ⟨found,ran,exactly⟩ := findExactMatch_exact options sound.tree interest.name (nteDepth interest.name)
    cases found with
    | none => exact ⟨s,none,true,by simp [pitFindOrInsert,pitNode,ran],.refl sound⟩
    | some nte =>
      obtain ⟨n,held,named⟩ := (exactly nte).mp rfl
      cases matched : n.entry.pitEntries.find? (fun id => (objects id).any (·.canMatch interest (nteDepth interest.name))) with
      | some id => exact ⟨s,some id,false,by simp [pitFindOrInsert,pitNode,ran,held,matched],.refl sound⟩
      | none => exact ⟨s,none,true,by simp [pitFindOrInsert,pitNode,ran,held,matched,used rfl nte n held named],.refl sound⟩

theorem pitErase_does {id : EntryId} (attached : s.tree.owner .pit id = some a) (held : s.tree.ht.contents a = some n)
    (canDeleteNte : Bool) :
    ∃ t erased, s.pitErase options id canDeleteNte = some t ∧ Does hash options .pit s t ∧
      NameTree.Changes s.tree erased a .pit (eraseSwap n.entry.pitEntries id) ∧ Shrinks erased.ht.contents t.tree.ht.contents ∧
      t.nItems .pit = s.nItems .pit - 1 := by
  obtain ⟨erased,ran,soundTree,changes⟩ := erasePitEntry_exact sound.tree held attached
  have first : Does hash options .pit s { s with tree := erased } := by
    refine ⟨⟨soundTree,fun slot b other listed => ?_⟩,.call (.erasePitEntry a id) ran,fun _ apart => .changes changes apart rfl⟩
    exact sound.fresh slot b other (changes_frame changes (slot_apart slot) b ▸ listed)
  obtain ⟨m,there,_⟩ := holds_label.mpr ((congrFun changes.labels a).trans (holds_label.mp ⟨n,held,rfl⟩))
  obtain ⟨tree,tidied,second,shrinks⟩ := tidy_does options first.sound there canDeleteNte .pit
    (update s.nItems .pit (s.nItems .pit + (-1))) (fun _ apart => update_of_ne apart ..)
  exact ⟨_,erased,by simp [pitErase,getEntry,attached,ran,tidied,count],first.trans second,changes,shrinks,by simp [Int.sub_eq_add_neg]⟩

theorem findExactMatch_live (prefixLen : Nat) :
    ∃ found, s.tree.findExactMatch hash options name prefixLen = some found ∧ ∀ nte, found = some nte → ∃ n, s.tree.ht.contents nte = some n := by
  obtain ⟨found,ran,exactly⟩ := findExactMatch_exact options sound.tree name prefixLen
  refine ⟨found,ran,fun nte hit => ?_⟩
  obtain ⟨n,held,_⟩ := (exactly nte).mp hit
  exact ⟨n,held⟩

theorem fibErase_does : ∃ t, s.fibErase hash options name = some t ∧ Does hash options .fib s t := by
  obtain ⟨found,ran,live⟩ := findExactMatch_live options sound name name.length
  cases found with
  | none => exact ⟨s,by simp [fibErase,ran],.refl sound⟩
  | some nte =>
    obtain ⟨n,held⟩ := live nte rfl
    obtain ⟨t,detached,does,_⟩ := detach_does options sound .fib held true
    exact ⟨t,by simp [fibErase,ran,detached],does⟩

end

theorem strategyChoiceErase_does (nonempty : name ≠ []) :
    ∃ t, s.strategyChoiceErase hash options name = some t ∧ Does hash options .strategyChoice s t ∧
      (t = s ∨ ∃ a, labelOf s.tree.ht.contents a = some name ∧ Writes .strategyChoice a [] s t) := by
  obtain ⟨found,ran,exactly⟩ := findExactMatch_exact options sound.tree name name.length
  rw [List.take_length] at exactly
  cases found with
  | none => exact ⟨s,by simp [strategyChoiceErase,nonempty,ran],.refl sound,.inl rfl⟩
  | some nte =>
    obtain ⟨n,held,named⟩ := (exactly nte).mp rfl
    by_cases bare : n.entry.strategyChoiceEntry = none
    · exact ⟨s,by simp [strategyChoiceErase,nonempty,ran,held,bare],.refl sound,.inl rfl⟩
    · obtain ⟨t,detached,does,written,_⟩ := detach_does options sound .strategyChoice held true
      exact ⟨t,by simp [strategyChoiceErase,nonempty,ran,held,bare,detached],does,.inr ⟨nte,holds_label.mp ⟨n,held,named⟩,written⟩⟩

theorem owned_detach_does (slot : Slot) {id : TableId} (attached : s.tree.owner slot.table id = some a) (canDeleteNte : Bool) :
    ∃ t, s.detach options slot a canDeleteNte = some t ∧ Does hash options slot.table s t := by
  obtain ⟨n,held,_⟩ := owner_live sound.tree attached
  obtain ⟨t,ran,does,_⟩ := detach_does options sound slot held canDeleteNte
  exact ⟨t,ran,does⟩

theorem measurementsGetFib_does {entry : TableId}
    (known : entry = emptyFibEntry ∨ ∃ node, s.tree.owner .fib entry = some node) :
    ∃ t, s.measurementsGetFib hash options entry = some t ∧ Does hash options .measurements s t := by
  cases attached : s.tree.owner .fib entry with
  | none =>
    obtain rfl : entry = emptyFibEntry := known.resolve_right (by simp [attached])
    obtain ⟨t,ran,does⟩ := attachAt_does options sound [] .measurements (Nat.le_refl 0) (Nat.zero_le _)
    exact ⟨t,by simpa [measurementsGetFib,lookupFibEntry,getEntry,attached] using ran,does⟩
  | some node =>
    obtain ⟨n,held,listed⟩ := owner_live sound.tree attached
    have own : n.entry.fibEntry = some entry := by simpa [TreeEntry.entries] using listed
    obtain ⟨t,ran,does,_⟩ := getOrAttach_does options sound .measurements held
    exact ⟨t,by simp [measurementsGetFib,lookupFibEntry,getEntry,attached,held,own,ran],does⟩

theorem measurementsGetPit_does {id : EntryId}
    (known : (name.endsWithDigest ∧ name.length ≤ maxDepth) ∨ ∃ node, s.tree.owner .pit id = some node) :
    ∃ t, s.measurementsGetPit hash options name id = some t ∧ Does hash options .measurements s t := by
  by_cases digest : name.endsWithDigest ∧ name.length ≤ maxDepth
  · obtain ⟨t,ran,does⟩ := attachAt_does options sound name .measurements (Nat.le_refl name.length) digest.2
    exact ⟨t,by simpa [measurementsGetPit,lookupPitEntry,digest] using ran,does⟩
  · obtain ⟨node,attached⟩ := known.resolve_left digest
    obtain ⟨n,held,listed⟩ := owner_live sound.tree attached
    have once : n.entry.pitEntries.count id = 1 := by
      refine List.count_eq_one_of_mem ?_ listed
      simpa [entriesOf_held held,TreeEntry.entries] using (sound.tree.owned .pit).distinct node
    obtain ⟨t,ran,does,_⟩ := getOrAttach_does options sound .measurements held
    exact ⟨t,by simp [measurementsGetPit,lookupPitEntry,digest,getEntry,attached,held,once,ran],does⟩

theorem measurementsGetParent_does {child : TableId} (attached : s.tree.owner .measurements child = some a) :
    ∃ t, s.measurementsGetParent child = some t ∧ Does hash options .measurements s t := by
  obtain ⟨n,held,_⟩ := owner_live sound.tree attached
  by_cases root : n.entry.name = []
  · exact ⟨s,by simp [measurementsGetParent,getEntry,attached,held,root],.refl sound⟩
  · obtain ⟨p,hung,label⟩ := sound.tree.linked.labelled.above a n.entry.name (by simp [labelOf,held]) root
    obtain ⟨m,there,_⟩ := holds_label.mpr label
    have up : n.entry.parent = some p := by simpa [parentOf,held] using hung
    obtain ⟨t,ran,does,_⟩ := getOrAttach_does options sound .measurements there
    exact ⟨t,by simp [measurementsGetParent,getEntry,attached,held,root,up,ran],does⟩

theorem setDefault_does :
    ∃ t a id, s.strategyChoiceSetDefault hash options = some t ∧ Does hash options .strategyChoice s t ∧
      labelOf t.tree.ht.contents a = some [] ∧ entriesOf t.tree.ht.contents a .strategyChoice = [id] := by
  obtain ⟨middle,nte,n,looked,⟨held,named⟩,_,_,first⟩ := lookup_does options [] sound (Nat.le_refl 0) (Nat.zero_le _)
  obtain ⟨tree,stored,second,changes⟩ := setTableEntry_does options (first .pit).sound .strategyChoice held (some middle.fresh) (by simp)
    (update middle.nItems .strategyChoice (middle.nItems .strategyChoice + 1)) (fun _ apart => update_of_ne apart ..)
  have written : Writes .strategyChoice nte [middle.fresh] middle ⟨tree,middle.fresh,middle.nItems⟩ := .changes changes
  refine ⟨_,nte,middle.fresh,by simp [strategyChoiceSetDefault,looked,setStrategyChoiceEntry,stored,count],(first _).trans second,?_,?_⟩
  · exact (congrFun changes.labels nte).trans (holds_label.mp ⟨n,held,named⟩)
  · exact (written.entries nte).trans (if_pos rfl)

end

theorem step_does {call : TableCall} (sound : Sound hash s) (admissible : Admissible s call) :
    ∃ t, s.step hash options call = some t ∧ Does hash options call.table s t := by
  cases call with
  | fibInsert name => exact attachAt_does options sound name .fib (Nat.le_refl _) admissible
  | fibErase name => exact fibErase_does options sound name
  | fibEraseEntry entry =>
    cases attached : s.tree.owner .fib entry with
    | none =>
      obtain rfl : entry = emptyFibEntry := admissible.resolve_right (by simp [attached])
      exact ⟨s,by simp [step,fibEraseEntry,getEntry,attached],.refl sound⟩
    | some node =>
      obtain ⟨t,ran,does⟩ := owned_detach_does options sound .fib attached true
      exact ⟨t,by simp [step,fibEraseEntry,getEntry,attached,ran],does⟩
  | fibRemoveNextHop entry =>
    obtain ⟨node,attached⟩ := admissible
    obtain ⟨t,ran,does⟩ := owned_detach_does options sound .fib attached false
    exact ⟨t,by simp [step,fibRemoveNextHop,getEntry,attached,ran],does⟩
  | measurementsGet name => exact attachAt_does options sound name .measurements (Nat.min_le_left ..) (Nat.min_le_right ..)
  | measurementsGetFib entry => exact measurementsGetFib_does options sound admissible
  | measurementsGetPit name id => exact measurementsGetPit_does options sound admissible
  | measurementsGetParent child =>
    obtain ⟨node,attached⟩ := admissible
    exact measurementsGetParent_does options sound attached
  | measurementsCleanup entry =>
    obtain ⟨node,attached⟩ := admissible
    obtain ⟨t,ran,does⟩ := owned_detach_does options sound .measurements attached true
    exact ⟨t,by simp [step,measurementsCleanup,getEntry,attached,ran],does⟩
  | strategyChoiceSetDefault =>
    obtain ⟨t,_,_,ran,does,_⟩ := setDefault_does options sound
    exact ⟨t,ran,does⟩
  | strategyChoiceInsert name =>
    by_cases deep : name.length > maxDepth
    · exact ⟨s,by simp [step,strategyChoiceInsert,deep],.refl sound⟩
    · obtain ⟨t,ran,does⟩ := attachAt_does options sound name .strategyChoice (Nat.le_refl _) (Nat.le_of_not_gt deep)
      exact ⟨t,by simpa [step,strategyChoiceInsert,deep] using ran,does⟩
  | strategyChoiceErase name =>
    obtain ⟨t,ran,does,_⟩ := strategyChoiceErase_does options sound admissible
    exact ⟨t,ran,does⟩
  | pitFindOrInsert objects interest allowInsert fresh =>
    obtain ⟨t,found,isNew,ran,does⟩ := pitFindOrInsert_does options sound objects interest allowInsert fresh admissible.1 admissible.2
    exact ⟨t,by simp [step,admissible.1,ran],does⟩
  | pitErase id canDeleteNte =>
    obtain ⟨node,attached⟩ := admissible
    obtain ⟨n,held,_⟩ := owner_live sound.tree attached
    obtain ⟨t,_,ran,does,_⟩ := pitErase_does options sound attached held canDeleteNte
    exact ⟨t,ran,does⟩
  | sweep node =>
    obtain ⟨n,held⟩ := admissible
    obtain ⟨tree,erased,ran,soundTree,_,shrinks⟩ := eraseIfEmpty_exact options sound.tree held false
    refine ⟨{ s with tree := tree },by simp [step,ran],⟨soundTree,fun slot b id listed => ?_⟩,.call (.eraseIfEmpty node false) (by simp [NameTree.step,ran]),
      fun _ _ => .shrinks shrinks rfl⟩
    exact sound.fresh slot b id (shrinks.tables ▸ listed)

theorem lookup_checked (looked : s.lookup hash options name prefixLen = some result) : prefixLen ≤ maxDepth := by
  obtain ⟨_,ran,_⟩ := map_eq_some_iff.mp looked
  obtain ⟨_,found,_⟩ := map_eq_some_iff.mp ran
  exact (ite_none_right_eq_some.mp found).1.2

theorem step_admissible {call : TableCall} (sound : Sound hash s) (taken : s.step hash options call = some t) : Admissible s call := by
  cases call with
  | fibInsert name =>
    obtain ⟨_,looked,_⟩ := bind_eq_some_iff.mp taken
    exact lookup_checked looked
  | fibErase name | measurementsGet name | strategyChoiceSetDefault | strategyChoiceInsert name => trivial
  | fibEraseEntry entry =>
    cases attached : s.tree.owner .fib entry with
    | none =>
      simp only [step,fibEraseEntry,getEntry,attached] at taken
      exact .inl (ite_none_right_eq_some.mp taken).1
    | some node => exact .inr ⟨node,attached⟩
  | fibRemoveNextHop entry | measurementsCleanup entry | measurementsGetParent entry =>
    obtain ⟨node,attached,_⟩ := bind_eq_some_iff.mp taken
    exact ⟨node,attached⟩
  | measurementsGetFib entry =>
    cases attached : s.tree.owner .fib entry with
    | none =>
      obtain ⟨_,looked,_⟩ := bind_eq_some_iff.mp taken
      simp only [lookupFibEntry,getEntry,attached] at looked
      exact .inl (ite_none_right_eq_some.mp looked).1
    | some node => exact .inr ⟨node,attached⟩
  | measurementsGetPit name id =>
    by_cases digest : name.endsWithDigest ∧ name.length ≤ maxDepth
    · exact .inl digest
    · obtain ⟨_,looked,_⟩ := bind_eq_some_iff.mp taken
      rw [lookupPitEntry,if_neg digest] at looked
      obtain ⟨node,attached,_⟩ := bind_eq_some_iff.mp looked
      exact .inr ⟨node,attached⟩
  | strategyChoiceErase name =>
    rintro rfl
    simp [step,strategyChoiceErase] at taken
  | pitFindOrInsert objects interest allowInsert fresh =>
    obtain ⟨loose,rest⟩ := ite_none_right_eq_some.mp taken
    refine ⟨loose,?_⟩
    rintro rfl a n held named
    obtain ⟨found,ran,exactly⟩ := findExactMatch_exact options sound.tree interest.name (nteDepth interest.name)
    cases (exactly a).mpr ⟨n,held,named⟩
    cases matched : n.entry.pitEntries.find? (fun id => (objects id).any (·.canMatch interest (nteDepth interest.name))) with
    | some id =>
      have listed := List.mem_of_find?_eq_some matched
      refine Bool.eq_false_iff.mpr fun empty => ?_
      rw [show n.entry.pitEntries = [] from congrFun (isEmpty_parts empty).2 .pit] at listed
      cases listed
    | none =>
      have used : n.entry.isEmpty = false ∧ s = t := by simpa [pitFindOrInsert,pitNode,ran,held,matched] using rest
      exact used.1
  | pitErase id canDeleteNte =>
    obtain ⟨node,attached,_⟩ := bind_eq_some_iff.mp taken
    exact ⟨node,attached⟩
  | sweep node =>
    obtain ⟨_,erased,_⟩ := map_eq_some_iff.mp taken
    obtain ⟨_,ran,_⟩ := map_eq_some_iff.mp erased
    obtain ⟨n,held,_⟩ := bind_eq_some_iff.mp ran
    exact ⟨n,held⟩

theorem reached_sound (path : Transition.Reached (step hash options) (· = new options) s) : Sound hash s := by
  refine Transition.Reached.invariant ?_ (fun s call t sound taken => ?_) path
  · rintro s rfl
    refine ⟨new_sound,fun slot a id listed => ?_⟩
    simp [new,NameTree.new,Hashtable.new,computeThresholds,Hashtable.contents,LinkedList.valueAt,entriesOf] at listed
  · obtain ⟨u,ran,does⟩ := step_does sound (step_admissible sound taken)
    cases taken.symm.trans ran
    exact does.sound

end TreeTables

structure NameTree.Structured (tree : NameTree) : Prop where
  root : ∀ a n, tree.ht.contents a = some n → n.entry.name = [] → n.entry.parent = none
  parent : ∀ a n, tree.ht.contents a = some n → n.entry.name ≠ [] →
    ∃ p m, n.entry.parent = some p ∧ tree.ht.contents p = some m ∧ m.entry.name = n.entry.name.dropLast
  children : ∀ a n, tree.ht.contents a = some n →
    n.entry.children.Nodup ∧ ∀ b, b ∈ n.entry.children ↔ ∃ m, tree.ht.contents b = some m ∧ m.entry.parent = some a
  depth : ∀ a n, tree.ht.contents a = some n → n.entry.name.length ≤ maxDepth
  back : ∀ a n, tree.ht.contents a = some n → ∀ table id, id ∈ n.entry.entries table → tree.getEntry table id = some a
  attached : ∀ table id a, tree.getEntry table id = some a → ∃ n, tree.ht.contents a = some n ∧ id ∈ n.entry.entries table

open Hashtable in
theorem NameTree.Sound.structured {hash : HashFunction} {tree : NameTree} (sound : NameTree.Sound hash tree) : tree.Structured := by
  have label : ∀ {a n}, tree.ht.contents a = some n → labelOf tree.ht.contents a = some n.entry.name := fun held => by simp [labelOf,held]
  refine ⟨fun a n held empty => ?_,fun a n held nonempty => ?_,fun a n held => ⟨?_,fun b => ?_⟩,sound.sound.registered.depth,
    fun a n held table id listed => ?_,fun table id a attached => TreeTables.owner_live sound attached⟩
  · simpa [parentOf,held] using sound.linked.labelled.root a ((label held).trans (congrArg some empty))
  · obtain ⟨p,hung,above⟩ := sound.linked.labelled.above a _ (label held) nonempty
    obtain ⟨m,there,named⟩ := holds_label.mpr above
    exact ⟨p,m,by simpa [parentOf,held] using hung,there,named⟩
  · simpa [childrenOf,held] using sound.linked.consistent.distinct a
  · have listed := sound.linked.consistent.listed a b
    simpa only [childrenOf,parentOf,comp_apply,held,elim_some,bind_eq_some_iff] using listed
  · exact ((sound.owned table).listed a id).mp (entriesOf_held held ▸ listed)

-- Every state the tree passes through in a sequence of calls on the tables has
-- this structure, and the calls made as promised return.
theorem name_tree_structure {hash : HashFunction} {options : HashtableOptions} {s : TreeTables}
    (path : Transition.Reached (TreeTables.step hash options) (· = .new options) s) :
    s.tree.Structured ∧ ∀ call, s.Admissible call → ∃ t calls, s.step hash options call = some t ∧
      Transition.run (NameTree.step hash options) s.tree calls = some t.tree ∧
      ∀ u, Transition.Visits (NameTree.step hash options) s.tree calls u → u.Structured := by
  have sound := TreeTables.reached_sound path
  refine ⟨sound.tree.structured,fun call admissible => ?_⟩
  obtain ⟨t,taken,_,⟨calls,ran⟩,_⟩ := TreeTables.step_does sound admissible
  refine ⟨t,calls,taken,ran,?_⟩
  rintro u ⟨front,_,_,passed⟩
  have inner := Transition.run_reached (.start rfl) passed
  have soundU : NameTree.Sound hash u := by
    refine Transition.Reached.invariant ?_ (fun _ _ _ prior step => NameTree.step_sound prior step) inner
    rintro _ rfl
    exact sound.tree
  exact soundU.structured

theorem name_tree_structure_pruned :
    ∃ s, Transition.run (TreeTables.step (xorHash fun _ => 5) (.default 2 (by decide))) (.new (.default 2 (by decide)))
        [.fibInsert [⟨8,[97]⟩,⟨8,[98]⟩,⟨8,[99]⟩],.measurementsGet [⟨8,[97]⟩],.fibErase [⟨8,[97]⟩,⟨8,[98]⟩,⟨8,[99]⟩]] = some s ∧
      s.tree.ht.size = 2 ∧ s.tree.getEntry .measurements 2 = some 1 ∧ s.tree.Structured :=
  run_shows_both (by decide) fun _ taken => (name_tree_structure (run_reached (.start rfl) taken)).1

end ReflexiveNfd

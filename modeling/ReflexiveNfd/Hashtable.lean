import ReflexiveNfd.Lib.LinkedList
import ReflexiveNfd.Lib.Transition
import ReflexiveNfd.NameWires
import ReflexiveNfd.Pit

namespace ReflexiveNfd
open List Option Function LinkedList

abbrev NodeId := Nat
abbrev TableId := Nat

-- name_tree::Entry. The table entries it owns are known by their addresses.
structure TreeEntry where
  name : Name
  parent : Option NodeId := none
  children : List NodeId := []
  fibEntry : Option TableId := none
  pitEntries : List EntryId := []
  measurementsEntry : Option TableId := none
  strategyChoiceEntry : Option TableId := none
  deriving DecidableEq, Repr

structure TreeNode where
  hash : Nat
  entry : TreeEntry
  deriving DecidableEq, Repr

structure HashFunction where
  computeHash : Name → Nat → Nat
  computeHashes : Name → Nat → List Nat
  respects : ∀ name other i j, take i name = take j other → computeHash name i = computeHash other j
  sequence : ∀ name prefixLen i, i ≤ prefixLen → i ≤ name.length → (computeHashes name prefixLen)[i]? = some (computeHash name i)

def hashesFrom (compute : List UInt8 → UInt64) : UInt64 → Name → List Nat
  | h,[] => [h.toNat]
  | h,comp :: rest => h.toNat :: hashesFrom compute (h ^^^ compute comp.octets) rest

theorem hashesFrom_getElem (compute : List UInt8 → UInt64) (h : UInt64) (name : Name) (i : Nat) (inside : i ≤ name.length) :
    (hashesFrom compute h name)[i]? = some ((name.take i).foldl (fun h comp => h ^^^ compute comp.octets) h).toNat := by
  induction name generalizing h i with
  | nil => simp_all [hashesFrom]
  | cons comp rest ih =>
    cases i with
    | zero => rfl
    | succ i => exact ih _ i (Nat.le_of_succ_le_succ inside)

-- The hash of the source: the hashes of the components' octets combined by exclusive
-- or. City hash is left open.
def xorHash (compute : List UInt8 → UInt64) : HashFunction where
  computeHash name prefixLen := ((name.take prefixLen).foldl (fun h comp => h ^^^ compute comp.octets) 0).toNat
  computeHashes name prefixLen := hashesFrom compute 0 (name.take prefixLen)
  respects name other i j same := by rw [same]
  sequence name prefixLen i within short := by
    have inside : i ≤ (name.take prefixLen).length := by
      rw [length_take]
      omega
    simpa [take_take,within] using hashesFrom_getElem compute 0 (name.take prefixLen) i inside

theorem computeHash_key (compute : List UInt8 → UInt64) (accepted : WireName.Accepted n) (prefixLen : Nat) :
    (xorHash compute).computeHash n.key prefixLen = (n.computeHash compute prefixLen).toNat := by
  rw [WireName.computeHash,← WireName.key_octets accepted,← map_take,foldl_map]
  rfl

-- What the constructor asserts is part of the options. The factors enter only
-- through the sizes computed from them.
structure HashtableOptions where
  initialSize : Nat
  minSize : Nat
  expandThreshold : Nat → Nat
  shrinkThreshold : Nat → Nat
  expandedSize : Nat → Nat
  shrunkSize : Nat → Nat
  minSize_pos : 0 < minSize
  initialSize_min : minSize ≤ initialSize
  expandedSize_pos : ∀ nBuckets, 0 < nBuckets → 0 < expandedSize nBuckets

def HashtableOptions.default (size : Nat) (positive : 0 < size) : HashtableOptions where
  initialSize := size
  minSize := size
  expandThreshold nBuckets := nBuckets / 2
  shrinkThreshold nBuckets := nBuckets / 10
  expandedSize nBuckets := 2 * nBuckets
  shrunkSize nBuckets := nBuckets / 2
  minSize_pos := positive
  initialSize_min := Nat.le_refl size
  expandedSize_pos nBuckets some := by omega

-- Addresses are not used twice, so that a pointer to a deleted node is noticed.
structure Hashtable where
  heap : LinkedList.Heap NodeId TreeNode
  buckets : List (Option NodeId)
  size : Nat
  expandThreshold : Nat
  shrinkThreshold : Nat
  fresh : NodeId

namespace Hashtable
variable (hash : HashFunction) (options : HashtableOptions)

-- A failed assertion, a pointer to no node and an index out of range are none.

def computeBucketIndex (t : Hashtable) (h : Nat) : Nat := h % t.buckets.length

def computeThresholds (t : Hashtable) : Hashtable :=
  { t with expandThreshold := options.expandThreshold t.buckets.length,
           shrinkThreshold := options.shrinkThreshold t.buckets.length }

def new : Hashtable :=
  computeThresholds options ⟨fun _ => none,replicate options.initialSize none,0,0,0,0⟩

section
variable (t : Hashtable)

def attach (bucket : Nat) (node : NodeId) : Option Hashtable := do
  let head ← t.buckets[bucket]?
  let (heap,head) ← LinkedList.attach t.heap head node
  return { t with heap := heap, buckets := t.buckets.set bucket head }

def detach (bucket : Nat) (node : NodeId) : Option Hashtable := do
  let head ← t.buckets[bucket]?
  let (heap,head) ← LinkedList.detach t.heap head node
  return { t with heap := heap, buckets := t.buckets.set bucket head }

def reattach (node : NodeId) : Option Hashtable := do
  let cell ← t.heap node
  t.attach (t.computeBucketIndex cell.value.hash) node

-- The old bucket array is walked while the nodes move to the new one.
def resize (newNBuckets : Nat) : Option Hashtable :=
  if t.buckets.length = newNBuckets then some t
  else do
    let moved ← t.buckets.foldlM (fun u head => foreachNode heap reattach t.size u head)
      { t with buckets := replicate newNBuckets none }
    return computeThresholds options moved

def allocate (h : Nat) (name : Name) : Option Hashtable :=
  if name.length ≤ maxDepth then
    some { t with heap := LinkedList.put t.heap t.fresh ⟨⟨h,{ name := name }⟩,none,none⟩, fresh := t.fresh + 1 }
  else none

def insertNode (name : Name) (h : Nat) : Option Hashtable := do
  let allocated ← t.allocate h name
  let attached ← allocated.attach (allocated.computeBucketIndex h) t.fresh
  let grown := { attached with size := attached.size + 1 }
  if grown.size > grown.expandThreshold then grown.resize options (options.expandedSize grown.buckets.length) else some grown

-- A bucket list that does not end within the number of nodes is a failure too.
def search (name : Name) (h : Nat) : Option (Option NodeId) := do
  let head ← t.buckets[t.computeBucketIndex h]?
  LinkedList.search t.heap (fun node => node.hash == h && Name.compare name node.entry.name == .eq) t.size head

def findOrInsert (name : Name) (prefixLen h : Nat) (allowInsert : Bool) :
    Option (Hashtable × Option NodeId × Bool) := do
  match ← t.search (name.take prefixLen) h with
  | some node => return (t,some node,false)
  | none =>
    if allowInsert then
      let grown ← t.insertNode options (name.take prefixLen) h
      return (grown,some t.fresh,true)
    else return (t,none,false)

def find (name : Name) (prefixLen : Nat) : Option (Option NodeId) :=
  (t.findOrInsert options name prefixLen (hash.computeHash name prefixLen) false).map (·.2.1)

end

section
variable (t : Hashtable) (name : Name) (prefixLen : Nat) (hashes : List Nat) (node : NodeId)

-- hashes.at raises beyond the end of the sequence.
def checkedHash : Option Nat := do
  let h ← hashes[prefixLen]?
  if h = hash.computeHash name prefixLen then some h else none

def findHashed : Option (Option NodeId) := do
  let h ← checkedHash hash name prefixLen hashes
  let (_,node,_) ← t.findOrInsert options name prefixLen h false
  return node

def insert : Option (Hashtable × Option NodeId × Bool) := do
  let h ← checkedHash hash name prefixLen hashes
  t.findOrInsert options name prefixLen h true

-- The destructor asserts that the node is unlinked.
def deallocate : Option Hashtable := do
  let cell ← t.heap node
  if cell.prev = none ∧ cell.next = none then some { t with heap := free t.heap node } else none

def erase : Option Hashtable := do
  let cell ← t.heap node
  if cell.value.entry.parent = none then
    let detached ← t.detach (t.computeBucketIndex cell.value.hash) node
    let deleted ← detached.deallocate node
    let shrunk := { deleted with size := deleted.size - 1 }
    if shrunk.size < shrunk.shrinkThreshold then
      shrunk.resize options (max options.minSize (options.shrunkSize shrunk.buckets.length))
    else some shrunk
  else none

def write (f : TreeEntry → TreeEntry) : Option Hashtable := do
  let cell ← t.heap node
  return { t with heap := LinkedList.put t.heap node { cell with value := { cell.value with entry := f cell.value.entry } } }

end

theorem update_eq_some [DecidableEq α] {f : α → Option β} {a b : α} {new : Option β} :
    update f a new b = some x ↔ (b = a ∧ new = some x) ∨ (b ≠ a ∧ f b = some x) := by
  by_cases equal : b = a <;> simp [equal]

def contents (t : Hashtable) : NodeId → Option TreeNode := valueAt t.heap

def Placed (contents : NodeId → Option TreeNode) (lists : List (List NodeId)) : Prop :=
  ∀ i xs, lists[i]? = some xs → ∀ a ∈ xs, ∃ node, contents a = some node ∧ node.hash % lists.length = i

theorem Placed.set {contents : NodeId → Option TreeNode}
    (placed : Placed contents lists) (inside : ∀ a ∈ ys, ∃ node, contents a = some node ∧ node.hash % lists.length = index) :
    Placed contents (lists.set index ys) := by
  intro i xs listed a present
  rw [length_set]
  rw [getElem?_set] at listed
  split at listed
  · rename_i equal
    subst equal
    split at listed
    · cases listed
      exact inside a present
    · cases listed
  · exact placed i xs listed a present

theorem Placed.frame {contents others : NodeId → Option TreeNode}
    (placed : Placed contents lists) (same : ∀ a ∈ lists.flatten, others a = contents a) : Placed others lists := by
  intro i xs listed a inside
  rw [same a (mem_flatten_of_mem (mem_of_getElem? listed) inside)]
  exact placed i xs listed a inside

structure Arranged (t : Hashtable) (lists : List (List NodeId)) : Prop where
  chains : LinkedList.Chains t.heap t.buckets lists
  placed : Placed t.contents lists
  nonempty : 0 < lists.length

variable {t u : Hashtable} {lists : List (List NodeId)} {node : NodeId} {value : TreeNode}

theorem Arranged.buckets_length (arranged : Arranged t lists) : t.buckets.length = lists.length := by
  rw [arranged.chains.heads,length_map]

theorem Arranged.buckets_pos (arranged : Arranged t lists) : 0 < t.buckets.length := by
  rw [arranged.buckets_length]
  exact arranged.nonempty

theorem Arranged.bucket (arranged : Arranged t lists) (h : Nat) :
    ∃ xs, lists[h % lists.length]? = some xs ∧ t.buckets[t.computeBucketIndex h]? = some xs.head? := by
  have inside := Nat.mod_lt h arranged.nonempty
  refine ⟨_,getElem?_eq_getElem inside,?_⟩
  simp [computeBucketIndex,arranged.chains.heads,inside]

theorem Arranged.empty (t : Hashtable) (positive : 0 < n) : Arranged { t with buckets := replicate n none } (replicate n []) := by
  have bare : ∀ xs ∈ replicate n ([] : List NodeId), xs = [] := fun xs listed => (mem_replicate.mp listed).2
  refine ⟨⟨by simp,fun xs listed => ?_,by simp⟩,fun i xs listed a inside => ?_,by simpa using positive⟩
  · rw [bare xs listed]
    trivial
  · rw [bare xs (mem_of_getElem? listed)] at inside
    cases inside

theorem contents_live (held : t.contents node = some value) : ∃ cell, t.heap node = some cell ∧ cell.value = value :=
  map_eq_some_iff.mp held

theorem Arranged.attach (arranged : Arranged t lists) (apart : node ∉ lists.flatten) (held : t.contents node = some value) :
    ∃ heap lists', t.attach (t.computeBucketIndex value.hash) node =
        some { t with heap := heap, buckets := t.buckets.set (t.computeBucketIndex value.hash) (some node) } ∧
      Arranged { t with heap := heap, buckets := t.buckets.set (t.computeBucketIndex value.hash) (some node) } lists' ∧
      lists'.length = lists.length ∧ lists'.flatten.Perm (node :: lists.flatten) ∧
      LinkedList.Within t.heap heap (node :: lists.flatten) := by
  obtain ⟨cell,live,_⟩ := contents_live held
  obtain ⟨xs,here,head⟩ := arranged.bucket value.hash
  have index : t.computeBucketIndex value.hash = value.hash % lists.length := by
    rw [computeBucketIndex,arranged.buckets_length]
  obtain ⟨heap,attached,chains,within,grown⟩ := arranged.chains.attach here apart live
  refine ⟨heap,lists.set (value.hash % lists.length) (node :: xs),?_,⟨?_,?_,?_⟩,length_set,grown,within⟩
  · simp [Hashtable.attach,head,attached]
  · rw [index]
    exact chains
  · change Placed (valueAt heap) _
    rw [within.values]
    refine arranged.placed.set fun a inside => ?_
    rcases mem_cons.mp inside with rfl | old
    · exact ⟨value,held,rfl⟩
    · exact arranged.placed _ xs here a old
  · rw [length_set]
    exact arranged.nonempty

-- A table on its way to n buckets: the nodes xs of the list being walked and the
-- lists after it are still linked as they were.
structure Moving (t : Hashtable) (n : Nat) (all xs : List NodeId) (rest : List (List NodeId)) (u : Hashtable) : Prop where
  arranged : ∃ lists, Arranged u lists ∧ lists.length = n ∧ (lists.flatten ++ (xs ++ rest.flatten)).Perm all
  current : ∃ before, LinkedList.Links u.heap before xs none
  later : ∀ ys ∈ rest, LinkedList.Links u.heap none ys none
  contents : u.contents = t.contents
  kept : u = { t with heap := u.heap, buckets := u.buckets }

theorem Moving.step {n : Nat} {all xs : List NodeId} (distinct : all.Nodup)
    (moving : Moving t n all (node :: xs) rest u) :
    ∃ cell v, u.heap node = some cell ∧ cell.next = xs.head? ∧ u.reattach node = some v ∧ Moving t n all xs rest v := by
  obtain ⟨lists,arranged,length,perm⟩ := moving.arranged
  obtain ⟨before,⟨value,live⟩,links⟩ := moving.current
  have whole := perm.nodup_iff.mpr distinct
  have apart := disjoint_of_nodup_append whole
  have fresh : node ∉ lists.flatten := fun clash => apart clash (by simp)
  have held : u.contents node = some value := by
    rw [Hashtable.contents,valueAt,live]
    rfl
  obtain ⟨heap,lists',attached,arranged',length',grown,within⟩ := arranged.attach fresh held
  have untouched : ∀ a, a ∈ xs ++ rest.flatten → heap a = u.heap a := by
    intro a inside
    refine within.frame a fun clash => ?_
    rcases mem_cons.mp clash with rfl | moved
    · exact (nodup_cons.mp (nodup_append.mp whole).2.1).1 inside
    · exact apart moved (mem_cons_of_mem _ inside)
  refine ⟨_,_,live,by simp,by simp [reattach,live,attached],⟨⟨lists',arranged',length'.trans length,?_⟩,⟨some node,?_⟩,?_,?_,?_⟩⟩
  · exact ((grown.append_right _).trans perm_middle.symm).trans perm
  · exact links.frame fun a inside => untouched a (mem_append_left _ inside)
  · intro ys listed
    exact (moving.later ys listed).frame fun a inside => untouched a (mem_append_right _ (mem_flatten_of_mem listed inside))
  · exact within.values.trans moving.contents
  · rw [moving.kept]

theorem Moving.walk {n : Nat} {all : List NodeId} (distinct : all.Nodup)
    (short : ∀ ys ∈ rest, ys.length ≤ t.size) (moving : Moving t n all [] rest u) :
    ∃ v, (rest.map head?).foldlM (fun u head => foreachNode heap reattach t.size u head) u = some v ∧
      Moving t n all [] [] v := by
  induction rest generalizing u with
  | nil => exact ⟨u,rfl,moving⟩
  | cons ys rest ih =>
    have first : Moving t n all ys rest u :=
      ⟨moving.arranged,⟨none,moving.later ys mem_cons_self⟩,fun zs listed => moving.later zs (mem_cons_of_mem _ listed),
        moving.contents,moving.kept⟩
    obtain ⟨v,walked,emptied⟩ := foreachNode_rule (I := fun xs u => Moving t n all xs rest u)
      (fun a xs u state => state.step distinct) first (short ys mem_cons_self)
    obtain ⟨w,remaining,done⟩ := ih (fun zs listed => short zs (mem_cons_of_mem _ listed)) emptied
    exact ⟨w,by simp [walked,remaining],done⟩

structure Stored (t : Hashtable) (lists : List (List NodeId)) : Prop where
  arranged : Arranged t lists
  size : t.size = lists.flatten.length
  live : ∀ a, a ∈ lists.flatten ↔ (t.contents a).isSome
  fresh : ∀ a, (t.contents a).isSome → a < t.fresh

section
variable (stored : Stored t lists)
include stored

theorem Stored.short (listed : xs ∈ lists) : xs.length ≤ t.size := by
  rw [stored.size]
  exact (sublist_flatten_of_mem listed).length_le

theorem resize_stored {n : Nat} (positive : 0 < n) :
    ∃ u lists', t.resize options n = some u ∧ Stored u lists' ∧ lists'.flatten.Perm lists.flatten ∧
      u.contents = t.contents ∧ u.buckets.length = n ∧ u.fresh = t.fresh := by
  by_cases same : t.buckets.length = n
  · exact ⟨t,lists,by simp [resize,same],stored,.refl _,rfl,same,rfl⟩
  have empty : Moving t n lists.flatten [] lists { t with buckets := replicate n none } :=
    ⟨⟨_,.empty t positive,by simp,by simp⟩,⟨none,trivial⟩,stored.arranged.chains.links,rfl,rfl⟩
  obtain ⟨v,walked,done⟩ := empty.walk stored.arranged.chains.nodup (fun xs => stored.short)
  obtain ⟨lists',arranged,length,perm⟩ := done.arranged
  simp only [flatten_nil,append_nil] at perm
  have size : v.size = t.size := by rw [done.kept]
  have fresh : v.fresh = t.fresh := by rw [done.kept]
  refine ⟨computeThresholds options v,lists',?_,⟨{ arranged with },?_,?_,?_⟩,perm,
    done.contents,arranged.buckets_length.trans length,fresh⟩
  · simp only [resize,same,if_false]
    rw [stored.arranged.chains.heads,walked]
    rfl
  · rw [perm.length_eq,← stored.size]
    exact size
  · intro a
    rw [perm.mem_iff,stored.live]
    exact iff_of_eq (congrArg (fun held => (held a).isSome = true) done.contents.symm)
  · intro a held
    change a < v.fresh
    rw [fresh]
    exact stored.fresh a (by rw [← done.contents]; exact held)

theorem resized_stored (due : Prop) [Decidable due] (positive : 0 < n) :
    ∃ u lists', (if due then t.resize options n else some t) = some u ∧ Stored u lists' ∧
      lists'.flatten.Perm lists.flatten ∧ u.contents = t.contents := by
  split
  · obtain ⟨u,lists',resized,after,perm,contents,_⟩ := resize_stored options stored positive
    exact ⟨u,lists',resized,after,perm,contents⟩
  · exact ⟨t,lists,rfl,stored,.refl _,rfl⟩

theorem Stored.unlisted : t.fresh ∉ lists.flatten :=
  fun listed => Nat.lt_irrefl _ (stored.fresh _ ((stored.live _).mp listed))

theorem insertNode_stored {name : Name} (shallow : name.length ≤ maxDepth) (h : Nat) :
    ∃ u lists', t.insertNode options name h = some u ∧ Stored u lists' ∧ lists'.flatten.Perm (t.fresh :: lists.flatten) ∧
      u.contents = update t.contents t.fresh (some ⟨h,{ name := name }⟩) := by
  have unlisted := stored.unlisted
  have elsewhere : ∀ a ∈ lists.flatten, a ≠ t.fresh := fun a listed equal => unlisted (equal ▸ listed)
  let fresh : LinkedList.Cell NodeId TreeNode := ⟨⟨h,{ name := name }⟩,none,none⟩
  let allocated := { t with heap := LinkedList.put t.heap t.fresh fresh, fresh := t.fresh + 1 }
  have held : allocated.contents = update t.contents t.fresh (some fresh.value) := put_valueAt
  have arranged : Arranged allocated lists := by
    refine ⟨stored.arranged.chains.frame fun a listed => put_other (elsewhere a listed),?_,stored.arranged.nonempty⟩
    refine stored.arranged.placed.frame fun a listed => ?_
    rw [held,update_of_ne (elsewhere a listed)]
  have here : allocated.contents t.fresh = some fresh.value := by rw [held,update_self]
  obtain ⟨heap,lists',attached,after,_,grown,within⟩ := arranged.attach unlisted here
  let counted : Hashtable := { allocated with
    heap := heap, buckets := t.buckets.set (allocated.computeBucketIndex h) (some t.fresh), size := t.size + 1 }
  have contents : counted.contents = update t.contents t.fresh (some fresh.value) := within.values.trans held
  have stored' : Stored counted lists' := by
    refine ⟨{ after with },?_,fun a => ?_,fun a present => ?_⟩
    · rw [grown.length_eq,length_cons,← stored.size]
    · rw [grown.mem_iff,mem_cons,contents,stored.live]
      by_cases equal : a = t.fresh <;> simp [equal]
    · rw [contents] at present
      by_cases equal : a = t.fresh
      · exact equal ▸ Nat.lt_succ_self _
      · rw [update_of_ne equal] at present
        exact Nat.lt_succ_of_lt (stored.fresh a present)
  obtain ⟨u,final,settled,storedAfter,perm,same⟩ := resized_stored options stored' (counted.size > counted.expandThreshold)
    (options.expandedSize_pos _ stored'.arranged.buckets_pos)
  refine ⟨u,final,?_,storedAfter,perm.trans grown,same.trans contents⟩
  have placed : t.allocate h name = some allocated := if_pos shallow
  have linked : allocated.attach (allocated.computeBucketIndex h) t.fresh = some { counted with size := t.size } := attached
  rw [insertNode,placed,bind_eq_bind,bind_some,linked,bind_some]
  exact settled

end

theorem Arranged.detach (arranged : Arranged t lists) (listed : node ∈ lists.flatten) (held : t.contents node = some value) :
    ∃ heap head lists' old, t.detach (t.computeBucketIndex value.hash) node =
        some { t with heap := heap, buckets := t.buckets.set (t.computeBucketIndex value.hash) head } ∧
      Arranged { t with heap := heap, buckets := t.buckets.set (t.computeBucketIndex value.hash) head } lists' ∧
      heap node = some ⟨old,none,none⟩ ∧ lists.flatten.Perm (node :: lists'.flatten) ∧ valueAt heap = t.contents := by
  obtain ⟨xs,inLists,inside⟩ := mem_flatten.mp listed
  obtain ⟨i,here⟩ := mem_iff_getElem?.mp inLists
  obtain ⟨front,back,rfl⟩ := append_of_mem inside
  obtain ⟨_,again,index⟩ := arranged.placed i _ here node inside
  cases held.symm.trans again
  have bucket : t.computeBucketIndex value.hash = i := by rw [computeBucketIndex,arranged.buckets_length,index]
  have head : t.buckets[i]? = some (front ++ node :: back).head? := by
    rw [arranged.chains.heads,getElem?_map,here]
    rfl
  obtain ⟨heap,old,detached,chains,unlinked,within,shrunk⟩ := arranged.chains.detach here
  rw [bucket]
  refine ⟨heap,(front ++ back).head?,lists.set i (front ++ back),old,?_,⟨chains,?_,?_⟩,unlinked,shrunk,within.values⟩
  · simp only [Hashtable.detach,head,detached,Option.bind_eq_bind,Option.bind_some,Option.pure_def]
  · change Placed (valueAt heap) _
    rw [within.values]
    refine arranged.placed.set fun a remaining => arranged.placed i _ here a ?_
    rcases mem_append.mp remaining with early | late
    · exact mem_append_left _ early
    · exact mem_append_right _ (mem_cons_of_mem _ late)
  · rw [length_set]
    exact arranged.nonempty

theorem erase_stored (stored : Stored t lists) (held : t.contents node = some value) (rootless : value.entry.parent = none) :
    ∃ u lists', t.erase options node = some u ∧ Stored u lists' ∧ lists.flatten.Perm (node :: lists'.flatten) ∧
      u.contents = update t.contents node none := by
  obtain ⟨cell,live,rfl⟩ := contents_live held
  obtain ⟨heap,head,lists',old,detached,arranged,unlinked,shrunk,values⟩ :=
    stored.arranged.detach ((stored.live node).mpr (by simp [held])) held
  have gone : node ∉ lists'.flatten := (nodup_cons.mp (shrunk.nodup_iff.mp stored.arranged.chains.nodup)).1
  have elsewhere : ∀ a ∈ lists'.flatten, a ≠ node := fun a listed equal => gone (equal ▸ listed)
  let deleted : Hashtable := { t with
    heap := free heap node, buckets := t.buckets.set (t.computeBucketIndex cell.value.hash) head, size := t.size - 1 }
  have contents : deleted.contents = update t.contents node none := by
    change valueAt (free heap node) = _
    rw [free_valueAt,values]
  have stored' : Stored deleted lists' := by
    refine ⟨⟨?_,?_,arranged.nonempty⟩,?_,fun a => ?_,fun a present => ?_⟩
    · exact arranged.chains.frame fun a inside => update_of_ne (elsewhere a inside) ..
    · refine arranged.placed.frame fun a inside => ?_
      rw [contents,update_of_ne (elsewhere a inside)]
      exact congrFun values.symm a
    · change t.size - 1 = _
      rw [stored.size,shrunk.length_eq,length_cons,Nat.add_sub_cancel]
    · rw [contents]
      by_cases equal : a = node
      · simp [equal,gone]
      · rw [update_of_ne equal,← stored.live,shrunk.mem_iff,mem_cons]
        simp [equal]
    · rw [contents] at present
      by_cases equal : a = node
      · simp [equal] at present
      · rw [update_of_ne equal] at present
        exact stored.fresh a present
  obtain ⟨u,final,settled,storedAfter,perm,same⟩ := resized_stored options stored' (deleted.size < deleted.shrinkThreshold)
    (Nat.lt_of_lt_of_le options.minSize_pos (Nat.le_max_left _ (options.shrunkSize deleted.buckets.length)))
  refine ⟨u,final,?_,storedAfter,shrunk.trans (perm.symm.cons node),same.trans contents⟩
  simp only [erase,live,rootless,detached,deallocate,unlinked,bind_eq_bind,bind_some,if_true,and_self]
  exact settled

theorem write_stored (stored : Stored t lists) (held : t.contents node = some value) (f : TreeEntry → TreeEntry) :
    ∃ u, t.write node f = some u ∧ Stored u lists ∧
      u.contents = update t.contents node (some { value with entry := f value.entry }) := by
  obtain ⟨cell,live,rfl⟩ := contents_live held
  let written : Hashtable :=
    { t with heap := LinkedList.put t.heap node { cell with value := { cell.value with entry := f cell.value.entry } } }
  have contents : written.contents = update t.contents node (some { cell.value with entry := f cell.value.entry }) :=
    put_valueAt
  have domain : ∀ a, (written.contents a).isSome = (t.contents a).isSome := by
    intro a
    rw [contents]
    by_cases equal : a = node
    · simp [equal,held]
    · rw [update_of_ne equal]
  refine ⟨written,by simp [write,live,written],⟨⟨stored.arranged.chains.setValue live _,?_,stored.arranged.nonempty⟩,stored.size,
    fun a => by rw [domain,stored.live],fun a present => stored.fresh a (domain a ▸ present)⟩,contents⟩
  intro i xs listed a inside
  obtain ⟨old,there,index⟩ := stored.arranged.placed i xs listed a inside
  rw [contents]
  by_cases equal : a = node
  · subst equal
    cases held.symm.trans there
    exact ⟨_,update_self ..,index⟩
  · exact ⟨old,by rw [update_of_ne equal,there],index⟩

structure Registered (contents : NodeId → Option TreeNode) : Prop where
  hashed : ∀ a node, contents a = some node → node.hash = hash.computeHash node.entry.name node.entry.name.length
  distinct : ∀ a b node other, contents a = some node → contents b = some other → node.entry.name = other.entry.name → a = b
  depth : ∀ a node, contents a = some node → node.entry.name.length ≤ maxDepth

structure Sound (t : Hashtable) : Prop where
  stored : ∃ lists, Stored t lists
  registered : Registered hash t.contents

def Holds (contents : NodeId → Option TreeNode) (name : Name) (a : NodeId) : Prop :=
  ∃ node, contents a = some node ∧ node.entry.name = name

variable {hash}

theorem computeHash_take (name : Name) (prefixLen : Nat) :
    hash.computeHash (name.take prefixLen) (name.take prefixLen).length = hash.computeHash name prefixLen :=
  hash.respects _ _ _ _ (take_of_length_le (Nat.le_refl _))

theorem wanted_exact (registered : Registered hash t.contents) (name : Name) (a : NodeId) :
    (valueAt t.heap a).any (fun node =>
      node.hash == hash.computeHash name name.length && Name.compare name node.entry.name == .eq) ↔
      Holds t.contents name a := by
  rw [Option.any_eq_true]
  constructor
  · rintro ⟨node,held,both⟩
    have equal := (Bool.and_eq_true_iff.mp both).2
    exact ⟨node,held,(Std.LawfulEqCmp.eq_of_compare (eq_of_beq equal)).symm⟩
  · rintro ⟨node,held,rfl⟩
    refine ⟨node,held,?_⟩
    simp [registered.hashed a node held,Std.ReflCmp.compare_self]

theorem search_exact (sound : Sound hash t) (name : Name) (prefixLen : Nat) :
    ∃ found, t.search (name.take prefixLen) (hash.computeHash name prefixLen) = some found ∧
      ∀ a, found = some a ↔ Holds t.contents (name.take prefixLen) a := by
  rw [← computeHash_take]
  generalize name.take prefixLen = name
  obtain ⟨lists,stored⟩ := sound.stored
  obtain ⟨xs,here,head⟩ := stored.arranged.bucket (hash.computeHash name name.length)
  have listed := mem_of_getElem? here
  obtain ⟨found,searched,exactly⟩ := search_unique (stored.arranged.chains.links xs listed) (stored.short listed)
    (fun a _ b _ left right => by
      obtain ⟨node,held,named⟩ := (wanted_exact sound.registered name a).mp left
      obtain ⟨other,there,same⟩ := (wanted_exact sound.registered name b).mp right
      exact sound.registered.distinct a b node other held there (named.trans same.symm))
  refine ⟨found,by rw [search,head]; exact searched,fun a => (exactly a).trans ⟨fun hit => ?_,fun held => ⟨?_,?_⟩⟩⟩
  · exact (wanted_exact sound.registered name a).mp hit.2
  · -- the node is in some bucket, which its hash says is this one
    obtain ⟨node,held,rfl⟩ := held
    obtain ⟨ys,inLists,inside⟩ := mem_flatten.mp ((stored.live a).mpr (by simp [held]))
    obtain ⟨i,there⟩ := mem_iff_getElem?.mp inLists
    obtain ⟨_,again,index⟩ := stored.arranged.placed i ys there a inside
    cases held.symm.trans again
    rw [sound.registered.hashed a node held] at index
    cases some.inj ((index ▸ here).symm.trans there)
    exact inside
  · exact (wanted_exact sound.registered name a).mpr held

theorem find_exact (sound : Sound hash t) (name : Name) (prefixLen : Nat) :
    ∃ found, t.find hash options name prefixLen = some found ∧ ∀ a, found = some a ↔ Holds t.contents (name.take prefixLen) a := by
  obtain ⟨found,searched,exactly⟩ := search_exact sound name prefixLen
  refine ⟨found,?_,exactly⟩
  cases found <;> simp [find,findOrInsert,searched]

theorem checkedHash_parts
    (checked : checkedHash hash name prefixLen hashes = some h) : hashes[prefixLen]? = some h ∧ h = hash.computeHash name prefixLen := by
  obtain ⟨value,found,equal⟩ := bind_eq_some_iff.mp checked
  obtain ⟨same,⟨⟩⟩ := ite_none_right_eq_some.mp equal
  exact ⟨found,same⟩

variable {contents : NodeId → Option TreeNode} {name : Name}

theorem Registered.update (registered : Registered hash contents) {new : Option TreeNode}
    (fits : ∀ n, new = some n → n.hash = hash.computeHash n.entry.name n.entry.name.length ∧ n.entry.name.length ≤ maxDepth ∧
      ∀ b, b ≠ node → ¬ Holds contents n.entry.name b) :
    Registered hash (update contents node new) := by
  refine ⟨fun a n held => ?_,fun a b n m held there same => ?_,fun a n held => ?_⟩
  · rcases update_eq_some.mp held with ⟨_,value⟩ | ⟨_,old⟩
    · exact (fits n value).1
    · exact registered.hashed a n old
  · rcases update_eq_some.mp held with ⟨rfl,value⟩ | ⟨other,old⟩ <;> rcases update_eq_some.mp there with ⟨rfl,value'⟩ | ⟨other',old'⟩
    · rfl
    · exact absurd ⟨m,old',same.symm⟩ ((fits n value).2.2 b other')
    · exact absurd ⟨n,old,same⟩ ((fits m value').2.2 a other)
    · exact registered.distinct a b n m old old' same
  · rcases update_eq_some.mp held with ⟨_,value⟩ | ⟨_,old⟩
    · exact (fits n value).2.1
    · exact registered.depth a n old

theorem insert_exact (sound : Sound hash t) {prefixLen : Nat} (shallow : (name.take prefixLen).length ≤ maxDepth)
    (checked : checkedHash hash name prefixLen hashes = some (hash.computeHash name prefixLen)) :
    ∃ u a isNew, t.insert hash options name prefixLen hashes = some (u,some a,isNew) ∧ Sound hash u ∧
      ((isNew = false ∧ u = t ∧ Holds t.contents (name.take prefixLen) a) ∨
        (isNew = true ∧ (∀ b, ¬ Holds t.contents (name.take prefixLen) b) ∧ t.contents a = none ∧
          u.contents = update t.contents a (some ⟨hash.computeHash name prefixLen,{ name := name.take prefixLen }⟩))) := by
  obtain ⟨found,searched,exactly⟩ := search_exact sound name prefixLen
  cases found with
  | some a =>
    refine ⟨t,a,false,by simp [insert,checked,findOrInsert,searched],sound,.inl ⟨rfl,rfl,(exactly a).mp rfl⟩⟩
  | none =>
    have unnamed : ∀ b, ¬ Holds t.contents (name.take prefixLen) b := fun b held => by cases (exactly b).mpr held
    obtain ⟨lists,stored⟩ := sound.stored
    obtain ⟨u,lists',inserted,after,_,contents⟩ := insertNode_stored options stored shallow (hash.computeHash name prefixLen)
    have absent := not_isSome_iff_eq_none.mp fun held => Nat.lt_irrefl _ (stored.fresh _ held)
    refine ⟨u,t.fresh,true,by simp [insert,checked,findOrInsert,searched,inserted],⟨⟨lists',after⟩,?_⟩,.inr ⟨rfl,unnamed,absent,contents⟩⟩
    rw [contents]
    refine sound.registered.update fun n value => ?_
    cases value
    exact ⟨(computeHash_take name prefixLen).symm,shallow,fun b _ => unnamed b⟩

theorem erase_exact (sound : Sound hash t) (held : t.contents node = some value) (rootless : value.entry.parent = none) :
    ∃ u, t.erase options node = some u ∧ Sound hash u ∧ u.contents = update t.contents node none := by
  obtain ⟨lists,stored⟩ := sound.stored
  obtain ⟨u,lists',erased,after,_,contents⟩ := erase_stored options stored held rootless
  refine ⟨u,erased,⟨⟨lists',after⟩,?_⟩,contents⟩
  rw [contents]
  exact sound.registered.update fun n gone => by cases gone

theorem write_exact (sound : Sound hash t) (held : t.contents node = some value) {f : TreeEntry → TreeEntry}
    (named : (f value.entry).name = value.entry.name) :
    ∃ u, t.write node f = some u ∧ Sound hash u ∧
      u.contents = update t.contents node (some { value with entry := f value.entry }) := by
  obtain ⟨lists,stored⟩ := sound.stored
  obtain ⟨u,written,after,contents⟩ := write_stored stored held f
  refine ⟨u,written,⟨⟨lists,after⟩,?_⟩,contents⟩
  rw [contents]
  refine sound.registered.update fun n changed => ?_
  cases changed
  refine ⟨?_,?_,fun b other elsewhere => ?_⟩
  · rw [named]
    exact sound.registered.hashed node value held
  · rw [named]
    exact sound.registered.depth node value held
  · obtain ⟨m,there,same⟩ := elsewhere
    exact other (sound.registered.distinct b node m value there held (same.trans named))

theorem new_sound : Sound hash (new options) := by
  have arranged := Arranged.empty (new options) (Nat.lt_of_lt_of_le options.minSize_pos options.initialSize_min)
  refine ⟨⟨_,arranged,?_,?_,?_⟩,nofun,nofun,nofun⟩ <;> simp [new,computeThresholds,contents,valueAt]

theorem insert_checked (sound : Sound hash t)
    (inserted : t.insert hash options name prefixLen hashes = some result) :
    checkedHash hash name prefixLen hashes = some (hash.computeHash name prefixLen) ∧ (name.take prefixLen).length ≤ maxDepth := by
  obtain ⟨h,checked,ran⟩ := bind_eq_some_iff.mp inserted
  obtain ⟨_,rfl⟩ := checkedHash_parts checked
  refine ⟨checked,?_⟩
  obtain ⟨found,searched,exactly⟩ := search_exact sound name prefixLen
  cases found with
  | some a =>
    obtain ⟨node,held,named⟩ := (exactly a).mp rfl
    exact named ▸ sound.registered.depth a node held
  | none =>
    by_contra deep
    have refused : t.insertNode options (name.take prefixLen) (hash.computeHash name prefixLen) = none := by
      rw [insertNode,allocate,if_neg deep]
      rfl
    simp [findOrInsert,searched,refused] at ran

theorem erase_checked (erased : t.erase options node = some u) : ∃ value, t.contents node = some value ∧ value.entry.parent = none := by
  obtain ⟨cell,live,rest⟩ := bind_eq_some_iff.mp erased
  obtain ⟨rootless,_⟩ := ite_none_right_eq_some.mp rest
  exact ⟨cell.value,by simp [contents,valueAt,live],rootless⟩

end Hashtable
end ReflexiveNfd

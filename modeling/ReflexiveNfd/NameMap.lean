import ReflexiveNfd.Hashtable

namespace ReflexiveNfd
open List Option Transition
namespace Hashtable

-- The calls made from outside. Between them the holders of nodes change the
-- entries in place, all but the name.
inductive Call where
  | insert (name : Name) (prefixLen : Nat) (hashes : List Nat)
  | find (name : Name) (prefixLen : Nat)
  | findHashed (name : Name) (prefixLen : Nat) (hashes : List Nat)
  | erase (node : NodeId)
  | change (node : NodeId) (f : TreeEntry → TreeEntry)

-- The table beside the finite map it stands for: the nodes that calls inserted
-- and did not erase since, each under the name it was inserted for.
structure Tracked where
  table : Hashtable
  live : List (Name × NodeId)

def Tracked.node (s : Tracked) (name : Name) : Option NodeId := (Keyed.lookup Prod.fst name s.live).map Prod.snd

variable (hash : HashFunction) (options : HashtableOptions)

def call (s : Tracked) : Call → Option Tracked
  | .insert name prefixLen hashes => do
      let (table,node,isNew) ← s.table.insert hash options name prefixLen hashes
      return ⟨table,if isNew then node.toList.map (name.take prefixLen,·) ++ s.live else s.live⟩
  | .find name prefixLen => (s.table.find hash options name prefixLen).map fun _ => s
  | .findHashed name prefixLen hashes => (s.table.findHashed hash options name prefixLen hashes).map fun _ => s
  | .erase node => (s.table.erase options node).map fun table => ⟨table,s.live.filter (fun pair => pair.2 ≠ node)⟩
  | .change node f => do
      let old ← s.table.contents node
      if (f old.entry).name = old.entry.name then (s.table.write node f).map fun table => ⟨table,s.live⟩ else none

def Fresh (s : Tracked) : Prop := s = ⟨new options,[]⟩

structure Tracks (s : Tracked) : Prop where
  sound : Sound hash s.table
  distinct : Keyed.Distinct Prod.fst s.live
  live : ∀ name a, (name,a) ∈ s.live ↔ Holds s.table.contents name a

variable {hash options} {s u : Tracked}

theorem holds_update {contents : NodeId → Option TreeNode} {name : Name} {node a : NodeId} {new : Option TreeNode} :
    Holds (Function.update contents node new) name a ↔
      (a = node ∧ ∃ n, new = some n ∧ n.entry.name = name) ∨ (a ≠ node ∧ Holds contents name a) := by
  by_cases equal : a = node <;> simp [Holds,equal]

section
variable (tracks : Tracks hash s)
include tracks

theorem insert_tracks (taken : call hash options s (.insert name prefixLen hashes) = some u) :
    Tracks hash u := by
  obtain ⟨result,inserted,rest⟩ := bind_eq_some_iff.mp taken
  obtain ⟨checked,shallow⟩ := insert_checked options tracks.sound inserted
  obtain ⟨table,a,isNew,exactly,sound,cases⟩ := insert_exact options tracks.sound shallow checked
  cases inserted.symm.trans exactly
  cases rest
  rcases cases with ⟨rfl,rfl,_⟩ | ⟨rfl,unnamed,absent,contents⟩
  · exact ⟨sound,tracks.distinct,tracks.live⟩
  · refine ⟨sound,nodup_cons.mpr ⟨?_,tracks.distinct⟩,fun other b => ?_⟩
    · intro listed
      obtain ⟨⟨_,b⟩,inside,rfl⟩ := mem_map.mp listed
      exact unnamed b ((tracks.live _ b).mp inside)
    · change _ ∈ (_,a) :: s.live ↔ _
      rw [contents,holds_update,mem_cons,tracks.live,Prod.mk.injEq]
      constructor
      · rintro (⟨rfl,rfl⟩ | held)
        · exact .inl ⟨rfl,_,rfl,rfl⟩
        · refine .inr ⟨?_,held⟩
          rintro rfl
          obtain ⟨n,present,_⟩ := held
          cases absent.symm.trans present
      · rintro (⟨rfl,_,⟨⟩,rfl⟩ | ⟨_,held⟩)
        · exact .inl ⟨rfl,rfl⟩
        · exact .inr held

theorem erase_tracks (taken : call hash options s (.erase node) = some u) : Tracks hash u := by
  obtain ⟨table,erased,rfl⟩ := map_eq_some_iff.mp taken
  obtain ⟨value,held,rootless⟩ := erase_checked options erased
  obtain ⟨table',exactly,sound,contents⟩ := erase_exact options tracks.sound held rootless
  cases erased.symm.trans exactly
  refine ⟨sound,Nodup.sublist (filter_sublist.map _) tracks.distinct,fun name a => ?_⟩
  rw [contents,holds_update,mem_filter,tracks.live]
  simp [and_comm]

theorem change_tracks (taken : call hash options s (.change node f) = some u) : Tracks hash u := by
  obtain ⟨old,held,rest⟩ := bind_eq_some_iff.mp taken
  obtain ⟨named,ran⟩ := ite_none_right_eq_some.mp rest
  obtain ⟨table,written,rfl⟩ := map_eq_some_iff.mp ran
  obtain ⟨table',exactly,sound,contents⟩ := write_exact tracks.sound held named
  cases written.symm.trans exactly
  refine ⟨sound,tracks.distinct,fun name a => ?_⟩
  rw [contents,holds_update,tracks.live]
  by_cases equal : a = node
  · subst equal
    simp [Holds,held,named]
  · simp [equal]

theorem call_tracks (taken : call hash options s event = some u) : Tracks hash u := by
  cases event with
  | insert name prefixLen hashes => exact insert_tracks tracks taken
  | find name prefixLen | findHashed name prefixLen hashes =>
    obtain ⟨_,_,rfl⟩ := map_eq_some_iff.mp taken
    exact tracks
  | erase node => exact erase_tracks tracks taken
  | change node f => exact change_tracks tracks taken

end

theorem reached_tracks (path : Reached (call hash options) (Fresh options) s) : Tracks hash s := by
  refine Reached.invariant ?_ (fun s event u tracks taken => call_tracks tracks taken) path
  rintro s rfl
  exact ⟨new_sound options,nodup_nil,fun name a => by simp [Holds,new,computeThresholds,contents,LinkedList.valueAt]⟩

section
variable (tracks : Tracks hash s)
include tracks

theorem Tracks.node_eq (name : Name) (a : NodeId) : s.node name = some a ↔ Holds s.table.contents name a := by
  rw [← tracks.live,Tracked.node]
  constructor
  · intro found
    obtain ⟨⟨other,b⟩,first,rfl⟩ := map_eq_some_iff.mp found
    obtain ⟨listed,rfl⟩ := Keyed.lookup_mem first
    exact listed
  · intro listed
    rw [Keyed.lookup_distinct tracks.distinct listed]
    rfl

theorem Tracks.find_eq (options : HashtableOptions) (name : Name) (prefixLen : Nat) :
    s.table.find hash options name prefixLen = some (s.node (name.take prefixLen)) := by
  obtain ⟨found,ran,exactly⟩ := find_exact options tracks.sound name prefixLen
  rw [ran]
  congr 1
  refine Option.ext fun a => ?_
  rw [exactly,tracks.node_eq]

theorem Tracks.nodes_nodup : (s.live.map Prod.snd).Nodup := by
  refine Nodup.map_on ?_ (Nodup.of_map _ tracks.distinct)
  rintro ⟨name,a⟩ first ⟨other,b⟩ second rfl
  obtain ⟨node,held,rfl⟩ := (tracks.live name a).mp first
  obtain ⟨_,again,rfl⟩ := (tracks.live other a).mp second
  cases held.symm.trans again
  rfl

theorem Tracks.lists_perm (stored : Stored s.table lists) : lists.flatten.Perm (s.live.map Prod.snd) := by
  refine (List.perm_ext_iff_of_nodup stored.arranged.chains.nodup tracks.nodes_nodup).mpr fun a => ?_
  rw [stored.live,Option.isSome_iff_exists,List.mem_map]
  constructor
  · rintro ⟨node,held⟩
    exact ⟨(node.entry.name,a),(tracks.live _ a).mpr ⟨node,held,rfl⟩,rfl⟩
  · rintro ⟨⟨name,_⟩,listed,rfl⟩
    obtain ⟨node,held,_⟩ := (tracks.live name _).mp listed
    exact ⟨node,held⟩

end

def Lists (t : Hashtable) (nodes : List NodeId) : Prop :=
  ∃ lists, LinkedList.Chains t.heap t.buckets lists ∧ Placed t.contents lists ∧ lists.flatten.Perm nodes

-- What it means that the table stands for the map beside it. The calls that the
-- assertions allow return, and a resize at any moment changes nothing.
structure Refines (hash : HashFunction) (options : HashtableOptions) (s : Tracked) : Prop where
  find : ∀ name prefixLen, s.table.find hash options name prefixLen = some (s.node (name.take prefixLen))
  findHashed : ∀ name prefixLen, prefixLen ≤ name.length →
    s.table.findHashed hash options name prefixLen (hash.computeHashes name prefixLen) = some (s.node (name.take prefixLen))
  size : s.table.size = s.live.length
  lists : Lists s.table (s.live.map Prod.snd)
  allocated : ∀ a, (s.table.heap a).isSome ↔ a ∈ s.live.map Prod.snd
  insert : ∀ name prefixLen, prefixLen ≤ name.length → prefixLen ≤ maxDepth →
    ∃ table a isNew, s.table.insert hash options name prefixLen (hash.computeHashes name prefixLen) = some (table,some a,isNew) ∧
      (s.node (name.take prefixLen) = if isNew then none else some a)
  erase : ∀ a value, s.table.contents a = some value → value.entry.parent = none → ∃ table, s.table.erase options a = some table
  resize : ∀ n, 0 < n → ∃ table, s.table.resize options n = some table ∧ table.buckets.length = n ∧
    table.contents = s.table.contents ∧ Lists table (s.live.map Prod.snd) ∧
    ∀ name prefixLen, table.find hash options name prefixLen = s.table.find hash options name prefixLen

theorem Tracks.linked (tracks : Tracks hash s) (stored : Stored s.table lists) : Lists s.table (s.live.map Prod.snd) :=
  ⟨lists,stored.arranged.chains,stored.arranged.placed,tracks.lists_perm stored⟩

theorem checkedHash_computed (inside : prefixLen ≤ name.length) :
    checkedHash hash name prefixLen (hash.computeHashes name prefixLen) = some (hash.computeHash name prefixLen) := by
  simp [checkedHash,hash.sequence name prefixLen prefixLen (Nat.le_refl _) inside]

theorem findHashed_eq {t : Hashtable} (checked : checkedHash hash name prefixLen hashes = some (hash.computeHash name prefixLen)) :
    t.findHashed hash options name prefixLen hashes = t.find hash options name prefixLen := by
  cases ran : t.findOrInsert options name prefixLen (hash.computeHash name prefixLen) false <;> simp [findHashed,checked,find,ran]

theorem Tracks.insert_node (tracks : Tracks hash s) (options : HashtableOptions) (inside : prefixLen ≤ name.length)
    (shallow : prefixLen ≤ maxDepth) :
    ∃ table a isNew, s.table.insert hash options name prefixLen (hash.computeHashes name prefixLen) = some (table,some a,isNew) ∧
      (s.node (name.take prefixLen) = if isNew then none else some a) := by
  have short : (name.take prefixLen).length ≤ maxDepth := Nat.le_trans (length_take_le ..) shallow
  obtain ⟨table,a,isNew,inserted,_,cases⟩ := insert_exact options tracks.sound short (checkedHash_computed inside)
  refine ⟨table,a,isNew,inserted,?_⟩
  rcases cases with ⟨rfl,_,held⟩ | ⟨rfl,unnamed,_⟩
  · exact (tracks.node_eq _ a).mpr held
  · exact eq_none_iff_forall_ne_some.mpr fun b found => unnamed b ((tracks.node_eq _ b).mp found)

theorem Tracks.resize_same (tracks : Tracks hash s) (options : HashtableOptions) (positive : 0 < n) :
    ∃ table, s.table.resize options n = some table ∧ table.buckets.length = n ∧ table.contents = s.table.contents ∧
      Lists table (s.live.map Prod.snd) ∧
      ∀ name prefixLen, table.find hash options name prefixLen = s.table.find hash options name prefixLen := by
  obtain ⟨lists,stored⟩ := tracks.sound.stored
  obtain ⟨table,lists',resized,after,_,contents,length,_⟩ := resize_stored options stored positive
  have still : Tracks hash ⟨table,s.live⟩ :=
    ⟨⟨⟨lists',after⟩,contents ▸ tracks.sound.registered⟩,tracks.distinct,contents ▸ tracks.live⟩
  exact ⟨table,resized,length,contents,still.linked after,fun name prefixLen =>
    (still.find_eq options name prefixLen).trans (tracks.find_eq options name prefixLen).symm⟩

theorem hashtable_refines (path : Reached (call hash options) (Fresh options) s) : Refines hash options s := by
  have tracks := reached_tracks path
  obtain ⟨lists,stored⟩ := tracks.sound.stored
  have perm := tracks.lists_perm stored
  refine ⟨tracks.find_eq options,fun name prefixLen inside => ?_,?_,tracks.linked stored,fun a => ?_,fun name prefixLen => tracks.insert_node options,
    fun a value held rootless => ?_,fun n => tracks.resize_same options⟩
  · rw [findHashed_eq (checkedHash_computed inside)]
    exact tracks.find_eq options name prefixLen
  · rw [stored.size,perm.length_eq,length_map]
  · rw [← perm.mem_iff,stored.live,contents,LinkedList.valueAt,isSome_map]
  · obtain ⟨table,erased,_⟩ := erase_exact options tracks.sound held rootless
    exact ⟨table,erased⟩

theorem hashtable_refines_grown :
    ∃ s, run (call (xorHash fun _ => 5) (.default 2 (by decide))) ⟨new (.default 2 (by decide)),[]⟩
        [.insert [⟨8,[97]⟩] 1 [0,5],.insert [⟨8,[98]⟩] 1 [0,5],.insert [⟨8,[99]⟩] 0 [0],.erase 0] = some s ∧
      s.table.buckets.length = 8 ∧ s.live = [([],2),([⟨8,[98]⟩],1)] ∧ Refines (xorHash fun _ => 5) (.default 2 (by decide)) s :=
  run_shows_both (by decide) fun _ taken => hashtable_refines (run_reached (.start rfl) taken)

end Hashtable
end ReflexiveNfd

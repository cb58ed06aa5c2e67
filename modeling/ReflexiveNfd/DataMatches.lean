import ReflexiveNfd.FanOut
import ReflexiveNfd.PrefixMatches

namespace ReflexiveNfd
open Hashtable LongestPrefix List Option Transition Pit NameTree
open Demo hiding env

namespace NameTree
variable (hash : HashFunction) (options : HashtableOptions)

def prefixWalk (tree : NameTree) (selector : TreeEntry → Bool) : Nat → Option NodeId → Option (List TreeEntry)
  | _,none => some []
  | 0,some _ => none
  | fuel + 1,some node => do
      let this ← tree.ht.contents node
      let above ← prefixWalk tree selector fuel this.entry.parent
      return if selector this.entry then this.entry :: above else above

def findAllMatches (tree : NameTree) (name : Name) (selector : TreeEntry → Bool) : Option (List TreeEntry) := do
  tree.prefixWalk selector (maxDepth + 1) (← tree.findLongestPrefixMatch hash options name selector)

end NameTree

def nteHasPitEntries (nte : TreeEntry) : Bool := !nte.pitEntries.isEmpty

section
variable (hash : HashFunction) (options : HashtableOptions) (s : TreeTables) (objects : EntryId → Option Entry)

def TreeTables.findAllDataMatches
    (data : Data) : Option (List EntryId) := do
  let ntMatches ← s.tree.findAllMatches hash options data.name nteHasPitEntries
  return ntMatches.flatMap fun nte =>
    nte.pitEntries.filter fun id => (objects id).any fun e => matchesDecoded e.name e.canBePrefix e.mustBeFresh data

def TreeTables.findBasedOnName
    (name : Name) : Option (Option EntryId) := do
  match ← s.tree.findExactMatch hash options name name.length with
  | none => return none
  | some nte =>
    let this ← s.tree.ht.contents nte
    return this.entry.pitEntries.find? fun id => (objects id).any (·.name = name)

end

variable {hash : HashFunction} {tree : NameTree} {pit : Pit} {n : TreeNode} {name path : Name} {data : Data}

def matchesAt (pit : Pit) (data : Data) (nte : TreeEntry) : List EntryId :=
  nte.pitEntries.filter fun id => (pit.get id).any fun e => matchesData e.name e.canBePrefix e.mustBeFresh data

def matchesOf (pit : Pit) (data : Data) (name : Name) : List EntryId :=
  ((pitEntries pit name).filter (fun e => matchesData e.name e.canBePrefix e.mustBeFresh data)).map Entry.id

theorem matchesAt_exact (ids : (pit.map Entry.id).Nodup) (attached : Attached pit tree) (held : tree.ht.contents a = some n) :
    matchesAt pit data n.entry = matchesOf pit data n.entry.name := by
  have listed : n.entry.pitEntries = (pitEntries pit n.entry.name).map Entry.id := by
    rw [← attached.entries a n.entry.name (by simp [labelOf,held]),entriesOf_held held]
    rfl
  rw [matchesAt,matchesOf,listed,List.filter_map]
  refine congrArg _ (filter_congr fun e inside => ?_)
  simp [get_of_mem ids (mem_filter.mp inside).1]

theorem matchesAt_selected (nte : TreeEntry) (rest : List TreeEntry) :
    (if nteHasPitEntries nte then nte :: rest else rest).flatMap (matchesAt pit data) =
      matchesAt pit data nte ++ rest.flatMap (matchesAt pit data) := by
  cases empty : nte.pitEntries.isEmpty with
  | false => simp [nteHasPitEntries,empty]
  | true => simp [nteHasPitEntries,matchesAt,isEmpty_iff.mp empty]

def matchesUpTo (pit : Pit) (data : Data) (name : Name) (depth : Nat) : List EntryId :=
  (range (depth + 1)).reverse.flatMap fun i => matchesOf pit data (name.take i)

theorem matchesUpTo_succ (depth : Nat) :
    matchesUpTo pit data name (depth + 1) = matchesOf pit data (name.take (depth + 1)) ++ matchesUpTo pit data name depth := by
  rw [matchesUpTo,range_succ,reverse_append,reverse_singleton,singleton_append,flatMap_cons]
  rfl

theorem matchesUpTo_take (depth k : Nat) (within : depth ≤ k) : matchesUpTo pit data (name.take k) depth = matchesUpTo pit data name depth := by
  refine flatMap_congr fun i inside => ?_
  rw [mem_reverse,mem_range] at inside
  rw [take_take,Nat.min_eq_left (by omega)]

theorem prefixWalk_exact (data : Data) (sound : NameTree.Sound hash tree) (ids : (pit.map Entry.id).Nodup) (attached : Attached pit tree) (fuel : Nat)
    (held : Hashtable.Holds tree.ht.contents path a) (enough : path.length < fuel) :
    ∃ visited, tree.prefixWalk nteHasPitEntries fuel (some a) = some visited ∧
      visited.flatMap (matchesAt pit data) = matchesUpTo pit data path path.length := by
  induction fuel generalizing a path with
  | zero => cases enough
  | succ fuel ih =>
    obtain ⟨n,live,rfl⟩ := held
    by_cases root : n.entry.name = []
    · have top : n.entry.parent = none := sound.structured.root a n live root
      refine ⟨if nteHasPitEntries n.entry then [n.entry] else [],by simp [NameTree.prefixWalk,live,top],?_⟩
      rw [matchesAt_selected,matchesAt_exact ids attached live,root]
      simp [matchesUpTo]
    · obtain ⟨p,m,up,there,above⟩ := sound.structured.parent a n live root
      have shorter : n.entry.name.length = n.entry.name.dropLast.length + 1 := by
        have := length_pos_iff.mpr root
        rw [length_dropLast]
        omega
      obtain ⟨visited,walked,collected⟩ := ih ⟨m,there,above⟩ (by omega)
      refine ⟨if nteHasPitEntries n.entry then n.entry :: visited else visited,by simp [NameTree.prefixWalk,live,up,walked],?_⟩
      rw [matchesAt_selected,matchesAt_exact ids attached live,collected,shorter,matchesUpTo_succ,← shorter,take_length,
        dropLast_eq_take,matchesUpTo_take _ _ (by rw [length_take]; omega)]

theorem matchesOf_bare (attached : Attached pit tree) (bare : ∀ a, ¬ tree.Selected nteHasPitEntries path a) : matchesOf pit data path = [] := by
  have empty : pitEntries pit path = [] := by
    refine eq_nil_iff_forall_not_mem.mpr fun e listed => ?_
    obtain ⟨present,here⟩ := mem_filter.mp listed
    obtain ⟨a,label⟩ := attached.placed e present
    rw [of_decide_eq_true here] at label
    obtain ⟨n,held,named⟩ := holds_label.mpr label
    have hung : n.entry.pitEntries = (pitEntries pit path).map Entry.id := by
      rw [← attached.entries a path label,entriesOf_held held]
      rfl
    refine bare a ⟨n,held,named,?_⟩
    rw [nteHasPitEntries,hung,Bool.not_eq_true',isEmpty_eq_false_iff_exists_mem]
    exact ⟨e.id,mem_map_of_mem listed⟩
  simp [matchesOf,empty]

theorem matchesUpTo_bare (within : k ≤ depth) (bare : ∀ i, k < i → i ≤ depth → matchesOf pit data (name.take i) = []) :
    matchesUpTo pit data name depth = matchesUpTo pit data name k := by
  induction depth, within using Nat.le_induction with
  | base => rfl
  | succ depth within ih =>
    rw [matchesUpTo_succ,bare (depth + 1) (by omega) (Nat.le_refl _),nil_append]
    exact ih fun i beyond inside => bare i beyond (by omega)

theorem prefixWalk_longest (data : Data) (sound : NameTree.Sound hash tree) (ids : (pit.map Entry.id).Nodup) (attached : Attached pit tree)
    (inside : depth ≤ name.length) (longest : Longest (tree.Selected nteHasPitEntries) name depth start) :
    ∃ visited, tree.prefixWalk nteHasPitEntries (maxDepth + 1) start = some visited ∧
      visited.flatMap (matchesAt pit data) = matchesUpTo pit data name depth := by
  cases longest with
  | nowhere bare =>
    refine ⟨[],by simp [NameTree.prefixWalk],Eq.symm (flatMap_eq_nil_iff.mpr fun i listed => ?_)⟩
    rw [mem_reverse,mem_range] at listed
    exact matchesOf_bare attached (bare i (by omega))
  | @here a k within selected bare =>
    obtain ⟨n,held,named,_⟩ := selected
    have length : (name.take k).length = k := by
      rw [length_take]
      omega
    have shallow := sound.sound.registered.depth a n held
    rw [named] at shallow
    obtain ⟨visited,walked,collected⟩ := prefixWalk_exact data sound ids attached (maxDepth + 1) ⟨n,held,named⟩ (Nat.lt_succ_of_le shallow)
    refine ⟨visited,walked,?_⟩
    rw [collected,length,matchesUpTo_take k k (Nat.le_refl k),matchesUpTo_bare within fun i beyond inside => matchesOf_bare attached (bare i beyond inside)]

theorem findAllDataMatches_tree {tables : TreeTables} (options : HashtableOptions) (sound : NameTree.Sound hash tables.tree)
    (ids : (pit.map Entry.id).Nodup) (attached : Attached pit tables.tree) (named : ∀ e ∈ pit, e.name.Shortest) (shortest : data.name.Shortest) :
    tables.findAllDataMatches hash options pit.get data = some ((findAllDataMatches pit data).map Entry.id) := by
  obtain ⟨start,found,longest⟩ := findLongestPrefixMatch_exact nteHasPitEntries options sound data.name
  obtain ⟨visited,walked,collected⟩ := prefixWalk_longest data sound ids attached (Nat.min_le_left ..) longest
  have all : tables.tree.findAllMatches hash options data.name nteHasPitEntries = some visited := by
    simp [findAllMatches,found,walked]
  have same : ∀ id, ((pit.get id).any fun e => matchesDecoded e.name e.canBePrefix e.mustBeFresh data) =
      (pit.get id).any fun e => matchesData e.name e.canBePrefix e.mustBeFresh data := by
    intro id
    cases held : pit.get id with
    | none => rfl
    | some e => exact matchesDecoded_shortest (named e (get_id held).1) shortest
  rw [TreeTables.findAllDataMatches,all]
  refine congrArg some (Eq.trans ?_ (collected.trans ?_))
  · simp only [same]
    rfl
  · rw [matchesUpTo,findAllDataMatches,map_flatMap]
    rfl

def Interest.matchesData (i : Interest) (data : Data) : Bool := matchesDecoded i.name i.canBePrefix i.mustBeFresh data

def answered : Data := { name := [testApp,Demo.digit 49], digest := replicate 32 0 }

theorem findBasedOnName_tree {tables : TreeTables} (options : HashtableOptions) (sound : NameTree.Sound hash tables.tree)
    (ids : (pit.map Entry.id).Nodup) (attached : Attached pit tables.tree) (name : Name) :
    tables.findBasedOnName hash options pit.get name = some ((findBasedOnName pit name).map Entry.id) := by
  obtain ⟨found,ran,exactly⟩ := findExactMatch_exact options sound name name.length
  rw [take_length] at exactly
  cases found with
  | none =>
    have nothing : findBasedOnName pit name = none := by
      by_contra present
      obtain ⟨e,hit⟩ := ne_none_iff_exists'.mp present
      obtain ⟨depth,f,inside,rfl⟩ := findBasedOnName_exact.mp ⟨e,hit⟩
      obtain ⟨a,label⟩ := attached.placed f inside
      rw [Entry.nte,depth,take_length] at label
      cases (exactly a).mpr (holds_label.mpr label)
    simp [TreeTables.findBasedOnName,ran,nothing]
  | some a =>
    obtain ⟨n,held,named⟩ := (exactly a).mp rfl
    have shallow : ¬ name.length > maxDepth := by
      intro deep
      rw [findExactMatch,Nat.min_self,if_pos deep] at ran
      cases some.inj ran
    have listed : n.entry.pitEntries = (pitEntries pit name).map Entry.id := by
      rw [← attached.entries a name (holds_label.mp ⟨n,held,named⟩),entriesOf_held held]
      rfl
    have same : ∀ e ∈ pitEntries pit name, (pit.get e.id).any (·.name = name) = decide (e.name = name) := by
      intro e inside
      simp [get_of_mem ids (mem_filter.mp inside).1]
    simp only [TreeTables.findBasedOnName,ran,held,Option.bind_eq_bind,Option.bind_some,Option.pure_def,listed,find?_map,
      findBasedOnName,if_neg shallow]
    rw [← head?_filter,← head?_filter]
    exact congrArg (fun xs => some ((head? xs).map Entry.id)) (filter_congr same)

theorem nteDepth_whole : nteDepth name = name.length ↔ name.length ≤ maxDepth ∧ name.endsWithDigest = false := by
  unfold nteDepth
  cases digest : name.endsWithDigest with
  | false => simp
  | true =>
    have nonempty : 0 < name.length := by
      cases name with
      | nil => cases digest
      | cons c rest => exact Nat.succ_pos _
    rw [if_pos rfl]
    refine iff_of_false (by omega) (by simp)

end ReflexiveNfd

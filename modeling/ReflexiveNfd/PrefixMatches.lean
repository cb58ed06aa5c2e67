import ReflexiveNfd.Lib.LongestPrefix
import ReflexiveNfd.NameMap
import ReflexiveNfd.PitTree

namespace ReflexiveNfd
open Hashtable LongestPrefix List
open Demo hiding env

namespace NameTree
variable (hash : HashFunction) (options : HashtableOptions)

section
variable (tree : NameTree) (name : Name)

def prefixMatch (hashes : List Nat) (selector : TreeEntry → Bool) (i : Nat) : Option (Option NodeId) := do
  match ← tree.ht.findHashed hash options name i hashes with
  | none => return none
  | some node =>
    let this ← tree.ht.contents node
    return if selector this.entry then some node else none

def longestFrom (tree : NameTree) (name : Name) (hashes : List Nat) (selector : TreeEntry → Bool) : Nat → Option (Option NodeId)
  | 0 => tree.prefixMatch hash options name hashes selector 0
  | i + 1 => do
      match ← tree.prefixMatch hash options name hashes selector (i + 1) with
      | some node => return some node
      | none => longestFrom tree name hashes selector i

def findLongestPrefixMatch (selector : TreeEntry → Bool) : Option (Option NodeId) :=
  let depth := min name.length maxDepth
  tree.longestFrom hash options name (hash.computeHashes name depth) selector depth

def longestAbove (tree : NameTree) (selector : TreeEntry → Bool) : Nat → Option NodeId → Option (Option NodeId)
  | _,none => some none
  | 0,some _ => none
  | fuel + 1,some entry => do
      let this ← tree.ht.contents entry
      if selector this.entry then return some entry else longestAbove tree selector fuel this.entry.parent

-- From a PIT entry's tree entry on to those of its longer prefixes, as far as they exist.
def goDeeper (tree : NameTree) (name : Name) : List Nat → NodeId → Option NodeId
  | [],nte => some nte
  | i :: rest,nte => do
      match ← tree.findExactMatch hash options name i with
      | none => return nte
      | some deeper => goDeeper tree name rest deeper

def findLongestPrefixMatchPit (id : EntryId) (selector : TreeEntry → Bool) : Option (Option NodeId) := do
  let nte ← tree.getEntry .pit id
  let this ← tree.ht.contents nte
  let depth := min name.length maxDepth
  let start ← if this.entry.name.length < name.length then
      tree.goDeeper hash options name (List.range' (this.entry.name.length + 1) (depth - this.entry.name.length)) nte
    else some nte
  tree.longestAbove selector (maxDepth + 1) (some start)

def findLongestPrefixMatchOf (table : Table) (id : TableId) (selector : TreeEntry → Bool) : Option (Option NodeId) := do
  let nte ← tree.getEntry table id
  tree.longestAbove selector (maxDepth + 1) (some nte)

end

variable {hash options} {tree : NameTree} {a : NodeId} {n : TreeNode} {name path : Name}
  {selector : TreeEntry → Bool} {id : EntryId}

def Selected (tree : NameTree) (selector : TreeEntry → Bool) (path : Name) (a : NodeId) : Prop :=
  ∃ n, tree.ht.contents a = some n ∧ n.entry.name = path ∧ selector n.entry

-- The same by types and values, which is how isPrefixOf and == compare names.
def SelectedDecoded (tree : NameTree) (selector : TreeEntry → Bool) (path : Name) (a : NodeId) : Prop :=
  ∃ n, tree.ht.contents a = some n ∧ n.entry.name.decoded = path ∧ selector n.entry

def Shortest (tree : NameTree) : Prop := ∀ a n, tree.ht.contents a = some n → n.entry.name.Shortest

variable (selector) in
theorem bare_of_passed (sound : Sound hash tree) (held : tree.ht.contents a = some n) (passed : selector n.entry = false) (b : NodeId) :
    ¬ tree.Selected selector n.entry.name b := by
  rintro ⟨m,there,named,selected⟩
  obtain rfl := sound.sound.registered.distinct a b n m held there named.symm
  cases held.symm.trans there
  rw [passed] at selected
  cases selected

variable (selector) in
theorem longestAbove_exact (sound : Sound hash tree) (fuel : Nat) (held : Hashtable.Holds tree.ht.contents path a) (enough : path.length < fuel) :
    ∃ found, tree.longestAbove selector fuel (some a) = some found ∧ Longest (tree.Selected selector) path path.length found := by
  induction fuel generalizing a path with
  | zero => cases enough
  | succ fuel ih =>
    obtain ⟨n,live,rfl⟩ := held
    cases selected : selector n.entry with
    | true =>
      refine ⟨some a,by simp [longestAbove,live,selected],.here _ (Nat.le_refl _) ?_ (fun i beyond within => by omega)⟩
      exact ⟨n,live,(take_length).symm,selected⟩
    | false =>
      have bare := bare_of_passed selector sound live selected
      by_cases root : n.entry.name = []
      · have top : n.entry.parent = none := sound.structured.root a n live root
        refine ⟨none,by simp [longestAbove,live,selected,top],?_⟩
        rw [root] at bare ⊢
        exact .zero_bare bare
      · obtain ⟨p,m,up,there,above⟩ := sound.structured.parent a n live root
        have shorter : n.entry.name.length = n.entry.name.dropLast.length + 1 := by
          have := length_pos_iff.mpr root
          rw [length_dropLast]
          omega
        obtain ⟨found,ran,longest⟩ := ih ⟨m,there,above⟩ (by omega)
        refine ⟨found,by simp [longestAbove,live,selected,up,ran],?_⟩
        rw [shorter]
        refine .succ_bare ?_ ?_
        · rwa [← shorter,take_length]
        · rw [length_dropLast] at longest ⊢
          rwa [dropLast_eq_take,Longest.take_iff (Nat.le_refl _)] at longest

variable (selector) in
theorem prefixMatch_selected (options : HashtableOptions) (sound : Sound hash tree)
    (checked : checkedHash hash name i hashes = some (hash.computeHash name i)) :
    ∃ found, tree.prefixMatch hash options name hashes selector i = some found ∧ (∀ a, found = some a → tree.Selected selector (name.take i) a) ∧
      (found = none → ∀ a, ¬ tree.Selected selector (name.take i) a) := by
  obtain ⟨found,ran,exactly⟩ := find_exact options sound.sound name i
  rw [← findHashed_eq checked] at ran
  cases found with
  | none =>
    refine ⟨none,by simp [prefixMatch,ran],nofun,?_⟩
    rintro _ a ⟨n,held,named,_⟩
    cases (exactly a).mpr ⟨n,held,named⟩
  | some a =>
    obtain ⟨n,held,named⟩ := (exactly a).mp rfl
    refine ⟨if selector n.entry then some a else none,by simp [prefixMatch,ran,held],fun b chosen => ?_,fun passed => ?_⟩
    · obtain ⟨selected,⟨⟩⟩ := Option.ite_none_right_eq_some.mp chosen
      exact ⟨n,held,named,selected⟩
    · rw [← named]
      exact bare_of_passed selector sound held (by simpa using passed)

theorem longestFrom_selected (options : HashtableOptions) (sound : Sound hash tree) (depth : Nat)
    (checked : ∀ i ≤ depth, checkedHash hash name i hashes = some (hash.computeHash name i)) :
    ∃ found, tree.longestFrom hash options name hashes selector depth = some found ∧ Longest (tree.Selected selector) name depth found := by
  induction depth with
  | zero =>
    obtain ⟨found,ran,chosen,passed⟩ := prefixMatch_selected selector options sound (checked 0 (Nat.le_refl 0))
    cases found with
    | some a => exact ⟨some a,ran,.zero (chosen a rfl)⟩
    | none => exact ⟨none,ran,.zero_bare (passed rfl)⟩
  | succ depth ih =>
    obtain ⟨found,ran,chosen,passed⟩ := prefixMatch_selected selector options sound (checked (depth + 1) (Nat.le_refl _))
    cases found with
    | some a => exact ⟨some a,by simp [longestFrom,ran],.succ (chosen a rfl)⟩
    | none =>
      obtain ⟨found,rest,longest⟩ := ih (fun i early => checked i (Nat.le_succ_of_le early))
      exact ⟨found,by simp [longestFrom,ran,rest],.succ_bare (passed rfl) longest⟩

variable (selector) in
theorem findLongestPrefixMatch_exact (options : HashtableOptions) (sound : Sound hash tree) (name : Name) :
    ∃ found, tree.findLongestPrefixMatch hash options name selector = some found ∧
      Longest (tree.Selected selector) name (min name.length maxDepth) found := by
  refine longestFrom_selected options sound _ fun i early => ?_
  simp [checkedHash,hash.sequence name _ i early (by omega)]

variable (selector) in
theorem longestAbove_prefix (sound : Sound hash tree) (inside : k ≤ name.length) (held : Hashtable.Holds tree.ht.contents (name.take k) a) :
    ∃ found, tree.longestAbove selector (maxDepth + 1) (some a) = some found ∧ Longest (tree.Selected selector) name k found := by
  have length : (name.take k).length = k := by
    rw [length_take,Nat.min_eq_left inside]
  have shallow : (name.take k).length ≤ maxDepth := by
    obtain ⟨n,live,named⟩ := held
    rw [← named]
    exact sound.sound.registered.depth a n live
  obtain ⟨found,ran,longest⟩ := longestAbove_exact selector sound (maxDepth + 1) held (Nat.lt_succ_of_le shallow)
  rw [length,Longest.take_iff (Nat.le_refl k)] at longest
  exact ⟨found,ran,longest⟩

theorem nteDepth_near (name : Name) : min name.length maxDepth = nteDepth name ∨ min name.length maxDepth = nteDepth name + 1 := by
  unfold nteDepth
  split <;> omega

variable (selector) in
theorem findLongestPrefixMatchPit_exact (options : HashtableOptions) (sound : Sound hash tree) (attached : tree.getEntry .pit id = some a)
    (held : Hashtable.Holds tree.ht.contents (name.take (nteDepth name)) a) :
    ∃ found, tree.findLongestPrefixMatchPit hash options name id selector = some found ∧
      Longest (tree.Selected selector) name (min name.length maxDepth) found := by
  obtain ⟨found,ran,longest⟩ := longestAbove_prefix selector sound (TreeTables.nteDepth_le name).1 held
  obtain ⟨n,live,named⟩ := held
  have length : n.entry.name.length = nteDepth name := by
    rw [named,length_take,Nat.min_eq_left (TreeTables.nteDepth_le name).1]
  rcases nteDepth_near name with same | next
  · refine ⟨found,?_,same ▸ longest⟩
    have stays : List.range' (nteDepth name + 1) (min name.length maxDepth - nteDepth name) = [] := by rw [same,Nat.sub_self]; rfl
    simp [findLongestPrefixMatchPit,attached,live,length,stays,goDeeper,ran]
  · have longer : nteDepth name < name.length := by omega
    have once : List.range' (nteDepth name + 1) (min name.length maxDepth - nteDepth name) = [nteDepth name + 1] := by
      rw [next,Nat.add_sub_cancel_left]
      rfl
    obtain ⟨deeper,searched,exactly⟩ := findExactMatch_exact options sound name (nteDepth name + 1)
    rw [next]
    cases deeper with
    | none =>
      refine ⟨found,by simp [findLongestPrefixMatchPit,attached,live,length,longer,once,goDeeper,searched,ran],.succ_bare ?_ longest⟩
      rintro b ⟨m,there,label,_⟩
      cases (exactly b).mpr ⟨m,there,label⟩
    | some b =>
      obtain ⟨lower,walked,longest⟩ := longestAbove_prefix selector sound longer ((exactly b).mp rfl)
      exact ⟨lower,by simp [findLongestPrefixMatchPit,attached,live,length,longer,once,goDeeper,searched,walked],longest⟩

-- A search that gives what the search by name gives: the deepest selected entry
-- whose octets the name begins with, and if all are in their shortest encoding,
-- the deepest whose name is a prefix.
def MatchesName (hash : HashFunction) (options : HashtableOptions) (tree : NameTree) (selector : TreeEntry → Bool) (name : Name)
    (result : Option (Option NodeId)) : Prop :=
  ∃ found, result = some found ∧ tree.findLongestPrefixMatch hash options name selector = some found ∧
    Longest (tree.Selected selector) name (min name.length maxDepth) found ∧
    (tree.Shortest → name.Shortest → Longest (tree.SelectedDecoded selector) name.decoded (min name.length maxDepth) found)

theorem selectedDecoded_eq (shortest : tree.Shortest) (selector : TreeEntry → Bool) : tree.SelectedDecoded selector = tree.Selected selector := by
  funext path a
  refine propext (exists_congr fun n => and_congr_right fun held => ?_)
  rw [Name.decoded_shortest (shortest a n held)]

theorem selected_single (sound : Sound hash tree) (path : Name) (a b : NodeId) (first : tree.Selected selector path a) (second : tree.Selected selector path b) :
    a = b := by
  obtain ⟨n,held,named,_⟩ := first
  obtain ⟨m,there,same,_⟩ := second
  exact sound.sound.registered.distinct a b n m held there (named.trans same.symm)

theorem MatchesName.of_longest (sound : Sound hash tree)
    (exactly : ∃ found, result = some found ∧ Longest (tree.Selected selector) name (min name.length maxDepth) found) :
    MatchesName hash options tree selector name result := by
  obtain ⟨found,ran,longest⟩ := exactly
  obtain ⟨other,searched,deepest⟩ := findLongestPrefixMatch_exact selector options sound name
  obtain rfl := Longest.unique (selected_single sound) longest deepest
  refine ⟨found,ran,searched,longest,fun shortest named => ?_⟩
  rwa [selectedDecoded_eq shortest,Name.decoded_shortest named]

theorem longestAbove_matches (sound : Sound hash tree) (held : tree.ht.contents a = some n) :
    MatchesName hash options tree selector n.entry.name (tree.longestAbove selector (maxDepth + 1) (some a)) := by
  have shallow := sound.sound.registered.depth a n held
  refine .of_longest sound ?_
  rw [Nat.min_eq_left shallow]
  exact longestAbove_exact selector sound (maxDepth + 1) ⟨n,held,rfl⟩ (Nat.lt_succ_of_le shallow)

end NameTree

def demoHash : HashFunction := xorHash fun _ => 5
def demoOptions : HashtableOptions := .default 2 (by decide)

end ReflexiveNfd

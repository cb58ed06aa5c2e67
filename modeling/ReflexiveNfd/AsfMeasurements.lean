import ReflexiveNfd.DataMatches

namespace ReflexiveNfd
open Hashtable LongestPrefix List Option Transition NameTree

def TreeEntry.hasSlot (slot : Slot) (nte : TreeEntry) : Bool := (nte.slot slot).isSome

def nteHasFibEntry : TreeEntry → Bool := TreeEntry.hasSlot .fib
def nteHasStrategyChoiceEntry : TreeEntry → Bool := TreeEntry.hasSlot .strategyChoice

namespace TreeTables
variable (hash : HashFunction) (options : HashtableOptions)

section
variable (s : TreeTables)

section
variable (strategy : TableId) (nte : NodeId) (fibEntry : Option TableId) (name : Name)

-- A strategy instance belongs to one StrategyChoice entry, which stands for it.
def findEffectiveStrategy : Option TableId := do
  let found ← s.tree.findLongestPrefixMatch hash options name nteHasStrategyChoiceEntry
  found.bind (s.entryAt .strategyChoice)

def findEffectiveStrategyPit (id : EntryId) : Option TableId := do
  let found ← s.tree.findLongestPrefixMatchPit hash options name id nteHasStrategyChoiceEntry
  found.bind (s.entryAt .strategyChoice)

def findEffectiveStrategyMeasurements (entry : TableId) : Option TableId := do
  let nte ← s.tree.getEntry .measurements entry
  let found ← s.tree.longestAbove nteHasStrategyChoiceEntry (maxDepth + 1) (some nte)
  found.bind (s.entryAt .strategyChoice)

-- A FIB entry that is found; none is Fib::s_emptyEntry, which is never attached.
def fibAt (found : Option NodeId) : Option (Option TableId) := found.elim (some none) fun nte => (s.entryAt .fib nte).map some

def fibPrefix : Name :=
  ((fibEntry.bind (s.tree.getEntry .fib)).bind s.tree.ht.contents).elim [] (·.entry.name)

def lookupDelegations (hasNextHops : Option TableId → Bool) : List Name → Option TableId → Option (Option TableId)
  | [],last => some last
  | delegation :: rest,_ => do
      let found ← s.tree.findLongestPrefixMatch hash options delegation nteHasFibEntry
      let fibEntry ← s.fibAt found
      if hasNextHops fibEntry then return fibEntry
      else if s.fibPrefix fibEntry = [] then lookupDelegations hasNextHops rest fibEntry
      else none

def lookupFib (hasNextHops : Option TableId → Bool) (forwardingHint : List Name) (name : Name) (id : EntryId) :
    Option (Option TableId) :=
  if forwardingHint.isEmpty then do
    let found ← s.tree.findLongestPrefixMatchPit hash options name id nteHasFibEntry
    s.fibAt found
  else s.lookupDelegations hash options hasNextHops forwardingHint none

def measurementsEntryAt : Option (TreeTables × TableId) := do
  let s ← s.getOrAttach .measurements nte
  let entry ← s.entryAt .measurements nte
  return (s,entry)

def filter (strategy entry : TableId) : Option (Option TableId) := do
  let effectiveStrategy ← s.findEffectiveStrategyMeasurements entry
  return if effectiveStrategy = strategy then some entry else none

def getFiltered : Option (TreeTables × Option TableId) := do
  let (s,entry) ← s.measurementsEntryAt nte
  let shown ← s.filter strategy entry
  return (s,shown)

def accessorGet : Option (TreeTables × Option TableId) := do
  let (s,nte) ← s.lookup hash options name (min name.length maxDepth)
  s.getFiltered strategy nte

def accessorGetFib : Option (TreeTables × Option TableId) := do
  let (s,nte) ← fibEntry.elim (s.lookup hash options [] 0) (s.lookupFibEntry hash options)
  s.getFiltered strategy nte

end

end

def findPart (strategy : TableId) (name : Name) : List Nat → TreeTables → Option (TreeTables × Option TableId)
  | [],s => some (s,none)
  | prefixLen :: rest,s => do
      match ← s.accessorGet hash options strategy (name.take prefixLen) with
      | (s,some me) => return (s,some me)
      | (s,none) => findPart strategy name rest s

def getOrCreateNamespaceInfo (s : TreeTables) (strategy : TableId) (fibEntry : Option TableId) (name : Name) : Option (TreeTables × Option TableId) := do
  let size := (s.fibPrefix fibEntry).length
  match ← s.accessorGetFib hash options strategy fibEntry with
  | (s,some me) => return (s,some me)
  | (s,none) => findPart hash options strategy name (List.range' (size + 1) (name.length - size)) s

-- The forwarder sets the default strategy before anything else.
def Configured (s : TreeTables) : Prop := (new options).strategyChoiceSetDefault hash options = some s

end TreeTables

variable {hash : HashFunction} {options : HashtableOptions} {s t : TreeTables} {n : TreeNode} {name : Name} {slot : Slot}
  {id : EntryId} {strategy : TableId} {fibEntry : Option TableId}

namespace TreeTables

def Kept (s : TreeTables) (slot : Slot) (path : Name) (id : TableId) : Prop :=
  ∃ a, labelOf s.tree.ht.contents a = some path ∧ id ∈ entriesOf s.tree.ht.contents a slot.table

theorem kept_iff : s.Kept slot path id ↔ ∃ a n, s.tree.ht.contents a = some n ∧ n.entry.name = path ∧ n.entry.slot slot = some id := by
  constructor
  · rintro ⟨a,label,listed⟩
    obtain ⟨n,held,named⟩ := holds_label.mpr label
    rw [entriesOf_held held,entries_slot,mem_toList] at listed
    exact ⟨a,n,held,named,listed⟩
  · rintro ⟨a,n,held,named,present⟩
    refine ⟨a,holds_label.mp ⟨n,held,named⟩,?_⟩
    rw [entriesOf_held held,entries_slot,mem_toList]
    exact present

theorem kept_single (sound : Sound hash s) (path : Name) (x y : TableId) (first : s.Kept slot path x) (second : s.Kept slot path y) : x = y := by
  obtain ⟨a,n,held,named,present⟩ := kept_iff.mp first
  obtain ⟨b,m,there,same,also⟩ := kept_iff.mp second
  obtain rfl := sound.tree.sound.registered.distinct a b n m held there (named.trans same.symm)
  cases held.symm.trans there
  exact some.inj (present.symm.trans also)

theorem Undisturbed.kept (still : Undisturbed slot.table s t) (path : Name) (id : TableId) : t.Kept slot path id ↔ s.Kept slot path id := by
  refine exists_congr fun a => ?_
  rw [still.entries a]
  refine and_congr_left fun listed => ?_
  rw [still.labels a (ne_nil_of_mem listed)]

theorem entryAt_longest (longest : Longest (s.tree.Selected (TreeEntry.hasSlot slot)) name depth found) :
    Longest (s.Kept slot) name depth (found.bind (s.entryAt slot)) := by
  refine longest.bind ?_ fun path y => ?_
  · rintro path a ⟨n,held,_,selected⟩
    obtain ⟨y,present⟩ := isSome_iff_exists.mp selected
    exact ⟨y,by simp [entryAt,held,present]⟩
  · rw [kept_iff]
    constructor
    · rintro ⟨a,n,held,named,present⟩
      exact ⟨a,⟨n,held,named,by simp [TreeEntry.hasSlot,present]⟩,by simp [entryAt,held,present]⟩
    · rintro ⟨a,⟨n,held,named,_⟩,present⟩
      exact ⟨a,n,held,named,by simpa [entryAt,held] using present⟩

def Rooted (s : TreeTables) : Prop := ∃ id, s.Kept .strategyChoice [] id

theorem strategyChoice_kept (still : Undisturbed .strategyChoice s t) (path : Name) (id : TableId) :
    t.Kept .strategyChoice path id ↔ s.Kept .strategyChoice path id := by
  have same : Undisturbed Slot.strategyChoice.table s t := still
  exact same.kept path id

theorem Rooted.kept (rooted : s.Rooted) (still : Undisturbed .strategyChoice s t) : t.Rooted := by
  obtain ⟨id,held⟩ := rooted
  exact ⟨id,(strategyChoice_kept still [] id).mpr held⟩

theorem Rooted.writes (rooted : s.Rooted) (written : Writes .strategyChoice a xs s t)
    (apart : ∀ id ∈ entriesOf s.tree.ht.contents a .strategyChoice, labelOf s.tree.ht.contents a ≠ some []) : t.Rooted := by
  obtain ⟨id,b,label,listed⟩ := rooted
  have other : b ≠ a := by
    rintro rfl
    exact apart id listed label
  have same : entriesOf t.tree.ht.contents b .strategyChoice = entriesOf s.tree.ht.contents b .strategyChoice := (written.entries b).trans (if_neg other)
  have used : entriesOf t.tree.ht.contents b .strategyChoice ≠ [] := by
    rw [same]
    exact ne_nil_of_mem listed
  exact ⟨id,b,(written.labels b used).trans label,same ▸ listed⟩

section
variable (sound : Sound hash s)
include sound

theorem setDefault_rooted (taken : s.strategyChoiceSetDefault hash options = some t) : t.Rooted := by
  obtain ⟨u,a,id,ran,_,label,entries⟩ := setDefault_does options sound
  cases taken.symm.trans ran
  exact ⟨id,a,label,entries ▸ mem_singleton_self id⟩

theorem insert_rooted (rooted : s.Rooted) (taken : s.strategyChoiceInsert hash options name = some t) : t.Rooted := by
  by_cases deep : name.length > maxDepth
  · obtain rfl : s = t := by simpa [strategyChoiceInsert,deep] using taken
    exact rooted
  · obtain ⟨middle,nte,n,looked,⟨held,_⟩,_,still,first⟩ := lookup_does options name sound (Nat.le_refl name.length) (Nat.le_of_not_gt deep)
    obtain ⟨u,got,_,kept | ⟨bare,written,_⟩⟩ := getOrAttach_does options (first .pit).sound .strategyChoice held
    all_goals
      obtain rfl : u = t := by simpa [strategyChoiceInsert,deep,looked,got] using taken
    · exact kept.2 ▸ rooted.kept (still .strategyChoice)
    · refine (rooted.kept (still .strategyChoice)).writes written fun id listed => ?_
      rw [entriesOf_held held,show n.entry.entries .strategyChoice = _ from entries_slot _ .strategyChoice,bare] at listed
      cases listed

theorem erase_rooted (rooted : s.Rooted) (taken : s.strategyChoiceErase hash options name = some t) : t.Rooted := by
  have nonempty := (ite_none_left_eq_some.mp taken).1
  obtain ⟨u,ran,_,rfl | ⟨a,label,written⟩⟩ := strategyChoiceErase_does options sound nonempty
  all_goals cases taken.symm.trans ran
  · exact rooted
  · refine rooted.writes written fun id _ root => ?_
    exact nonempty (some.inj (label.symm.trans root))

theorem step_rooted {call : TableCall} (rooted : s.Rooted) (taken : s.step hash options call = some t) : t.Rooted := by
  by_cases own : call.table = .strategyChoice
  · cases call with
    | strategyChoiceSetDefault => exact setDefault_rooted sound taken
    | strategyChoiceInsert name => exact insert_rooted sound rooted taken
    | strategyChoiceErase name => exact erase_rooted sound rooted taken
    | _ => cases own
  · obtain ⟨u,ran,does⟩ := step_does sound (step_admissible sound taken)
    cases taken.symm.trans ran
    exact rooted.kept (does.others .strategyChoice (Ne.symm own))

end

theorem reached_rooted (path : Transition.Reached (step hash options) (Configured hash options) s) : Sound hash s ∧ s.Rooted := by
  refine Reached.invariant (P := fun s => Sound hash s ∧ s.Rooted) (fun s first => ?_) (fun s call t holds taken => ?_) path
  · have path : Transition.Reached (step hash options) (· = new options) (new options) := .start rfl
    have sound : Sound hash (new options) := reached_sound path
    obtain ⟨u,_,_,ran,does,_⟩ := setDefault_does options sound
    cases first.symm.trans ran
    exact ⟨does.sound,setDefault_rooted sound first⟩
  · obtain ⟨u,ran,does⟩ := step_does holds.1 (step_admissible holds.1 taken)
    cases taken.symm.trans ran
    exact ⟨does.sound,step_rooted holds.1 holds.2 taken⟩

def Governs (s : TreeTables) (strategy : TableId) (name : Name) : Prop :=
  Longest (s.Kept .strategyChoice) name (min name.length maxDepth) (some strategy)

theorem Governs.single (sound : Sound hash s) (first : s.Governs strategy name) (second : s.Governs other name) : strategy = other :=
  some.inj (Longest.unique (kept_single sound) first second)

theorem governs_undisturbed (still : Undisturbed .strategyChoice s t) : t.Governs strategy name ↔ s.Governs strategy name :=
  Longest.congr (strategyChoice_kept still)

theorem strategy_exact (rooted : s.Rooted)
    (longest : Longest (s.tree.Selected nteHasStrategyChoiceEntry) name depth found) :
    ∃ strategy, found.bind (s.entryAt .strategyChoice) = some strategy ∧ Longest (s.Kept .strategyChoice) name depth (some strategy) := by
  have kept := entryAt_longest longest
  obtain ⟨id,root⟩ := rooted
  obtain ⟨strategy,present⟩ := kept.somewhere root
  exact ⟨strategy,present,present ▸ kept⟩

theorem findEffectiveStrategy_exact (options : HashtableOptions) (sound : Sound hash s) (rooted : s.Rooted) (name : Name) (strategy : TableId) :
    s.findEffectiveStrategy hash options name = some strategy ↔ s.Governs strategy name := by
  obtain ⟨found,ran,longest⟩ := findLongestPrefixMatch_exact nteHasStrategyChoiceEntry options sound.tree name
  obtain ⟨own,present,governs⟩ := strategy_exact rooted longest
  have value : s.findEffectiveStrategy hash options name = some own := by simp [findEffectiveStrategy,ran,present]
  rw [value,Option.some.injEq]
  constructor
  · rintro rfl
    exact governs
  · exact Governs.single sound governs

def Placed (s : TreeTables) (id : EntryId) (name : Name) : Prop :=
  ∃ a, s.tree.getEntry .pit id = some a ∧ Hashtable.Holds s.tree.ht.contents (name.take (nteDepth name)) a

theorem findEffectiveStrategyPit_exact (sound : Sound hash s) (rooted : s.Rooted) (placed : s.Placed id name)
    (dispatched : s.findEffectiveStrategyPit hash options name id = some strategy) : s.Governs strategy name := by
  obtain ⟨a,attached,held⟩ := placed
  obtain ⟨found,ran,longest⟩ := findLongestPrefixMatchPit_exact nteHasStrategyChoiceEntry options sound.tree attached held
  obtain ⟨own,present,governs⟩ := strategy_exact rooted longest
  have value : s.findEffectiveStrategyPit hash options name id = some own := by simp [findEffectiveStrategyPit,ran,present]
  cases dispatched.symm.trans value
  exact governs

theorem filter_exact (sound : Sound hash s) (rooted : s.Rooted) (kept : s.Kept .measurements path entry) (strategy : TableId) :
    ∃ shown, s.filter strategy entry = some shown ∧ (shown.isSome ↔ s.Governs strategy path) := by
  obtain ⟨a,label,listed⟩ := kept
  have attached := ((sound.tree.owned .measurements).listed a entry).mp listed
  obtain ⟨n,held,rfl⟩ := holds_label.mpr label
  have shallow := sound.tree.sound.registered.depth a n held
  obtain ⟨found,ran,longest⟩ := longestAbove_exact nteHasStrategyChoiceEntry sound.tree (maxDepth + 1) ⟨n,held,rfl⟩
    (Nat.lt_succ_of_le shallow)
  obtain ⟨own,present,governs⟩ := strategy_exact rooted longest
  rw [← Nat.min_eq_left shallow] at governs
  refine ⟨if own = strategy then some entry else none,?_,?_⟩
  · simp [filter,findEffectiveStrategyMeasurements,getEntry,attached,ran,present]
  · rw [isSome_ite]
    constructor
    · rintro rfl
      exact governs
    · exact Governs.single sound governs

theorem attached_entry (held : s.tree.ht.contents a = some n)
    (effect : (n.entry.slot slot).isSome ∧ t = s ∨ n.entry.slot slot = none ∧ Writes slot a [s.fresh] s t ∧ rest) :
    ∃ entry, entriesOf t.tree.ht.contents a slot.table = [entry] ∧ labelOf t.tree.ht.contents a = some n.entry.name := by
  have label := holds_label.mp ⟨n,held,rfl⟩
  rcases effect with ⟨present,rfl⟩ | ⟨_,written,_⟩
  · obtain ⟨entry,present⟩ := isSome_iff_exists.mp present
    exact ⟨entry,by rw [entriesOf_held held,entries_slot,present]; rfl,label⟩
  · have entries := (written.entries a).trans (if_pos rfl)
    exact ⟨s.fresh,entries,(written.labels a (by simp [entries])).trans label⟩

section
variable (options : HashtableOptions)

theorem getFiltered_exact (sound : Sound hash s) (rooted : s.Rooted) (held : s.tree.ht.contents a = some n) (strategy : TableId) :
    ∃ t shown, s.getFiltered strategy a = some (t,shown) ∧ Does hash options .measurements s t ∧
      (shown.isSome ↔ s.Governs strategy n.entry.name) := by
  obtain ⟨t,got,does,effect⟩ := getOrAttach_does options sound .measurements held
  obtain ⟨entry,entries,label⟩ := attached_entry held effect
  obtain ⟨m,there,_⟩ := holds_label.mpr label
  have present : m.entry.slot .measurements = some entry := by
    rw [entriesOf_held there,entries_slot] at entries
    exact toList_eq_singleton_iff.mp entries
  have kept : t.Kept .measurements n.entry.name entry := ⟨a,label,entries ▸ mem_singleton_self entry⟩
  have still := does.others .strategyChoice (by decide)
  obtain ⟨shown,ran,governs⟩ := filter_exact does.sound (rooted.kept still) kept strategy
  refine ⟨t,shown,?_,does,governs.trans (governs_undisturbed still)⟩
  simp [getFiltered,measurementsEntryAt,got,entryAt,there,present,ran]

theorem accessorGet_exact (sound : Sound hash s) (rooted : s.Rooted) (strategy : TableId) (name : Name) :
    ∃ t shown, s.accessorGet hash options strategy name = some (t,shown) ∧ Does hash options .measurements s t ∧
      (shown.isSome ↔ s.Governs strategy name) := by
  obtain ⟨middle,nte,n,looked,⟨held,named⟩,_,still,first⟩ := lookup_does options name sound (Nat.min_le_left name.length maxDepth) (Nat.min_le_right ..)
  obtain ⟨t,shown,ran,second,governs⟩ := getFiltered_exact options (first .pit).sound (rooted.kept (still .strategyChoice)) held strategy
  refine ⟨t,shown,by simp [accessorGet,looked,ran],(first .measurements).trans second,?_⟩
  rw [governs,governs_undisturbed (still .strategyChoice),named,Governs,length_take,Nat.min_eq_left (Nat.min_le_left ..),
    Nat.min_eq_left (Nat.min_le_right ..),Longest.take_iff (Nat.le_refl _)]
  rfl

def Known (s : TreeTables) (fibEntry : Option TableId) : Prop := ∀ entry, fibEntry = some entry → ∃ a, s.tree.owner .fib entry = some a

theorem accessorGetFib_exact (sound : Sound hash s) (rooted : s.Rooted) (strategy : TableId) (known : s.Known fibEntry) :
    ∃ t shown, s.accessorGetFib hash options strategy fibEntry = some (t,shown) ∧ Does hash options .measurements s t ∧
      (shown.isSome ↔ s.Governs strategy (s.fibPrefix fibEntry)) := by
  cases fibEntry with
  | none => simpa [accessorGetFib,accessorGet,fibPrefix] using accessorGet_exact options sound rooted strategy []
  | some entry =>
    obtain ⟨a,attached⟩ := known entry rfl
    obtain ⟨n,held,listed⟩ := owner_live sound.tree attached
    have own : n.entry.fibEntry = some entry := by simpa [TreeEntry.entries] using listed
    obtain ⟨t,shown,ran,does,governs⟩ := getFiltered_exact options sound rooted held strategy
    refine ⟨t,shown,by simp [accessorGetFib,lookupFibEntry,getEntry,attached,held,own,ran],does,?_⟩
    simpa [fibPrefix,getEntry,attached,held] using governs

theorem findPart_exact (lengths : List Nat) (sound : Sound hash s) (rooted : s.Rooted) (strategy : TableId) (name : Name) :
    ∃ t me, findPart hash options strategy name lengths s = some (t,me) ∧
      (me.isSome ↔ ∃ prefixLen ∈ lengths, s.Governs strategy (name.take prefixLen)) := by
  induction lengths generalizing s with
  | nil => exact ⟨s,none,rfl,by simp⟩
  | cons prefixLen rest ih =>
    obtain ⟨t,shown,ran,does,governs⟩ := accessorGet_exact options sound rooted strategy (name.take prefixLen)
    have still := does.others .strategyChoice (by decide)
    cases shown with
    | some me =>
      refine ⟨t,some me,by simp [findPart,ran],iff_of_true rfl ⟨prefixLen,mem_cons_self,governs.mp rfl⟩⟩
    | none =>
      obtain ⟨u,me,walked,found⟩ := ih does.sound (rooted.kept still)
      refine ⟨u,me,by simp [findPart,ran,walked],found.trans ?_⟩
      have other : ¬ s.Governs strategy (name.take prefixLen) := fun this => by cases governs.mpr this
      simp only [mem_cons,exists_eq_or_imp,other,false_or,governs_undisturbed still]

end

theorem fibAt_known (sound : Sound hash s) (longest : Longest (s.tree.Selected nteHasFibEntry) name depth found)
    (read : s.fibAt found = some fibEntry) : s.Known fibEntry ∧ ∃ k ≤ depth, s.fibPrefix fibEntry = name.take k := by
  cases longest with
  | nowhere _ =>
    cases read
    exact ⟨nofun,0,Nat.zero_le _,rfl⟩
  | @here a k within selected _ =>
    obtain ⟨n,held,named,_⟩ := selected
    obtain ⟨entry,present,rfl⟩ := map_eq_some_iff.mp read
    have own : n.entry.slot .fib = some entry := by simpa [entryAt,held] using present
    have attached : s.tree.owner .fib entry = some a := by
      refine ((sound.tree.owned .fib).listed a entry).mp ?_
      rw [entriesOf_held held]
      exact mem_toList.mpr own
    refine ⟨?_,k,within,?_⟩
    · rintro _ ⟨⟩
      exact ⟨a,attached⟩
    · simp [fibPrefix,getEntry,attached,held,named]

theorem lookupDelegations_known (sound : Sound hash s) (known : s.Known last)
    (looked : s.lookupDelegations hash options hasNextHops hint last = some fibEntry) : s.Known fibEntry := by
  induction hint generalizing last with
  | nil =>
    cases looked
    exact known
  | cons delegation rest ih =>
    obtain ⟨found,ran,longest⟩ := findLongestPrefixMatch_exact nteHasFibEntry options sound.tree delegation
    simp only [lookupDelegations,ran,bind_eq_bind,bind_some] at looked
    obtain ⟨next,read,looked⟩ := bind_eq_some_iff.mp looked
    have here := (fibAt_known sound longest read).1
    split at looked
    · cases looked
      exact here
    · obtain ⟨_,looked⟩ := ite_none_right_eq_some.mp looked
      exact ih here looked

theorem lookupFib_known (sound : Sound hash s) (placed : s.Placed id name)
    (looked : s.lookupFib hash options hasNextHops hint name id = some fibEntry) :
    s.Known fibEntry ∧ (hint = [] → ∃ k ≤ min name.length maxDepth, s.fibPrefix fibEntry = name.take k) := by
  cases hint with
  | nil =>
    obtain ⟨a,attached,held⟩ := placed
    obtain ⟨found,ran,longest⟩ := findLongestPrefixMatchPit_exact nteHasFibEntry options sound.tree attached held
    have read : s.fibAt found = some fibEntry := by simpa [lookupFib,ran] using looked
    obtain ⟨known,above⟩ := fibAt_known sound longest read
    exact ⟨known,fun _ => above⟩
  | cons delegation rest =>
    have nothing : s.Known none := nofun
    exact ⟨lookupDelegations_known sound nothing looked,nofun⟩

-- An Interest's own FIB entry is above its name, and either the entry or the rest of
-- the name falls to the strategy. A forwarding hint's may be as deep as the name and
-- fall to another one.
theorem asf_measurements (path : Transition.Reached (step hash options) (Configured hash options) s) (placed : s.Placed id name)
    (dispatched : s.findEffectiveStrategyPit hash options name id = some strategy) (hasNextHops : Option TableId → Bool) (forwardingHint : List Name)
    (looked : s.lookupFib hash options hasNextHops forwardingHint name id = some fibEntry) :
    ∃ t me, s.getOrCreateNamespaceInfo hash options strategy fibEntry name = some (t,me) ∧
      (me.isSome ↔ forwardingHint = [] ∨ s.findEffectiveStrategy hash options (s.fibPrefix fibEntry) = some strategy ∨
        (s.fibPrefix fibEntry).length < name.length) := by
  obtain ⟨sound,rooted⟩ := reached_rooted path
  have governs := findEffectiveStrategyPit_exact sound rooted placed dispatched
  obtain ⟨known,above⟩ := lookupFib_known sound placed looked
  rw [findEffectiveStrategy_exact options sound rooted]
  have covered : forwardingHint = [] → s.Governs strategy (s.fibPrefix fibEntry) ∨ (s.fibPrefix fibEntry).length < name.length := by
    intro plain
    obtain ⟨k,within,same⟩ := above plain
    rw [same,length_take]
    rcases Nat.lt_or_ge k name.length with shorter | whole
    · exact .inr (by omega)
    · exact .inl (by rwa [take_of_length_le whole])
  obtain ⟨t,shown,ran,does,mine⟩ := accessorGetFib_exact options sound rooted strategy known
  have still := does.others .strategyChoice (by decide)
  cases shown with
  | some me => exact ⟨t,some me,by simp [getOrCreateNamespaceInfo,ran],iff_of_true rfl (.inr (.inl (mine.mp rfl)))⟩
  | none =>
    have other : ¬ s.Governs strategy (s.fibPrefix fibEntry) := fun this => by cases mine.mpr this
    obtain ⟨u,me,walked,found⟩ := findPart_exact options (List.range' ((s.fibPrefix fibEntry).length + 1) (name.length - (s.fibPrefix fibEntry).length))
      does.sound (rooted.kept still) strategy name
    refine ⟨u,me,by simp [getOrCreateNamespaceInfo,ran,walked],?_⟩
    -- the last round is at the whole name
    have rounds : me.isSome ↔ (s.fibPrefix fibEntry).length < name.length := by
      rw [found]
      constructor
      · rintro ⟨prefixLen,listed,_⟩
        have := mem_range'_1.mp listed
        omega
      · intro shorter
        refine ⟨name.length,mem_range'_1.mpr (by omega),?_⟩
        rw [take_length,governs_undisturbed still]
        exact governs
    rw [rounds]
    exact ⟨fun shorter => .inr (.inr shorter),fun cases => cases.elim (fun plain => (covered plain).resolve_left other) (fun rest => rest.resolve_left other)⟩

-- /A has a strategy of its own, /B/C a FIB entry, and an Interest for /A is pending.
def demoTables : Option TreeTables :=
  ((new demoOptions).strategyChoiceSetDefault demoHash demoOptions).bind fun s => run (step demoHash demoOptions) s
    [.strategyChoiceInsert [⟨8,[65]⟩],.fibInsert [⟨8,[66]⟩,⟨8,[67]⟩],.pitFindOrInsert (fun _ => none) { name := [⟨8,[65]⟩], nonce := 1 } true 0]

def nodeName (s : TreeTables) (id : EntryId) : Option Name := ((s.tree.getEntry .pit id).bind s.tree.ht.contents).map (·.entry.name)

theorem demoTables_reached (taken : demoTables = some s) : Transition.Reached (step demoHash demoOptions) (Configured demoHash demoOptions) s := by
  obtain ⟨first,configured,ran⟩ := Option.bind_eq_some_iff.mp taken
  exact run_reached (.start configured) ran

theorem placed_of_name (named : s.nodeName id = some (name.take (nteDepth name))) : s.Placed id name := by
  obtain ⟨n,found,label⟩ := map_eq_some_iff.mp named
  obtain ⟨a,attached,held⟩ := bind_eq_some_iff.mp found
  exact ⟨a,attached,n,held,label⟩

theorem asf_measurements_plain : ∃ s t me, demoTables = some s ∧
    s.getOrCreateNamespaceInfo demoHash demoOptions 2 none [⟨8,[65]⟩] = some (t,some me) := by
  obtain ⟨s,taken,named,strategy,hop⟩ : ∃ s ∈ demoTables, s.nodeName 0 = some [⟨8,[65]⟩] ∧
    s.findEffectiveStrategyPit demoHash demoOptions [⟨8,[65]⟩] 0 = some 2 ∧
    s.lookupFib demoHash demoOptions (fun _ => true) [] [⟨8,[65]⟩] 0 = some none := by decide
  obtain ⟨t,me,ran,found⟩ := asf_measurements (demoTables_reached taken) (placed_of_name named) strategy (fun _ => true) [] hop
  obtain ⟨entry,rfl⟩ := isSome_iff_exists.mp (found.mpr (.inl rfl))
  exact ⟨s,t,entry,taken,ran⟩

-- The Interest has the hint /B/C, which falls to the default strategy and is longer.
theorem hinted_measurements_missing : ∃ s, Transition.Reached (step demoHash demoOptions) (Configured demoHash demoOptions) s ∧ s.Placed 0 [⟨8,[65]⟩] ∧
    s.findEffectiveStrategyPit demoHash demoOptions [⟨8,[65]⟩] 0 = some 2 ∧
    s.lookupFib demoHash demoOptions Option.isSome [[⟨8,[66]⟩,⟨8,[67]⟩]] [⟨8,[65]⟩] 0 = some (some 3) ∧
    (s.getOrCreateNamespaceInfo demoHash demoOptions 2 (some 3) [⟨8,[65]⟩]).map Prod.snd = some none := by
  obtain ⟨s,taken,named,found⟩ : ∃ s ∈ demoTables, s.nodeName 0 = some [⟨8,[65]⟩] ∧
    s.findEffectiveStrategyPit demoHash demoOptions [⟨8,[65]⟩] 0 = some 2 ∧
    s.lookupFib demoHash demoOptions Option.isSome [[⟨8,[66]⟩,⟨8,[67]⟩]] [⟨8,[65]⟩] 0 = some (some 3) ∧
    (s.getOrCreateNamespaceInfo demoHash demoOptions 2 (some 3) [⟨8,[65]⟩]).map Prod.snd = some none := by decide
  exact ⟨s,demoTables_reached taken,placed_of_name named,found⟩

end TreeTables
end ReflexiveNfd

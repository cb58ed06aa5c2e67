import ReflexiveNfd.Tables

namespace ReflexiveNfd

def successorOctets (octets : List UInt8) : Bool × List UInt8 :=
  octets.foldr (fun octet (carry,rest) => if carry then (octet + 1 == 0,(octet + 1) :: rest) else (false,octet :: rest))
    (true,[])

def isSha256Type (type : Nat) : Bool := type == 1 || type == 2

-- Digest types keep their length and move to the next type; others grow.
def Component.getSuccessor (c : Component) : Component :=
  let (isOverflow,octets) := successorOctets c.value
  if !isOverflow then ⟨c.type,octets⟩
  else if isSha256Type c.type then
    ⟨c.type + 1,if isSha256Type (c.type + 1) then List.replicate 32 0 else []⟩
  else ⟨c.type,octets ++ [0]⟩

def Name.getSuccessor (name : Name) : Name :=
  match name.getLast? with
  | none => [⟨tlvImplicitSha256DigestComponent,List.replicate 32 0⟩]
  | some last => name.dropLast ++ [last.getSuccessor]

structure CsEntry where
  data : Data
  isUnsolicited : Bool
  freshUntil : Int
  deriving DecidableEq, Repr

-- The table is kept in canonical order of full names; queue lists the full
-- names least recently used first.
structure ContentStore where
  limit : Nat
  shouldAdmit : Bool
  shouldServe : Bool
  table : List CsEntry
  queue : List Name
  deriving DecidableEq, Repr

namespace ContentStore

def empty (limit : Nat) : ContentStore := ⟨limit,true,true,[],[]⟩

section
variable (e : CsEntry) (queryName : Name) (cs : ContentStore) (now : Int) (data : Data) (interest : Interest)

def canSatisfy : Bool :=
  matchesData interest.name interest.canBePrefix interest.mustBeFresh e.data &&
    !(interest.mustBeFresh && !decide (e.freshUntil ≥ now))

def compareQueryWithData : Ordering :=
  let queryIsFullName := queryName.endsWithDigest
  let cmp := if queryIsFullName then Name.compare queryName.dropLast data.name else Name.compare queryName data.name
  if cmp ≠ .eq then cmp
  else match queryIsFullName,queryName.getLast? with
    | true,some last => Component.compare last ⟨tlvImplicitSha256DigestComponent,data.digest⟩
    | _,_ => .lt

def entryBefore : Bool := compareQueryWithData queryName e.data == .gt

def findPrefixRange (name : Name) : List CsEntry :=
  let first := cs.table.dropWhile (entryBefore · name)
  if name.isEmpty then first else first.takeWhile (entryBefore · name.getSuccessor)

def compareDataWithData (lhs rhs : Data) : Ordering :=
  (Name.compare lhs.name rhs.name).then
    (Component.compare ⟨tlvImplicitSha256DigestComponent,lhs.digest⟩ ⟨tlvImplicitSha256DigestComponent,rhs.digest⟩)

-- LRU: a used or refreshed entry moves to the back of the queue.
def touch : ContentStore :=
  { cs with queue := cs.queue.erase data.getFullName ++ [data.getFullName] }

def find : Option Data × ContentStore :=
  if !cs.shouldServe || cs.limit == 0 then (none,cs)
  else match (cs.findPrefixRange interest.name).find? (canSatisfy · now interest) with
    | none => (none,cs)
    | some e => (some e.data,cs.touch e.data)

def evict (cs : ContentStore) : Nat → ContentStore
  | 0 => cs
  | fuel + 1 =>
    if cs.table.length ≤ cs.limit then cs
    else match cs.queue with
      | [] => cs
      | oldest :: rest =>
        evict { cs with table := cs.table.filter (fun e => e.data.getFullName ≠ oldest), queue := rest } fuel

def insertSorted (e : CsEntry) : List CsEntry → List CsEntry
  | [] => [e]
  | head :: rest => if compareDataWithData e.data head.data == .lt then e :: head :: rest else head :: insertSorted e rest

def insert (isUnsolicited : Bool) : ContentStore :=
  if !cs.shouldAdmit || cs.limit == 0 || data.noCache then cs
  else if cs.table.any (fun e => compareDataWithData e.data data == .eq) then
    { cs.touch data with
      table := cs.table.map fun e =>
        if compareDataWithData e.data data == .eq then
          { e with freshUntil := now + nanoseconds e.data.freshnessPeriod, isUnsolicited := e.isUnsolicited && isUnsolicited }
        else e }
  else
    let added := { cs.touch data with
      table := insertSorted ⟨data,isUnsolicited,now + nanoseconds data.freshnessPeriod⟩ cs.table }
    added.evict added.table.length

end

open List
variable {cs : ContentStore} {data : Data} {c d : CsEntry} {table : List CsEntry} {now : Int}

theorem find_table (searched : cs.find now i = (found,store)) :
    store.table = cs.table ∧ ∀ d ∈ found, ∃ c ∈ cs.table, c.data = d := by
  unfold find at searched
  split at searched
  · cases searched
    exact ⟨rfl,nofun⟩
  split at searched
  · cases searched
    exact ⟨rfl,nofun⟩
  · rename_i c hit
    cases searched
    refine ⟨rfl,?_⟩
    rintro _ ⟨⟩
    have listed := mem_of_find?_eq_some hit
    refine ⟨c,?_,rfl⟩
    unfold findPrefixRange at listed
    split at listed
    · exact (dropWhile_suffix _).subset listed
    · exact (dropWhile_suffix _).subset ((List.takeWhile_prefix _).subset listed)

theorem mem_insertSorted (listed : d ∈ insertSorted c table) : d = c ∨ d ∈ table := by
  induction table with
  | nil => exact .inl (mem_singleton.mp listed)
  | cons head rest ih =>
    rw [insertSorted] at listed
    split at listed
    · exact mem_cons.mp listed
    · rcases mem_cons.mp listed with rfl | later
      · exact .inr mem_cons_self
      · exact (ih later).imp_right (mem_cons_of_mem _)

theorem evict_subset (fuel : Nat) : (cs.evict fuel).table ⊆ cs.table := by
  induction fuel generalizing cs with
  | zero => exact List.Subset.refl _
  | succ fuel ih =>
    rw [evict]
    split
    · exact List.Subset.refl _
    split
    · exact List.Subset.refl _
    · exact List.Subset.trans ih (filter_subset_self _)

theorem insert_table (listed : c ∈ (cs.insert now data isUnsolicited).table) :
    c.data = data ∨ ∃ old ∈ cs.table, old.data = c.data := by
  unfold insert at listed
  split at listed
  · exact .inr ⟨c,listed,rfl⟩
  split at listed
  · obtain ⟨old,there,rfl⟩ := mem_map.mp listed
    refine .inr ⟨old,there,?_⟩
    split <;> rfl
  · rcases mem_insertSorted (evict_subset _ listed) with rfl | old
    · exact .inl rfl
    · exact .inr ⟨c,old,rfl⟩

end ContentStore
end ReflexiveNfd

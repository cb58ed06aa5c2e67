import ReflexiveNfd.Lib.Results
import ReflexiveNfd.UriNames

namespace ReflexiveNfd
open Decimal Results List Uri

def backslash : UInt8 := 92
def less : UInt8 := 60
def greater : UInt8 := 62

inductive ExpandError where
  | wrongFormat
  | exceeded
  | badCast
  | uri (error : UriError)
  deriving DecidableEq, Repr

-- What a match leaves behind: its result, those of the groups of the manager that
-- was used, and the expand string given to the constructor.
structure RegexTopMatcher where
  matchResult : Name
  backrefs : List Name
  defaultExpand : List UInt8
  indexed : backrefs.length < UInt64.size

namespace RegexTopMatcher

-- The text up to the closing bracket. After each character that is read there has
-- to be another one.
def bracketed (left right : Nat) : List UInt8 → Except ExpandError (List UInt8 × List UInt8)
  | [] => .error .wrongFormat
  | c :: rest =>
    let left := if c = less then left + 1 else left
    let right := if c = greater then right + 1 else right
    if rest = [] then .error .wrongFormat
    else if right < left then (bracketed left right rest).map fun found => (c :: found.1,found.2)
    else .ok ([c],rest)

-- An item and what follows it. Reading digits ends at the end of the string at the
-- latest, where the terminating zero stands.
def getItemFromExpand : List UInt8 → Except ExpandError (List UInt8 × List UInt8)
  | [] => .error .wrongFormat
  | c :: rest =>
    if c = backslash then
      if rest.takeWhile isDigit = [] then .error .wrongFormat
      else .ok (c :: rest.takeWhile isDigit,rest.dropWhile isDigit)
    else if c = less then (bracketed 1 0 rest).map fun found => (c :: found.1,found.2)
    else .error .wrongFormat

section
variable (m : RegexTopMatcher)

def group (index : Nat) : Except ExpandError Name :=
  if index = 0 then .ok m.matchResult
  else if index ≤ m.backrefs.length then .ok (m.backrefs.getD (index - 1) [])
  else .error .exceeded

def expandItem : List UInt8 → Except ExpandError Name
  | [] => .ok []
  | c :: text =>
    if c = less then (fromUri text.dropLast).mapError .uri
    else if c = backslash then if numberOf text < UInt64.size then m.group (numberOf text) else .error .badCast
    else .ok []

def expandFrom : Nat → List UInt8 → Except ExpandError Name
  | 0,_ => .ok []
  | fuel + 1,text =>
    if text = [] then .ok []
    else do
      let (item,rest) ← getItemFromExpand text
      let part ← m.expandItem item
      let later ← expandFrom fuel rest
      return part ++ later

def expand (expandStr : List UInt8) : Except ExpandError Name :=
  let text := if expandStr ≠ [] then expandStr else m.defaultExpand
  m.expandFrom text.length text

end

end RegexTopMatcher

-- A number behind a backslash, or a text in brackets with the Name it is the URI of.
inductive ExpandItem where
  | backref (digits : List UInt8)
  | component (text : List UInt8) (name : Name)
  deriving DecidableEq

namespace ExpandItem
open RegexTopMatcher

def text : ExpandItem → List UInt8
  | .backref digits => backslash :: digits
  | .component text _ => less :: (text ++ [greater])

def isComponent : ExpandItem → Bool
  | .backref _ => false
  | .component .. => true

def Legal (m : RegexTopMatcher) : ExpandItem → Prop
  | .backref digits => digits ≠ [] ∧ (∀ c ∈ digits, isDigit c) ∧ numberOf digits ≤ m.backrefs.length
  | .component text name => (∀ c ∈ text, c ≠ less ∧ c ≠ greater) ∧ fromUri text = .ok name

def value (m : RegexTopMatcher) : ExpandItem → Name
  | .backref digits => if numberOf digits = 0 then m.matchResult else m.backrefs.getD (numberOf digits - 1) []
  | .component _ name => name

variable {m : RegexTopMatcher} {item : ExpandItem} {items : List ExpandItem} {rest : List UInt8}

theorem bracketed_exact (plain : ∀ c ∈ word, c ≠ less ∧ c ≠ greater) :
    bracketed 1 0 (word ++ greater :: rest) = if rest = [] then .error .wrongFormat else .ok (word ++ [greater],rest) := by
  induction word with
  | nil => rfl
  | cons c word ih =>
    obtain ⟨⟨left,right⟩,later⟩ := forall_mem_cons.mp plain
    simp only [cons_append,bracketed,if_neg left,if_neg right,ih later]
    rw [if_neg (by simp),if_pos one_pos]
    split <;> rfl

theorem getItemFromExpand_exact (legal : item.Legal m) (ends : ∀ c ∈ rest.head?, isDigit c = false) :
    getItemFromExpand (item.text ++ rest) = if item.isComponent ∧ rest = [] then .error .wrongFormat else .ok (item.text,rest) := by
  cases item with
  | backref digits =>
    obtain ⟨nonempty,numbers,_⟩ := legal
    have stops : rest.takeWhile isDigit = [] ∧ rest.dropWhile isDigit = rest := by
      cases rest with
      | nil => exact ⟨rfl,rfl⟩
      | cons c rest => simp [takeWhile,dropWhile,ends c rfl]
    have taken : (digits ++ rest).takeWhile isDigit = digits := by
      rw [takeWhile_append_of_pos numbers,stops.1,append_nil]
    have left : (digits ++ rest).dropWhile isDigit = rest := by
      rw [dropWhile_append_of_pos numbers,stops.2]
    simp [text,getItemFromExpand,taken,left,nonempty,isComponent]
  | component word name =>
    simp only [text,cons_append,append_assoc,nil_append,getItemFromExpand,if_neg (show less ≠ backslash by decide),if_true,
      bracketed_exact legal.1,isComponent,true_and]
    split <;> rfl

theorem expandItem_exact (legal : item.Legal m) : m.expandItem item.text = .ok (item.value m) := by
  cases item with
  | backref digits =>
    obtain ⟨_,_,within⟩ := legal
    have small := lt_of_le_of_lt within m.indexed
    simp only [text,expandItem,if_neg (show backslash ≠ less by decide),if_true,if_pos small,group,value,if_pos within]
    split <;> rfl
  | component word name =>
    simp only [text,expandItem,if_true,dropLast_concat,legal.2,value]
    rfl

theorem text_head (items : List ExpandItem) : ∀ c ∈ (items.flatMap text).head?, isDigit c = false := by
  intro c first
  cases items with
  | nil => cases first
  | cons item items =>
    cases item <;> cases first <;> rfl

theorem text_nonempty (item : ExpandItem) : item.text ≠ [] := by
  cases item <;> exact cons_ne_nil _ _

-- By induction on the items: what is left behind an item begins the next one.
theorem expandFrom_exact (legal : ∀ item ∈ items, item.Legal m) (enough : (items.flatMap text).length ≤ fuel) :
    m.expandFrom fuel (items.flatMap text) =
      if items.getLast?.any isComponent then .error .wrongFormat else .ok (items.flatMap (value m)) := by
  induction items generalizing fuel with
  | nil => cases fuel <;> rfl
  | cons item items ih =>
    obtain ⟨first,later⟩ := forall_mem_cons.mp legal
    have nonempty := length_pos_iff.mpr item.text_nonempty
    rw [flatMap_cons,length_append] at enough
    obtain ⟨fuel,rfl⟩ : ∃ n, fuel = n + 1 := ⟨fuel - 1,by omega⟩
    have rest := ih later (show (items.flatMap text).length ≤ fuel by omega)
    rw [flatMap_cons,expandFrom,if_neg (by simp [item.text_nonempty]),getItemFromExpand_exact first (text_head items)]
    cases items with
    | nil => cases item <;> simp_all [isComponent,expandItem_exact,Except.bind,bind,pure,Except.pure]
    | cons next others =>
      have more : ¬ ((next :: others).flatMap text = []) := by simp [next.text_nonempty]
      rw [if_neg (fun both => more both.2),ok_bind]
      simp only [expandItem_exact first,ok_bind,rest,getLast?_cons_cons]
      split <;> rfl

-- The last item of the string must not stand in brackets.
theorem expand_iff (legal : ∀ item ∈ items, item.Legal m) (given : items = [] → m.defaultExpand = []) :
    m.expand (items.flatMap text) = .ok (items.flatMap (value m)) ↔ ∀ item ∈ items.getLast?, item.isComponent = false := by
  have whole : m.expand (items.flatMap text) = m.expandFrom (items.flatMap text).length (items.flatMap text) := by
    rw [expand]
    split
    · rfl
    · rename_i empty
      have none : items = [] := by
        cases items with
        | nil => rfl
        | cons item items => simp [item.text_nonempty] at empty
      rw [given none,none]
      rfl
  rw [whole,expandFrom_exact legal (le_refl _)]
  cases items.getLast? with
  | none => simp
  | some last => cases closing : last.isComponent <;> simp [closing]

-- "<a>\\1"
theorem expand_backref_last : (⟨[],[[⟨8,[98]⟩]],[],by decide⟩ : RegexTopMatcher).expand [60,97,62,92,49] =
    .ok [⟨8,[97]⟩,⟨8,[98]⟩] := by
  have legal : ∀ item ∈ [component [97] [⟨8,[97]⟩],.backref [49]], item.Legal ⟨[],[[⟨8,[98]⟩]],[],by decide⟩ :=
    forall_mem_cons.mpr ⟨⟨by simp; decide,rfl⟩,forall_mem_singleton.mpr ⟨by decide,by simp; rfl,by decide⟩⟩
  exact (expand_iff legal nofun).mpr (by decide)

-- "<a>"
theorem expand_component_last : ∃ (m : RegexTopMatcher) (item : ExpandItem), item.Legal m ∧
    m.expand item.text = .error .wrongFormat :=
  ⟨⟨[],[],[],by decide⟩,.component [97] [⟨8,[97]⟩],⟨by simp; decide,rfl⟩,rfl⟩

end ExpandItem
end ReflexiveNfd

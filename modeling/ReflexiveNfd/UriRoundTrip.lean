import ReflexiveNfd.ReflexiveNames
import ReflexiveNfd.UriNames

namespace ReflexiveNfd
namespace Uri
open Decimal List
variable {c : Component} {name : Name} {format : UriFormat} {type : Nat} {value text : List UInt8}

def joined : List (List UInt8) → List UInt8
  | [] => []
  | [text] => text
  | text :: texts => text ++ slash :: joined texts

theorem joined_cons (text next : List UInt8) (rest : List (List UInt8)) : joined (text :: next :: rest) = text ++ slash :: joined (next :: rest) := rfl

def readAll : List (List UInt8) → Except UriError Name
  | [] => .ok []
  | text :: texts => do
      let c ← fromEscapedString text
      let rest ← readAll texts
      return c :: rest

def Separate (text : List UInt8) : Prop := text ≠ [] ∧ slash ∉ text

theorem takeWhile_separated (front : List UInt8) (clear : separator ∉ front) (rest : List UInt8) :
    (front ++ separator :: rest).takeWhile (· ≠ separator) = front := by
  have all : ∀ x ∈ front, decide (x ≠ separator) := fun x listed => decide_eq_true (fun same => clear (same ▸ listed))
  rw [takeWhile_append_of_pos all,takeWhile_cons_of_neg (by simp),append_nil]

theorem drop_separated (front rest : List UInt8) (separator : UInt8) : (front ++ separator :: rest).drop (front.length + 1) = rest := by
  rw [append_cons]
  exact drop_left' (by simp)

theorem takeWhile_whole (clear : separator ∉ text) : text.takeWhile (· ≠ separator) = text :=
  takeWhile_eq_self_iff.mpr fun _ listed => decide_eq_true (fun same => clear (same ▸ listed))

inductive Path : List (List UInt8) → List UInt8 → Prop where
  | last {text : List UInt8} (nonempty : text ≠ []) (clear : slash ∉ text) : Path [text] text
  | closed {text : List UInt8} (clear : slash ∉ text) : Path [text] (text ++ [slash])
  | cons {text rest : List UInt8} {texts : List (List UInt8)} (clear : slash ∉ text) (others : Path texts rest) :
      Path (text :: texts) (text ++ slash :: rest)

theorem Path.nonempty (path : Path texts text) : texts ≠ [] ∧ text ≠ [] := by
  cases path with
  | last nonempty _ => exact ⟨cons_ne_nil _ _,nonempty⟩
  | closed _ => exact ⟨cons_ne_nil _ _,by simp⟩
  | cons _ _ => exact ⟨cons_ne_nil _ _,by simp⟩

def readTexts (readLast : List UInt8 → Except UriError Component) : List (List UInt8) → Except UriError Name
  | [] => .ok []
  | [text] => (readLast text).map ([·])
  | text :: texts => do
      let c ← fromEscapedString text
      let rest ← readTexts readLast texts
      return c :: rest

theorem readTexts_cons (readLast : List UInt8 → Except UriError Component) (text : List UInt8) (more : texts ≠ []) :
    readTexts readLast (text :: texts) = (do
      let c ← fromEscapedString text
      let rest ← readTexts readLast texts
      return c :: rest) := by
  cases texts with
  | nil => exact absurd rfl more
  | cons => rfl

theorem readComponents_path
    (path : Path texts uri) (enough : uri.length ≤ fuel) : readComponents readLast fuel uri = readTexts readLast texts := by
  induction path generalizing fuel with
  | @last text nonempty clear =>
    have := length_pos_iff.mpr nonempty
    obtain ⟨fuel,rfl⟩ : ∃ n, fuel = n + 1 := ⟨fuel - 1,by omega⟩
    rw [readComponents,if_neg (by simpa using nonempty)]
    simp only [takeWhile_whole clear,ge_iff_le,Nat.le_succ,if_true]
    rfl
  | @closed text clear =>
    rw [length_append,length_singleton] at enough
    obtain ⟨fuel,rfl⟩ : ∃ n, fuel = n + 1 := ⟨fuel - 1,by omega⟩
    rw [readComponents,if_neg (by simp)]
    simp only [takeWhile_separated text clear,length_append,length_singleton,ge_iff_le,Nat.le_refl,if_true]
    rfl
  | @cons text rest texts clear others ih =>
    have := length_pos_iff.mpr others.nonempty.2
    rw [length_append,length_cons] at enough
    obtain ⟨fuel,rfl⟩ : ∃ n, fuel = n + 1 := ⟨fuel - 1,by omega⟩
    rw [readComponents,if_neg (by simp),readTexts_cons _ _ others.nonempty.1]
    simp only [takeWhile_separated text clear,drop_separated]
    rw [if_neg (by rw [length_append,length_cons]; omega),ih (by omega)]

theorem readTexts_readAll (texts : List (List UInt8)) : readTexts fromEscapedString texts = readAll texts := by
  induction texts with
  | nil => rfl
  | cons text texts ih =>
    cases texts with
    | nil =>
      rw [readTexts,readAll]
      cases fromEscapedString text <;> rfl
    | cons next rest =>
      rw [readTexts_cons _ _ (cons_ne_nil _ _),ih]
      rfl

theorem joined_path (first : List UInt8) (separate : ∀ text ∈ first :: texts, Separate text) :
    Path (first :: texts) (joined (first :: texts)) := by
  induction texts generalizing first with
  | nil => exact .last (separate first mem_cons_self).1 (separate first mem_cons_self).2
  | cons next rest ih =>
    exact .cons (separate first mem_cons_self).2 (ih next fun text listed => separate text (mem_cons_of_mem _ listed))

theorem readAll_exact (write : Component → List UInt8) (name : Name) :
    readAll (name.map write) = .ok name ↔ ∀ c ∈ name, fromEscapedString (write c) = .ok c := by
  induction name with
  | nil => simp [readAll]
  | cons c rest ih =>
    rw [map_cons,readAll,forall_mem_cons,← ih]
    constructor
    · intro computed
      obtain ⟨d,here,computed⟩ := Results.bind_parts computed
      obtain ⟨others,there,computed⟩ := Results.bind_parts computed
      cases computed
      exact ⟨here,there⟩
    · rintro ⟨here,there⟩
      rw [here,there]
      rfl

theorem flatMap_joined (first : List UInt8) (texts : List (List UInt8)) :
    (first :: texts).flatMap (fun text => slash :: text) = slash :: joined (first :: texts) := by
  induction texts generalizing first with
  | nil => simp [joined]
  | cons next rest ih => rw [flatMap_cons,ih next,joined_cons,cons_append]

theorem colon_joined (clear : ∀ text ∈ texts, colon ∉ text) : colon ∉ joined texts := by
  induction texts with
  | nil => exact not_mem_nil
  | cons text texts ih =>
    obtain ⟨here,others⟩ := forall_mem_cons.mp clear
    cases texts with
    | nil => exact here
    | cons next rest =>
      rw [joined_cons,mem_append,mem_cons]
      rintro (inside | same | inside)
      · exact here inside
      · exact absurd same (by decide)
      · exact ih others inside

theorem stripScheme_clear (clear : colon ∉ text) : stripScheme text = text := by
  unfold stripScheme
  rw [idxOf_eq_length clear,if_neg]
  exact Nat.not_lt.mpr idxOf_le_length

theorem joined_head (first : List UInt8) (separate : Separate first) : (joined (first :: texts)).head? ≠ some slash := by
  obtain ⟨nonempty,clear⟩ := separate
  cases first with
  | nil => exact absurd rfl nonempty
  | cons x rest =>
    have other : x ≠ slash := fun same => clear (same ▸ mem_cons_self)
    cases texts with
    | nil => simpa [joined] using other
    | cons => simpa [joined] using other

theorem fromUri_toUri (texts : ∀ c ∈ name, Separate (componentToUri format c) ∧ colon ∉ componentToUri format c) :
    fromUri (toUri format name) = .ok name ↔ ∀ c ∈ name, fromEscapedString (componentToUri format c) = .ok c := by
  rw [← readAll_exact]
  cases name with
  | nil => exact iff_of_true rfl rfl
  | cons c rest =>
    have separate : ∀ text ∈ (c :: rest).map (componentToUri format), Separate text := by
      intro text listed
      obtain ⟨d,inside,rfl⟩ := mem_map.mp listed
      exact (texts d inside).1
    have clear : ∀ text ∈ (c :: rest).map (componentToUri format), colon ∉ text := by
      intro text listed
      obtain ⟨d,inside,rfl⟩ := mem_map.mp listed
      exact (texts d inside).2
    have whole : toUri format (c :: rest) = slash :: joined ((c :: rest).map (componentToUri format)) := by
      rw [map_cons,← flatMap_joined,← map_cons,flatMap_map]
      rfl
    have plain : colon ∉ slash :: joined ((c :: rest).map (componentToUri format)) := by
      rw [mem_cons]
      rintro (same | inside)
      · exact absurd same (by decide)
      · exact colon_joined clear inside
    have path : stripAuthority (slash :: joined ((c :: rest).map (componentToUri format)))
        = some (joined ((c :: rest).map (componentToUri format))) := by
      have head : (joined ((c :: rest).map (componentToUri format))).head? ≠ some slash := joined_head _ (texts c mem_cons_self).1
      unfold stripAuthority
      rw [if_pos List.head?_cons,tail_cons,if_neg head]
    have segments : Path ((c :: rest).map (componentToUri format)) (joined ((c :: rest).map (componentToUri format))) := joined_path _ separate
    rw [whole,fromUri,fromUriWith,isEmpty_cons,if_neg Bool.false_ne_true,stripScheme_clear plain,path,Option.elim_some,
      readComponents_path segments (Nat.le_refl _),readTexts_readAll]

theorem valid_iff : ensureValid c = .ok () ↔ (1 ≤ c.type ∧ c.type ≤ 65535) ∧ (getComponentType c.type).check c.value = .ok () := by
  unfold ensureValid
  split
  · rename_i outside
    exact iff_of_false nofun fun valid => by omega
  · rename_i inside
    exact ⟨fun checked => ⟨by omega,checked⟩,fun valid => valid.2⟩

theorem component_valid (valid : ensureValid c = .ok ()) : component c.type c.value = .ok c := by
  unfold component
  rw [valid]
  rfl

theorem parse_written (type : Nat) (value : List UInt8) : parseUriEscapedValue type (writeUriEscapedValue value) = component type value := by
  have back : unescape (escape value) = value := by simpa [unescape] using unescape_escape value []
  unfold writeUriEscapedValue parseUriEscapedValue
  split
  · rename_i periods
    have all := eq_replicate_iff.mpr ⟨rfl,fun x listed => eq_of_beq (all_eq_true.mp periods x listed)⟩
    have plain : period ≠ percent := by decide
    rw [cons_append,cons_append,cons_append,nil_append,unescape_plain plain,unescape_plain plain,
      unescape_plain plain,back]
    have longer : isAllPeriods (period :: period :: period :: value) := periods
    have shorter : (period :: period :: period :: value).take ((period :: period :: period :: value).length - 3) = value := by
      rw [all]
      simp [← replicate_succ,Nat.add_assoc]
    simp only [longer,if_true,shorter]
    rw [if_neg (by simp)]
  · rename_i other
    rw [nil_append,back]
    simp only [if_neg other]

theorem safe_written (value : List UInt8) : ∀ x ∈ writeUriEscapedValue value, isSafe x := by
  intro x listed
  rcases mem_append.mp listed with dots | escaped
  · split at dots
    · have : x = period := by simpa using dots
      rw [this]
      rfl
    · cases dots
  · exact safe_escape value x escaped

theorem safe_decimal (n : Nat) : ∀ x ∈ decimal n, isSafe x := by
  intro x listed
  have number := decimal_isDigit n x listed
  unfold isDigit at number
  simp only [isSafe,isUnreserved,isAlphanumeric,number,Bool.or_true,Bool.true_or]

def Written (text : List UInt8) : Prop := text ≠ [] ∧ ∀ x ∈ text, isSafe x ∨ x = equals

theorem Written.separate (written : Written text) : Separate text ∧ colon ∉ text := by
  obtain ⟨nonempty,characters⟩ := written
  refine ⟨⟨nonempty,fun inside => ?_⟩,fun inside => ?_⟩
  · rcases characters slash inside with safe | same
    · cases safe
    · exact absurd same (by decide)
  · rcases characters colon inside with safe | same
    · cases safe
    · exact absurd same (by decide)

theorem equals_not_safe (safe : ∀ x ∈ text, isSafe x) : equals ∉ text := fun inside => nomatch safe equals inside

theorem written_assigned (first : ∀ x ∈ front, isSafe x) (second : ∀ x ∈ value, isSafe x) :
    Written (front ++ equals :: value) := by
  refine ⟨by simp,fun x inside => ?_⟩
  rcases mem_append.mp inside with here | here
  · exact .inl (first x here)
  · rcases mem_cons.mp here with same | there
    · exact .inr same
    · exact .inl (second x there)

theorem fromEscapedString_assigned (front value : List UInt8) (clear : equals ∉ front) :
    fromEscapedString (front ++ equals :: value) =
      if 1 ≤ strtoul front ∧ strtoul front ≤ 65535 ∧ decimal (strtoul front) = front then parseUriEscapedValue (strtoul front) value
      else (findByUriPrefix front).elim (.error (.unknownType front)) (ComponentType.parseAltUriValue value) := by
  unfold fromEscapedString
  rw [if_pos (by simp)]
  simp only [takeWhile_separated front clear,drop_separated]
  cases findByUriPrefix front <;> rfl

theorem fromEscapedString_plain (clear : equals ∉ text) : fromEscapedString text = parseUriEscapedValue tlvGenericNameComponent text := if_neg clear

theorem canonical_written (c : Component) : Written (writeCanonical c) := written_assigned (safe_decimal _) (safe_written _)

theorem canonical_read (valid : ensureValid c = .ok ()) : fromEscapedString (writeCanonical c) = .ok c := by
  obtain ⟨bounds,_⟩ := valid_iff.mp valid
  have number : strtoul (decimal c.type) = c.type := strtoul_decimal (by omega)
  unfold writeCanonical
  rw [fromEscapedString_assigned _ _ (equals_not_safe (safe_decimal _)),number,if_pos ⟨bounds.1,bounds.2,rfl⟩,parse_written,component_valid valid]

theorem canonical_round_trip (valid : ∀ c ∈ name, ensureValid c = .ok ()) : fromUri (toUri .canonical name) = .ok name := by
  have texts : ∀ c ∈ name, Separate (componentToUri .canonical c) ∧ colon ∉ componentToUri .canonical c :=
    fun c _ => (canonical_written c).separate
  exact (fromUri_toUri texts).mpr fun c inside => canonical_read (valid c inside)

theorem canonical_round_trip_periods :
    toUri .canonical [⟨8,[period]⟩,⟨59,[]⟩] = octets ['/','8','=','.','.','.','.','/','5','9','=','.','.','.'] ∧
      fromUri (toUri .canonical [⟨8,[period]⟩,⟨59,[]⟩]) = .ok [⟨8,[period]⟩,⟨59,[]⟩] :=
  ⟨by decide,canonical_round_trip (by decide)⟩

def decimalTypes : List Nat :=
  [tlvSegmentNameComponent,tlvByteOffsetNameComponent,tlvVersionNameComponent,tlvTimestampNameComponent,tlvSequenceNumNameComponent]

-- What the table says of a type, to be used in place of its lines.
def Suits (type : Nat) : ComponentType → Prop
  | .base => type ≠ tlvReflexiveNameComponent ∧ type ∉ decimalTypes
  | .generic => type = tlvGenericNameComponent
  | .reflexive _ => type = tlvReflexiveNameComponent
  | .sha256 own _ => own = type ∧ type ≠ tlvReflexiveNameComponent ∧ type ∉ decimalTypes
  | .decimal own _ => own = type ∧ type ∈ decimalTypes ∧ type ≠ tlvReflexiveNameComponent

instance (type : Nat) : DecidablePred (Suits type)
  | .base => inferInstanceAs (Decidable (_ ∧ _))
  | .generic | .reflexive _ => inferInstanceAs (Decidable (_ = _))
  | .sha256 _ _ | .decimal _ _ => inferInstanceAs (Decidable (_ ∧ _ ∧ _))

theorem table_suits : ∀ entry ∈ table, Suits entry.1 entry.2 := by decide

theorem table_covers : ∀ type ∈ tlvReflexiveNameComponent :: decimalTypes, getComponentType type ≠ .base := by decide

set_option maxRecDepth 4000 in
theorem table_prefixes : ∀ entry ∈ table, entry.2.getAltUriPrefix ≠ [] →
    (∀ x ∈ entry.2.getAltUriPrefix, isSafe x) ∧ strtoul entry.2.getAltUriPrefix = 0 ∧
      findByUriPrefix entry.2.getAltUriPrefix = some entry.2 := by decide

theorem table_declares : ∀ entry ∈ table, entry.2 ≠ .base → entry.2 ≠ .generic → entry.2.getAltUriPrefix ≠ [] := by decide

theorem getComponentType_listed (known : getComponentType type ≠ .base) : (type,getComponentType type) ∈ table := by
  unfold getComponentType at known ⊢
  cases found : table.find? (fun entry => entry.1 = type) with
  | none =>
    rw [found] at known
    exact absurd rfl known
  | some entry =>
    have same : entry.1 = type := by simpa using List.find?_some found
    rw [Option.elim_some,← same]
    exact mem_of_find?_eq_some found

theorem getComponentType_suits (type : Nat) : Suits type (getComponentType type) := by
  by_cases base : getComponentType type = .base
  · rw [base]
    refine not_or.mp fun special => table_covers type ?_ base
    exact mem_cons.mpr special
  · exact table_suits _ (getComponentType_listed base)

theorem prefix_exact (known : getComponentType type = ct) (listed : ct ≠ .base) (declares : ct ≠ .generic) :
    (∀ x ∈ ct.getAltUriPrefix, isSafe x) ∧
      ∀ value, fromEscapedString (ct.getAltUriPrefix ++ equals :: value) = ct.parseAltUriValue value := by
  subst known
  have inside := getComponentType_listed listed
  obtain ⟨safe,number,found⟩ := table_prefixes _ inside (table_declares _ inside listed declares)
  refine ⟨safe,fun value => ?_⟩
  rw [fromEscapedString_assigned _ _ (equals_not_safe safe),number,if_neg (by omega),found]
  rfl

theorem written_nonempty (value : List UInt8) : writeUriEscapedValue value ≠ [] := by
  unfold writeUriEscapedValue
  cases value with
  | nil => exact cons_ne_nil _ _
  | cons x rest =>
    have here : escapeOctet x ≠ [] := by
      unfold escapeOctet
      split <;> exact cons_ne_nil _ _
    simp [escape,here]

theorem alternate_written (c : Component) : Written (componentToUri .alternate c) := by
  unfold componentToUri
  cases kind : getComponentType c.type with
  | base => exact canonical_written c
  | generic => exact ⟨written_nonempty _,fun x inside => .inl (safe_written _ x inside)⟩
  | reflexive uriPrefix => exact written_assigned (prefix_exact kind nofun nofun).1 (safe_written _)
  | sha256 own uriPrefix => exact written_assigned (prefix_exact kind nofun nofun).1 (safe_printHex _ _)
  | decimal own uriPrefix =>
    simp only [ComponentType.writeUri]
    split
    · exact written_assigned (prefix_exact kind nofun nofun).1 (safe_decimal _)
    · exact canonical_written c

theorem number_lt (number : c.isNumber) : Component.readNonNegativeInteger c.value < 2 ^ 64 := by
  have bound := Octets.ofBigEndian_lt c.value
  refine Nat.lt_of_lt_of_le bound (Nat.pow_le_pow_right (by decide) (?_ : c.value.length ≤ 8))
  rcases Component.isNumber_iff.mp number with length | length | length | length <;> omega

-- What the default form keeps: a number of a decimal type has to be in its shortest
-- encoding, and nothing reads a reflexive component back.
def Portable (c : Component) : Prop :=
  c.type ≠ tlvReflexiveNameComponent ∧
    (c.type ∈ decimalTypes → c.isNumber → encodeNonNegativeInteger (Component.readNonNegativeInteger c.value) = c.value)

theorem alternate_read (valid : ensureValid c = .ok ()) : fromEscapedString (componentToUri .alternate c) = .ok c ↔ Portable c := by
  have suits := getComponentType_suits c.type
  unfold componentToUri
  cases kind : getComponentType c.type with
  | base =>
    rw [kind] at suits
    exact iff_of_true (canonical_read valid) ⟨suits.1,fun listed => absurd listed suits.2⟩
  | generic =>
    rw [kind] at suits
    refine iff_of_true ?_ ⟨by rw [suits]; decide,fun listed => absurd (suits ▸ listed) (by decide)⟩
    refine (fromEscapedString_plain (equals_not_safe (safe_written c.value))).trans ?_
    rw [parse_written,← suits,component_valid valid]
  | reflexive uriPrefix =>
    rw [kind] at suits
    refine iff_of_false (fun read => ?_) fun portable => portable.1 suits
    have other := (prefix_exact kind nofun nofun).2 (writeUriEscapedValue c.value)
    cases other.symm.trans read
  | sha256 own uriPrefix =>
    rw [kind] at suits
    obtain ⟨rfl,plain,other⟩ := suits
    refine iff_of_true ?_ ⟨plain,fun listed => absurd listed other⟩
    refine ((prefix_exact kind nofun nofun).2 _).trans ?_
    simp only [ComponentType.parseAltUriValue,fromHex_printHex]
    exact component_valid valid
  | decimal own uriPrefix =>
    rw [kind] at suits
    obtain ⟨rfl,listed,plain⟩ := suits
    simp only [ComponentType.writeUri]
    split
    · rename_i number
      obtain ⟨bounds,_⟩ := valid_iff.mp valid
      have checked : ensureValid ⟨c.type,encodeNonNegativeInteger (Component.readNonNegativeInteger c.value)⟩ = .ok () :=
        valid_iff.mpr ⟨bounds,by simp only [kind]; rfl⟩
      have read : fromEscapedString (uriPrefix ++ equals :: Decimal.decimal (Component.readNonNegativeInteger c.value))
          = .ok ⟨c.type,encodeNonNegativeInteger (Component.readNonNegativeInteger c.value)⟩ := by
        refine ((prefix_exact kind nofun nofun).2 _).trans ?_
        simp only [ComponentType.parseAltUriValue,stoull_decimal (number_lt number),ne_eq,not_true,if_false]
        exact component_valid checked
      rw [read]
      refine ⟨fun same => ⟨plain,fun _ _ => congrArg Component.value (Except.ok.inj same)⟩,fun portable => ?_⟩
      rw [portable.2 listed number]
    · rename_i other
      exact iff_of_true (canonical_read valid) ⟨plain,fun _ number => absurd number other⟩

theorem alternate_round_trip (valid : ∀ c ∈ name, ensureValid c = .ok ()) :
    fromUri (toUri .alternate name) ≠ .error .unreachable ∧ fromUri (toUri .alternate name) = .ok name ↔ ∀ c ∈ name, Portable c := by
  have texts : ∀ c ∈ name, Separate (componentToUri .alternate c) ∧ colon ∉ componentToUri .alternate c :=
    fun c _ => (alternate_written c).separate
  have each := forall₂_congr fun c inside => alternate_read (valid c inside)
  refine Iff.trans ⟨fun both => both.2,fun same => ⟨?_,same⟩⟩ ((fromUri_toUri texts).trans each)
  rw [same]
  exact nofun

theorem alternate_round_trip_segment :
    toUri .alternate [⟨8,[65]⟩,⟨50,[7]⟩] = octets ['/','A','/','s','e','g','=','7'] ∧
      (fromUri (toUri .alternate [⟨8,[65]⟩,⟨50,[7]⟩]) ≠ .error .unreachable ∧
        fromUri (toUri .alternate [⟨8,[65]⟩,⟨50,[7]⟩]) = .ok [⟨8,[65]⟩,⟨50,[7]⟩] ↔ ∀ c ∈ ([⟨8,[65]⟩,⟨50,[7]⟩] : Name), Portable c) :=
  ⟨by decide,alternate_round_trip (by decide)⟩

-- A reflexive component is written with the prefix RN, and no class reads that prefix.
-- A segment number of two octets comes back in one.
theorem alternate_unreadable :
    toUri .alternate [⟨59,[1]⟩] = octets ['/','R','N','=','%','0','1'] ∧
      fromUri (toUri .alternate [⟨59,[1]⟩]) = .error .unreachable ∧
      ensureValid ⟨50,[0,1]⟩ = .ok () ∧ fromUri (toUri .alternate [⟨50,[0,1]⟩]) = .ok [⟨50,[1]⟩] := by decide

end Uri
end ReflexiveNfd

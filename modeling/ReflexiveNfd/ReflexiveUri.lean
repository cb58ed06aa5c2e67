import ReflexiveNfd.UriRoundTrip

namespace ReflexiveNfd
open List Option
namespace Uri

inductive Scheme : List UInt8 → List UInt8 → Prop where
  | absent {uri : List UInt8} (late : ¬ uri.idxOf colon < uri.idxOf slash) : Scheme [] uri
  | present {scheme uri : List UInt8} (first : colon ∉ scheme) (clear : slash ∉ scheme) : Scheme (scheme ++ [colon]) uri

inductive Authority : List UInt8 → List UInt8 → Prop where
  | relative {path : List UInt8} (clear : path.head? ≠ some slash) : Authority [] path
  | rooted {path : List UInt8} (clear : path.head? ≠ some slash) : Authority [slash] path
  | host {authority path : List UInt8} (clear : slash ∉ authority) : Authority (slash :: slash :: (authority ++ [slash])) path

variable {uri front rest short path text last : List UInt8} {texts : List (List UInt8)} {name : Name} {convention : Convention}

theorem idxOf_separated (clear : separator ∉ front) : (front ++ separator :: rest).idxOf separator = front.length := by
  rw [idxOf_append_of_notMem clear,idxOf_cons_self,Nat.add_zero]

theorem Scheme.stripped (scheme : Scheme front rest) : stripScheme (front ++ rest) = rest := by
  cases scheme with
  | absent late => exact if_neg late
  | @present scheme _ first clear =>
    have slashAt : scheme.length < (scheme ++ colon :: rest).idxOf slash := by
      rw [idxOf_append_of_notMem clear,idxOf_cons_ne _ (by decide)]
      omega
    rw [append_assoc,singleton_append]
    unfold stripScheme
    rw [idxOf_separated first,if_pos slashAt,drop_separated]

theorem Scheme.shorter (scheme : Scheme front rest) (shorter : short <+: rest) : Scheme front short := by
  cases scheme with
  | present first clear => exact .present first clear
  | absent late =>
    refine .absent fun early => late ?_
    obtain ⟨others,rfl⟩ := shorter
    have inside : colon ∈ short := idxOf_lt_length_iff.mp (Nat.lt_of_lt_of_le early idxOf_le_length)
    rw [idxOf_append_of_mem inside]
    by_cases also : slash ∈ short
    · rwa [idxOf_append_of_mem also]
    · rw [idxOf_append_of_notMem also]
      have := idxOf_lt_length_iff.mpr inside
      omega

theorem stripScheme_parts (uri : List UInt8) : ∃ front, uri = front ++ stripScheme uri ∧ Scheme front (stripScheme uri) := by
  unfold stripScheme
  split
  · rename_i early
    have inside : colon ∈ uri := idxOf_lt_length_iff.mp (Nat.lt_of_lt_of_le early idxOf_le_length)
    obtain ⟨scheme,rest,rfl,first⟩ := eq_append_cons_of_mem inside
    rw [idxOf_separated first] at early ⊢
    have clear : slash ∉ scheme := by
      intro also
      rw [idxOf_append_of_mem also] at early
      exact absurd early (Nat.not_lt.mpr idxOf_le_length)
    rw [drop_separated]
    exact ⟨scheme ++ [colon],by simp,.present first clear⟩
  · rename_i late
    exact ⟨[],rfl,.absent late⟩

theorem Authority.stripped (authority : Authority front path) : stripAuthority (front ++ path) = some path := by
  cases authority with
  | relative clear => exact if_neg clear
  | rooted clear => exact (if_pos rfl).trans (if_neg clear)
  | @host authority _ clear =>
    have found : slash ∈ authority ++ slash :: path := by simp
    refine (if_pos rfl).trans ((if_pos rfl).trans ?_)
    simp only [cons_append,tail_cons,append_assoc,nil_append]
    rw [if_pos found,idxOf_separated clear,drop_separated]

theorem Authority.shorter (authority : Authority front path) (shorter : short <+: path) : Authority front short := by
  have head : path.head? ≠ some slash → short.head? ≠ some slash := by
    obtain ⟨others,rfl⟩ := shorter
    cases short with
    | nil => exact fun _ => nofun
    | cons => exact id
  cases authority with
  | relative clear => exact .relative (head clear)
  | rooted clear => exact .rooted (head clear)
  | host clear => exact .host clear

theorem stripAuthority_parts (stripped : stripAuthority uri = some path) : ∃ front, uri = front ++ path ∧ Authority front path := by
  unfold stripAuthority at stripped
  split at stripped
  · rename_i first
    obtain ⟨rest,rfl⟩ := List.head?_eq_some_iff.mp first
    rw [tail_cons] at stripped
    split at stripped
    · rename_i second
      obtain ⟨rest,rfl⟩ := List.head?_eq_some_iff.mp second
      obtain ⟨found,left⟩ := ite_none_right_eq_some.mp stripped
      rw [tail_cons] at found left
      obtain ⟨authority,rest,rfl,clear⟩ := eq_append_cons_of_mem found
      rw [idxOf_separated clear,drop_separated] at left
      cases left
      exact ⟨slash :: slash :: (authority ++ [slash]),by simp,.host clear⟩
    · rename_i clear
      cases stripped
      exact ⟨[slash],rfl,.rooted clear⟩
  · rename_i clear
    cases stripped
    exact ⟨[],rfl,.relative clear⟩

theorem strip_shorter (stripped : stripAuthority (stripScheme uri) = some path) (shorter : short <+: path) :
    stripAuthority (stripScheme (uri.take (uri.length - path.length) ++ short)) = some short := by
  obtain ⟨scheme,whole,schemed⟩ := stripScheme_parts uri
  obtain ⟨authority,behind,authorised⟩ := stripAuthority_parts stripped
  have front : uri.take (uri.length - path.length) = scheme ++ authority := by
    rw [whole,behind,← append_assoc,length_append,Nat.add_sub_cancel]
    exact take_left
  rw [behind] at schemed
  have kept := schemed.shorter ((prefix_append_right_inj authority).mpr shorter)
  rw [front,append_assoc,kept.stripped,(authorised.shorter shorter).stripped]

def segments : List UInt8 → List (List UInt8)
  | [] => []
  | x :: rest =>
    if x = slash then [] :: segments rest
    else match segments rest with
      | [] => [[x]]
      | text :: texts => (x :: text) :: texts

def withSlashes (texts : List (List UInt8)) : List UInt8 := texts.flatMap (· ++ [slash])

def withoutLastSegment (uri : List UInt8) : List UInt8 :=
  (stripAuthority (stripScheme uri)).elim uri fun path => uri.take (uri.length - path.length) ++ withSlashes (segments path).dropLast

theorem Path.longer (path : Path (text :: texts) rest) (other : x ≠ slash) : Path ((x :: text) :: texts) (x :: rest) := by
  have clear : ∀ {text : List UInt8}, slash ∉ text → slash ∉ x :: text := fun free inside =>
    (mem_cons.mp inside).elim (fun same => other same.symm) free
  cases path with
  | last _ free => exact .last (cons_ne_nil _ _) (clear free)
  | closed free => exact .closed (clear free)
  | cons free others => exact .cons (clear free) others

theorem segments_path (nonempty : path ≠ []) : Path (segments path) path := by
  induction path with
  | nil => exact absurd rfl nonempty
  | cons x rest ih =>
    rw [segments]
    split
    · rename_i same
      subst same
      cases rest with
      | nil => exact .closed not_mem_nil
      | cons => exact .cons not_mem_nil (ih (cons_ne_nil _ _))
    · rename_i other
      cases rest with
      | nil => exact .last (cons_ne_nil _ _) (by simpa using Ne.symm other)
      | cons y others =>
        have inner := ih (cons_ne_nil _ _)
        cases divided : segments (y :: others) with
        | nil => exact absurd divided inner.nonempty.1
        | cons text texts => exact (divided ▸ inner).longer other

theorem Path.initial (path : Path texts uri) :
    withSlashes texts.dropLast <+: uri ∧ (texts.dropLast ≠ [] → Path texts.dropLast (withSlashes texts.dropLast)) := by
  induction path with
  | last _ _ => exact ⟨List.nil_prefix,fun some => absurd rfl some⟩
  | closed _ => exact ⟨List.nil_prefix,fun some => absurd rfl some⟩
  | @cons text rest texts clear others ih =>
    rw [dropLast_cons_of_ne_nil others.nonempty.1]
    have written : withSlashes (text :: texts.dropLast) = text ++ slash :: withSlashes texts.dropLast := by
      simp [withSlashes]
    rw [written]
    refine ⟨(prefix_append_right_inj text).mpr (prefix_cons_inj slash |>.mpr ih.1),fun _ => ?_⟩
    cases few : texts.dropLast with
    | nil => exact .closed clear
    | cons next more =>
      rw [few] at ih
      exact .cons clear (ih.2 (cons_ne_nil _ _))

theorem fromUriWith_path (stripped : stripAuthority (stripScheme uri) = some path)
    (divided : path = [] ∧ texts = [] ∨ Path texts path) : fromUriWith readLast uri = readTexts readLast texts := by
  have whole : fromUriWith readLast uri = readComponents readLast path.length path := by
    unfold fromUriWith
    cases uri with
    | nil =>
      cases stripped
      rfl
    | cons => rw [isEmpty_cons,if_neg Bool.false_ne_true,stripped,elim_some]
  rw [whole]
  rcases divided with ⟨rfl,rfl⟩ | divided
  · rfl
  · exact readComponents_path divided (Nat.le_refl _)

theorem segments_divided (path : List UInt8) : path = [] ∧ segments path = [] ∨ Path (segments path) path := by
  cases path with
  | nil => exact .inl ⟨rfl,rfl⟩
  | cons => exact .inr (segments_path (cons_ne_nil _ _))

theorem fromUri_withoutLastSegment (stripped : stripAuthority (stripScheme uri) = some path) :
    fromUri (withoutLastSegment uri) = readAll (segments path).dropLast := by
  have shorter : withSlashes (segments path).dropLast <+: path := by
    rcases segments_divided path with ⟨rfl,_⟩ | divided
    · exact prefix_rfl
    · exact divided.initial.1
  have divided : withSlashes (segments path).dropLast = [] ∧ (segments path).dropLast = [] ∨
      Path (segments path).dropLast (withSlashes (segments path).dropLast) := by
    rcases segments_divided path with ⟨rfl,_⟩ | divided
    · exact .inl ⟨rfl,rfl⟩
    · by_cases few : (segments path).dropLast = []
      · exact .inl ⟨by rw [few]; rfl,few⟩
      · exact .inr (divided.initial.2 few)
  unfold withoutLastSegment fromUri
  rw [stripped,elim_some,fromUriWith_path (strip_shorter stripped shorter) divided,readTexts_readAll]

theorem readTexts_last (readLast : List UInt8 → Except UriError Component) (texts : List (List UInt8)) (last : List UInt8) :
    readTexts readLast (texts ++ [last]) = (do
      let front ← readAll texts
      let c ← readLast last
      return front ++ [c]) := by
  induction texts with
  | nil =>
    simp only [nil_append,readTexts,readAll]
    cases readLast last <;> rfl
  | cons text texts ih =>
    rw [cons_append,readTexts_cons _ _ (by simp),ih,readAll]
    cases fromEscapedString text with
    | error fault => rfl
    | ok c =>
      cases readAll texts with
      | error fault => rfl
      | ok front => cases readLast last <;> rfl

theorem ensureValid_reached (c : Component) : ensureValid c ≠ .error .unreachable := by
  unfold ensureValid ComponentType.check
  split
  · exact nofun
  · split
    · split <;> exact nofun
    · exact nofun

theorem component_reached (type : Nat) (value : List UInt8) : component type value ≠ .error .unreachable := by
  have reached := ensureValid_reached ⟨type,value⟩
  unfold component
  cases valid : ensureValid ⟨type,value⟩ with
  | error fault =>
    rw [valid] at reached
    exact fun same => reached (congrArg Except.error (Except.error.inj same))
  | ok _ => exact nofun

theorem parseUriEscapedValue_reached (type : Nat) (input : List UInt8) : parseUriEscapedValue type input ≠ .error .unreachable := by
  unfold parseUriEscapedValue
  simp only []
  split
  · split
    · exact nofun
    · exact component_reached _ _
  · exact component_reached _ _

theorem parseAltUriValue_reached {ct : ComponentType} (stuck : ct.parseAltUriValue input = .error .unreachable) :
    ct.parseAltUriValue [] = .error .unreachable := by
  unfold ComponentType.parseAltUriValue at stuck
  cases ct with
  | base | generic | reflexive _ => rfl
  | sha256 own _ =>
    simp only [] at stuck
    split at stuck
    · cases stuck
    · exact absurd stuck (component_reached _ _)
  | decimal own _ =>
    simp only [] at stuck
    split at stuck
    · cases stuck
    · cases stuck
    · split at stuck
      · cases stuck
      · exact absurd stuck (component_reached _ _)

theorem table_unread : ∀ entry ∈ table, entry.2.getAltUriPrefix ≠ [] → entry.2.parseAltUriValue [] = .error .unreachable →
    entry.2.getAltUriPrefix = octets ['R','N'] := by decide

theorem findByUriPrefix_listed (found : findByUriPrefix text = some ct) :
    ∃ entry ∈ table, entry.2 = ct ∧ entry.2.getAltUriPrefix ≠ [] ∧ entry.2.getAltUriPrefix = text := by
  obtain ⟨entry,found,same⟩ := map_eq_some_iff.mp found
  have meets : entry.2.getAltUriPrefix ≠ [] ∧ entry.2.getAltUriPrefix = text := by simpa using List.find?_some found
  exact ⟨entry,mem_of_find?_eq_some found,same,meets⟩

theorem fromEscapedString_unreachable : fromEscapedString text = .error .unreachable ↔ octets ['R','N','='] <+: text := by
  constructor
  · intro stuck
    by_cases assigned : equals ∈ text
    · obtain ⟨front,value,rfl,clear⟩ := eq_append_cons_of_mem assigned
      rw [fromEscapedString_assigned _ _ clear] at stuck
      split at stuck
      · exact absurd stuck (parseUriEscapedValue_reached _ _)
      · cases found : findByUriPrefix front with
        | none =>
          rw [found] at stuck
          cases stuck
        | some ct =>
          rw [found,elim_some] at stuck
          obtain ⟨entry,listed,rfl,declares,rfl⟩ := findByUriPrefix_listed found
          rw [table_unread entry listed declares (parseAltUriValue_reached stuck)]
          exact ⟨value,rfl⟩
    · rw [fromEscapedString_plain assigned] at stuck
      exact absurd stuck (parseUriEscapedValue_reached _ _)
  · rintro ⟨value,rfl⟩
    exact fromEscapedString_assigned (octets ['R','N']) value (by decide)

def segmentValue (text : List UInt8) : Option (List UInt8) :=
  let value := unescape text
  if isAllPeriods value then if value.length < 3 then none else some (value.take (value.length - 3)) else some value

theorem RNfromEscapedString_plain (clear : equals ∉ last) :
    RNfromEscapedString last = (segmentValue last).elim (.error .periods) fun value => .ok ⟨tlvReflexiveNameComponent,value⟩ := by
  unfold RNfromEscapedString parseUriEscapedValue segmentValue
  rw [if_neg clear]
  simp only []
  split
  · split <;> rfl
  · rfl

theorem readAll_each (read : readAll texts = .ok name) :
    (∀ t ∈ texts, ∃ c ∈ name, fromEscapedString t = .ok c) ∧ ∀ c ∈ name, ∃ t ∈ texts, fromEscapedString t = .ok c := by
  induction texts generalizing name with
  | nil =>
    cases read
    exact ⟨nofun,nofun⟩
  | cons text texts ih =>
    obtain ⟨first,here,read⟩ := Results.bind_parts read
    obtain ⟨others,there,read⟩ := Results.bind_parts read
    cases read
    obtain ⟨forth,back⟩ := ih there
    refine ⟨fun t listed => ?_,fun c listed => ?_⟩
    · rcases mem_cons.mp listed with rfl | listed
      · exact ⟨first,mem_cons_self,here⟩
      · obtain ⟨c,inside,same⟩ := forth t listed
        exact ⟨c,mem_cons_of_mem _ inside,same⟩
    · rcases mem_cons.mp listed with rfl | listed
      · exact ⟨text,mem_cons_self,here⟩
      · obtain ⟨t,inside,same⟩ := back c listed
        exact ⟨t,mem_cons_of_mem _ inside,same⟩

theorem readAll_fails : readAll texts = .error fault ↔
    ∃ before text after, texts = before ++ text :: after ∧ (∀ t ∈ before, (fromEscapedString t).isOk) ∧
      fromEscapedString text = .error fault := by
  induction texts with
  | nil => exact iff_of_false (by rintro ⟨⟩) (by simp)
  | cons first texts ih =>
    rw [readAll]
    cases here : fromEscapedString first with
    | error own =>
      constructor
      · intro failed
        cases failed
        exact ⟨[],first,texts,rfl,by simp,here⟩
      · rintro ⟨before,text,after,same,fine,failed⟩
        cases before with
        | nil =>
          cases same
          cases here.symm.trans failed
          rfl
        | cons t before =>
          cases same
          have := fine first mem_cons_self
          rw [here] at this
          cases this
    | ok c =>
      have step : (do
          let rest ← readAll texts
          return c :: rest) = (.error fault : Except UriError Name) ↔ readAll texts = .error fault := by
        cases readAll texts with
        | error own => exact ⟨fun same => congrArg Except.error (Except.error.inj same),fun same => congrArg Except.error (Except.error.inj same)⟩
        | ok others => exact iff_of_false (by rintro ⟨⟩) (by rintro ⟨⟩)
      refine step.trans (ih.trans ⟨?_,?_⟩)
      · rintro ⟨before,text,after,rfl,fine,failed⟩
        exact ⟨first :: before,text,after,rfl,forall_mem_cons.mpr ⟨by rw [here]; rfl,fine⟩,failed⟩
      · rintro ⟨before,text,after,same,fine,failed⟩
        cases before with
        | nil =>
          cases same
          cases here.symm.trans failed
        | cons t before =>
          cases same
          exact ⟨before,text,after,rfl,(forall_mem_cons.mp fine).2,failed⟩

theorem readAll_isOk : (∃ name, readAll texts = .ok name) ↔ ∀ t ∈ texts, (fromEscapedString t).isOk := by
  constructor
  · rintro ⟨name,read⟩ t listed
    obtain ⟨c,_,here⟩ := (readAll_each read).1 t listed
    rw [here]
    rfl
  · intro fine
    cases read : readAll texts with
    | ok name => exact ⟨name,rfl⟩
    | error fault =>
      obtain ⟨before,text,after,rfl,_,failed⟩ := readAll_fails.mp read
      have here := fine text (by simp)
      rw [failed] at here
      cases here

theorem readAll_reflexive (read : readAll texts = .ok name) : Name.isReflexiveName convention name ↔
    ∃ t ∈ texts, ∃ c, fromEscapedString t = .ok c ∧ c.isReflexive convention := by
  obtain ⟨forth,back⟩ := readAll_each read
  rw [Name.isReflexiveName,List.any_eq_true]
  constructor
  · rintro ⟨c,listed,reflexive⟩
    obtain ⟨t,inside,same⟩ := back c listed
    exact ⟨t,inside,c,same,reflexive⟩
  · rintro ⟨t,inside,c,same,reflexive⟩
    obtain ⟨d,listed,also⟩ := forth t inside
    cases same.symm.trans also
    exact ⟨c,listed,reflexive⟩

def Sized (convention : Convention) (value : List UInt8) : Prop :=
  canDecodeTypedConvention convention ∧ (value.length = 1 ∨ value.length = 2 ∨ value.length = 4 ∨ value.length = 8) ∨
    canDecodeMarkerConvention convention ∧
      (value.length = 2 ∨ value.length = 3 ∨ value.length = 5 ∨ value.length = 9) ∧ value.head? = some segmentMarker

theorem sized_iff :
    Component.isReflexive convention ⟨tlvReflexiveNameComponent,value⟩ ↔ Sized convention value := by
  rw [Component.isReflexive_iff,Component.isNumber_iff,Component.isNumberWithMarker_iff]
  simp only [Sized,true_and]
  exact or_comm

-- No segment before the last is an alternate form that cannot be read, and if these
-- are read the last one has no equals sign and a value of a size that is classified,
-- unless an earlier component already is.
structure Constructible (convention : Convention) (texts : List (List UInt8)) (last : List UInt8) : Prop where
  passable : ∀ before text after, texts = before ++ text :: after → (∀ t ∈ before, (fromEscapedString t).isOk) →
    ¬ octets ['R','N','='] <+: text
  plain : (∀ t ∈ texts, (fromEscapedString t).isOk) → equals ∉ last
  sized : (∀ t ∈ texts, (fromEscapedString t).isOk) → ∀ value, segmentValue last = some value →
    Sized convention value ∨ ∃ t ∈ texts, ∃ c, fromEscapedString t = .ok c ∧ c.isReflexive convention

def Made (convention : Convention) (uri : List UInt8) (name : Name) : Prop :=
  Name.isReflexiveName convention name ∧ (∃ c, name.getLast? = some c ∧ c.type = tlvReflexiveNameComponent) ∧
    fromUri (withoutLastSegment uri) = .ok name.dropLast

-- Name(uri, true) raises, or makes a name that is classified as reflexive, from the
-- name without the last segment and a component of its own type.
structure Constructs (convention : Convention) (uri : List UInt8) : Prop where
  reached : fromUriRN uri ≠ .error .unreachable
  made : ∀ name, fromUriRN uri = .ok name → name = [] ∨ Made convention uri name

theorem Constructs.of_error (raised : fromUriRN uri = .error fault) (other : fault ≠ .unreachable) : Constructs convention uri := by
  constructor
  · rw [raised]
    exact fun stuck => other (Except.error.inj stuck)
  · intro name made
    cases raised.symm.trans made

theorem Constructs.of_ok (read : fromUriRN uri = .ok name) (made : name = [] ∨ Made convention uri name) : Constructs convention uri := by
  constructor
  · rw [read]
    exact nofun
  · intro other same
    cases read.symm.trans same
    exact made

theorem fromUriRN_path (stripped : stripAuthority (stripScheme uri) = some path) (divided : segments path = texts ++ [last]) :
    fromUriRN uri = (do
      let front ← readAll texts
      let c ← RNfromEscapedString last
      return front ++ [c]) ∧ fromUri (withoutLastSegment uri) = readAll texts := by
  refine ⟨?_,?_⟩
  · unfold fromUriRN
    rw [fromUriWith_path stripped (segments_divided path),divided,readTexts_last]
  · rw [fromUri_withoutLastSegment stripped,divided,dropLast_concat]

theorem Constructs.constructible (constructs : Constructs convention uri) (stripped : stripAuthority (stripScheme uri) = some path)
    (divided : segments path = texts ++ [last]) : Constructible convention texts last := by
  obtain ⟨whole,_⟩ := fromUriRN_path stripped divided
  have plain : (∀ t ∈ texts, (fromEscapedString t).isOk) → equals ∉ last := by
    intro fine assigned
    obtain ⟨front,read⟩ := readAll_isOk.mpr fine
    have stuck : RNfromEscapedString last = .error .unreachable := if_pos assigned
    rw [read,stuck] at whole
    exact constructs.reached whole
  refine ⟨?_,plain,?_⟩
  · intro before text after same fine unread
    have failed := readAll_fails.mpr ⟨before,text,after,same,fine,fromEscapedString_unreachable.mpr unread⟩
    rw [failed] at whole
    exact constructs.reached whole
  · intro fine value stands
    obtain ⟨front,read⟩ := readAll_isOk.mpr fine
    rw [read,RNfromEscapedString_plain (plain fine),stands] at whole
    rcases constructs.made _ whole with empty | ⟨reflexive,_⟩
    · simp at empty
    · rw [Name.isReflexiveName,any_append,Bool.or_eq_true] at reflexive
      rcases reflexive with earlier | here
      · exact .inr ((readAll_reflexive read).mp earlier)
      · exact .inl (sized_iff.mp (by simpa using here))

theorem Constructible.constructs (constructible : Constructible convention texts last)
    (stripped : stripAuthority (stripScheme uri) = some path) (divided : segments path = texts ++ [last]) : Constructs convention uri := by
  obtain ⟨whole,front⟩ := fromUriRN_path stripped divided
  cases read : readAll texts with
  | error fault =>
    have failed : fromUriRN uri = .error fault := by
      rw [whole,read]
      rfl
    refine .of_error failed fun stuck => ?_
    obtain ⟨before,text,after,same,fine,unread⟩ := readAll_fails.mp read
    rw [stuck] at unread
    exact constructible.passable before text after same fine (fromEscapedString_unreachable.mp unread)
  | ok name =>
    have fine := readAll_isOk.mp ⟨name,read⟩
    rw [read,RNfromEscapedString_plain (constructible.plain fine)] at whole
    cases stands : segmentValue last with
    | none =>
      rw [stands] at whole
      exact .of_error whole nofun
    | some value =>
      rw [stands] at whole
      refine .of_ok whole (.inr ?_)
      refine ⟨?_,⟨⟨tlvReflexiveNameComponent,value⟩,by simp,rfl⟩,by rw [front,read,dropLast_concat]⟩
      rw [Name.isReflexiveName,any_append,Bool.or_eq_true]
      rcases constructible.sized fine value stands with sized | earlier
      · exact .inr (by simpa using sized_iff.mpr sized)
      · exact .inl ((readAll_reflexive read).mpr earlier)

theorem reflexive_construction : Constructs convention uri ↔
    ∀ path, stripAuthority (stripScheme uri) = some path → ∀ texts last, segments path = texts ++ [last] → Constructible convention texts last := by
  refine ⟨fun constructs path stripped texts last divided => constructs.constructible stripped divided,fun constructible => ?_⟩
  cases stripped : stripAuthority (stripScheme uri) with
  | none =>
    have bare : fromUriRN uri = .ok [] := by
      unfold fromUriRN fromUriWith
      rw [stripped,elim_none,ite_self]
    exact .of_ok bare (.inl rfl)
  | some path =>
    rcases eq_nil_or_concat (segments path) with none | ⟨texts,last,divided⟩
    · have bare : fromUriRN uri = .ok [] := by
        unfold fromUriRN
        rw [fromUriWith_path stripped (segments_divided path),none]
        rfl
      exact .of_ok bare (.inl rfl)
    · rw [concat_eq_append] at divided
      exact (constructible path stripped texts last divided).constructs stripped divided

-- A last segment with an equals sign runs into the unreachable branch, one of three
-- octets makes a name that no convention classifies as reflexive, and a segment RN=
-- before the last runs into the branch of the component type.
theorem reflexive_construction_fails :
    fromUriRN (octets ['/','A','/','8','=','b']) = .error .unreachable ∧
      fromUriRN (octets ['/','A','/','a','b','c']) = .ok [⟨8,[65]⟩,⟨59,[97,98,99]⟩] ∧
      (∀ convention, Name.isReflexiveName convention [⟨8,[65]⟩,⟨59,[97,98,99]⟩] = false) ∧
      fromUriRN (octets ['/','R','N','=','a','/','b']) = .error .unreachable := by
  refine ⟨by decide,by decide,fun convention => ?_,by decide⟩
  cases convention <;> decide

end Uri
end ReflexiveNfd

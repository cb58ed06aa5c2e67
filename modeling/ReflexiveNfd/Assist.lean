import Mathlib.Data.List.AList
import ReflexiveNfd.Lib.Transition
import ReflexiveNfd.Packet

namespace ReflexiveNfd
open Option AList List

structure PitAssist where
  reservedValue : List UInt32
  nameToTokenMap : AList (fun _ : Name => UInt32)
  nameToPrevTokenMap : AList (fun _ : Name => UInt32)
  tokenToNameMap : AList (fun _ : UInt32 => Name)
  prevTokenToNameMap : AList (fun _ : UInt32 => Name)

namespace PitAssist

def empty : PitAssist := ⟨[0],∅,∅,∅,∅⟩

section
variable (a : PitAssist)

section
variable (name : Name) (prevToken : UInt32) (words : List UInt32)

def existName : Bool := (a.nameToTokenMap.lookup name).isSome

-- The rejection loop over the words that generateWord32 yields. none means that
-- every word drawn so far was rejected, so the loop has not returned yet.
def generateToken : Option UInt32 :=
  words.find? (fun newtoken => !a.reservedValue.contains newtoken && (a.tokenToNameMap.lookup newtoken).isNone)

def createName : Option PitAssist :=
  (a.generateToken words).map fun token =>
    { a with
      nameToTokenMap := a.nameToTokenMap.insert name token
      tokenToNameMap := a.tokenToNameMap.insert token name
      nameToPrevTokenMap := a.nameToPrevTokenMap.insert name prevToken
      prevTokenToNameMap := a.prevTokenToNameMap.insert prevToken name }

def prevTokenToName (prevtoken : UInt32) : Name × Bool :=
  match a.prevTokenToNameMap.lookup prevtoken with
  | some name => (name,true)
  | none => ([],false)

def nameToPrevToken : UInt32 × Bool :=
  match a.nameToPrevTokenMap.lookup name with
  | some token => (token,true)
  | none => (0,false)

def tokenToName (token : UInt32) : Name × Bool :=
  match a.tokenToNameMap.lookup token with
  | some name => (name,true)
  | none => ([],false)

def nameToToken : UInt32 × Bool :=
  match a.nameToTokenMap.lookup name with
  | some token => (token,true)
  | none => (0,false)

-- The only way the forwarder adds a name: guarded by existName.
def ensureName : Option PitAssist :=
  if a.existName name then some a else a.createName name prevToken words

end

end

variable {a b c : PitAssist} {name other : Name} {token t prevToken : UInt32} {words : List UInt32}

theorem tokenToName_exact : a.tokenToName token = (name,true) ↔ a.tokenToNameMap.lookup token = some name := by
  unfold tokenToName
  cases a.tokenToNameMap.lookup token <;> simp

theorem nameToToken_exact : a.nameToToken name = (token,true) ↔ a.nameToTokenMap.lookup name = some token := by
  unfold nameToToken
  cases a.nameToTokenMap.lookup name <;> simp

theorem nameToPrevToken_exact :
    a.nameToPrevToken name = (token,true) ↔ a.nameToPrevTokenMap.lookup name = some token := by
  unfold nameToPrevToken
  cases a.nameToPrevTokenMap.lookup name <;> simp

theorem existName_exact : existName a name ↔ ∃ token, a.nameToToken name = (token,true) := by
  simp only [existName,nameToToken_exact]
  exact isSome_iff_exists

structure Bijective (a : PitAssist) : Prop where
  reserved : a.reservedValue = [0]
  inverse : ∀ name token, a.nameToToken name = (token,true) ↔ a.tokenToName token = (name,true)
  nonzero : ∀ name, a.nameToToken name ≠ (0,true)
  domain : ∀ name, (∃ token, a.nameToPrevToken name = (token,true)) ↔ a.existName name

theorem empty_bijective : Bijective empty := by
  refine ⟨rfl,?_,?_,?_⟩
  · intro name token
    simp [nameToToken_exact,tokenToName_exact,empty]
  · intro name
    simp [nameToToken,empty]
  · intro name
    simp [nameToPrevToken_exact,existName,empty]

theorem generateToken_sound (generated : generateToken a words = some token) :
    token ∉ a.reservedValue ∧ a.tokenToNameMap.lookup token = none := by
  have accepted := find?_some generated
  simpa using accepted

theorem createName_parts (created : createName a name prevToken words = some b) :
    ∃ token, token ∉ a.reservedValue ∧ a.tokenToNameMap.lookup token = none ∧
      b.reservedValue = a.reservedValue ∧
      b.nameToTokenMap = a.nameToTokenMap.insert name token ∧
      b.tokenToNameMap = a.tokenToNameMap.insert token name ∧
      b.nameToPrevTokenMap = a.nameToPrevTokenMap.insert name prevToken := by
  obtain ⟨token,generated,rfl⟩ := map_eq_some_iff.mp created
  obtain ⟨legal,unused⟩ := generateToken_sound generated
  exact ⟨token,legal,unused,rfl,rfl,rfl,rfl⟩

theorem createName_bijective (valid : Bijective a) (absent : a.existName name = false)
    (created : createName a name prevToken words = some b) : Bijective b := by
  obtain ⟨token,legal,unused,reserved,tokens,names,prevs⟩ := createName_parts created
  have noName : a.nameToTokenMap.lookup name = none := by simpa [existName] using absent
  refine ⟨reserved.trans valid.reserved,?_,?_,?_⟩
  · intro other t
    have prior := valid.inverse other t
    rw [nameToToken_exact,tokenToName_exact] at prior ⊢
    rw [tokens,names]
    by_cases sameName : other = name
    · subst other
      by_cases sameToken : t = token
      · subst t; simp
      · rw [lookup_insert,lookup_insert_ne sameToken,← prior,noName]
        simp [Ne.symm sameToken]
    · rw [lookup_insert_ne sameName]
      by_cases sameToken : t = token
      · subst t
        rw [lookup_insert,prior,unused]
        simp [Ne.symm sameName]
      · rw [lookup_insert_ne sameToken,prior]
  · intro other zero
    rw [nameToToken_exact,tokens] at zero
    by_cases sameName : other = name
    · subst other
      rw [lookup_insert] at zero
      cases some.inj zero
      exact legal (by simp [valid.reserved])
    · rw [lookup_insert_ne sameName] at zero
      exact valid.nonzero other (nameToToken_exact.mpr zero)
  · intro other
    have prior := valid.domain other
    simp only [nameToPrevToken_exact,existName] at prior ⊢
    rw [tokens,prevs]
    by_cases sameName : other = name
    · subst other; simp
    · rw [lookup_insert_ne sameName,lookup_insert_ne sameName]
      exact prior

structure Extends (a b : PitAssist) : Prop where
  token : ∀ {name t}, a.nameToToken name = (t,true) → b.nameToToken name = (t,true)
  name : ∀ {name t}, a.tokenToName t = (name,true) → b.tokenToName t = (name,true)
  prevToken : ∀ {name t}, a.nameToPrevToken name = (t,true) → b.nameToPrevToken name = (t,true)

theorem Extends.refl (a : PitAssist) : Extends a a := ⟨id,id,id⟩

theorem Extends.trans (ab : Extends a b) (bc : Extends b c) : Extends a c :=
  ⟨fun h => bc.token (ab.token h),fun h => bc.name (ab.name h),fun h => bc.prevToken (ab.prevToken h)⟩

theorem Extends.exist (extends' : Extends a b) (present : a.existName name) : b.existName name := by
  obtain ⟨token,found⟩ := existName_exact.mp present
  exact existName_exact.mpr ⟨token,extends'.token found⟩

theorem createName_extends (valid : Bijective a) (absent : a.existName name = false)
    (created : createName a name prevToken words = some b) : Extends a b := by
  obtain ⟨token,_,unused,_,tokens,names,prevs⟩ := createName_parts created
  have noName : a.nameToTokenMap.lookup name = none := by simpa [existName] using absent
  have noPrev : a.nameToPrevTokenMap.lookup name = none := by
    have missing : ¬ ∃ t, a.nameToPrevToken name = (t,true) := by rw [valid.domain,absent]; simp
    simpa [nameToPrevToken_exact,← isSome_iff_exists] using missing
  refine ⟨?_,?_,?_⟩
  · intro other t found
    rw [nameToToken_exact] at found ⊢
    have different : other ≠ name := by rintro rfl; simp [noName] at found
    rwa [tokens,lookup_insert_ne different]
  · intro other t found
    rw [tokenToName_exact] at found ⊢
    have different : t ≠ token := by rintro rfl; simp [unused] at found
    rwa [names,lookup_insert_ne different]
  · intro other t found
    rw [nameToPrevToken_exact] at found ⊢
    have different : other ≠ name := by rintro rfl; simp [noPrev] at found
    rwa [prevs,lookup_insert_ne different]

theorem ensureName_parts (ensured : ensureName a name prevToken words = some b) :
    (a.existName name ∧ b = a) ∨ (a.existName name = false ∧ createName a name prevToken words = some b) := by
  unfold ensureName at ensured
  split at ensured
  · rename_i present; exact .inl ⟨present,(some.inj ensured).symm⟩
  · rename_i absent; exact .inr ⟨by simpa using absent,ensured⟩

theorem ensureName_bijective (valid : Bijective a) (ensured : ensureName a name prevToken words = some b) :
    Bijective b := by
  rcases ensureName_parts ensured with ⟨_,rfl⟩ | ⟨absent,created⟩
  · exact valid
  · exact createName_bijective valid absent created

theorem ensureName_extends (valid : Bijective a) (ensured : ensureName a name prevToken words = some b) :
    Extends a b := by
  rcases ensureName_parts ensured with ⟨_,rfl⟩ | ⟨absent,created⟩
  · exact .refl _
  · exact createName_extends valid absent created

theorem ensureName_exists (ensured : ensureName a name prevToken words = some b) : b.existName name := by
  rcases ensureName_parts ensured with ⟨present,rfl⟩ | ⟨_,created⟩
  · exact present
  · obtain ⟨token,_,_,_,tokens,_⟩ := createName_parts created
    simp [existName,tokens]

theorem ensureName_prevToken (absent : a.existName name = false)
    (ensured : ensureName a name prevToken words = some b) : b.nameToPrevToken name = (prevToken,true) := by
  rcases ensureName_parts ensured with ⟨present,_⟩ | ⟨_,created⟩
  · simp [absent] at present
  · obtain ⟨token,_,_,_,_,_,prevs⟩ := createName_parts created
    simp [nameToPrevToken_exact,prevs]

theorem ensureName_prevOrigin (ensured : ensureName a name prevToken words = some b)
    (stored : b.nameToPrevToken other = (token,true)) :
    a.nameToPrevToken other = (token,true) ∨ (other = name ∧ token = prevToken) := by
  rcases ensureName_parts ensured with ⟨_,rfl⟩ | ⟨_,created⟩
  · exact .inl stored
  · obtain ⟨_,_,_,_,_,_,prevs⟩ := createName_parts created
    rw [nameToPrevToken_exact,prevs] at stored
    by_cases same : other = name
    · subst same
      exact .inr ⟨rfl,by simpa using stored.symm⟩
    · refine .inl (nameToPrevToken_exact.mpr ?_)
      rwa [lookup_insert_ne same] at stored

theorem ensureName_new (ensured : ensureName a name prevToken words = some b) (present : b.existName other) :
    a.existName other ∨ other = name := by
  rcases ensureName_parts ensured with ⟨_,rfl⟩ | ⟨_,created⟩
  · exact .inl present
  · obtain ⟨token,_,_,_,tokens,_⟩ := createName_parts created
    by_cases same : other = name
    · exact .inr same
    · refine .inl ?_
      rwa [existName,tokens,lookup_insert_ne same] at present

structure Call where
  name : Name
  prevToken : UInt32
  words : List UInt32

def call (a : PitAssist) (c : Call) : Option PitAssist := a.ensureName c.name c.prevToken c.words

theorem calls_bijective (valid : Bijective a) (ran : Transition.run call a calls = some b) :
    Bijective b ∧ Extends a b := by
  induction calls generalizing a with
  | nil => cases some.inj ran; exact ⟨valid,.refl _⟩
  | cons c rest ih =>
    obtain ⟨middle,made,tail⟩ := Transition.run_parts ran
    obtain ⟨last,later⟩ := ih (ensureName_bijective valid made) tail
    exact ⟨last,(ensureName_extends valid made).trans later⟩

def create (a : PitAssist) (c : Call) : Option PitAssist := a.createName c.name c.prevToken c.words

theorem prevTokenToName_exact : a.prevTokenToName token = (name,true) ↔ a.prevTokenToNameMap.lookup token = some name := by
  unfold prevTokenToName
  cases a.prevTokenToNameMap.lookup token <;> simp

-- A name has the previous token it was created with, and a previous token leads
-- to one of the names that were created with it.
structure Recorded (a : PitAssist) (calls : List Call) : Prop where
  prevTokens : ∀ n p, a.nameToPrevTokenMap.lookup n = some p ↔ ∃ c ∈ calls, c.name = n ∧ c.prevToken = p
  origins : ∀ p n, a.prevTokenToNameMap.lookup p = some n → ∃ c ∈ calls, c.name = n ∧ c.prevToken = p
  covered : ∀ c ∈ calls, ∃ n, a.prevTokenToNameMap.lookup c.prevToken = some n

theorem Recorded.create {c : Call} (recorded : Recorded a past) (fresh : c.name ∉ past.map Call.name) (created : a.create c = some b) :
    Recorded b (past ++ [c]) := by
  obtain ⟨token,_,rfl⟩ := map_eq_some_iff.mp created
  refine ⟨fun n p => ?_,fun p n found => ?_,fun d listed => ?_⟩
  · by_cases same : n = c.name
    · have apart : ∀ d ∈ past, d.name ≠ c.name := fun d listed equal => fresh (mem_map.mpr ⟨d,listed,equal⟩)
      subst same
      simp only [lookup_insert,some.injEq,mem_append,mem_singleton]
      constructor
      · exact fun stored => ⟨c,.inr rfl,rfl,stored⟩
      · rintro ⟨d,listed | rfl,named,stored⟩
        · exact absurd named (apart d listed)
        · exact stored
    · rw [lookup_insert_ne same,recorded.prevTokens]
      simp [or_and_right,exists_or,Ne.symm same]
  · by_cases same : p = c.prevToken
    · rw [same,lookup_insert] at found
      exact ⟨c,by simp,some.inj found,same.symm⟩
    · rw [lookup_insert_ne same] at found
      obtain ⟨d,listed,parts⟩ := recorded.origins p n found
      exact ⟨d,mem_append_left _ listed,parts⟩
  · by_cases same : d.prevToken = c.prevToken
    · exact ⟨c.name,by rw [same,lookup_insert]⟩
    · rw [lookup_insert_ne same]
      refine recorded.covered d ((mem_append.mp listed).resolve_right (fun here => same ?_))
      rw [mem_singleton.mp here]

theorem creates_recorded (recorded : Recorded a past) (distinct : ((past ++ calls).map Call.name).Nodup)
    (ran : Transition.run create a calls = some b) : Recorded b (past ++ calls) := by
  induction calls generalizing a past with
  | nil =>
    cases some.inj ran
    rwa [append_nil]
  | cons c rest ih =>
    obtain ⟨middle,made,tail⟩ := Transition.run_parts ran
    rw [append_cons] at distinct ⊢
    refine ih (recorded.create ?_ made) distinct tail
    rw [map_append,map_append] at distinct
    exact fun listed => (nodup_append.mp (nodup_append.mp distinct).1).2.2 _ listed _ (by simp) rfl

theorem prev_index_iff (distinct : (calls.map Call.name).Nodup) (ran : Transition.run create empty calls = some a) :
    (∀ p n, a.prevTokenToName p = (n,true) ↔ a.nameToPrevToken n = (p,true)) ↔ (calls.map Call.prevToken).Nodup := by
  have recorded : Recorded a ([] ++ calls) := creates_recorded ⟨by simp [empty],by simp [empty],by simp⟩ distinct ran
  rw [nil_append] at recorded
  simp only [prevTokenToName_exact,nameToPrevToken_exact]
  constructor
  · intro inverse
    refine List.Nodup.map_on (fun c listed d other same => ?_) (distinct.of_map _)
    have first := (inverse _ _).mpr ((recorded.prevTokens _ _).mpr ⟨c,listed,rfl,rfl⟩)
    have second := (inverse _ _).mpr ((recorded.prevTokens _ _).mpr ⟨d,other,rfl,rfl⟩)
    rw [same,second] at first
    exact inj_on_of_nodup_map distinct listed other (some.inj first).symm
  · intro single p n
    refine ⟨fun found => (recorded.prevTokens n p).mpr (recorded.origins p n found),fun found => ?_⟩
    obtain ⟨c,listed,rfl,rfl⟩ := (recorded.prevTokens n p).mp found
    obtain ⟨m,stored⟩ := recorded.covered c listed
    obtain ⟨d,other,rfl,same⟩ := recorded.origins _ _ stored
    rw [stored,inj_on_of_nodup_map single other listed same]

theorem prev_index_distinct : ∃ a, Transition.run create empty [⟨[⟨8,[97]⟩],1,[5]⟩,⟨[⟨8,[98]⟩],2,[6]⟩] = some a ∧
    ∀ p n, a.prevTokenToName p = (n,true) ↔ a.nameToPrevToken n = (p,true) := by
  obtain ⟨a,ran⟩ := isSome_iff_exists.mp
    (by decide : (Transition.run create empty [⟨[⟨8,[97]⟩],1,[5]⟩,⟨[⟨8,[98]⟩],2,[6]⟩]).isSome)
  exact ⟨a,ran,(prev_index_iff (by decide) ran).mpr (by decide)⟩

-- Two Interests that came without a token: the index forgets the first.
theorem prev_index_lost : ∃ a ∈ Transition.run create empty [⟨[⟨8,[97]⟩],0,[5]⟩,⟨[⟨8,[98]⟩],0,[6]⟩],
    a.nameToPrevToken [⟨8,[97]⟩] = (0,true) ∧ a.prevTokenToName 0 = ([⟨8,[98]⟩],true) := by
  decide

end PitAssist
end ReflexiveNfd

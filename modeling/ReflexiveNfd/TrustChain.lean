import Mathlib.Data.List.Chain
import ReflexiveNfd.Validator

namespace ReflexiveNfd.Validation
open List Option Transition

def CertificateStorage.Trusts (storage : CertificateStorage) (cert : Certificate) : Prop :=
  cert ∈ storage.anchors ∨ cert ∈ storage.verified.entries.map Prod.fst

def Note.tells : Note → Bool
  | .success | .failure _ => true
  | _ => false

def Note.requests : Note → Bool
  | .requested _ => true
  | _ => false

def Note.concludes : Note → Bool
  | .success | .cached _ => true
  | _ => false

structure Vetted {Packet : Type} (env : Signatures Packet) (notes : List Note) (cert : Certificate) : Prop where
  valid : ∃ now, Note.asked cert now ∈ notes ∧ cert.isValid env now = some true
  accepted : ∃ request, Note.accepted cert request ∈ notes

structure Certified {Packet : Type} (env : Signatures Packet) (storage : CertificateStorage) (notes : List Note)
    (trusted : Certificate) (chain : List Certificate) : Prop where
  anchored : storage.Trusts trusted
  signed : (trusted :: chain).IsChain (fun signer cert => env.signed cert signer)
  vetted : ∀ cert ∈ chain, Vetted env notes cert

variable {Packet : Type} {env : Signatures Packet} {storage : CertificateStorage} {notes more : List Note} {cert trusted : Certificate}
  {chain part : List Certificate} {request : CertificateRequest} {error : ValidationError} {name : Name} {now : Int}

theorem Vetted.mono (vetted : Vetted env notes cert) (within : notes ⊆ more) : Vetted env more cert := by
  obtain ⟨⟨now,asked,valid⟩,request,accepted⟩ := vetted
  exact ⟨⟨now,within asked,valid⟩,request,within accepted⟩

theorem searchByName_mem (searched : searchByName of request entries = some found) :
    found ∈ entries := by
  have listed := mem_of_find?_eq_some searched
  exact dropWhile_subset _ (takeWhile_subset _ listed)

theorem mem_placeByName (placed : y ∈ placeByName of x entries) :
    y = x ∨ y ∈ entries := by
  induction entries with
  | nil => exact .inl (mem_singleton.mp placed)
  | cons head rest ih =>
    rw [placeByName] at placed
    split at placed
    · exact mem_cons.mp placed
    · exact .inr placed
    · rcases mem_cons.mp placed with rfl | later
      · exact .inr mem_cons_self
      · exact (ih later).imp id (mem_cons_of_mem _)

namespace CertificateCache
variable {cache after : CertificateCache} {found : Option Certificate}

theorem mem_insert (inserted : cache.insert env now cert = some after) :
    ∀ e ∈ after.entries, e.1 = cert ∨ e ∈ cache.entries := by
  obtain ⟨period,_,rfl⟩ := map_eq_some_iff.mp inserted
  intro e listed
  split at listed
  · exact .inr listed
  · rcases mem_placeByName listed with rfl | old
    · exact .inl rfl
    · exact .inr old

theorem find_parts (searched : cache.find now request = (found,after)) :
    after.entries ⊆ cache.entries ∧ ∀ cert ∈ found, cert ∈ cache.entries.map Prod.fst := by
  cases searched
  refine ⟨filter_subset_self _,fun cert hit => ?_⟩
  obtain ⟨e,searched,rfl⟩ := map_eq_some_iff.mp hit
  exact mem_map_of_mem (filter_subset_self _ (searchByName_mem searched))

end CertificateCache

structure CertificateStorage.Within (after before : CertificateStorage) : Prop where
  anchors : after.anchors = before.anchors
  verified : after.verified.entries ⊆ before.verified.entries

theorem CertificateStorage.findTrustedCert_parts {found : Option Certificate} {after : CertificateStorage}
    (searched : storage.findTrustedCert now request = (found,after)) :
    after.Within storage ∧ ∀ cert ∈ found, storage.Trusts cert := by
  unfold findTrustedCert at searched
  split at searched
  · rename_i cert hit
    cases searched
    refine ⟨⟨rfl,List.Subset.refl _⟩,?_⟩
    rintro _ ⟨⟩
    exact .inl (searchByName_mem hit)
  · cases looked : storage.verified.find now request with
    | mk found refreshed =>
      rw [looked] at searched
      cases searched
      obtain ⟨within,held⟩ := CertificateCache.find_parts looked
      exact ⟨⟨rfl,within⟩,fun cert hit => .inr (held cert hit)⟩

namespace Turn
variable {t t' u : Turn Packet} {asked : Ask} {answer : Answer}

theorem verifiedPart_chain : (trusted :: verifiedPart env trusted chain).IsChain (fun signer cert => env.signed cert signer) := by
  induction chain generalizing trusted with
  | nil => exact .singleton _
  | cons cert rest ih =>
    rw [verifiedPart]
    split
    · rename_i signed
      exact isChain_cons_cons.mpr ⟨signed,ih⟩
    · exact .singleton _

theorem verifiedPart_subset : verifiedPart env trusted chain ⊆ chain := by
  induction chain generalizing trusted with
  | nil => exact List.Subset.refl _
  | cons cert rest ih =>
    rw [verifiedPart]
    split
    · exact cons_subset_cons cert ih
    · exact nil_subset _

def requesting (t : Turn Packet) (name : Name) (storage : CertificateStorage) : Turn Packet :=
  { t with storage := storage,state := { t.state with seen := name :: t.state.seen },notes := t.notes ++ [.requested name] }

inductive Judges (env : Signatures Packet) (t : Turn Packet) : Turn Packet → Prop where
  | raised : Judges env t t.raise
  | failed {error : ValidationError} : Judges env t (t.fail error)
  | asks {cert : Certificate} : cert.isValid env t.now = some true →
      Judges env t ((t.note (.asked cert t.now)).ask (.certificate cert))

inductive Requests (env : Signatures Packet) (t : Turn Packet) : Turn Packet → Prop where
  | failed {error : ValidationError} : Requests env t (t.fail error)
  | digest : verifySignature env t.state.packet none → Requests env t t.succeed
  | trusted {name : Name} {storage : CertificateStorage} {cert : Certificate} : t.state.chain.length < t.maxDepth →
      storage.Within t.storage → t.storage.Trusts cert → Requests env t ((t.requesting name storage).verifyChain env cert)
  | judged {name : Name} {storage : CertificateStorage} {after : Turn Packet} : t.state.chain.length < t.maxDepth →
      storage.Within t.storage → Judges env (t.requesting name storage) after → Requests env t after
  | fetches {name : Name} {storage : CertificateStorage} {request : CertificateRequest} : t.state.chain.length < t.maxDepth →
      storage.Within t.storage → Requests env t ((t.requesting name storage).ask (.fetch request))

theorem validateCertificate_judges : Judges env t (t.validateCertificate env cert) := by
  unfold validateCertificate
  split
  · exact .raised
  · exact .failed
  · rename_i valid
    exact .asks valid

theorem requestCertificate_requests : Requests env t (t.requestCertificate env request) := by
  unfold requestCertificate
  split
  · exact .failed
  have depth : t.state.chain.length < t.maxDepth := by omega
  split
  · unfold verifyOriginalPacket
    split
    · rename_i verified
      exact .digest verified
    · exact .failed
  split
  · exact .failed
  cases searched : t.storage.findTrustedCert t.now request with
  | mk found storage =>
    obtain ⟨within,trusts⟩ := CertificateStorage.findTrustedCert_parts searched
    simp only [note,searched]
    cases found with
    | some cert => exact .trusted depth within (trusts cert rfl)
    | none =>
      unfold fetch
      cases looked : storage.unverified.find t.now request with
      | mk found refreshed =>
        have kept : CertificateStorage.Within { storage with unverified := refreshed } t.storage := ⟨within.anchors,within.verified⟩
        cases found with
        | some cert => exact .judged depth kept validateCertificate_judges
        | none => exact .fetches depth kept

theorem cacheAll_parts (certs : List Certificate) :
    (certs.foldl (cacheVerifiedCertificate env) t).notes = t.notes ++ certs.map Note.cached ∧
    (certs.foldl (cacheVerifiedCertificate env) t).state = t.state ∧ (certs.foldl (cacheVerifiedCertificate env) t).asks = t.asks ∧
    ∀ e ∈ (certs.foldl (cacheVerifiedCertificate env) t).storage.verified.entries, e.1 ∈ certs ∨ e ∈ t.storage.verified.entries := by
  induction certs generalizing t with
  | nil => exact ⟨(append_nil _).symm,rfl,rfl,fun e listed => .inr listed⟩
  | cons cert rest ih =>
    obtain ⟨notes,state,asks,entries⟩ := @ih (t.cacheVerifiedCertificate env cert)
    refine ⟨?_,state,asks,fun e listed => ?_⟩
    · rw [foldl_cons,notes,cacheVerifiedCertificate,append_assoc]
      rfl
    · rcases entries e listed with inside | old
      · exact .inl (mem_cons_of_mem _ inside)
      · unfold cacheVerifiedCertificate at old
        cases inserted : t.storage.verified.insert env t.now cert with
        | none =>
          simp only [inserted,getD_none] at old
          exact .inr old
        | some after =>
          simp only [inserted,getD_some] at old
          rcases CertificateCache.mem_insert inserted e old with rfl | older
          · exact .inl mem_cons_self
          · exact .inr older

inductive Concludes (env : Signatures Packet) (t : Turn Packet) (signer : Certificate) : Note → Turn Packet → Prop where
  | success : env.verifies t.state.packet signer → Concludes env t signer .success t.succeed
  | failure {error : ValidationError} : Concludes env t signer (.failure error) (t.fail error)

structure Concluded (t : Turn Packet) (told : Note) (part : List Certificate) (u : Turn Packet) : Prop where
  notes : u.notes = t.notes ++ told :: part.map Note.cached
  tells : told.tells
  asks : u.asks = t.asks
  outcome : u.state.outcome ≠ none
  chain : u.state.chain ⊆ t.state.chain

theorem fail_concluded : Concluded t (.failure error) [] (t.fail error) := ⟨rfl,rfl,rfl,nofun,List.Subset.refl _⟩

theorem succeed_concluded : Concluded t .success [] t.succeed := ⟨rfl,rfl,rfl,nofun,List.Subset.refl _⟩

theorem Concludes.concluded (concludes : Concludes env t cert told u) : Concluded t told [] u ∧ u.storage = t.storage := by
  cases concludes with
  | success => exact ⟨succeed_concluded,rfl⟩
  | failure => exact ⟨fail_concluded,rfl⟩

theorem verifyChain_concludes : ∃ told u, Concludes env t ((verifiedPart env trusted t.state.chain).getLast?.getD trusted) told u ∧
    t.verifyChain env trusted = (verifiedPart env trusted t.state.chain).foldl (cacheVerifiedCertificate env)
      { u with state := { u.state with chain := verifiedPart env trusted t.state.chain } } := by
  unfold verifyChain
  dsimp only
  split
  · unfold verifyOriginalPacket
    split
    · rename_i verified
      exact ⟨.success,t.succeed,.success verified,rfl⟩
    · exact ⟨_,_,.failure,rfl⟩
  · exact ⟨_,_,.failure,rfl⟩

-- Whatever is found out about the chain, the part that is verified is cached.
structure Verified (env : Signatures Packet) (t : Turn Packet) (trusted : Certificate) (told : Note) (part : List Certificate)
    (after : Turn Packet) : Prop where
  concluded : Concluded t told part after
  success : told = .success → env.verifies t.state.packet (part.getLast?.getD trusted)
  within : part ⊆ t.state.chain
  signed : (trusted :: part).IsChain (fun signer cert => env.signed cert signer)
  entries : ∀ e ∈ after.storage.verified.entries, e.1 ∈ part ∨ e ∈ t.storage.verified.entries

theorem verifyChain_verified : ∃ told part, Verified env t trusted told part (t.verifyChain env trusted) := by
  obtain ⟨told,u,concludes,equal⟩ := @verifyChain_concludes _ env trusted t
  obtain ⟨concluded,stored⟩ := concludes.concluded
  rw [equal]
  generalize known : verifiedPart env trusted t.state.chain = part at concludes
  have within : part ⊆ t.state.chain := known ▸ verifiedPart_subset
  obtain ⟨notes,state,asks,entries⟩ := @cacheAll_parts _ env { u with state := { u.state with chain := part } } part
  refine ⟨told,part,⟨?_,concluded.tells,asks.trans concluded.asks,?_,?_⟩,?_,within,?_,?_⟩
  · rw [notes,concluded.notes,append_assoc]
    rfl
  · rw [state]
    exact concluded.outcome
  · rw [state]
    exact within
  · rintro rfl
    cases concludes with
    | success verified => exact verified
  · rw [← known]
    exact verifiedPart_chain
  · rw [← stored]
    exact entries

end Turn

structure Proper (env : Signatures Packet) (maxDepth : Nat) (s : ValidationState Packet) (asks : Option Ask) (notes : List Note) : Prop where
  undecided : asks ≠ none ↔ s.outcome = none
  told : notes.countP Note.tells = if s.outcome = none then 0 else 1
  requested : notes.countP Note.requests ≤ maxDepth
  depth : ∀ question ∈ asks, notes.countP Note.requests = s.chain.length + if question = .packet then 0 else 1
  vetted : ∀ cert ∈ s.chain, Vetted env notes cert
  asked : ∀ cert, asks = some (.certificate cert) → ∃ now, Note.asked cert now ∈ notes ∧ cert.isValid env now = some true

namespace Turn
variable {t t' u : Turn Packet} {before : List Note} {k : Nat} {n : Note}

structure Ready (env : Signatures Packet) (before : List Note) (t : Turn Packet) (k : Nat) : Prop where
  undecided : t.state.outcome = none
  asks : t.asks = none
  told : (before ++ t.notes).countP Note.tells = 0
  requested : (before ++ t.notes).countP Note.requests = t.state.chain.length + k
  bound : (before ++ t.notes).countP Note.requests ≤ t.maxDepth
  vetted : ∀ cert ∈ t.state.chain, Vetted env (before ++ t.notes) cert

namespace Ready

theorem note (ready : Ready env before t k) (silent : n.tells = false) (other : n.requests = false) : Ready env before (t.note n) k := by
  have split : before ++ (t.note n).notes = before ++ t.notes ++ [n] := (append_assoc ..).symm
  refine ⟨ready.undecided,ready.asks,?_,?_,?_,fun cert listed => ?_⟩
  · rw [split,countP_append,ready.told,countP_singleton,if_neg (by simp [silent])]
  · rw [split,countP_append,ready.requested,countP_singleton,if_neg (by simp [other])]
    rfl
  · rw [split,countP_append,countP_singleton,if_neg (by simp [other])]
    exact ready.bound
  · rw [split]
    exact (ready.vetted cert listed).mono (subset_append_left _ _)

theorem requesting (ready : Ready env before t 0) (shallow : t.state.chain.length < t.maxDepth) :
    Ready env before (t.requesting name storage) 1 := by
  have split : before ++ (t.requesting name storage).notes = before ++ t.notes ++ [.requested name] := (append_assoc ..).symm
  have count : (before ++ t.notes ++ [Note.requested name]).countP Note.requests = t.state.chain.length + 1 := by
    rw [countP_append,ready.requested]
    rfl
  refine ⟨ready.undecided,ready.asks,?_,?_,?_,fun cert listed => ?_⟩
  · rw [split,countP_append,ready.told]
    rfl
  · rw [split]
    exact count
  · rw [split,count]
    exact shallow
  · rw [split]
    exact (ready.vetted cert listed).mono (subset_append_left _ _)

end Ready

theorem countP_cached (quiet : ∀ cert, p (.cached cert) = false) (part : List Certificate) :
    (part.map Note.cached).countP p = 0 := by
  rw [countP_map,countP_eq_zero]
  intro cert _
  simp [quiet]

theorem Concluded.proper (concluded : Concluded t told part u) (ready : Ready env before t k) :
    Proper env t.maxDepth u.state u.asks (before ++ u.notes) := by
  have none := concluded.asks.trans ready.asks
  have tells := concluded.tells
  have silent : told.requests = false := by
    cases told <;> first | rfl | cases tells
  have split : before ++ u.notes = before ++ t.notes ++ (told :: part.map Note.cached) := by
    rw [concluded.notes,append_assoc]
  rw [split]
  refine ⟨?_,?_,?_,?_,fun cert listed => (ready.vetted cert (concluded.chain listed)).mono (subset_append_left _ _),?_⟩
  · exact ⟨fun some => absurd none some,fun undecided => absurd undecided concluded.outcome⟩
  · rw [countP_append,ready.told,countP_cons,countP_cached (fun _ => rfl),if_pos tells,if_neg concluded.outcome]
  · rw [countP_append,countP_cons,countP_cached (fun _ => rfl),if_neg (by simp [silent])]
    exact ready.bound
  · rw [none]
    rintro _ ⟨⟩
  · rw [none]
    rintro _ ⟨⟩

theorem raise_eq (undecided : t.state.outcome = none) : t.raise = (t.note .raised).fail .implementationError := if_pos undecided

theorem raise_proper (ready : Ready env before t k) : Proper env t.maxDepth t.raise.state t.raise.asks (before ++ t.raise.notes) := by
  rw [raise_eq ready.undecided]
  exact fail_concluded.proper (ready.note rfl rfl)

theorem Judges.proper (judges : Judges env t t') (ready : Ready env before t 1) :
    Proper env t.maxDepth t'.state t'.asks (before ++ t'.notes) := by
  cases judges with
  | raised => exact raise_proper ready
  | failed => exact fail_concluded.proper ready
  | @asks cert valid =>
    have noted : Ready env before (t.note (.asked cert t.now)) 1 := ready.note rfl rfl
    refine ⟨⟨fun _ => ready.undecided,fun _ => nofun⟩,?_,noted.bound,?_,noted.vetted,?_⟩
    · exact noted.told.trans (if_pos ready.undecided).symm
    · rintro _ ⟨⟩
      exact noted.requested
    · rintro _ ⟨⟩
      exact ⟨t.now,mem_append_right _ (mem_append_right _ (mem_singleton_self _)),valid⟩

theorem Requests.proper (requests : Requests env t t') (ready : Ready env before t 0) :
    Proper env t.maxDepth t'.state t'.asks (before ++ t'.notes) := by
  cases requests with
  | failed => exact fail_concluded.proper ready
  | digest => exact succeed_concluded.proper ready
  | @trusted name storage cert shallow within trusts =>
    obtain ⟨told,part,verified⟩ := @verifyChain_verified _ env cert (t.requesting name storage)
    exact verified.concluded.proper (ready.requesting shallow)
  | judged shallow _ judges => exact judges.proper (ready.requesting shallow)
  | @fetches name storage request shallow _ =>
    have requested : Ready env before (t.requesting name storage) 1 := ready.requesting shallow
    refine ⟨⟨fun _ => ready.undecided,fun _ => nofun⟩,?_,requested.bound,?_,requested.vetted,?_⟩
    · exact requested.told.trans (if_pos ready.undecided).symm
    · rintro _ ⟨⟩
      exact requested.requested
    · rintro _ ⟨⟩

structure Accounted (env : Signatures Packet) (storage : CertificateStorage) (packet : Packet) (before : List Note) (bypassed : Prop)
    (t : Turn Packet) : Prop where
  success : Note.success ∈ t.notes → bypassed ∨ (env.isDigest packet ∧ env.digestMatches packet) ∨
    ∃ trusted chain, Certified env storage (before ++ t.notes) trusted chain ∧ env.verifies packet (chain.getLast?.getD trusted)
  cached : ∀ cert, Note.cached cert ∈ t.notes → ∃ trusted chain, Certified env storage (before ++ t.notes) trusted chain ∧ cert ∈ chain
  entries : ∀ e ∈ t.storage.verified.entries, e ∈ storage.verified.entries ∨ Note.cached e.1 ∈ t.notes

structure Quiet (storage : CertificateStorage) (t : Turn Packet) : Prop where
  success : Note.success ∉ t.notes
  cached : ∀ cert, Note.cached cert ∉ t.notes
  entries : t.storage.verified.entries ⊆ storage.verified.entries

theorem Quiet.accounted (quiet : Quiet storage t) : Accounted env storage packet before bypassed t :=
  ⟨fun told => absurd told quiet.success,fun cert told => absurd told (quiet.cached cert),fun _ listed => .inl (quiet.entries listed)⟩

theorem Quiet.note (quiet : Quiet storage t) (other : n.concludes = false) : Quiet storage (t.note n) := by
  refine ⟨fun told => ?_,fun cert told => ?_,quiet.entries⟩
  · rcases mem_append.mp told with old | new
    · exact quiet.success old
    · cases mem_singleton.mp new
      cases other
  · rcases mem_append.mp told with old | new
    · exact quiet.cached cert old
    · cases mem_singleton.mp new
      cases other

theorem Quiet.fail (quiet : Quiet storage t) : Quiet storage (t.fail error) := by
  have noted : Quiet storage (t.note (.failure error)) := quiet.note rfl
  exact { noted with }

theorem Quiet.raise (quiet : Quiet storage t) (undecided : t.state.outcome = none) : Quiet storage t.raise := by
  rw [raise_eq undecided]
  have noted : Quiet storage (t.note .raised) := quiet.note rfl
  exact noted.fail

theorem Quiet.requesting {after : CertificateStorage} (quiet : Quiet storage t) (within : after.Within t.storage) :
    Quiet storage (t.requesting name after) := by
  have noted : Quiet storage (t.note (.requested name)) := quiet.note rfl
  exact { noted with entries := fun _ listed => quiet.entries (within.verified listed) }

theorem Judges.quiet (judges : Judges env t t') (quiet : Quiet storage t) (undecided : t.state.outcome = none) : Quiet storage t' := by
  cases judges with
  | raised => exact quiet.raise undecided
  | failed => exact quiet.fail
  | @asks cert _ =>
    have noted : Quiet storage (t.note (.asked cert t.now)) := quiet.note rfl
    exact { noted with }

theorem Requests.accounted {bypassed : Prop} (requests : Requests env t t') (ready : Ready env before t 0) (quiet : Quiet t.storage t) :
    Accounted env t.storage t.state.packet before bypassed t' := by
  cases requests with
  | failed => exact quiet.fail.accounted
  | digest verified =>
    refine ⟨fun _ => .inr (.inl (Bool.and_eq_true_iff.mp verified)),fun cert told => ?_,fun e listed => .inl listed⟩
    rcases mem_append.mp told with old | new
    · exact absurd old (quiet.cached cert)
    · cases mem_singleton.mp new
  | @trusted name after cert shallow within trusts =>
    have noted : Quiet t.storage (t.requesting name after) := quiet.requesting within
    obtain ⟨told,part,verified⟩ := @verifyChain_verified _ env cert (t.requesting name after)
    have certified : Certified env t.storage (before ++ ((t.requesting name after).verifyChain env cert).notes) cert part := by
      refine ⟨trusts,verified.signed,fun c listed => ((ready.requesting shallow).vetted c (verified.within listed)).mono ?_⟩
      rw [verified.concluded.notes,← append_assoc]
      exact subset_append_left _ _
    refine ⟨fun success => .inr (.inr ⟨cert,part,certified,verified.success ?_⟩),fun c cached => ⟨cert,part,certified,?_⟩,fun e listed => ?_⟩
    · rw [verified.concluded.notes] at success
      rcases mem_append.mp success with old | new
      · exact absurd old noted.success
      rcases mem_cons.mp new with same | later
      · exact same.symm
      · obtain ⟨_,_,never⟩ := mem_map.mp later
        cases never
    · rw [verified.concluded.notes] at cached
      rcases mem_append.mp cached with old | new
      · exact absurd old (noted.cached c)
      rcases mem_cons.mp new with same | later
      · have tells := verified.concluded.tells
        rw [← same] at tells
        cases tells
      · obtain ⟨_,listed,same⟩ := mem_map.mp later
        cases same
        exact listed
    · rcases verified.entries e listed with inside | old
      · right
        rw [verified.concluded.notes]
        exact mem_append_right _ (mem_cons_of_mem _ (mem_map_of_mem inside))
      · exact .inl (noted.entries old)
  | judged shallow within judges => exact (judges.quiet (quiet.requesting within) ready.undecided).accounted
  | @fetches name after request shallow within =>
    have noted : Quiet t.storage (t.requesting name after) := quiet.requesting within
    exact Quiet.accounted { noted with }

def extended (t : Turn Packet) (cert : Certificate) (request : CertificateRequest) : Turn Packet :=
  { t with state := { t.state with chain := cert :: t.state.chain } }.note (.accepted cert request)

inductive Answers (env : Signatures Packet) (bypassed : Prop) (t : Turn Packet) : Ask → Turn Packet → Prop where
  | failed {question : Ask} {error : ValidationError} : Answers env bypassed t question (t.fail error)
  | raised {question : Ask} : Answers env bypassed t question t.raise
  | bypassed : bypassed → Answers env bypassed t .packet t.succeed
  | requests {after : Turn Packet} : Requests env t after → Answers env bypassed t .packet after
  | accepted {cert : Certificate} {request : CertificateRequest} {after : Turn Packet} : Requests env (t.extended cert request) after →
      Answers env bypassed t (.certificate cert) after
  | fetched {request : CertificateRequest} {unverified : CertificateCache} {after : Turn Packet} :
      Judges env { t with storage := { t.storage with unverified := unverified } } after → Answers env bypassed t (.fetch request) after

theorem answerCertificate_answers :
    Answers env bypassed t (.certificate cert) (t.answerCertificate env cert answer) := by
  cases answer with
  | fail error => exact .failed
  | proceed request =>
    cases request with
    | none => exact .failed
    | some request => exact .accepted requestCertificate_requests
  | throws => exact .raised

theorem answerFetch_answers : Answers env bypassed t (.fetch request) (t.answerFetch env answer) := by
  cases answer with
  | fail error => exact .failed
  | certificate cert =>
    unfold answerFetch
    dsimp only
    split
    · exact .raised
    · exact .fetched validateCertificate_judges

section
variable {question : Ask} {bypassed : Prop}

theorem ready_of_proper (proper : Proper env t.maxDepth t.state (some question) before) (asks : t.asks = none) (notes : t.notes = []) :
    Ready env before t (if question = .packet then 0 else 1) := by
  have undecided := proper.undecided.mp nofun
  have told := proper.told
  rw [if_pos undecided] at told
  refine ⟨undecided,asks,?_,?_,?_,?_⟩
  all_goals rw [notes,append_nil]
  · exact told
  · exact proper.depth question rfl
  · exact proper.requested
  · exact proper.vetted

theorem ready_extended (proper : Proper env t.maxDepth t.state (some (.certificate cert)) before) (asks : t.asks = none) (notes : t.notes = []) :
    Ready env before (t.extended cert request) 0 := by
  have ready : Ready env before t 1 := ready_of_proper proper asks notes
  have noted : Ready env before (t.note (.accepted cert request)) 1 := ready.note rfl rfl
  refine ⟨ready.undecided,ready.asks,noted.told,?_,noted.bound,?_⟩
  · refine noted.requested.trans ?_
    rfl
  · refine forall_mem_cons.mpr ⟨⟨?_,request,?_⟩,noted.vetted⟩
    · obtain ⟨now,asked,valid⟩ := proper.asked cert rfl
      exact ⟨now,mem_append_left _ asked,valid⟩
    · exact mem_append_right _ (mem_append_right _ (mem_singleton_self _))

theorem Answers.proper (answers : Answers env bypassed t question t') (proper : Proper env t.maxDepth t.state (some question) before)
    (asks : t.asks = none) (notes : t.notes = []) : Proper env t.maxDepth t'.state t'.asks (before ++ t'.notes) := by
  have ready := ready_of_proper proper asks notes
  cases answers with
  | failed => exact fail_concluded.proper ready
  | raised => exact raise_proper ready
  | bypassed => exact succeed_concluded.proper ready
  | requests requests => exact requests.proper ready
  | accepted requests => exact requests.proper (ready_extended proper asks notes)
  | fetched judges => exact judges.proper { ready with }

theorem Answers.accounted (answers : Answers env bypassed t question t') (proper : Proper env t.maxDepth t.state (some question) before)
    (asks : t.asks = none) (notes : t.notes = []) : Accounted env t.storage t.state.packet before bypassed t' := by
  have ready := ready_of_proper proper asks notes
  have quiet : Quiet t.storage t := by
    refine ⟨?_,fun cert => ?_,List.Subset.refl _⟩
    all_goals rw [notes]
    · exact not_mem_nil
    · exact not_mem_nil
  cases answers with
  | failed => exact quiet.fail.accounted
  | raised => exact (quiet.raise ready.undecided).accounted
  | bypassed bypassed =>
    refine ⟨fun _ => .inl bypassed,fun cert told => ?_,fun _ listed => .inl listed⟩
    rcases mem_append.mp told with old | new
    · exact absurd old (quiet.cached cert)
    · cases mem_singleton.mp new
  | requests requests => exact requests.accounted ready quiet
  | @accepted cert request after requests =>
    have noted : Quiet t.storage (t.note (.accepted cert request)) := quiet.note rfl
    exact requests.accounted (ready_extended proper asks notes) { noted with }
  | fetched judges => exact (judges.quiet { quiet with } ready.undecided).accounted

end

end Turn

namespace Validator
variable {v w : Validator Packet} {id index : Nat} {s : ValidationState Packet} {t t' : Turn Packet} {question : Ask} {event : ValidatorEvent Packet}

def notesOf (v : Validator Packet) (id : Nat) : List Note := v.trace.filterMap (fun n => if n.1 = id then some n.2 else none)

theorem mem_notesOf : n ∈ v.notesOf id ↔ (id,n) ∈ v.trace := by
  constructor
  · intro listed
    obtain ⟨⟨other,m⟩,traced,same⟩ := mem_filterMap.mp listed
    obtain ⟨rfl,⟨⟩⟩ := ite_none_right_eq_some.mp same
    exact traced
  · exact fun traced => mem_filterMap.mpr ⟨_,traced,if_pos rfl⟩

-- Every validation is in order, has the one open question that is pending for
-- it, and what is in the cache of verified certificates was put there.
structure Orderly (env : Signatures Packet) (v : Validator Packet) : Prop where
  single : (v.pending.map Prod.fst).Nodup
  known : ∀ q ∈ v.pending, q.1 < v.states.length
  silent : ∀ n ∈ v.trace, n.1 < v.states.length
  proper : ∀ id s, v.states[id]? = some s → ∃ asks, (∀ question, (id,question) ∈ v.pending ↔ asks = some question) ∧
    Proper env v.maxDepth s asks (v.notesOf id)
  entries : ∀ e ∈ v.storage.verified.entries, (∃ id, (id,Note.cached e.1) ∈ v.trace) ∨ e.1 ∈ v.vouched

theorem pending_split (pending : v.pending[index]? = some (id,question)) :
    ∃ front back, v.pending = front ++ (id,question) :: back ∧ v.pending.eraseIdx index = front ++ back := by
  obtain ⟨bound,same⟩ := List.getElem?_eq_some_iff.mp pending
  refine ⟨v.pending.take index,v.pending.drop (index + 1),?_,eraseIdx_eq_take_drop_succ ..⟩
  rw [← same,← drop_eq_getElem_cons bound,take_append_drop]

theorem Orderly.asked (orderly : Orderly env v) (pending : v.pending[index]? = some (id,question)) (held : v.states[id]? = some s) :
    Proper env v.maxDepth s (some question) (v.notesOf id) := by
  obtain ⟨asks,asked,proper⟩ := orderly.proper id s held
  rw [(asked question).mp (mem_of_getElem? pending)] at proper
  exact proper

theorem notesOf_ends (other : Nat) : (v.ends id t).notesOf other = v.notesOf other ++ if id = other then t.notes else [] := by
  have own : (t.notes.map (fun n => (id,n))).filterMap (fun n => if n.1 = other then some n.2 else none) = if id = other then t.notes else [] := by
    rw [filterMap_map]
    split
    · rename_i same
      exact (filterMap_congr (fun n _ => if_pos same)).trans filterMap_some
    · rename_i apart
      exact filterMap_eq_nil_iff.mpr (fun n _ => if_neg apart)
  rw [notesOf,ends,filterMap_append,own]
  rfl

theorem states_ends (other : Nat) (held : v.states[id]? = some s) :
    (v.ends id t).states[other]? = if id = other then some t.state else v.states[other]? := by
  obtain ⟨bound,_⟩ := List.getElem?_eq_some_iff.mp held
  rw [ends,List.getElem?_set,if_pos bound]

structure Vacant (env : Signatures Packet) (v : Validator Packet) (id : Nat) : Prop where
  held : id < v.states.length
  free : ∀ question, (id,question) ∉ v.pending
  single : (v.pending.map Prod.fst).Nodup
  known : ∀ q ∈ v.pending, q.1 < v.states.length
  silent : ∀ n ∈ v.trace, n.1 < v.states.length
  proper : ∀ other s, id ≠ other → v.states[other]? = some s → ∃ asks, (∀ question, (other,question) ∈ v.pending ↔ asks = some question) ∧
    Proper env v.maxDepth s asks (v.notesOf other)
  entries : ∀ e ∈ v.storage.verified.entries, (∃ id, (id,Note.cached e.1) ∈ v.trace) ∨ e.1 ∈ v.vouched

theorem Orderly.erased (orderly : Orderly env v) (pending : v.pending[index]? = some (id,question)) (held : v.states[id]? = some s) :
    Vacant env { v with pending := v.pending.eraseIdx index } id := by
  obtain ⟨front,back,split,erased⟩ := pending_split pending
  have single := orderly.single
  rw [split,map_append,map_cons] at single
  obtain ⟨apart,rest⟩ := nodup_cons.mp (nodup_middle.mp single)
  rw [← map_append] at apart rest
  refine ⟨(List.getElem?_eq_some_iff.mp held).1,?_,?_,?_,orderly.silent,?_,orderly.entries⟩
  · intro other listed
    rw [erased] at listed
    exact apart (mem_map.mpr ⟨(id,other),listed,rfl⟩)
  · rw [erased]
    exact rest
  · intro q listed
    exact orderly.known q (mem_of_mem_eraseIdx listed)
  · intro other s different found
    obtain ⟨asks,asked,proper⟩ := orderly.proper other s found
    refine ⟨asks,fun question => Iff.trans ?_ (asked question),proper⟩
    rw [erased,split,mem_append,mem_append,mem_cons]
    constructor
    · exact Or.imp_right Or.inr
    · rintro (inside | same | later)
      · exact .inl inside
      · exact absurd (congrArg Prod.fst same).symm different
      · exact .inr later

theorem Orderly.begun (orderly : Orderly env v) (s : ValidationState Packet) : Vacant env { v with states := v.states ++ [s] } v.states.length := by
  have longer : (v.states ++ [s]).length = v.states.length + 1 := length_append
  refine ⟨longer ▸ Nat.lt_succ_self _,?_,orderly.single,?_,?_,?_,orderly.entries⟩
  · exact fun question listed => absurd (orderly.known _ listed) (Nat.lt_irrefl _)
  · exact fun q listed => longer ▸ Nat.lt_succ_of_lt (orderly.known q listed)
  · exact fun n listed => longer ▸ Nat.lt_succ_of_lt (orderly.silent n listed)
  · intro other held different found
    refine orderly.proper other held ?_
    have bound := (List.getElem?_eq_some_iff.mp found).1
    rw [List.getElem?_append_left (by simp only [longer] at bound; omega)] at found
    exact found

theorem Vacant.ends (vacant : Vacant env v id) (proper : Proper env v.maxDepth t.state t.asks (v.notesOf id ++ t.notes))
    (entries : ∀ e ∈ t.storage.verified.entries, e ∈ v.storage.verified.entries ∨ Note.cached e.1 ∈ t.notes) : Orderly env (v.ends id t) := by
  have held := List.getElem?_eq_getElem vacant.held
  have long : (v.ends id t).states.length = v.states.length := length_set
  have free : id ∉ v.pending.map Prod.fst := by
    intro listed
    obtain ⟨⟨_,question⟩,inside,rfl⟩ := mem_map.mp listed
    exact vacant.free question inside
  refine ⟨?_,?_,?_,?_,?_⟩
  · rw [Validator.ends,map_append]
    refine nodup_append.mpr ⟨vacant.single,?_,?_⟩
    · cases t.asks <;> simp
    · intro a inside b new
      obtain ⟨q,listed,rfl⟩ := mem_map.mp new
      obtain ⟨question,_,rfl⟩ := mem_map.mp listed
      rintro rfl
      exact free inside
  · rw [long]
    intro q listed
    rcases mem_append.mp listed with old | new
    · exact vacant.known q old
    · obtain ⟨_,_,rfl⟩ := mem_map.mp new
      exact vacant.held
  · rw [long]
    intro n listed
    rcases mem_append.mp listed with old | new
    · exact vacant.silent n old
    · obtain ⟨_,_,rfl⟩ := mem_map.mp new
      exact vacant.held
  · intro other s found
    rw [states_ends other held] at found
    rw [notesOf_ends]
    have pending : ∀ question, (other,question) ∈ (v.ends id t).pending ↔ (other,question) ∈ v.pending ∨ id = other ∧ t.asks = some question := by
      intro question
      simp [Validator.ends,List.mem_append,List.mem_map]
      tauto
    by_cases same : id = other
    · subst same
      rw [if_pos rfl] at found ⊢
      cases found
      refine ⟨t.asks,fun question => (pending question).trans ?_,proper⟩
      exact ⟨fun either => either.elim (fun old => absurd old (vacant.free question)) And.right,fun asks => .inr ⟨rfl,asks⟩⟩
    · rw [if_neg same] at found ⊢
      rw [append_nil]
      obtain ⟨asks,asked,others⟩ := vacant.proper other s same found
      refine ⟨asks,fun question => ((pending question).trans ?_).trans (asked question),others⟩
      exact ⟨fun either => either.elim (fun held => held) (fun own => absurd own.1 same),.inl⟩
  · intro e listed
    rcases entries e listed with old | new
    · refine (vacant.entries e old).imp ?_ (fun held => held)
      rintro ⟨other,traced⟩
      exact ⟨other,mem_append_left _ traced⟩
    · exact .inl ⟨id,mem_append_right _ (mem_map_of_mem new)⟩

inductive Steps (env : Signatures Packet) (v : Validator Packet) : ValidatorEvent Packet → Validator Packet → Prop where
  | answers {event : ValidatorEvent Packet} {index id : Nat} {question : Ask} {s : ValidationState Packet} {t : Turn Packet} :
      v.pending[index]? = some (id,question) → v.states[id]? = some s →
      (v.begins s).Answers env (event = .policy index (.proceed none) ∧ question = .packet) question t →
      Steps env v event ({ v with pending := v.pending.eraseIdx index }.ends id t)
  | begins {packet : Packet} : Steps env v (.validate packet)
      ({ v with states := v.states ++ [ValidationState.mk packet [] [] none] }.ends v.states.length
        ((v.begins ⟨packet,[],[],none⟩).validate env))
  | aside {event : ValidatorEvent Packet} {now : Int} {storage : CertificateStorage} {vouched : List Certificate} :
      (∀ e ∈ storage.verified.entries, e ∈ v.storage.verified.entries ∨ e.1 ∈ vouched) → v.vouched ⊆ vouched →
      Steps env v event { v with now := now,storage := storage,vouched := vouched }

theorem answered_parts (taken : v.answered index turn = some w) :
    ∃ id question s t, v.pending[index]? = some (id,question) ∧ v.states[id]? = some s ∧ turn (v.begins s) question = some t ∧
      w = { v with pending := v.pending.eraseIdx index }.ends id t := by
  obtain ⟨⟨id,question⟩,pending,taken⟩ := bind_eq_some_iff.mp taken
  obtain ⟨s,held,taken⟩ := bind_eq_some_iff.mp taken
  obtain ⟨t,turned,⟨⟩⟩ := bind_eq_some_iff.mp taken
  exact ⟨id,question,s,t,pending,held,turned,rfl⟩

theorem step_steps (orderly : Orderly env v) (taken : step env v event = some w) : Steps env v event w := by
  cases event with
  | validate packet =>
    cases taken
    exact .begins
  | policy index answer =>
    obtain ⟨id,question,s,t,pending,held,turned,rfl⟩ := answered_parts taken
    refine .answers pending held ?_
    cases question with
    | packet =>
      cases turned
      cases answer with
      | proceed request =>
        cases request with
        | none => exact .bypassed ⟨rfl,rfl⟩
        | some request => exact .requests Turn.requestCertificate_requests
      | fail => exact .failed
      | throws => exact .raised
    | certificate cert =>
      cases turned
      exact Turn.answerCertificate_answers
    | fetch => cases turned
  | fetched index answer =>
    obtain ⟨id,question,s,t,pending,held,turned,rfl⟩ := answered_parts taken
    refine .answers pending held ?_
    cases question with
    | packet => cases turned
    | certificate => cases turned
    | fetch request =>
      cases turned
      exact Turn.answerFetch_answers
  | dropped index =>
    have dropped : v.answered index (fun t _ => some t.release) = some w := taken
    obtain ⟨id,question,s,t,pending,held,⟨⟩,rfl⟩ := answered_parts dropped
    refine .answers pending held ?_
    have undecided := (orderly.asked pending held).undecided.mp nofun
    rw [show (v.begins s).release = (v.begins s).fail .implementationError from if_pos undecided]
    exact .failed
  | clock now =>
    cases taken
    exact .aside (fun e listed => .inl listed) (List.Subset.refl _)
  | anchors certs =>
    cases taken
    exact .aside (fun e listed => .inl listed) (List.Subset.refl _)
  | cacheVerifiedCertificate cert =>
    obtain ⟨verified,inserted,rfl⟩ := map_eq_some_iff.mp taken
    refine .aside (fun e listed => ?_) (subset_cons_self _ _)
    rcases CertificateCache.mem_insert inserted e listed with same | old
    · exact .inr (same ▸ mem_cons_self)
    · exact .inl old
  | resetVerifiedCertificates =>
    cases taken
    exact .aside (forall_mem_nil _) (List.Subset.refl _)

theorem validate_proper (v : Validator Packet) (packet : Packet) :
    Proper env v.maxDepth ((v.begins ⟨packet,[],[],none⟩).validate env).state ((v.begins ⟨packet,[],[],none⟩).validate env).asks
      ((v.begins ⟨packet,[],[],none⟩).validate env).notes := by
  unfold Turn.validate
  split
  · refine ⟨⟨fun some => absurd rfl some,nofun⟩,rfl,Nat.zero_le _,?_,forall_mem_nil _,?_⟩
    · rintro _ ⟨⟩
    · rintro _ ⟨⟩
  · refine ⟨⟨fun _ => rfl,fun _ => nofun⟩,rfl,Nat.zero_le _,?_,forall_mem_nil _,?_⟩
    · rintro _ ⟨⟩
      rfl
    · rintro _ ⟨⟩

theorem notesOf_fresh (orderly : Orderly env v) : v.notesOf v.states.length = [] := by
  refine eq_nil_iff_forall_not_mem.mpr (fun n listed => ?_)
  exact Nat.lt_irrefl _ (orderly.silent _ (mem_notesOf.mp listed))

theorem Steps.orderly (steps : Steps env v event w) (orderly : Orderly env v) : Orderly env w := by
  cases steps with
  | answers pending held answers =>
    have proper := orderly.asked pending held
    exact (orderly.erased pending held).ends (answers.proper proper rfl rfl) (answers.accounted proper rfl rfl).entries
  | @begins packet =>
    refine (orderly.begun _).ends ?_ (fun e listed => ?_)
    · have fresh : notesOf { v with states := v.states ++ [ValidationState.mk packet [] [] none] } v.states.length = [] :=
        notesOf_fresh orderly
      rw [fresh]
      exact validate_proper v packet
    · unfold Turn.validate at listed
      split at listed
      · exact .inl listed
      · exact .inl listed
  | aside entries vouched =>
    refine { orderly with entries := fun e listed => ?_ }
    rcases entries e listed with old | new
    · exact (orderly.entries e old).imp_right (fun inside => vouched inside)
    · exact .inr new

theorem Initial.orderly (initial : Initial v) : Orderly env v := by
  refine ⟨?_,?_,?_,?_,?_⟩
  · rw [initial.pending]
    exact nodup_nil
  · rw [initial.pending]
    exact forall_mem_nil _
  · rw [initial.trace]
    exact forall_mem_nil _
  · rw [initial.states]
    rintro _ _ ⟨⟩
  · rw [initial.verified]
    exact forall_mem_nil _

theorem reached_orderly (path : Reached env v) : Orderly env v :=
  Reached.invariant (fun _ initial => initial.orderly) (fun _ _ _ orderly taken => (step_steps orderly taken).orderly orderly) path

theorem notes_ends (told : (other,n) ∈ (v.ends id t).trace) (new : (other,n) ∉ v.trace) : other = id ∧ n ∈ t.notes := by
  rcases mem_append.mp told with old | inside
  · exact absurd old new
  · obtain ⟨m,listed,same⟩ := mem_map.mp inside
    cases same
    exact ⟨rfl,listed⟩

theorem Steps.maxDepth (steps : Steps env v event w) : w.maxDepth = v.maxDepth := by
  cases steps with
  | answers => rfl
  | begins => rfl
  | aside => rfl

theorem Steps.accounted (steps : Steps env v event w) (orderly : Orderly env v) (told : (id,n) ∈ w.trace)
    (new : (id,n) ∉ v.trace) (conclusive : n.concludes) :
    ∃ (s : ValidationState Packet) (index : Nat) (question : Ask) (t : Turn Packet), v.states[id]? = some s ∧
      v.pending[index]? = some (id,question) ∧ n ∈ t.notes ∧ w.notesOf id = v.notesOf id ++ t.notes ∧
      t.Accounted env v.storage s.packet (v.notesOf id) (event = .policy index (.proceed none) ∧ question = .packet) := by
  cases steps with
  | @answers _ index id question s t pending held answers =>
    obtain ⟨rfl,listed⟩ := notes_ends told new
    refine ⟨s,index,question,t,held,pending,listed,?_,answers.accounted (orderly.asked pending held) rfl rfl⟩
    rw [notesOf_ends,if_pos rfl]
    rfl
  | @begins packet =>
    obtain ⟨rfl,listed⟩ := notes_ends told new
    unfold Turn.validate at listed
    split at listed
    · cases mem_singleton.mp listed
      cases conclusive
    · cases listed
  | aside => exact absurd told new

theorem trust_chain_sound (path : Reached env v) (taken : step env v event = some w) :
    (∀ id, (id,Note.success) ∈ w.trace → (id,Note.success) ∉ v.trace → ∃ s, v.states[id]? = some s ∧
      ((∃ index, event = .policy index (.proceed none) ∧ v.pending[index]? = some (id,.packet)) ∨
        (env.isDigest s.packet ∧ env.digestMatches s.packet) ∨
        ∃ trusted chain, Certified env v.storage (w.notesOf id) trusted chain ∧ env.verifies s.packet (chain.getLast?.getD trusted))) ∧
    (∀ id cert, (id,Note.cached cert) ∈ w.trace → (id,Note.cached cert) ∉ v.trace →
      ∃ trusted chain, Certified env v.storage (w.notesOf id) trusted chain ∧ cert ∈ chain) ∧
    (∀ e ∈ w.storage.verified.entries, (∃ id, (id,Note.cached e.1) ∈ w.trace) ∨ e.1 ∈ w.vouched) ∧
    ∀ id, (w.notesOf id).countP Note.requests ≤ v.maxDepth := by
  have orderly := reached_orderly path
  have steps := step_steps orderly taken
  have after := steps.orderly orderly
  refine ⟨fun id told new => ?_,fun id cert told new => ?_,after.entries,fun id => ?_⟩
  · obtain ⟨s,index,question,t,held,pending,listed,notes,accounted⟩ := steps.accounted orderly told new rfl
    refine ⟨s,held,?_⟩
    rw [notes]
    refine (accounted.success listed).imp_left ?_
    rintro ⟨bypassed,rfl⟩
    exact ⟨index,bypassed,pending⟩
  · obtain ⟨s,index,question,t,held,pending,listed,notes,accounted⟩ := steps.accounted orderly told new rfl
    rw [notes]
    exact accounted.cached cert listed
  · rw [← steps.maxDepth]
    cases held : w.states[id]? with
    | some s =>
      obtain ⟨_,_,proper⟩ := after.proper id s held
      exact proper.requested
    | none =>
      have silent : w.notesOf id = [] := by
        refine eq_nil_iff_forall_not_mem.mpr (fun n listed => ?_)
        exact absurd (after.silent _ (mem_notesOf.mp listed)) (Nat.not_lt.mpr (List.getElem?_eq_none_iff.mp held))
      rw [silent]
      exact Nat.zero_le _

end Validator

-- A packet signed with a certificate that is fetched, and that an anchor has
-- signed.
namespace Demo

def anchorName : Name := [⟨tlvGenericNameComponent,[65]⟩]
def signerName : Name := [⟨tlvGenericNameComponent,[65]⟩,⟨tlvGenericNameComponent,[66]⟩]

def certificate (name : Name) : Certificate := ⟨{ name := name },{ otherTlvs := [Block.make tlvValidityPeriod []] }⟩

def signatures : Signatures Unit where
  period := fun _ => some (0,100)
  signed := fun cert signer => cert.name == signerName && signer.name == anchorName
  verifies := fun _ cert => cert.name == signerName
  isDigest := fun _ => false
  digestMatches := fun _ => false
  malformed := fun _ => false

def validator (maxDepth : Nat) : Validator Unit where
  now := 50
  maxDepth := maxDepth
  storage := ⟨[],⟨3600000000000,[]⟩,⟨300000000000,[]⟩⟩

def fetching : List (ValidatorEvent Unit) :=
  [.anchors [certificate anchorName],.validate (),.policy 0 (.proceed (some { name := signerName })),.fetched 0 (.certificate (certificate signerName))]

def accepting : ValidatorEvent Unit := .policy 0 (.proceed (some { name := anchorName,canBePrefix := false }))

theorem validator_initial (maxDepth : Nat) : (validator maxDepth).Initial := ⟨rfl,rfl,rfl,rfl,rfl,rfl⟩

end Demo

theorem trust_chain_fetched : ∃ v w trusted chain, run (Validator.step Demo.signatures) (Demo.validator 2) Demo.fetching = some v ∧
    Validator.step Demo.signatures v Demo.accepting = some w ∧ (0,Note.success) ∈ w.trace ∧
    Certified Demo.signatures v.storage (w.notesOf 0) trusted chain ∧ Demo.signatures.verifies () (chain.getLast?.getD trusted) := by
  obtain ⟨v,ran,new,w,taken,told⟩ : ∃ v ∈ run (Validator.step Demo.signatures) (Demo.validator 2) Demo.fetching,
      (0,Note.success) ∉ v.trace ∧ ∃ w ∈ Validator.step Demo.signatures v Demo.accepting, (0,Note.success) ∈ w.trace := by decide
  have path := run_reached (.start (Demo.validator_initial 2)) ran
  obtain ⟨sound,_⟩ := Validator.trust_chain_sound path taken
  obtain ⟨s,_,⟨index,other,_⟩ | ⟨never,_⟩ | ⟨trusted,chain,certified,verified⟩⟩ := sound 0 told new
  · cases other
  · cases never
  · exact ⟨v,w,trusted,chain,ran,taken,told,certified,verified⟩

end ReflexiveNfd.Validation

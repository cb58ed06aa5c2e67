import ReflexiveNfd.ContentStore
import ReflexiveNfd.Lib.Transition
import ReflexiveNfd.SignatureInfo

namespace ReflexiveNfd.Validation

structure Certificate where
  data : Data
  info : SignatureInfo
  deriving DecidableEq, Repr

structure CertificateRequest where
  name : Name
  canBePrefix : Bool := true
  mustBeFresh : Bool := false
  deriving DecidableEq, Repr

-- What is computed outside of the Validator. period reads a ValidityPeriod
-- element; none is an exception.
structure Signatures (Packet : Type) where
  period : Block → Option (Int × Int)
  signed : Certificate → Certificate → Bool
  verifies : Packet → Certificate → Bool
  isDigest : Packet → Bool
  digestMatches : Packet → Bool
  malformed : Packet → Bool

inductive ValidationError where
  | malformedSignature
  | expiredCert (cert : Name)
  | notATrustAnchor (cert : Name)
  | exceededDepthLimit (maxDepth : Nat)
  | loopDetected (name : Name)
  | invalidCertificateSignature (cert : Option Name)
  | invalidPacketSignature
  | implementationError
  | policyError
  | invalidKeyLocator
  | malformedCert
  | cannotRetrieveCert
  deriving DecidableEq, Repr

def localhostIdentity (last : List UInt8) : Name :=
  [⟨tlvGenericNameComponent,[108,111,99,97,108,104,111,115,116]⟩,⟨tlvGenericNameComponent,[105,100,101,110,116,105,116,121]⟩,
    ⟨tlvGenericNameComponent,last⟩]

-- /localhost/identity/digest-sha256
def digestSha256Identity : Name := localhostIdentity [100,105,103,101,115,116,45,115,104,97,50,53,54]

namespace Certificate
variable {Packet : Type}

def name (c : Certificate) : Name := c.data.name

def validityPeriod (env : Signatures Packet) (c : Certificate) : Option (Int × Int) :=
  (c.info.otherTlvs.find? (fun b => b.type == tlvValidityPeriod)).bind env.period

def isValid (env : Signatures Packet) (c : Certificate) (now : Int) : Option Bool :=
  (c.validityPeriod env).map (fun period => decide (period.1 ≤ now ∧ now ≤ period.2))

end Certificate

def placeByName (name : α → Name) (x : α) : List α → List α
  | [] => [x]
  | head :: rest =>
    match Name.compare (name x) (name head) with
    | .lt => x :: head :: rest
    | .eq => head :: rest
    | .gt => head :: placeByName name x rest

def searchByName (cert : α → Certificate) (request : CertificateRequest) (entries : List α) : Option α :=
  ((entries.dropWhile (fun e => Name.compare (cert e).name request.name == .lt)).takeWhile
    (fun e => request.name.isPrefixOf (cert e).name)).find?
      (fun e => matchesData request.name request.canBePrefix request.mustBeFresh (cert e).data)

structure CertificateCache where
  maxLifetime : Int
  entries : List (Certificate × Int)
  deriving DecidableEq, Repr

namespace CertificateCache
variable {Packet : Type}

-- none: the certificate has no validity period that can be read.
def insert (env : Signatures Packet) (cache : CertificateCache) (now : Int) (cert : Certificate) : Option CertificateCache :=
  (cert.validityPeriod env).map fun period =>
    if period.2 < now then cache
    else { cache with entries := placeByName (fun e => e.1.name) (cert,min period.2 (now + cache.maxLifetime)) cache.entries }

def refresh (cache : CertificateCache) (now : Int) : CertificateCache :=
  { cache with entries := cache.entries.filter (fun e => ¬ e.2 < now) }

def find (cache : CertificateCache) (now : Int) (request : CertificateRequest) : Option Certificate × CertificateCache :=
  let refreshed := cache.refresh now
  ((searchByName Prod.fst request refreshed.entries).map Prod.fst,refreshed)

end CertificateCache

structure CertificateStorage where
  anchors : List Certificate
  verified : CertificateCache
  unverified : CertificateCache
  deriving DecidableEq, Repr

-- The anchors are searched first; the cache is only touched behind them.
def CertificateStorage.findTrustedCert (storage : CertificateStorage) (now : Int) (request : CertificateRequest) :
    Option Certificate × CertificateStorage :=
  match searchByName id request storage.anchors with
  | some cert => (some cert,storage)
  | none =>
    let (found,refreshed) := storage.verified.find now request
    (found,{ storage with verified := refreshed })

structure ValidationState (Packet : Type) where
  packet : Packet
  seen : List Name := []
  chain : List Certificate := []
  outcome : Option Bool := none
  deriving DecidableEq, Repr

inductive Ask where
  | packet
  | certificate (cert : Certificate)
  | fetch (request : CertificateRequest)
  deriving DecidableEq, Repr

inductive Note where
  | asked (cert : Certificate) (now : Int)
  | accepted (cert : Certificate) (request : CertificateRequest)
  | requested (name : Name)
  | cached (cert : Certificate)
  | success
  | failure (error : ValidationError)
  | raised
  deriving DecidableEq, Repr

inductive Answer where
  | fail (error : ValidationError)
  | proceed (request : Option CertificateRequest)
  | throws
  deriving DecidableEq, Repr

inductive FetchAnswer where
  | fail (error : ValidationError)
  | certificate (cert : Certificate)
  deriving DecidableEq, Repr

structure Turn (Packet : Type) where
  now : Int
  maxDepth : Nat
  storage : CertificateStorage
  state : ValidationState Packet
  asks : Option Ask := none
  notes : List Note := []

namespace Turn
variable {Packet : Type}

section
variable (t : Turn Packet)

def note (n : Note) : Turn Packet := { t with notes := t.notes ++ [n] }

def fail (error : ValidationError) : Turn Packet :=
  { t with state := { t.state with outcome := some false },notes := t.notes ++ [.failure error] }

def succeed : Turn Packet :=
  { t with state := { t.state with outcome := some true },notes := t.notes ++ [.success] }

def release : Turn Packet := if t.state.outcome = none then t.fail .implementationError else t

def raise : Turn Packet := (t.note .raised).release

end

section
variable (env : Signatures Packet)

def verifySignature (packet : Packet) : Option Certificate → Bool
  | some cert => env.verifies packet cert
  | none => env.isDigest packet && env.digestMatches packet

def verifyOriginalPacket (t : Turn Packet) (trustedCert : Option Certificate) : Turn Packet :=
  if verifySignature env t.state.packet trustedCert then t.succeed else t.fail .invalidPacketSignature

def verifiedPart (trustedCert : Certificate) : List Certificate → List Certificate
  | [] => []
  | cert :: rest => if env.signed cert trustedCert then cert :: verifiedPart cert rest else []

def cacheVerifiedCertificate (t : Turn Packet) (cert : Certificate) : Turn Packet :=
  let verified := (t.storage.verified.insert env t.now cert).getD t.storage.verified
  { t with storage := { t.storage with verified := verified },notes := t.notes ++ [.cached cert] }

-- The certificates of the chain have been found valid, so that caching them does
-- not raise. They are moved out of it; nothing looks at the chain again.
def verifyChain (t : Turn Packet) (trustedCert : Certificate) : Turn Packet :=
  let part := verifiedPart env trustedCert t.state.chain
  let verified :=
    if part.length = t.state.chain.length then verifyOriginalPacket env t (some (part.getLast?.getD trustedCert))
    else t.fail (.invalidCertificateSignature (t.state.chain[part.length]?.map Certificate.name))
  part.foldl (cacheVerifiedCertificate env) { verified with state := { verified.state with chain := part } }

end

def ask (t : Turn Packet) (question : Ask) : Turn Packet := { t with asks := some question }

section
variable (env : Signatures Packet) (t : Turn Packet)

def validateCertificate (cert : Certificate) : Turn Packet :=
  match cert.isValid env t.now with
  | none => t.raise
  | some false => t.fail (.expiredCert cert.name)
  | some true => (t.note (.asked cert t.now)).ask (.certificate cert)

def fetch (request : CertificateRequest) : Turn Packet :=
  let (found,refreshed) := t.storage.unverified.find t.now request
  let t := { t with storage := { t.storage with unverified := refreshed } }
  match found with
  | some cert => t.validateCertificate env cert
  | none => t.ask (.fetch request)

def requestCertificate (request : CertificateRequest) : Turn Packet :=
  if t.state.chain.length ≥ t.maxDepth then t.fail (.exceededDepthLimit t.maxDepth)
  else if request.name = digestSha256Identity then t.verifyOriginalPacket env none
  else if request.name ∈ t.state.seen then t.fail (.loopDetected request.name)
  else
    let t := { t with state := { t.state with seen := request.name :: t.state.seen } }.note (.requested request.name)
    let (found,storage) := t.storage.findTrustedCert t.now request
    let t := { t with storage := storage }
    match found with
    | some cert => t.verifyChain env cert
    | none => t.fetch env request

def validate : Turn Packet :=
  if env.malformed t.state.packet then t.fail .malformedSignature else t.ask .packet

-- A policy that proceeds without a request lets the packet pass, but cannot make
-- a certificate an anchor.
def answerPacket : Answer → Turn Packet
  | .fail error => t.fail error
  | .proceed none => t.succeed
  | .proceed (some request) => t.requestCertificate env request
  | .throws => t.raise

def answerCertificate (cert : Certificate) : Answer → Turn Packet
  | .fail error => t.fail error
  | .proceed none => t.fail (.notATrustAnchor cert.name)
  | .proceed (some request) =>
    requestCertificate env ({ t with state := { t.state with chain := cert :: t.state.chain } }.note (.accepted cert request)) request
  | .throws => t.raise

def answerFetch : FetchAnswer → Turn Packet
  | .fail error => t.fail error
  | .certificate cert =>
    match t.storage.unverified.insert env t.now cert with
    | none => t.raise
    | some unverified => validateCertificate env { t with storage := { t.storage with unverified := unverified } } cert

end

end Turn

-- Validations are numbered as they are begun. vouched are the certificates that
-- the application itself has put into the cache of verified ones.
structure Validator (Packet : Type) where
  now : Int
  maxDepth : Nat
  storage : CertificateStorage
  states : List (ValidationState Packet) := []
  pending : List (Nat × Ask) := []
  trace : List (Nat × Note) := []
  vouched : List Certificate := []

inductive ValidatorEvent (Packet : Type) where
  | validate (packet : Packet)
  | policy (index : Nat) (answer : Answer)
  | fetched (index : Nat) (answer : FetchAnswer)
  | dropped (index : Nat)
  | clock (now : Int)
  | anchors (certs : List Certificate)
  | cacheVerifiedCertificate (cert : Certificate)
  | resetVerifiedCertificates

namespace Validator
variable {Packet : Type}

section
variable (env : Signatures Packet) (v : Validator Packet)

def begins (state : ValidationState Packet) : Turn Packet := ⟨v.now,v.maxDepth,v.storage,state,none,[]⟩

def ends (id : Nat) (t : Turn Packet) : Validator Packet :=
  { v with
    storage := t.storage
    states := v.states.set id t.state
    pending := v.pending ++ t.asks.toList.map (fun question => (id,question))
    trace := v.trace ++ t.notes.map (fun n => (id,n)) }

def answered (index : Nat) (turn : Turn Packet → Ask → Option (Turn Packet)) : Option (Validator Packet) := do
  let (id,question) ← v.pending[index]?
  let state ← v.states[id]?
  let t ← turn (v.begins state) question
  some ({ v with pending := v.pending.eraseIdx index }.ends id t)

def policyTurn (answer : Answer) (t : Turn Packet) : Ask → Option (Turn Packet)
  | .packet => some (t.answerPacket env answer)
  | .certificate cert => some (t.answerCertificate env cert answer)
  | .fetch _ => none

def fetchTurn (answer : FetchAnswer) (t : Turn Packet) : Ask → Option (Turn Packet)
  | .fetch _ => some (t.answerFetch env answer)
  | _ => none

-- Trust anchors come and go as the application and its files say.
def step : ValidatorEvent Packet → Option (Validator Packet)
  | .validate packet =>
    let state : ValidationState Packet := { packet := packet }
    some ({ v with states := v.states ++ [state] }.ends v.states.length ((v.begins state).validate env))
  | .policy index answer => v.answered index (policyTurn env answer)
  | .fetched index answer => v.answered index (fetchTurn env answer)
  | .dropped index => v.answered index (fun t _ => some t.release)
  | .clock now => some { v with now := now }
  | .anchors certs => some { v with storage := { v.storage with anchors := certs.foldl (fun placed cert => placeByName Certificate.name cert placed) [] } }
  | .cacheVerifiedCertificate cert =>
    (v.storage.verified.insert env v.now cert).map fun verified =>
      { v with storage := { v.storage with verified := verified },vouched := cert :: v.vouched }
  | .resetVerifiedCertificates => some { v with storage := { v.storage with verified := { v.storage.verified with entries := [] } } }

end

-- A Validator as constructed: certificates are cached for an hour if they are
-- verified, and for five minutes if not.
structure Initial (v : Validator Packet) : Prop where
  states : v.states = []
  pending : v.pending = []
  trace : v.trace = []
  vouched : v.vouched = []
  verified : v.storage.verified = ⟨3600000000000,[]⟩
  unverified : v.storage.unverified = ⟨300000000000,[]⟩

def Reached (env : Signatures Packet) : Validator Packet → Prop := Transition.Reached (step env) Initial

end Validator
end ReflexiveNfd.Validation

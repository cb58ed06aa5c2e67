import ReflexiveNfd.KeyLocators
import ReflexiveNfd.Lib.Admission

namespace ReflexiveNfd.Validation
open Octets Tlv Admission Option Transition

inductive PolicyFault where
  | failed (error : ValidationError)
  | raised
  deriving DecidableEq, Repr

def fromUnixTimestamp (milliseconds : Nat) : Int := nanoseconds (millisecondsOf milliseconds).toInt

-- A number among the optional fields. They are not looked at when a
-- SignatureInfo is decoded, so that reading one may throw.
def getNumber (info : SignatureInfo) (type : Nat) : Except PolicyFault (Option Nat) :=
  match info.otherTlvs.find? (fun b => b.type == type) with
  | none => .ok none
  | some b => (readNonNegativeInteger b.value).elim (.error .raised) (fun n => .ok (some n))

def getTime (info : SignatureInfo) : Except PolicyFault (Option Int) := (getNumber info tlvSignatureTime).map (Option.map fromUnixTimestamp)

def getNonce (info : SignatureInfo) : Option (List UInt8) := (info.otherTlvs.find? (fun b => b.type == tlvSignatureNonce)).map Block.value

structure CommandOptions where
  gracePeriod : Int := 120000000000
  maxRecords : Int := 1000
  recordLifetime : Option Int := some 3600000000000
  deriving DecidableEq, Repr

structure TimestampRecord where
  keyName : Name
  timestamp : Int
  lastRefreshed : Int
  deriving DecidableEq, Repr

-- The desk has the commands whose inner validation is under way, each with the
-- record that is to be made of it, and those that have been accepted.
structure CommandPolicy where
  options : CommandOptions
  systemNow : Int
  steadyNow : Int
  queue : List TimestampRecord := []
  desk : Desk Name Int := ⟨[],[]⟩
  next : Nat := 0
  deriving DecidableEq, Repr

inductive PolicyEvent where
  | arrive (interest : InterestPacket)
  | finish (id : Nat) (success : Bool)
  | clocks (system steady : Int)

namespace CommandPolicy

def timestampComponent (i : InterestPacket) : Except PolicyFault Int :=
  if i.name.length < 4 then .error (.failed .policyError)
  else
    match i.getName[i.name.length - 4]? with
    | some c => if c.isNumber then .ok (fromUnixTimestamp (Component.readNonNegativeInteger c.value)) else .error (.failed .policyError)
    | none => .error (.failed .policyError)

def parseCommandInterest (i : InterestPacket) : Except PolicyFault (Name × Int) := do
  let (format,info) ← (signatureInfoOf i).mapError .failed
  let timestamp ← match format with
    | .v03 => (getTime info).bind (fun time => time.elim (.error (.failed .policyError)) .ok)
    | .v02 => timestampComponent i
  let keyName ← (getKeyLocatorName info).mapError .failed
  .ok (keyName,timestamp)

def cleanup (options : CommandOptions) (steadyNow : Int) : List TimestampRecord → List TimestampRecord
  | [] => []
  | r :: rest =>
    if options.recordLifetime.any (fun lifetime => r.lastRefreshed ≤ steadyNow - lifetime) ∨
        (0 ≤ options.maxRecords ∧ options.maxRecords < (rest.length + 1 : Nat)) then cleanup options steadyNow rest
    else r :: rest

section
variable (p : CommandPolicy)

-- A negative grace period is taken for none.
def checkTimestamp (keyName : Name) (timestamp : Int) : Bool :=
  decide (p.systemNow - max p.options.gracePeriod 0 ≤ timestamp ∧ timestamp ≤ p.systemNow + max p.options.gracePeriod 0) &&
    (p.queue.find? (fun r => r.keyName = keyName)).all (fun r => r.timestamp < timestamp)

def insertNewRecord (keyName : Name) (timestamp : Int) : List TimestampRecord :=
  p.queue.filter (fun r => r.keyName ≠ keyName) ++ [⟨keyName,timestamp,p.steadyNow⟩]

def arrive (i : InterestPacket) : CommandPolicy :=
  match parseCommandInterest i with
  | .error _ => p
  | .ok (keyName,timestamp) =>
    let cleaned := { p with queue := cleanup p.options p.steadyNow p.queue }
    if cleaned.checkTimestamp keyName timestamp then { cleaned with desk := p.desk.arrive p.next keyName timestamp,next := p.next + 1 }
    else cleaned

def finish (id : Nat) (success : Bool) : Option CommandPolicy :=
  (p.desk.waiting.find? (fun o => o.1 = id)).map fun (_,keyName,timestamp) =>
    if success then { p with queue := p.insertNewRecord keyName timestamp,desk := p.desk.accept id keyName timestamp }
    else { p with desk := p.desk.leave id }

def step : PolicyEvent → Option CommandPolicy
  | .arrive i => some (p.arrive i)
  | .finish id success => p.finish id success
  | .clocks system steady => some { p with systemNow := system,steadyNow := steady }

end

structure Initial (options : CommandOptions) (p : CommandPolicy) : Prop where
  options : p.options = options
  queue : p.queue = []
  desk : p.desk = ⟨[],[]⟩

def Alone (p : CommandPolicy) : PolicyEvent → Prop
  | .arrive i => ∀ o ∈ p.desk.waiting, (parseCommandInterest i).toOption.map Prod.fst ≠ some o.2.1
  | _ => True

instance (p : CommandPolicy) : DecidablePred p.Alone
  | .arrive i => inferInstanceAs (Decidable (∀ o ∈ p.desk.waiting, (parseCommandInterest i).toOption.map Prod.fst ≠ some o.2.1))
  | .finish _ _ => isTrue True.intro
  | .clocks _ _ => isTrue True.intro

end CommandPolicy

structure Protection where
  timestamp : Option Int
  seqNum : Option Nat
  nonce : Option (List UInt8)
  deriving DecidableEq, Repr

structure SignedOptions where
  shouldValidateTimestamps : Bool := true
  timestampGracePeriod : Int := 120000000000
  shouldValidateSeqNums : Bool := false
  shouldValidateNonces : Bool := true
  maxNonceRecordCount : Int := 1000
  maxRecordCount : Int := 1000
  deriving DecidableEq, Repr

structure InterestRecord where
  keyName : Name
  timestamp : Option Int
  seqNum : Option Nat
  observedNonces : List (List UInt8)
  lastRefreshed : Int
  deriving DecidableEq, Repr

structure SignedPolicy where
  options : SignedOptions
  systemNow : Int
  steadyNow : Int
  records : List InterestRecord := []
  desk : Desk Name Protection := ⟨[],[]⟩
  next : Nat := 0
  deriving DecidableEq, Repr

namespace SignedPolicy

section
variable (options : SignedOptions) (p : SignedPolicy) (i : InterestPacket) (keyName : Name) (x : Protection)

-- The key and the fields of an Interest of the new format. One of the old format
-- is left to the inner policy alone.
def parse : Except PolicyFault (Option (Name × Protection)) := do
  let (format,info) ← (signatureInfoOf i).mapError .failed
  if format = .v02 then .ok none
  else do
    let keyName ← (getKeyLocatorName info).mapError .failed
    let timestamp ← getTime info
    let seqNum ← getNumber info tlvSignatureSeqNum
    .ok (some (keyName,⟨timestamp,seqNum,getNonce info⟩))

def increases [LT α] [DecidableRel (α := α) (· < ·)] (required : Bool) (recorded field : Option α) : Bool :=
  !required || field.any (fun new => recorded.all (fun old => decide (old < new)))

def withinGracePeriod : Bool :=
  !p.options.shouldValidateTimestamps ||
    x.timestamp.all (fun t => decide ((p.systemNow - t).natAbs ≤ max p.options.timestampGracePeriod 0))

def checkIncomingInterest : Bool :=
  let record := p.records.find? (fun r => r.keyName = keyName)
  increases p.options.shouldValidateTimestamps (record.bind InterestRecord.timestamp) x.timestamp && p.withinGracePeriod x &&
    increases p.options.shouldValidateSeqNums (record.bind InterestRecord.seqNum) x.seqNum &&
    (!p.options.shouldValidateNonces || x.nonce.any (fun nonce => record.all (fun r => !r.observedNonces.contains nonce)))

def observe (r : InterestRecord) (nonce : Option (List UInt8)) : InterestRecord :=
  match nonce with
  | some nonce =>
    if options.shouldValidateNonces ∧ options.maxNonceRecordCount ≠ 0 then
      let longer := if r.observedNonces.contains nonce then r.observedNonces else r.observedNonces ++ [nonce]
      { r with observedNonces :=
          if 0 ≤ options.maxNonceRecordCount ∧ options.maxNonceRecordCount < longer.length then longer.tail else longer }
    else r
  | none => r

def renewed : InterestRecord :=
  match p.records.find? (fun r => r.keyName = keyName) with
  | some r => { r with lastRefreshed := p.steadyNow,timestamp := x.timestamp.or r.timestamp,seqNum := x.seqNum.or r.seqNum }
  | none => ⟨keyName,x.timestamp,x.seqNum,[],p.steadyNow⟩

def limit (records : List InterestRecord) : List InterestRecord :=
  if 0 ≤ options.maxRecordCount ∧ options.maxRecordCount < records.length then
    records.eraseP (fun r => records.all (fun other => r.lastRefreshed ≤ other.lastRefreshed))
  else records

def insertRecord : List InterestRecord :=
  limit p.options (p.records.filter (fun r => r.keyName ≠ keyName) ++ [observe p.options (p.renewed keyName x) x.nonce])

def arrive : SignedPolicy :=
  match parse i with
  | .ok (some (keyName,x)) =>
    if p.checkIncomingInterest keyName x then { p with desk := p.desk.arrive p.next keyName x,next := p.next + 1 } else p
  | _ => p

def finish (id : Nat) (success : Bool) : Option SignedPolicy :=
  (p.desk.waiting.find? (fun o => o.1 = id)).map fun (_,keyName,x) =>
    if success then
      { p with
        records := if p.options.maxRecordCount ≠ 0 then p.insertRecord keyName x else p.records
        desk := p.desk.accept id keyName x }
    else { p with desk := p.desk.leave id }

def step : PolicyEvent → Option SignedPolicy
  | .arrive i => some (p.arrive i)
  | .finish id success => p.finish id success
  | .clocks system steady => some { p with systemNow := system,steadyNow := steady }

end

structure Initial (options : SignedOptions) (p : SignedPolicy) : Prop where
  options : p.options = options
  records : p.records = []
  desk : p.desk = ⟨[],[]⟩

def Alone (p : SignedPolicy) : PolicyEvent → Prop
  | .arrive i => ∀ o ∈ p.desk.waiting, (parse i).toOption.join.map Prod.fst ≠ some o.2.1
  | _ => True

instance (p : SignedPolicy) : DecidablePred p.Alone
  | .arrive i => inferInstanceAs (Decidable (∀ o ∈ p.desk.waiting, (parse i).toOption.join.map Prod.fst ≠ some o.2.1))
  | .finish _ _ => isTrue True.intro
  | .clocks _ _ => isTrue True.intro

end SignedPolicy

theorem find?_replaced {α : Type} {key : α → Name} {entries : List α} {new : α} {name : Name} :
    (entries.filter (fun r => key r ≠ key new) ++ [new]).find? (fun r => key r = name) =
      if key new = name then some new else entries.find? (fun r => key r = name) := by
  rw [List.find?_append]
  split
  · rename_i same
    have gone : (entries.filter (fun r => key r ≠ key new)).find? (fun r => key r = name) = none := by
      refine List.find?_eq_none.mpr (fun r listed => ?_)
      have different := (List.mem_filter.mp listed).2
      simpa only [decide_eq_true_eq,← same] using different
    rw [gone,none_or]
    exact List.find?_cons_of_pos (by simpa using same)
  · rename_i different
    have kept : (entries.filter (fun r => key r ≠ key new)).find? (fun r => key r = name) = entries.find? (fun r => key r = name) := by
      rw [List.find?_filter]
      congr 1
      funext r
      by_cases same : key r = name
      · simp [same,Ne.symm different]
      · simp [same]
    rw [kept,List.find?_cons_of_neg (by simpa using different),List.find?_nil,or_none]

namespace CommandPolicy
variable {p q : CommandPolicy} {options : CommandOptions} {timestamp : Int}

structure Unlimited (options : CommandOptions) : Prop where
  maxRecords : options.maxRecords < 0
  recordLifetime : options.recordLifetime = none

theorem cleanup_unlimited (unlimited : Unlimited options) (now : Int) (queue : List TimestampRecord) : cleanup options now queue = queue := by
  cases queue with
  | nil => rfl
  | cons r rest =>
    rw [cleanup,if_neg]
    rw [unlimited.recordLifetime]
    have negative := unlimited.maxRecords
    simp only [any_none,Bool.false_eq_true,false_or]
    omega

def Recorded (p : CommandPolicy) : Prop :=
  ∀ keyName, ∀ a ∈ p.desk.of keyName, ∃ r, p.queue.find? (fun r => r.keyName = keyName) = some r ∧ a ≤ r.timestamp

structure Protected (options : CommandOptions) (p : CommandPolicy) : Prop where
  options : p.options = options
  recorded : p.Recorded
  ordered : Admission.Ordered (· < ·) p.desk

theorem checked_above (recorded : p.Recorded) (checked : p.checkTimestamp keyName timestamp) : ∀ a ∈ p.desk.of keyName, a < timestamp := by
  intro a accepted
  obtain ⟨r,found,bound⟩ := recorded keyName a accepted
  have later := (Bool.and_eq_true_iff.mp checked).2
  rw [found] at later
  have above : r.timestamp < timestamp := by simpa using later
  omega

theorem arrive_protected (unlimited : Unlimited options) (kept : Protected options p) {i : InterestPacket} (alone : p.Alone (.arrive i)) :
    Protected options (p.arrive i) := by
  unfold arrive
  split
  · exact kept
  rename_i keyName timestamp parsed
  have whole : { p with queue := cleanup p.options p.steadyNow p.queue } = p := by
    rw [cleanup_unlimited (kept.options ▸ unlimited)]
  rw [whole]
  dsimp only
  split
  · rename_i checked
    have free : ∀ o ∈ p.desk.waiting, o.2.1 ≠ keyName := fun o listed same => alone o listed (by rw [parsed,same]; rfl)
    exact { kept with ordered := kept.ordered.arrive free (checked_above kept.recorded checked) }
  · exact kept

theorem finish_protected (kept : Protected options p) {id : Nat} {success : Bool} (finished : p.finish id success = some q) : Protected options q := by
  obtain ⟨⟨other,keyName,timestamp⟩,found,rfl⟩ := map_eq_some_iff.mp finished
  have waits : (id,keyName,timestamp) ∈ p.desk.waiting := by
    have same : other = id := by simpa using List.find?_some found
    exact same ▸ List.mem_of_find?_eq_some found
  dsimp only
  split
  · refine ⟨kept.options,fun name a accepted => ?_,kept.ordered.accept waits⟩
    have replaced := @find?_replaced _ TimestampRecord.keyName p.queue ⟨keyName,timestamp,p.steadyNow⟩ name
    rw [Desk.of_accept] at accepted
    rw [insertNewRecord,replaced]
    split
    · rename_i same
      obtain rfl : keyName = name := same
      refine ⟨_,rfl,?_⟩
      rcases List.mem_append.mp accepted with old | new
      · exact Int.le_of_lt (kept.ordered.fits _ waits a old)
      · rw [if_pos rfl] at new
        exact Int.le_of_eq (List.mem_singleton.mp new)
    · rename_i different
      rw [if_neg different,List.append_nil] at accepted
      exact kept.recorded name a accepted
  · exact ⟨kept.options,kept.recorded,kept.ordered.leave⟩

theorem guarded_protected (unlimited : Unlimited options) (path : Guarded step (Initial options) Alone p) : Protected options p := by
  refine path.invariant (fun p initial => ?_) (fun p event q _ kept alone taken => ?_)
  · refine ⟨initial.options,?_,?_⟩
    · rw [Recorded,initial.desk]
      nofun
    · rw [initial.desk]
      exact ⟨List.nodup_nil,nofun,fun _ => .nil⟩
  · cases event with
    | arrive i =>
      cases taken
      exact arrive_protected unlimited kept alone
    | finish id success => exact finish_protected kept taken
    | clocks system steady =>
      cases taken
      exact { kept with }

end CommandPolicy

def Above {α : Type} [LT α] (required : Bool) (old new : Option α) : Prop :=
  required → ∃ a ∈ old, ∃ b ∈ new, a < b

structure Protection.Follows (options : SignedOptions) (old new : Protection) : Prop where
  timestamp : Above options.shouldValidateTimestamps old.timestamp new.timestamp
  seqNum : Above options.shouldValidateSeqNums old.seqNum new.seqNum
  nonce : options.shouldValidateNonces → ∃ a ∈ old.nonce, ∃ b ∈ new.nonce, a ≠ b

namespace SignedPolicy
variable {p q : SignedPolicy} {options : SignedOptions} {keyName : Name} {x old : Protection} {r : InterestRecord}

structure Unlimited (options : SignedOptions) : Prop where
  maxRecordCount : options.maxRecordCount < 0
  maxNonceRecordCount : options.maxNonceRecordCount < 0

def Held [LE α] (required : Bool) (field recorded : Option α) : Prop := required → ∃ a ∈ field, ∃ b ∈ recorded, a ≤ b

structure Covers (options : SignedOptions) (r : InterestRecord) (x : Protection) : Prop where
  timestamp : Held options.shouldValidateTimestamps x.timestamp r.timestamp
  seqNum : Held options.shouldValidateSeqNums x.seqNum r.seqNum
  nonce : options.shouldValidateNonces → ∃ n ∈ x.nonce, n ∈ r.observedNonces

def Recorded (p : SignedPolicy) : Prop :=
  ∀ keyName, ∀ a ∈ p.desk.of keyName, ∃ r, p.records.find? (fun r => r.keyName = keyName) = some r ∧ Covers p.options r a

def Complete (options : SignedOptions) (x : Protection) : Prop :=
  (options.shouldValidateTimestamps → x.timestamp ≠ none) ∧ (options.shouldValidateSeqNums → x.seqNum ≠ none) ∧
    (options.shouldValidateNonces → x.nonce ≠ none)

structure Protected (options : SignedOptions) (p : SignedPolicy) : Prop where
  options : p.options = options
  recorded : p.Recorded
  complete : ∀ o ∈ p.desk.waiting, Complete p.options o.2.2
  ordered : Admission.Ordered (Protection.Follows p.options) p.desk

theorem increases_parts {α : Type} [LT α] [DecidableRel (α := α) (· < ·)] {required : Bool} {recorded field : Option α}
    (increasing : increases required recorded field) (needed : required = true) : ∃ new ∈ field, ∀ old ∈ recorded, old < new := by
  have later : field.any (fun new => recorded.all (fun old => decide (old < new))) := by simpa [increases,needed] using increasing
  obtain ⟨new,set,above⟩ := (any_eq_true ..).mp later
  exact ⟨new,set,fun old known => of_decide_eq_true ((all_eq_true ..).mp above old known)⟩

theorem increases_above {α : Type} [Preorder α] [DecidableRel (α := α) (· < ·)] {required : Bool} {recorded field before : Option α}
    (increasing : increases required recorded field) (held : Held required before recorded) : Above required before field := by
  intro needed
  obtain ⟨a,given,b,known,within⟩ := held needed
  obtain ⟨new,set,above⟩ := increases_parts increasing needed
  exact ⟨a,given,new,set,lt_of_le_of_lt within (above b known)⟩

structure Checks (p : SignedPolicy) (keyName : Name) (x : Protection) : Prop where
  timestamp : increases p.options.shouldValidateTimestamps ((p.records.find? (fun r => r.keyName = keyName)).bind InterestRecord.timestamp)
    x.timestamp
  seqNum : increases p.options.shouldValidateSeqNums ((p.records.find? (fun r => r.keyName = keyName)).bind InterestRecord.seqNum) x.seqNum
  nonce : p.options.shouldValidateNonces → ∃ n ∈ x.nonce, ∀ r ∈ p.records.find? (fun r => r.keyName = keyName), n ∉ r.observedNonces

theorem checkIncomingInterest_checks (checked : p.checkIncomingInterest keyName x) : Checks p keyName x := by
  obtain ⟨checked,nonces⟩ := Bool.and_eq_true_iff.mp checked
  obtain ⟨checked,seqNum⟩ := Bool.and_eq_true_iff.mp checked
  obtain ⟨timestamp,_⟩ := Bool.and_eq_true_iff.mp checked
  refine ⟨timestamp,seqNum,fun needed => ?_⟩
  rw [needed,Bool.not_true,Bool.false_or] at nonces
  obtain ⟨n,given,fresh⟩ := (any_eq_true ..).mp nonces
  refine ⟨n,given,fun r found seen => ?_⟩
  have unseen := (all_eq_true ..).mp fresh r found
  rw [List.contains_iff_mem.mpr seen] at unseen
  cases unseen

theorem Checks.follows (checks : Checks p keyName x) (recorded : p.Recorded) : ∀ a ∈ p.desk.of keyName, Protection.Follows p.options a x := by
  intro a accepted
  obtain ⟨r,found,covers⟩ := recorded keyName a accepted
  obtain ⟨timestamp,seqNum,nonce⟩ := checks
  rw [found] at timestamp seqNum nonce
  refine ⟨increases_above timestamp covers.timestamp,increases_above seqNum covers.seqNum,fun needed => ?_⟩
  obtain ⟨n,given,seen⟩ := covers.nonce needed
  obtain ⟨m,new,unseen⟩ := nonce needed
  refine ⟨n,given,m,new,?_⟩
  rintro rfl
  exact unseen r rfl seen

theorem Checks.complete (checks : Checks p keyName x) : Complete p.options x := by
  refine ⟨fun needed absent => ?_,fun needed absent => ?_,fun needed absent => ?_⟩
  · obtain ⟨_,set,_⟩ := increases_parts checks.timestamp needed
    cases absent.symm.trans set
  · obtain ⟨_,set,_⟩ := increases_parts checks.seqNum needed
    cases absent.symm.trans set
  · obtain ⟨_,set,_⟩ := checks.nonce needed
    cases absent.symm.trans set

theorem limit_unlimited (unlimited : Unlimited options) (records : List InterestRecord) : limit options records = records := by
  have negative := unlimited.maxRecordCount
  exact if_neg (by omega)

theorem observe_parts (unlimited : Unlimited options) {nonce : Option (List UInt8)} :
    (observe options r nonce).keyName = r.keyName ∧ (observe options r nonce).timestamp = r.timestamp ∧
    (observe options r nonce).seqNum = r.seqNum ∧ r.observedNonces ⊆ (observe options r nonce).observedNonces ∧
    (options.shouldValidateNonces → ∀ n ∈ nonce, n ∈ (observe options r nonce).observedNonces) := by
  have negative := unlimited.maxNonceRecordCount
  unfold observe
  split
  · rename_i n
    split
    · dsimp only
      rw [if_neg (by omega)]
      refine ⟨rfl,rfl,rfl,?_,?_⟩
      · split
        · exact List.Subset.refl _
        · exact List.subset_append_left _ _
      · rintro _ _ ⟨⟩
        split
        · rename_i seen
          exact List.contains_iff_mem.mp seen
        · exact List.mem_append_right _ (List.mem_singleton_self _)
    · rename_i skipped
      refine ⟨rfl,rfl,rfl,List.Subset.refl _,fun needed => absurd ⟨needed,?_⟩ skipped⟩
      omega
  · exact ⟨rfl,rfl,rfl,List.Subset.refl _,fun _ => nofun⟩

theorem renewed_parts : (p.renewed keyName x).keyName = keyName ∧ (∀ t ∈ x.timestamp, (p.renewed keyName x).timestamp = some t) ∧
    (∀ n ∈ x.seqNum, (p.renewed keyName x).seqNum = some n) ∧
    ∀ r ∈ p.records.find? (fun r => r.keyName = keyName), (p.renewed keyName x).observedNonces = r.observedNonces := by
  unfold renewed
  split
  · rename_i r found
    refine ⟨by simpa using List.find?_some found,?_,?_,?_⟩
    · rintro t set
      simp [mem_def.mp set]
    · rintro n set
      simp [mem_def.mp set]
    · intro known same
      cases found.symm.trans same
      rfl
  · rename_i absent
    refine ⟨rfl,fun t set => set,fun n set => set,fun r found => ?_⟩
    cases absent.symm.trans found

theorem Complete.held (complete : Complete options x) :
    (options.shouldValidateTimestamps → ∃ t, x.timestamp = some t) ∧ (options.shouldValidateSeqNums → ∃ n, x.seqNum = some n) ∧
    (options.shouldValidateNonces → ∃ n, x.nonce = some n) :=
  ⟨fun needed => ne_none_iff_exists'.mp (complete.1 needed),fun needed => ne_none_iff_exists'.mp (complete.2.1 needed),
    fun needed => ne_none_iff_exists'.mp (complete.2.2 needed)⟩

theorem insertRecord_covers (unlimited : Unlimited p.options) (recorded : p.Recorded) (complete : Complete p.options x)
    (follows : ∀ a ∈ p.desk.of keyName, Protection.Follows p.options a x) : ∀ a ∈ p.desk.of keyName ++ [x],
    Covers p.options (observe p.options (p.renewed keyName x) x.nonce) a := by
  obtain ⟨_,timestamp,seqNum,nonces,taken⟩ := @observe_parts p.options (p.renewed keyName x) unlimited x.nonce
  obtain ⟨_,times,numbers,kept⟩ := @renewed_parts p keyName x
  obtain ⟨hasTime,hasNumber,hasNonce⟩ := complete.held
  intro a listed
  rcases List.mem_append.mp listed with old | new
  · have follow := follows a old
    refine ⟨fun needed => ?_,fun needed => ?_,fun needed => ?_⟩
    · obtain ⟨s,given,t,set,less⟩ := follow.timestamp needed
      exact ⟨s,given,t,timestamp.trans (times t set),Int.le_of_lt less⟩
    · obtain ⟨s,given,t,set,less⟩ := follow.seqNum needed
      exact ⟨s,given,t,seqNum.trans (numbers t set),Nat.le_of_lt less⟩
    · obtain ⟨r,found,covers⟩ := recorded keyName a old
      obtain ⟨n,given,seen⟩ := covers.nonce needed
      exact ⟨n,given,nonces (kept r found ▸ seen)⟩
  · cases List.mem_singleton.mp new
    refine ⟨fun needed => ?_,fun needed => ?_,fun needed => ?_⟩
    · obtain ⟨t,set⟩ := hasTime needed
      exact ⟨t,set,t,timestamp.trans (times t set),Int.le_refl t⟩
    · obtain ⟨n,set⟩ := hasNumber needed
      exact ⟨n,set,n,seqNum.trans (numbers n set),Nat.le_refl n⟩
    · obtain ⟨n,set⟩ := hasNonce needed
      exact ⟨n,set,taken needed n set⟩

theorem finish_protected (unlimited : Unlimited options) (kept : Protected options p) {id : Nat} {success : Bool}
    (finished : p.finish id success = some q) : Protected options q := by
  obtain ⟨⟨other,keyName,x⟩,found,rfl⟩ := map_eq_some_iff.mp finished
  have waits : (id,keyName,x) ∈ p.desk.waiting := by
    have same : other = id := by simpa using List.find?_some found
    exact same ▸ List.mem_of_find?_eq_some found
  have left : ∀ o ∈ (p.desk.leave id).waiting, Complete p.options o.2.2 := fun o listed => kept.complete o (List.mem_of_mem_filter listed)
  have free := kept.options ▸ unlimited
  dsimp only
  split
  · refine ⟨kept.options,fun name a accepted => ?_,left,kept.ordered.accept waits⟩
    have named : (observe p.options (p.renewed keyName x) x.nonce).keyName = keyName := (observe_parts free).1.trans renewed_parts.1
    have replaced := @find?_replaced _ InterestRecord.keyName p.records (observe p.options (p.renewed keyName x) x.nonce) name
    rw [named] at replaced
    have negative := free.maxRecordCount
    rw [Desk.of_accept] at accepted
    rw [if_pos (by omega),insertRecord,limit_unlimited free,replaced]
    split
    · rename_i same
      cases same
      rw [if_pos rfl] at accepted
      exact ⟨_,rfl,insertRecord_covers free kept.recorded (kept.complete _ waits) (kept.ordered.fits _ waits) a accepted⟩
    · rename_i different
      rw [if_neg different,List.append_nil] at accepted
      exact kept.recorded name a accepted
  · exact ⟨kept.options,kept.recorded,left,kept.ordered.leave⟩

theorem arrive_protected (kept : Protected options p) {i : InterestPacket} (alone : p.Alone (.arrive i)) : Protected options (p.arrive i) := by
  unfold arrive
  split
  · rename_i keyName x parsed
    split
    · rename_i checked
      have checks := checkIncomingInterest_checks checked
      have free : ∀ o ∈ p.desk.waiting, o.2.1 ≠ keyName := fun o listed same => alone o listed (by rw [parsed,same]; rfl)
      refine { kept with complete := fun o listed => ?_,ordered := kept.ordered.arrive free (checks.follows kept.recorded) }
      rcases List.mem_append.mp listed with old | new
      · exact kept.complete o old
      · cases List.mem_singleton.mp new
        exact checks.complete
    · exact kept
  · exact kept

theorem guarded_protected (unlimited : Unlimited options) (path : Guarded step (Initial options) Alone p) : Protected options p := by
  refine path.invariant (fun p initial => ?_) (fun p event q _ kept alone taken => ?_)
  · refine ⟨initial.options,?_,?_,?_⟩
    · rw [Recorded,initial.desk]
      nofun
    · rw [initial.desk]
      nofun
    · rw [initial.desk]
      exact ⟨List.nodup_nil,nofun,fun _ => .nil⟩
  · cases event with
    | arrive i =>
      cases taken
      exact arrive_protected kept alone
    | finish id success => exact finish_protected unlimited kept taken
    | clocks system steady =>
      cases taken
      exact { kept with }

end SignedPolicy

theorem replay_protection (key : Name) :
    (∀ (options : CommandOptions) (p : CommandPolicy), CommandPolicy.Unlimited options →
      Guarded CommandPolicy.step (CommandPolicy.Initial options) CommandPolicy.Alone p → (p.desk.of key).Pairwise (· < ·)) ∧
    ∀ (options : SignedOptions) (p : SignedPolicy), SignedPolicy.Unlimited options →
      Guarded SignedPolicy.step (SignedPolicy.Initial options) SignedPolicy.Alone p →
      (p.desk.of key).Pairwise (Protection.Follows options) := by
  refine ⟨fun options p unlimited path => ?_,fun options p unlimited path => ?_⟩
  · exact (CommandPolicy.guarded_protected unlimited path).ordered.sorted key
  · have kept := SignedPolicy.guarded_protected unlimited path
    exact kept.options ▸ kept.ordered.sorted key

namespace Demo

def interest (nonce time : UInt8) : InterestPacket where
  name := [⟨0,Block.make tlvGenericNameComponent [65]⟩,⟨3,Block.make tlvParametersSha256DigestComponent (List.replicate 32 0)⟩]
  parameters := [⟨40,Block.make tlvApplicationParameters []⟩,
    ⟨42,Block.make tlvInterestSignatureInfo (Block.encode tlvSignatureType [0] ++ Block.encode tlvSignatureNonce [nonce] ++
      Block.encode tlvSignatureTime [time] ++ Block.encode tlvSignatureSeqNum [time])⟩,
    ⟨60,Block.make tlvInterestSignatureValue []⟩]

def commands : CommandPolicy where
  options := { maxRecords := -1,recordLifetime := none }
  systemNow := 0
  steadyNow := 0

def signedInterests : SignedPolicy where
  options := { shouldValidateSeqNums := true,maxNonceRecordCount := -1,maxRecordCount := -1 }
  systemNow := 0
  steadyNow := 0

def inTurn : List PolicyEvent := [.arrive (interest 7 1),.finish 0 true,.arrive (interest 8 2),.finish 1 true]

-- Both are checked before either is recorded, and the later one is done first.
def overlapping : List PolicyEvent := [.arrive (interest 7 1),.arrive (interest 7 2),.finish 1 true,.finish 0 true]

end Demo

theorem replay_protection_in_turn : (∃ p : CommandPolicy, p.desk.of digestSha256Identity = [1000000,2000000] ∧
      (p.desk.of digestSha256Identity).Pairwise (· < ·)) ∧
    ∃ p : SignedPolicy, p.desk.of digestSha256Identity = [⟨some 1000000,some 1,some [7]⟩,⟨some 2000000,some 2,some [8]⟩] ∧
      (p.desk.of digestSha256Identity).Pairwise (Protection.Follows Demo.signedInterests.options) := by
  obtain ⟨p,ran,accepted⟩ : ∃ p ∈ run (checked CommandPolicy.step CommandPolicy.Alone) Demo.commands Demo.inTurn,
    p.desk.of digestSha256Identity = [1000000,2000000] := by decide
  obtain ⟨q,signedRan,signed⟩ : ∃ q ∈ run (checked SignedPolicy.step SignedPolicy.Alone) Demo.signedInterests Demo.inTurn,
    q.desk.of digestSha256Identity = [⟨some 1000000,some 1,some [7]⟩,⟨some 2000000,some 2,some [8]⟩] := by decide
  have both := replay_protection digestSha256Identity
  refine ⟨⟨p,accepted,both.1 Demo.commands.options p ⟨by decide,rfl⟩ ?_⟩,⟨q,signed,both.2 Demo.signedInterests.options q ⟨by decide,by decide⟩ ?_⟩⟩
  · exact checked_guarded (.start ⟨rfl,rfl,rfl⟩) ran
  · exact checked_guarded (.start ⟨rfl,rfl,rfl⟩) signedRan

theorem overlapping_validations : (∃ p, CommandPolicy.Unlimited Demo.commands.options ∧
      Transition.Reached CommandPolicy.step (CommandPolicy.Initial Demo.commands.options) p ∧ p.desk.of digestSha256Identity = [2000000,1000000]) ∧
    ∃ p, SignedPolicy.Unlimited Demo.signedInterests.options ∧
      Transition.Reached SignedPolicy.step (SignedPolicy.Initial Demo.signedInterests.options) p ∧
      p.desk.of digestSha256Identity = [⟨some 2000000,some 2,some [7]⟩,⟨some 1000000,some 1,some [7]⟩] := by
  obtain ⟨p,ran,accepted⟩ : ∃ p ∈ run CommandPolicy.step Demo.commands Demo.overlapping,
    p.desk.of digestSha256Identity = [2000000,1000000] := by decide
  obtain ⟨q,signedRan,signed⟩ : ∃ q ∈ run SignedPolicy.step Demo.signedInterests Demo.overlapping,
    q.desk.of digestSha256Identity = [⟨some 2000000,some 2,some [7]⟩,⟨some 1000000,some 1,some [7]⟩] := by decide
  refine ⟨⟨p,⟨by decide,rfl⟩,?_,accepted⟩,⟨q,⟨by decide,by decide⟩,?_,signed⟩⟩
  · exact run_reached (.start ⟨rfl,rfl,rfl⟩) ran
  · exact run_reached (.start ⟨rfl,rfl,rfl⟩) signedRan

end ReflexiveNfd.Validation

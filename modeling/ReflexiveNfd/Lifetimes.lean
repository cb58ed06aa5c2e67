import ReflexiveNfd.DataRoundTrip
import ReflexiveNfd.Freshness

namespace ReflexiveNfd
open Octets Tlv Option Results
open Demo hiding env

-- The signed 64-bit arithmetic of durations and time points: none for an
-- overflow.
def int64 (n : Int) : Option Int := if -2 ^ 63 ≤ n ∧ n < 2 ^ 63 then some n else none

-- Milliseconds are converted to nanoseconds before they are added.
def plusMilliseconds (point duration : Int) : Option Int := do
  let converted ← int64 (nanoseconds duration)
  int64 (point + converted)

theorem int64_eq_some : int64 n = some m ↔ (-2 ^ 63 ≤ n ∧ n < 2 ^ 63) ∧ n = m := by
  rw [int64,ite_none_right_eq_some,Option.some.injEq]

theorem plusMilliseconds_eq_some (early : point < 2 ^ 63) (late : -2 ^ 63 ≤ point) (positive : 0 ≤ duration) :
    plusMilliseconds point duration = some sum ↔ point + nanoseconds duration < 2 ^ 63 ∧ nanoseconds duration < 2 ^ 63 ∧
      point + nanoseconds duration = sum := by
  have grown : 0 ≤ nanoseconds duration := by
    unfold nanoseconds
    omega
  constructor
  · intro added
    obtain ⟨converted,fits,added⟩ := bind_eq_some_iff.mp added
    obtain ⟨small,rfl⟩ := int64_eq_some.mp fits
    obtain ⟨within,same⟩ := int64_eq_some.mp added
    exact ⟨within.2,small.2,same⟩
  · rintro ⟨within,small,same⟩
    exact bind_eq_some_iff.mpr ⟨nanoseconds duration,int64_eq_some.mpr ⟨⟨by omega,small⟩,rfl⟩,
      int64_eq_some.mpr ⟨⟨by omega,within⟩,same⟩⟩

theorem toInt_millisecondsOf (small : n < 2 ^ 64) :
    (millisecondsOf n).toInt = if n < 2 ^ 63 then (n : Int) else (n : Int) - 2 ^ 64 := by
  have bits : (millisecondsOf n).toInt = (BitVec.ofNat 64 n).toInt := rfl
  rw [bits,BitVec.toInt_eq_toNat_cond,BitVec.toNat_ofNat,Nat.mod_eq_of_lt small]
  split <;> split <;> omega

theorem readNonNegativeInteger_lt (read : ReflexiveNfd.readNonNegativeInteger octets = some n) : n < 2 ^ 64 := by
  obtain ⟨sized,⟨⟩⟩ := ite_none_right_eq_some.mp read
  have bound := ofBigEndian_lt octets
  rcases sized with one | two | four | eight
  · rw [one] at bound
    omega
  · rw [two] at bound
    omega
  · rw [four] at bound
    omega
  · rw [eight] at bound
    omega

def statedLifetime (elements : List Block) : Option Nat :=
  (elements.find? (fun b => b.type == tlvInterestLifetime)).bind (fun b => readNonNegativeInteger b.value)

def wireLifetime (wire : Block) : Nat := (statedLifetime (wire.parse.getD []).tail).getD 4000

theorem statedLifetime_lt : (statedLifetime elements).getD 4000 < 2 ^ 64 := by
  cases stated : statedLifetime elements with
  | none => exact (by decide : 4000 < 2 ^ 64)
  | some n =>
    obtain ⟨b,_,read⟩ := bind_eq_some_iff.mp stated
    exact readNonNegativeInteger_lt read

theorem statedLifetime_other (other : b.type ≠ tlvInterestLifetime) :
    statedLifetime (b :: elements) = statedLifetime elements := by
  rw [statedLifetime,List.find?_cons_of_neg (by simpa using other),statedLifetime]

namespace InterestPacket
variable {i j : InterestPacket} {start : Nat} {e : Element} {elements : List Block}

theorem decodeElement_lifetime (typed : e.block.type = tlvInterestLifetime) (decoded : decodeElement i last e = .ok (j,k)) :
    last < 6 ∧ k = 6 ∧ ∃ n, readNonNegativeInteger e.block.value = some n ∧ j.interestLifetime = millisecondsOf n := by
  simp only [decodeElement,typed,tlvInterestLifetime,tlvCanBePrefix,tlvMustBeFresh,tlvForwardingHint,tlvNonce,Nat.reduceEqDiff,if_false,if_true]
    at decoded
  split at decoded
  · cases decoded
  split at decoded
  · cases decoded
  · rename_i order n read
    cases decoded
    exact ⟨by omega,rfl,n,read,rfl⟩

theorem decodeElement_keeps_lifetime (other : e.block.type ≠ tlvInterestLifetime) (decoded : decodeElement i last e = .ok (j,k)) :
    j.interestLifetime = i.interestLifetime := by
  simp only [decodeElement,if_neg other] at decoded
  repeat' split at decoded
  all_goals first
    | cases decoded
      rfl
    | obtain ⟨names,_,made⟩ := map_parts decoded
      cases made
      rfl
    | cases decoded

theorem decodeElement_order (decoded : decodeElement i last e = .ok (j,k)) : last ≤ k := by
  cases decodeElement_effect decoded with
  | field _ _ _ _ order => omega
  | ignored => exact Nat.le_refl _
  | parameters _ order => omega
  | stored => exact Nat.le_refl _

theorem decodeElements_keep_lifetime (late : 6 ≤ last) (decoded : decodeElements i last start elements = .ok j) :
    j.interestLifetime = i.interestLifetime := by
  induction elements generalizing i last start with
  | nil =>
    cases decoded
    rfl
  | cons b rest ih =>
    obtain ⟨⟨next,bound⟩,read,others⟩ := bind_parts decoded
    have other : b.type ≠ tlvInterestLifetime := by
      intro typed
      have early := (decodeElement_lifetime typed read).1
      omega
    rw [ih (Nat.le_trans late (decodeElement_order read)) others,decodeElement_keeps_lifetime other read]

theorem decodeElements_lifetime (decoded : decodeElements i last start elements = .ok j) :
    j.interestLifetime = ((statedLifetime elements).map millisecondsOf).getD i.interestLifetime := by
  induction elements generalizing i last start with
  | nil =>
    cases decoded
    rfl
  | cons b rest ih =>
    obtain ⟨⟨next,bound⟩,read,others⟩ := bind_parts decoded
    by_cases typed : b.type = tlvInterestLifetime
    · obtain ⟨_,rfl,n,number,set⟩ := decodeElement_lifetime typed read
      have stated : statedLifetime (b :: rest) = some n := by
        rw [statedLifetime,List.find?_cons_of_pos (by simpa using typed)]
        exact number
      rw [decodeElements_keep_lifetime (Nat.le_refl 6) others,set,stated]
      rfl
    · rw [ih others,statedLifetime_other typed,decodeElement_keeps_lifetime typed read]

theorem wireDecode_lifetime {wire : Block} (decoded : wireDecode sha autoCheck wire = .ok i) :
    i.interestLifetime = millisecondsOf (wireLifetime wire) := by
  obtain ⟨first,rest,accepted⟩ := wireDecode_accepted decoded
  rw [decodeElements_lifetime accepted.decoded,wireLifetime,accepted.parsed,getD_some,List.tail_cons]
  cases statedLifetime rest with
  | none => rfl
  | some n => rfl

end InterestPacket

def statedFreshness (elements : List Block) : Option Nat :=
  let untyped := if elements.head?.any (fun b => b.type == tlvContentType) then elements.tail else elements
  (untyped.head?.filter (fun b => b.type == tlvFreshnessPeriod)).bind (fun b => readNonNegativeInteger b.value)

def wireFreshness (wire : Block) : Nat :=
  (((wire.parse.getD []).tail.find? (fun b => b.type == tlvMetaInfo)).bind
    (fun b => statedFreshness (b.parse.getD []))).getD 0

theorem statedFreshness_lt (stated : statedFreshness elements = some n) : n < 2 ^ 64 := by
  obtain ⟨b,_,read⟩ := bind_eq_some_iff.mp stated
  exact readNonNegativeInteger_lt read

namespace MetaInfo
variable {m after : MetaInfo} {elements : List Block}

theorem decodeElements_freshness (decoded : m.decodeElements elements = .ok after) :
    after.freshnessPeriod = millisecondsOf ((statedFreshness elements).getD 0) := by
  obtain ⟨⟨typed,afterType⟩,first,decoded⟩ := bind_parts decoded
  obtain ⟨⟨fresh,afterFreshness⟩,second,decoded⟩ := bind_parts decoded
  obtain ⟨⟨final,rest⟩,third,decoded⟩ := bind_parts decoded
  cases decoded
  have kept : final.freshnessPeriod = fresh.freshnessPeriod := by
    rcases readField_parts third with ⟨b,_,_,set⟩ | ⟨_,rfl,_⟩
    · unfold readFinalBlockId at set
      split at set
      · cases set
      split at set
      · cases set
        rfl
      · cases set
    · rfl
  have left : (if elements.head?.any (fun b => b.type == tlvContentType) then elements.tail else elements) = afterType := by
    rcases readField_parts first with ⟨b,rfl,same,_⟩ | ⟨other,_,rfl⟩
    · simp [same]
    · refine if_neg ?_
      simpa [any_eq_true] using other
  rw [statedFreshness]
  rw [left,kept]
  rcases readField_parts second with ⟨b,rfl,same,set⟩ | ⟨other,rfl,_⟩
  · unfold readFreshnessPeriod at set
    split at set
    · cases set
    · rename_i n number
      cases set
      simp [filter_some,same,number]
  · have none : afterType.head?.filter (fun b => b.type == tlvFreshnessPeriod) = none := by
      simpa [filter_eq_none_iff] using other
    rw [none]
    rfl

end MetaInfo

namespace DataPacket
variable {d e next : DataPacket} {b : Block} {elements : List Block}

theorem decodeElements_keep_metaInfo (late : 2 ≤ last) (decoded : decodeElements d last elements = .ok e) :
    e.metaInfo = d.metaInfo := by
  induction elements generalizing d last with
  | nil =>
    cases decoded
    rfl
  | cons b rest ih =>
    obtain ⟨⟨next,bound⟩,read,others⟩ := bind_parts decoded
    have kept : next.metaInfo = d.metaInfo ∧ 2 ≤ bound := by
      cases decodeElement_effect read with
      | metaInfo _ order _ => omega
      | content => exact ⟨rfl,by decide⟩
      | signatureInfo => exact ⟨rfl,by decide⟩
      | signatureValue => exact ⟨rfl,by decide⟩
      | ignored => exact ⟨rfl,late⟩
    rw [ih kept.2 others,kept.1]

theorem decodeElements_freshness (early : d.metaInfo.freshnessPeriod = 0) (decoded : decodeElements d last elements = .ok e) :
    e.metaInfo.freshnessPeriod = millisecondsOf (((elements.find? (fun b => b.type == tlvMetaInfo)).bind
      (fun b => statedFreshness (b.parse.getD []))).getD 0) := by
  induction elements generalizing d last with
  | nil =>
    cases decoded
    rw [early]
    rfl
  | cons b rest ih =>
    obtain ⟨⟨next,bound⟩,read,others⟩ := bind_parts decoded
    by_cases typed : b.type = tlvMetaInfo
    · rw [List.find?_cons_of_pos (by simpa using typed)]
      rw [decodeElement,if_pos typed] at read
      split at read
      · cases read
      split at read
      · cases read
      · rename_i m parsed
        cases read
        rw [decodeElements_keep_metaInfo (Nat.le_refl 2) others]
        unfold MetaInfo.wireDecode at parsed
        split at parsed
        · cases parsed
        · rename_i fields split
          rw [MetaInfo.decodeElements_freshness parsed,bind_some,split]
          rfl
    · rw [List.find?_cons_of_neg (by simpa using typed)]
      refine ih ?_ others
      cases decodeElement_effect read with
      | metaInfo same => exact absurd same typed
      | content => exact early
      | signatureInfo => exact early
      | signatureValue => exact early
      | ignored => exact early

theorem wireDecode_freshness (decoded : e.wireDecode w = ⟨none,d⟩) :
    d.metaInfo.freshnessPeriod = millisecondsOf (wireFreshness w) := by
  obtain ⟨first,rest,accepted⟩ := wireDecode_accepted decoded
  rw [decodeElements_freshness rfl accepted.decoded,wireFreshness,accepted.parsed]
  rfl

end DataPacket

theorem wireLifetime_lt (wire : Block) : wireLifetime wire < 2 ^ 64 := statedLifetime_lt

theorem wireFreshness_lt (wire : Block) : wireFreshness wire < 2 ^ 64 := by
  unfold wireFreshness
  cases stated : ((wire.parse.getD []).tail.find? (fun b => b.type == tlvMetaInfo)).bind (fun b => statedFreshness (b.parse.getD [])) with
  | none => exact (by decide : 0 < 2 ^ 64)
  | some n =>
    obtain ⟨b,_,read⟩ := bind_eq_some_iff.mp stated
    exact statedFreshness_lt read

def Interest.Conveys (i : Interest) (packet : InterestPacket) : Prop := i.lifetime = packet.interestLifetime.toInt

def Data.Conveys (data : Data) (packet : DataPacket) : Prop := data.freshnessPeriod = packet.metaInfo.freshnessPeriod.toInt

structure Renewed (i : Interest) (lastRenewed expiry : Int) : Prop where
  computed : plusMilliseconds lastRenewed (min i.lifetime maxLifetime) = some expiry
  lower : lastRenewed ≤ expiry
  upper : expiry ≤ lastRenewed + nanoseconds maxLifetime

structure LifetimeInRange (now : Int) (i : Interest) : Prop where
  nonnegative : 0 ≤ i.lifetime
  inRecord : ∀ (r : InRecord) object, Renewed i (r.update now object i).lastRenewed (r.update now object i).expiry
  outRecord : ∀ r : OutRecord, Renewed i (r.update now i).lastRenewed (r.update now i).expiry

structure FreshnessInRange (now : Int) (data : Data) : Prop where
  nonnegative : 0 ≤ data.freshnessPeriod
  computed : plusMilliseconds now data.freshnessPeriod = some (now + nanoseconds data.freshnessPeriod)

theorem lifetime_in_range_iff {now : Int64}
    (decoded : InterestPacket.wireDecode sha autoCheck wire = .ok packet) (conveys : i.Conveys packet) :
    LifetimeInRange now.toInt i ↔
      wireLifetime wire < 2 ^ 63 ∧ now.toInt + nanoseconds (min (wireLifetime wire) maxLifetime) < 2 ^ 63 := by
  have read : i.lifetime = if wireLifetime wire < 2 ^ 63 then (wireLifetime wire : Int) else (wireLifetime wire : Int) - 2 ^ 64 := by
    rw [conveys,InterestPacket.wireDecode_lifetime decoded,toInt_millisecondsOf (wireLifetime_lt wire)]
  have large := wireLifetime_lt wire
  have early := now.toInt_lt
  have late := now.le_toInt
  constructor
  · intro range
    have small : wireLifetime wire < 2 ^ 63 := by
      have nonnegative := range.nonnegative
      by_contra above
      rw [read,if_neg above] at nonnegative
      omega
    rw [if_pos small] at read
    have updated := (range.outRecord (.new ⟨0,.local,.pointToPoint⟩)).computed
    rw [read] at updated
    refine ⟨small,((plusMilliseconds_eq_some early late ?_).mp updated).1⟩
    unfold maxLifetime
    omega
  · rintro ⟨small,fits⟩
    rw [if_pos small] at read
    have nonnegative : 0 ≤ min i.lifetime maxLifetime := by
      unfold maxLifetime
      omega
    have renewed : Renewed i now.toInt (expiryOf now.toInt i) := by
      refine ⟨(plusMilliseconds_eq_some early late nonnegative).mpr ⟨?_,?_,rfl⟩,?_,?_⟩
      · rw [read]
        exact fits
      · unfold nanoseconds maxLifetime
        omega
      · unfold expiryOf nanoseconds
        omega
      · unfold expiryOf nanoseconds
        omega
    exact ⟨by omega,fun _ _ => renewed,fun _ => renewed⟩

theorem freshness_in_range_iff {now : Int64}
    (decoded : ({} : DataPacket).wireDecode wire = ⟨none,packet⟩) (conveys : data.Conveys packet) :
    FreshnessInRange now.toInt data ↔ now.toInt + nanoseconds (wireFreshness wire) < 2 ^ 63 ∧ nanoseconds (wireFreshness wire) < 2 ^ 63 := by
  have read : data.freshnessPeriod = if wireFreshness wire < 2 ^ 63 then (wireFreshness wire : Int) else (wireFreshness wire : Int) - 2 ^ 64 := by
    rw [conveys,DataPacket.wireDecode_freshness decoded,toInt_millisecondsOf (wireFreshness_lt wire)]
  have large := wireFreshness_lt wire
  have early := now.toInt_lt
  have late := now.le_toInt
  constructor
  · rintro ⟨nonnegative,computed⟩
    have small : wireFreshness wire < 2 ^ 63 := by
      by_contra above
      rw [read,if_neg above] at nonnegative
      omega
    obtain ⟨fits,converted,_⟩ := (plusMilliseconds_eq_some early late nonnegative).mp computed
    rw [read,if_pos small] at fits converted
    exact ⟨fits,converted⟩
  · rintro ⟨fits,converted⟩
    have small : wireFreshness wire < 2 ^ 63 := by
      unfold nanoseconds at converted
      omega
    rw [if_pos small] at read
    refine ⟨by omega,(plusMilliseconds_eq_some early late (by omega)).mpr ⟨?_,?_,rfl⟩⟩
    · rw [read]
      exact fits
    · rw [read]
      exact converted

structure Constructed (s : State) : Prop where
  initial : Initial s
  stored : s.cs.table = []

-- The Data that an event brings has been decoded, from a freshness period that
-- is a signed 64-bit integer.
def Event.Moderate (event : Event) : Prop :=
  ∀ data ∈ event.brings, ∃ wire packet, ({} : DataPacket).wireDecode wire = ⟨none,packet⟩ ∧ data.Conveys packet ∧ wireFreshness wire < 2 ^ 63

theorem Event.Moderate.nonnegative {event : Event} (moderate : event.Moderate) : ∀ data ∈ event.brings, 0 ≤ data.freshnessPeriod := by
  intro data brought
  obtain ⟨wire,packet,decoded,conveys,small⟩ := moderate data brought
  rw [conveys,DataPacket.wireDecode_freshness decoded,toInt_millisecondsOf (wireFreshness_lt wire),if_pos small]
  omega

theorem moderate_fresh {env : Env} (path : Transition.Guarded (step env) Constructed (fun _ event => event.Moderate) s) :
    Reached env s ∧ Fresh s := by
  refine path.invariant (P := fun s => Reached env s ∧ Fresh s) (fun s start => ?_) (fun s event t _ holds moderate taken => ?_)
  · refine ⟨.start start.initial,?_,?_⟩
    · rw [start.initial.pit]
      exact nofun
    · rw [start.stored]
      exact nofun
  · exact ⟨holds.1.next taken,step_fresh holds.1 holds.2 moderate.nonnegative taken⟩

theorem lifetimes_in_range_iff (now : Int64) (env : Env) :
    (∀ (sha : Sha256) (autoCheck : Bool) (wire : Block) (packet : InterestPacket) (i : Interest),
      InterestPacket.wireDecode sha autoCheck wire = .ok packet → i.Conveys packet →
      (LifetimeInRange now.toInt i ↔
        wireLifetime wire < 2 ^ 63 ∧ now.toInt + nanoseconds (min (wireLifetime wire) maxLifetime) < 2 ^ 63)) ∧
    (∀ (wire : Block) (packet : DataPacket) (data : Data),
      ({} : DataPacket).wireDecode wire = ⟨none,packet⟩ → data.Conveys packet →
      (FreshnessInRange now.toInt data ↔
        now.toInt + nanoseconds (wireFreshness wire) < 2 ^ 63 ∧ nanoseconds (wireFreshness wire) < 2 ^ 63)) ∧
    ∀ (s : State) (event : Event), Transition.Guarded (step env) Constructed (fun _ event => event.Moderate) s →
      event.Moderate → ∀ c ∈ calls env s event, Asserted c.1 c.2 := by
  refine ⟨fun sha autoCheck wire packet i => lifetime_in_range_iff,fun wire packet data => freshness_in_range_iff,?_⟩
  intro s event path moderate c called
  obtain ⟨reached,fresh⟩ := moderate_fresh path
  exact (calls_fresh reached fresh moderate.nonnegative c called).asserted c.2

namespace Demo

def lifetimeWire (lifetime : Nat) : Block :=
  Block.make tlvInterest (Block.wires [Name.wireEncode [testApp],Block.make tlvNonce [0,0,0,1],
    Block.make tlvInterestLifetime (encodeNonNegativeInteger lifetime)])

def freshnessWire (freshness : Nat) : Block :=
  Block.make tlvData (Block.wires [Name.wireEncode requestName,
    Block.make tlvMetaInfo (Block.make tlvFreshnessPeriod (encodeNonNegativeInteger freshness)).wire,
    Block.make tlvSignatureInfo (Block.make tlvSignatureType [0]).wire,Block.make tlvSignatureValue [9]])

def asking : Event := .interest (request 7 1) consumer { words := [42] }

def answering (freshness : Int) : Event := .data { name := requestName,freshnessPeriod := freshness } producer {}

end Demo

theorem lifetimes_in_range_sample : ∃ s c, step Demo.env (node .bestRoute) asking = some s ∧
    calls Demo.env s (answering 10) = [c] ∧ (c.1.entry c.2).isSatisfied ∧ 0 ≤ (c.1.entry c.2).dataFreshnessPeriod ∧
    LifetimeInRange 5 { name := [testApp],nonce := 1,lifetime := 2000 } ∧
    FreshnessInRange 5 { name := requestName,freshnessPeriod := 10 } := by
  obtain ⟨interests,packets,asserted⟩ := lifetimes_in_range_iff 5 Demo.env
  obtain ⟨s,asked,single⟩ : ∃ s ∈ step Demo.env (node .bestRoute) asking,
    (calls Demo.env s (answering 10)).map (fun c => (c.1.entry c.2).isSatisfied) = [true] := by decide
  obtain ⟨c,called,satisfied⟩ := List.map_eq_singleton_iff.mp single
  obtain ⟨i,interest,lifetime⟩ := ok_of_mem (by decide :
    ∃ i ∈ (InterestPacket.wireDecode sampleSha true (lifetimeWire 2000)).toOption, i.interestLifetime.toInt = 2000)
  have data : (({} : DataPacket).wireDecode (freshnessWire 10)).raised = none ∧
      (({} : DataPacket).wireDecode (freshnessWire 10)).after.metaInfo.freshnessPeriod.toInt = 10 := by decide
  have moderate : (answering 10).Moderate := by
    rintro _ ⟨⟩
    exact ⟨freshnessWire 10,_,congrArg (DataCall.mk · _) data.1,data.2.symm,by decide⟩
  have plain : asking.Moderate := by
    intro _ never
    cases never
  have path : Transition.Guarded (step Demo.env) Constructed (fun _ event => event.Moderate) s :=
    .next (.start ⟨node_initial,rfl⟩) plain asked
  refine ⟨s,c,asked,called,satisfied,asserted s _ path moderate c (called ▸ List.mem_singleton_self c) satisfied,?_,?_⟩
  · exact (interests sampleSha true (lifetimeWire 2000) i { name := [testApp],nonce := 1,lifetime := 2000 } interest
      lifetime.symm).mpr (by decide)
  · exact (packets (freshnessWire 10) _ { name := requestName,freshnessPeriod := 10 } (congrArg (DataCall.mk · _) data.1)
      data.2.symm).mpr (by decide)

-- Two numbers that the decoders take for negative ones, and a Data for which
-- the assertion fails.
theorem negative_lifetimes :
    (∃ i, InterestPacket.wireDecode sampleSha true (lifetimeWire (2 ^ 63)) = .ok i ∧ i.interestLifetime.toInt = -2 ^ 63) ∧
    (∃ d, ({} : DataPacket).wireDecode (freshnessWire (2 ^ 64 - 1)) = ⟨none,d⟩ ∧ d.metaInfo.freshnessPeriod.toInt = -1) ∧
    plusMilliseconds 5 (-2 ^ 63) = none ∧
    ∃ s c, step Demo.env (node .bestRoute) asking = some s ∧ calls Demo.env s (answering (-1)) = [c] ∧ ¬ Asserted c.1 c.2 := by
  obtain ⟨s,asked,single⟩ : ∃ s ∈ step Demo.env (node .bestRoute) asking,
    (calls Demo.env s (answering (-1))).map (fun c => decide (Asserted c.1 c.2)) = [false] := by decide
  obtain ⟨c,called,fails⟩ := List.map_eq_singleton_iff.mp single
  have data : (({} : DataPacket).wireDecode (freshnessWire (2 ^ 64 - 1))).raised = none ∧
      (({} : DataPacket).wireDecode (freshnessWire (2 ^ 64 - 1))).after.metaInfo.freshnessPeriod.toInt = -1 := by decide
  exact ⟨ok_of_mem (by decide),⟨_,congrArg (DataCall.mk · _) data.1,data.2⟩,by decide,s,c,asked,called,of_decide_eq_false fails⟩

end ReflexiveNfd

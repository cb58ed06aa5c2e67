import ReflexiveNfd.DataCodec

namespace ReflexiveNfd
open Tlv List Block Results Option

structure MetaInfoObject where
  fields : MetaInfo := {}
  wire : Block := ⟨invalidType,[],[]⟩
  deriving DecidableEq, Repr

namespace MetaInfoObject

def wireEncode (m : MetaInfoObject) : MetaInfoObject × Block :=
  if m.wire.wire ≠ [] then (m,m.wire) else ({ m with wire := m.fields.wireEncode },m.fields.wireEncode)

def wireDecode (m : MetaInfoObject) (wire : Block) : Except (DataError × MetaInfoObject) MetaInfoObject :=
  ((m.fields.wireDecode wire).map (fun fields => ⟨fields,wire⟩)).mapError (fun failed => (failed.1,⟨failed.2,wire⟩))

end MetaInfoObject

namespace MetaInfo
variable {m after : MetaInfo} {elements rest : List Block}

theorem readField_anywhere {w : MetaInfo → MetaInfo → MetaInfo} {read : MetaInfo → Block → Except (DataError × MetaInfo) MetaInfo}
    (found : ∀ b, read m b = .ok after → ∀ k, read k b = .ok (w k after)) (missing : ∀ k, absent k = w k (absent m))
    (decoded : readField n read absent m elements = .ok (after,rest)) :
    (∀ k, readField n read absent k elements = .ok (w k after,rest)) ∧
      ∀ later, elements.map Block.type <+ n :: later ↔ rest.map Block.type <+ later := by
  cases elements with
  | nil =>
    cases decoded
    exact ⟨fun k => by rw [readField,missing],fun later => by simp⟩
  | cons b others =>
    rw [readField] at decoded
    split at decoded
    · rename_i typed
      obtain ⟨next,taken,⟨⟩⟩ := map_parts decoded
      refine ⟨fun k => ?_,fun later => ?_⟩
      · rw [readField,if_pos typed,found b taken k]
        rfl
      · rw [map_cons,typed,cons_sublist_cons]
    · rename_i other
      cases decoded
      refine ⟨fun k => by rw [readField,if_neg other,missing],fun later => ?_⟩
      rw [map_cons,cons_sublist_cons',or_iff_left (fun same => other same.1)]

theorem readContentType_anywhere (read : readContentType m b = .ok after) (k : MetaInfo) :
    readContentType k b = .ok { k with type := after.type } := by
  grind [readContentType]

theorem readFreshnessPeriod_anywhere (read : readFreshnessPeriod m b = .ok after) (k : MetaInfo) :
    readFreshnessPeriod k b = .ok { k with freshnessPeriod := after.freshnessPeriod } := by
  grind [readFreshnessPeriod]

theorem readFinalBlockId_anywhere (read : readFinalBlockId m b = .ok after) (k : MetaInfo) :
    readFinalBlockId k b = .ok { k with finalBlockId := after.finalBlockId } := by
  grind [readFinalBlockId]

theorem decodeElements_anywhere (decoded : ({} : MetaInfo).decodeElements elements = .ok after) :
    (∀ k : MetaInfo, k.decodeElements elements = .ok { after with appMetaInfo := k.appMetaInfo ++ after.appMetaInfo }) ∧
      (after.appMetaInfo = [] ↔ elements.map Block.type <+ [tlvContentType,tlvFreshnessPeriod,tlvFinalBlockId]) := by
  obtain ⟨⟨typed,afterType⟩,first,others⟩ := bind_parts decoded
  obtain ⟨⟨fresh,afterFreshness⟩,second,others⟩ := bind_parts others
  obtain ⟨⟨final,rest⟩,third,_⟩ := bind_parts others
  obtain ⟨one,types⟩ := readField_anywhere (w := fun k a => { k with type := a.type }) (fun _ read k => readContentType_anywhere read k)
    (fun _ => rfl) first
  obtain ⟨two,periods⟩ := readField_anywhere (w := fun k a => { k with freshnessPeriod := a.freshnessPeriod })
    (fun _ read k => readFreshnessPeriod_anywhere read k) (fun _ => rfl) second
  obtain ⟨three,finals⟩ := readField_anywhere (w := fun k a => { k with finalBlockId := a.finalBlockId })
    (fun _ read k => readFinalBlockId_anywhere read k) (fun _ => rfl) third
  have whole (k : MetaInfo) : k.decodeElements elements =
      .ok ⟨typed.type,fresh.freshnessPeriod,final.finalBlockId,k.appMetaInfo ++ rest⟩ := by
    simp only [decodeElements,one,two,three,bind,Except.bind]
  cases decoded.symm.trans (whole {})
  refine ⟨whole,?_⟩
  rw [types,periods,finals,sublist_nil,map_eq_nil_iff]
  rfl

end MetaInfo

namespace MetaInfoObject

theorem wireDecode_fresh_iff {wire : Block} (m : MetaInfoObject) (accepted : ({} : MetaInfoObject).wireDecode wire = .ok fresh) :
    (∃ after again, m.wireDecode wire = .ok after ∧ after.fields = fresh.fields ∧ after.wireEncode.2 = fresh.wireEncode.2 ∧
      after.wireDecode wire = .ok again ∧ again = after) ↔
    m.fields.appMetaInfo = [] ∧ ∃ elements, wire.parse = some elements ∧
      elements.map Block.type <+ [tlvContentType,tlvFreshnessPeriod,tlvFinalBlockId] := by
  cases parsed : wire.parse with
  | none => simp [wireDecode,MetaInfo.wireDecode,parsed,Except.map,Except.mapError] at accepted
  | some elements =>
    cases decoded : ({} : MetaInfo).decodeElements elements with
    | error => simp [wireDecode,MetaInfo.wireDecode,parsed,decoded,Except.map,Except.mapError] at accepted
    | ok read =>
      obtain ⟨anywhere,known⟩ := MetaInfo.decodeElements_anywhere decoded
      have decodes (k : MetaInfoObject) : k.wireDecode wire =
          .ok ⟨{ read with appMetaInfo := k.fields.appMetaInfo ++ read.appMetaInfo },wire⟩ := by
        simp [wireDecode,MetaInfo.wireDecode,parsed,anywhere,Except.map,Except.mapError]
      cases accepted.symm.trans (decodes {})
      constructor
      · rintro ⟨after,again,first,same,_,second,unchanged⟩
        cases first.symm.trans (decodes m)
        cases second.symm.trans (decodes _)
        have bare := append_cancel_right (congrArg MetaInfo.appMetaInfo same)
        have none := append_right_eq_self.mp (congrArg (fun k => k.fields.appMetaInfo) unchanged)
        exact ⟨bare,elements,rfl,known.mp none⟩
      · rintro ⟨bare,_,⟨⟩,types⟩
        have none := known.mpr types
        refine ⟨_,_,decodes m,?_,?_,decodes _,?_⟩
        · rw [bare]
        · rw [bare]
        · simp [none]

theorem wireDecode_fresh_instance : ∃ fresh after again : MetaInfoObject,
    ({} : MetaInfoObject).wireDecode (make tlvMetaInfo [25,1,4]) = .ok fresh ∧
    (⟨⟨6,1,none,[]⟩,⟨invalidType,[],[]⟩⟩ : MetaInfoObject).wireDecode (make tlvMetaInfo [25,1,4]) = .ok after ∧ after.fields = fresh.fields ∧
    after.wireEncode.2 = fresh.wireEncode.2 ∧ after.wireDecode (make tlvMetaInfo [25,1,4]) = .ok again ∧ again = after := by
  have accepted : ({} : MetaInfoObject).wireDecode (make tlvMetaInfo [25,1,4]) = .ok _ := rfl
  have parsed : (make tlvMetaInfo [25,1,4]).parse = some [⟨25,[25,1,4],[4]⟩] := rfl
  obtain ⟨after,again,decoded⟩ := (wireDecode_fresh_iff ⟨⟨6,1,none,[]⟩,⟨invalidType,[],[]⟩⟩ accepted).mpr ⟨rfl,_,parsed,by decide⟩
  exact ⟨_,after,again,accepted,decoded⟩

-- An application element is there once after the first call and twice after the
-- second.
theorem wireDecode_appends_again : ∃ once twice : MetaInfoObject,
    ({} : MetaInfoObject).wireDecode (make tlvMetaInfo [128,0]) = .ok once ∧ once.wireDecode (make tlvMetaInfo [128,0]) = .ok twice ∧
    once.fields.appMetaInfo.length = 1 ∧ twice.fields.appMetaInfo.length = 2 := ⟨_,_,rfl,rfl,rfl,rfl⟩

end MetaInfoObject
end ReflexiveNfd

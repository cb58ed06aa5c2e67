import Mathlib.Data.List.MinMax
import ReflexiveNfd.Representation

namespace ReflexiveNfd
open Actions Timers List Option Transition Keyed
open Demo hiding env

-- What a node and its upstreams say to each other. A Nack counts where only one
-- peer can have meant the Interest.
inductive Exchange where
  | sent (face : Face) (interest : Interest)
  | nacked (face : Face) (nack : Nack)
  deriving DecidableEq, Repr

def Effect.upstream : Effect → Option Exchange
  | .interest egress packet => some (.sent egress packet)
  | _ => none

def heard : Event → List Exchange
  | .nack nack ingress => if ingress.linkType = .pointToPoint then [.nacked ingress nack] else []
  | _ => []

def exchanged (event : Event) (sent : List Effect) : List Exchange := (sent.filterMap Effect.upstream).reverse ++ heard event

-- The last Interest sent on the face under the key, with the Nack it has got
-- since.
def lastSent (face : Face) (key : Key) : List Exchange → Option (Interest × Option NackReason)
  | [] => none
  | .sent egress i :: older => if egress = face ∧ i.key = key then some (i,none) else lastSent face key older
  | .nacked ingress nack :: older => (lastSent face key older).map fun last =>
    if ingress = face ∧ nack.interest.key = key ∧ nack.interest.nonce = last.1.nonce then (last.1,some nack.reason) else last

abbrev Correspondence := Recorded State (List Exchange)

def correspond (env : Env) : Correspondence → Event → Option Correspondence :=
  record (step env) (fun s event => (step env s event).map (fun t => exchanged event t.sent))

def Unspoken : Correspondence → Prop := Unrecorded Initial

def log (h : Correspondence) : List Exchange := h.records.flatten

-- Every out-record has the nonce of the last Interest sent on its face for its
-- entry, and the Nack that Interest has got.
def Acknowledged (s : State) (log : List Exchange) : Prop :=
  ∀ e ∈ s.pit, ∀ r ∈ e.outRecords, ∃ i, lastSent r.face e.key log = some (i,r.incomingNack) ∧ i.nonce = r.lastNonce

def Unnacked (env : Env) (s : State) (event : Event) : Prop :=
  ∀ id face, Sends env s event id face → ∀ e ∈ s.pit, e.id = id → ∀ r ∈ e.outRecords, r.face = face → r.incomingNack = none

variable {env : Env} {strategy : Strategy} {s t u : State} {e e' : Entry} {id : EntryId} {ingress : Face} {i : Interest}
  {nack : Nack} {move : Move} {key : Key} {h k : Correspondence} {r : OutRecord}

theorem correspond_parts (taken : correspond env h event = some k) :
    step env h.current event = some k.current ∧ log k = exchanged event k.current.sent ++ log h := by
  obtain ⟨next,records⟩ := record_parts taken
  refine ⟨next,?_⟩
  rw [log,records,next]
  rfl

theorem lastSent_unmoved (apart : ∀ i reason, lastSent face key older = some (i,reason) →
    ¬ (ingress = face ∧ nack.interest.key = key ∧ nack.interest.nonce = i.nonce)) :
    lastSent face key (.nacked ingress nack :: older) = lastSent face key older := by
  rw [lastSent]
  cases last : lastSent face key older with
  | none => rfl
  | some latest => rw [map_some,if_neg (apart latest.1 latest.2 last)]

def Inherits (s t : State) : Prop :=
  ∀ e' ∈ t.pit, ∀ r' ∈ e'.outRecords, ∃ e ∈ s.pit, e.id = e'.id ∧ e.key = e'.key ∧ ∃ r ∈ e.outRecords, r.facts = r'.facts

namespace Inherits

theorem same (pit : t.pit = s.pit) : Inherits s t := fun e present r listed => ⟨e,pit ▸ present,rfl,rfl,r,listed,rfl⟩

theorem mapped (mapped : t.pit = s.pit.map f) (kept : ∀ e, (f e).id = e.id ∧ (f e).key = e.key ∧
    ∀ r' ∈ (f e).outRecords, ∃ r ∈ e.outRecords, r.facts = r'.facts) : Inherits s t := by
  intro e' present r' listed
  rw [mapped] at present
  obtain ⟨e,inside,rfl⟩ := mem_map.mp present
  obtain ⟨id,key,records⟩ := kept e
  exact ⟨e,inside,id.symm,key.symm,records r' listed⟩

theorem modifyEntry (kept : ∀ e, (f e).id = e.id ∧ (f e).key = e.key ∧
    ∀ r' ∈ (f e).outRecords, ∃ r ∈ e.outRecords, r.facts = r'.facts) : Inherits s (s.modifyEntry id f) := by
  refine .mapped (f := fun e => if e.id = id then f e else e) rfl (fun e => ?_)
  split
  · exact kept e
  · exact ⟨rfl,rfl,fun r listed => ⟨r,listed,rfl⟩⟩

theorem calm (calm : Calm s t) : Inherits s t := by
  obtain ⟨f,mapped,kept⟩ := calm.entries
  refine .mapped mapped (fun e => ⟨(kept e).1.id,(kept e).1.key,fun r' listed => ?_⟩)
  exact mem_map.mp ((kept e).2 ▸ mem_map_of_mem listed)

end Inherits

def Move.writes : Move → Bool
  | .transmit .. | .setIncomingNack .. => true
  | _ => false

theorem Permitted.upstream (permitted : Permitted env s event u move) (plain : move.writes = false) :
    (enact env u move).sent.filterMap Effect.upstream = u.sent.filterMap Effect.upstream := by
  cases permitted with
  | aside changed =>
    obtain ⟨answers,equal,none⟩ := changed.sent
    have quiet : answers.filterMap Effect.upstream = [] := by
      refine filterMap_eq_nil_iff.mpr (fun w listed => ?_)
      cases w with
      | interest f p => exact absurd rfl (none _ listed f p)
      | data | nack => rfl
    rw [enact,equal,filterMap_append,quiet,append_nil]
  | transmit | setIncomingNack => cases plain
  | retire => rw [enact,show State.sent (State.modifyEntry _ _ _) = _ from insertDeadNonceList_sent]
  | finalize => rw [enact,finalize_sent]
  | setStrategy =>
    obtain ⟨_,_,_,equal⟩ := strategy_form.1 _
    rw [enact,equal]
  | unsetStrategy =>
    obtain ⟨_,_,_,equal⟩ := strategy_form.2
    rw [enact,equal]
  | _ => rfl

theorem Permitted.inherits (permitted : Permitted env s event u move) (plain : move.writes = false) (represented : Represented u) :
    Inherits u (enact env u move) := by
  have calm : move.marks = false → Inherits u (enact env u move) := fun quiet => .calm (permitted.calm quiet)
  cases permitted with
  | insert =>
    intro e present r listed
    rcases mem_append.mp present with old | new
    · exact ⟨e,old,rfl,rfl,r,listed,rfl⟩
    · cases mem_singleton.mp new
      cases listed
  | insertInRecord => exact .modifyEntry (fun _ => ⟨rfl,rfl,fun r listed => ⟨r,listed,rfl⟩⟩)
  | retire =>
    obtain ⟨d,equal⟩ := insertDeadNonceList_form env u _ (some _)
    rw [enact,equal]
    exact .modifyEntry (s := { u with deadNonceList := d }) (fun _ => ⟨rfl,rfl,fun r listed => ⟨r,mem_of_mem_eraseP listed,rfl⟩⟩)
  | finalize alive =>
    obtain ⟨e,found⟩ := alive
    intro x present r listed
    rw [enact,finalize_pit found] at present
    exact ⟨x,((Pit.mem_erase represented.ids (Pit.get_id found).1).mp present).1,rfl,rfl,r,listed,rfl⟩
  | addFace => exact .same rfl
  | removeFace => exact .mapped rfl (fun _ => ⟨rfl,rfl,fun r listed => ⟨r,mem_of_mem_eraseP listed,rfl⟩⟩)
  | transmit | setIncomingNack => cases plain
  | _ => exact calm rfl

structure Corresponding (env : Env) (s : State) (event : Event) (before : List Exchange) (u : State) : Prop where
  represented : Represented u
  acknowledged : Acknowledged u (exchanged event u.sent ++ before)
  unnacked : ∀ id face, Sends env s event id face → ∀ e ∈ u.pit, e.id = id → ∀ r ∈ e.outRecords, r.face = face → r.incomingNack = none
  silent : heard event ≠ [] → u.sent.filterMap Effect.upstream = []

theorem exchanged_interest : exchanged event (sent ++ [.interest egress i]) = .sent egress i :: exchanged event sent := by
  simp [exchanged,Effect.upstream]

theorem Corresponding.inherit (corresponding : Corresponding env s event older u) (represented : Represented t) (inherits : Inherits u t)
    (same : t.sent.filterMap Effect.upstream = u.sent.filterMap Effect.upstream) : Corresponding env s event older t := by
  have equal : exchanged event t.sent = exchanged event u.sent := by rw [exchanged,exchanged,same]
  refine ⟨represented,fun e' present r' listed => ?_,fun id face sends e' present named r' listed facing => ?_,fun some => ?_⟩
  · obtain ⟨e,inside,_,key,r,there,facts⟩ := inherits e' present r' listed
    obtain ⟨i,last,nonce⟩ := corresponding.acknowledged e inside r there
    simp only [OutRecord.facts,Prod.mk.injEq] at facts
    obtain ⟨face,lastNonce,_,_,incomingNack⟩ := facts
    rw [equal,← face,← key,← incomingNack,← lastNonce]
    exact ⟨i,last,nonce⟩
  · obtain ⟨e,inside,id,_,r,there,facts⟩ := inherits e' present r' listed
    simp only [OutRecord.facts,Prod.mk.injEq] at facts
    rw [← facts.2.2.2.2]
    exact corresponding.unnacked _ _ sends e inside (id.trans named) r there (facts.1.trans facing)
  · rw [same]
    exact corresponding.silent some

theorem Corresponding.transmit (corresponding : Corresponding env s event older u) (meets : Meets u object own)
    (sends : Sends env s event own egress) : Corresponding env s event older (enact env u (.transmit object egress own)) := by
  obtain ⟨_,holder,inside,named,same⟩ := meets
  have recorded : ∀ e ∈ u.pit, ∀ r ∈ (if e.id = own then e.insertOrUpdateOutRecord egress u.now (u.interest object) else e).outRecords,
      (r ∈ e.outRecords ∧ ¬ (egress = r.face ∧ (u.interest object).key = e.key)) ∨
        (e = holder ∧ r.face = egress ∧ r.lastNonce = (u.interest object).nonce ∧ r.incomingNack = none) := by
    intro e present r listed
    split at listed
    · rename_i mine
      have distinct := (corresponding.represented.entries e present).outRecords
      simp only [Entry.insertOrUpdateOutRecord] at listed
      obtain rfl := inj_on_of_nodup_map corresponding.represented.ids present inside (mine.trans named.symm)
      rcases mem_upsert distinct listed with ⟨old,apart⟩ | ⟨old,there,facing,rfl⟩ | ⟨_,rfl⟩
      · exact .inl ⟨old,fun both => apart both.1.symm⟩
      · exact .inr ⟨rfl,facing,rfl,corresponding.unnacked _ _ sends e present mine old there facing⟩
      · exact .inr ⟨rfl,rfl,rfl,rfl⟩
    · rename_i other
      refine .inl ⟨listed,fun both => other ?_⟩
      rw [inj_on_of_nodup_map corresponding.represented.keys present inside (both.2.symm.trans same),named]
  have quiet : heard event = [] := by
    cases event with
    | nack => exact sends.elim
    | _ => rfl
  refine ⟨transmit_represented corresponding.represented,fun e' present r listed => ?_,
    fun id face chosen e' present mine r listed facing => ?_,fun some => absurd quiet some⟩
  · obtain ⟨e,there,rfl⟩ := mem_map.mp present
    have key : (if e.id = own then e.insertOrUpdateOutRecord egress u.now (u.interest object) else e).key = e.key := by split <;> rfl
    rw [enact,transmit_sent,exchanged_interest,cons_append,key]
    rcases recorded e there r listed with ⟨old,apart⟩ | ⟨rfl,facing,nonce,unanswered⟩
    · rw [lastSent,if_neg apart]
      exact corresponding.acknowledged e there r old
    · exact ⟨u.interest object,by rw [lastSent,if_pos ⟨facing.symm,same⟩,unanswered],nonce.symm⟩
  · obtain ⟨e,there,rfl⟩ := mem_map.mp present
    have id : (if e.id = own then e.insertOrUpdateOutRecord egress u.now (u.interest object) else e).id = e.id := by split <;> rfl
    rcases recorded e there r listed with ⟨old,_⟩ | ⟨_,_,_,unanswered⟩
    · exact corresponding.unnacked _ _ chosen e there (id.symm.trans mine) r old facing
    · exact unanswered

theorem noted_records (distinct : Distinct OutRecord.face e.outRecords) (recorded : e.getOutRecord face = some r)
    (listed : r' ∈ (e.updateOutRecord face (fun r => { r with incomingNack := some reason })).outRecords) :
    (r' ∈ e.outRecords ∧ r'.face ≠ face) ∨ r' = { r with incomingNack := some reason } := by
  rcases mem_modifyFirst distinct listed with apart | ⟨old,there,facing,rfl⟩
  · exact .inl apart
  · obtain ⟨inside,same⟩ := lookup_mem recorded
    exact .inr (by rw [inj_on_of_nodup_map distinct there inside (facing.trans same.symm)])

theorem noted_acknowledged (represented : Represented u) (acknowledged : Acknowledged u older)
    (found : u.pit.find nack.interest = some e) (recorded : e.getOutRecord face = some r) (matching : r.lastNonce = nack.interest.nonce) :
    Acknowledged (enact env u (.setIncomingNack e.id face nack.reason)) (.nacked face nack :: older) := by
  obtain ⟨inside,keyed⟩ := Pit.find_found found
  have keep : ∀ x ∈ u.pit, ∀ y ∈ x.outRecords, ¬ (x.id = e.id ∧ y.face = face) →
      ∃ i, lastSent y.face x.key (.nacked face nack :: older) = some (i,y.incomingNack) ∧ i.nonce = y.lastNonce := by
    intro x present y listed apart
    obtain ⟨i,last,nonce⟩ := acknowledged x present y listed
    refine ⟨i,?_,nonce⟩
    rw [lastSent_unmoved,last]
    rintro _ _ _ ⟨facing,key,_⟩
    have same := inj_on_of_nodup_map represented.keys present inside (key.symm.trans keyed.symm)
    exact apart ⟨congrArg Entry.id same,facing.symm⟩
  intro x' present y' listed
  obtain ⟨x,there,rfl⟩ := mem_map.mp present
  split at listed
  · rename_i mine
    obtain rfl := inj_on_of_nodup_map represented.ids there inside mine
    rw [if_pos mine]
    rcases noted_records (represented.entries x there).outRecords recorded listed with ⟨old,apart⟩ | rfl
    · exact keep x there y' old (fun both => apart both.2)
    · obtain ⟨old,facing⟩ := lookup_mem recorded
      obtain ⟨i,last,nonce⟩ := acknowledged x there r old
      have key : (x.updateOutRecord face (fun r => { r with incomingNack := some nack.reason })).key = nack.interest.key := keyed
      refine ⟨i,?_,nonce⟩
      rw [key]
      change r.face = face at facing
      rw [keyed] at last
      rw [lastSent,last,map_some,if_pos ⟨facing.symm,rfl,matching.symm.trans nonce.symm⟩]
  · rename_i other
    rw [if_neg other]
    exact keep x there y' listed (fun both => other both.1)

theorem ignored_acknowledged (represented : Represented u) (acknowledged : Acknowledged u older)
    (ignored : ∀ e r, u.pit.find nack.interest = some e → e.getOutRecord face = some r → r.lastNonce ≠ nack.interest.nonce) :
    Acknowledged u (.nacked face nack :: older) := by
  intro e present r listed
  obtain ⟨i,last,nonce⟩ := acknowledged e present r listed
  refine ⟨i,?_,nonce⟩
  rw [lastSent_unmoved,last]
  intro i' reason' last' ⟨facing,key,same⟩
  cases last.symm.trans last'
  have recorded : e.getOutRecord face = some r := by
    rw [facing]
    exact lookup_distinct (represented.entries e present).outRecords listed
  exact ignored e r (Pit.find_unique represented.keys present key) recorded (nonce.symm.trans same.symm)

theorem renoted_inherits (represented : Represented u) (acknowledged : Acknowledged u (.nacked face nack :: older))
    (found : u.pit.find nack.interest = some e) (recorded : e.getOutRecord face = some r) (matching : r.lastNonce = nack.interest.nonce) :
    Inherits u (enact env u (.setIncomingNack e.id face nack.reason)) := by
  obtain ⟨inside,keyed⟩ := Pit.find_found found
  obtain ⟨there,facing⟩ := lookup_mem recorded
  have already : r.incomingNack = some nack.reason := by
    obtain ⟨i,last,nonce⟩ := acknowledged e inside r there
    rw [show r.face = face from facing,keyed,lastSent] at last
    obtain ⟨latest,_,equal⟩ := map_eq_some_iff.mp last
    split at equal
    · exact (congrArg Prod.snd equal).symm
    · rename_i apart
      refine absurd ⟨rfl,rfl,?_⟩ apart
      rw [equal,nonce,matching]
  intro x' present y' listed
  obtain ⟨x,old,rfl⟩ := mem_map.mp present
  split at listed
  · rename_i mine
    obtain rfl := inj_on_of_nodup_map represented.ids old inside mine
    rw [if_pos mine]
    refine ⟨x,old,rfl,rfl,?_⟩
    rcases noted_records (represented.entries x old).outRecords recorded listed with ⟨kept,_⟩ | rfl
    · exact ⟨y',kept,rfl⟩
    · exact ⟨r,there,by rw [OutRecord.facts,OutRecord.facts,already]⟩
  · rename_i other
    rw [if_neg other]
    exact ⟨x,old,rfl,rfl,y',listed,rfl⟩

theorem permitted_corresponding (corresponding : Corresponding env s event older u) (permitted : Permitted env s event u move) :
    Corresponding env s event older (enact env u move) := by
  have represented := permitted_represented corresponding.represented permitted
  have plain : move.writes = false → Corresponding env s event older (enact env u move) := fun plain =>
    corresponding.inherit represented (permitted.inherits plain corresponding.represented) (permitted.upstream plain)
  cases permitted with
  | transmit meets sends => exact corresponding.transmit meets sends
  | setIncomingNack noted =>
    obtain ⟨nack,rfl,rfl,direct,e,r,found,rfl,recorded,matching⟩ := noted
    have single : heard (.nack nack _) = [.nacked _ nack] := if_pos direct
    have acknowledged := corresponding.acknowledged
    rw [exchanged,corresponding.silent (by simp [single]),single] at acknowledged
    exact corresponding.inherit represented (renoted_inherits corresponding.represented acknowledged found recorded matching) rfl
  | _ => exact plain rfl

theorem moves_corresponding (corresponding : Corresponding env s event older u) (moves : Moves env s event u t) :
    Corresponding env s event older t :=
  moves.invariant (I := Corresponding env s event older) (fun _ _ => permitted_corresponding) corresponding

theorem handle_acknowledged (sound : Sound env s) (timely : Timely s) (represented : Represented s) (silent : s.sent = [])
    (acknowledged : Acknowledged s older) (unnacked : Unnacked env s event) (handled : handle env s event = some t) :
    Acknowledged t (exchanged event t.sent ++ older) := by
  have started : heard event = [] → Corresponding env s event older s := fun quiet =>
    ⟨represented,by rw [exchanged,silent,quiet]; exact acknowledged,unnacked,fun some => absurd quiet some⟩
  have unheard : heard event = [] → Acknowledged t (exchanged event t.sent ++ older) := fun quiet =>
    (moves_corresponding (started quiet) (handle_moves sound timely represented handled)).acknowledged
  cases event with
  | nack nack ingress =>
    by_cases direct : ingress.linkType = .pointToPoint
    · have single : heard (.nack nack ingress) = [.nacked ingress nack] := if_pos direct
      obtain ⟨_,⟨⟩⟩ := ite_none_right_eq_some.mp handled
      obtain ⟨_,equal,outcome⟩ := nack_outcome env s nack ingress
      rw [equal]
      cases outcome with
      | ignored none =>
        rw [exchanged,silent,single]
        exact ignored_acknowledged represented acknowledged (fun e r => none e r direct)
      | @noted e r u _ found recorded matching after =>
        have written : Corresponding env s (.nack nack ingress) older (enact env s (.setIncomingNack e.id ingress nack.reason)) := by
          have noted : Permitted env s (.nack nack ingress) s (.setIncomingNack e.id ingress nack.reason) :=
            .setIncomingNack ⟨nack,rfl,rfl,direct,e,r,found,rfl,recorded,matching⟩
          have sent : (enact env s (.setIncomingNack e.id ingress nack.reason)).sent = [] := silent
          refine ⟨permitted_represented represented noted,?_,fun _ _ => False.elim,fun _ => by rw [sent]; rfl⟩
          rw [exchanged,sent,single]
          exact noted_acknowledged represented acknowledged found recorded matching
        exact (moves_corresponding written (noted_moves sound (Pit.find_found found).1 after)).acknowledged
    · exact unheard (if_neg direct)
  | _ => exact unheard rfl

theorem Unnacked.cleared (unnacked : Unnacked env s event) : Unnacked env { s with sent := [] } event :=
  fun id face sends => unnacked id face sends.uncleared

def severity : NackReason → Nat
  | .congestion => 0
  | .duplicate => 1
  | .noRoute => 2
  | .none => 3

theorem isLessSevere_exact : isLessSevere a b = false ↔ severity b ≤ severity a := by
  cases a <;> cases b <;> decide

-- The scan is Mathlib's argmin by severity.
theorem leastSevere_argmin (reasons : List NackReason) (start : NackReason) :
    some (reasons.foldl (fun least r => if isLessSevere r least then r else least) start) = (start :: reasons).argmin severity := by
  rw [argmin,foldl_cons]
  change _ = foldl _ (some start) reasons
  induction reasons generalizing start with
  | nil => rfl
  | cons head rest ih =>
    have same : argAux (fun b c => severity b < severity c) (some start) head = some (if isLessSevere head start then head else start) := by
      cases start <;> cases head <;> rfl
    rw [foldl_cons,foldl_cons,same,← ih]

theorem leastSevereReason_least (recorded : r ∈ e.outRecords) (nacked : r.incomingNack = some reason) :
    (∃ x ∈ e.outRecords, x.incomingNack = some (leastSevereReason e)) ∧
    ∀ x ∈ e.outRecords, ∀ other, x.incomingNack = some other → isLessSevere other (leastSevereReason e) = false := by
  have chosen : (NackReason.none :: e.outRecords.filterMap OutRecord.incomingNack).argmin severity = some (leastSevereReason e) :=
    (leastSevere_argmin ..).symm
  have minimal : ∀ x ∈ e.outRecords, ∀ other, x.incomingNack = some other → isLessSevere other (leastSevereReason e) = false :=
    fun x listed other equal => isLessSevere_exact.mpr (le_of_mem_argmin (mem_cons_of_mem _ (mem_filterMap.mpr ⟨x,listed,equal⟩)) chosen)
  refine ⟨?_,minimal⟩
  rcases mem_cons.mp (argmin_mem chosen) with none | listed
  · have bottom := minimal r recorded reason nacked
    rw [none] at bottom ⊢
    cases reason <;> first | exact ⟨r,recorded,nacked⟩ | cases bottom
  · exact mem_filterMap.mp listed

theorem sendNacks_reason (faces : List Face)
    (listed : .nack f n ∈ (faces.foldl (fun s face => onOutgoingNack s reason face id) s).sent) :
    .nack f n ∈ s.sent ∨ n.reason = reason := by
  induction faces generalizing s with
  | nil => exact .inl listed
  | cons face faces ih =>
    rcases ih listed with old | same
    · rcases onOutgoingNack_sent old with older | ⟨_,⟨⟩,same⟩
      · exact .inl older
      · exact .inr same
    · exact .inr same

theorem onOutgoingNack_steady : Steady s (onOutgoingNack s reason egress id) := by
  unfold onOutgoingNack
  split
  · exact .same rfl
  · split
    · exact .same rfl
    · split
      · exact .same rfl
      · have deleted : Steady s (s.deleteInRecord id egress) := .modifyEntry (fun _ => ⟨rfl,rfl,rfl,rfl⟩)
        exact deleted.trans (.same rfl)

theorem sendNacks_steady (faces : List Face) : Steady s (faces.foldl (fun s face => onOutgoingNack s reason face id) s) := by
  induction faces generalizing s with
  | nil => exact .same rfl
  | cons face faces ih => exact onOutgoingNack_steady.trans ih

theorem processNack_steady : Steady s (processNack s id) := by
  unfold processNack
  dsimp only
  split
  · exact sendNacks_steady _
  · split
    · exact onOutgoingNack_steady
    · exact .same rfl
  · exact .same rfl

theorem processNack_sent (listed : .nack f n ∈ (processNack s id).sent) (silent : .nack f n ∉ s.sent) :
    n.reason = leastSevereReason (s.entry id) ∧
      ∀ r ∈ (s.entry id).outRecords, r.face ≠ f → ∃ reason, r.incomingNack = some reason := by
  unfold processNack at listed
  dsimp only at listed
  split at listed
  · rename_i none
    refine ⟨(sendNacks_reason _ listed).resolve_left silent,fun r inside _ => ?_⟩
    have nacked := filter_eq_nil_iff.mp none r inside
    exact ne_none_iff_exists'.mp (by simpa using nacked)
  · rename_i notNacked only
    split at listed
    · obtain ⟨_,⟨⟩,equal⟩ := (onOutgoingNack_sent listed).resolve_left silent
      refine ⟨equal,fun r inside apart => ?_⟩
      cases nacked : r.incomingNack with
      | some reason => exact ⟨reason,rfl⟩
      | none =>
        have mine : r ∈ (s.entry id).outRecords.filter (fun r => r.incomingNack.isNone) :=
          mem_filter.mpr ⟨inside,by simp [nacked]⟩
        rw [only] at mine
        exact absurd (congrArg OutRecord.face (mem_singleton.mp mine)) apart
    · exact absurd listed silent
  · exact absurd listed silent

theorem afterReceiveNack_processes (kind : strategy.kind = .bestRoute ∨ strategy.kind = .random) :
    afterReceiveNack strategy s reason id = processNack s id := by
  unfold afterReceiveNack
  rcases kind with kind | kind <;> rw [kind]

structure Relayed (e : Entry) (face : Face) (n : Nack) : Prop where
  nacked : ∀ r ∈ e.outRecords, r.face ≠ face → ∃ reason, r.incomingNack = some reason
  recorded : ∃ r ∈ e.outRecords, r.incomingNack = some n.reason
  least : ∀ r ∈ e.outRecords, ∀ reason, r.incomingNack = some reason → isLessSevere reason n.reason = false

theorem nack_relayed (sound : Sound env s) (silent : s.sent = []) (found : s.pit.find nack.interest = some e)
    (kind : s.kindOf e.name = .bestRoute ∨ s.kindOf e.name = .random) (listed : .nack f n ∈ (onIncomingNack s nack ingress).sent) :
    ∃ e' ∈ (onIncomingNack s nack ingress).pit, e'.id = e.id ∧ e'.key = e.key ∧ Relayed e' f n := by
  obtain ⟨_,equal,outcome⟩ := nack_outcome env s nack ingress
  rw [equal] at listed ⊢
  cases outcome with
  | ignored => rw [silent] at listed; cases listed
  | @noted e' r u _ found' recorded matching after =>
    cases found.symm.trans found'
    have present := (Pit.find_found found).1
    have marked : Frame s (enact env s (.setIncomingNack e.id ingress nack.reason)) := .modifyEntry remark_outRecord.trimmed
    have settled : Frame s u ∧ Steady (enact env s (.setIncomingNack e.id ingress nack.reason)) u ∧ u.sent = [] := by
      rcases after with rfl | rfl
      · exact ⟨marked,.same rfl,silent⟩
      · exact ⟨marked.trans .setExpiryTimer,.setExpiryTimer,silent⟩
    obtain ⟨frame,steady,quiet⟩ := settled
    have effective : (u.findEffectiveStrategy e.name).kind = s.kindOf e.name := by
      rw [State.findEffectiveStrategy,frame.strategyChoice]
      rfl
    rw [afterReceiveNack_processes (effective ▸ kind)] at listed ⊢
    have relayed : Steady u (processNack u e.id) := processNack_steady
    obtain ⟨reason,others⟩ := processNack_sent listed (by rw [quiet]; exact not_mem_nil)
    have written : (u.entry e.id).outRecords =
        (e.updateOutRecord ingress (fun r => { r with incomingNack := some nack.reason })).outRecords := by
      have held : (enact env s (.setIncomingNack e.id ingress nack.reason)).pit.get e.id =
          some (e.updateOutRecord ingress (fun r => { r with incomingNack := some nack.reason })) :=
        State.get_modifyEntry (fun _ => rfl) (sound.get present)
      rw [steady.entry.2.1,State.entry,held,getD_some]
    obtain ⟨x,named,inside⟩ : ∃ x, x.incomingNack = some nack.reason ∧ x ∈ (u.entry e.id).outRecords := by
      obtain ⟨old,_,_,there⟩ := modifyFirst_has (f := fun r : OutRecord => { r with incomingNack := some nack.reason })
        ⟨r,lookup_mem recorded⟩
      exact ⟨{ old with incomingNack := some nack.reason },rfl,by rw [written]; exact there⟩
    obtain ⟨some,least⟩ := leastSevereReason_least inside named
    -- the entry is still there, with the same out-records
    have acts : Frame u (processNack u e.id) := by
      have conducts : Conducts env e.id { nacks := fun _ => True } u (afterReceiveNack (u.findEffectiveStrategy e.name) u nack.reason e.id) :=
        afterReceiveNack_conducts (fun _ _ _ => trivial)
      rw [afterReceiveNack_processes (effective ▸ kind)] at conducts
      exact conducts.frame
    obtain ⟨there,id⟩ := ((alive_of_mem present).quiet (frame.trans acts).toQuiet).entry
    have same : ((processNack u e.id).entry e.id).outRecords = (u.entry e.id).outRecords := relayed.entry.2.1
    refine ⟨_,there,id,?_,?_,?_,?_⟩
    · rw [(frame.trans acts).entry.key,sound.entry present]
    · rw [same]
      exact others
    · rw [same,reason]
      exact some
    · rw [same,reason]
      exact least

def Mindful (env : Env) (h : Correspondence) (event : Event) : Prop := Unnacked env h.current event

theorem mindful_acknowledged (path : Guarded (correspond env) Unspoken (Mindful env) h) : Acknowledged h.current (log h) := by
  refine path.invariant (P := fun h => Acknowledged h.current (log h)) (fun h start e present => ?_)
    (fun h event k prior acknowledged mindful taken => ?_)
  · rw [start.1.pit] at present
    cases present
  · obtain ⟨next,extended⟩ := correspond_parts taken
    have reached : Reached env h.current := recorded_reached prior
    rw [extended]
    exact handle_acknowledged (reached_sound reached).cleared (reached_timely reached).cleared
      ((reached_represented reached).same rfl) rfl acknowledged mindful.cleared next

theorem nack_state (path : Guarded (correspond env) Unspoken (Mindful env) h) :
    (∀ e ∈ h.current.pit, ∀ r ∈ e.outRecords, ∃ i reason, lastSent r.face e.key (log h) = some (i,reason) ∧ i.nonce = r.lastNonce ∧
      (r.incomingNack ≠ none ↔ reason ≠ none)) ∧
    ∀ nack ingress k e f n, correspond env h (.nack nack ingress) = some k → h.current.pit.find nack.interest = some e →
      (h.current.kindOf e.name = .bestRoute ∨ h.current.kindOf e.name = .random) → .nack f n ∈ k.current.sent →
      ∃ e' ∈ k.current.pit, e'.id = e.id ∧ (e'.outRecords.map OutRecord.face).Nodup ∧
        (∀ r ∈ e'.outRecords, r.face ≠ f → ∃ i reason, lastSent r.face e'.key (log k) = some (i,some reason)) ∧
        (∃ r ∈ e'.outRecords, r.incomingNack = some n.reason) ∧
        ∀ r ∈ e'.outRecords, ∀ reason, r.incomingNack = some reason → isLessSevere reason n.reason = false := by
  constructor
  · intro e present r listed
    obtain ⟨i,last,nonce⟩ := mindful_acknowledged path e present r listed
    exact ⟨i,r.incomingNack,last,nonce,Iff.rfl⟩
  · intro nack ingress k e f n taken found kind listed
    have later := path.next (fun _ _ => False.elim) taken
    have reached : Reached env h.current := recorded_reached path.reached
    have next := (correspond_parts taken).1
    obtain ⟨_,equal⟩ := ite_none_right_eq_some.mp next
    have sent : .nack f n ∈ (onIncomingNack { h.current with sent := [] } nack ingress).sent := by
      rw [some.inj equal]
      exact listed
    have relayed := nack_relayed (reached_sound reached).cleared rfl found kind sent
    rw [some.inj equal] at relayed
    obtain ⟨e',present,id,_,facts⟩ := relayed
    refine ⟨e',present,id,?_,fun r there apart => ?_,facts.recorded,facts.least⟩
    · exact ((reached_represented (reached.next next)).entries e' present).outRecords
    · obtain ⟨reason,nacked⟩ := facts.nacked r there apart
      obtain ⟨i,last,_⟩ := mindful_acknowledged later e' present r there
      exact ⟨i,reason,nacked ▸ last⟩

namespace Demo

def correspondence : Correspondence := ⟨node .bestRoute,[]⟩

theorem correspondence_unspoken : Unspoken correspondence := ⟨node_initial,rfl⟩

def refusal (nonce : Nonce) : Nack := ⟨{ name := requestName, nonce := nonce },.congestion⟩

def unanswered (h : Correspondence) (other : Face) (shows : Option NackReason → Bool) : Bool :=
  h.current.pit.any fun e => e.outRecords.any fun r => r.face != other && shows r.incomingNack &&
    (lastSent r.face e.key (log h)).map (fun last => (last.1.nonce,last.2)) == some (r.lastNonce,none)

theorem unanswered_exact (holds : unanswered h other shows) : ∃ e ∈ h.current.pit, ∃ r ∈ e.outRecords, r.face ≠ other ∧
    shows r.incomingNack ∧ ∃ i, lastSent r.face e.key (log h) = some (i,none) ∧ i.nonce = r.lastNonce := by
  obtain ⟨e,present,inner⟩ := any_eq_true.mp holds
  obtain ⟨r,listed,both⟩ := any_eq_true.mp inner
  simp only [Bool.and_eq_true,bne_iff_ne,ne_eq,beq_iff_eq] at both
  obtain ⟨⟨apart,said⟩,last⟩ := both
  obtain ⟨⟨i,reason⟩,found,equal⟩ := map_eq_some_iff.mp last
  obtain ⟨nonce,rfl⟩ := Prod.mk.inj equal
  exact ⟨e,present,r,listed,apart,said,i,found,nonce⟩

end Demo

theorem nack_state_refused : ∃ h k e', Guarded (correspond Demo.env) Unspoken (Mindful Demo.env) h ∧
    correspond Demo.env h (.nack (refusal 1) producer) = some k ∧ e' ∈ k.current.pit ∧
    (∀ r ∈ e'.outRecords, r.face ≠ consumer → ∃ i reason, lastSent r.face e'.key (log k) = some (i,some reason)) ∧
    ∃ r ∈ e'.outRecords, r.incomingNack = some .congestion := by
  obtain ⟨h,taken,⟨e,found,kind⟩,k,refused,sent⟩ :
      ∃ h ∈ correspond Demo.env correspondence (.interest (request 7 1) consumer { words := [42] }),
        (∃ e ∈ h.current.pit.find (refusal 1).interest, h.current.kindOf e.name = .bestRoute) ∧
        ∃ k ∈ correspond Demo.env h (.nack (refusal 1) producer), .nack consumer ⟨{ request 7 1 with
          incomingFaceId := some 256, pitToken := some (setPitToken 42) },.congestion⟩ ∈ k.current.sent := by decide
  have path : Guarded (correspond Demo.env) Unspoken (Mindful Demo.env) h :=
    .next (.start correspondence_unspoken) (fun _ _ _ e present => by cases present) taken
  obtain ⟨e',present,_,_,nacked,recorded,_⟩ := (nack_state path).2 _ _ k e consumer _ refused found (.inl kind) sent
  exact ⟨h,k,e',path,refused,present,nacked,recorded⟩

-- The retransmission leaves the old Nack in the out-record, so a later Nack of
-- another upstream is passed on while the first one may still answer.
theorem nack_state_stale : ∃ h k, Transition.Reached (correspond Demo.env) Unspoken h ∧
    (∃ e ∈ h.current.pit, ∃ r ∈ e.outRecords, r.incomingNack ≠ none ∧ ∃ i, lastSent r.face e.key (log h) = some (i,none) ∧
      i.nonce = r.lastNonce) ∧
    correspond Demo.env h (.nack (refusal 3) producer2) = some k ∧ (∃ n, .nack consumer n ∈ k.current.sent) ∧
    ∃ e ∈ k.current.pit, ∃ r ∈ e.outRecords, r.face ≠ consumer ∧ ∃ i, lastSent r.face e.key (log k) = some (i,none) := by
  obtain ⟨h,before,stale,k,refused,waiting,sent⟩ : ∃ h ∈ run (correspond Demo.env) correspondence [
      .interest (request 7 1) consumer { words := [42] },.nack (refusal 1) producer,
      .interest (request 7 2) consumer {},
      .interest { request 7 3 with nextHopFaceId := some 259 } consumer {}], Demo.unanswered h consumer Option.isSome ∧
        ∃ k ∈ correspond Demo.env h (.nack (refusal 3) producer2), Demo.unanswered k consumer (fun _ => true) ∧
          .nack consumer ⟨{ request 7 3 with nextHopFaceId := some 259, incomingFaceId := some 256, pitToken := some (setPitToken 42) },
            .congestion⟩ ∈ k.current.sent := by decide
  obtain ⟨e,present,r,listed,_,said,last⟩ := unanswered_exact stale
  obtain ⟨e',present',r',listed',apart,_,i,last',_⟩ := unanswered_exact waiting
  refine ⟨h,k,run_reached (.start correspondence_unspoken) before,⟨e,present,r,listed,?_,last⟩,refused,⟨_,sent⟩,
    e',present',r',listed',apart,i,last'⟩
  exact fun none => by simp [none] at said

end ReflexiveNfd

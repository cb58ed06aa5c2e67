import ReflexiveNfd.Representation
import ReflexiveNfd.Isolation

namespace ReflexiveNfd
open Actions Timers List Option Transition
open Demo hiding env

section
variable (env : Env) (s : State) (event : Event)

def DeadNonceList.addAll (d : DeadNonceList) (adds : List (Name × Nonce)) : DeadNonceList :=
  adds.foldl (fun d a => d.add env a.1 a.2) d

def Added (s t : State) (name : Name) (nonce : Nonce) : Prop :=
  ∃ adds, t.deadNonceList = s.deadNonceList.addAll env adds ∧ (name,nonce) ∈ adds

-- insertDeadNonceList passes over a satisfied entry, unless it asks for fresh
-- Data and got some that is stale before the list forgets. A Data satisfies the
-- entries it matches with its own freshness.
def Exempt (e : Entry) : Prop :=
  match event with
  | .data packet _ _ => matchesData e.name e.canBePrefix e.mustBeFresh packet ∧
      ¬ (e.mustBeFresh ∧ packet.freshnessPeriod < s.deadNonceList.lifetime)
  | _ => e.isSatisfied ∧ ¬ (e.mustBeFresh ∧ e.dataFreshnessPeriod < s.deadNonceList.lifetime)

-- A nonce that an out-record had before the step is in one after it, or in the
-- Dead Nonce List if it has to be.
def Remembered (t : State) (e : Entry) (r : OutRecord) : Prop :=
  (∃ e' ∈ t.pit, e'.id = e.id ∧ ∃ r' ∈ e'.outRecords, r'.lastNonce = r.lastNonce) ∨ Added env s t e.name r.lastNonce ∨ Exempt s event e

-- No Interest may be sent on a face with an out-record for its entry, and no
-- face with an out-record is destroyed.
def Unreplaced : Prop :=
  (∀ id face, Sends env s event id face → ∀ e ∈ s.pit, e.id = id → ∀ r ∈ e.outRecords, r.face ≠ face) ∧
  ∀ face, event = .removeFace face → ∀ e ∈ s.pit, ∀ r ∈ e.outRecords, r.face ≠ face

end

variable {env : Env} {s t u v : State} {e e' : Entry} {id : EntryId} {packet : Data} {nonce : Nonce} {move : Move} {r : OutRecord}
  {d : DeadNonceList} {adds : List (Name × Nonce)}

namespace DeadNonceList

theorem evictEntries_lifetime : d.evictEntries.lifetime = d.lifetime ∧ d.evictEntries.capacity = d.capacity := by
  unfold evictEntries
  split <;> exact ⟨rfl,rfl⟩

theorem add_lifetime : (d.add env name nonce).lifetime = d.lifetime ∧ (d.add env name nonce).capacity = d.capacity := by
  unfold add
  dsimp only
  split
  · exact ⟨rfl,rfl⟩
  · exact evictEntries_lifetime

theorem addAll_lifetime : (d.addAll env adds).lifetime = d.lifetime ∧ (d.addAll env adds).capacity = d.capacity := by
  induction adds generalizing d with
  | nil => exact ⟨rfl,rfl⟩
  | cons a adds ih =>
    obtain ⟨lifetime,capacity⟩ := ih (d := d.add env a.1 a.2)
    exact ⟨lifetime.trans add_lifetime.1,capacity.trans add_lifetime.2⟩

theorem addAll_append : d.addAll env (adds ++ more) = (d.addAll env adds).addAll env more := foldl_append

def Keeps (d : DeadNonceList) (entry : UInt64) : Prop := entry ∈ d.queue ∨ d.capacity ≤ d.queue.length

theorem evictEntries_keeps (keeps : d.Keeps entry) : d.evictEntries.Keeps entry := by
  unfold evictEntries
  split
  · exact keeps
  · rename_i long
    refine .inr ?_
    rw [length_drop]
    change d.capacity ≤ _
    omega

theorem add_keeps (keeps : d.Keeps entry) : (d.add env name nonce).Keeps entry := by
  unfold add
  dsimp only
  split
  · rename_i known
    rcases keeps with there | full
    · refine .inl ?_
      by_cases same : entry = env.cityHash name nonce
      · exact mem_append_right _ (mem_singleton.mpr same)
      · exact mem_append_left _ ((mem_erase_of_ne same).mpr there)
    · refine .inr ?_
      have length := length_erase_of_mem (contains_iff_mem.mp known)
      simp only [length_append,length_singleton,length]
      omega
  · refine evictEntries_keeps ?_
    rcases keeps with there | full
    · exact .inl (mem_append_left _ there)
    · exact .inr (Nat.le_trans full (sublist_append_left _ _).length_le)

theorem add_has : (d.add env name nonce).Keeps (env.cityHash name nonce) := by
  unfold add
  dsimp only
  split
  · exact .inl (mem_append_right _ mem_cons_self)
  · exact evictEntries_keeps (.inl (mem_append_right _ mem_cons_self))

theorem addAll_has (listed : (name,nonce) ∈ adds) : (d.addAll env adds).Keeps (env.cityHash name nonce) := by
  obtain ⟨front,back,rfl⟩ := append_of_mem listed
  rw [addAll_append]
  have kept : ∀ (rest : List (Name × Nonce)) (d : DeadNonceList), d.Keeps (env.cityHash name nonce) →
      (d.addAll env rest).Keeps (env.cityHash name nonce) := by
    intro rest
    induction rest with
    | nil => exact fun _ keeps => keeps
    | cons a rest ih => exact fun d keeps => ih _ (add_keeps keeps)
  exact kept back _ add_has

end DeadNonceList

theorem Added.has (added : Added env s t name nonce) (room : t.deadNonceList.queue.length < t.deadNonceList.capacity) :
    t.deadNonceList.has env name nonce := by
  obtain ⟨adds,equal,listed⟩ := added
  rcases (DeadNonceList.addAll_has (d := s.deadNonceList) listed : DeadNonceList.Keeps _ (env.cityHash name nonce)) with there | full
  · rw [DeadNonceList.has,equal]
    exact contains_iff_mem.mpr there
  · rw [equal] at room
    omega

def Preserves (s t : State) : Prop :=
  ∀ e ∈ s.pit, ∀ r ∈ e.outRecords, ∃ e' ∈ t.pit, e'.id = e.id ∧ e'.key = e.key ∧
    ∃ r' ∈ e'.outRecords, r'.face = r.face ∧ r'.lastNonce = r.lastNonce

namespace Preserves

theorem same (pit : t.pit = s.pit) : Preserves s t := fun e present r listed => ⟨e,pit ▸ present,rfl,rfl,r,listed,rfl,rfl⟩

theorem mapped (mapped : t.pit = s.pit.map f) (kept : ∀ e ∈ s.pit, (f e).id = e.id ∧ (f e).key = e.key ∧
    ∀ r ∈ e.outRecords, ∃ r' ∈ (f e).outRecords, r'.face = r.face ∧ r'.lastNonce = r.lastNonce) : Preserves s t := by
  intro e present r listed
  obtain ⟨id,key,records⟩ := kept e present
  exact ⟨f e,mapped ▸ mem_map_of_mem present,id,key,records r listed⟩

theorem modifyEntry (kept : ∀ e ∈ s.pit, (f e).id = e.id ∧ (f e).key = e.key ∧
    ∀ r ∈ e.outRecords, ∃ r' ∈ (f e).outRecords, r'.face = r.face ∧ r'.lastNonce = r.lastNonce) : Preserves s (s.modifyEntry id f) := by
  refine .mapped (f := fun e => if e.id = id then f e else e) rfl (fun e present => ?_)
  split
  · exact kept e present
  · exact ⟨rfl,rfl,fun r listed => ⟨r,listed,rfl,rfl⟩⟩

theorem calm (calm : Calm s t) : Preserves s t := by
  obtain ⟨f,mapped,kept⟩ := calm.entries
  refine .mapped mapped (fun e _ => ⟨(kept e).1.id,(kept e).1.key,fun r listed => ?_⟩)
  obtain ⟨r',there,facts⟩ := mem_map.mp ((kept e).2 ▸ mem_map_of_mem listed : r.facts ∈ (f e).outRecords.map OutRecord.facts)
  simp only [OutRecord.facts,Prod.mk.injEq] at facts
  exact ⟨r',there,facts.1,facts.2.1⟩

end Preserves

def Move.forgets : Move → Bool
  | .transmit .. | .retire .. | .finalize .. | .removeFace .. => true
  | _ => false

theorem Permitted.preserves (permitted : Permitted env s event u move) (plain : move.forgets = false) :
    Preserves u (enact env u move) := by
  have calm : move.marks = false → Preserves u (enact env u move) := fun quiet => .calm (permitted.calm quiet)
  cases permitted with
  | insert => exact fun e present r listed => ⟨e,mem_append_left _ present,rfl,rfl,r,listed,rfl,rfl⟩
  | insertInRecord => exact .modifyEntry (fun _ _ => ⟨rfl,rfl,fun r listed => ⟨r,listed,rfl,rfl⟩⟩)
  | setIncomingNack =>
    rename_i own face reason noted
    refine .modifyEntry (fun e present => ⟨rfl,rfl,fun r listed => ?_⟩)
    have same : (e.updateOutRecord face (fun r => { r with incomingNack := some reason })).outRecords.map
        (fun r => (r.face,r.lastNonce)) = _ :=
      Keyed.modifyFirst_map (fun _ => rfl)
    obtain ⟨r',there,equal⟩ := mem_map.mp (same ▸ mem_map_of_mem listed)
    obtain ⟨facing,nonce⟩ := Prod.mk.inj equal
    exact ⟨r',there,facing,nonce⟩
  | addFace => exact .same rfl
  | transmit | retire | finalize | removeFace => cases plain
  | _ => exact calm rfl

theorem Permitted.deadNonceList (permitted : Permitted env s event u move) (plain : move.forgets = false)
    (busy : event ≠ .addMark ∧ event ≠ .adjustCapacity) : (enact env u move).deadNonceList = u.deadNonceList := by
  cases permitted with
  | aside changed => exact changed.deadNonceList
  | setStrategy =>
    obtain ⟨_,_,_,equal⟩ := strategy_form.1 _
    rw [enact,equal]
  | unsetStrategy =>
    obtain ⟨_,_,_,equal⟩ := strategy_form.2
    rw [enact,equal]
  | upkeep idle => exact (idle.elim busy.1 busy.2).elim
  | transmit | retire | finalize | removeFace => cases plain
  | _ => rfl

def Passed (s : State) (event : Event) (e : Entry) : Prop :=
  match event with
  | .data packet _ _ => ¬ (e.mustBeFresh ∧ packet.freshnessPeriod < s.deadNonceList.lifetime)
  | _ => e.isSatisfied ∧ ¬ (e.mustBeFresh ∧ e.dataFreshnessPeriod < s.deadNonceList.lifetime)

structure Found (e : Entry) (r : OutRecord) (e' : Entry) (r' : OutRecord) : Prop where
  id : e'.id = e.id
  key : e'.key = e.key
  listed : r' ∈ e'.outRecords
  face : r'.face = r.face
  nonce : r'.lastNonce = r.lastNonce

structure Remembering (env : Env) (s : State) (event : Event) (u : State) : Prop where
  represented : Represented u
  nonces : ∃ adds, u.deadNonceList = s.deadNonceList.addAll env adds ∧ ∀ e ∈ s.pit, ∀ r ∈ e.outRecords,
    (∃ e' ∈ u.pit, ∃ r', Found e r e' r') ∨ (e.name,r.lastNonce) ∈ adds ∨ Passed s event e

section
variable (remembering : Remembering env s event u)
include remembering

theorem Remembering.extend (more : List (Name × Nonce)) (represented : Represented t)
    (added : t.deadNonceList = u.deadNonceList.addAll env more)
    (each : ∀ e ∈ s.pit, ∀ r ∈ e.outRecords, ∀ e' ∈ u.pit, ∀ r', Found e r e' r' →
      (∃ e' ∈ t.pit, ∃ r', Found e r e' r') ∨ (e.name,r.lastNonce) ∈ more ∨ Passed s event e) : Remembering env s event t := by
  obtain ⟨adds,equal,known⟩ := remembering.nonces
  refine ⟨represented,adds ++ more,by rw [added,equal,DeadNonceList.addAll_append],fun e present r listed => ?_⟩
  rcases known e present r listed with ⟨e',inside,r',found⟩ | old | passed
  · rcases each e present r listed e' inside r' found with kept | new | passed
    · exact .inl kept
    · exact .inr (.inl (mem_append_right _ new))
    · exact .inr (.inr passed)
  · exact .inr (.inl (mem_append_left _ old))
  · exact .inr (.inr passed)

theorem Remembering.preserve (represented : Represented t)
    (same : t.deadNonceList = u.deadNonceList) (preserves : Preserves u t) : Remembering env s event t := by
  refine remembering.extend [] represented same (fun e _ r _ e' inside r' found => .inl ?_)
  obtain ⟨x,there,id,key,y,listed,facing,nonce⟩ := preserves e' inside r' found.listed
  exact ⟨x,there,y,id.trans found.id,key.trans found.key,listed,facing.trans found.face,nonce.trans found.nonce⟩

theorem Remembering.lifetime : u.deadNonceList.lifetime = s.deadNonceList.lifetime := by
  obtain ⟨adds,equal,_⟩ := remembering.nonces
  rw [equal]
  exact DeadNonceList.addAll_lifetime.1

end

theorem addDeadNonces_addAll : addDeadNonces env s name nonces =
    { s with deadNonceList := s.deadNonceList.addAll env (nonces.map (fun x => (name,x))) } := by
  rw [addDeadNonces,DeadNonceList.addAll,foldl_map]

theorem insertDeadNonceList_adds : ∃ nonces : List Nonce, insertDeadNonceList env s id upstream =
      { s with deadNonceList := s.deadNonceList.addAll env (nonces.map (fun x => ((s.entry id).name,x))) } ∧
    (¬ ((s.entry id).isSatisfied ∧
        ¬ ((s.entry id).mustBeFresh ∧ (s.entry id).dataFreshnessPeriod < s.deadNonceList.lifetime)) →
      ∀ r ∈ (s.entry id).outRecords, (∀ face, upstream = some face → (s.entry id).getOutRecord face = some r) → r.lastNonce ∈ nonces) := by
  unfold insertDeadNonceList
  dsimp only
  split
  · rename_i exempt
    exact ⟨[],rfl,fun counted => absurd exempt counted⟩
  · split
    · exact ⟨_,addDeadNonces_addAll,fun _ r listed _ => mem_map_of_mem listed⟩
    · refine ⟨_,addDeadNonces_addAll,fun _ r _ recorded => ?_⟩
      rw [recorded _ rfl]
      exact mem_map_of_mem (mem_singleton.mpr rfl)

theorem Remembering.transmit (remembering : Remembering env s event u) (unreplaced : Unreplaced env s event)
    (sends : Sends env s event own egress) : Remembering env s event (enact env u (.transmit object egress own)) := by
  refine remembering.extend [] (transmit_represented remembering.represented) rfl
    (fun e present r listed e' inside r' found => .inl ?_)
  by_cases mine : e'.id = own
  · refine ⟨e'.insertOrUpdateOutRecord egress u.now (u.interest object),?_,r',found.id,found.key,?_,found.face,found.nonce⟩
    · exact mem_map.mpr ⟨e',inside,if_pos mine⟩
    · have apart : r'.face ≠ egress := found.face ▸ unreplaced.1 own egress sends e present (found.id.symm.trans mine) r listed
      simp only [Entry.insertOrUpdateOutRecord]
      exact Keyed.mem_upsert_of_ne found.listed apart
  · exact ⟨e',mem_map.mpr ⟨e',inside,if_neg mine⟩,r',found⟩

theorem Remembering.removeFace (remembering : Remembering env s event u) (unreplaced : Unreplaced env s event)
    (removed : event = .removeFace face) : Remembering env s event (enact env u (.removeFace face)) := by
  refine remembering.extend [] (removeFace_represented remembering.represented) rfl
    (fun e present r listed e' inside r' found => .inl ?_)
  refine ⟨(e'.deleteInRecord face).deleteOutRecord face,mem_map_of_mem inside,r',found.id,found.key,?_,found.face,found.nonce⟩
  have apart := unreplaced.2 face removed e present r listed
  exact (Keyed.mem_remove (remembering.represented.entries e' inside).outRecords).mpr ⟨found.listed,by rw [found.face]; exact apart⟩

theorem Remembering.retire (remembering : Remembering env s (.data packet face choices) u) (fresh : (u.entry own).dataFreshnessPeriod = packet.freshnessPeriod)
    (represented : Represented (enact env u (.retire own face))) :
    Remembering env s (.data packet face choices) (enact env u (.retire own face)) := by
  obtain ⟨nonces,equal,adds⟩ := insertDeadNonceList_adds
  have form : enact env u (.retire own face) = { u with
      deadNonceList := u.deadNonceList.addAll env (nonces.map (fun x => ((u.entry own).name,x)))
      pit := u.pit.modify own (fun e => e.deleteOutRecord face) } := by
    rw [enact,equal]
    rfl
  rw [form] at represented ⊢
  refine remembering.extend _ represented rfl (fun e present r listed e' inside r' found => ?_)
  have distinct := (remembering.represented.entries e' inside).outRecords
  by_cases mine : e'.id = own
  · have held : u.entry own = e' := State.entry_of_get (mine ▸ Pit.get_of_mem remembering.represented.ids inside)
    rw [held] at fresh adds
    have names : e'.name = e.name := congrArg Prod.fst found.key
    have freshes : e'.mustBeFresh = e.mustBeFresh := congrArg (fun k => k.2.2) found.key
    by_cases facing : r'.face = face
    · by_cases counted : e.mustBeFresh ∧ packet.freshnessPeriod < s.deadNonceList.lifetime
      · refine .inr (.inl (mem_map.mpr ⟨r.lastNonce,?_,by rw [held,names]⟩))
        rw [← found.nonce]
        refine adds (fun exempt => exempt.2 ?_) r' found.listed (fun f same => ?_)
        · rw [freshes,fresh,remembering.lifetime]
          exact counted
        · cases same
          exact facing ▸ Keyed.lookup_distinct distinct found.listed
      · exact .inr (.inr counted)
    · refine .inl ⟨e'.deleteOutRecord face,mem_map.mpr ⟨e',inside,if_pos mine⟩,r',found.id,found.key,?_,found.face,found.nonce⟩
      exact (Keyed.mem_remove distinct).mpr ⟨found.listed,facing⟩
  · exact .inl ⟨e',mem_map.mpr ⟨e',inside,if_neg mine⟩,r',found⟩

theorem Remembering.finalize (remembering : Remembering env s (.timer timerId) u) (alive : Alive u own) (pit : u.pit = s.pit)
    (list : u.deadNonceList = s.deadNonceList) (represented : Represented (enact env u (.finalize own))) :
    Remembering env s (.timer timerId) (enact env u (.finalize own)) := by
  obtain ⟨x,got⟩ := alive
  obtain ⟨there,named⟩ := Pit.get_id got
  obtain ⟨nonces,equal,adds⟩ : ∃ nonces, insertDeadNonceList env u own none = _ ∧ _ := insertDeadNonceList_adds
  have held := State.entry_of_get got
  have left : (enact env u (.finalize own)).pit = u.pit.erase x := finalize_pit got
  have added : (enact env u (.finalize own)).deadNonceList =
      u.deadNonceList.addAll env (nonces.map (fun y => ((u.entry own).name,y))) := by
    rw [enact,onInterestFinalize]
    simp only [equal,got]
    rfl
  refine remembering.extend _ represented added (fun e present r listed e' inside r' found => ?_)
  by_cases mine : e'.id = own
  · obtain rfl := inj_on_of_nodup_map remembering.represented.ids inside there (mine.trans named.symm)
    -- ids are unique before the event too
    have same : e' = e := by
      have ids := remembering.represented.ids
      rw [pit] at ids inside
      exact inj_on_of_nodup_map ids inside present found.id
    subst same
    rw [held,list] at adds
    by_cases exempt : e'.isSatisfied ∧ ¬ (e'.mustBeFresh ∧ e'.dataFreshnessPeriod < s.deadNonceList.lifetime)
    · exact .inr (.inr exempt)
    · refine .inr (.inl (mem_map.mpr ⟨r.lastNonce,?_,by rw [held]⟩))
      exact adds exempt r listed (fun _ none => by cases none)
  · refine .inl ⟨e',?_,r',found⟩
    rw [left]
    exact (Pit.mem_erase remembering.represented.ids there).mpr ⟨inside,by rw [named]; exact mine⟩

theorem permitted_remembering (remembering : Remembering env s event u) (unreplaced : Unreplaced env s event)
    (busy : event ≠ .addMark ∧ event ≠ .adjustCapacity) (permitted : Permitted env s event u move) :
    Remembering env s event (enact env u move) := by
  have represented := permitted_represented remembering.represented permitted
  have plain : move.forgets = false → Remembering env s event (enact env u move) := fun plain =>
    remembering.preserve represented (permitted.deadNonceList plain busy) (permitted.preserves plain)
  cases permitted with
  | transmit _ sends => exact remembering.transmit unreplaced sends
  | removeFace removed => exact remembering.removeFace unreplaced removed
  | retire arrived _ fresh =>
    subst arrived
    exact remembering.retire fresh represented
  | finalize alive fired pit list =>
    subst fired
    exact remembering.finalize alive pit list represented
  | _ => exact plain rfl

theorem Unreplaced.cleared (unreplaced : Unreplaced env s event) : Unreplaced env { s with sent := [] } event :=
  ⟨fun id face sends => unreplaced.1 id face sends.uncleared,unreplaced.2⟩

theorem data_spares (path : Reached env s) (taken : step env s (.data packet ingress choices) = some t) (present : e ∈ s.pit)
    (apart : ¬ matchesData e.name e.canBePrefix e.mustBeFresh packet) : e ∈ t.pit := by
  have equal := step_satisfies taken
  have spares : Spares (fun id => ∃ m ∈ s.pit, matchesData m.name m.canBePrefix m.mustBeFresh packet ∧ m.id = id)
      { s with sent := [] } t := by
    rw [equal]
    refine onIncomingData_spares (fun m listed => ⟨m,?_⟩)
    exact ⟨(Pit.findAllDataMatches_mem listed).1,(Pit.findAllDataMatches_mem listed).2,rfl⟩
  refine spares e present ?_
  rintro ⟨m,inside,matched,named⟩
  obtain rfl := inj_on_of_nodup_map (reached_represented path).ids inside present named
  exact apart matched

theorem step_remembered (path : Reached env s) (unreplaced : Unreplaced env s event) (taken : step env s event = some t)
    (present : e ∈ s.pit) (listed : r ∈ e.outRecords) : Remembered env s event t e r := by
  have filed : Represented { s with sent := [] } := (reached_represented path).same rfl
  have moves := handle_moves (reached_sound path).cleared (reached_timely path).cleared filed taken
  by_cases busy : event ≠ .addMark ∧ event ≠ .adjustCapacity
  · have started : Remembering env { s with sent := [] } event { s with sent := [] } :=
      ⟨filed,[],rfl,fun e present r listed => .inl ⟨e,present,r,rfl,rfl,listed,rfl,rfl⟩⟩
    have finished := moves.invariant (I := Remembering env _ event) (fun _ _ still => permitted_remembering still unreplaced.cleared busy) started
    obtain ⟨adds,equal,known⟩ := finished.nonces
    rcases known e present r listed with ⟨e',inside,r',found⟩ | added | passed
    · exact .inl ⟨e',inside,found.id,r',found.listed,found.nonce⟩
    · exact .inr (.inl ⟨adds,equal,added⟩)
    · cases event with
      | data packet ingress choices =>
        by_cases matched : matchesData e.name e.canBePrefix e.mustBeFresh packet
        · exact .inr (.inr ⟨matched,passed⟩)
        · exact .inl ⟨e,data_spares path taken present matched,rfl,r,listed,rfl⟩
      | _ => exact .inr (.inr passed)
  · have idle : t.pit = s.pit := by
      rcases not_and_or.mp busy with mark | adjust
      · cases not_not.mp mark
        cases taken
        rfl
      · cases not_not.mp adjust
        cases taken
        rfl
    exact .inl ⟨e,idle ▸ present,rfl,r,listed,rfl⟩

theorem takes_reached (path : Reached env s) (takes : Takes (step env) s events u event) : Reached env u := by
  obtain ⟨front,_,_,ran⟩ := takes
  exact run_reached path ran

theorem dead_nonces (initial : Initial s) (ran : run (step env) s events = some t)
    (unreplaced : ∀ u event, Takes (step env) s events u event → Unreplaced env u event) :
    ∀ u event, Takes (step env) s events u event → ∃ v, step env u event = some v ∧
      ∀ e ∈ u.pit, ∀ r ∈ e.outRecords, Remembered env u event v e r := by
  intro u event takes
  obtain ⟨front,back,split,before⟩ := takes
  rw [split,run_append,before,bind_some] at ran
  obtain ⟨v,taken,_⟩ := run_parts ran
  have reached : Reached env u := takes_reached (.start initial) ⟨front,back,split,before⟩
  exact ⟨v,taken,fun e present r listed => step_remembered reached (unreplaced u event ⟨front,back,split,before⟩) taken present listed⟩

def Demo.expiring : List Event :=
  [.interest (request 7 1) consumer { words := [42] },.advance 4000000000,.timer 0]

theorem dead_nonces_expired : ∃ u v, Takes (step Demo.env) (node .bestRoute) expiring u (.timer 0) ∧
    step Demo.env u (.timer 0) = some v ∧ ∃ e ∈ u.pit, ∃ r ∈ e.outRecords, Added Demo.env u v e.name r.lastNonce := by
  obtain ⟨a,first,u,second,task,⟨e,present,unsatisfied,r,listed,_⟩,v,third,gone⟩ :
      ∃ a ∈ step Demo.env (node .bestRoute) (.interest (request 7 1) consumer { words := [42] }),
      ∃ u ∈ step Demo.env a (.advance 4000000000),
        (u.scheduler.pending.find? (fun t => t.id = 0)).map Timer.task = some (.finalize 0) ∧
        (∃ e ∈ u.pit, e.isSatisfied = false ∧ ∃ r ∈ e.outRecords, True) ∧ ∃ v ∈ step Demo.env u (.timer 0), v.pit = [] := by decide
  have takes : Takes (step Demo.env) (node .bestRoute) expiring u (.timer 0) :=
    ⟨[_,_],[],rfl,(run_cons first).trans (run_cons second)⟩
  have ran : run (step Demo.env) (node .bestRoute) expiring = some v := (run_cons first).trans ((run_cons second).trans (run_cons third))
  have unreplaced : ∀ w event, Takes (step Demo.env) (node .bestRoute) expiring w event → Unreplaced Demo.env w event := by
    intro w event takes
    rcases (takes_cons first).mp takes with ⟨rfl,rfl⟩ | later
    · exact ⟨fun _ _ _ e present => absurd present not_mem_nil,fun _ _ e present => absurd present not_mem_nil⟩
    · rcases (takes_cons second).mp later with ⟨rfl,rfl⟩ | last
      · exact ⟨fun _ _ => False.elim,fun _ removed => by cases removed⟩
      · rcases (takes_cons third).mp last with ⟨rfl,rfl⟩ | never
        · refine ⟨fun _ _ sends => ?_,fun _ removed => by cases removed⟩
          obtain ⟨timer,_,_,found,retry,_⟩ := sends
          rw [found,map_some,retry] at task
          cases task
        · exact (takes_nil never).elim
  obtain ⟨v',taken,remembered⟩ := dead_nonces node_initial ran unreplaced u (.timer 0) takes
  cases third.symm.trans taken
  refine ⟨u,v,takes,taken,e,present,r,listed,?_⟩
  rcases remembered e present r listed with ⟨e',inside,_⟩ | added | exempt
  · rw [gone] at inside
    cases inside
  · exact added
  · cases unsatisfied.symm.trans exempt.1

def Demo.forgotten (u v : State) : Bool :=
  decide (v.deadNonceList.queue.length < v.deadNonceList.capacity) && u.pit.any fun e => !e.isSatisfied && e.outRecords.any fun r =>
    !v.deadNonceList.has Demo.env e.name r.lastNonce && v.pit.all fun e' => e'.id != e.id || e'.outRecords.all fun r' =>
      r'.lastNonce != r.lastNonce

theorem Demo.forgotten_exact (plain : ∀ packet ingress choices, event ≠ .data packet ingress choices)
    (lost : forgotten u v) : ∃ e ∈ u.pit, ∃ r ∈ e.outRecords, ¬ Remembered Demo.env u event v e r := by
  obtain ⟨room,some⟩ := Bool.and_eq_true_iff.mp lost
  obtain ⟨e,present,inner⟩ := any_eq_true.mp some
  obtain ⟨unsatisfied,records⟩ := Bool.and_eq_true_iff.mp inner
  obtain ⟨r,listed,both⟩ := any_eq_true.mp records
  obtain ⟨unknown,gone⟩ := Bool.and_eq_true_iff.mp both
  refine ⟨e,present,r,listed,?_⟩
  rintro (⟨e',inside,named,r',there,nonce⟩ | added | exempt)
  · have apart := all_eq_true.mp gone e' inside
    simp only [named,bne_self_eq_false,Bool.false_or,List.all_eq_true] at apart
    simpa [nonce] using apart r' there
  · rw [added.has (of_decide_eq_true room)] at unknown
    cases unknown
  · have satisfied : e.isSatisfied := by
      cases event with
      | data packet ingress choices => exact (plain packet ingress choices rfl).elim
      | _ => exact exempt.1
    rw [satisfied] at unsatisfied
    cases unsatisfied

-- A retransmission overwrites the nonce of the first Interest, and the removal
-- of the upstream's face takes it away.
theorem dead_nonces_replaced : ∃ u v w x, Reached Demo.env u ∧
    step Demo.env u (.interest (request 7 2) consumer {}) = some v ∧
    (∃ e ∈ u.pit, ∃ r ∈ e.outRecords, ¬ Remembered Demo.env u (.interest (request 7 2) consumer {}) v e r) ∧
    Reached Demo.env w ∧ step Demo.env w (.removeFace producer) = some x ∧
    ∃ e ∈ w.pit, ∃ r ∈ e.outRecords, ¬ Remembered Demo.env w (.removeFace producer) x e r := by
  obtain ⟨u,before,⟨v,resent,replaced⟩,x,closed,dropped⟩ : ∃ u ∈ run (step Demo.env) (node .bestRoute)
      [.interest (request 7 1) consumer { words := [42] },.advance 20000000],
    (∃ v ∈ step Demo.env u (.interest (request 7 2) consumer {}), forgotten u v) ∧
      ∃ x ∈ step Demo.env u (.removeFace producer), forgotten u x := by decide
  have path : Reached Demo.env u := run_reached (.start node_initial) before
  exact ⟨u,v,u,x,path,resent,forgotten_exact (by simp) replaced,path,closed,forgotten_exact (by simp) dropped⟩

end ReflexiveNfd

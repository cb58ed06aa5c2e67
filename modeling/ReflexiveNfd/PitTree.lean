import Mathlib.Data.Set.Card
import ReflexiveNfd.Nacks
import ReflexiveNfd.TreeTables

namespace ReflexiveNfd
open Hashtable Actions Vectors List Option Function Transition TreeTables Pit NameTree
open Demo hiding env

-- The forwarder with the tables on its name tree. The forwarder has the PIT
-- entries themselves, the tree has their addresses.
structure Daemon where
  forwarder : State
  tables : TreeTables

inductive DaemonEvent where
  | pipeline (event : Event)
  | table (call : TableCall)

-- The calls of an event that change the PIT: an accepted Interest is inserted,
-- a finalized entry erased.
def pitCalls (env : Env) (s : State) : Event → List TableCall
  | .interest packet ingress _ =>
    match screen env s packet ingress with
    | .accepted i => [.pitFindOrInsert s.pit.get i true s.nextEntry]
    | _ => []
  | .timer id =>
    match s.scheduler.pending.find? (fun t => t.id = id) with
    | some timer =>
      match timer.task with
      | .finalize own => [.pitErase own true]
      | _ => []
    | none => []
  | _ => []

-- Between pipeline runs the other tables may be called in any way.
def Daemon.step (env : Env) (hash : HashFunction) (options : HashtableOptions) (d : Daemon) : DaemonEvent → Option Daemon
  | .pipeline event => do
      let forwarder ← ReflexiveNfd.step env d.forwarder event
      let tables ← run (TreeTables.step hash options) d.tables (pitCalls env d.forwarder event)
      return ⟨forwarder,tables⟩
  | .table call =>
    if call.table = .pit then none else (d.tables.step hash options call).map fun tables => { d with tables := tables }

def Daemon.Started (options : HashtableOptions) (d : Daemon) : Prop := Initial d.forwarder ∧ d.tables = .new options

-- The tree entries have the addresses of the PIT entries of their names, in
-- order, and no PIT entry is without its tree entry.
structure Attached (pit : Pit) (tree : NameTree) : Prop where
  entries : ∀ a name, labelOf tree.ht.contents a = some name →
    entriesOf tree.ht.contents a .pit = (pitEntries pit name).map Entry.id
  placed : ∀ e ∈ pit, ∃ a, labelOf tree.ht.contents a = some e.nte

structure Paired (hash : HashFunction) (s : State) (tables : TreeTables) : Prop where
  sound : TreeTables.Sound hash tables
  attached : Attached s.pit tables.tree
  size : tables.nItems .pit = s.pit.length

variable {env : Env} {hash : HashFunction} {s t u : State} {tables after : TreeTables} {tree next : NameTree} {pit : Pit} {e : Entry}
  {i : Interest} {id : EntryId}

theorem label_unique (sound : NameTree.Sound hash tree) (first : labelOf tree.ht.contents a = some name)
    (second : labelOf tree.ht.contents b = some name) : a = b := by
  obtain ⟨n,held,named⟩ := holds_label.mpr first
  obtain ⟨m,there,same⟩ := holds_label.mpr second
  exact sound.sound.registered.distinct a b n m held there (named.trans same.symm)

namespace Attached

theorem listed (attached : Attached pit tree) (present : e ∈ pit) :
    ∃ a, labelOf tree.ht.contents a = some e.nte ∧ e.id ∈ entriesOf tree.ht.contents a .pit := by
  obtain ⟨a,label⟩ := attached.placed e present
  refine ⟨a,label,?_⟩
  rw [attached.entries a _ label]
  exact mem_map_of_mem (mem_filter.mpr ⟨present,by simp⟩)

theorem origin (attached : Attached pit tree) (listed : id ∈ entriesOf tree.ht.contents a .pit) :
    ∃ e ∈ pit, e.id = id ∧ labelOf tree.ht.contents a = some e.nte := by
  obtain ⟨name,label⟩ := used_label (ne_nil_of_mem listed)
  rw [attached.entries a name label] at listed
  obtain ⟨e,inside,rfl⟩ := mem_map.mp listed
  obtain ⟨present,here⟩ := mem_filter.mp inside
  exact ⟨e,present,rfl,by rw [label,of_decide_eq_true here]⟩

theorem undisturbed (attached : Attached pit tables.tree) (sound : NameTree.Sound hash after.tree)
    (still : TreeTables.Undisturbed .pit tables after) : Attached pit after.tree := by
  have kept : ∀ e ∈ pit, ∃ a, labelOf after.tree.ht.contents a = some e.nte ∧ e.id ∈ entriesOf after.tree.ht.contents a .pit := by
    intro e present
    obtain ⟨a,label,inside⟩ := attached.listed present
    exact ⟨a,(still.labels a (ne_nil_of_mem inside)).trans label,by rwa [still.entries]⟩
  refine ⟨fun a name label => ?_,fun e present => (kept e present).imp fun _ => And.left⟩
  by_cases used : entriesOf tables.tree.ht.contents a .pit = []
  · rw [still.entries,used,eq_comm,map_eq_nil_iff,eq_nil_iff_forall_not_mem]
    intro e listed
    -- an entry of this name would be here
    obtain ⟨present,here⟩ := mem_filter.mp listed
    obtain ⟨b,place,inside⟩ := kept e present
    obtain rfl := label_unique sound label (place.trans (by rw [of_decide_eq_true here]))
    rw [still.entries,used] at inside
    cases inside
  · rw [still.entries]
    exact attached.entries a name ((still.labels a used).symm.trans label)

theorem changes (attached : Attached pit tree) (sound : NameTree.Sound hash tree)
    (changes : NameTree.Changes tree next a .pit xs) (label : labelOf tree.ht.contents a = some name)
    (own : xs = (pitEntries pit' name).map Entry.id)
    (others : ∀ other, other ≠ name → (pitEntries pit' other).map Entry.id = (pitEntries pit other).map Entry.id)
    (placed : ∀ e ∈ pit', e ∈ pit ∨ e.nte = name) : Attached pit' next := by
  refine ⟨fun b other there => ?_,fun e present => ?_⟩
  · rw [changes.labels] at there
    rw [changes.entries]
    by_cases here : b = a
    · subst here
      cases label.symm.trans there
      rw [update_self,update_self,own]
    · have apart : other ≠ name := by
        rintro rfl
        exact here (label_unique sound there label)
      rw [update_of_ne here,attached.entries b other there,others other apart]
  · rw [changes.labels]
    rcases placed e present with old | new
    · exact attached.placed e old
    · exact ⟨a,by rw [label,new]⟩

theorem persists (attached : Attached s.pit tree) (persists : Persists s t) : Attached t.pit tree := by
  obtain ⟨f,mapped,kept⟩ := persists
  have names : ∀ e, (f e).name = e.name := fun e => congrArg Prod.fst (kept e).2.1
  have ids : Entry.id ∘ f = Entry.id := funext fun e => (kept e).1
  rw [mapped]
  refine ⟨fun a name label => ?_,fun e present => ?_⟩
  · rw [pitEntries_map names,List.map_map,ids]
    exact attached.entries a name label
  · obtain ⟨old,inside,rfl⟩ := mem_map.mp present
    obtain ⟨a,label⟩ := attached.placed old inside
    exact ⟨a,by rw [label]; simp [Entry.nte,names]⟩

end Attached

section
variable [DecidableEq α] {xs : List α}

theorem map_apart (apart : x ∉ xs) : xs.map (fun y => if y = x then last else y) = xs := by
  conv_rhs => rw [← map_id xs]
  exact map_congr_left (fun y inside => if_neg (fun same : y = x => apart (same ▸ inside)))

theorem filter_apart (apart : x ∉ xs) : xs.filter (· ≠ x) = xs :=
  filter_eq_self.mpr (fun y inside => by simpa using fun same : y = x => apart (same ▸ inside))

theorem replace_map (distinct : xs.Nodup) (x last : α) :
    xs.replace x last = xs.map (fun y => if y = x then last else y) := by
  induction xs with
  | nil => rfl
  | cons y ys ih =>
    obtain ⟨apart,rest⟩ := nodup_cons.mp distinct
    by_cases here : y = x
    · subst here
      rw [replace_cons_self,map_cons,if_pos rfl,map_apart apart]
    · have other : (x == y) = false := by simpa using Ne.symm here
      rw [replace_cons,other,map_cons,if_neg here]
      exact congrArg _ (ih rest)

theorem eraseSwap_exact (distinct : xs.Nodup) (ends : xs.getLast? = some last) :
    eraseSwap xs x = if last = x then xs.filter (· ≠ x) else (xs.filter (· ≠ last)).map (fun y => if y = x then last else y) := by
  obtain ⟨front,rfl⟩ := getLast?_eq_some_iff.mp ends
  obtain ⟨rest,_,apart⟩ := nodup_append.mp distinct
  have missing : last ∉ front := fun inside => apart last inside last (by simp) rfl
  have kept : (front ++ [last]).filter (· ≠ last) = front := by
    rw [filter_append,filter_apart missing]
    simp
  have swapped : eraseSwap (front ++ [last]) x = front.map (fun y => if y = x then last else y) := by
    simp [eraseSwap,replace_map rest]
  split
  · rename_i same
    subst same
    rw [swapped,kept,map_apart missing]
  · rw [swapped,kept]

end

theorem Pit.pitEntries_erase (ids : (pit.map Entry.id).Nodup) (present : e ∈ pit) (name : Name) :
    (pitEntries (Pit.erase pit e) name).map Entry.id =
      if name = e.nte then eraseSwap ((pitEntries pit name).map Entry.id) e.id else (pitEntries pit name).map Entry.id := by
  have same : ∀ x ∈ pit, ∀ y ∈ pit, x.id = y.id → x = y := fun x inX y inY => inj_on_of_nodup_map ids inX inY
  have here : e ∈ pitEntries pit e.nte := mem_filter.mpr ⟨present,by simp⟩
  have distinct : ((pitEntries pit name).map Entry.id).Nodup := ids.sublist (filter_sublist.map _)
  -- entries of other names are not touched
  have elsewhere : ∀ x ∈ pit, x.nte ≠ name → x.id ∉ (pitEntries pit name).map Entry.id := by
    intro x inside apart listed
    obtain ⟨y,among,equal⟩ := mem_map.mp listed
    obtain ⟨there,named⟩ := mem_filter.mp among
    rw [same y there x inside equal] at named
    exact apart (of_decide_eq_true named)
  have without : ∀ k, (pitEntries (pit.filter (fun x => x.id ≠ k)) name).map Entry.id =
      ((pitEntries pit name).map Entry.id).filter (· ≠ k) := by
    intro k
    simp only [pitEntries,List.filter_map,List.filter_filter,Function.comp_def,Bool.and_comm]
  unfold Pit.erase
  cases ends : (pitEntries pit e.nte).getLast? with
  | none =>
    rw [getLast?_eq_none_iff.mp ends] at here
    cases here
  | some last =>
    obtain ⟨inside,named⟩ := mem_filter.mp (mem_of_getLast? ends)
    have beside : last.nte = e.nte := of_decide_eq_true named
    have tail : ((pitEntries pit e.nte).map Entry.id).getLast? = some last.id := by rw [getLast?_map,ends,map_some]
    dsimp only
    split
    · rename_i final
      rw [without]
      split
      · subst name
        rw [eraseSwap_exact distinct tail,if_pos final]
      · rename_i apart
        rw [filter_apart (elsewhere e present (Ne.symm apart))]
    · rename_i earlier
      have moved : ∀ x ∈ pit.filter (fun x => x.id ≠ last.id), (if x.id = e.id then last else x).nte = x.nte := by
        intro x listed
        split
        · rename_i mine
          rw [same x (mem_filter.mp listed).1 e present mine,beside]
        · rfl
      have mapped : (pitEntries ((pit.filter (fun x => x.id ≠ last.id)).map (fun x => if x.id = e.id then last else x)) name).map Entry.id =
          ((pitEntries (pit.filter (fun x => x.id ≠ last.id)) name).map Entry.id).map (fun k => if k = e.id then last.id else k) := by
        rw [pitEntries,List.filter_map,List.map_map,List.map_map]
        rw [filter_congr (q := fun x => decide (x.nte = name)) (fun x listed => by simp [moved x listed])]
        refine map_congr_left (fun x _ => ?_)
        simp only [comp_apply]
        split <;> rfl
      rw [mapped,without]
      split
      · subst name
        rw [eraseSwap_exact distinct tail,if_neg earlier]
      · rename_i apart
        rw [filter_apart (elsewhere last inside (beside ▸ Ne.symm apart)),map_apart (elsewhere e present (Ne.symm apart))]

theorem findMatch_exact (ids : (pit.map Entry.id).Nodup) (attached : Attached pit tree) (held : tree.ht.contents a = some n)
    (named : n.entry.name = i.name.take (nteDepth i.name)) : findMatch pit.get i n = (Pit.find pit i).map Entry.id := by
  have listed : n.entry.pitEntries = (pitEntries pit n.entry.name).map Entry.id := by
    rw [← attached.entries a n.entry.name (by simp [labelOf,held]),entriesOf_held held]
    rfl
  rw [findMatch,listed,find?_map,named]
  rw [Pit.find,← head?_filter,← head?_filter]
  refine congrArg (fun xs => (head? xs).map Entry.id) (filter_congr fun e inside => ?_)
  simp [get_of_mem ids (mem_filter.mp inside).1]

theorem Pit.pitEntries_append : pitEntries (pit ++ [e]) name = pitEntries pit name ++ if e.nte = name then [e] else [] := by
  by_cases here : e.nte = name <;> simp [pitEntries,here]

theorem Pit.length_erase (ids : (pit.map Entry.id).Nodup) (present : e ∈ pit) : (Pit.erase pit e).length = pit.length - 1 := by
  have same : ∀ x ∈ pit, ∀ y ∈ pit, x.id = y.id → x = y := fun x inX y inY => inj_on_of_nodup_map ids inX inY
  have distinct : pit.Nodup := ids.of_map
  have perm : (Pit.erase pit e).Perm (List.erase pit e) := by
    refine (perm_ext_iff_of_nodup (erase_ids ids).of_map (distinct.erase e)).mpr fun x => ?_
    rw [mem_erase ids present,distinct.mem_erase_iff]
    constructor
    · rintro ⟨inside,other⟩
      exact ⟨fun equal => other (equal ▸ rfl),inside⟩
    · rintro ⟨other,inside⟩
      exact ⟨inside,fun equal => other (same x inside e present equal)⟩
  rw [perm.length_eq,length_erase_of_mem present]

namespace Paired

theorem unowned (paired : Paired hash s tables) (fresh : ∀ e ∈ s.pit, e.id ≠ id) : tables.tree.owner .pit id = none := by
  refine eq_none_iff_forall_ne_some.mpr fun a attached => ?_
  obtain ⟨e,present,same,_⟩ := paired.attached.origin (((paired.sound.tree.owned .pit).listed a id).mpr attached)
  exact fresh e present same

theorem persists (paired : Paired hash s tables) (persists : Persists s t) : Paired hash t tables := by
  refine ⟨paired.sound,paired.attached.persists persists,?_⟩
  obtain ⟨f,mapped,_⟩ := persists
  rw [paired.size,mapped,length_map]

theorem insert (options : HashtableOptions) (paired : Paired hash s tables) (represented : Represented s) (i : Interest) :
    ∃ after, TreeTables.step hash options tables (.pitFindOrInsert s.pit.get i true s.nextEntry) = some after ∧
      Paired hash (admitted s i).1 after := by
  have loose := paired.unowned (fun e present => Nat.ne_of_lt (represented.fresh e present))
  obtain ⟨after,found,isNew,middle,nte,n,ran,does,soundMiddle,inserts⟩ :=
    pitInsert_does options paired.sound s.pit.get i s.nextEntry loose
  obtain ⟨held,named⟩ := inserts.place
  have attached := paired.attached.undisturbed soundMiddle.tree inserts.still
  have matched := findMatch_exact represented.ids attached held named
  refine ⟨after,by simp [TreeTables.step,loose,ran],?_⟩
  rcases admitted_cases s i with ⟨e,known,equal⟩ | ⟨unknown,equal⟩
  · obtain rfl := inserts.found (by simp [matched,known])
    rw [equal]
    exact ⟨does.sound,attached,inserts.still.size.trans paired.size⟩
  · obtain ⟨changes,size⟩ := inserts.missing (by simp [matched,unknown])
    rw [equal]
    have here : (newEntry s.nextEntry s.interests.length i).nte = n.entry.name := named.symm
    have label : labelOf middle.tree.ht.contents nte = some n.entry.name := by simp [labelOf,held]
    refine ⟨does.sound,attached.changes soundMiddle.tree changes label ?_ (fun other apart => ?_) (fun e present => ?_),?_⟩
    · rw [inserted,pitEntries_append,if_pos here,map_append,← attached.entries nte _ label,entriesOf_held held]
      rfl
    · rw [inserted,pitEntries_append,if_neg (here ▸ Ne.symm apart),append_nil]
    · rcases mem_append.mp present with old | new
      · exact .inl old
      · cases mem_singleton.mp new
        exact .inr here
    · rw [size,inserts.still.size,paired.size]
      simp [inserted]

theorem erase (options : HashtableOptions) (paired : Paired hash s tables) (represented : Represented s) (present : e ∈ s.pit) (pit : t.pit = s.pit.erase e) :
    ∃ after, TreeTables.step hash options tables (.pitErase e.id true) = some after ∧ Paired hash t after := by
  obtain ⟨a,label,listed⟩ := paired.attached.listed present
  obtain ⟨n,held,named⟩ := holds_label.mpr label
  have owner := ((paired.sound.tree.owned .pit).listed a e.id).mp listed
  obtain ⟨after,erased,ran,does,changes,shrinks,size⟩ := pitErase_does options paired.sound owner held true
  have own : n.entry.pitEntries = (pitEntries s.pit e.nte).map Entry.id := by
    rw [← paired.attached.entries a e.nte label,entriesOf_held held]
    rfl
  have left : Attached (s.pit.erase e) erased := by
    refine paired.attached.changes paired.sound.tree changes label ?_ (fun other apart => ?_) (fun x listed => ?_)
    · rw [pitEntries_erase represented.ids present,if_pos rfl,own]
    · rw [pitEntries_erase represented.ids present,if_neg apart]
    · exact .inl ((mem_erase represented.ids present).mp listed).1
  refine ⟨after,ran,does.sound,?_,?_⟩
  · rw [pit]
    have still : TreeTables.Undisturbed .pit { after with tree := erased } after := .shrinks shrinks rfl
    exact left.undisturbed does.sound.tree still
  · have pos := length_pos_of_mem present
    rw [size,paired.size,pit,length_erase represented.ids present]
    omega

end Paired

theorem arrival_persists (arrival : Arrival env s packet ingress choices t) (accepted : screen env s packet ingress = .accepted i) :
    Persists (admitted s i).1 t := by
  have enrolled : ∀ {known}, insertPitToken env (admitted s i).1 i choices.words = some known → Persists (admitted s i).1 known :=
    fun ensured => ⟨fun e => e,by simp [(insertPitToken_enrolled ensured).pit],fun _ => ⟨rfl,rfl,rfl⟩⟩
  have recorded : ∀ {before after : State}, Quiet (before.insertOrUpdateInRecord (admitted s i).2 ingress s.interests.length) after →
      Persists before after := by
    intro before after quiet
    have written : Persists before (before.insertOrUpdateInRecord (admitted s i).2 ingress s.interests.length) :=
      .modifyEntry (fun _ => ⟨rfl,rfl,rfl⟩)
    exact written.trans (.quiet quiet)
  cases arrival with
  | refused refused _ => exact (refused i accepted).elim
  | raised again _ =>
    cases accepted.symm.trans again
    exact .quiet (.refl _)
  | unanswered again _ quiet =>
    cases accepted.symm.trans again
    exact .quiet quiet
  | reflected again _ before after =>
    cases accepted.symm.trans again
    exact (Persists.quiet before).trans (recorded after)
  | closed again _ ensured quiet =>
    cases accepted.symm.trans again
    exact (enrolled ensured).trans (.quiet quiet)
  | forwarded again _ ensured before after =>
    cases accepted.symm.trans again
    exact ((enrolled ensured).trans (.quiet before)).trans (recorded after)

theorem routine_calls (routine : Routine s event) : pitCalls env s event = [] := by
  cases event with
  | interest => exact routine.elim
  | timer id =>
    rw [pitCalls]
    split
    · rename_i timer found
      split
      · rename_i own task
        exact (routine timer own found task).elim
      · rfl
    · rfl
  | _ => rfl

theorem handle_paired (sound : Sound env s) (timely : Timely s) (represented : Represented s) (paired : Paired hash s tables)
    (handled : handle env s event = some t) :
    ∃ after, run (TreeTables.step hash options) tables (pitCalls env s event) = some after ∧ Paired hash t after := by
  cases handle_cases sound handled with
  | @interest inFace arriving drawn _ here arrived =>
    have arrival := interest_arrival arrived
    cases screened : screen env s arriving inFace with
    | accepted i =>
      obtain ⟨after,ran,inserted⟩ := paired.insert options represented i
      exact ⟨after,by simp [pitCalls,screened,run,ran],inserted.persists (arrival_persists arrival screened)⟩
    | dropped | loop =>
      exact ⟨tables,by simp [pitCalls,screened,run],paired.persists (.quiet (arrival.quiet (by simp [screened])))⟩
  | @finalize timerId timer own found task =>
    obtain ⟨e,alive⟩ := fired_alive timely (mem_of_find?_eq_some found) task
    obtain ⟨present,rfl⟩ := get_id alive
    have gone : (onInterestFinalize env (s.cancelTimer (some timer.id)) e.id).pit = s.pit.erase e := finalize_pit alive
    obtain ⟨after,ran,left⟩ := paired.erase options represented present gone
    exact ⟨after,by simp [pitCalls,found,task,run,ran],left⟩
  | routine routine trace => exact ⟨tables,by rw [routine_calls routine]; rfl,paired.persists (.quiet trace.quiet)⟩

def OutRecord.written (r : OutRecord) : Face × Nonce × Int × Int := (r.face,r.lastNonce,r.lastRenewed,r.expiry)

-- A change during a pipeline run: out-records are left as they are or deleted,
-- and no Interest is sent, or one Interest is sent, for an entry that it
-- matches, and written into that entry's out-record.
inductive RecordStep (u v : State) : Prop where
  | keeps : (∀ e' ∈ v.pit, ∀ r' ∈ e'.outRecords, ∃ e ∈ u.pit, e.id = e'.id ∧ ∃ r ∈ e.outRecords, r.written = r'.written) →
      v.sent.filterMap Effect.upstream = u.sent.filterMap Effect.upstream → RecordStep u v
  | writes (object : ObjId) (egress : Face) (e : Entry) : e ∈ u.pit → e.canMatch (u.interest object) 0 →
      v = (transmit u object egress e.id).1 → RecordStep u v

theorem Inherits.recordStep (inherits : Inherits u t) (silent : t.sent.filterMap Effect.upstream = u.sent.filterMap Effect.upstream) :
    RecordStep u t := by
  refine .keeps (fun e' present r' listed => ?_) silent
  obtain ⟨e,inside,id,_,r,old,facts⟩ := inherits e' present r' listed
  simp only [OutRecord.facts,Prod.mk.injEq] at facts
  exact ⟨e,inside,id,r,old,by simp [OutRecord.written,facts]⟩

theorem permitted_recordStep (represented : Represented u) (permitted : Permitted env s event u move) :
    RecordStep u (enact env u move) := by
  have plain : move.writes = false → RecordStep u (enact env u move) := fun plain =>
    (permitted.inherits plain represented).recordStep (permitted.upstream plain)
  cases permitted with
  | @transmit _ object own egress meets =>
    obtain ⟨_,e,present,rfl,key⟩ := meets
    exact .writes object egress e present (Entry.canMatch_key.mpr key) rfl
  | @setIncomingNack _ own face reason =>
    refine .keeps (fun e' present r' listed => ?_) rfl
    obtain ⟨e,inside,rfl⟩ := mem_map.mp present
    refine ⟨e,inside,by split <;> rfl,?_⟩
    have same : (if e.id = own then e.updateOutRecord face (fun r => { r with incomingNack := some reason }) else e).outRecords.map
        OutRecord.written = e.outRecords.map OutRecord.written := by
      split
      · exact Keyed.modifyFirst_map (fun _ => rfl)
      · rfl
    exact mem_map.mp (same ▸ mem_map_of_mem listed)
  | _ => exact plain rfl

theorem handle_recordSteps (sound : Sound env s) (timely : Timely s) (represented : Represented s) (handled : handle env s event = some t) :
    Relation.ReflTransGen RecordStep s t :=
  (handle_moves sound timely represented handled).relatedWhile (fun _ => .refl) (fun _ _ _ => .trans)
    (fun _ _ => permitted_represented) (fun _ _ represented permitted => .single (permitted_recordStep represented permitted)) represented

structure Daemon.PitRepresented (d : Daemon) : Prop where
  objects : ∀ a n, d.tables.tree.ht.contents a = some n → n.entry.pitEntries.Nodup ∧
    ∀ id ∈ n.entry.pitEntries, ∃ e ∈ d.forwarder.pit, e.id = id
  attached : ∀ e ∈ d.forwarder.pit, ∃ a n, d.tables.tree.ht.contents a = some n ∧ e.id ∈ n.entry.pitEntries
  unique : ∀ a b n m, d.tables.tree.ht.contents a = some n → d.tables.tree.ht.contents b = some m →
    ∀ x ∈ n.entry.pitEntries, ∀ y ∈ m.entry.pitEntries, ∀ e f, d.forwarder.pit.get x = some e → d.forwarder.pit.get y = some f →
      e.name = f.name → e.canBePrefix = f.canBePrefix → e.mustBeFresh = f.mustBeFresh → a = b ∧ x = y
  size : d.tables.nItems .pit = ({id | ∃ a n, d.tables.tree.ht.contents a = some n ∧ id ∈ n.entry.pitEntries} : Set EntryId).ncard
  finite : ({id | ∃ a n, d.tables.tree.ht.contents a = some n ∧ id ∈ n.entry.pitEntries} : Set EntryId).Finite
  inRecords : ∀ e ∈ d.forwarder.pit, Keyed.Distinct InRecord.face e.inRecords
  outRecords : ∀ e ∈ d.forwarder.pit, Keyed.Distinct OutRecord.face e.outRecords
  matching : ∀ e ∈ d.forwarder.pit, ∀ r ∈ e.inRecords, e.canMatch (d.forwarder.interest r.interest) 0

def Daemon.NamesUnique (d : Daemon) : Prop :=
  ∀ a b n m, d.tables.tree.ht.contents a = some n → d.tables.tree.ht.contents b = some m →
    ∀ x ∈ n.entry.pitEntries, ∀ y ∈ m.entry.pitEntries, ∀ e f, d.forwarder.pit.get x = some e → d.forwarder.pit.get y = some f →
      e.name.decoded = f.name.decoded → e.canBePrefix = f.canBePrefix → e.mustBeFresh = f.mustBeFresh → a = b ∧ x = y

theorem Daemon.PitRepresented.namesUnique {d : Daemon} (represented : d.PitRepresented) (named : ∀ e ∈ d.forwarder.pit, e.name.Shortest) :
    d.NamesUnique := by
  intro a b n m held there x inX y inY e f foundE foundF same
  rw [Name.decoded_shortest (named e (Pit.get_id foundE).1),Name.decoded_shortest (named f (Pit.get_id foundF).1)] at same
  exact represented.unique a b n m held there x inX y inY e f foundE foundF same

theorem Paired.ids (paired : Paired hash s tables) :
    {id | ∃ a n, tables.tree.ht.contents a = some n ∧ id ∈ n.entry.pitEntries} = {id | id ∈ s.pit.map Entry.id} := by
  ext id
  constructor
  · rintro ⟨a,n,held,listed⟩
    obtain ⟨e,present,same,_⟩ := paired.attached.origin (a := a) (by rwa [entriesOf_held held])
    exact mem_map.mpr ⟨e,present,same⟩
  · intro listed
    obtain ⟨e,present,rfl⟩ := mem_map.mp listed
    obtain ⟨a,label,inside⟩ := paired.attached.listed present
    obtain ⟨n,held,_⟩ := holds_label.mpr label
    rw [entriesOf_held held] at inside
    exact ⟨a,n,held,inside⟩

theorem Paired.represented {d : Daemon} (paired : Paired hash d.forwarder d.tables) (represented : Represented d.forwarder) :
    d.PitRepresented := by
  have origin : ∀ {a n id}, d.tables.tree.ht.contents a = some n → id ∈ n.entry.pitEntries →
      ∃ e ∈ d.forwarder.pit, e.id = id ∧ labelOf d.tables.tree.ht.contents a = some e.nte :=
    fun {a n id} held listed => paired.attached.origin (by rwa [entriesOf_held held])
  have count : ({id | id ∈ d.forwarder.pit.map Entry.id} : Set EntryId) = ↑(d.forwarder.pit.map Entry.id).toFinset := by
    ext id
    simp
  refine ⟨fun a n held => ⟨?_,fun id listed => ?_⟩,fun e present => ?_,fun a b n m held there x inX y inY e f foundE foundF name canBePrefix mustBeFresh => ?_,
    ?_,?_,fun e present => (represented.entries e present).inRecords,fun e present => (represented.entries e present).outRecords,
    fun e present r listed => ?_⟩
  · simpa [entriesOf_held held,TreeEntry.entries] using (paired.sound.tree.owned .pit).distinct a
  · obtain ⟨e,present,same,_⟩ := origin held listed
    exact ⟨e,present,same⟩
  · exact (paired.ids.symm ▸ mem_map_of_mem present :
      e.id ∈ {id | ∃ a n, d.tables.tree.ht.contents a = some n ∧ id ∈ n.entry.pitEntries})
  · obtain ⟨e',presentE,rfl,labelE⟩ := origin held inX
    obtain ⟨f',presentF,rfl,labelF⟩ := origin there inY
    cases (get_of_mem represented.ids presentE).symm.trans foundE
    cases (get_of_mem represented.ids presentF).symm.trans foundF
    have same : e = f := inj_on_of_nodup_map represented.keys presentE presentF (by simp [Entry.key,name,canBePrefix,mustBeFresh])
    subst same
    exact ⟨label_unique paired.sound.tree labelE labelF,rfl⟩
  · rw [paired.size,paired.ids,count,Set.ncard_coe_finset,toFinset_card_of_nodup represented.ids,length_map]
  · rw [paired.ids,count]
    exact Finset.finite_toSet _
  · exact Entry.canMatch_key.mpr ((represented.entries e present).downstreams r listed).2

theorem Daemon.step_parts {d d' : Daemon} (taken : d.step env hash options (.pipeline event) = some d') :
    ReflexiveNfd.step env d.forwarder event = some d'.forwarder ∧
      run (TreeTables.step hash options) d.tables (pitCalls env d.forwarder event) = some d'.tables := by
  obtain ⟨forwarder,stepped,rest⟩ := bind_eq_some_iff.mp taken
  obtain ⟨tables,ran,made⟩ := bind_eq_some_iff.mp rest
  cases made
  exact ⟨stepped,ran⟩

theorem step_paired (options : HashtableOptions) (path : Reached env s) (paired : Paired hash s tables) (taken : step env s event = some t) :
    ∃ after, run (TreeTables.step hash options) tables (pitCalls env s event) = some after ∧ Paired hash t after :=
  handle_paired (s := { s with sent := [] }) (reached_sound path).cleared (reached_timely path).cleared
    ((reached_represented path).same rfl) { paired with } taken

theorem daemon_paired {d : Daemon} (path : Transition.Reached (Daemon.step env hash options) (Daemon.Started options) d) :
    Reached env d.forwarder ∧ Paired hash d.forwarder d.tables := by
  refine Transition.Reached.invariant (P := fun d => Reached env d.forwarder ∧ Paired hash d.forwarder d.tables) ?_ ?_ path
  · rintro ⟨s,tables⟩ ⟨initial,rfl⟩
    have empty : s.pit = [] := initial.pit
    have fresh : Transition.Reached (TreeTables.step hash options) (· = .new options) (.new options) := .start rfl
    refine ⟨.start initial,TreeTables.reached_sound fresh,⟨fun a name label => ?_,?_⟩,?_⟩
    · simp [TreeTables.new,NameTree.new,Hashtable.new,computeThresholds,Hashtable.contents,LinkedList.valueAt,labelOf] at label
    · simp [empty]
    · simp [empty,TreeTables.new]
  · rintro d event d' ⟨reached,paired⟩ taken
    cases event with
    | pipeline event =>
      obtain ⟨stepped,ran⟩ := Daemon.step_parts taken
      obtain ⟨after,again,kept⟩ := step_paired options reached paired stepped
      cases ran.symm.trans again
      exact ⟨reached.next stepped,kept⟩
    | table call =>
      obtain ⟨apart,rest⟩ := ite_none_left_eq_some.mp taken
      obtain ⟨after,called,rfl⟩ := map_eq_some_iff.mp rest
      obtain ⟨u,again,does⟩ := step_does paired.sound (step_admissible paired.sound called)
      cases called.symm.trans again
      have still := does.others .pit (Ne.symm apart)
      exact ⟨reached,does.sound,paired.attached.undisturbed does.sound.tree still,still.size.trans paired.size⟩

-- In every state of the daemon the tree holds the octets of each name and selectors
-- once, and thereby each name once if all are in their shortest encoding, and all
-- records match their entries. Every pipeline run goes through on the tree.
theorem pit_representation {d : Daemon} (path : Transition.Reached (Daemon.step env hash options) (Daemon.Started options) d) :
    d.PitRepresented ∧ ((∀ e ∈ d.forwarder.pit, e.name.Shortest) → d.NamesUnique) ∧ ∀ event t, step env d.forwarder event = some t →
      Relation.ReflTransGen RecordStep { d.forwarder with sent := [] } t ∧
      ∃ tables, d.step env hash options (.pipeline event) = some ⟨t,tables⟩ := by
  obtain ⟨reached,paired⟩ := daemon_paired path
  have represented := reached_represented reached
  refine ⟨paired.represented represented,(paired.represented represented).namesUnique,fun event t taken => ⟨?_,?_⟩⟩
  · exact handle_recordSteps (reached_sound reached).cleared (reached_timely reached).cleared (represented.same rfl) taken
  · obtain ⟨after,ran,_⟩ := step_paired options reached paired taken
    exact ⟨after,by simp [Daemon.step,taken,ran]⟩

theorem pit_representation_exchanged :
    ∃ d, run (Daemon.step Demo.env (xorHash fun _ => 5) (.default 2 (by decide))) ⟨node .bestRoute,.new (.default 2 (by decide))⟩
        [.pipeline (.interest (request 7 1) consumer { words := [1] }),.table (.fibInsert [testApp]),
          .pipeline (.interest (answer 1 2) producer {})] = some d ∧
      (d.tables.nItems .pit = 2 ∧ ∀ e ∈ d.forwarder.pit, e.name.Shortest) ∧ d.PitRepresented ∧ d.NamesUnique := by
  refine run_shows (by decide) fun d taken ⟨_,named⟩ => ?_
  obtain ⟨represented,unique,_⟩ := pit_representation (run_reached (.start ⟨node_initial,rfl⟩) taken)
  exact ⟨represented,unique named⟩

-- Two Interests with one name and the same selectors, but other octets.
theorem pit_representation_twice :
    (WireName.wireDecode (7 :: 11 :: 253 :: 0 :: testApp.octets)).map WireName.key = some [longTestApp] ∧
      ∃ d, Transition.Reached (Daemon.step Demo.env (xorHash fun _ => 5) (.default 2 (by decide))) (Daemon.Started (.default 2 (by decide))) d ∧
        ∃ e ∈ d.forwarder.pit, ∃ f ∈ d.forwarder.pit, e.id ≠ f.id ∧ e.name.decoded = f.name.decoded ∧
          e.canBePrefix = f.canBePrefix ∧ e.mustBeFresh = f.mustBeFresh ∧ d.tables.nItems .pit = 2 :=
  ⟨by decide,reached_shows ⟨node .bestRoute,.new (.default 2 (by decide))⟩
    [.pipeline (.interest { name := [testApp], nonce := 1 } consumer {}),.pipeline (.interest { name := [longTestApp], nonce := 2 } consumer {})]
    ⟨node_initial,rfl⟩ (by decide)⟩

end ReflexiveNfd

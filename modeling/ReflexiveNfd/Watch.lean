import ReflexiveNfd.Representation

namespace ReflexiveNfd
open Actions Timers List Option Nat Scheduler
variable {s t u : State} {e e' : Entry} {id : EntryId} {name target : Name} {choice changed : StrategyChoice}

theorem deepest_succ :
    (range (n + 1)).reverse.findSome? f = (f n).or ((range n).reverse.findSome? f) := by
  rw [range_succ,reverse_append,reverse_singleton,singleton_append,findSome?_cons]
  cases f n <;> rfl

theorem deepest_congr (agree : ∀ d, d < n → g d = f d) :
    (range n).reverse.findSome? g = (range n).reverse.findSome? f := by
  induction n with
  | zero => rfl
  | succ n ih => rw [deepest_succ,deepest_succ,agree n (by omega),ih (fun d low => agree d (by omega))]

theorem deepest_agree (hit : (f m).isSome) (bound : m < n)
    (agree : ∀ d, m ≤ d → d < n → g d = f d) :
    (range n).reverse.findSome? g = (range n).reverse.findSome? f := by
  induction n with
  | zero => omega
  | succ n ih =>
    rw [deepest_succ,deepest_succ,agree n (by omega) (by omega)]
    by_cases last : m = n
    · subst last
      obtain ⟨x,found⟩ := isSome_iff_exists.mp hit
      rw [found]
      rfl
    · rw [ih (by omega) (fun d low high => agree d low (by omega))]

theorem deepest_skip (bound : m ≤ n) (miss : ∀ d, m ≤ d → d < n → f d = none) :
    (range n).reverse.findSome? f = (range m).reverse.findSome? f := by
  induction n with
  | zero => rw [show m = 0 by omega]
  | succ n ih =>
    by_cases last : m = n + 1
    · rw [last]
    · rw [deepest_succ,miss n (by omega) (by omega),none_or]
      exact ih (by omega) (fun d low high => miss d low (by omega))

theorem effective_congr (same : findLongestPrefixMatch StrategyChoiceEntry.name changed target =
    findLongestPrefixMatch StrategyChoiceEntry.name choice name) : changed.findEffectiveStrategy target = choice.findEffectiveStrategy name := by
  unfold StrategyChoice.findEffectiveStrategy
  rw [same]

section
variable (others : ∀ p, p ≠ name → changed.find? (fun c => c.name = p) = choice.find? (fun c => c.name = p))
include others

theorem effective_outside
    (outside : ¬ name <+: target) : changed.findEffectiveStrategy target = choice.findEffectiveStrategy target := by
  refine effective_congr ?_
  unfold findLongestPrefixMatch
  congr 1
  funext depth
  refine others _ (fun equal => outside ?_)
  rw [← equal]
  exact take_prefix depth target

theorem effective_below
    (listed : c ∈ choice) (deeper : name.length < c.name.length) (under : c.name <+: target) (reach : c.name.length ≤ maxDepth) :
    changed.findEffectiveStrategy target = choice.findEffectiveStrategy target := by
  have length := under.length_le
  refine effective_congr ?_
  refine deepest_agree (m := c.name.length) ?_ (by omega) (fun d low high => others _ (fun equal => ?_))
  · rw [find?_isSome]
    exact ⟨c,listed,by simpa using prefix_iff_eq_take.mp under⟩
  · have short := congrArg List.length equal
    rw [length_take] at short
    omega

end

theorem effective_inside (inside : name <+: target) (reach : name.length ≤ maxDepth)
    (none : ∀ c ∈ choice, name.length < c.name.length → c.name.length ≤ maxDepth → ¬ c.name <+: target) :
    choice.findEffectiveStrategy target = choice.findEffectiveStrategy name := by
  have length := inside.length_le
  refine effective_congr ?_
  unfold findLongestPrefixMatch
  rw [deepest_skip (m := min name.length maxDepth + 1) (by omega) (fun d low high => ?_)]
  · refine deepest_congr (fun d low => ?_)
    rw [prefix_iff_eq_take.mp inside,take_take,Nat.min_eq_left (by omega)]
  · rw [find?_eq_none]
    intro c listed equal
    have level : c.name = target.take d := by simpa using equal
    have long : c.name.length = d := by rw [level,length_take]; omega
    exact none c listed (by omega) (by omega) (level ▸ take_prefix d target)

theorem effective_record (found : choice.find? (fun c => c.name = name) = some c) (reach : name.length ≤ maxDepth) :
    choice.findEffectiveStrategy name = c.strategy := by
  unfold StrategyChoice.findEffectiveStrategy findLongestPrefixMatch
  rw [Nat.min_eq_left reach,deepest_succ,take_length,found]
  rfl

theorem effective_unrecorded (missing : choice.find? (fun c => c.name = name) = none) (reach : name.length ≤ maxDepth)
    (named : name ≠ []) : choice.findEffectiveStrategy name = choice.findEffectiveStrategy name.dropLast := by
  have long : 0 < name.length := length_pos_iff.mpr named
  refine effective_congr ?_
  unfold findLongestPrefixMatch
  rw [Nat.min_eq_left reach,deepest_succ,take_length,missing,none_or,length_dropLast,
    Nat.min_eq_left (by omega),Nat.sub_add_cancel long]
  refine deepest_congr (fun d low => ?_)
  rw [dropLast_eq_take,take_take,Nat.min_eq_left (by omega)]

structure Reassigned (choice : StrategyChoice) (name : Name) (old new : Strategy) (changed : StrategyChoice) : Prop where
  others : ∀ p, p ≠ name → changed.find? (fun c => c.name = p) = choice.find? (fun c => c.name = p)
  listed : ∀ c ∈ changed, c.name ≠ name → c ∈ choice
  before : name.length ≤ maxDepth → choice.findEffectiveStrategy name = old
  after : name.length ≤ maxDepth → changed.findEffectiveStrategy name = new

theorem reassigned_replace (found : choice.find? (fun c => c.name = name) = some c) :
    Reassigned choice name c.strategy strategy (choice.map (fun c => if c.name = name then ⟨name,strategy⟩ else c)) := by
  have kept : ∀ p, (fun c : StrategyChoiceEntry => decide (c.name = p)) ∘
      (fun c => if c.name = name then (⟨name,strategy⟩ : StrategyChoiceEntry) else c) = fun c => decide (c.name = p) := by
    intro p
    funext c
    by_cases mine : c.name = name <;> simp [mine]
  have searched : ∀ p, (choice.map (fun c => if c.name = name then (⟨name,strategy⟩ : StrategyChoiceEntry) else c)).find?
      (fun c => c.name = p) = (choice.find? (fun c => c.name = p)).map
        (fun c => if c.name = name then ⟨name,strategy⟩ else c) := by
    intro p
    rw [find?_map,kept]
  have named : c.name = name := by simpa using find?_some found
  refine ⟨fun p other => ?_,fun x inside other => ?_,effective_record found,fun reach => ?_⟩
  · rw [searched]
    cases held : choice.find? (fun c => c.name = p) with
    | none => rfl
    | some x =>
      have same : x.name = p := by simpa using find?_some held
      rw [map_some,if_neg (same ▸ other)]
  · obtain ⟨old,there,equal⟩ := mem_map.mp inside
    split at equal
    · subst equal
      exact absurd rfl other
    · exact equal ▸ there
  · refine effective_record (c := ⟨name,strategy⟩) ?_ reach
    rw [searched,found,map_some,if_pos named]

theorem reassigned_add (missing : choice.find? (fun c => c.name = name) = none) :
    Reassigned choice name (choice.findEffectiveStrategy name) strategy (choice ++ [⟨name,strategy⟩]) := by
  refine ⟨fun p other => ?_,fun c inside other => ?_,fun _ => rfl,fun reach => ?_⟩
  · rw [find?_append,find?_singleton,if_neg (by simpa using Ne.symm other),or_none]
  · rcases mem_append.mp inside with old | new
    · exact old
    · cases mem_singleton.mp new
      exact absurd rfl other
  · refine effective_record (c := ⟨name,strategy⟩) ?_ reach
    rw [find?_append,missing,none_or,find?_singleton]
    simp

theorem reassigned_remove (found : choice.find? (fun c => c.name = name) = some c) (named : name ≠ []) :
    Reassigned choice name c.strategy (choice.findEffectiveStrategy name.dropLast) (choice.filter (fun c => c.name ≠ name)) := by
  have others : ∀ p, p ≠ name → (choice.filter (fun c => c.name ≠ name)).find? (fun c => c.name = p) =
      choice.find? (fun c => c.name = p) := by
    intro p other
    rw [find?_filter]
    congr 1
    funext c
    by_cases mine : c.name = p <;> simp [mine,other]
  refine ⟨others,fun c inside _ => (mem_filter.mp inside).1,effective_record found,fun reach => ?_⟩
  have missing : (choice.filter (fun c => c.name ≠ name)).find? (fun c => c.name = name) = none := by
    rw [find?_eq_none]
    intro c inside
    simpa using (mem_filter.mp inside).2
  rw [effective_unrecorded missing reach named]
  refine effective_outside others (fun under => ?_)
  have short := under.length_le
  have long : 0 < name.length := length_pos_iff.mpr named
  rw [length_dropLast] at short
  omega

theorem nte_length (e : Entry) : e.nte.length ≤ maxDepth := by
  unfold Entry.nte nteDepth
  rw [length_take]
  omega

theorem Reassigned.kind (reassigned : Reassigned choice name old new changed) (under : name <+: e.name → name <+: e.nte) :
    (changed.findEffectiveStrategy e.name).kind = (choice.findEffectiveStrategy e.name).kind ∨
      (old.kind ≠ new.kind ∧ governed (choice.map StrategyChoiceEntry.name) name e) := by
  by_cases inside : name <+: e.name
  · have reach : name.length ≤ maxDepth := le_trans (under inside).length_le (nte_length e)
    by_cases deeper : ∃ c ∈ choice, name.length < c.name.length ∧ c.name.length ≤ maxDepth ∧ c.name <+: e.name
    · obtain ⟨c,listed,longer,shallow,beneath⟩ := deeper
      exact .inl (congrArg Strategy.kind (effective_below reassigned.others listed longer beneath shallow))
    · have none : ∀ c ∈ choice, name.length < c.name.length → c.name.length ≤ maxDepth → ¬ c.name <+: e.name :=
        fun c listed longer shallow beneath => deeper ⟨c,listed,longer,shallow,beneath⟩
      by_cases same : old.kind = new.kind
      · left
        rw [effective_inside inside reach none,effective_inside inside reach (fun c listed longer => ?_),reassigned.before reach,
          reassigned.after reach,same]
        have other : c.name ≠ name := fun equal => by rw [equal] at longer; omega
        exact none c (reassigned.listed c listed other) longer
      · refine .inr ⟨same,?_⟩
        unfold governed
        rw [Bool.and_eq_true,List.isPrefixOf_iff_prefix]
        refine ⟨under inside,?_⟩
        simp only [Bool.not_eq_true',List.any_eq_false,List.mem_map,Bool.and_eq_true,decide_eq_true_eq,List.isPrefixOf_iff_prefix]
        rintro _ ⟨c,listed,rfl⟩ ⟨longer,beneath⟩
        exact none c listed longer (le_trans beneath.length_le (nte_length e)) (beneath.trans (List.take_prefix _ _))
  · exact .inl (congrArg Strategy.kind (effective_outside reassigned.others inside))

theorem setStrategy_cases (s : State) (name : Name) (strategy : Strategy) : setStrategy s name strategy = s ∨ ∃ old new changed,
    Reassigned s.strategyChoice name old new changed ∧
      setStrategy s name strategy = { changeStrategy s name old new with strategyChoice := changed } := by
  unfold setStrategy
  split
  · rename_i c found
    split
    · exact .inl rfl
    · exact .inr ⟨_,_,_,reassigned_replace found,rfl⟩
  · rename_i missing
    exact .inr ⟨_,_,_,reassigned_add missing,rfl⟩

theorem unsetStrategy_cases (named : name ≠ []) : unsetStrategy s name = s ∨ ∃ old new changed,
    Reassigned s.strategyChoice name old new changed ∧
      unsetStrategy s name = { changeStrategy s name old new with strategyChoice := changed } := by
  unfold unsetStrategy
  split
  · exact .inl rfl
  · rename_i c found
    exact .inr ⟨_,_,_,reassigned_remove found named,rfl⟩

theorem changeStrategy_punctual : Punctual s (changeStrategy s name oldStrategy newStrategy) := by
  unfold changeStrategy
  split
  · exact .refl s
  · exact retune_punctual _

theorem Timely.idle (timely : Timely s) (idle : Idle s t) : Timely t := idle.punctual.timely timely

theorem strategy_timely (timely : Timely s) : (∀ strategy, Timely (setStrategy s name strategy)) ∧ Timely (unsetStrategy s name) :=
  strategy_rule timely (fun _ _ _ => (changeStrategy_punctual.timely timely).idle (.of_tables rfl))

theorem insert_timely (timely : Timely s) (represented : Represented s) : Timely (enact env s (.insert object)) :=
  ⟨timely.valid,insert_ids represented,timely.expiry.add rfl,timely.rto.add rfl⟩

theorem permitted_timely (timely : Timely u) (represented : Represented u) (permitted : Permitted env s event u move) :
    Timely (enact env u move) := by
  cases permitted with
  | aside changed => exact timely.idle (.of_tables (by rw [enact,changed.scheduler,changed.pit]))
  | copy | rewrite | hold | addFace | upkeep => exact timely.idle (.of_tables rfl)
  | insert => exact insert_timely timely represented
  | insertInRecord => exact timely.idle recorded_idle
  | transmit => exact timely.idle Idle.outgoing.transmit
  | deleteInRecord => exact timely.idle .deleteInRecord
  | clearInRecords | setIncomingNack | satisfy => exact timely.idle (.modifyEntry (fun _ => ⟨rfl,rfl,rfl⟩))
  | retire => exact timely.idle ((Idle.plain insertDeadNonceList_plain).trans (.modifyEntry (fun _ => ⟨rfl,rfl,rfl⟩)))
  | finalize alive =>
    obtain ⟨e,found⟩ := alive
    exact finalize_timely timely found
  | setExpiryTimer alive => exact (setExpiryTimer_punctual alive).timely timely
  | setRtoTimer alive => exact (setRtoTimer_punctual alive).timely timely
  | cancelTimer => exact timely.cancelTimer
  | jot kept => exact timely.idle (.modifyEntry (fun e => ⟨(kept.trimmed e).id,kept.expiryTimer e,kept.rtoTimer e⟩))
  | removeFace =>
    refine timely.idle ⟨rfl,_,?_,rfl⟩
    exact fun _ => ⟨rfl,rfl,rfl⟩
  | setStrategy => exact (strategy_timely timely).1 _
  | unsetStrategy => exact (strategy_timely timely).2

def Entry.downstreams (e : Entry) : List Face := e.inRecords.map InRecord.face

-- A pending RTO timer belongs to an entry that AccessStrategy governs, and the
-- face it was set for still has its in-record there. Data held back, now or
-- among kept, belongs to entries that SelfLearningStrategy governs.
structure Watched (kept : List Announcing) (s : State) : Prop where
  timers : ∀ x ∈ s.scheduler.pending, ∀ id inFace firstOutFace, x.task = .rtoTimeout id inFace firstOutFace →
    inFace ≤ s.lastFaceId ∧ ∀ e ∈ s.pit, e.id = id →
      s.kindOf e.name = .access ∧ ∀ f ∈ s.faces, f.id = inFace → f ∈ e.downstreams
  held : ∀ a, a ∈ kept ∨ a ∈ s.announcing → a.entry < s.nextEntry ∧
    ∀ e ∈ s.pit, e.id = a.entry → s.kindOf e.name = .selfLearning

structure Sustains (kept : List Announcing) (s t : State) : Prop where
  timers : ∀ x ∈ t.scheduler.pending, ∀ id, retries x.task = some id → x ∈ s.scheduler.pending
  announcing : ∀ a ∈ t.announcing, a ∈ s.announcing
  faces : ∀ f ∈ t.faces, f ∈ s.faces ∨ s.lastFaceId < f.id
  lastFaceId : s.lastFaceId ≤ t.lastFaceId
  nextEntry : s.nextEntry ≤ t.nextEntry
  entries : ∀ e' ∈ t.pit, Armed retries t.scheduler e'.id ∨ (∃ a, (a ∈ kept ∨ a ∈ s.announcing) ∧ a.entry = e'.id) →
    ∃ e ∈ s.pit, e.id = e'.id ∧ t.kindOf e'.name = s.kindOf e.name ∧
      (Armed retries t.scheduler e'.id → ∀ f ∈ t.faces, f ∈ e.downstreams → f ∈ e'.downstreams)

variable {kept : List Announcing}

theorem Watched.sustain (watched : Watched kept s) (sustains : Sustains kept s t) : Watched kept t := by
  refine ⟨fun x pending id inFace firstOutFace task => ?_,fun a listed => ?_⟩
  · have mine : retries x.task = some id := by rw [task]; rfl
    obtain ⟨known,served⟩ := watched.timers x (sustains.timers x pending id mine) id inFace firstOutFace task
    refine ⟨le_trans known sustains.lastFaceId,fun e' present named => ?_⟩
    have armed : Armed retries t.scheduler e'.id := ⟨x,pending,named ▸ mine⟩
    obtain ⟨e,there,same,kind,downstreams⟩ := sustains.entries e' present (.inl armed)
    obtain ⟨access,facing⟩ := served e there (same.trans named)
    refine ⟨kind.trans access,fun f here number => downstreams armed f here ?_⟩
    rcases sustains.faces f here with old | new
    · exact facing f old number
    · exact absurd known (by rw [← number]; exact Nat.not_le_of_lt new)
  · have before := listed.imp_right (sustains.announcing a)
    obtain ⟨bound,governed⟩ := watched.held a before
    refine ⟨lt_of_lt_of_le bound sustains.nextEntry,fun e' present named => ?_⟩
    obtain ⟨e,there,same,kind,_⟩ := sustains.entries e' present (.inr ⟨a,before,named.symm⟩)
    exact kind.trans (governed e there (same.trans named))

namespace Sustains

theorem map (mapped : t.pit = s.pit.map f) (same : ∀ e, (f e).id = e.id ∧ (f e).name = e.name)
    (downstreams : ∀ e ∈ s.pit, Armed retries t.scheduler e.id → ∀ face ∈ e.downstreams, face ∈ (f e).downstreams)
    (timers : ∀ x ∈ t.scheduler.pending, ∀ id, retries x.task = some id → x ∈ s.scheduler.pending)
    (announcing : ∀ a ∈ t.announcing, a ∈ s.announcing) (strategyChoice : t.strategyChoice = s.strategyChoice)
    (faces : t.faces = s.faces) (lastFaceId : t.lastFaceId = s.lastFaceId) (nextEntry : t.nextEntry = s.nextEntry) :
    Sustains kept s t := by
  refine ⟨timers,announcing,fun f here => .inl (faces ▸ here),lastFaceId.ge,nextEntry.ge,fun e' present _ => ?_⟩
  rw [mapped] at present
  obtain ⟨e,there,rfl⟩ := mem_map.mp present
  refine ⟨e,there,(same e).1.symm,?_,fun armed face _ => downstreams e there ((same e).1 ▸ armed) face⟩
  rw [(same e).2,State.kindOf,State.kindOf,State.findEffectiveStrategy,State.findEffectiveStrategy,strategyChoice]

theorem modifyEntry (same : ∀ e, (f e).id = e.id ∧ (f e).name = e.name)
    (downstreams : ∀ e ∈ s.pit, e.id = id → Armed retries s.scheduler id → ∀ face ∈ e.downstreams, face ∈ (f e).downstreams) :
    Sustains kept s (s.modifyEntry id f) := by
  refine map rfl (fun e => ?_) (fun e present armed face listed => ?_) (fun _ pending _ _ => pending) (fun _ held => held) rfl rfl
    rfl rfl
  · split
    · exact same e
    · exact ⟨rfl,rfl⟩
  · split
    · rename_i mine
      exact downstreams e present mine (mine ▸ armed) face listed
    · exact listed

theorem of_tables (same : (t.pit,t.strategyChoice,t.faces,t.lastFaceId,t.nextEntry) = (s.pit,s.strategyChoice,s.faces,s.lastFaceId,s.nextEntry))
    (timers : ∀ x ∈ t.scheduler.pending, ∀ id, retries x.task = some id → x ∈ s.scheduler.pending)
    (announcing : ∀ a ∈ t.announcing, a ∈ s.announcing) : Sustains kept s t := by
  simp only [Prod.mk.injEq] at same
  obtain ⟨pit,strategyChoice,faces,lastFaceId,nextEntry⟩ := same
  exact map (f := fun e => e) (by rw [pit,List.map_id']) (fun _ => ⟨rfl,rfl⟩) (fun _ _ _ _ listed => listed) timers announcing strategyChoice
    faces lastFaceId nextEntry

end Sustains

theorem Entry.insertOrUpdateInRecord_downstreams (listed : face ∈ e.downstreams) :
    face ∈ (e.insertOrUpdateInRecord ingress now object i).downstreams := by
  unfold Entry.downstreams Entry.insertOrUpdateInRecord Keyed.upsert
  split
  · rw [Keyed.modifyFirst_map]
    · exact listed
    · exact fun _ => rfl
  · exact mem_cons_of_mem _ listed

theorem Entry.deleteInRecord_absent (absent : ∀ r ∈ e.inRecords, r.face ≠ face) : e.deleteInRecord face = e := by
  unfold Entry.deleteInRecord Keyed.remove
  rw [eraseP_of_forall_not (by simpa using absent)]

theorem Jot.downstreams (jot : Jot f) : (f e).downstreams = e.downstreams := by
  simpa [Entry.downstreams,InRecord.facts,Function.comp_def] using congrArg (List.map Prod.fst) (jot.inRecords e)

theorem retries_exact : retries task = some id ↔ ∃ inFace firstOutFace, task = .rtoTimeout id inFace firstOutFace := by
  cases task <;> simp [retries]

theorem Timely.retrying (timely : Timely s) (armed : Armed retries s.scheduler id) :
    ∃ x ∈ s.scheduler.pending, retries x.task = some id ∧ ∃ e ∈ s.pit, e.id = id ∧ s.entry id = e ∧ e.rtoTimer = some x.id := by
  obtain ⟨x,pending,mine⟩ := armed
  obtain ⟨e,present,rfl,holds⟩ := timely.rto.covered x pending id mine
  exact ⟨x,pending,mine,e,present,rfl,State.entry_of_get (Pit.get_of_mem timely.ids present),holds⟩

theorem Watched.governed (watched : Watched kept s) (timely : Timely s) (other : s.kindOf (s.entry id).name ≠ .access) :
    ¬ Armed retries s.scheduler id := by
  intro armed
  obtain ⟨x,pending,mine,e,present,named,same,_⟩ := timely.retrying armed
  obtain ⟨inFace,firstOutFace,task⟩ := retries_exact.mp mine
  have access := ((watched.timers x pending id inFace firstOutFace task).2 e present named).1
  rw [same] at other
  exact other access

theorem Disarmed.unarmed (disarmed : Disarmed s id) (timely : Timely s) : ¬ Armed retries s.scheduler id := by
  intro armed
  obtain ⟨x,pending,mine,e,present,named,same,holds⟩ := timely.retrying armed
  exact disarmed x pending (same ▸ holds)

theorem Watched.arm (watched : Watched kept s) (known : inFace ≤ s.lastFaceId)
    (served : ∀ e ∈ s.pit, e.id = id → s.kindOf e.name = .access ∧ ∀ f ∈ s.faces, f.id = inFace → f ∈ e.downstreams) :
    Watched kept { s with scheduler := s.scheduler.schedule due (.rtoTimeout id inFace firstOutFace) } := by
  refine ⟨fun x pending own face out task => ?_,watched.held⟩
  rcases mem_schedule.mp pending with rfl | old
  · cases task
    exact ⟨known,served⟩
  · exact watched.timers x old own face out task

theorem setRtoTimer_watched (watched : Watched kept s) (represented : Represented s) (alive : Alive s id)
    (access : s.kindOf (s.entry id).name = .access) (held : ∃ r ∈ (s.entry id).inRecords, r.face.id = inFace) :
    Watched kept (s.setRtoTimer id delay inFace firstOutFace) := by
  obtain ⟨present,named⟩ := alive.entry
  obtain ⟨r,listed,rfl⟩ := held
  have here := (represented.entries _ present).faces r listed
  have noted : Watched kept (s.modifyEntry id (fun e => { e with rtoTimer := some s.scheduler.nextId })) :=
    watched.sustain (.modifyEntry (fun _ => ⟨rfl,rfl⟩) (fun _ _ _ _ _ inside => inside))
  have cancelled : Watched kept ((s.modifyEntry id (fun e => { e with rtoTimer := some s.scheduler.nextId })).cancelTimer
      (s.entry id).rtoTimer) := by
    refine noted.sustain (.of_tables rfl (fun x pending _ _ => ?_) (fun _ held => held))
    exact (mem_cancel.mp pending).1
  refine cancelled.arm (represented.faceIds.2 r.face here).2 (fun e inside mine => ?_)
  obtain ⟨old,there,equal⟩ := mem_map.mp inside
  split at equal
  · rename_i same
    subst equal
    obtain rfl : old = s.entry id := inj_on_of_nodup_map represented.ids there present (same.trans named.symm)
    refine ⟨access,fun f listedFace number => ?_⟩
    rw [inj_on_of_nodup_map represented.faceIds.1 listedFace here number]
    exact mem_map_of_mem listed
  · rename_i other
    exact absurd (equal ▸ mine) other

theorem hold_watched (watched : Watched kept s) (represented : Represented s) (alive : Alive s a.entry)
    (learning : s.kindOf (s.entry a.entry).name = .selfLearning) : Watched kept { s with announcing := s.announcing ++ [a] } := by
  obtain ⟨present,named⟩ := alive.entry
  refine ⟨watched.timers,fun b listed => ?_⟩
  have cases : (b ∈ kept ∨ b ∈ s.announcing) ∨ b = a := by
    rcases listed with before | now
    · exact .inl (.inl before)
    · rcases mem_append.mp now with old | new
      · exact .inl (.inr old)
      · exact .inr (mem_singleton.mp new)
  rcases cases with old | rfl
  · exact watched.held b old
  · refine ⟨named ▸ represented.fresh _ present,fun e inside mine => ?_⟩
    obtain rfl : e = s.entry b.entry := inj_on_of_nodup_map represented.ids inside present (mine.trans named.symm)
    exact learning

-- A strategy may be set or unset while every entry under its name is attached
-- under it too, and none of them has Data held back.
def Undisturbed (s : State) (name : Name) : Prop :=
  (∀ e ∈ s.pit, name <+: e.name → name <+: e.nte) ∧ ∀ a ∈ s.announcing, ∀ e ∈ s.pit, e.id = a.entry → ¬ name <+: e.name

theorem clearStrategyInfo_downstreams : (clearStrategyInfo e).downstreams = e.downstreams := by
  rw [Entry.downstreams,clearStrategyInfo,List.map_map]
  rfl

theorem reassigned_sustains (reassigned : Reassigned s.strategyChoice name old new changed) (timely : Timely s)
    (undisturbed : Undisturbed s name) :
    Sustains s.announcing s { changeStrategy s name old new with strategyChoice := changed } := by
  have unheld : ∀ e ∈ s.pit, (∃ a, (a ∈ s.announcing ∨ a ∈ s.announcing) ∧ a.entry = e.id) →
      (changed.findEffectiveStrategy e.name).kind = (s.strategyChoice.findEffectiveStrategy e.name).kind := by
    rintro e present ⟨a,listed,named⟩
    exact congrArg Strategy.kind (effective_outside reassigned.others (undisturbed.2 a (or_self_iff.mp listed) e present named.symm))
  unfold changeStrategy
  by_cases same : old.kind = new.kind
  · rw [if_pos same]
    refine ⟨fun _ pending _ _ => pending,fun _ held => held,fun _ here => .inl here,le_refl _,le_refl _,fun e present _ => ?_⟩
    refine ⟨e,present,rfl,?_,fun _ _ _ listed => listed⟩
    rcases reassigned.kind (undisturbed.1 e present) with kind | ⟨other,_⟩
    · exact kind
    · exact absurd same other
  · rw [if_neg same]
    dsimp only
    generalize chosen : governed (s.strategyChoice.map StrategyChoiceEntry.name) name = mine
    refine ⟨fun x pending _ _ => (cancelTimers_pending _ pending).1,?_,?_,?_,?_,fun e' present concern => ?_⟩
    · rw [cancelTimers_form]
      exact fun _ held => held
    · rw [cancelTimers_form]
      exact fun _ here => .inl here
    · rw [cancelTimers_form]
    · rw [cancelTimers_form]
    · obtain ⟨e,there,equal⟩ := mem_map.mp present
      have kept : e'.id = e.id ∧ e'.name = e.name ∧ e'.downstreams = e.downstreams := by
        split at equal
        · exact equal ▸ ⟨rfl,rfl,clearStrategyInfo_downstreams⟩
        · exact equal ▸ ⟨rfl,rfl,rfl⟩
      refine ⟨e,there,kept.1.symm,?_,fun _ _ _ listed => kept.2.2 ▸ listed⟩
      rw [kept.2.1]
      rw [kept.1] at concern
      rcases concern with armed | held
      · rcases reassigned.kind (undisturbed.1 e there) with kind | ⟨_,governing⟩
        · exact kind
        · -- changeStrategy has cancelled the timer of such an entry
          obtain ⟨x,pending,task⟩ := armed
          obtain ⟨before,spared⟩ := cancelTimers_pending _ pending
          obtain ⟨owner,inside,named,holds⟩ := timely.rto.covered x before e.id task
          obtain rfl := inj_on_of_nodup_map timely.ids inside there named
          exact absurd holds (spared owner (mem_filter.mpr ⟨inside,by rw [← chosen]; exact governing⟩))
      · exact unheld e there held

def Orderly (env : Env) (s : State) : Event → Prop
  | .setStrategy name _ => Undisturbed s name
  | .unsetStrategy name => Undisturbed s name
  | event => ¬ Misdirected env s event

theorem Orderly.directed (orderly : Orderly env s event) : ¬ Misdirected env s event := by
  cases event with
  | setStrategy | unsetStrategy => exact fun never => never
  | _ => exact orderly

theorem insert_sustains (watched : Watched kept s) (timely : Timely s) (represented : Represented s) :
    Sustains kept s (enact env s (.insert object)) := by
  refine ⟨fun _ pending _ _ => pending,fun _ held => held,fun _ here => .inl here,le_refl _,le_succ _,fun e present concern => ?_⟩
  rcases mem_append.mp present with old | new
  · exact ⟨e,old,rfl,rfl,fun _ _ _ listed => listed⟩
  · -- nothing can concern the new entry yet
    have named : e.id = s.nextEntry := by rw [mem_singleton.mp new]; rfl
    exfalso
    rcases concern with armed | ⟨a,listed,mine⟩
    · obtain ⟨x,_,_,old,inside,same,_⟩ := timely.retrying armed
      exact lt_irrefl _ (same.trans named ▸ represented.fresh old inside)
    · exact lt_irrefl _ (mine.trans named ▸ (watched.held a listed).1)

theorem finalize_sustains (timely : Timely s) (found : s.pit.get id = some e) : Sustains kept s (onInterestFinalize env s id) := by
  obtain ⟨present,rfl⟩ := Pit.get_id found
  obtain ⟨d,equal⟩ := insertDeadNonceList_form env s e.id none
  have left : ∀ x ∈ s.pit.erase e, x ∈ s.pit := fun x listed => ((Pit.mem_erase timely.ids present).mp listed).1
  unfold onInterestFinalize
  simp only [equal,found]
  refine ⟨fun x pending _ _ => ?_,fun _ held => held,fun _ here => .inl here,le_refl _,le_refl _,fun x listed _ => ?_⟩
  · exact (mem_cancel.mp (mem_cancel.mp pending).1).1
  · exact ⟨x,left x listed,rfl,rfl,fun _ _ _ inside => inside⟩

theorem removeFace_sustains (represented : Represented s) : Sustains kept s (cleanupOnFaceRemoval s face) := by
  refine ⟨fun _ pending _ _ => pending,fun _ held => held,fun _ here => .inl (mem_filter.mp here).1,le_refl _,le_refl _,
    fun e' present _ => ?_⟩
  obtain ⟨e,there,rfl⟩ := mem_map.mp present
  refine ⟨e,there,rfl,rfl,fun _ f here listed => ?_⟩
  obtain ⟨r,inside,rfl⟩ := mem_map.mp listed
  refine mem_map_of_mem ((Keyed.mem_remove (represented.entries e there).inRecords).mpr ⟨inside,?_⟩)
  simpa using (mem_filter.mp here).2

theorem addFace_sustains : Sustains kept s (enact env s (.addFace scope linkType)) := by
  refine ⟨fun _ pending _ _ => pending,fun _ held => held,fun f here => ?_,le_succ _,le_refl _,fun e present _ => ?_⟩
  · rcases mem_append.mp here with old | new
    · exact .inl old
    · rw [mem_singleton.mp new]
      exact .inr (lt_succ_self _)
  · exact ⟨e,present,rfl,rfl,fun _ _ _ listed => listed⟩

section
variable (watched : Watched kept s)
include watched

theorem Watched.modifyEntry (same : ∀ e, (f e).id = e.id ∧ (f e).name = e.name ∧ (f e).downstreams = e.downstreams) : Watched kept (s.modifyEntry id f) := by
  refine watched.sustain (.modifyEntry (fun e => ⟨(same e).1,(same e).2.1⟩) (fun e _ _ _ face listed => ?_))
  rw [(same e).2.2]
  exact listed

theorem setExpiryTimer_watched : Watched kept (s.setExpiryTimer id duration) := by
  refine watched.sustain (.map rfl (fun e => ?_) (fun e _ _ face listed => ?_) (fun x pending own mine => ?_) (fun _ held => held) rfl rfl
    rfl rfl)
  · split
    · exact ⟨rfl,rfl⟩
    · exact ⟨rfl,rfl⟩
  · split
    · exact listed
    · exact listed
  · rcases mem_schedule.mp pending with rfl | old
    · cases mine
    · exact (mem_cancel.mp old).1

theorem transmit_watched : Watched kept (transmit s object egress id).1 := by
  have recorded : Watched kept (s.insertOrUpdateOutRecord id egress object) := watched.modifyEntry (fun _ => ⟨rfl,rfl,rfl⟩)
  exact recorded.sustain (.of_tables rfl (fun _ pending _ _ => pending) (fun _ held => held))

theorem retire_watched : Watched kept (enact env s (.retire id face)) := by
  obtain ⟨d,equal⟩ := insertDeadNonceList_form env s id (some face)
  have buried : Watched kept { s with deadNonceList := d } :=
    watched.sustain (.of_tables rfl (fun _ pending _ _ => pending) (fun _ held => held))
  rw [enact,equal]
  exact buried.modifyEntry (fun _ => ⟨rfl,rfl,rfl⟩)

end

theorem deleteInRecord_watched (watched : Watched s.announcing u) (timely : Timely u) (directed : ¬ Misdirected env s event)
    (drops : Drops env s event u id face) : Watched s.announcing (u.deleteInRecord id face) := by
  have idle : ¬ Armed retries u.scheduler id → Watched s.announcing (u.deleteInRecord id face) := fun unarmed =>
    watched.sustain (.modifyEntry (fun _ => ⟨rfl,rfl⟩) (fun _ _ _ armed => absurd armed unarmed))
  cases drops with
  | absent missing =>
    refine watched.sustain (.modifyEntry (fun _ => ⟨rfl,rfl⟩) (fun e present named _ f listed => ?_))
    have same : u.entry id = e := by rw [← named,State.entry,Pit.get_of_mem timely.ids present,getD_some]
    rw [Entry.deleteInRecord_absent (same ▸ missing)]
    exact listed
  | governed other => exact idle (watched.governed timely other)
  | disarmed disarmed => exact idle (disarmed.unarmed timely)
  | misdirected astray => exact absurd astray directed
  | announced listed named =>
    refine idle (fun armed => ?_)
    obtain ⟨x,_,_,e,present,same,equal,_⟩ := timely.retrying armed
    have learning := (watched.held _ (.inl listed)).2 e present (same.trans named.symm)
    exact watched.governed timely (by rw [equal,learning]; simp) armed

theorem reassigned_watched (watched : Watched s.announcing s) (timely : Timely s) (undisturbed : Undisturbed s name)
    (outcome : t = s ∨ ∃ old new changed, Reassigned s.strategyChoice name old new changed ∧
      t = { changeStrategy s name old new with strategyChoice := changed }) : Watched s.announcing t := by
  rcases outcome with rfl | ⟨_,_,_,reassigned,rfl⟩
  · exact watched
  · exact watched.sustain (reassigned_sustains reassigned timely undisturbed)

theorem Undisturbed.same (undisturbed : Undisturbed s name) (pit : t.pit = s.pit) (announcing : t.announcing = s.announcing) :
    Undisturbed t name := by
  rw [Undisturbed,announcing,pit]
  exact undisturbed

theorem permitted_watched (watched : Watched s.announcing u) (timely : Timely u) (represented : Represented u)
    (orderly : Orderly env s event) (permitted : Permitted env s event u move) : Watched s.announcing (enact env u move) := by
  cases permitted with
  | aside changed =>
    refine watched.sustain (.of_tables ?_ (fun _ pending _ _ => changed.scheduler ▸ pending) changed.announcing)
    rw [enact,changed.pit,changed.strategyChoice,changed.faces,changed.lastFaceId,changed.nextEntry]
  | copy | rewrite | upkeep =>
    exact watched.sustain (.of_tables rfl (fun _ pending _ _ => pending) (fun _ held => held))
  | cancelTimer =>
    refine watched.sustain (.of_tables rfl (fun _ pending _ _ => ?_) (fun _ held => held))
    exact (mem_cancel.mp pending).1
  | insert => exact watched.sustain (insert_sustains watched timely represented)
  | insertInRecord =>
    exact watched.sustain (.modifyEntry (fun _ => ⟨rfl,rfl⟩) (fun _ _ _ _ _ => Entry.insertOrUpdateInRecord_downstreams))
  | transmit => exact transmit_watched watched
  | setIncomingNack | satisfy => exact watched.modifyEntry (fun _ => ⟨rfl,rfl,rfl⟩)
  | retire => exact retire_watched watched
  | setExpiryTimer => exact setExpiryTimer_watched watched
  | deleteInRecord drops => exact deleteInRecord_watched watched timely orderly.directed drops
  | clearInRecords free =>
    have unarmed := free.elim (watched.governed timely) (fun disarmed => disarmed.unarmed timely)
    exact watched.sustain (.modifyEntry (fun _ => ⟨rfl,rfl⟩) (fun _ _ _ armed => absurd armed unarmed))
  | finalize alive =>
    obtain ⟨e,found⟩ := alive
    exact watched.sustain (finalize_sustains timely found)
  | setRtoTimer alive rearms =>
    cases rearms with
    | expected access held => exact setRtoTimer_watched watched represented alive access held
    | misdirected astray => exact absurd astray orderly.directed
  | jot jot => exact watched.modifyEntry (fun e => ⟨(jot.trimmed e).id,(jot.trimmed e).name,jot.downstreams⟩)
  | hold alive learning => exact hold_watched watched represented alive learning
  | addFace => exact watched.sustain addFace_sustains
  | removeFace => exact watched.sustain (removeFace_sustains represented)
  | setStrategy handled announcing pit =>
    subst handled
    rw [← announcing] at watched ⊢
    exact reassigned_watched watched timely (Undisturbed.same orderly pit announcing) (setStrategy_cases ..)
  | unsetStrategy handled named announcing pit =>
    subst handled
    rw [← announcing] at watched ⊢
    exact reassigned_watched watched timely (Undisturbed.same orderly pit announcing) (unsetStrategy_cases named)

theorem handle_watched (sound : Sound env s) (timely : Timely s) (represented : Represented s) (watched : Watched [] s)
    (orderly : Orderly env s event) (handled : handle env s event = some t) : Watched [] t := by
  have kept : Watched s.announcing s := ⟨watched.timers,fun a listed => watched.held a (.inr (or_self_iff.mp listed))⟩
  have after : Represented t ∧ Timely t ∧ Watched s.announcing t := by
    refine Performs.invariant (I := fun u => Represented u ∧ Timely u ∧ Watched s.announcing u) ?_
      (handle_moves sound timely represented handled) ⟨represented,timely,kept⟩
    rintro u move ⟨filed,punctual,sofar⟩ permitted
    exact ⟨permitted_represented filed permitted,permitted_timely punctual filed permitted,
      permitted_watched sofar punctual filed orderly permitted⟩
  exact ⟨after.2.2.timers,fun a listed => after.2.2.held a (.inr (listed.resolve_left not_mem_nil))⟩

theorem initial_watched (initial : Initial s) : Watched [] s := by
  refine ⟨fun x pending => ?_,fun a listed => ?_⟩
  · rw [initial.scheduler] at pending
    cases pending
  · rw [initial.announcing] at listed
    exact absurd listed (by simp)

theorem Orderly.cleared (orderly : Orderly env s event) : Orderly env { s with sent := [] } event := by
  cases event with
  | interest packet ingress choices =>
    rintro ⟨i,original,prev,accepted,producer,selected,other⟩
    exact orderly ⟨i,original,prev,accepted,producer,selected.same rfl,other⟩
  | _ => exact orderly

theorem step_watched (path : Reached env s) (watched : Watched [] s) (orderly : Orderly env s event)
    (taken : step env s event = some t) : Watched [] t :=
  handle_watched (reached_sound path).cleared (reached_timely path).cleared ((reached_represented path).same rfl)
    ⟨watched.timers,watched.held⟩ orderly.cleared taken

theorem orderly_watched (path : Transition.Guarded (step env) Initial (Orderly env) s) : Watched [] s :=
  path.invariant (fun _ => initial_watched) (fun _ _ _ prior watched orderly => step_watched prior watched orderly)

end ReflexiveNfd

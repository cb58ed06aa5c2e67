import Mathlib.Data.List.Dedup
import Mathlib.Data.List.Rotate
import ReflexiveNfd.Conduct

namespace ReflexiveNfd
open Actions List
variable {strategy : Strategy} {s : State} {e : Entry} {id : EntryId} {ingress : Face} {p : Powers}

theorem mayForward_name (same : i'.name = i.name) : mayForward ingress i' face = mayForward ingress i face := by
  simp [mayForward,wouldViolateScope,same]

def Upstream (s : State) (object : ObjId) (ingress : Face) (id : EntryId) (face : Face) : Prop :=
  ∃ n ∈ (lookupFib s id).nextHops, n.face = face ∧ mayForward ingress (s.interest object) face

abbrev MaySend (p : Powers) (s : State) (object : ObjId) (ingress : Face) (id : EntryId) : Prop :=
  ∀ face, Upstream s object ingress id face → p.sends object face

theorem Upstream.start (frame : Frame s u) (bound : object < s.interests.length)
    (upstream : Upstream u object ingress id face) : Upstream s object ingress id face := by
  obtain ⟨n,listed,same,legal⟩ := upstream
  rw [frame.lookupFib] at listed
  exact ⟨n,listed,same,by rwa [mayForward_name (frame.heap object bound).name] at legal⟩

theorem eligible_upstream (listed : n ∈ (lookupFib s id).nextHops)
    (eligible : isNextHopEligible ingress (s.interest object) n e wantUnused now) :
    Upstream s object ingress id n.face := by
  exact ⟨n,listed,rfl,(Bool.and_eq_true_iff.mp eligible).1⟩

theorem earliest_upstream
    (found : findEligibleNextHopWithEarliestOutRecord ingress (s.interest object) (lookupFib s id).nextHops e now = some face) :
    Upstream s object ingress id face := by
  -- Whatever the scan holds at some point is an eligible nexthop seen so far.
  let good : Option (Face × Int) → Prop := fun held => ∀ f time, held = some (f,time) → Upstream s object ingress id f
  obtain ⟨⟨f,time⟩,held,rfl⟩ := Option.map_eq_some_iff.mp found
  suffices invariant : ∀ (xs : List NextHop) held, (∀ n ∈ xs, n ∈ (lookupFib s id).nextHops) → good held →
      good (xs.foldl _ held) from invariant _ _ (fun _ listed => listed) (by simp [good]) f time held
  intro xs
  induction xs with
  | nil => exact fun _ _ base => base
  | cons n xs ih =>
    intro held listed base
    refine ih _ (fun m inside => listed m (mem_cons_of_mem _ inside)) ?_
    dsimp only
    split
    · rename_i eligible
      split
      · have here := eligible_upstream (listed n mem_cons_self) eligible
        intro f time equal
        unfold earlier at equal
        split at equal
        · split at equal
          · obtain ⟨rfl,_⟩ := Prod.mk.inj (Option.some.inj equal)
            exact here
          · exact base f time equal
        · obtain ⟨rfl,_⟩ := Prod.mk.inj (Option.some.inj equal)
          exact here
      · exact base
    · exact base

theorem Remark.of_core (core : ∀ e, (f e).id = e.id ∧ (f e).interest = e.interest ∧ (f e).name = e.name ∧
    (f e).canBePrefix = e.canBePrefix ∧ (f e).mustBeFresh = e.mustBeFresh ∧ (f e).forwardingHint = e.forwardingHint ∧
    (f e).inRecords = e.inRecords ∧ (f e).expiryTimer = e.expiryTimer ∧ (f e).rtoTimer = e.rtoTimer) : Remark f := by
  refine ⟨fun e => ?_,fun e => (core e).2.2.2.2.2.2.2.1,fun e => (core e).2.2.2.2.2.2.2.2⟩
  obtain ⟨id,interest,name,canBePrefix,mustBeFresh,forwardingHint,inRecords,_,_⟩ := core e
  exact .of_core (by rw [id,interest,name,canBePrefix,mustBeFresh,forwardingHint,inRecords])

theorem remark_outRecord : Remark (Entry.updateOutRecord · face f) :=
  .of_core (fun _ => ⟨rfl,rfl,rfl,rfl,rfl,rfl,rfl,rfl,rfl⟩)

theorem jot_outRecord (same : ∀ r, (f r).facts = r.facts) : Jot (Entry.updateOutRecord · face f) :=
  ⟨remark_outRecord,fun _ => rfl,fun _ => Keyed.modifyFirst_map same,fun _ => rfl,fun _ => rfl⟩

theorem jot_setOutInterval : Jot (setOutInterval interval face) := jot_outRecord (fun _ => rfl)

theorem jot_suppressionInterval {interval : Entry → Option Int} : Jot (fun e => { e with suppressionInterval := interval e }) :=
  ⟨.of_core (fun _ => ⟨rfl,rfl,rfl,rfl,rfl,rfl,rfl,rfl,rfl⟩),fun _ => rfl,fun _ => rfl,fun _ => rfl,fun _ => rfl⟩

theorem decidePerPitEntry_conducts : Conducts env id p s (decidePerPitEntry env strategy s id).2 := by
  unfold decidePerPitEntry
  dsimp only
  split
  · exact .done
  · split
    · exact .note jot_suppressionInterval
    · exact .note jot_suppressionInterval

theorem decidePerUpstream_conducts : Conducts env id p s (decidePerUpstream strategy s id face).2 := by
  unfold decidePerUpstream
  split
  · exact .done
  · dsimp only
    split
    · exact .note jot_setOutInterval
    · exact .note jot_setOutInterval

theorem sendNoRouteNack_conducts (refused : p.nacks face) : Conducts env id p s (sendNoRouteNack s face id) :=
  (Conducts.one (.sendNack refused)).trans (.one .setExpiryTimer)

theorem sendAndIncrement_conducts (chosen : p.sends object face) :
    Conducts env id p s (sendAndIncrement env strategy suppressResult s object face id) := by
  have sent : Conducts env id p s (sendInterest env s object face id).1 := .send chosen
  unfold sendAndIncrement
  split
  · rename_i after outcome
    rwa [outcome] at sent
  · rename_i after own outcome
    rw [outcome] at sent
    split
    · exact sent.trans (.note jot_setOutInterval)
    · exact sent

namespace BestRouteStrategy

theorem afterReceiveNewInterest_conducts (chosen : MaySend p s object ingress id)
    (refused : p.nacks ingress) : Conducts env id p s (afterReceiveNewInterest env s object ingress id) := by
  unfold afterReceiveNewInterest
  split
  · exact sendNoRouteNack_conducts refused
  · rename_i nexthop found
    have listed := mem_of_find?_eq_some found
    have eligible := List.find?_some found
    exact .send (chosen _ (eligible_upstream listed eligible))

theorem afterReceiveRetxInterest_conducts (chosen : MaySend p s object ingress id) :
    Conducts env id p s (afterReceiveRetxInterest env s object ingress id) := by
  unfold afterReceiveRetxInterest
  dsimp only
  split
  · rename_i nexthop found
    have listed := mem_of_find?_eq_some found
    have eligible := List.find?_some found
    exact .send (chosen _ (eligible_upstream listed eligible))
  · split
    · exact .done
    · rename_i outFace found
      exact .send (chosen _ (earliest_upstream found))

theorem afterReceiveInterest_conducts (bound : object < s.interests.length)
    (downstream : fromProducer env (s.interest object) →
      ∀ r, (s.entry id).inRecords.head? = some r → p.sends object r.face)
    (upstream : fromProducer env (s.interest object) = false → MaySend p s object ingress id)
    (refused : (fromProducer env (s.interest object) → (s.entry id).inRecords = []) → p.nacks ingress) :
    Conducts env id p s (afterReceiveInterest env strategy s object ingress id) := by
  unfold afterReceiveInterest
  split
  · rename_i producer
    split
    · rename_i none
      exact sendNoRouteNack_conducts (refused (fun _ => List.head?_eq_none_iff.mp none))
    · rename_i inRecord first
      exact .send (downstream producer _ first)
  · rename_i other
    have decided : Conducts env id p s (decidePerPitEntry env strategy s id).2 := decidePerPitEntry_conducts
    have chosen : MaySend p (decidePerPitEntry env strategy s id).2 object ingress id :=
      fun face up => upstream (by simpa using other) face (up.start decided.frame bound)
    split
    · rename_i after outcome
      rwa [outcome] at decided
    · rename_i after outcome
      rw [outcome] at decided chosen
      exact decided.trans (afterReceiveNewInterest_conducts chosen (refused (fun producer => absurd producer other)))
    · rename_i after outcome
      rw [outcome] at decided chosen
      exact decided.trans (afterReceiveRetxInterest_conducts chosen)

end BestRouteStrategy

namespace MulticastStrategy

theorem forward_conducts (listed : n ∈ (lookupFib s id).nextHops) (bound : object < s.interests.length)
    (chosen : MaySend p s object ingress id) :
    Conducts env id p s (forward env strategy object ingress id s n) := by
  have decided : Conducts env id p s (decidePerUpstream strategy s id n.face).2 := decidePerUpstream_conducts
  unfold forward
  split
  · rename_i after outcome
    rwa [outcome] at decided
  · rename_i result after _ outcome
    rw [outcome] at decided
    split
    · exact decided
    · rename_i eligible
      have frame := decided.frame
      rw [← frame.lookupFib] at listed
      have up := eligible_upstream listed (by simpa using eligible)
      exact decided.trans (sendAndIncrement_conducts (chosen _ (up.start frame bound)))

theorem afterReceiveInterest_conducts (bound : object < s.interests.length)
    (chosen : MaySend p s object ingress id) :
    Conducts env id p s (afterReceiveInterest env strategy s object ingress id) := by
  refine Conducts.loop _ ?_ .done
  intro u n listed before
  have frame := before.frame
  rw [← frame.lookupFib] at listed
  exact forward_conducts listed (Nat.lt_of_lt_of_le bound frame.grown) (fun face up => chosen face (up.start frame bound))

end MulticastStrategy

namespace RandomStrategy

theorem afterReceiveInterest_conducts (chosen : MaySend p s object ingress id)
    (refused : p.nacks ingress) : Conducts env id p s (afterReceiveInterest env s object ingress id choices) := by
  unfold afterReceiveInterest
  dsimp only
  split
  · exact sendNoRouteNack_conducts refused
  · rename_i front rest shuffled
    have listed := mem_rotate.mp (by rw [shuffled]; exact mem_cons_self)
    obtain ⟨inside,eligible⟩ := mem_filter.mp listed
    exact .send (chosen _ (eligible_upstream inside eligible))

end RandomStrategy

namespace AsfStrategy

theorem better_mem (found : List.foldl (better choices) best hops = some n) : best = some n ∨ n ∈ hops := by
  induction hops generalizing best with
  | nil => exact .inl found
  | cons hop hops ih =>
    rcases ih found with held | inside
    · unfold better at held
      split at held
      · cases held
        exact .inr mem_cons_self
      · dsimp only at held
        split at held
        · cases held
          exact .inr mem_cons_self
        · exact .inl held
    · exact .inr (mem_cons_of_mem _ inside)

theorem best_upstream (found : getBestFaceForForwarding s object ingress id isInterestNew choices = some n) :
    Upstream s object ingress id n.face := by
  rcases better_mem found with never | inside
  · cases never
  · obtain ⟨listed,eligible⟩ := mem_filter.mp inside
    exact eligible_upstream listed eligible

theorem probe_upstream (found : getFaceToProbe s object ingress id faceUsed choices = some n) :
    Upstream s object ingress id n.face := by
  unfold getFaceToProbe at found
  dsimp only at found
  have inside : n ∈ (lookupFib s id).nextHops.filter (fun n =>
      !(n.face.id == ingress.id || n.face.id == faceUsed.id || wouldViolateScope ingress (s.interest object) n.face)) := by
    split at found
    · rename_i hop first
      cases found
      exact mem_of_find?_eq_some first
    · exact mem_rotate.mp (mem_of_mem_head? found)
  obtain ⟨listed,legal⟩ := mem_filter.mp inside
  have apart : (n.face.id == ingress.id) = false ∧ wouldViolateScope ingress (s.interest object) n.face = false := by
    simp only [Bool.not_eq_true',Bool.or_eq_false_iff] at legal
    exact ⟨legal.1.1,legal.2⟩
  exact ⟨n,listed,rfl,by simp [mayForward,apart]⟩

theorem sendProbe_conducts (chosen : MaySend p s object ingress id) :
    Conducts env id p s (sendProbe env s object ingress faceUsed id choices) := by
  unfold sendProbe
  split
  · exact .done
  · split
    · exact .done
    · rename_i hop found
      exact .one (.sendProbe (chosen _ (probe_upstream found)))

theorem resend_conducts (chosen : p.sends object face) :
    Conducts env id p s (resend env strategy s object face id) := by
  have decided : Conducts env id p s (decidePerUpstream strategy s id face).2 := decidePerUpstream_conducts
  unfold resend
  split
  · rename_i after outcome
    rwa [outcome] at decided
  · rename_i result after _ outcome
    rw [outcome] at decided
    exact decided.trans (sendAndIncrement_conducts chosen)

theorem afterReceiveInterest_conducts (bound : object < s.interests.length)
    (chosen : MaySend p s object ingress id) (refused : p.nacks ingress) :
    Conducts env id p s (afterReceiveInterest env strategy s object ingress id choices) := by
  unfold afterReceiveInterest
  split
  · split
    · exact sendNoRouteNack_conducts refused
    · rename_i faceToUse found
      have first : Conducts env id p s (sendInterest env s object faceToUse.face id).1 :=
        .send (chosen _ (best_upstream found))
      exact first.trans (sendProbe_conducts (fun face up => chosen face (up.start first.frame bound)))
  · split
    · rename_i faceToUse found
      exact resend_conducts (chosen _ (best_upstream found))
    · split
      · exact .done
      · rename_i outFace found
        exact resend_conducts (chosen _ (earliest_upstream found))

end AsfStrategy

namespace AccessStrategy

-- This strategy compares faces, not links: a nexthop that is the ingress is out
-- even if ad hoc.
def Elsewhere (s : State) (object : ObjId) (ingress : Face) (id : EntryId) (face : Face) : Prop :=
  (∃ n ∈ (lookupFib s id).nextHops, n.face = face) ∧ face ≠ ingress ∧ wouldViolateScope ingress (s.interest object) face = false

theorem Elsewhere.start (frame : Frame s u) (bound : object < s.interests.length)
    (elsewhere : Elsewhere u object ingress id face) : Elsewhere s object ingress id face := by
  obtain ⟨listed,apart,legal⟩ := elsewhere
  rw [frame.lookupFib] at listed
  refine ⟨listed,apart,?_⟩
  simpa [wouldViolateScope,(frame.heap object bound).name] using legal

section
variable (bound : object < s.interests.length) (chosen : ∀ face, Elsewhere s object ingress id face → p.sends object face)
include bound chosen

theorem multicast_conducts :
    Conducts env id p s (multicast env s object ingress id exceptFace).1 := by
  -- The count plays no part in what is sent.
  suffices all : ∀ (xs : List NextHop) u k, (∀ n ∈ xs, n ∈ (lookupFib s id).nextHops) → Conducts env id p s u →
      Conducts env id p s (xs.foldl _ (u,k)).1 from all _ _ _ (fun _ listed => listed) .done
  intro xs
  induction xs with
  | nil => exact fun _ _ _ before => before
  | cons n xs ih =>
    intro u k listed before
    have frame := before.frame
    rw [foldl_cons]
    dsimp only
    split
    · exact ih u k (fun m inside => listed m (mem_cons_of_mem _ inside)) before
    · rename_i legal
      have up : Elsewhere u object ingress id n.face := by
        simp only [not_or,Bool.not_eq_true] at legal
        exact ⟨⟨n,by rw [frame.lookupFib]; exact listed n mem_cons_self,rfl⟩,legal.1,legal.2.2⟩
      have sent := before.trans (.send (chosen _ (up.start frame bound)))
      split
      · rename_i after outcome
        rw [outcome] at sent
        exact ih after k (fun m inside => listed m (mem_cons_of_mem _ inside)) sent
      · rename_i after own outcome
        rw [outcome] at sent
        exact ih after (k + 1) (fun m inside => listed m (mem_cons_of_mem _ inside)) sent

theorem multicastNew_conducts :
    Conducts env id p s (multicastNew env s object ingress id) := by
  have sent : Conducts env id p s (multicast env s object ingress id 0).1 := multicast_conducts bound chosen
  unfold multicastNew
  split
  · rename_i after outcome
    rw [outcome] at sent
    exact sent.trans (.one .setExpiryTimer)
  · rename_i after k _ outcome
    rwa [outcome] at sent

end

theorem lastNexthop_elsewhere (found : lastNexthop s object ingress id choices = some face) :
    Elsewhere s object ingress id face := by
  unfold lastNexthop at found
  split at found
  · cases found
  · rename_i last _
    split at found
    · cases found
    · rename_i apart
      split at found
      · cases found
      · rename_i outFace known
        have named : outFace.id = last := by simpa using List.find?_some known
        split at found
        · cases found
        · rename_i listed
          split at found
          · cases found
          · rename_i legal
            cases found
            simp only [Bool.not_eq_true,Bool.not_eq_false',any_eq_true,beq_iff_eq] at listed legal
            refine ⟨listed,?_,legal⟩
            rintro rfl
            exact apart (.inr named.symm)

theorem afterReceiveNewInterest_conducts (bound : object < s.interests.length)
    (chosen : ∀ face, Elsewhere s object ingress id face → p.sends object face) (armed : p.arms ingress.id) :
    Conducts env id p s (afterReceiveNewInterest env s object ingress id choices) := by
  unfold afterReceiveNewInterest
  split
  · exact multicastNew_conducts bound chosen
  · rename_i outFace found
    have sent : Conducts env id p s (sendInterest env s object outFace id).1 :=
      .send (chosen _ (lastNexthop_elsewhere found))
    split
    · rename_i after outcome
      rw [outcome] at sent
      have frame := sent.frame
      exact sent.trans (multicastNew_conducts (Nat.lt_of_lt_of_le bound frame.grown)
        (fun face up => chosen face (up.start frame bound)))
    · rename_i after own outcome
      rw [outcome] at sent
      exact sent.trans (.one (.setRtoTimer armed))

theorem afterReceiveInterest_conducts (bound : object < s.interests.length)
    (chosen : ∀ face, Elsewhere s object ingress id face → p.sends object face) (armed : p.arms ingress.id) :
    Conducts env id p s (afterReceiveInterest env s object ingress id choices) := by
  unfold afterReceiveInterest
  split
  · exact .done
  · exact afterReceiveNewInterest_conducts bound chosen armed
  · exact multicast_conducts bound chosen

section
variable (known : ∀ e r, s.pit.get id = some e → r ∈ e.inRecords → r.interest < s.interests.length)
include known

theorem afterRtoTimeout_conducts
    (chosen : ∀ r face, r ∈ (s.entry id).inRecords → (∃ n ∈ (lookupFib s id).nextHops, n.face = face) → p.sends r.interest face) :
    Conducts env id p s (afterRtoTimeout env s id inFaceId firstOutFaceId) := by
  unfold afterRtoTimeout
  split
  · exact .done
  · split
    · exact .done
    · rename_i inRecord found
      have listed := (Keyed.lookup_mem found).1
      refine multicast_conducts ?_ (fun face up => chosen inRecord face listed up.1)
      unfold State.entry at listed
      cases held : s.pit.get id with
      | none =>
        rw [held] at listed
        cases listed
      | some e =>
        rw [held] at listed
        exact known e inRecord held listed

theorem afterRtoTimeout_acts
    (chosen : ∀ r face, r ∈ (s.entry id).inRecords → sends r.interest face) :
    Acts env id sends returns s (afterRtoTimeout env s id inFaceId firstOutFaceId) := by
  have conducts : Conducts env id { sends := sends } s (afterRtoTimeout env s id inFaceId firstOutFaceId) :=
    afterRtoTimeout_conducts known (fun r face listed _ => chosen r face listed)
  exact conducts.acts (fun _ _ chosen => chosen) (fun _ _ never => never.elim)

end

end AccessStrategy

namespace SelfLearningStrategy

theorem sendMarked_conducts (chosen : p.sends object face) :
    Conducts env id p s (sendMarked env object id isNonDiscovery s face) := by
  have sent : Conducts env id p s (sendInterest env s object face id).1 := .send chosen
  unfold sendMarked
  split
  · rename_i after outcome
    rwa [outcome] at sent
  · rename_i after own outcome
    rw [outcome] at sent
    exact sent.trans (.note (jot_outRecord (fun _ => rfl)))

theorem broadcastInterest_conducts (chosen : ∀ face ∈ s.faces, mayForward ingress (s.interest object) face → p.sends object face) :
    Conducts env id p s (broadcastInterest env s object ingress id) := by
  refine Conducts.loop _ ?_ .done
  intro u face listed _
  obtain ⟨inside,legal⟩ := mem_filter.mp listed
  exact sendMarked_conducts (chosen face (mem_reverse.mp inside) (Bool.and_eq_true_iff.mp legal).1)

theorem multicastInterest_conducts (chosen : MaySend p s object ingress id) :
    Conducts env id p s (multicastInterest env s object ingress id (lookupFib s id).nextHops) := by
  refine Conducts.loop _ ?_ .done
  intro u face listed _
  obtain ⟨n,inside,rfl⟩ := mem_map.mp listed
  obtain ⟨listed,eligible⟩ := mem_filter.mp inside
  exact sendMarked_conducts (chosen _ (eligible_upstream listed eligible))

theorem noteInRecord_conducts : Conducts env id p s (noteInRecord s id face isNonDiscovery) :=
  .note ⟨⟨fun _ => .updateInRecord (fun _ => rfl),fun _ => rfl,fun _ => rfl⟩,fun _ => Keyed.modifyFirst_map (fun _ => rfl),
    fun _ => rfl,fun _ => rfl,fun _ => rfl⟩

theorem afterReceiveInterest_conducts (bound : object < s.interests.length)
    (upstream : MaySend p s object ingress id)
    (anywhere : (lookupFib s id).nextHops = [] →
      ∀ face ∈ s.faces, mayForward ingress (s.interest object) face → p.sends object face)
    (refused : p.nacks ingress) : Conducts env id p s (afterReceiveInterest env s object ingress id) := by
  unfold afterReceiveInterest
  dsimp only
  split
  · have noted : Conducts env id p s (noteInRecord s id ingress true) := noteInRecord_conducts
    split
    · exact noted.trans (sendNoRouteNack_conducts refused)
    · rw [← noted.frame.lookupFib]
      exact noted.trans (multicastInterest_conducts (fun face up => upstream face (up.start noted.frame bound)))
  · have noted : Conducts env id p s (noteInRecord s id ingress false) := noteInRecord_conducts
    split
    · rename_i none
      refine noted.trans (broadcastInterest_conducts (fun face listed legal => ?_))
      rw [noted.frame.faces] at listed
      rw [mayForward_name (noted.frame.heap object bound).name] at legal
      exact anywhere (isEmpty_iff.mp none) face listed legal
    · have marked : Conducts env id p s (perform env (noteInRecord s id ingress false) (.setNonDiscovery object)) :=
        noted.trans (.one .setNonDiscovery)
      rw [← marked.frame.lookupFib]
      exact marked.trans (multicastInterest_conducts (fun face up => upstream face (up.start marked.frame bound)))

end SelfLearningStrategy

-- Where a strategy may send the object it was triggered with. Only BestRoute
-- looks at the kind of Interest.
def Egress (env : Env) (s : State) (kind : StrategyKind) (object : ObjId) (ingress : Face) (id : EntryId) (face : Face) : Prop :=
  match kind with
  | .bestRoute =>
    if fromProducer env (s.interest object) then ∃ r, (s.entry id).inRecords.head? = some r ∧ r.face = face
    else Upstream s object ingress id face
  | .access => AccessStrategy.Elsewhere s object ingress id face
  | .selfLearning =>
    Upstream s object ingress id face ∨
      ((lookupFib s id).nextHops = [] ∧ face ∈ s.faces ∧ mayForward ingress (s.interest object) face)
  | _ => Upstream s object ingress id face

-- What afterReceiveInterest is entitled to. AccessStrategy sends no Nack and is
-- alone in setting an RTO timer; BestRouteStrategy refuses a producer Interest
-- only when the entry has no downstream.
def triggerPowers (env : Env) (s : State) (kind : StrategyKind) (object : ObjId) (ingress : Face) (id : EntryId) : Powers where
  sends := fun o face => o = object ∧ Egress env s kind object ingress id face
  nacks := fun face => face = ingress ∧ kind ≠ .access ∧
    (kind = .bestRoute → fromProducer env (s.interest object) → (s.entry id).inRecords = [])
  arms := fun face => face = ingress.id ∧ kind = .access

theorem afterReceiveInterest_conducts (bound : object < s.interests.length) :
    Conducts env id (triggerPowers env s strategy.kind object ingress id) s
      (afterReceiveInterest env strategy s object ingress id choices) := by
  unfold afterReceiveInterest
  cases strategy.kind with
  | bestRoute =>
    refine BestRouteStrategy.afterReceiveInterest_conducts bound ?_ ?_ (fun empty => ⟨rfl,by simp,fun _ => empty⟩)
    · intro producer r first
      exact ⟨rfl,by simpa [Egress,producer] using ⟨r,first,rfl⟩⟩
    · intro other face up
      exact ⟨rfl,by simpa [Egress,other] using up⟩
  | multicast => exact MulticastStrategy.afterReceiveInterest_conducts bound (fun _ up => ⟨rfl,up⟩)
  | random => exact RandomStrategy.afterReceiveInterest_conducts (fun _ up => ⟨rfl,up⟩) ⟨rfl,by simp,by simp⟩
  | asf => exact AsfStrategy.afterReceiveInterest_conducts bound (fun _ up => ⟨rfl,up⟩) ⟨rfl,by simp,by simp⟩
  | access => exact AccessStrategy.afterReceiveInterest_conducts bound (fun _ up => ⟨rfl,up⟩) ⟨rfl,rfl⟩
  | selfLearning =>
    exact SelfLearningStrategy.afterReceiveInterest_conducts bound (fun _ up => ⟨rfl,.inl up⟩)
      (fun none face listed legal => ⟨rfl,.inr ⟨none,listed,legal⟩⟩) ⟨rfl,by simp,by simp⟩

theorem afterReceiveInterest_acts (bound : object < s.interests.length) :
    Acts env id (fun o face => o = object ∧ Egress env s strategy.kind object ingress id face) (fun _ _ => False) s
      (afterReceiveInterest env strategy s object ingress id choices) :=
  (afterReceiveInterest_conducts bound).acts (fun _ _ chosen => chosen) (fun _ _ never => never.elim)

def Downstream (s : State) (id : EntryId) (face : Face) : Prop := ∃ r ∈ (s.entry id).inRecords, r.face = face

theorem Downstream.start (quiet : Quiet s u) (downstream : Downstream u id face) : Downstream s id face := by
  obtain ⟨r,listed,rfl⟩ := downstream
  obtain ⟨old,inside,same⟩ := quiet.entry.inRecord listed
  exact ⟨old,inside,congrArg Prod.fst same⟩

theorem sendDataToAll_conducts (chosen : ∀ face, Downstream s id face → p.returns data face) :
    Conducts env id p s (sendDataToAll s data id ingress) := by
  refine Conducts.loop _ ?_ .done
  intro u face listed _
  obtain ⟨r,inside,rfl⟩ := mem_map.mp (mem_dedup.mp listed)
  exact .one (.sendData (chosen _ ⟨r,(mem_filter.mp inside).1,rfl⟩))

theorem sendDataToAll_acts (chosen : ∀ face, Downstream s id face → returns data face) :
    Acts env id sends returns s (sendDataToAll s data id ingress) := by
  have conducts : Conducts env id { returns := returns } s (sendDataToAll s data id ingress) := sendDataToAll_conducts chosen
  exact conducts.acts (fun _ _ never => never.elim) (fun _ _ chosen => chosen)

theorem beforeSatisfyInterest_acts : Acts env id sends returns s (beforeSatisfyInterest strategy s id choices) := by
  unfold beforeSatisfyInterest
  split
  · split
    · exact .one .setExpiryTimer
    · exact .done
  · exact .one .cancelRtoTimer
  · exact .done

theorem afterReceiveData_acts (chosen : ∀ face, Downstream s id face → returns data face) :
    Acts env id sends returns s (afterReceiveData strategy s data ingress id choices) := by
  unfold afterReceiveData
  split
  · unfold SelfLearningStrategy.afterReceiveData
    split
    · exact .done
    · split
      · exact (Acts.one .setExpiryTimer).trans (.one .hold)
      · exact sendDataToAll_acts chosen
  · have before : Acts env id sends returns s (beforeSatisfyInterest strategy s id choices) := beforeSatisfyInterest_acts
    exact before.trans (sendDataToAll_acts (fun face down => chosen face (down.start before.frame.toQuiet)))

theorem sendNacks_conducts (refused : ∀ face, Downstream s id face → p.nacks face) :
    Conducts env id p s (sendNacks s reason id) := by
  refine Conducts.loop _ ?_ .done
  intro u face listed _
  obtain ⟨r,inside,rfl⟩ := mem_map.mp (mem_dedup.mp listed)
  exact .one (.sendNack (refused _ ⟨r,inside,rfl⟩))

theorem afterReceiveNack_conducts (refused : strategy.kind ≠ .access → ∀ face, Downstream s id face → p.nacks face) :
    Conducts env id p s (afterReceiveNack strategy s reason id) := by
  have processed : strategy.kind ≠ .access → Conducts env id p s (processNack s id) := by
    intro other
    unfold processNack
    dsimp only
    split
    · exact sendNacks_conducts (refused other)
    · rename_i notNacked _
      split
      · rename_i held
        obtain ⟨r,found⟩ := Option.isSome_iff_exists.mp held
        obtain ⟨listed,named⟩ := Keyed.lookup_mem found
        exact .one (.sendNack (refused other _ ⟨r,listed,named⟩))
      · exact .done
    · exact .done
  unfold afterReceiveNack
  split
  · rename_i kind
    exact processed (by simp [kind])
  · rename_i kind
    exact processed (by simp [kind])
  · rename_i kind
    split
    · exact sendNacks_conducts (refused (by simp [kind]))
    · exact .done
  · exact .done

theorem afterReceiveNack_acts : Acts env id sends returns s (afterReceiveNack strategy s reason id) := by
  have conducts : Conducts env id { nacks := fun _ => True } s (afterReceiveNack strategy s reason id) :=
    afterReceiveNack_conducts (fun _ _ _ => trivial)
  exact conducts.acts (fun _ _ never => never.elim) (fun _ _ never => never.elim)

theorem afterNewNextHop_conducts (chosen : (s.entry id).inRecords ≠ [] → p.sends (s.entry id).interest nexthop.face) :
    Conducts env id p s (afterNewNextHop env strategy s nexthop id) := by
  unfold afterNewNextHop
  split
  · unfold MulticastStrategy.afterNewNextHop
    dsimp only
    split
    · rename_i eligible
      refine .send (chosen ?_)
      intro none
      simp [none] at eligible
    · exact .done
  · exact .done

theorem afterNewNextHop_acts (chosen : (s.entry id).inRecords ≠ [] → sends (s.entry id).interest nexthop.face) :
    Acts env id sends returns s (afterNewNextHop env strategy s nexthop id) := by
  have conducts : Conducts env id { sends := sends } s (afterNewNextHop env strategy s nexthop id) :=
    afterNewNextHop_conducts chosen
  exact conducts.acts (fun _ _ chosen => chosen) (fun _ _ never => never.elim)

end ReflexiveNfd

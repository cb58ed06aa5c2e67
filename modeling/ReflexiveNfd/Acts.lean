import ReflexiveNfd.Frame

namespace ReflexiveNfd
open Actions List

inductive Act where
  | sendInterest (object : ObjId) (egress : Face) (id : EntryId)
  | sendProbe (object : ObjId) (nonce : Nonce) (egress : Face) (id : EntryId)
  | sendData (data : Data) (egress : Face) (id : EntryId)
  | sendNack (reason : NackReason) (egress : Face) (id : EntryId)
  | setExpiryTimer (id : EntryId) (duration : Int)
  | setRtoTimer (id : EntryId) (delay : Int) (inFace firstOutFace : FaceId)
  | cancelRtoTimer (id : EntryId)
  | note (id : EntryId) (f : Entry → Entry)
  | setNonDiscovery (object : ObjId)
  | hold (held : Announcing)

def perform (env : Env) (s : State) : Act → State
  | .sendInterest object egress id => (sendInterest env s object egress id).1
  | .sendProbe object nonce egress id =>
    (sendInterest env (s.allocate { s.interest object with nonce := nonce }) s.interests.length egress id).1
  | .sendData data egress id => sendData s data egress id
  | .sendNack reason egress id => onOutgoingNack s reason egress id
  | .setExpiryTimer id duration => s.setExpiryTimer id duration
  | .setRtoTimer id delay inFace firstOutFace => s.setRtoTimer id delay inFace firstOutFace
  | .cancelRtoTimer id => s.cancelTimer (s.entry id).rtoTimer
  | .note id f => s.modifyEntry id f
  | .setNonDiscovery object => s.modifyInterest object (fun i => { i with nonDiscovery := true })
  | .hold held => { s with announcing := s.announcing ++ [held] }

structure Remark (f : Entry → Entry) : Prop where
  trimmed : ∀ e, Trimmed e (f e)
  expiryTimer : ∀ e, (f e).expiryTimer = e.expiryTimer
  rtoTimer : ∀ e, (f e).rtoTimer = e.rtoTimer

-- What a trigger may do for the entry it was called with: which objects it may
-- send upstream where, and which Data it may return.
inductive Permit (id : EntryId) (sends : ObjId → Face → Prop) (returns : Data → Face → Prop) : Act → Prop where
  | sendInterest : sends object egress → Permit id sends returns (.sendInterest object egress id)
  | sendProbe : sends object egress → Permit id sends returns (.sendProbe object nonce egress id)
  | sendData : returns data egress → Permit id sends returns (.sendData data egress id)
  | sendNack : Permit id sends returns (.sendNack reason egress id)
  | setExpiryTimer : Permit id sends returns (.setExpiryTimer id duration)
  | setRtoTimer : Permit id sends returns (.setRtoTimer id delay inFace firstOutFace)
  | cancelRtoTimer : Permit id sends returns (.cancelRtoTimer id)
  | note : Remark f → Permit id sends returns (.note own f)
  | setNonDiscovery : Permit id sends returns (.setNonDiscovery object)
  | hold : Permit id sends returns (.hold held)

def Acts (env : Env) (id : EntryId) (sends : ObjId → Face → Prop) (returns : Data → Face → Prop) : State → State → Prop :=
  Performs (perform env) (fun _ => Permit id sends returns)

variable {env : Env} {s t u : State} {e : Entry} {id : EntryId} {egress : Face}

theorem perform_frame (permitted : Permit id sends returns act) : Frame s (perform env s act) := by
  cases permitted with
  | sendInterest _ => exact Frame.outgoing.sendInterest
  | sendProbe _ => exact Frame.allocate.trans Frame.outgoing.sendInterest
  | sendData _ => exact .sendData
  | sendNack => exact .onOutgoingNack
  | setExpiryTimer => exact .setExpiryTimer
  | setRtoTimer => exact .setRtoTimer
  | cancelRtoTimer => exact .cancelTimer
  | note remark => exact .modifyEntry remark.trimmed
  | setNonDiscovery => exact .modifyInterest (fun _ => rfl)
  | hold => exact ⟨⟨rfl,rfl,Nat.le_refl _,fun _ _ => .refl _,fun e => e,by simp [perform],.refl⟩,rfl,prefix_rfl⟩

theorem Acts.done : Acts env id sends returns s s := Performs.done

theorem Acts.one (permitted : Permit id sends returns act) : Acts env id sends returns s (perform env s act) :=
  Performs.one permitted

theorem Acts.note (remark : Remark f) : Acts env id sends returns s (s.modifyEntry own f) :=
  Acts.one (.note remark)

theorem Acts.trans (first : Acts env id sends returns s t) (second : Acts env id sends returns t u) :
    Acts env id sends returns s u :=
  Performs.trans first second

theorem Acts.frame (acts : Acts env id sends returns s t) : Frame s t :=
  acts.related .refl (fun _ _ _ => .trans) (fun _ _ => perform_frame)

def forwardedToken (env : Env) (s : State) (i : Interest) (id : EntryId) : Option PitToken :=
  if fromProducer env i then some (setPitToken (s.pitAssist.nameToPrevToken (s.entry id).name).1)
  else if isReflexiveInterest env.convention i then some (setPitToken (s.pitAssist.nameToToken i.name).1)
  else i.pitToken

def forwarded (env : Env) (s : State) (i : Interest) (egress : Face) (id : EntryId) : Option Interest :=
  if i.hopLimit = some 0 ∧ egress.scope = .nonLocal then none
  else if fromProducer env i ∧ (s.pit.find i).isNone then none
  else some { i with pitToken := forwardedToken env s i id }

theorem transmit_sent : (transmit s object egress id).1.sent = s.sent ++ [.interest egress (s.interest object)] := rfl

section
variable (bound : object < s.interests.length)
include bound

theorem interest_setTag :
    (s.setTag object pitToken).interest object = { s.interest object with pitToken := some pitToken } := by
  simp [State.setTag,State.interest_modify bound]

theorem onOutgoingInterest_sent :
    (onOutgoingInterest env s object egress id).1.sent =
      s.sent ++ ((forwarded env s (s.interest object) egress id).map (Effect.interest egress)).toList := by
  unfold onOutgoingInterest forwarded forwardedToken
  by_cases dropped : (s.interest object).hopLimit = some 0 ∧ egress.scope = .nonLocal
  · simp [dropped]
  rw [if_neg dropped,if_neg dropped]
  by_cases producer : fromProducer env (s.interest object)
  · simp only [producer,if_true,true_and]
    have samePit : ∀ token, (s.setTag object token).pit = s.pit := fun _ => rfl
    rw [samePit]
    cases s.pit.find (s.interest object) with
    | none => simp [State.setTag,State.modifyInterest]
    | some own => simp only [transmit_sent,interest_setTag bound]; rfl
  · by_cases reflexive : isReflexiveInterest env.convention (s.interest object)
    · simp [producer,reflexive,transmit_sent,interest_setTag bound]
      rfl
    · simp [producer,reflexive,transmit_sent]

theorem sendInterest_sent :
    (sendInterest env s object egress id).1.sent =
      s.sent ++ ((forwarded env s { s.interest object with pitToken := none } egress id).map (Effect.interest egress)).toList := by
  unfold sendInterest
  split
  · rw [onOutgoingInterest_sent (by simp)]
    simp only [State.interest_allocated]
    rfl
  · rename_i untagged
    rw [onOutgoingInterest_sent bound]
    have same : { s.interest object with pitToken := none } = s.interest object := by rw [← untagged]
    rw [same]

end

def closedTo (egress : Face) (data : Data) : Prop :=
  egress.id = 0 ∨ (egress.scope = .nonLocal ∧ localhost.isPrefixOf data.name)

instance : Decidable (closedTo egress data) := inferInstanceAs (Decidable (_ ∨ _))

theorem onOutgoingData_sent :
    (onOutgoingData s data egress).sent = s.sent ++ (if closedTo egress data then [] else [.data egress data]) := by
  unfold onOutgoingData closedTo
  by_cases closed : egress.id = 0
  · simp [closed]
  · by_cases reserved : egress.scope = .nonLocal ∧ localhost.isPrefixOf data.name
    · simp [closed,reserved]
    · simp only [closed,reserved,if_false,or_self]
      rfl

theorem sendData_sent :
    (sendData s data egress id).sent = s.sent ++
      (if closedTo egress data then []
       else [.data egress { data with pitToken := (downstreamToken s id egress).or data.pitToken }]) := by
  unfold sendData
  split
  · rename_i held
    rw [onOutgoingData_sent,held]
    rfl
  · rename_i held
    rw [onOutgoingData_sent,held]
    rfl

theorem onOutgoingNack_sent (present : w ∈ (onOutgoingNack s reason egress id).sent) :
    w ∈ s.sent ∨ ∃ nack, w = .nack egress nack ∧ nack.reason = reason := by
  unfold onOutgoingNack at present
  split at present
  · exact .inl present
  · split at present
    · exact .inl present
    · split at present
      · exact .inl present
      · rcases mem_append.mp present with old | new
        · exact .inl old
        · exact .inr ⟨_,mem_singleton.mp new,rfl⟩

theorem fromProducer_name (same : i'.name = i.name) : fromProducer env i' = fromProducer env i := by
  simp [fromProducer,isReflexiveInterestFromProducer,same]

theorem isReflexiveInterest_name (same : i'.name = i.name) :
    isReflexiveInterest convention i' = isReflexiveInterest convention i := by
  simp [isReflexiveInterest,same]

theorem forwardedToken_frame (quiet : Quiet s u) (name : i'.name = i.name) (token : i'.pitToken = i.pitToken) :
    forwardedToken env u i' id = forwardedToken env s i id := by
  simp [forwardedToken,fromProducer_name name,isReflexiveInterest_name name,quiet.pitAssist,quiet.entry.name,name,token]

inductive Emitted (env : Env) (s : State) (id : EntryId) (sends : ObjId → Face → Prop) (returns : Data → Face → Prop) :
    Effect → Prop where
  | interest : sends o out → packet.name = (s.interest o).name →
      packet.pitToken = forwardedToken env s { s.interest o with pitToken := none } id →
      Emitted env s id sends returns (.interest out packet)
  | data : returns data out → Emitted env s id sends returns (.data out { data with pitToken := token })
  | nack : Emitted env s id sends returns (.nack out packet)

theorem sendInterest_emitted (quiet : Quiet s u) (chosen : sends object egress) (bound : copy < u.interests.length)
    (name : (u.interest copy).name = (s.interest object).name)
    (present : w ∈ (sendInterest env u copy egress id).1.sent) : w ∈ u.sent ∨ Emitted env s id sends returns w := by
  rw [sendInterest_sent bound] at present
  rcases mem_append.mp present with old | new
  · exact .inl old
  · refine .inr ?_
    unfold forwarded at new
    split at new
    · simp at new
    · split at new
      · simp at new
      · obtain rfl : w = _ := by simpa using new
        exact .interest chosen name (forwardedToken_frame quiet name rfl)

theorem Acts.outputs (acts : Acts env id sends returns s t) (bounds : ∀ o f, sends o f → o < s.interests.length) :
    ∀ w ∈ t.sent, w ∈ s.sent ∨ Emitted env s id sends returns w := by
  refine Performs.outputs ?_ acts
  intro u act before permitted w present
  have frame : Frame s u := Acts.frame before
  cases permitted with
  | sendInterest chosen =>
    have bound := bounds _ _ chosen
    exact sendInterest_emitted frame.toQuiet chosen (Nat.lt_of_lt_of_le bound frame.grown) (frame.heap _ bound).name present
  | sendProbe chosen =>
    have bound := bounds _ _ chosen
    refine sendInterest_emitted (u := u.allocate _) (frame.trans .allocate).toQuiet chosen (by simp) ?_ present
    rw [State.interest_allocated]
    exact (frame.heap _ bound).name
  | sendData chosen =>
    simp only [perform,sendData_sent] at present
    rcases mem_append.mp present with old | new
    · exact .inl old
    · split at new
      · cases new
      · cases mem_singleton.mp new
        exact .inr (.data chosen)
  | sendNack =>
    rcases onOutgoingNack_sent present with old | ⟨nack,rfl,_⟩
    · exact .inl old
    · exact .inr .nack
  | setExpiryTimer | setRtoTimer | cancelRtoTimer | note | setNonDiscovery | hold => exact .inl present

end ReflexiveNfd

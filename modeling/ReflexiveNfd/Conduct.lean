import ReflexiveNfd.Acts

namespace ReflexiveNfd
open Actions

def OutRecord.facts (r : OutRecord) : Face × Nonce × Int × Int × Option NackReason :=
  (r.face,r.lastNonce,r.lastRenewed,r.expiry,r.incomingNack)

structure Jot (f : Entry → Entry) : Prop extends Remark f where
  inRecords : ∀ e, (f e).inRecords.map InRecord.facts = e.inRecords.map InRecord.facts
  outRecords : ∀ e, (f e).outRecords.map OutRecord.facts = e.outRecords.map OutRecord.facts
  isSatisfied : ∀ e, (f e).isSatisfied = e.isSatisfied
  dataFreshnessPeriod : ∀ e, (f e).dataFreshnessPeriod = e.dataFreshnessPeriod

-- What a trigger is entitled to: which object it may send upstream where, which
-- Data and Nacks it may return to whom, and what else it may leave behind.
structure Powers where
  sends : ObjId → Face → Prop := fun _ _ => False
  returns : Data → Face → Prop := fun _ _ => False
  nacks : Face → Prop := fun _ => False
  arms : FaceId → Prop := fun _ => False
  disarms : Prop := False
  holds : Announcing → Prop := fun _ => False

inductive Entitled (id : EntryId) (p : Powers) : Act → Prop where
  | sendInterest : p.sends object egress → Entitled id p (.sendInterest object egress id)
  | sendProbe : p.sends object egress → Entitled id p (.sendProbe object nonce egress id)
  | sendData : p.returns data egress → Entitled id p (.sendData data egress id)
  | sendNack : p.nacks egress → Entitled id p (.sendNack reason egress id)
  | setExpiryTimer : Entitled id p (.setExpiryTimer id duration)
  | setRtoTimer : p.arms inFace → Entitled id p (.setRtoTimer id delay inFace firstOutFace)
  | cancelRtoTimer : p.disarms → Entitled id p (.cancelRtoTimer id)
  | note : Jot f → Entitled id p (.note own f)
  | setNonDiscovery : Entitled id p (.setNonDiscovery object)
  | hold : p.holds held → Entitled id p (.hold held)

def Conducts (env : Env) (id : EntryId) (p : Powers) : State → State → Prop :=
  Performs (perform env) (fun _ => Entitled id p)

variable {s : State} {id : EntryId} {p : Powers}

theorem Entitled.permit (entitled : Entitled id p act) (sent : ∀ o f, p.sends o f → sends o f)
    (returned : ∀ d f, p.returns d f → returns d f) : Permit id sends returns act := by
  cases entitled with
  | sendInterest chosen => exact .sendInterest (sent _ _ chosen)
  | sendProbe chosen => exact .sendProbe (sent _ _ chosen)
  | sendData chosen => exact .sendData (returned _ _ chosen)
  | sendNack => exact .sendNack
  | setExpiryTimer => exact .setExpiryTimer
  | setRtoTimer => exact .setRtoTimer
  | cancelRtoTimer => exact .cancelRtoTimer
  | note jot => exact .note jot.toRemark
  | setNonDiscovery => exact .setNonDiscovery
  | hold => exact .hold

namespace Conducts

theorem acts (conducts : Conducts env id p s t) (sent : ∀ o f, p.sends o f → sends o f)
    (returned : ∀ d f, p.returns d f → returns d f) : Acts env id sends returns s t :=
  conducts.related (fun _ => .done) (fun _ _ _ => .trans) (fun _ _ entitled => .one (entitled.permit sent returned))

theorem frame (conducts : Conducts env id p s t) : Frame s t :=
  (conducts.acts (fun _ _ chosen => chosen) (fun _ _ chosen => chosen)).frame

theorem done : Conducts env id p s s := Performs.done

theorem one (entitled : Entitled id p act) : Conducts env id p s (perform env s act) := Performs.one entitled

theorem note (jot : Jot f) : Conducts env id p s (s.modifyEntry own f) := one (.note jot)

theorem send (chosen : p.sends object egress) : Conducts env id p s (sendInterest env s object egress id).1 :=
  one (.sendInterest chosen)

theorem trans (first : Conducts env id p s t) (second : Conducts env id p t u) : Conducts env id p s u :=
  Performs.trans first second

theorem loop (xs : List β)
    (each : ∀ u x, x ∈ xs → Conducts env id p s u → Conducts env id p u (body u x))
    (before : Conducts env id p s t) : Conducts env id p s (xs.foldl body t) :=
  Performs.loop xs each before

end Conducts
end ReflexiveNfd

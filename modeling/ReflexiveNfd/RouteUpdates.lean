import Mathlib.Data.List.MinMax
import ReflexiveNfd.RibRoutes

namespace ReflexiveNfd
open Results List Transition Option RibEntry Function UInt64

namespace RibEntry
variable {e : RibEntry} {route existing : Route} {routes : List Route}

def without (routes : List Route) (route : Route) : List Route := routes.eraseP (compareFaceIdAndOrigin · route)

theorem assign_perm (found : withKey routes route = some existing) :
    routes.Perm (existing :: without routes route) ∧ (assign route routes).Perm (route :: without routes route) := by
  induction routes with
  | nil => cases found
  | cons r later ih =>
    rw [withKey_cons] at found
    rw [assign,without]
    by_cases same : r.key = route.key
    · have here := compareFaceIdAndOrigin_iff.mpr same
      rw [if_pos same] at found
      cases found
      rw [if_pos here,eraseP_cons_of_pos (p := (compareFaceIdAndOrigin · route)) here]
      exact ⟨.refl _,.refl _⟩
    · have apart : ¬ compareFaceIdAndOrigin r route := fun equal => same (compareFaceIdAndOrigin_iff.mp equal)
      rw [if_neg same] at found
      obtain ⟨taken,written⟩ := ih found
      rw [if_neg apart,eraseP_cons_of_neg (p := (compareFaceIdAndOrigin · route)) apart]
      exact ⟨(taken.cons r).trans (.swap ..),(written.cons r).trans (.swap ..)⟩

-- The counter is a size_t, and so is the number of routes there can be.
structure Counted (e : RibEntry) : Prop where
  counter : e.nRoutesWithCaptureSet = .ofNat (e.routes.countP Route.isRibCapture)
  captures : e.routes.length < 2 ^ 64 → (e.hasCapture ↔ ∃ r ∈ e.routes, r.isRibCapture)

def Accurate (contents : List Route × UInt64 × List Route) : Prop := contents.2.1 = .ofNat (contents.1.countP Route.isRibCapture)

theorem counted_iff : e.Counted ↔ Accurate e.contents := by
  refine ⟨Counted.counter,fun accurate => ⟨accurate,fun fits => ?_⟩⟩
  have accurate : e.nRoutesWithCaptureSet = .ofNat (e.routes.countP Route.isRibCapture) := accurate
  have counter : e.nRoutesWithCaptureSet.toNat = e.routes.countP Route.isRibCapture := by
    rw [accurate,toNat_ofNat_of_lt' (Nat.lt_of_le_of_lt countP_le_length fits)]
  rw [hasCapture,decide_eq_true_eq,lt_iff_toNat_lt,counter]
  exact countP_pos_iff

theorem ofNat_add_flag (n : Nat) (old new : Bool) :
    UInt64.ofNat (n + if old then 1 else 0) = .ofNat (n + if new then 1 else 0) ↔ old = new := by
  rw [← UInt64.toNat_inj,UInt64.toNat_ofNat',UInt64.toNat_ofNat']
  cases old <;> cases new <;> simp <;> omega

theorem withRoute_accurate (accurate : Accurate e.contents) (route : Route) :
    Accurate (e.withRoute route).contents ↔ ∀ existing, e.findRoute route = some existing → existing.isRibCapture = route.isRibCapture := by
  have counter : e.nRoutesWithCaptureSet = .ofNat (e.routes.countP Route.isRibCapture) := accurate
  cases found : e.findRoute route with
  | none =>
    refine iff_of_true ?_ nofun
    rw [Rib.withRoute_new found,Accurate,contents,Rib.insertRoute_routes found,countP_append,countP_singleton,insertRoute,found]
    cases route.isRibCapture with
    | false => exact counter
    | true => exact (congrArg (· + 1) counter).trans (ofNat_add ..).symm
  | some existing =>
    obtain ⟨taken,written⟩ := assign_perm found
    have here : Accurate (e.withRoute route).contents ↔ UInt64.ofNat ((existing :: without e.routes route).countP Route.isRibCapture) =
        .ofNat ((route :: without e.routes route).countP Route.isRibCapture) := by
      rw [Rib.withRoute_old found,← taken.countP_eq,← written.countP_eq,← counter]
      exact Iff.rfl
    rw [here,countP_cons,countP_cons,ofNat_add_flag]
    simp only [Option.some.injEq,forall_eq']

theorem eraseRoute_accurate (accurate : Accurate e.contents) (route : Route) : Accurate (e.eraseRoute route).contents := by
  have counter : e.nRoutesWithCaptureSet = .ofNat (e.routes.countP Route.isRibCapture) := accurate
  rw [eraseRoute]
  cases found : e.findRoute route with
  | none => exact accurate
  | some existing =>
    have fewer := (assign_perm found).1.countP_eq Route.isRibCapture
    rw [fewer,countP_cons] at counter
    rw [Accurate,contents]
    dsimp only
    rw [counter]
    cases existing.isRibCapture with
    | false => rfl
    | true =>
      rw [if_pos rfl,if_pos rfl,ofNat_add]
      exact UInt64.add_sub_cancel ..

-- The search is Mathlib's argmin by cost.
theorem lowestCost_eq (routes : List Route) (candidate : Option Route) :
    lowestCost candidate routes = routes.foldl (argAux fun b c => b.cost < c.cost) candidate := by
  induction routes generalizing candidate with
  | nil => rfl
  | cons route later ih =>
    cases candidate with
    | none => exact ih _
    | some best => exact (ih _).trans (congrArg (foldl _ · later) (apply_ite some ..))

theorem lowestCost_argmin (routes : List Route) : lowestCost none routes = routes.argmin Route.cost := lowestCost_eq routes none

end RibEntry

namespace Rib
variable {rib after : Rib} {route : Route}

def Accurate (rib : Rib) : Prop := ∀ name contents, rib.contents name = some contents → RibEntry.Accurate contents

-- Registering a route again leaves its CAPTURE flag as it is.
def KeepsCapture (rib : Rib) : RibCall → Prop
  | .insert name route => ∀ existing, rib.stored name route = some existing → existing.isRibCapture = route.isRibCapture
  | .erase _ _ => True

instance (rib : Rib) (call : RibCall) : Decidable (rib.KeepsCapture call) := by
  cases call <;> unfold KeepsCapture <;> infer_instance

theorem accurate_written {contents : Option (List Route × UInt64 × List Route)} (accurate : Accurate rib)
    (written : after.contents = Function.update rib.contents name contents) :
    Accurate after ↔ ∀ c, contents = some c → RibEntry.Accurate c := by
  rw [Accurate,written]
  constructor
  · intro all c given
    exact all name c (by rw [update_self,given])
  · intro fine other c found
    rw [update_apply] at found
    split at found
    · exact fine c found
    · exact accurate other c found

theorem step_accurate (sound : Sound rib) (accurate : Accurate rib) (taken : rib.step call = some after) :
    Accurate after ↔ rib.KeepsCapture call := by
  cases call with
  | insert name route =>
    obtain ⟨again,inserted,_,written,_⟩ := insert_exact sound name route
    cases inserted.symm.trans taken
    rw [accurate_written accurate written,KeepsCapture,stored]
    simp only [Option.some.injEq,forall_eq']
    cases found : rib.find name with
    | none => exact withRoute_accurate (e := .blank) rfl route
    | some entry => exact withRoute_accurate (accurate name entry.contents (contents_of_find found)) route
  | erase name route =>
    obtain ⟨again,erased,_,written,_⟩ := erase_exact sound name route
    cases erased.symm.trans taken
    refine (accurate_written accurate written).trans (iff_of_true (fun c left => ?_) trivial)
    obtain ⟨entry,found,rest⟩ := bind_eq_some_iff.mp left
    obtain ⟨_,⟨⟩⟩ := ite_none_left_eq_some.mp rest
    exact eraseRoute_accurate (accurate name entry.contents (contents_of_find found)) route

theorem accurate_iff : Accurate rib ↔ ∀ name entry, rib.find name = some entry → entry.Counted := by
  constructor
  · intro accurate name entry found
    exact counted_iff.mpr (accurate name entry.contents (contents_of_find found))
  · intro counted name contents seen
    obtain ⟨entry,found,rfl⟩ := map_eq_some_iff.mp seen
    exact counted_iff.mp (counted name entry found)

-- The counters are right throughout a run exactly if no registration of a route that
-- is there changes its CAPTURE flag.
theorem captures_counted_iff (ran : run step empty calls = some rib) :
    (∀ u, Visits step empty calls u → ∀ name entry, u.find name = some entry → entry.Counted) ↔
      ∀ u call, Takes step empty calls u call → u.KeepsCapture call := by
  refine always_exact (Q := Reached) (fun _ _ _ reached taken => reached.next taken) (fun u call v reached counted taken => ?_)
    (.start rfl) nofun ran
  rw [← accurate_iff]
  exact step_accurate reached.sound (accurate_iff.mpr counted) taken

def registeredAgain : List RibCall := [.insert [] ⟨1,0,5,2,none,none⟩,.insert [] ⟨1,0,7,3,none,none⟩]

theorem captures_counted_again : ∃ rib, run step empty registeredAgain = some rib ∧
    ∀ u, Visits step empty registeredAgain u → ∀ name entry, u.find name = some entry → entry.Counted := by
  have meets : (run (checked step KeepsCapture) empty registeredAgain).isSome := by decide
  obtain ⟨rib,guarded⟩ := isSome_iff_exists.mp meets
  obtain ⟨ran,kept⟩ := checked_takes guarded
  exact ⟨rib,ran,(captures_counted_iff ran).mpr kept⟩

-- A route gets the flag when it is registered again, and its erasure makes the counter
-- of the entry wrap.
theorem capture_underflows : ∃ rib entry, Reached rib ∧ rib.find [] = some entry ∧ entry.routes = [⟨1,1,5,0,none,none⟩] ∧
    entry.nRoutesWithCaptureSet = 18446744073709551615 ∧ entry.hasCapture := by
  obtain ⟨rib,taken,entry,found,facts⟩ : ∃ rib ∈ run step empty [.insert [] ⟨1,0,5,0,none,none⟩,.insert [] ⟨1,0,5,2,none,none⟩,
      .insert [] ⟨1,1,5,0,none,none⟩,.erase [] ⟨1,0,5,2,none,none⟩],
    ∃ entry ∈ rib.find [], entry.routes = [⟨1,1,5,0,none,none⟩] ∧ entry.nRoutesWithCaptureSet = 18446744073709551615 ∧
      entry.hasCapture := by decide
  exact ⟨rib,entry,run_reached (.start rfl) taken,found,facts⟩

end Rib

def FibCommand.started (command : FibCommand) : FibUpdate := { command.update with action := command.sent }

def FibUpdate.carryOut (update : FibUpdate) (fib : Name → FaceId → Option Nat) : Name → FaceId → Option Nat :=
  Function.update fib update.name (Function.update (fib update.name) update.faceId (match update.action with
    | .addNextHop => some update.cost
    | .removeNextHop => none))

namespace RibQueue
inductive Sent (second : SecondLowest) (item : UpdateQueueItem) (update : FibUpdate) : Nat → FibCommand → Prop where
  | first {s : RibQueue} (sent : command ∈ (s.sendUpdates item updates).outstanding) (new : command ∉ s.outstanding)
      (own : command.update = update) : Sent second item update 0 command
  | again {s : RibQueue} (before : Sent second item update n command) (taken : s.step second (.respond command (.error errorTimeout)) = some t)
      (sent : other ∈ t.outstanding) (new : other ∉ s.outstanding.erase command) : Sent second item update (n + 1) other

variable {s : RibQueue} {update : FibUpdate} {command : FibCommand}

theorem respond_timeout (second : SecondLowest) (pending : command ∈ s.outstanding) : s.step second (.respond command (.error errorTimeout)) =
    if command.nTimeouts < maxNumTimeouts then some ((s.receive command (.error errorTimeout)).sendAgain command) else none := by
  have enabled : s.Enabled (.respond command (.error errorTimeout)) := pending
  rw [step,if_pos enabled,attempt,onUpdateError]
  split
  · rename_i retried
    rw [if_pos retried.2]
    rfl
  · rename_i final
    rw [if_neg (fun few => final ⟨rfl,few⟩),if_neg (by decide)]
    rfl

theorem Sent.form (sent : Sent second item update n command) :
    command = ⟨item,update,if n = 0 then update.action else .addNextHop,n⟩ := by
  induction sent with
  | first sent new own =>
    obtain ⟨other,_,rfl⟩ := mem_map.mp ((mem_append.mp sent).resolve_left new)
    cases own
    rfl
  | again before taken sent new ih =>
    obtain ⟨enabled,_⟩ := ite_none_right_eq_some.mp taken
    rw [respond_timeout second enabled] at taken
    obtain ⟨_,⟨⟩⟩ := ite_none_right_eq_some.mp taken
    rw [mem_singleton.mp ((mem_append.mp sent).resolve_left new),ih]
    rfl

theorem sent_exists (second : SecondLowest) (item : UpdateQueueItem) (update : FibUpdate) (few : n ≤ maxNumTimeouts) : ∃ command, Sent second item update n command := by
  induction n with
  | zero => exact ⟨_,.first (s := initial) (show _ ∈ (initial.sendUpdates item [update]).outstanding from mem_cons_self) not_mem_nil rfl⟩
  | succ n ih =>
    obtain ⟨command,sent⟩ := ih (by omega)
    have timeouts : command.nTimeouts = n := by rw [sent.form]
    have taken := respond_timeout second (s := { initial with outstanding := [command] }) mem_cons_self
    rw [if_pos (by omega)] at taken
    refine ⟨_,.again sent taken (mem_append_right _ mem_cons_self) ?_⟩
    rw [erase_cons_head]
    exact not_mem_nil

-- Up to so many timeouts every command for an update is that update, and does to a
-- FIB what the update says, exactly if none is sent again or it adds a nexthop.
theorem retried_exact (second : SecondLowest) (item : UpdateQueueItem) (update : FibUpdate) (few : n ≤ maxNumTimeouts) :
    (∀ k ≤ n, ∃ command, Sent second item update k command) ∧
    ((∀ k ≤ n, ∀ command, Sent second item update k command → command.started = update ∧
        ∀ fib, command.started.carryOut fib = update.carryOut fib) ↔ n = 0 ∨ update.action = .addNextHop) := by
  refine ⟨fun k below => sent_exists second item update (Nat.le_trans below few),?_⟩
  constructor
  · intro all
    refine or_iff_not_imp_left.mpr (fun several => ?_)
    obtain ⟨command,sent⟩ := sent_exists second item update few
    have same := congrArg FibUpdate.action (all n (Nat.le_refl n) command sent).1
    rw [sent.form,if_neg several] at same
    exact same.symm
  · intro either k below command sent
    have same : command.started = update := by
      rw [sent.form,FibCommand.started]
      split
      · rfl
      · rename_i several
        rw [← either.resolve_left (by omega)]
    exact ⟨same,fun fib => by rw [same]⟩

theorem retried_exact_add : 10 ≤ maxNumTimeouts ∧ ∀ k ≤ 10, ∀ command,
    Sent .stable innerItem (.createAddUpdate innerName 2 10) k command → command.started = .createAddUpdate innerName 2 10 :=
  ⟨Nat.le_refl _,fun k below command sent =>
    (((retried_exact .stable innerItem (.createAddUpdate innerName 2 10) (Nat.le_refl 10)).2.mpr (.inr rfl)) k below command sent).1⟩

-- The removal of a nexthop times out, and what is sent again adds the nexthop with
-- cost 0.
theorem removal_adds : ∃ s command, Reached (step .stable) (· = initial) s ∧ s.outstanding = [command] ∧ command.nTimeouts = 1 ∧
    command.update = .createRemoveUpdate innerName 2 ∧ command.started = .createAddUpdate innerName 2 0 ∧
    ∀ fib, command.update.carryOut fib innerName 2 = none ∧ command.started.carryOut fib innerName 2 = some 0 := by
  obtain ⟨s,taken,pending⟩ : ∃ s ∈ run (step .stable) initial (registered ++ [.apply [(innerGone.update,true)],
      .respond ⟨innerGone,.createRemoveUpdate innerName 2,.removeNextHop,0⟩ (.error errorTimeout)]),
    s.outstanding = [⟨innerGone,.createRemoveUpdate innerName 2,.addNextHop,1⟩] := by decide
  refine ⟨s,_,run_reached (.start rfl) taken,pending,rfl,rfl,rfl,fun fib => ⟨?_,?_⟩⟩
  · exact (congrFun (update_self ..) _).trans (update_self ..)
  · exact (congrFun (update_self ..) _).trans (update_self ..)

end RibQueue

namespace FibUpdater
variable {rib : Rib} {name : Name} {entry : RibEntry} {route existing : Route}

def onSameFace (entry : RibEntry) (route : Route) : List Route := (RibEntry.without entry.routes route).filter (·.faceId == route.faceId)

theorem onSameFace_iff : other ∈ onSameFace entry route ↔ other ∈ RibEntry.without entry.routes route ∧ other.faceId = route.faceId := by
  rw [onSameFace,mem_filter,beq_iff_eq]

theorem mem_assignRoute {updated : Route} (old : entry.findRoute route = some existing) (same : updated.key = route.key) :
    r ∈ (entry.assignRoute updated).routes ↔ r = updated ∨ r ∈ RibEntry.without entry.routes route := by
  have alike : (compareFaceIdAndOrigin · updated) = (compareFaceIdAndOrigin · route) := by
    rw [compareFaceIdAndOrigin_key,same,compareFaceIdAndOrigin_key]
  have found : withKey entry.routes updated = some existing := by
    rw [withKey,alike]
    exact old
  have perm := (assign_perm found).2
  rw [RibEntry.without,alike] at perm
  exact perm.mem_iff.trans mem_cons

def Overtaken (entry : RibEntry) (route existing : Route) : Prop :=
  (∃ other ∈ onSameFace entry route, other.cost < route.cost) ∧ ∀ other ∈ onSameFace entry route, existing.cost < other.cost

def Inherits (entry : RibEntry) (route : Route) : Prop :=
  route.isChildInherit ∨ ∃ other ∈ onSameFace entry route, other.isChildInherit

theorem changedCost_exact {copy : RibEntry} (name : Name) (updated existing : Route) (members : ∀ r, r ∈ copy.routes ↔ r = updated ∨ r ∈ RibEntry.without entry.routes route)
    (face : updated.faceId = route.faceId) (cost : updated.cost = route.cost) (flags : updated.flags = route.flags) :
    createFibUpdatesForChangedCost name copy route existing = none ↔ Overtaken entry route existing ∧ ¬ Inherits entry route := by
  have onFace : ∀ r, r ∈ copy.routes.filter (·.faceId == route.faceId) ↔ r = updated ∨ r ∈ onSameFace entry route := by
    intro r
    rw [mem_filter,beq_iff_eq,members,onSameFace_iff]
    grind
  have prev : copy.getRouteWithLowestCostAndChildInheritByFaceId route.faceId = none ↔ ¬ Inherits entry route := by
    rw [getRouteWithLowestCostAndChildInheritByFaceId,lowestCost_argmin,argmin_eq_none,filter_eq_nil_iff]
    have inherit : updated.isChildInherit = route.isChildInherit := by rw [Route.isChildInherit,flags]; rfl
    simp only [members,Inherits,onSameFace_iff,Bool.and_eq_true,beq_iff_eq]
    grind
  have search := lowestCost_argmin (copy.routes.filter (·.faceId == route.faceId))
  cases lowest : copy.getRouteWithLowestCostByFaceId route.faceId with
  | none =>
    have listed := (onFace updated).mpr (.inl rfl)
    rw [argmin_eq_none.mp (search.symm.trans lowest)] at listed
    cases listed
  | some best =>
    have chosen := search.symm.trans lowest
    have listed := (onFace best).mp (argmin_mem chosen)
    have below : ∀ r, r = updated ∨ r ∈ onSameFace entry route → best.cost ≤ r.cost :=
      fun r member => le_of_mem_argmin ((onFace r).mpr member) chosen
    rw [createFibUpdatesForChangedCost,lowest,bind_eq_bind,bind_some]
    split
    · rename_i cheapest
      refine iff_of_false nofun ?_
      rintro ⟨⟨⟨other,member,cheaper⟩,_⟩,_⟩
      have bound := below other (.inr member)
      omega
    · rename_i dearer
      have other : best ∈ onSameFace entry route := by
        rcases listed with rfl | other
        · omega
        · exact other
      split
      · rename_i was
        have overtaken : Overtaken entry route existing :=
          ⟨⟨best,other,by omega⟩,fun another member => Nat.lt_of_lt_of_le was (below another (.inr member))⟩
        cases found : copy.getRouteWithLowestCostAndChildInheritByFaceId route.faceId with
        | none => exact iff_of_true rfl ⟨overtaken,prev.mp found⟩
        | some prevRoute => exact iff_of_false nofun (fun all => nomatch found.symm.trans (prev.mpr all.2))
      · rename_i was
        refine iff_of_false nofun ?_
        rintro ⟨⟨_,all⟩,_⟩
        exact was (all best other)

-- A registration of a route that is there is computed exactly if a route that is no
-- longer the cheapest on its face is there with a route on that face that has child
-- inherit.
theorem updated_route_exact (second : SecondLowest) (found : rib.find name = some entry) (old : entry.findRoute route = some existing) :
    computeUpdates second rib ⟨.register,name,route⟩ ≠ none ↔ (Overtaken entry route existing → Inherits entry route) := by
  have same : existing.key = route.key := compareFaceIdAndOrigin_iff.mp (find?_some (p := (compareFaceIdAndOrigin · route)) old)
  have calls : computeUpdates second rib ⟨.register,name,route⟩ ≠ none ↔ createFibUpdatesForUpdatedRoute rib name
      (entry.assignRoute { existing with flags := route.flags, cost := route.cost, expires := route.expires }) route existing ≠ none := by
    simp only [computeUpdates,computeUpdatesForRegistration,found,old]
    cases createFibUpdatesForUpdatedRoute rib name _ route existing <;> simp
  have changed := changedCost_exact name
    { existing with flags := route.flags, cost := route.cost, expires := route.expires } existing (fun r => mem_assignRoute old same)
    (congrArg Prod.fst same) rfl rfl
  have equal : route.cost = existing.cost → ¬ Overtaken entry route existing := by
    rintro cost ⟨⟨other,member,cheaper⟩,all⟩
    have dearer := all other member
    omega
  rw [calls,createFibUpdatesForUpdatedRoute]
  by_cases cost : route.cost = existing.cost
  · refine iff_of_true ?_ (fun overtaken => absurd overtaken (equal cost))
    split
    · exact some_ne_none _
    · rw [if_neg (not_not.mpr cost),bind_eq_bind,bind_some]
      split <;> exact some_ne_none _
  · rw [if_neg (fun both => cost both.2),if_pos cost,← not_and_not_right,← changed]
    refine not_congr ?_
    cases createFibUpdatesForChangedCost name _ route existing with
    | none => exact iff_of_true rfl rfl
    | some own =>
      refine iff_of_false ?_ (some_ne_none own)
      rw [bind_eq_bind,bind_some]
      split <;> exact some_ne_none _

theorem updated_route_inherited : ∃ rib entry, Rib.Reached rib ∧ rib.find [] = some entry ∧
    entry.routes = [⟨1,0,10,0,none,none⟩,⟨1,1,20,0,none,none⟩] ∧ computeUpdates .stable rib ⟨.register,[],⟨1,0,30,1,none,none⟩⟩ ≠ none := by
  obtain ⟨rib,taken,entry,found,routes,old⟩ : ∃ rib ∈ run Rib.step .empty [.insert [] ⟨1,0,10,0,none,none⟩,.insert [] ⟨1,1,20,0,none,none⟩],
    ∃ entry ∈ rib.find [], entry.routes = [⟨1,0,10,0,none,none⟩,⟨1,1,20,0,none,none⟩] ∧
      entry.findRoute ⟨1,0,30,1,none,none⟩ = some ⟨1,0,10,0,none,none⟩ := by decide
  exact ⟨rib,entry,run_reached (.start rfl) taken,found,routes,(updated_route_exact .stable found old).mpr fun _ => .inl rfl⟩

-- The cheaper of two routes on a face, none of which has child inherit, becomes the
-- dearer one.
theorem updated_route_missing : ∃ s entry, Reached (RibQueue.step .stable) (· = .initial) s ∧ s.rib.find [] = some entry ∧
    entry.findRoute ⟨1,0,30,0,none,none⟩ = some ⟨1,0,10,0,none,none⟩ ∧ computeUpdates .stable s.rib ⟨.register,[],⟨1,0,30,0,none,none⟩⟩ = none := by
  obtain ⟨s,taken,missing,entry,found,old⟩ : ∃ s ∈ run (RibQueue.step .stable) .initial [.apply [(⟨.register,[],⟨1,0,10,0,none,none⟩⟩,true)],
      .respond ⟨⟨0,⟨.register,[],⟨1,0,10,0,none,none⟩⟩,true⟩,.createAddUpdate [] 1 10,.addNextHop,0⟩ .success,
      .apply [(⟨.register,[],⟨1,1,20,0,none,none⟩⟩,true)]],
    (computeUpdates .stable s.rib ⟨.register,[],⟨1,0,30,0,none,none⟩⟩).isNone ∧
      ∃ entry ∈ s.rib.find [], entry.findRoute ⟨1,0,30,0,none,none⟩ = some ⟨1,0,10,0,none,none⟩ := by decide
  exact ⟨s,entry,run_reached (.start rfl) taken,found,old,isNone_iff_eq_none.mp missing⟩

end FibUpdater
end ReflexiveNfd

import ReflexiveNfd.Lib.Keyed
import ReflexiveNfd.RibQueue

namespace ReflexiveNfd
open List Option Function

def Route.key (r : Route) : FaceId × Nat := (r.faceId,r.origin)

theorem compareFaceIdAndOrigin_iff : compareFaceIdAndOrigin lhs rhs ↔ lhs.key = rhs.key := by
  rw [compareFaceIdAndOrigin,Bool.and_eq_true,beq_iff_eq,beq_iff_eq,Route.key,Route.key,Prod.mk.injEq]

def withKey (routes : List Route) (route : Route) : Option Route := routes.find? (compareFaceIdAndOrigin · route)

theorem compareFaceIdAndOrigin_key (route : Route) : (compareFaceIdAndOrigin · route) = fun r => decide (r.key = route.key) :=
  funext (fun _ => Bool.eq_iff_iff.mpr (compareFaceIdAndOrigin_iff.trans decide_eq_true_iff.symm))

theorem withKey_lookup : withKey routes route = Keyed.lookup Route.key route.key routes := by
  rw [withKey,compareFaceIdAndOrigin_key,Keyed.lookup]

theorem withKey_cons (r : Route) (later : List Route) (route : Route) :
    withKey (r :: later) route = if r.key = route.key then some r else withKey later route := by
  rw [withKey_lookup,withKey_lookup]
  by_cases same : r.key = route.key
  · simp [Keyed.lookup,same]
  · simp [Keyed.lookup,same]

theorem withKey_eq_none : withKey routes route = none ↔ route.key ∉ routes.map Route.key := by
  rw [withKey_lookup,← not_isSome_iff_eq_none,Keyed.lookup_isSome,List.mem_map]

namespace RibEntry
variable {e : RibEntry} {route other : Route}

theorem findRoute_eq (e : RibEntry) (route : Route) : e.findRoute route = withKey e.routes route := rfl

theorem withKey_assign {routes : List Route} (present : withKey routes route ≠ none) (other : Route) :
    withKey (assign route routes) other = if other.key = route.key then some route else withKey routes other := by
  induction routes with
  | nil => exact absurd rfl present
  | cons r later ih =>
    rw [assign]
    by_cases same : r.key = route.key
    · rw [if_pos (compareFaceIdAndOrigin_iff.mpr same),withKey_cons,withKey_cons,same]
      by_cases here : other.key = route.key
      · rw [if_pos here.symm,if_pos here]
      · rw [if_neg (fun equal => here equal.symm),if_neg here,if_neg (fun equal => here equal.symm)]
    · rw [withKey_cons,if_neg same] at present
      rw [if_neg (fun equal => same (compareFaceIdAndOrigin_iff.mp equal)),withKey_cons,withKey_cons,ih present]
      by_cases here : other.key = route.key
      · rw [if_pos here,if_pos here,if_neg (fun equal => same (equal.trans here))]
      · rw [if_neg here,if_neg here]

theorem keys_assign (route : Route) (routes : List Route) : (assign route routes).map Route.key = routes.map Route.key := by
  induction routes with
  | nil => rfl
  | cons r later ih =>
    rw [assign]
    split
    · rename_i same
      rw [map_cons,map_cons,compareFaceIdAndOrigin_iff.mp same]
    · rw [map_cons,map_cons,ih]

theorem routes_withRoute (e : RibEntry) (route : Route) :
    (e.withRoute route).routes = if withKey e.routes route = none then e.routes ++ [route] else assign route e.routes := by
  cases found : e.findRoute route with
  | none =>
    have new : withKey e.routes route = none := found
    rw [Rib.withRoute_new found,Rib.insertRoute_routes found,if_pos new]
  | some existing =>
    have old : withKey e.routes route = some existing := found
    rw [Rib.withRoute_old found,if_neg (by rw [old]; exact some_ne_none _)]
    rfl

theorem findRoute_withRoute (e : RibEntry) (route other : Route) :
    (e.withRoute route).findRoute other = if other.key = route.key then some route else e.findRoute other := by
  rw [findRoute_eq,findRoute_eq,routes_withRoute]
  split
  · rename_i new
    rw [withKey,List.find?_append]
    by_cases here : other.key = route.key
    · have missing : withKey e.routes other = none := by rw [withKey_eq_none,here,← withKey_eq_none,new]
      rw [if_pos here]
      rw [withKey] at missing
      rw [missing,none_or]
      exact (withKey_cons route [] other).trans (if_pos here.symm)
    · rw [if_neg here]
      have last : withKey [route] other = none := (withKey_cons route [] other).trans (if_neg (fun equal => here equal.symm))
      rw [withKey] at last
      rw [last,or_none]
      rfl
  · rename_i old
    exact withKey_assign old other

theorem withRoute_distinct (distinct : (e.routes.map Route.key).Nodup) (route : Route) : ((e.withRoute route).routes.map Route.key).Nodup := by
  rw [routes_withRoute]
  split
  · rename_i new
    rw [map_append]
    exact (perm_append_singleton ..).nodup_iff.mpr (nodup_cons.mpr ⟨withKey_eq_none.mp new,distinct⟩)
  · rw [keys_assign]
    exact distinct

theorem routes_eraseRoute (e : RibEntry) (route : Route) : (e.eraseRoute route).routes = e.routes.eraseP (compareFaceIdAndOrigin · route) := by
  rw [eraseRoute]
  cases found : e.findRoute route with
  | none =>
    refine (eraseP_of_forall_not (fun r member => ?_)).symm
    exact List.find?_eq_none.mp found r member
  | some existing => rfl

theorem withKey_eraseP {routes : List Route} (distinct : (routes.map Route.key).Nodup) (route other : Route) :
    withKey (routes.eraseP (compareFaceIdAndOrigin · route)) other = if other.key = route.key then none else withKey routes other := by
  have erased : routes.eraseP (fun r => decide (r.key = route.key)) = Keyed.remove Route.key route.key routes := rfl
  rw [compareFaceIdAndOrigin_key,erased,withKey_lookup,withKey_lookup]
  split
  · rename_i here
    rw [here]
    exact Keyed.lookup_removed distinct
  · rename_i apart
    exact Keyed.lookup_remove apart

theorem findRoute_eraseRoute (distinct : (e.routes.map Route.key).Nodup) (route other : Route) :
    (e.eraseRoute route).findRoute other = if other.key = route.key then none else e.findRoute other := by
  rw [findRoute_eq,findRoute_eq,routes_eraseRoute]
  exact withKey_eraseP distinct route other

theorem eraseRoute_distinct (distinct : (e.routes.map Route.key).Nodup) (route : Route) : ((e.eraseRoute route).routes.map Route.key).Nodup := by
  rw [routes_eraseRoute]
  exact distinct.sublist (eraseP_sublist.map _)

end RibEntry

namespace Rib
variable {rib after : Rib} {name : Name} {route : Route} {update : RibUpdate}

def Distinct (rib : Rib) : Prop := ∀ name contents, rib.contents name = some contents → (contents.1.map Route.key).Nodup

theorem stored_eq (rib : Rib) (name : Name) (route : Route) : rib.stored name route = (rib.contents name).bind (fun contents => withKey contents.1 route) := by
  rw [stored,contents,bind_map]
  rfl

theorem contents_of_find (found : rib.find name = some entry) : rib.contents name = some entry.contents := by
  rw [contents,found]
  rfl

theorem Distinct.entry {entry : RibEntry} (distinct : Distinct rib) (found : rib.find name = some entry) : (entry.routes.map Route.key).Nodup :=
  distinct name entry.contents (contents_of_find found)

theorem Distinct.written {contents : Option (List Route × UInt64 × List Route)} (distinct : Distinct rib)
    (written : after.contents = Function.update rib.contents name contents) (fine : ∀ c, contents = some c → (c.1.map Route.key).Nodup) : Distinct after := by
  intro other c found
  rw [written,update_apply] at found
  split at found
  · exact fine c found
  · exact distinct other c found

theorem stored_update {contents : Option (List Route × UInt64 × List Route)}
    (written : after.contents = Function.update rib.contents name contents)
    (here : ∀ other : Route, contents.bind (fun c => withKey c.1 other) = if other.key = route.key then present else rib.stored name other)
    (place : Name) (other : Route) :
    after.stored place other = if place = name ∧ other.key = route.key then present else rib.stored place other := by
  rw [stored_eq,written,update_apply]
  by_cases same : place = name
  · rw [if_pos same,here,same]
    by_cases key : other.key = route.key
    · rw [if_pos key,if_pos ⟨rfl,key⟩]
    · rw [if_neg key,if_neg (fun both => key both.2)]
  · rw [if_neg same,if_neg (fun both => same both.1),stored_eq]

section
variable (sound : Sound rib) (distinct : Distinct rib)
include sound distinct

theorem insert_stored (inserted : rib.insert name route = some after) :
    Sound after ∧ Distinct after ∧ after.cancelled = rib.cancelled ++ ((rib.stored name route).bind Route.expirationEvent).toList ∧
      ∀ place other, after.stored place other = if place = name ∧ other.key = route.key then some route else rib.stored place other := by
  obtain ⟨again,same,soundA,written,cancelled⟩ := insert_exact sound name route
  cases same.symm.trans inserted
  generalize before : (rib.find name).getD .blank = entry at written
  have nodup : (entry.routes.map Route.key).Nodup := by
    cases found : rib.find name with
    | none =>
      rw [found] at before
      cases before
      exact nodup_nil
    | some old =>
      rw [found] at before
      cases before
      exact distinct.entry found
  have found : ∀ other, entry.findRoute other = rib.stored name other := by
    intro other
    rw [← before,stored]
    cases rib.find name with
    | none => rfl
    | some old => rfl
  refine ⟨soundA,distinct.written written (fun c given => ?_),cancelled,stored_update written (fun other => ?_)⟩
  · cases given
    exact RibEntry.withRoute_distinct nodup route
  · rw [← found]
    exact RibEntry.findRoute_withRoute entry route other

theorem erase_stored (erased : rib.erase name route = some after) :
    Sound after ∧ Distinct after ∧ after.cancelled = rib.cancelled ++ ((rib.stored name route).bind Route.expirationEvent).toList ∧
      ∀ place other, after.stored place other = if place = name ∧ other.key = route.key then none else rib.stored place other := by
  obtain ⟨again,same,soundA,written,cancelled⟩ := erase_exact sound name route
  cases same.symm.trans erased
  refine ⟨soundA,distinct.written written (fun c given => ?_),cancelled,stored_update written (fun other => ?_)⟩
  · obtain ⟨entry,found,rest⟩ := bind_eq_some_iff.mp given
    split at rest
    · cases rest
    · cases rest
      exact RibEntry.eraseRoute_distinct (distinct.entry found) route
  · cases found : rib.find name with
    | none =>
      rw [remains,stored,found]
      split <;> rfl
    | some entry =>
      have left : (rib.remains name route).bind (fun c => withKey c.1 other) = (entry.eraseRoute route).findRoute other := by
        rw [remains_of_find route found,RibEntry.findRoute_eq]
        split
        · rename_i empty
          rw [empty]
          rfl
        · rfl
      rw [left,stored,found,RibEntry.findRoute_eraseRoute (distinct.entry found)]
      rfl

theorem applyUpdate_stored (applied : rib.applyUpdate update = .ok after) :
    Sound after ∧ Distinct after ∧
      after.cancelled = rib.cancelled ++ ((rib.stored update.name update.route).bind Route.expirationEvent).toList ∧
      ∀ place other, after.stored place other = if place = update.name ∧ other.key = update.route.key then
        (if update.action = .register then some update.route else none) else rib.stored place other := by
  have parts : ∀ {result : Option Rib}, result.elim (.error .assertion) .ok = (.ok after : Except RibFault Rib) → result = some after := by
    intro result same
    cases result with
    | none => cases same
    | some rib => cases same; rfl
  rw [applyUpdate] at applied
  cases action : update.action with
  | register =>
    rw [action] at applied
    exact insert_stored sound distinct (parts applied)
  | unregister =>
    rw [action] at applied
    exact erase_stored sound distinct (parts applied)
  | removeFace =>
    rw [action] at applied
    exact erase_stored sound distinct (parts applied)

end

theorem put_inherited {entry : RibEntry} (new : RibEntry) (sound : Sound rib) (distinct : Distinct rib) (found : rib.find name = some entry)
    (routes : new.routes = entry.routes) (parent : new.parent = entry.parent) (children : new.children = entry.children) :
    Sound (rib.put name new) ∧ Distinct (rib.put name new) ∧ (rib.put name new).stored = rib.stored := by
  have written := contents_put rib name new
  refine ⟨sound.put found parent children ?_ (by rw [routes]),distinct.written written (fun c given => ?_),?_⟩
  · rw [routes]
    exact sound.occupied name entry found
  · cases given
    show (new.routes.map Route.key).Nodup
    rw [routes]
    exact distinct.entry found
  · funext place other
    rw [stored,stored,find_put]
    split
    · rename_i here
      rw [here,found]
      show withKey new.routes other = withKey entry.routes other
      rw [routes]
    · rfl

theorem modifyInheritedRoutes_stored (sound : Sound rib) (distinct : Distinct rib)
    (modified : rib.modifyInheritedRoutes inheritedRoutes = .ok after) :
    Sound after ∧ Distinct after ∧ after.cancelled = rib.cancelled ∧ after.stored = rib.stored := by
  induction inheritedRoutes generalizing rib with
  | nil =>
    cases modified
    exact ⟨sound,distinct,rfl,rfl⟩
  | cons update later ih =>
    rw [modifyInheritedRoutes,foldlM_cons,modifyInheritedRoute] at modified
    cases found : rib.find update.name with
    | none =>
      rw [found] at modified
      cases modified
    | some entry =>
      simp only [found] at modified
      cases action : update.action with
      | register =>
        simp only [action,Results.ok_bind] at modified
        obtain ⟨soundP,distinctP,same⟩ := put_inherited (entry.addInheritedRoute update.route) sound distinct found rfl rfl rfl
        obtain ⟨soundA,distinctA,cancelled,stored⟩ := ih soundP distinctP modified
        exact ⟨soundA,distinctA,cancelled,stored.trans same⟩
      | unregister =>
        simp only [action,Results.ok_bind] at modified
        obtain ⟨soundP,distinctP,same⟩ := put_inherited (entry.removeInheritedRoute update.route) sound distinct found rfl rfl rfl
        obtain ⟨soundA,distinctA,cancelled,stored⟩ := ih soundP distinctP modified
        exact ⟨soundA,distinctA,cancelled,stored.trans same⟩
      | removeFace =>
        simp only [action,Results.ok_bind] at modified
        exact ih sound distinct modified

end Rib

end ReflexiveNfd

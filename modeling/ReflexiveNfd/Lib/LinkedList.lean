import Mathlib.Data.List.Nodup
import Mathlib.Data.List.Flatten
import Mathlib.Logic.Function.Basic

namespace LinkedList
open List Option Function

-- Intrusive doubly linked lists on a heap. An address without a cell is not
-- allocated, and following it is a failure, as is an assertion that does not hold.
structure Cell (α β : Type*) where
  value : β
  prev : Option α
  next : Option α

abbrev Heap (α β : Type*) := α → Option (Cell α β)

variable {α β σ : Type*}

def valueAt (heap : Heap α β) (a : α) : Option β := (heap a).map Cell.value

def search (heap : Heap α β) (wanted : β → Bool) : Nat → Option α → Option (Option α)
  | _,none => some none
  | 0,some _ => none
  | fuel + 1,some a =>
    (heap a).bind fun cell => if wanted cell.value then some (some a) else search heap wanted fuel cell.next

-- The successor is read before the function runs, so the function may relink
-- the node it is given.
def foreachNode (heapOf : σ → Heap α β) (f : σ → α → Option σ) : Nat → σ → Option α → Option σ
  | _,s,none => some s
  | 0,_,some _ => none
  | fuel + 1,s,some a =>
    (heapOf s a).bind fun cell => (f s a).bind fun t => foreachNode heapOf f fuel t cell.next

def Links (heap : Heap α β) : Option α → List α → Option α → Prop
  | _,[],_ => True
  | before,a :: rest,after =>
    (∃ value, heap a = some ⟨value,before,rest.head?.or after⟩) ∧ Links heap (some a) rest after

variable {after : Option α} {xs ys : List α} {node : α} {cell : Cell α β}

theorem links_append :
    Links heap before (xs ++ ys) after ↔ Links heap before xs (ys.head?.or after) ∧ Links heap (xs.getLast?.or before) ys after := by
  induction xs generalizing before with
  | nil => simp [Links]
  | cons a rest ih =>
    have last : (a :: rest).getLast?.or before = rest.getLast?.or (some a) := by
      cases final : rest.getLast? <;> simp [List.getLast?_cons,final]
    simp only [List.cons_append,Links,ih,last,List.head?_append,Option.or_assoc,and_assoc]

theorem Links.frame (linked : Links heap before xs after) (same : ∀ a ∈ xs, heap' a = heap a) :
    Links heap' before xs after := by
  induction xs generalizing before with
  | nil => trivial
  | cons a rest ih =>
    obtain ⟨⟨value,here⟩,later⟩ := linked
    exact ⟨⟨value,(same a mem_cons_self).trans here⟩,ih later (fun b inside => same b (mem_cons_of_mem _ inside))⟩

structure Within (heap heap' : Heap α β) (xs : List α) : Prop where
  frame : ∀ a, a ∉ xs → heap' a = heap a
  values : valueAt heap' = valueAt heap

theorem Within.refl : Within heap heap xs := ⟨fun _ _ => rfl,rfl⟩

theorem Within.mono (within : Within heap heap' xs) (wider : ∀ a ∈ xs, a ∈ ys) : Within heap heap' ys :=
  ⟨fun a outside => within.frame a (fun inside => outside (wider a inside)),within.values⟩

theorem Within.trans (first : Within heap heap' xs) (second : Within heap' heap'' xs) : Within heap heap'' xs :=
  ⟨fun a outside => (second.frame a outside).trans (first.frame a outside),second.values.trans first.values⟩

theorem search_links (linked : Links heap before xs none) (enough : xs.length ≤ fuel) (wanted : β → Bool) :
    search heap wanted fuel xs.head? = some (xs.find? fun a => (valueAt heap a).any wanted) := by
  induction xs generalizing before fuel with
  | nil => cases fuel <;> rfl
  | cons a rest ih =>
    obtain ⟨⟨value,here⟩,later⟩ := linked
    cases fuel with
    | zero => simp at enough
    | succ fuel =>
      have tail := ih later (Nat.le_of_succ_le_succ enough)
      cases hit : wanted value <;> simp [search,valueAt,here,hit] at tail ⊢
      exact tail

theorem search_unique (linked : Links heap before xs none) (enough : xs.length ≤ fuel)
    (unique : ∀ a ∈ xs, ∀ b ∈ xs, (valueAt heap a).any wanted → (valueAt heap b).any wanted → a = b) :
    ∃ found, search heap wanted fuel xs.head? = some found ∧ ∀ a, found = some a ↔ a ∈ xs ∧ (valueAt heap a).any wanted := by
  refine ⟨_,search_links linked enough wanted,fun a => ⟨fun found => ?_,?_⟩⟩
  · exact ⟨mem_of_find?_eq_some found,List.find?_some (p := fun a => (valueAt heap a).any wanted) found⟩
  · rintro ⟨inside,hit⟩
    cases found : xs.find? (fun a => (valueAt heap a).any wanted) with
    | none => exact absurd hit (List.find?_eq_none.mp found a inside)
    | some b =>
      have other := List.find?_some (p := fun a => (valueAt heap a).any wanted) found
      rw [unique b (mem_of_find?_eq_some found) a inside other hit]

-- The rule for such a loop: the invariant says which nodes are still to come,
-- and each call re-establishes it for the rest.
theorem foreachNode_rule {heapOf : σ → Heap α β} {f : σ → α → Option σ} {I : List α → σ → Prop}
    (step : ∀ a rest s, I (a :: rest) s →
      ∃ cell t, heapOf s a = some cell ∧ cell.next = rest.head? ∧ f s a = some t ∧ I rest t)
    (start : I xs s) (enough : xs.length ≤ fuel) :
    ∃ t, foreachNode heapOf f fuel s xs.head? = some t ∧ I [] t := by
  induction xs generalizing s fuel with
  | nil => exact ⟨s,by cases fuel <;> rfl,start⟩
  | cons a rest ih =>
    obtain ⟨cell,t,live,next,called,kept⟩ := step a rest s start
    cases fuel with
    | zero => simp at enough
    | succ fuel =>
      obtain ⟨u,ran,done⟩ := ih kept (Nat.le_of_succ_le_succ enough)
      exact ⟨u,by simpa [foreachNode,live,called,next] using ran,done⟩

-- An array of lists over one heap, no node on two of them.
structure Chains (heap : Heap α β) (heads : List (Option α)) (lists : List (List α)) : Prop where
  heads : heads = lists.map List.head?
  links : ∀ xs ∈ lists, Links heap none xs none
  nodup : lists.flatten.Nodup

variable {heads : List (Option α)} {lists : List (List α)}

theorem flatten_at (here : lists[index]? = some xs) :
    ∃ others, lists.flatten.Perm (xs ++ others) ∧
      ∀ ys, (lists.set index ys).flatten.Perm (ys ++ others) ∧
        ∀ zs ∈ lists.set index ys, zs = ys ∨ zs ∈ lists ∧ ∀ a ∈ zs, a ∈ others := by
  obtain ⟨inside,value⟩ := List.getElem?_eq_some_iff.mp here
  obtain ⟨front,back,parts,position⟩ : ∃ front back, lists = front ++ lists[index] :: back ∧ front.length = index :=
    ⟨lists.take index,lists.drop (index + 1),by simp,by simp; omega⟩
  rw [value] at parts
  have replaced : ∀ ys, lists.set index ys = front ++ ys :: back := by
    intro ys
    rw [parts,← position]
    simp
  have gather : ∀ ys : List α, (front ++ ys :: back).flatten.Perm (ys ++ (front.flatten ++ back.flatten)) := by
    intro ys
    rw [flatten_append,flatten_cons]
    exact perm_append_comm_assoc ..
  refine ⟨front.flatten ++ back.flatten,parts ▸ gather xs,fun ys => ⟨replaced ys ▸ gather ys,?_⟩⟩
  rw [replaced,parts]
  intro zs listed
  simp only [mem_append,mem_cons] at listed ⊢
  rcases listed with early | rfl | late
  · exact .inr ⟨.inl early,fun a present => .inl (mem_flatten_of_mem early present)⟩
  · exact .inl rfl
  · exact .inr ⟨.inr (.inr late),fun a present => .inr (mem_flatten_of_mem late present)⟩

theorem Chains.replace (chains : Chains heap heads lists) (here : lists[index]? = some xs)
    (links : Links heap' none ys none) (within : Within heap heap' zs)
    (narrow : ∀ a ∈ zs, a ∈ xs ∨ a ∉ lists.flatten) (nodup : (lists.set index ys).flatten.Nodup) :
    Chains heap' (heads.set index ys.head?) (lists.set index ys) := by
  obtain ⟨others,whole,parts⟩ := flatten_at here
  refine ⟨by rw [chains.heads,map_set],fun us listed => ?_,nodup⟩
  rcases (parts ys).2 us listed with rfl | ⟨old,apart⟩
  · exact links
  · refine (chains.links us old).frame fun a inside => within.frame a fun clash => ?_
    have listedElsewhere := apart a inside
    have distinct := whole.nodup_iff.mp chains.nodup
    rcases narrow a clash with same | fresh
    · exact disjoint_of_nodup_append distinct same listedElsewhere
    · exact fresh (mem_flatten_of_mem old inside)

theorem Chains.frame (chains : Chains heap heads lists) (same : ∀ a ∈ lists.flatten, heap' a = heap a) :
    Chains heap' heads lists :=
  ⟨chains.heads,fun xs listed => (chains.links xs listed).frame fun a inside => same a (mem_flatten_of_mem listed inside),
    chains.nodup⟩

variable [DecidableEq α]

section
variable (heap : Heap α β)

section
variable (a : α) (head : Option α) (node : α) (expected target : Option α)

def put (cell : Cell α β) : Heap α β := update heap a (some cell)

def free : Heap α β := update heap a none

-- The neighbour's back pointer is checked before it is written.
def relinkAfter : Option α → Option (Heap α β)
  | none => some heap
  | some after =>
    (heap after).bind fun old =>
      if old.prev = expected then some (put heap after { old with prev := target }) else none

def relinkBefore : Option α → Option (Heap α β × Option α)
  | none => if head = expected then some (heap,target) else none
  | some before =>
    (heap before).bind fun old =>
      if old.next = expected then some (put heap before { old with next := target },head) else none

def attach : Option (Heap α β × Option α) :=
  (heap node).bind fun cell =>
    (relinkAfter (put heap node { cell with prev := none, next := head }) none (some node) head).map (·,some node)

def detach : Option (Heap α β × Option α) :=
  (heap node).bind fun cell =>
    (relinkBefore heap head (some node) cell.next cell.prev).bind fun (heap,head) =>
      (relinkAfter heap (some node) cell.prev cell.next).bind fun heap =>
        (heap node).map fun cell => (put heap node { cell with prev := none, next := none },head)

end

end

theorem put_valueAt : valueAt (put heap node cell) = update (valueAt heap) node (some cell.value) := by
  funext a
  by_cases equal : a = node
  · subst equal
    simp [valueAt,put]
  · simp [valueAt,put,equal]

theorem free_valueAt : valueAt (free heap node) = update (valueAt heap) node none := by
  funext a
  by_cases equal : a = node
  · subst equal
    simp [valueAt,free]
  · simp [valueAt,free,equal]

@[simp] theorem put_same : put heap node cell node = some cell := update_self ..

@[simp] theorem put_other (other : a ≠ node) : put heap node cell a = heap a := update_of_ne other ..

theorem put_value (live : heap node = some cell) (same : cell'.value = cell.value) :
    valueAt (put heap node cell') = valueAt heap := by
  have held : valueAt heap node = some cell.value := by simp [valueAt,live]
  rw [put_valueAt,same,← held,update_eq_self]

theorem Links.setPrev (linked : Links heap before (node :: xs) after) (apart : node ∉ xs) (live : heap node = some cell) :
    Links (put heap node { cell with prev := other }) other (node :: xs) after := by
  obtain ⟨⟨value,here⟩,later⟩ := linked
  cases live.symm.trans here
  refine ⟨⟨value,put_same⟩,later.frame fun a inside => put_other ?_⟩
  rintro rfl
  exact apart inside

theorem Links.setNext (linked : Links heap before (xs ++ [node]) after) (apart : node ∉ xs) (live : heap node = some cell) :
    Links (put heap node { cell with next := other }) before (xs ++ [node]) other := by
  obtain ⟨front,⟨value,here⟩,_⟩ := links_append.mp linked
  cases live.symm.trans here
  refine links_append.mpr ⟨front.frame fun a inside => put_other ?_,⟨value,by simp⟩,trivial⟩
  rintro rfl
  exact apart inside

theorem Within.put (live : heap node = some cell) (inside : node ∈ xs) (same : cell'.value = cell.value) :
    Within heap (put heap node cell') xs :=
  ⟨fun _ outside => put_other (fun equal => outside (equal ▸ inside)),put_value live same⟩

theorem relinkAfter_links (linked : Links heap before xs after) (nodup : xs.Nodup) (target : Option α) :
    ∃ heap', relinkAfter heap before target xs.head? = some heap' ∧ Links heap' target xs after ∧ Within heap heap' xs := by
  cases xs with
  | nil => exact ⟨heap,rfl,trivial,.refl⟩
  | cons first rest =>
    obtain ⟨⟨value,here⟩,_⟩ := id linked
    refine ⟨_,?_,linked.setPrev (nodup_cons.mp nodup).1 here,.put here mem_cons_self rfl⟩
    simp [relinkAfter,here]

theorem relinkBefore_links (linked : Links heap none xs after) (nodup : xs.Nodup) (target : Option α) :
    ∃ heap', relinkBefore heap (xs.head?.or after) after target xs.getLast? = some (heap',xs.head?.or target) ∧
      Links heap' none xs target ∧ Within heap heap' xs := by
  rcases eq_nil_or_concat' xs with rfl | ⟨front,last,rfl⟩
  · exact ⟨heap,by simp [relinkBefore],trivial,.refl⟩
  · obtain ⟨_,⟨value,here⟩,_⟩ := links_append.mp linked
    have apart : last ∉ front := fun inside => disjoint_of_nodup_append nodup inside mem_cons_self
    refine ⟨_,?_,linked.setNext apart here,.put here (by simp) rfl⟩
    simp [relinkBefore,here]

theorem attach_links (linked : Links heap none xs none) (nodup : (node :: xs).Nodup) (live : heap node = some cell) :
    ∃ heap', attach heap xs.head? node = some (heap',some node) ∧ Links heap' none (node :: xs) none ∧
      Within heap heap' (node :: xs) := by
  obtain ⟨apart,distinct⟩ := nodup_cons.mp nodup
  have kept : Links (put heap node { cell with prev := none, next := xs.head? }) none xs none :=
    linked.frame fun a inside => put_other (fun equal => apart (equal ▸ inside))
  have written : Within heap (put heap node { cell with prev := none, next := xs.head? }) (node :: xs) :=
    .put live mem_cons_self rfl
  obtain ⟨heap',relinked,links,within⟩ := relinkAfter_links kept distinct (some node)
  refine ⟨heap',by simp [attach,live,relinked],⟨⟨cell.value,?_⟩,links⟩,written.trans (within.mono ?_)⟩
  · rw [within.frame node apart]
    simp
  · exact fun a inside => mem_cons_of_mem _ inside

theorem detach_links (linked : Links heap none (xs ++ node :: ys) none) (nodup : (xs ++ node :: ys).Nodup) :
    ∃ heap' value, detach heap (xs ++ node :: ys).head? node = some (heap',(xs ++ ys).head?) ∧
      Links heap' none (xs ++ ys) none ∧ heap' node = some ⟨value,none,none⟩ ∧ Within heap heap' (xs ++ node :: ys) := by
  obtain ⟨front,⟨value,here⟩,back⟩ := links_append.mp linked
  obtain ⟨distinctFront,distinctBack,disjoint⟩ := nodup_append.mp nodup
  obtain ⟨apart,distinctTail⟩ := nodup_cons.mp distinctBack
  have inFront : ∀ a ∈ xs, a ≠ node := fun a inside => disjoint a inside node mem_cons_self
  obtain ⟨mid,first,frontLinks,frontWithin⟩ := relinkBefore_links front distinctFront ys.head?
  have frontFrame : ∀ a ∈ node :: ys, mid a = heap a := fun a inside =>
    frontWithin.frame a (fun clash => disjoint a clash a inside rfl)
  have backLinks := back.frame fun a inside => frontFrame a (mem_cons_of_mem _ inside)
  obtain ⟨last,second,tailLinks,tailWithin⟩ := relinkAfter_links backLinks distinctTail xs.getLast?
  have live : last node = some ⟨value,xs.getLast?,ys.head?⟩ := by
    rw [tailWithin.frame node apart,frontFrame node mem_cons_self,here]
    simp
  refine ⟨put last node ⟨value,none,none⟩,value,?_,?_,put_same,?_⟩
  · have opened : (xs ++ node :: ys).head? = xs.head?.or (some node) := by simp
    have closed : (xs ++ ys).head? = xs.head?.or ys.head? := List.head?_append
    simp only [or_none,List.head?_cons] at here first
    simp only [detach,here,opened,closed,first,second,live,bind_some,map_some]
  · refine links_append.mpr ⟨?_,?_⟩
    · rw [or_none]
      refine frontLinks.frame fun a inside => ?_
      rw [put_other (inFront a inside)]
      exact tailWithin.frame a (fun clash => disjoint a inside a (mem_cons_of_mem _ clash) rfl)
    · rw [or_none]
      exact tailLinks.frame fun a inside => put_other (fun equal => apart (equal ▸ inside))
  · refine (frontWithin.mono ?_).trans ((tailWithin.mono ?_).trans (.put live (by simp) rfl))
    · exact fun a inside => mem_append_left _ inside
    · exact fun a inside => mem_append_right _ (mem_cons_of_mem _ inside)

theorem Chains.attach (chains : Chains heap heads lists) (here : lists[index]? = some xs)
    (apart : node ∉ lists.flatten) (live : heap node = some cell) :
    ∃ heap', attach heap xs.head? node = some (heap',some node) ∧
      Chains heap' (heads.set index (some node)) (lists.set index (node :: xs)) ∧ Within heap heap' (node :: lists.flatten) ∧
      (lists.set index (node :: xs)).flatten.Perm (node :: lists.flatten) := by
  have listed := mem_of_getElem? here
  obtain ⟨others,whole,parts⟩ := flatten_at here
  have grown := (parts (node :: xs)).1.trans (whole.symm.cons node)
  have distinct := nodup_cons.mpr ⟨apart,chains.nodup⟩
  have inside := cons_subset_cons node fun a => mem_flatten_of_mem listed
  have own : (node :: xs).Nodup :=
    nodup_cons.mpr ⟨fun clash => apart (mem_flatten_of_mem listed clash),Nodup.sublist (sublist_flatten_of_mem listed) chains.nodup⟩
  obtain ⟨heap',attached,links,within⟩ := attach_links (chains.links xs listed) own live
  refine ⟨heap',attached,?_,within.mono inside,grown⟩
  refine chains.replace here links within (fun a touched => ?_) (grown.nodup_iff.mpr distinct)
  rcases mem_cons.mp touched with rfl | old
  · exact .inr apart
  · exact .inl old

theorem Chains.detach (chains : Chains heap heads lists) (here : lists[index]? = some (xs ++ node :: ys)) :
    ∃ heap' value, detach heap (xs ++ node :: ys).head? node = some (heap',(xs ++ ys).head?) ∧
      Chains heap' (heads.set index (xs ++ ys).head?) (lists.set index (xs ++ ys)) ∧
      heap' node = some ⟨value,none,none⟩ ∧ Within heap heap' lists.flatten ∧
      lists.flatten.Perm (node :: (lists.set index (xs ++ ys)).flatten) := by
  have listed := mem_of_getElem? here
  obtain ⟨others,whole,parts⟩ := flatten_at here
  have shrunk := whole.trans ((perm_middle.append_right others).trans (((parts (xs ++ ys)).1.symm).cons node))
  have own : (xs ++ node :: ys).Nodup := Nodup.sublist (sublist_flatten_of_mem listed) chains.nodup
  obtain ⟨heap',value,detached,links,unlinked,within⟩ := detach_links (chains.links _ listed) own
  refine ⟨heap',value,detached,?_,unlinked,within.mono fun a => mem_flatten_of_mem listed,shrunk⟩
  exact chains.replace here links within (fun a touched => .inl touched) (nodup_cons.mp (shrunk.nodup_iff.mp chains.nodup)).2

theorem Links.setValue (linked : Links heap before xs after) (live : heap node = some cell) (value : β) :
    Links (put heap node { cell with value := value }) before xs after := by
  induction xs generalizing before with
  | nil => trivial
  | cons a rest ih =>
    obtain ⟨⟨old,here⟩,later⟩ := linked
    refine ⟨?_,ih later⟩
    by_cases equal : a = node
    · subst equal
      cases live.symm.trans here
      exact ⟨value,put_same⟩
    · exact ⟨old,by rw [put_other equal,here]⟩

theorem Chains.setValue (chains : Chains heap heads lists) (live : heap node = some cell) (value : β) :
    Chains (put heap node { cell with value := value }) heads lists :=
  ⟨chains.heads,fun xs listed => (chains.links xs listed).setValue live value,chains.nodup⟩

end LinkedList

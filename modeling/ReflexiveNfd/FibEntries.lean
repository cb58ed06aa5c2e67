import ReflexiveNfd.PrefixMatches

namespace ReflexiveNfd
open List Option

-- std::sort by cost; how it orders nexthops of one cost is left open.
structure CostSort where
  sort : List NextHop → List NextHop
  perm : ∀ nextHops, (sort nextHops).Perm nextHops
  sorted : ∀ nextHops, (sort nextHops).Pairwise fun a b => a.cost ≤ b.cost

namespace CostSort

theorem sortNextHops_sorted (nextHops : List NextHop) : (Fib.sortNextHops nextHops).Pairwise fun a b => a.cost ≤ b.cost := by
  exact pairwise_insertionSort _ nextHops

def stable : CostSort := ⟨Fib.sortNextHops,perm_insertionSort _,sortNextHops_sorted⟩

def reversed : CostSort :=
  ⟨fun nextHops => Fib.sortNextHops nextHops.reverse,
    fun nextHops => (perm_insertionSort _ nextHops.reverse).trans nextHops.reverse_perm,fun nextHops => sortNextHops_sorted nextHops.reverse⟩

end CostSort

namespace FibEntry
variable (order : CostSort)

section
variable (nextHops : List NextHop) (face : Face)

def findNextHop : Nat := nextHops.findIdx fun n => n.face = face

def addOrUpdateNextHop (cost : Nat) : List NextHop × Nat × Bool :=
  let it := findNextHop nextHops face
  if it = nextHops.length then (order.sort (nextHops ++ [⟨face,cost⟩]),it,true)
  else (order.sort (nextHops.modify it fun n => { n with cost := cost }),it,false)

-- What Fib::addOrUpdateNextHop emits afterNewNextHop with.
def afterNewNextHop (cost : Nat) : Option NextHop :=
  let (nextHops,it,isNew) := addOrUpdateNextHop order nextHops face cost
  if isNew then nextHops[it]? else none

end

variable {order} {nextHops : List NextHop} {face : Face} {cost : Nat}

theorem findNextHop_end : findNextHop nextHops face = nextHops.length ↔ ∀ n ∈ nextHops, n.face ≠ face := by
  simp [findNextHop,findIdx_eq_length]

theorem afterNewNextHop_new (absent : ∀ n ∈ nextHops, n.face ≠ face) :
    afterNewNextHop order nextHops face cost = (order.sort (nextHops ++ [⟨face,cost⟩])).getLast? := by
  have found := findNextHop_end.mpr absent
  have length := (order.perm (nextHops ++ [⟨face,cost⟩])).length_eq
  simp only [afterNewNextHop,addOrUpdateNextHop,found,if_true]
  rw [List.getLast?_eq_getElem?,length,length_append,length_singleton,Nat.add_sub_cancel]

theorem afterNewNextHop_known (present : ¬ ∀ n ∈ nextHops, n.face ≠ face) : afterNewNextHop order nextHops face cost = none := by
  rw [← findNextHop_end] at present
  simp [afterNewNextHop,addOrUpdateNextHop,present]

theorem getLast_sorted {l : List NextHop} (sorted : l.Pairwise fun a b => a.cost ≤ b.cost) (last : l.getLast? = some x) (listed : y ∈ l) :
    y.cost ≤ x.cost := by
  obtain ⟨front,rfl⟩ := List.getLast?_eq_some_iff.mp last
  rcases mem_append.mp listed with early | here
  · exact (pairwise_append.mp sorted).2.2 y early x (mem_singleton_self x)
  · rw [mem_singleton.mp here]

theorem getLast_orderedInsert {l : List NextHop} {new : NextHop} (dear : ∃ n ∈ l, new.cost ≤ n.cost) :
    (l.orderedInsert (fun a b => a.cost ≤ b.cost) new).getLast? = l.getLast? := by
  induction l with
  | nil => simp at dear
  | cons first rest ih =>
    by_cases here : new.cost ≤ first.cost
    · rw [List.orderedInsert,if_pos here,List.getLast?_cons_cons]
    · have later : ∃ n ∈ rest, new.cost ≤ n.cost := by simpa [here] using dear
      rw [List.orderedInsert,if_neg here,List.getLast?_cons,List.getLast?_cons,ih later]

structure Announces (order : CostSort) (nextHops : List NextHop) (face : Face) (cost : Nat) : Prop where
  emitted : (afterNewNextHop order nextHops face cost).isSome ↔ ∀ n ∈ nextHops, n.face ≠ face
  right : ∀ n, afterNewNextHop order nextHops face cost = some n → n = ⟨face,cost⟩

theorem emitted_iff : (afterNewNextHop order nextHops face cost).isSome ↔ ∀ n ∈ nextHops, n.face ≠ face := by
  by_cases absent : ∀ n ∈ nextHops, n.face ≠ face
  · have length := (order.perm (nextHops ++ [⟨face,cost⟩])).length_eq
    rw [afterNewNextHop_new absent,List.getLast?_isSome]
    refine iff_of_true (fun empty => ?_) absent
    simp [empty] at length
  · simp [afterNewNextHop_known absent,absent]

-- The signal is sent for the new nexthops only, but with the nexthop that comes
-- last: if it is another one, it costs as much or more.
theorem announces_iff (nextHops : List NextHop) (face : Face) (cost : Nat) :
    ((∀ order, Announces order nextHops face cost) ↔ (∃ n ∈ nextHops, n.face = face) ∨ ∀ n ∈ nextHops, n.cost < cost) ∧
    ∀ order, (∀ n ∈ nextHops, n.face ≠ face) → (∃ n ∈ nextHops, cost < n.cost) → ¬ Announces order nextHops face cost := by
  refine ⟨⟨fun announces => ?_,fun condition order => ⟨emitted_iff,fun last emitted => ?_⟩⟩,fun order absent dear announces => ?_⟩
  · by_contra neither
    simp only [not_or,not_exists,not_and,not_forall,Nat.not_lt] at neither
    obtain ⟨absent,n,listed,dear⟩ := neither
    have among : n ∈ Fib.sortNextHops nextHops.reverse := by
      rw [Fib.sortNextHops,mem_insertionSort,mem_reverse]
      exact listed
    have emitted : afterNewNextHop .reversed nextHops face cost = (Fib.sortNextHops nextHops.reverse).getLast? := by
      rw [afterNewNextHop_new absent]
      simp only [CostSort.reversed,reverse_append,reverse_singleton,singleton_append]
      exact getLast_orderedInsert ⟨n,among,dear⟩
    obtain ⟨last,value⟩ := isSome_iff_exists.mp ((announces .reversed).emitted.mpr absent)
    have inside := mem_of_getLast? (emitted.symm.trans value)
    rw [Fib.sortNextHops,mem_insertionSort,mem_reverse] at inside
    exact absent last inside (by rw [(announces .reversed).right last value])
  · have absent := emitted_iff.mp (by rw [emitted]; rfl)
    have cheap := condition.resolve_left fun ⟨n,listed,same⟩ => absent n listed same
    rw [afterNewNextHop_new absent] at emitted
    have dearest := getLast_sorted (order.sorted _) emitted ((order.perm _).mem_iff.mpr (mem_append_right _ (mem_singleton_self _)))
    rcases mem_append.mp ((order.perm _).mem_iff.mp (mem_of_getLast? emitted)) with old | new
    · exact absurd (cheap last old) (Nat.not_lt.mpr dearest)
    · exact mem_singleton.mp new
  · obtain ⟨n,listed,dear⟩ := dear
    obtain ⟨last,value⟩ := isSome_iff_exists.mp (announces.emitted.mpr absent)
    obtain rfl := announces.right last value
    rw [afterNewNextHop_new absent] at value
    have dearest := getLast_sorted (order.sorted _) value ((order.perm _).mem_iff.mpr (mem_append_left _ listed))
    exact Nat.not_lt.mpr dearest dear

-- The forwarder's model takes the stable sort.
theorem newNextHop_announced {fib : Fib} {name : Name} (found : fib.find? (fun e => e.name = name) = some e)
    (absent : ∀ n ∈ e.nextHops, n.face ≠ face) : afterNewNextHop .stable e.nextHops face cost = some (fib.newNextHop name face cost) := by
  have announced : (afterNewNextHop .stable e.nextHops face cost).isSome := emitted_iff.mpr absent
  obtain ⟨last,emitted⟩ := isSome_iff_exists.mp announced
  have unknown : ¬ (e.nextHops.any fun n => n.face == face) := by simpa using absent
  have position : (Fib.addOrUpdateNextHop e.nextHops face cost)[e.nextHops.length]? = some last := by
    rw [← emitted,afterNewNextHop,addOrUpdateNextHop,if_pos (findNextHop_end.mpr absent),Fib.addOrUpdateNextHop,if_neg unknown]
    simp only [if_true,findNextHop_end.mpr absent]
    rfl
  rw [emitted]
  simp [Fib.newNextHop,found,position]

-- A second nexthop that costs less is announced as the first one.
theorem cheap_nexthop_misnamed : ∃ (nextHops : List NextHop) (first second : Face), nextHops = [⟨first,10⟩] ∧ first ≠ second ∧
    afterNewNextHop .stable nextHops second 5 = some ⟨first,10⟩ ∧ ¬ Announces .stable nextHops second 5 := by
  have emitted : afterNewNextHop .stable [⟨Demo.consumer,10⟩] Demo.producer 5 = some ⟨Demo.consumer,10⟩ := by decide
  refine ⟨_,Demo.consumer,Demo.producer,rfl,by decide,emitted,fun announces => ?_⟩
  exact absurd (announces.right _ emitted) (by decide)

end FibEntry
end ReflexiveNfd

import ReflexiveNfd.Tlv

namespace ReflexiveNfd
open List Block

inductive Framed : List UInt8 → List Block → List UInt8 → Prop
  | nil {octets : List UInt8} : Framed octets [] octets
  | cons {octets left rest : List UInt8} {b : Block} {elements : List Block} (read : fromBuffer octets = some (b,left))
      (later : Framed left elements rest) : Framed octets (b :: elements) rest

-- The longest sequence of complete elements before one that is malformed,
-- incomplete or too large.
structure Framing (octets : List UInt8) (elements : List Block) : Prop where
  front : ∃ rest, Framed octets elements rest ∧ ∀ b left, fromBuffer rest = some (b,left) → maxNdnPacketSize < b.size
  sizes : ∀ b ∈ elements, b.size ≤ maxNdnPacketSize

inductive TransportState where
  | up
  | failed
  deriving DecidableEq, Repr

-- receiveBuffer is the part of the buffer in use; received and offers record the
-- calls of receive and the regions given to async_receive, as start and length.
structure StreamTransport where
  state : TransportState
  receiveBuffer : List UInt8
  received : List Block
  offers : List (Nat × Nat)
  deriving DecidableEq, Repr

namespace StreamTransport

def startReceive (t : StreamTransport) : StreamTransport :=
  { t with offers := t.offers ++ [(t.receiveBuffer.length,maxNdnPacketSize - t.receiveBuffer.length)] }

def opened : StreamTransport := startReceive ⟨.up,[],[],[]⟩

def receiveElements : Nat → List UInt8 → Nat → Bool × Nat × List Block
  | 0,_,offset => (true,offset,[])
  | steps + 1,bufferView,offset =>
    if offset < bufferView.length then
      match fromBuffer (bufferView.drop offset) with
      | none => (false,offset,[])
      | some (element,_) =>
        let (isOk,last,elements) := receiveElements steps bufferView (offset + element.size)
        (isOk,last,element :: elements)
    else (true,offset,[])

-- Every element takes two octets or more: the loop ends within the given steps.
def handleReceive (t : StreamTransport) (chunk : List UInt8) : StreamTransport :=
  let bufferView := t.receiveBuffer ++ chunk
  let (isOk,offset,elements) := receiveElements bufferView.length bufferView 0
  let t := { t with receiveBuffer := bufferView, received := t.received ++ elements }
  if !isOk && bufferView.length == maxNdnPacketSize && offset == 0 then { t with state := .failed }
  else if offset > 0 then
    if offset ≠ bufferView.length then startReceive { t with receiveBuffer := bufferView.drop offset }
    else startReceive { t with receiveBuffer := [] }
  else startReceive t

-- A failed transport is closed: what the stream still holds is not read.
def receiveChunks : StreamTransport → List (List UInt8) → StreamTransport
  | t,[] => t
  | t,chunk :: chunks => match t.state with
      | .failed => t
      | .up => receiveChunks (t.handleReceive chunk) chunks

-- Each chunk that is read is not empty and fits the region that was offered.
def Fits : StreamTransport → List (List UInt8) → Prop
  | _,[] => True
  | t,chunk :: chunks => t.state = .up →
      chunk ≠ [] ∧ t.receiveBuffer.length + chunk.length ≤ maxNdnPacketSize ∧ Fits (t.handleReceive chunk) chunks

end StreamTransport

namespace Framed
variable {octets left rest more : List UInt8} {elements later : List Block}

theorem append (framed : Framed octets elements rest) (more : List UInt8) : Framed (octets ++ more) elements (rest ++ more) := by
  induction framed with
  | nil => exact .nil
  | cons read _ ih => exact .cons (fromBuffer_append read) ih

theorem trans (framed : Framed octets elements left) (after : Framed left later rest) : Framed octets (elements ++ later) rest := by
  induction framed with
  | nil => exact after
  | cons read _ ih => exact .cons read (ih after)

theorem octets_eq (framed : Framed octets elements rest) : octets = (elements.map wire).flatten ++ rest := by
  induction framed with
  | nil => rfl
  | cons read _ ih =>
    rw [(fromBuffer_consumes read).1,map_cons,flatten_cons,append_assoc,← ih]

theorem length_le (framed : Framed octets elements rest) :
    rest.length + 2 * elements.length ≤ octets.length ∧ ∀ b ∈ elements, b.size ≤ octets.length := by
  induction framed with
  | nil => simp
  | cons read _ ih =>
    obtain ⟨whole,two,_,_⟩ := fromBuffer_consumes read
    have length := congrArg List.length whole
    rw [length_append] at length
    simp only [Block.size,length_cons,forall_mem_cons] at *
    exact ⟨by omega,by omega,fun b present => Nat.le_trans (ih.2 b present) (by omega)⟩

end Framed

theorem Framing.unique (framing : Framing octets elements)
    (framingOther : Framing octets others) : elements = others := by
  obtain ⟨⟨rest,framed,stops⟩,sizes⟩ := framing
  obtain ⟨⟨restOther,framedOther,stopsOther⟩,sizesOther⟩ := framingOther
  induction framed generalizing others with
  | nil =>
    cases framedOther with
    | nil => rfl
    | cons read _ => exact absurd (stops _ _ read) (Nat.not_lt.mpr (sizesOther _ mem_cons_self))
  | cons read _ ih =>
    cases framedOther with
    | nil => exact absurd (stopsOther _ _ read) (Nat.not_lt.mpr (sizes _ mem_cons_self))
    | cons readOther framedLater =>
      obtain ⟨rfl,rfl⟩ := Prod.mk.inj (Option.some.inj (read.symm.trans readOther))
      rw [forall_mem_cons] at sizes sizesOther
      rw [ih sizes.2 stops sizesOther.2 framedLater]

theorem Block.fromBuffer_within (read : fromBuffer (buffer ++ more) = some (b,left))
    (within : b.size ≤ buffer.length) : ∃ rest, fromBuffer buffer = some (b,rest) := by
  obtain ⟨whole,_,_,again⟩ := fromBuffer_consumes read
  obtain ⟨rest,rfl⟩ : b.wire <+: buffer := prefix_of_prefix_length_le ⟨left,whole.symm⟩ (prefix_append ..) within
  exact ⟨rest,again rest⟩

namespace StreamTransport
variable {t : StreamTransport} {octets chunk : List UInt8}

theorem receiveElements_framed (enough : bufferView.length ≤ offset + steps)
    (within : offset ≤ bufferView.length) :
    ∃ isOk last elements, receiveElements steps bufferView offset = (isOk,last,elements) ∧ last ≤ bufferView.length ∧
      Framed (bufferView.drop offset) elements (bufferView.drop last) ∧ (isOk = true → last = bufferView.length) ∧
      (isOk = false → fromBuffer (bufferView.drop last) = none) := by
  induction steps generalizing offset with
  | zero => exact ⟨true,offset,[],rfl,within,.nil,fun _ => by omega,by simp⟩
  | succ steps ih =>
    rw [receiveElements]
    by_cases more : offset < bufferView.length
    · rw [if_pos more]
      cases read : fromBuffer (bufferView.drop offset) with
      | none => exact ⟨false,offset,[],rfl,within,.nil,by simp,fun _ => read⟩
      | some pair =>
        obtain ⟨element,left⟩ := pair
        obtain ⟨whole,size,_,_⟩ := fromBuffer_consumes read
        have length := congrArg List.length whole
        rw [length_drop,length_append] at length
        have dropped : left = bufferView.drop (offset + element.size) := by
          rw [← drop_drop,whole]
          exact drop_left.symm
        simp only [Block.size] at size dropped ⊢
        obtain ⟨isOk,last,elements,result,inside,framed,ended,stopped⟩ := @ih (offset + element.wire.length) (by omega) (by omega)
        rw [result]
        exact ⟨isOk,last,element :: elements,rfl,inside,.cons read (dropped ▸ framed),ended,stopped⟩
    · rw [if_neg more]
      exact ⟨true,offset,[],rfl,within,.nil,fun _ => by omega,by simp⟩

theorem handleReceive_cases (t : StreamTransport) (nonempty : chunk ≠ []) :
    (fromBuffer (t.receiveBuffer ++ chunk) = none ∧ (t.receiveBuffer ++ chunk).length = maxNdnPacketSize ∧
      t.handleReceive chunk = { t with receiveBuffer := t.receiveBuffer ++ chunk, state := .failed }) ∨
    ¬ (fromBuffer (t.receiveBuffer ++ chunk) = none ∧ (t.receiveBuffer ++ chunk).length = maxNdnPacketSize) ∧
      ∃ elements rest, Framed (t.receiveBuffer ++ chunk) elements rest ∧ fromBuffer rest = none ∧
        t.handleReceive chunk = startReceive { t with receiveBuffer := rest, received := t.received ++ elements } := by
  have filled : 0 < (t.receiveBuffer ++ chunk).length := by
    rw [length_append]
    have := length_pos_iff.mpr nonempty
    omega
  obtain ⟨isOk,last,elements,result,inside,framed,ended,stopped⟩ :=
    receiveElements_framed (Nat.le_add_left (t.receiveBuffer ++ chunk).length 0) (Nat.zero_le _)
  rw [drop_zero] at framed
  have unread : fromBuffer ((t.receiveBuffer ++ chunk).drop last) = none := by
    cases isOk with
    | true =>
      rw [ended rfl,drop_length]
      rfl
    | false => exact stopped rfl
  simp only [handleReceive,result]
  by_cases start : last = 0
  · subst start
    rw [drop_zero] at framed unread
    have failing : isOk = false := by
      cases isOk with
      | true => exact absurd (ended rfl) (by omega)
      | false => rfl
    obtain rfl : elements = [] := by
      cases framed with
      | nil => rfl
      | cons read _ => rw [unread] at read; cases read
    by_cases full : (t.receiveBuffer ++ chunk).length = maxNdnPacketSize
    · left
      exact ⟨unread,full,by simp only [failing,full,Bool.not_false,BEq.rfl,Bool.and_self,if_true,append_nil]⟩
    · right
      have room : ((t.receiveBuffer ++ chunk).length == maxNdnPacketSize) = false := by simpa using full
      exact ⟨fun both => full both.2,[],_,.nil,unread,by simp only [room,Bool.and_false,Bool.false_and,append_nil]; rfl⟩
  · right
    refine ⟨fun both => ?_,elements,_,framed,unread,?_⟩
    · cases framed' : elements with
      | nil =>
        rw [framed'] at framed
        have same := congrArg List.length framed.octets_eq
        simp only [map_nil,flatten_nil,nil_append,length_drop] at same
        omega
      | cons element later =>
        rw [framed'] at framed
        cases framed with
        | cons read _ =>
          rw [both.1] at read
          cases read
    · have positive : last > 0 := by omega
      have notStart : (last == 0) = false := by simpa using start
      rw [notStart,Bool.and_false,if_neg (by decide),if_pos positive]
      split
      · rfl
      · rename_i whole
        rw [not_not] at whole
        rw [whole,drop_length]

structure Receives (t : StreamTransport) (octets : List UInt8) : Prop where
  framed : Framed octets t.received t.receiveBuffer
  unread : fromBuffer t.receiveBuffer = none
  fits : t.receiveBuffer.length ≤ maxNdnPacketSize
  full : t.state = .failed ↔ t.receiveBuffer.length = maxNdnPacketSize
  sizes : ∀ b ∈ t.received, b.size ≤ maxNdnPacketSize
  offers : ∀ region ∈ t.offers, 0 < region.2 ∧ region.1 + region.2 ≤ maxNdnPacketSize

theorem opened_receives : opened.Receives [] where
  framed := .nil
  unread := rfl
  fits := by decide
  full := by decide
  sizes := by simp [opened,startReceive]
  offers := by decide

theorem handleReceive_receives (receives : t.Receives octets) (up : t.state = .up) (nonempty : chunk ≠ [])
    (fits : t.receiveBuffer.length + chunk.length ≤ maxNdnPacketSize) : (t.handleReceive chunk).Receives (octets ++ chunk) := by
  rcases handleReceive_cases t nonempty with ⟨unread,full,result⟩ | ⟨partly,elements,rest,framed,unread,result⟩
  · rw [result]
    exact ⟨receives.framed.append chunk,unread,Nat.le_of_eq full,by simpa using full,receives.sizes,receives.offers⟩
  · obtain ⟨length,sizes⟩ := framed.length_le
    rw [length_append] at length
    have room : rest.length < maxNdnPacketSize := by
      cases framed with
      | nil =>
        rcases Nat.lt_or_eq_of_le fits with less | same
        · rwa [length_append]
        · exact absurd ⟨unread,by rw [length_append,same]⟩ partly
      | cons read later =>
        rw [length_cons] at length
        omega
    rw [result]
    refine ⟨(receives.framed.append chunk).trans framed,unread,Nat.le_of_lt room,?_,?_,?_⟩
    · simp [startReceive,up,Nat.ne_of_lt room]
    · intro b present
      rcases mem_append.mp present with old | new
      · exact receives.sizes b old
      · have bound := sizes b new
        rw [length_append] at bound
        omega
    · intro region present
      rcases mem_append.mp present with old | new
      · exact receives.offers region old
      · rw [mem_singleton.mp new]
        simp only
        omega

theorem receiveChunks_receives (receives : t.Receives octets) (fits : t.Fits chunks) :
    ∃ read, (t.receiveChunks chunks).Receives (octets ++ read) ∧ read <+: chunks.flatten ∧
      ((t.receiveChunks chunks).state = .up → read = chunks.flatten) := by
  induction chunks generalizing t octets with
  | nil => exact ⟨[],by rwa [append_nil],List.nil_prefix,fun _ => rfl⟩
  | cons chunk chunks ih =>
    rw [receiveChunks]
    split
    · rename_i failed
      exact ⟨[],by rwa [append_nil],List.nil_prefix,fun up => absurd (failed.symm.trans up) (by decide)⟩
    · rename_i up
      obtain ⟨nonempty,room,later⟩ := fits up
      obtain ⟨read,received,front,whole⟩ := ih (handleReceive_receives receives up nonempty room) later
      refine ⟨chunk ++ read,by rwa [← append_assoc],?_,fun still => ?_⟩
      · rw [flatten_cons]
        exact (prefix_append_right_inj chunk).mpr front
      · rw [flatten_cons,whole still]

-- A full buffer that starts with no element hides one that is malformed or too
-- large, whatever follows.
theorem Receives.framing (receives : t.Receives octets) (more : List UInt8) (waits : t.state = .up → more = []) :
    Framing (octets ++ more) t.received := by
  refine ⟨⟨_,receives.framed.append more,fun b left read => ?_⟩,receives.sizes⟩
  cases state : t.state with
  | up =>
    rw [waits state,append_nil,receives.unread] at read
    cases read
  | failed =>
    by_contra small
    obtain ⟨rest,found⟩ := fromBuffer_within read (by rw [receives.full.mp state]; omega)
    rw [receives.unread] at found
    cases found

theorem fits_at {earlier later : List (List UInt8)} (fits : t.Fits (earlier ++ chunk :: later))
    (up : (t.receiveChunks earlier).state = .up) :
    chunk ≠ [] ∧ (t.receiveChunks earlier).receiveBuffer.length + chunk.length ≤ maxNdnPacketSize := by
  induction earlier generalizing t with
  | nil =>
    obtain ⟨nonempty,room,_⟩ := fits up
    exact ⟨nonempty,room⟩
  | cons first earlier ih =>
    rw [receiveChunks] at up ⊢
    split at up
    · rename_i failed
      exact absurd (failed.symm.trans up) (by decide)
    · rename_i started
      exact ih (fits started).2.2 up

end StreamTransport

open StreamTransport

-- However the stream is cut, what is passed on is the one sequence of complete
-- elements at its front; the transport fails exactly when the buffer is full and
-- starts with no element; and there is always room to receive into.
theorem stream_framing (chunks : List (List UInt8)) (fits : opened.Fits chunks) :
    (Framing chunks.flatten (opened.receiveChunks chunks).received ∧
      ∀ elements, Framing chunks.flatten elements → elements = (opened.receiveChunks chunks).received) ∧
    (∀ earlier chunk later, chunks = earlier ++ chunk :: later → (opened.receiveChunks earlier).state = .up →
      let t := opened.receiveChunks earlier
      (t.handleReceive chunk).state = .failed ↔
        (t.receiveBuffer ++ chunk).length = maxNdnPacketSize ∧ fromBuffer (t.receiveBuffer ++ chunk) = none) ∧
    ∀ region ∈ (opened.receiveChunks chunks).offers, 0 < region.2 ∧ region.1 + region.2 ≤ maxNdnPacketSize := by
  obtain ⟨read,receives,⟨more,whole⟩,all⟩ := receiveChunks_receives opened_receives fits
  have framing : Framing chunks.flatten (opened.receiveChunks chunks).received := by
    rw [← whole]
    refine receives.framing more (fun up => ?_)
    rw [← all up] at whole
    simpa using whole
  refine ⟨⟨framing,fun elements other => other.unique framing⟩,?_,receives.offers⟩
  rintro earlier chunk later rfl up
  have nonempty : chunk ≠ [] := (fits_at fits up).1
  rcases handleReceive_cases (opened.receiveChunks earlier) nonempty with ⟨unread,full,result⟩ | ⟨partly,_,_,_,_,result⟩
  · simp only [result,true_iff]
    exact ⟨full,unread⟩
  · simp only [result,startReceive,up]
    exact ⟨fun failed => absurd failed (by decide),fun both => absurd both.symm partly⟩

theorem stream_framing_cut : (opened.receiveChunks [[7],[3,8,1],[65,5]]).received = [⟨7,[7,3,8,1,65],[8,1,65]⟩] ∧
    Framing [7,3,8,1,65,5] (opened.receiveChunks [[7],[3,8,1],[65,5]]).received :=
  ⟨by decide,(stream_framing [[7],[3,8,1],[65,5]] (fun _ => ⟨by decide,by decide,fun _ => ⟨by decide,by decide,fun _ =>
    ⟨by decide,by decide,trivial⟩⟩⟩)).1.1⟩

end ReflexiveNfd

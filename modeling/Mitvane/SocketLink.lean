import Mitvane.IdpsContext

set_option autoImplicit false

namespace Mitvane
open PartialRun
variable {Chunk Certificate Area : Type}

def ethernetLength : Nat := 14

/-- The boundaries of the physical and of the link layer are set in the packet. -/
def parseEthernetHeader (v : Vanetza Chunk Certificate Area) (packet : CohesivePacket) :
    Option EthernetHeader × CohesivePacket :=
  if packet.buffer.length < ethernetLength then (none,{ packet with boundaries := [0] })
  else (some (v.decodeEthernetHeader (packet.buffer.take ethernetLength)),
    { packet with boundaries := [0,ethernetLength] })

def receiveBufferSize : Nat := 2048

/-- The members of the receive loop. `receives` counts the operations in flight, and
`callback` says whether `indicate` was called. -/
structure RawSocketLink where
  receiveBuffer : ByteBuffer
  sized : receiveBuffer.length = receiveBufferSize
  callback : Bool
  receives : Nat

namespace RawSocketLink

def doReceive (l : RawSocketLink) : RawSocketLink := { l with receives := l.receives+1 }

def create : RawSocketLink :=
  doReceive ⟨List.replicate receiveBufferSize 0,List.length_replicate,false,0⟩

def indicate (l : RawSocketLink) : RawSocketLink := { l with callback := true }

def readBytes (datagram : ByteBuffer) : Nat := min datagram.length receiveBufferSize

/-- The operation ends. A datagram is cut at the end of the buffer, and the bytes behind
a shorter one stay what they were. -/
def complete (l : RawSocketLink) (datagram : ByteBuffer) : RawSocketLink where
  receiveBuffer := datagram.take receiveBufferSize ++ l.receiveBuffer.drop (readBytes datagram)
  sized := by
    have hs := l.sized
    simp only [List.length_append,List.length_take,List.length_drop,readBytes]
    omega
  callback := l.callback
  receives := l.receives-1

def delivered (v : Vanetza Chunk Certificate Area) (l : RawSocketLink) (bytes : Nat) :
    Option Frame :=
  match parseEthernetHeader v ⟨l.receiveBuffer.take bytes,[]⟩ with
  | (none,_) => none
  | (some header,packet) => if l.callback then some ⟨packet,header⟩ else none

def handUp {σ ε : Type} (callback : σ → Frame → Except ε σ) (s : σ) :
    Option Frame → Except ε σ
  | none => .ok s
  | some frame => callback s frame

/-- After an error the loop is not started again. -/
def onRead {σ ε : Type} (v : Vanetza Chunk Certificate Area)
    (callback : σ → Frame → Except ε σ) (l : RawSocketLink) (s : σ) (ok : Bool) (bytes : Nat) :
    Except ε (RawSocketLink × σ) :=
  if ok then do
    let s ← handUp callback s (l.delivered v bytes)
    pure (l.doReceive,s)
  else pure (l,s)

end RawSocketLink

theorem RawSocketLink.handUp_ok {σ ε : Type} {callback : σ → Frame → Except ε σ} {s s' : σ}
    {frame : Option Frame} (h : handUp callback s frame = .ok s') :
    (frame = none ∧ s' = s) ∨ ∃ f, frame = some f ∧ callback s f = .ok s' := by
  cases frame with
  | none =>
    cases h
    exact .inl ⟨rfl,rfl⟩
  | some f => exact .inr ⟨f,rfl,h⟩

def frameOf (v : Vanetza Chunk Certificate Area) (datagram : ByteBuffer) : Option Frame :=
  if datagram.length < ethernetLength then none
  else some ⟨⟨datagram.take receiveBufferSize,[0,ethernetLength]⟩,
    v.decodeEthernetHeader (datagram.take ethernetLength)⟩

theorem RawSocketLink.complete_take (l : RawSocketLink) (datagram : ByteBuffer) :
    (l.complete datagram).receiveBuffer.take (readBytes datagram) =
      datagram.take receiveBufferSize := by
  have hlen : (datagram.take receiveBufferSize).length = readBytes datagram := by
    rw [List.length_take,readBytes,Nat.min_comm]
  exact List.take_left' hlen

theorem RawSocketLink.delivered_complete (v : Vanetza Chunk Certificate Area) (l : RawSocketLink)
    (datagram : ByteBuffer) : (l.complete datagram).delivered v (readBytes datagram) =
      if l.callback then frameOf v datagram else none := by
  have hshort : (datagram.take receiveBufferSize).length < ethernetLength ↔
      datagram.length < ethernetLength := by
    rw [List.length_take,receiveBufferSize,ethernetLength]
    omega
  have hfront : (datagram.take receiveBufferSize).take ethernetLength =
      datagram.take ethernetLength := List.take_take
  simp only [delivered,complete_take,parseEthernetHeader,hshort,hfront,frameOf]
  by_cases h : datagram.length < ethernetLength
  · simp [h]
  · simp only [h,if_false]
    rfl

def RawSocketLink.receive {σ ε : Type} (v : Vanetza Chunk Certificate Area)
    (callback : σ → Frame → Except ε σ) (l : RawSocketLink) (s : σ) :
    Option ByteBuffer → Except ε (RawSocketLink × σ)
  | none => onRead v callback (l.complete []) s false 0
  | some datagram => onRead v callback (l.complete datagram) s true (readBytes datagram)

theorem RawSocketLink.receive_ok {σ ε : Type} {v : Vanetza Chunk Certificate Area}
    {callback : σ → Frame → Except ε σ} {l l' : RawSocketLink} {s s' : σ}
    {input : Option ByteBuffer} (h : l.receive v callback s input = .ok (l',s')) :
    l'.callback = l.callback ∧
    l'.receives = l.receives-1+(if input.isSome then 1 else 0) ∧
    handUp callback s (if l.callback then input.bind (frameOf v) else none) = .ok s' := by
  cases input with
  | none =>
    cases h
    refine ⟨rfl,rfl,?_⟩
    split <;> rfl
  | some datagram =>
    simp only [receive,onRead,if_true,bind_eq_ok,delivered_complete] at h
    obtain ⟨s₁,hcall,hret⟩ := h
    cases hret
    exact ⟨rfl,rfl,hcall⟩

end Mitvane

import Mitvane.BitOutput

/-! Complete encodings: a position at the start of fresh memory around the encoder or the
decoder of a type, and the bytes in between. -/
set_option autoImplicit false

namespace Mitvane.Per
open PartialRun BitString

def BitOutp.deliver (po : BitOutp) (size : Nat) : Except Fault (Option Unit × BitOutp) :=
  if po.output (po.flushed ++ po.tmpspace.take size) then
    .ok (some (),{ po with flushed := po.flushed ++ po.tmpspace.take size })
  else .ok (none,po)

def uperEncodeFlushOutp : Put Unit := fun po =>
  if po.nboff = 0 ∧ po.buffer = 0 then .ok (some (),po)
  else
    let buf := po.buffer+po.nboff >>> 3
    if po.nboff % 8 ≠ 0 then do
      let b ← byteAt po.tmpspace buf
      let po ← { po with buffer := buf }.assign [UInt8.ofNat (b &&& 0xff <<< (8-po.nboff % 8))]
      po.deliver (buf+1)
    else po.deliver buf

structure Encoding where
  encoded : Nat
  output : List UInt8
  deriving DecidableEq, Repr

/-- What is on the stack where the encoder keeps its bytes. -/
abbrev Tmpspace := { bytes : List UInt8 // bytes.length = tmpspaceSize }

def zeroStack : Tmpspace := ⟨List.replicate 32 0,rfl⟩

def uperEncode (stack : Tmpspace) (output : List UInt8 → Bool) (uperEncoder : Put Unit) :
    Except Fault (Option Encoding) := do
  let (er,po) ← uperEncoder (BitOutp.create stack.1 stack.2 output)
  match er with
  | none => pure none
  | some () =>
    let bitsToFlush := po.buffer <<< 3+po.nboff
    let encoded := po.flushed.length <<< 3+bitsToFlush
    let (flushed,po) ← uperEncodeFlushOutp po
    match flushed with
    | none => pure none
    | some () => pure (some ⟨encoded,po.flushed⟩)

/-- The buffer and its size. Memory for it is there. -/
def uperEncodeToNewBuffer (stack : Tmpspace) (uperEncoder : Put Unit) :
    Except Fault (Option (List UInt8 × Nat)) := do
  let er ← uperEncode stack (fun _ => true) uperEncoder
  match er with
  | none => pure none
  | some er =>
    if er.encoded = 0 then pure (some ([0],1))
    else pure (some (er.output,(er.encoded+7) >>> 3))

def uperDecode {α : Type} (uperDecoder : Get α) (buffer : List UInt8) (skipBits unusedBits : Nat) :
    Except Fault (Option (α × Nat)) :=
  if 7 < skipBits ∨ 7 < unusedBits ∨ (0 < unusedBits ∧ buffer.length = 0) then .ok none
  else
    let pd : BitData := ⟨buffer,skipBits,8*buffer.length-unusedBits,0⟩
    if pd.nbits < pd.nboff then .ok none
    else do
      let (value,pd) ← uperDecoder pd
      match value with
      | none => pure none
      | some value =>
        let consumed := (buffer.length-pd.buffer.length) <<< 3+pd.nboff-skipBits
        if consumed = pd.moved then pure (some (value,consumed))
        else .error .assertion

def uperDecodeComplete {α : Type} (uperDecoder : Get α) (buffer : List UInt8) :
    Except Fault (Option (α × Nat)) := do
  let rval ← uperDecode uperDecoder buffer 0 0
  match rval with
  | none => pure none
  | some (value,consumed) =>
    if consumed ≠ 0 then pure (some (value,(consumed+7) >>> 3))
    else if buffer.length ≠ 0 then do
      let b ← byteAt buffer 0
      if b = 0 then pure (some (value,1)) else pure none
    else pure none

/-- Without an output nobody can read, the encoder throws. -/
def encodePer (stack : Tmpspace) (uperEncoder : Put Unit) : Except Fault (Option (List UInt8)) := do
  let ec ← uperEncode stack (fun _ => true) uperEncoder
  pure (ec.map (·.output))

def decodePer {α : Type} (uperDecoder : Get α) (buffer : List UInt8) :
    Except Fault (Option α) := do
  let ec ← uperDecodeComplete uperDecoder buffer
  pure (ec.map (·.1))

theorem eq_toBytes_of_padding {bytes : List UInt8} {bits : List Bool} {z : Nat}
    (h : ofBytes bytes = bits ++ List.replicate z false) (hz : z < 8) :
    bytes = toBytes ((bits.length+7)/8) bits := by
  have hlen := congrArg List.length h
  rw [length_ofBytes,List.length_append,List.length_replicate] at hlen
  have hpad : z = 8*((bits.length+7)/8)-bits.length := by omega
  rw [hpad] at h
  exact eq_toBytes bytes bits h

theorem uperEncodeFlushOutp_ok {po : BitOutp} (hv : po.Valid)
    (hout : po.output = fun _ => true) :
    ∃ po', uperEncodeFlushOutp po = .ok (some (),po') ∧
      po'.flushed = toBytes ((po.written.length+7)/8) po.written := by
  have hs := hv.space
  have hp := hv.position
  have htmp := po.sized
  unfold uperEncodeFlushOutp
  by_cases hempty : po.nboff = 0 ∧ po.buffer = 0
  · refine ⟨po,if_pos hempty,eq_toBytes_of_padding (z := 0) ?_ (by decide)⟩
    rw [BitOutp.written,hempty.1,hempty.2]
    simp
  · rw [if_neg hempty]
    have hshift : po.nboff >>> 3 = po.nboff/8 := Nat.shiftRight_eq_div_pow _ 3
    by_cases hwhole : po.nboff % 8 = 0
    · simp only [if_neg (show ¬ po.nboff % 8 ≠ 0 by omega),BitOutp.deliver,hout,if_true]
      refine ⟨_,rfl,eq_toBytes_of_padding (z := 0) ?_ (by decide)⟩
      have hbits : 8*(po.buffer+po.nboff/8) = 8*po.buffer+po.nboff := by omega
      rw [ofBytes_append,ofBytes_take,hshift,BitOutp.written,hbits,List.replicate_zero,
        List.append_nil]
    · simp only [if_pos (show po.nboff % 8 ≠ 0 from hwhole),hshift]
      have hroom : po.buffer+po.nboff/8 < tmpspaceSize := by omega
      obtain ⟨b,hb,hfirst⟩ := BitOutp.first_eq { po with buffer := po.buffer+po.nboff/8 } hroom
      obtain ⟨po',hassign,_,_,_,hflushed,houtput,htake⟩ :=
        BitOutp.assign_ok { po with buffer := po.buffer+po.nboff/8 }
          [UInt8.ofNat (b.toNat &&& 0xff <<< (8-po.nboff % 8))] hroom
      have hall : po'.output = fun _ => true := houtput.trans hout
      have hfirst' : byteAt po.tmpspace (po.buffer+po.nboff/8) = .ok b.toNat := hfirst
      rw [hfirst',ok_bind,hassign,ok_bind,BitOutp.deliver,hall]
      refine ⟨_,if_pos rfl,eq_toBytes_of_padding (z := 8-po.nboff % 8) ?_ (by omega)⟩
      have hlast := htake 8 (Nat.le_refl _)
      simp only at hlast hflushed hb
      have hbyte : ofBytes [UInt8.ofNat (b.toNat &&& 0xff <<< (8-po.nboff % 8))] =
          (ofNat 8 b.toNat).take (po.nboff % 8) ++ List.replicate (8-po.nboff % 8) false := by
        have hsum : po.nboff % 8+(8-po.nboff % 8) = 8 := by omega
        have hpad := ofNat_mul_pow (po.nboff % 8) (8-po.nboff % 8) (b.toNat/2^(8-po.nboff % 8))
        rw [hsum] at hpad
        rw [ofBytes,ofBytes,List.append_nil,ofNat_uint8,and_ones_shifted b.toNat_lt,hpad,
          take_byte b.toNat (by omega)]
      have hfull : (ofBytes [UInt8.ofNat (b.toNat &&& 0xff <<< (8-po.nboff % 8))]).take 8 =
          ofBytes [UInt8.ofNat (b.toNat &&& 0xff <<< (8-po.nboff % 8))] :=
        List.take_of_length_le (by rw [length_ofBytes]; rfl)
      have hwritten : (ofBytes po.tmpspace).take (8*po.buffer+po.nboff) =
          (ofBytes po.tmpspace).take (8*(po.buffer+po.nboff/8)) ++
            (ofNat 8 b.toNat).take (po.nboff % 8) := by
        have hbits : 8*po.buffer+po.nboff = 8*(po.buffer+po.nboff/8)+po.nboff % 8 := by omega
        rw [hbits,BitOutp.take_at_buffer hb (by omega)]
      rw [ofBytes_append,ofBytes_take,hflushed,Nat.mul_succ,hlast,hfull,hbyte,BitOutp.written,
        hwritten]
      simp only [List.append_assoc]

/-- An encoding is the bits written, up to a byte; what was on the stack before is not in
it. -/
theorem uperEncode_eq {uperEncoder : Put Unit} {bits : List Bool}
    (h : Put.Emits uperEncoder bits ()) (stack : Tmpspace) :
    uperEncode stack (fun _ => true) uperEncoder =
      .ok (some ⟨bits.length,toBytes ((bits.length+7)/8) bits⟩) := by
  obtain ⟨po,hrun,hv,hout,hwritten⟩ := h.run stack.1 stack.2
  obtain ⟨po',hflush,hbytes⟩ := uperEncodeFlushOutp_ok hv hout
  have hs := hv.space
  have hp := hv.position
  have htmp := po.sized
  have hencoded : po.flushed.length <<< 3+(po.buffer <<< 3+po.nboff) = bits.length := by
    rw [← hwritten,BitOutp.written,List.length_append,length_ofBytes,List.length_take,
      length_ofBytes,Nat.shiftLeft_eq,Nat.shiftLeft_eq]
    omega
  unfold uperEncode
  simp only [hrun,ok_bind,hflush]
  rw [hencoded,hbytes,hwritten]
  rfl

theorem uperEncodeToNewBuffer_eq {uperEncoder : Put Unit} {bits : List Bool}
    (h : Put.Emits uperEncoder bits ()) (stack : Tmpspace) :
    uperEncodeToNewBuffer stack uperEncoder = .ok (some (if bits.length = 0 then ([0],1)
      else (toBytes ((bits.length+7)/8) bits,(bits.length+7)/8))) := by
  unfold uperEncodeToNewBuffer
  rw [uperEncode_eq h stack,ok_bind]
  by_cases hzero : bits.length = 0
  · simp only [if_pos hzero]
    rfl
  · simp only [if_neg hzero,Nat.shiftRight_eq_div_pow]
    rfl

theorem encodePer_eq {uperEncoder : Put Unit} {bits : List Bool}
    (h : Put.Emits uperEncoder bits ()) (stack : Tmpspace) :
    encodePer stack uperEncoder = .ok (some (toBytes ((bits.length+7)/8) bits)) := by
  unfold encodePer
  rw [uperEncode_eq h stack,ok_bind]
  rfl

theorem consumed_eq {pd pd' : BitData} (hv : pd.Valid) (hv' : pd'.Valid)
    (hfollows : pd.Follows pd') (hmoved : pd.moved = 0) :
    (pd.buffer.length-pd'.buffer.length) <<< 3+pd'.nboff-pd.nboff = pd'.moved := by
  have hmove := hfollows.moved
  have hmem := hfollows.memory
  have hbuf := hfollows.pointer
  have hp := hv.position
  have hp' := hv'.position
  rw [hv.length_rest,hv'.length_rest] at hmove
  rw [Nat.shiftLeft_eq]
  omega

def startOf (buffer : List UInt8) (skipBits unusedBits : Nat) : BitData :=
  ⟨buffer,skipBits,8*buffer.length-unusedBits,0⟩

theorem uperDecode_some {α : Type} {uperDecoder : Get α} {buffer : List UInt8}
    {skipBits unusedBits : Nat} {value : α} {pd' : BitData} (hskip : skipBits ≤ 7)
    (hunused : unusedBits ≤ 7) (hfit : skipBits+unusedBits ≤ 8*buffer.length)
    (hrun : uperDecoder (startOf buffer skipBits unusedBits) = .ok (some value,pd'))
    (hv' : pd'.Valid) (hfollows : (startOf buffer skipBits unusedBits).Follows pd') :
    uperDecode uperDecoder buffer skipBits unusedBits = .ok (some (value,pd'.moved)) := by
  have hv : (startOf buffer skipBits unusedBits).Valid :=
    ⟨show skipBits ≤ 8*buffer.length-unusedBits by omega,
      show 8*buffer.length-unusedBits ≤ 8*buffer.length by omega⟩
  have hconsumed : (buffer.length-pd'.buffer.length) <<< 3+pd'.nboff-skipBits = pd'.moved :=
    consumed_eq hv hv' hfollows rfl
  unfold startOf at hrun
  unfold uperDecode
  rw [if_neg (by omega),if_neg (show ¬ 8*buffer.length-unusedBits < skipBits by omega)]
  simp only [hrun,ok_bind]
  rw [if_pos hconsumed,hconsumed]
  rfl

theorem uperDecode_none {α : Type} {uperDecoder : Get α} {buffer : List UInt8} {pd' : BitData}
    (hrun : uperDecoder (startOf buffer 0 0) = .ok (none,pd')) :
    uperDecode uperDecoder buffer 0 0 = .ok none := by
  unfold startOf at hrun
  unfold uperDecode
  rw [if_neg (by omega),if_neg (Nat.not_lt_zero _)]
  simp only [hrun,ok_bind]
  rfl

/-- Whatever the bytes are, decoding them ends, without a fault, and takes no more bytes
than there are. -/
theorem uperDecodeComplete_ensures {α : Type} {uperDecoder : Get α} {P : α → Prop}
    (h : Get.Ensures uperDecoder P) (buffer : List UInt8) :
    ∃ rval, uperDecodeComplete uperDecoder buffer = .ok rval ∧
      ∀ value consumed, rval = some (value,consumed) → P value ∧ consumed ≤ buffer.length := by
  have hv : (startOf buffer 0 0).Valid := ⟨Nat.zero_le _,Nat.le_refl _⟩
  obtain ⟨result,pd',hrun,hv',hfollows,hp⟩ := h _ hv
  unfold uperDecodeComplete
  cases result with
  | none =>
    rw [uperDecode_none hrun]
    exact ⟨none,rfl,fun _ _ hsome => nomatch hsome⟩
  | some value =>
    rw [uperDecode_some (by omega) (by omega) (by omega) hrun hv' hfollows,ok_bind]
    have hmoved := hfollows.moved
    have hlen : (startOf buffer 0 0).rest.length = 8*buffer.length := by
      rw [hv.length_rest]
      simp [startOf]
    rw [hlen] at hmoved
    have hstart : (startOf buffer 0 0).moved = 0 := rfl
    by_cases hzero : pd'.moved = 0
    · simp only [if_neg (show ¬ pd'.moved ≠ 0 by omega)]
      cases buffer with
      | nil => exact ⟨none,rfl,fun _ _ hsome => nomatch hsome⟩
      | cons b bytes =>
        rw [if_pos (by simp),byteAt_eq (b := b) rfl,ok_bind]
        by_cases hb : b.toNat = 0
        · rw [if_pos hb]
          refine ⟨_,rfl,?_⟩
          intro value' consumed hsome
          cases hsome
          exact ⟨hp value rfl,by simp⟩
        · rw [if_neg hb]
          exact ⟨none,rfl,fun _ _ hsome => nomatch hsome⟩
    · simp only [if_pos (show pd'.moved ≠ 0 from hzero),Nat.shiftRight_eq_div_pow]
      refine ⟨_,rfl,?_⟩
      intro value' consumed hsome
      cases hsome
      exact ⟨hp value rfl,by omega⟩

theorem startOf_rest (bits : List Bool) (more : List UInt8) :
    (startOf (toBytes ((bits.length+7)/8) bits ++ more) 0 0).rest = bits ++
      (List.replicate (8*((bits.length+7)/8)-bits.length) false ++ ofBytes more) := by
  generalize hbuffer : toBytes ((bits.length+7)/8) bits ++ more = buffer
  have hall : (startOf buffer 0 0).rest = ofBytes buffer := by
    simp only [startOf,BitData.rest,List.drop_zero,Nat.sub_zero]
    exact List.take_of_length_le (by rw [length_ofBytes])
  rw [hall,← hbuffer,ofBytes_append,ofBytes_toBytes (by omega),List.append_assoc]

/-- An encoding is decoded again, whatever bytes follow it. -/
theorem uperDecodeComplete_accepts {α : Type} {uperDecoder : Get α} {bits : List Bool} {value : α}
    (h : Get.Accepts uperDecoder bits value) (hpos : 0 < bits.length) (more : List UInt8) :
    uperDecodeComplete uperDecoder (toBytes ((bits.length+7)/8) bits ++ more) =
      .ok (some (value,(bits.length+7)/8)) := by
  have hrest := startOf_rest bits more
  generalize toBytes ((bits.length+7)/8) bits ++ more = buffer at hrest ⊢
  have hv : (startOf buffer 0 0).Valid := ⟨Nat.zero_le _,Nat.le_refl _⟩
  obtain ⟨pd',hrun,hv',hfollows,hrest'⟩ := h _ _ hv hrest
  have hmoved : pd'.moved = bits.length := by
    have hmove := hfollows.moved
    have hstart : (startOf buffer 0 0).moved = 0 := rfl
    rw [hrest,hrest',hstart] at hmove
    simp only [List.length_append] at hmove
    omega
  unfold uperDecodeComplete
  rw [uperDecode_some (by omega) (by omega) (by omega) hrun hv' hfollows,ok_bind,hmoved]
  simp only [if_pos (show bits.length ≠ 0 by omega),Nat.shiftRight_eq_div_pow]
  rfl

theorem decodePer_accepts {α : Type} {uperDecoder : Get α} {bits : List Bool} {value : α}
    (h : Get.Accepts uperDecoder bits value) (hpos : 0 < bits.length) (more : List UInt8) :
    decodePer uperDecoder (toBytes ((bits.length+7)/8) bits ++ more) = .ok (some value) := by
  unfold decodePer
  rw [uperDecodeComplete_accepts h hpos more]
  rfl

theorem decodePer_refuses {α : Type} {uperDecoder : Get α} {bits : List Bool}
    (h : Get.Refuses uperDecoder bits) (more : List UInt8) :
    decodePer uperDecoder (toBytes ((bits.length+7)/8) bits ++ more) = .ok none := by
  obtain ⟨pd',hrun⟩ := h _ _ ⟨Nat.zero_le _,Nat.le_refl _⟩ (startOf_rest bits more)
  unfold decodePer uperDecodeComplete
  rw [uperDecode_none hrun]
  rfl

theorem Get.Ensures.of_accepts {α : Type} {uperDecoder : Get α} {P : α → Prop}
    (h : Get.Ensures uperDecoder P) {bits : List Bool} {value : α}
    (haccepts : Get.Accepts uperDecoder bits value) : P value := by
  have hv : (startOf (toBytes ((bits.length+7)/8) bits ++ []) 0 0).Valid :=
    ⟨Nat.zero_le _,Nat.le_refl _⟩
  obtain ⟨_,hrun,_⟩ := haccepts _ _ hv (startOf_rest bits [])
  obtain ⟨_,_,hrun',_,_,hp⟩ := h _ hv
  rw [hrun] at hrun'
  cases hrun'
  exact hp value rfl

theorem decodePer_ensures {α : Type} {uperDecoder : Get α} {P : α → Prop}
    (h : Get.Ensures uperDecoder P) (buffer : List UInt8) :
    ∃ result, decodePer uperDecoder buffer = .ok result ∧ ∀ value, result = some value → P value := by
  obtain ⟨rval,hrun,hp⟩ := uperDecodeComplete_ensures h buffer
  refine ⟨rval.map (·.1),?_,?_⟩
  · unfold decodePer
    rw [hrun]
    rfl
  · intro value hvalue
    cases rval with
    | none => cases hvalue
    | some r =>
      cases hvalue
      exact (hp r.1 r.2 rfl).1

end Mitvane.Per

import Mitvane.BitData

/-! Forming bit output: a small buffer that is flushed through a callback. What has been
written is a string of bits, and writing continues it. -/
set_option autoImplicit false

namespace Mitvane.Per
open PartialRun BitString

def tmpspaceSize : Nat := 32

/-- `asn_bit_outp_t`. The pointer `buffer` is an offset into `tmpspace`, `flushed` is what
went through the callback, and `output` says whether the callback takes a chunk after
which it has seen the given bytes. -/
structure BitOutp where
  tmpspace : List UInt8
  sized : tmpspace.length = tmpspaceSize
  buffer : Nat
  nboff : Nat
  nbits : Nat
  flushed : List UInt8
  output : List UInt8 → Bool

/-- A function that writes: its result, `none` for `-1`. -/
def Put (α : Type) := BitOutp → Except Fault (Option α × BitOutp)

instance : Monad Put where
  pure a := fun po => .ok (some a,po)
  bind m f := fun po =>
    match m po with
    | .ok (some a,po) => f a po
    | .ok (none,po) => .ok (none,po)
    | .error e => .error e

def Put.fail {α : Type} : Put α := fun po => .ok (none,po)

def Put.check {α : Type} (x : Except Fault (Option α)) : Put α :=
  fun po => x >>= fun a => pure (a,po)

namespace BitOutp

/-- A position at the start, over whatever the memory holds. -/
def create (tmpspace : List UInt8) (sized : tmpspace.length = tmpspaceSize)
    (output : List UInt8 → Bool) : BitOutp :=
  ⟨tmpspace,sized,0,0,8*tmpspaceSize,[],output⟩

def normalize (po : BitOutp) : BitOutp :=
  if 8 ≤ po.nboff then { po with
    buffer := po.buffer+po.nboff >>> 3
    nbits := po.nbits-po.nboff/8*8
    nboff := po.nboff % 8 }
  else po

def first (po : BitOutp) : Except Fault Nat := byteAt po.tmpspace po.buffer

def assign (po : BitOutp) (bytes : List UInt8) : Except Fault BitOutp :=
  if h : po.buffer+bytes.length ≤ tmpspaceSize then .ok { po with
    tmpspace := po.tmpspace.take po.buffer ++ bytes ++ po.tmpspace.drop (po.buffer+bytes.length)
    sized := by
      have hs := po.sized
      simp only [List.length_append,List.length_take,List.length_drop]
      omega }
  else .error .outOfBounds

def rewind (po : BitOutp) : Except Fault BitOutp :=
  if po.nboff ≠ 0 then do
    let b ← po.first
    { po with buffer := 0 }.assign [UInt8.ofNat b]
  else .ok { po with buffer := 0 }

def flush (po : BitOutp) : Except Fault (Option Unit × BitOutp) :=
  if po.output (po.flushed ++ po.tmpspace.take po.buffer) then do
    let rewound ← po.rewind
    pure (some (),{ rewound with
      nbits := 8*tmpspaceSize
      flushed := po.flushed ++ po.tmpspace.take po.buffer })
  else .ok (none,po)

end BitOutp

/-- The low eight bits of `~((1 << (8 - nboff)) - 1)`. -/
def omsk (nboff : Nat) : Nat := 256-1 <<< (8-nboff)

def assignBits (po : BitOutp) (bits obits : Nat) : Except Fault BitOutp := do
  let b0 ← po.first
  let kept := b0 &&& omsk po.nboff
  let off := po.nboff+obits
  let po := { po with nboff := off }
  if off ≤ 8 then
    let bits := bits <<< (8-off)
    po.assign [UInt8.ofNat (kept ||| bits)]
  else if off ≤ 16 then
    let bits := bits <<< (16-off)
    po.assign [UInt8.ofNat (kept ||| bits >>> 8),UInt8.ofNat bits]
  else if off ≤ 24 then
    let bits := bits <<< (24-off)
    po.assign [UInt8.ofNat (kept ||| bits >>> 16),UInt8.ofNat (bits >>> 8),UInt8.ofNat bits]
  else
    let bits := bits <<< (32-off)
    po.assign [UInt8.ofNat (kept ||| bits >>> 24),UInt8.ofNat (bits >>> 16),
      UInt8.ofNat (bits >>> 8),UInt8.ofNat bits]

/-- `asn_put_few_bits`. The function calls itself where the bits go to five bytes. -/
def putFewBits : Nat → Nat → Nat → Put Unit
  | 0, _, _, _ => .error .unfinished
  | depth+1, bits, obits, po =>
    if obits = 0 then .ok (some (),po)
    else if 32 ≤ obits then .ok (none,po)
    else do
      let po := po.normalize
      let (flushed,po) ← if po.nbits < po.nboff+obits then po.flush else pure (some (),po)
      match flushed with
      | none => pure (none,po)
      | some () =>
        let bits := bits &&& (1 <<< obits-1)
        if po.nboff+obits ≤ 31 then do
          let po ← assignBits po bits obits
          pure (some (),po)
        else (do
          putFewBits depth (bits >>> (obits-24)) 24
          putFewBits depth bits (obits-24) : Put Unit) po

def asnPutFewBits (bits obits : Nat) : Put Unit := putFewBits 2 bits obits

namespace BitOutp

structure Valid (po : BitOutp) : Prop where
  space : 8*po.buffer+po.nbits = 8*tmpspaceSize
  position : po.nboff ≤ po.nbits

def written (po : BitOutp) : List Bool :=
  ofBytes po.flushed ++ (ofBytes po.tmpspace).take (8*po.buffer+po.nboff)

theorem Valid.normalize {po : BitOutp} (h : po.Valid) :
    po.normalize.Valid ∧ po.normalize.written = po.written ∧ po.normalize.nboff < 8 ∧
      po.normalize.output = po.output := by
  have hs := h.space
  have hp := h.position
  unfold BitOutp.normalize
  split
  · have hshift : po.nboff >>> 3 = po.nboff/8 := Nat.shiftRight_eq_div_pow _ 3
    refine ⟨⟨?_,?_⟩,?_,?_,rfl⟩
    · change 8*(po.buffer+po.nboff >>> 3)+(po.nbits-po.nboff/8*8) = 8*tmpspaceSize
      omega
    · change po.nboff % 8 ≤ po.nbits-po.nboff/8*8
      omega
    · simp only [written]
      congr 2
      omega
    · change po.nboff % 8 < 8
      omega
  · exact ⟨h,rfl,by omega,rfl⟩

theorem create_valid (tmpspace : List UInt8) (sized : tmpspace.length = tmpspaceSize)
    (output : List UInt8 → Bool) : (create tmpspace sized output).Valid := by
  refine ⟨?_,Nat.zero_le _⟩
  simp [create]

theorem create_written (tmpspace : List UInt8) (sized : tmpspace.length = tmpspaceSize)
    (output : List UInt8 → Bool) : (create tmpspace sized output).written = [] := by
  simp [create,written,ofBytes]

theorem take_assigned (tmpspace bytes : List UInt8) {buffer m : Nat} (hb : buffer ≤ tmpspace.length)
    (hm : m ≤ 8*bytes.length) :
    (ofBytes (tmpspace.take buffer ++ bytes ++ tmpspace.drop (buffer+bytes.length))).take
      (8*buffer+m) = (ofBytes tmpspace).take (8*buffer) ++ (ofBytes bytes).take m := by
  have hfront : (ofBytes (tmpspace.take buffer)).length = 8*buffer := by
    rw [length_ofBytes,List.length_take,Nat.min_eq_left hb]
  rw [List.append_assoc,ofBytes_append,ofBytes_append,← hfront,List.take_length_add_append,
    List.take_append_of_le_length (by rw [length_ofBytes]; exact hm),ofBytes_take,← hfront]
  congr 1
  rw [ofBytes_take]
  simp

theorem take_at_buffer {tmpspace : List UInt8} {buffer m : Nat} {b : UInt8}
    (h : tmpspace[buffer]? = some b) (hm : m ≤ 8) :
    (ofBytes tmpspace).take (8*buffer+m) =
      (ofBytes tmpspace).take (8*buffer) ++ (ofNat 8 b.toNat).take m := by
  obtain ⟨hlt,hget⟩ := List.getElem?_eq_some_iff.mp h
  have hdrop : tmpspace.drop buffer = b :: tmpspace.drop (buffer+1) := by
    rw [List.drop_eq_getElem_cons hlt,hget]
  rw [List.take_add,← ofBytes_drop,hdrop,ofBytes,
    List.take_append_of_le_length (by rw [length_ofNat]; exact hm)]

theorem first_eq (po : BitOutp) (h : po.buffer < tmpspaceSize) :
    ∃ b, po.tmpspace[po.buffer]? = some b ∧ po.first = .ok b.toNat := by
  have hlt : po.buffer < po.tmpspace.length := by rw [po.sized]; exact h
  refine ⟨po.tmpspace[po.buffer],List.getElem?_eq_getElem hlt,?_⟩
  exact byteAt_eq (List.getElem?_eq_getElem hlt)

theorem assign_ok (po : BitOutp) (bytes : List UInt8)
    (h : po.buffer+bytes.length ≤ tmpspaceSize) :
    ∃ po', po.assign bytes = .ok po' ∧ po'.buffer = po.buffer ∧ po'.nboff = po.nboff ∧
      po'.nbits = po.nbits ∧ po'.flushed = po.flushed ∧ po'.output = po.output ∧
      ∀ m ≤ 8*bytes.length, (ofBytes po'.tmpspace).take (8*po.buffer+m) =
        (ofBytes po.tmpspace).take (8*po.buffer) ++ (ofBytes bytes).take m := by
  refine ⟨_,dif_pos h,rfl,rfl,rfl,rfl,rfl,?_⟩
  intro m hm
  exact take_assigned po.tmpspace bytes (by rw [po.sized]; omega) hm

theorem rewind_ok {po : BitOutp} (hoff : po.nboff < 8)
    (h : po.nboff ≠ 0 → po.buffer < tmpspaceSize) :
    ∃ po', po.rewind = .ok po' ∧ po'.buffer = 0 ∧ po'.nboff = po.nboff ∧
      po'.output = po.output ∧ (ofBytes po.tmpspace).take (8*po.buffer+po.nboff) =
        (ofBytes po.tmpspace).take (8*po.buffer) ++ (ofBytes po'.tmpspace).take po.nboff := by
  unfold rewind
  by_cases hzero : po.nboff = 0
  · refine ⟨{ po with buffer := 0 },if_neg (by simp [hzero]),rfl,rfl,rfl,?_⟩
    simp [hzero]
  · obtain ⟨b,hb,hfirst⟩ := first_eq po (h hzero)
    obtain ⟨po',hassign,hbuffer,hnboff,_,_,houtput,htake⟩ :=
      assign_ok { po with buffer := 0 } [UInt8.ofNat b.toNat]
        (Nat.le_of_ble_eq_true rfl)
    refine ⟨po',?_,hbuffer,hnboff,houtput,?_⟩
    · rw [if_pos hzero,hfirst,ok_bind,hassign]
    · have hone := htake po.nboff (by simp only [List.length_singleton]; omega)
      simp only [Nat.mul_zero,Nat.zero_add,List.take_zero,List.nil_append] at hone
      rw [take_at_buffer hb (by omega),hone,ofBytes,ofNat_uint8,ofBytes,List.append_nil]

theorem Valid.flush {po : BitOutp} (h : po.Valid) (hoff : po.nboff < 8) :
    ∃ result po', po.flush = .ok (result,po') ∧ po'.Valid ∧ po'.output = po.output ∧
      po'.written = po.written ∧
      ((∀ all, po.output all = true) → result = some ()) ∧
      (result = some () → po'.nboff = po.nboff ∧ po'.nbits = 8*tmpspaceSize) := by
  have hs := h.space
  have hp := h.position
  unfold BitOutp.flush
  cases hout : po.output (po.flushed ++ po.tmpspace.take po.buffer) with
  | false =>
    refine ⟨none,po,if_neg (by simp),h,rfl,rfl,?_,by simp⟩
    intro hall
    rw [hall] at hout
    cases hout
  | true =>
    obtain ⟨po',hrewind,hbuffer,hnboff,houtput,htake⟩ := rewind_ok hoff (by intro _; omega)
    refine ⟨some (),{ po' with
      nbits := 8*tmpspaceSize
      flushed := po.flushed ++ po.tmpspace.take po.buffer },?_,?_,houtput,?_,fun _ => rfl,
      fun _ => ⟨hnboff,rfl⟩⟩
    · rw [if_pos rfl,hrewind,ok_bind]
      rfl
    · refine ⟨by simp [hbuffer],?_⟩
      change po'.nboff ≤ 8*tmpspaceSize
      rw [hnboff]
      omega
    · simp only [written,hbuffer,hnboff,Nat.mul_zero,Nat.zero_add]
      rw [ofBytes_append,ofBytes_take,htake,List.append_assoc]

end BitOutp

theorem and_high {b mask z : Nat} (hb : b < 256)
    (hmask : ∀ i < 8, mask.testBit i = decide (z ≤ i)) : b &&& mask = b/2^z*2^z := by
  apply Nat.eq_of_testBit_eq
  intro i
  rw [Nat.testBit_and,Nat.testBit_mul_two_pow,Nat.testBit_div_two_pow]
  by_cases hi : i < 8
  · rw [hmask i hi]
    by_cases hz : z ≤ i
    · simp [hz]
    · simp [hz]
  · have hzero : b.testBit i = false := by
      apply Nat.testBit_lt_two_pow
      calc b < 2^8 := hb
        _ ≤ 2^i := Nat.pow_le_pow_right (by decide) (by omega)
    by_cases hz : z ≤ i
    · simp [hzero,hz]
    · simp [hzero,hz]

theorem and_omsk {b nboff : Nat} (hb : b < 256) (hoff : nboff < 8) :
    b &&& omsk nboff = b/2^(8-nboff)*2^(8-nboff) := by
  apply and_high hb
  intro i hi
  have hmask : omsk nboff = 2^8-(2^(8-nboff)-1+1) := by
    have hpos : 0 < 2^(8-nboff) := Nat.two_pow_pos _
    rw [omsk,Nat.one_shiftLeft,Nat.sub_add_cancel hpos]
    rfl
  have hlt : 2^(8-nboff)-1 < 2^8 := by
    have hle : 2^(8-nboff) ≤ 2^8 := Nat.pow_le_pow_right (by decide) (by omega)
    omega
  rw [hmask,Nat.testBit_two_pow_sub_succ hlt,Nat.testBit_two_pow_sub_one,decide_eq_true hi,
    Bool.true_and,← decide_not]
  congr 1
  rw [Nat.not_lt]

theorem and_ones_shifted {b z : Nat} (hb : b < 256) : b &&& 0xff <<< z = b/2^z*2^z := by
  apply and_high hb
  intro i hi
  rw [Nat.testBit_shiftLeft,show 0xff = 2^8-1 from rfl,Nat.testBit_two_pow_sub_one]
  simp [show i-z < 8 by omega]

theorem take_byte (b : Nat) {n : Nat} (hn : n ≤ 8) : (ofNat 8 b).take n = ofNat n (b/2^(8-n)) := by
  have hsplit := ofNat_add n (8-n) b
  rw [Nat.add_sub_cancel' hn] at hsplit
  rw [hsplit,List.take_left' (length_ofNat _ _)]

def wordBytes : Nat → Nat → List UInt8
  | 0, _ => []
  | k+1, word => UInt8.ofNat (word >>> (8*k)) :: wordBytes k word

theorem ofBytes_wordBytes (k word : Nat) : ofBytes (wordBytes k word) = ofNat (8*k) word := by
  induction k with
  | zero => rfl
  | succ k ih =>
    rw [wordBytes,ofBytes,ofNat_uint8,ih,Nat.shiftRight_eq_div_pow,Nat.mul_succ,Nat.add_comm,
      ofNat_add]

@[simp] theorem length_wordBytes (k word : Nat) : (wordBytes k word).length = k := by
  induction k with
  | zero => rfl
  | succ k ih => simp [wordBytes,ih]

theorem ofBytes_assigned {b nboff bits obits k : Nat} (hb : b < 256) (hoff : nboff < 8)
    (hbits : bits < 2^obits) (hk : nboff+obits ≤ 8*(k+1)) :
    ofBytes (UInt8.ofNat (b &&& omsk nboff ||| bits <<< (8*(k+1)-(nboff+obits)) >>> (8*k)) ::
        wordBytes k (bits <<< (8*(k+1)-(nboff+obits)))) =
      (ofNat 8 b).take nboff ++ ofNat obits bits ++
        List.replicate (8*(k+1)-(nboff+obits)) false := by
  have hkept := take_byte b (n := nboff) (by omega)
  generalize hz : 8*(k+1)-(nboff+obits) = z
  have hword : bits*2^z/2^(8*k) < 2^(8-nboff) := by
    apply Nat.div_lt_of_lt_mul
    rw [← Nat.pow_add]
    calc bits*2^z < 2^obits*2^z := Nat.mul_lt_mul_of_pos_right hbits (Nat.two_pow_pos z)
      _ = 2^(8*k+(8-nboff)) := by rw [← Nat.pow_add]; congr 1; omega
  have hbyte : ofNat 8 (b/2^(8-nboff)*2^(8-nboff)+bits*2^z/2^(8*k)) =
      ofNat nboff (b/2^(8-nboff)) ++ ofNat (8-nboff) (bits*2^z/2^(8*k)) := by
    have hsplit := ofNat_add nboff (8-nboff) (b/2^(8-nboff)*2^(8-nboff)+bits*2^z/2^(8*k))
    rw [Nat.add_sub_cancel' (by omega)] at hsplit
    rw [hsplit,Nat.add_comm,Nat.add_mul_div_right _ _ (Nat.two_pow_pos _),
      Nat.div_eq_of_lt hword,Nat.zero_add,← ofNat_mod (8-nboff) (_+_),
      Nat.add_mul_mod_self_right,ofNat_mod]
  have hnew : ofNat (8-nboff) (bits*2^z/2^(8*k)) ++ ofNat (8*k) (bits*2^z) =
      ofNat obits bits ++ List.replicate z false := by
    rw [← ofNat_add,← ofNat_mul_pow]
    congr 1
    omega
  rw [ofBytes,ofNat_uint8,ofBytes_wordBytes,Nat.shiftLeft_eq,Nat.shiftRight_eq_div_pow,
    and_omsk hb hoff,← Nat.shiftLeft_eq,← Nat.shiftLeft_add_eq_or_of_lt hword,Nat.shiftLeft_eq,
    hbyte,hkept,List.append_assoc,hnew,List.append_assoc]

theorem assign_word {po : BitOutp} (h : po.Valid) (hoff : po.nboff < 8) {bits obits : Nat}
    (hbits : bits < 2^obits) {b : UInt8} (hb : po.tmpspace[po.buffer]? = some b) (k : Nat)
    (hk : po.nboff+obits ≤ 8*(k+1)) (hk' : 8*k < po.nboff+obits)
    (hspace : po.nboff+obits ≤ po.nbits) :
    ∃ po', ({ po with nboff := po.nboff+obits } : BitOutp).assign
        (UInt8.ofNat (b.toNat &&& omsk po.nboff |||
          bits <<< (8*(k+1)-(po.nboff+obits)) >>> (8*k)) ::
        wordBytes k (bits <<< (8*(k+1)-(po.nboff+obits)))) = .ok po' ∧ po'.Valid ∧
      po'.output = po.output ∧ po'.written = po.written ++ ofNat obits bits := by
  have hs := h.space
  obtain ⟨po',hassign,hbuffer,hnboff,hnbits,hflushed,houtput,htake⟩ :=
    BitOutp.assign_ok { po with nboff := po.nboff+obits }
      (UInt8.ofNat (b.toNat &&& omsk po.nboff |||
          bits <<< (8*(k+1)-(po.nboff+obits)) >>> (8*k)) ::
        wordBytes k (bits <<< (8*(k+1)-(po.nboff+obits))))
      (by simp only [List.length_cons,length_wordBytes]; omega)
  simp only at hbuffer hnboff hnbits hflushed houtput htake
  refine ⟨po',hassign,⟨by rw [hbuffer,hnbits]; exact hs,by rw [hnboff,hnbits]; exact hspace⟩,
    houtput,?_⟩
  have hbits' := htake (po.nboff+obits) (by simp only [List.length_cons,length_wordBytes]; omega)
  have hnew : (ofNat 8 b.toNat).take po.nboff ++ ofNat obits bits =
      (ofBytes (UInt8.ofNat (b.toNat &&& omsk po.nboff |||
          bits <<< (8*(k+1)-(po.nboff+obits)) >>> (8*k)) ::
        wordBytes k (bits <<< (8*(k+1)-(po.nboff+obits))))).take (po.nboff+obits) := by
    rw [ofBytes_assigned b.toNat_lt hoff hbits hk]
    exact (List.take_left' (by
      rw [List.length_append,List.length_take,length_ofNat,length_ofNat]; omega)).symm
  rw [BitOutp.written,BitOutp.written,hflushed,hbuffer,hnboff,hbits',← hnew,
    BitOutp.take_at_buffer hb (by omega)]
  simp only [List.append_assoc]

theorem assignBits_ok {po : BitOutp} (h : po.Valid) (hoff : po.nboff < 8) {bits obits : Nat}
    (hbits : bits < 2^obits) (hpos : 0 < obits) (hlen : po.nboff+obits ≤ 31)
    (hspace : po.nboff+obits ≤ po.nbits) :
    ∃ po', assignBits po bits obits = .ok po' ∧ po'.Valid ∧ po'.output = po.output ∧
      po'.written = po.written ++ ofNat obits bits := by
  have hs := h.space
  obtain ⟨b,hb,hfirst⟩ := BitOutp.first_eq po (by omega)
  have hword := assign_word h hoff hbits hb
  unfold assignBits
  rw [hfirst,ok_bind]
  by_cases h8 : po.nboff+obits ≤ 8
  · simp only [if_pos h8]
    exact hword 0 (by omega) (by omega) hspace
  · by_cases h16 : po.nboff+obits ≤ 16
    · simp only [if_neg h8,if_pos h16]
      exact hword 1 (by omega) (by omega) hspace
    · by_cases h24 : po.nboff+obits ≤ 24
      · simp only [if_neg h8,if_neg h16,if_pos h24]
        exact hword 2 (by omega) (by omega) hspace
      · simp only [if_neg h8,if_neg h16,if_neg h24]
        exact hword 3 (by omega) (by omega) hspace

namespace Put
variable {α β : Type}

/-- What a function that writes may leave behind: the position is valid again, and if the
result is not `-1` it is `a` and the bits have been written; it is `a` if the callback
takes all it is given. -/
def Wrote (po : BitOutp) (bits : List Bool) (a : α)
    (outcome : Except Fault (Option α × BitOutp)) : Prop :=
  ∃ result po', outcome = .ok (result,po') ∧ po'.Valid ∧ po'.output = po.output ∧
    (∀ r, result = some r → r = a ∧ po'.written = po.written ++ bits) ∧
    ((∀ all, po.output all = true) → result = some a)

/-- The function writes the bits and returns `a`, and stays inside the buffer. -/
def Emits (m : Put α) (bits : List Bool) (a : α) : Prop :=
  ∀ po, po.Valid → Wrote po bits a (m po)

theorem bind_some {m : Put α} {f : α → Put β} {po po' : BitOutp} {a : α}
    (h : m po = .ok (some a,po')) : (m >>= f) po = f a po' := by
  simp only [Bind.bind,h]

theorem bind_none {m : Put α} {f : α → Put β} {po po' : BitOutp}
    (h : m po = .ok (none,po')) : (m >>= f) po = .ok (none,po') := by
  simp only [Bind.bind,h]

theorem Emits.pure (a : α) : Emits (Pure.pure a) [] a := by
  intro po hv
  refine ⟨some a,po,rfl,hv,rfl,?_,fun _ => rfl⟩
  intro r hr
  exact ⟨(Option.some.inj hr).symm,(List.append_nil _).symm⟩

theorem Emits.check {x : Except Fault (Option α)} {a : α} (h : x = .ok (some a)) :
    Emits (Put.check x) [] a := by
  intro po hv
  rw [Put.check,h]
  exact Emits.pure a po hv

theorem Emits.bind {m : Put α} {f : α → Put β} {bits bits' : List Bool} {a : α} {b : β}
    (h : Emits m bits a) (h' : Emits (f a) bits' b) : Emits (m >>= f) (bits ++ bits') b := by
  intro po hv
  obtain ⟨result,po₁,hrun,hv₁,hout₁,hwritten,hall⟩ := h po hv
  cases result with
  | none =>
    refine ⟨none,po₁,bind_none hrun,hv₁,hout₁,?_,?_⟩
    · intro r hr
      cases hr
    · intro hall'
      cases hall hall'
  | some r =>
    obtain ⟨hra,hw⟩ := hwritten r rfl
    subst hra
    obtain ⟨result,po₂,hrun₂,hv₂,hout₂,hwritten₂,hall₂⟩ := h' po₁ hv₁
    refine ⟨result,po₂,(bind_some hrun).trans hrun₂,hv₂,hout₂.trans hout₁,?_,?_⟩
    · intro r hr
      obtain ⟨hrb,hw₂⟩ := hwritten₂ r hr
      exact ⟨hrb,by rw [hw₂,hw,List.append_assoc]⟩
    · intro hall'
      exact hall₂ (by rw [hout₁]; exact hall')

theorem Emits.bind_last {m : Put α} {f : α → Put β} {bits : List Bool} {a : α} {b : β}
    (h : Emits m bits a) (h' : Emits (f a) [] b) : Emits (m >>= f) bits b := by
  have hall := h.bind h'
  rw [List.append_nil] at hall
  exact hall

theorem Emits.run {m : Put α} {bits : List Bool} {a : α} (h : Emits m bits a)
    (tmpspace : List UInt8) (sized : tmpspace.length = tmpspaceSize) :
    ∃ po', m (BitOutp.create tmpspace sized (fun _ => true)) = .ok (some a,po') ∧ po'.Valid ∧
      po'.output = (fun _ => true) ∧ po'.written = bits := by
  obtain ⟨result,po',hrun,hv,hout,hwritten,hall⟩ := h _ (BitOutp.create_valid tmpspace sized _)
  have hresult := hall (fun _ => rfl)
  subst hresult
  refine ⟨po',hrun,hv,hout,?_⟩
  rw [(hwritten a rfl).2,BitOutp.create_written,List.nil_append]

theorem Emits.unique {m : Put α} {bits bits' : List Bool} {a b : α} (h : Emits m bits a)
    (h' : Emits m bits' b) : bits = bits' := by
  obtain ⟨po,hrun,_,_,hw⟩ := h.run (List.replicate tmpspaceSize 0) List.length_replicate
  obtain ⟨po',hrun',_,_,hw'⟩ := h'.run (List.replicate tmpspaceSize 0) List.length_replicate
  rw [hrun] at hrun'
  cases hrun'
  rw [← hw,← hw']

theorem not_emits_fail {bits : List Bool} {a : α} : ¬ Emits (Put.fail : Put α) bits a := by
  intro h
  obtain ⟨po,hrun,_⟩ := h.run (List.replicate tmpspaceSize 0) List.length_replicate
  cases hrun

end Put

def RoundTrips {α : Type} (put : Put Unit) (get : Get α) (a : α) : Prop :=
  ∃ bits, Put.Emits put bits () ∧ Get.Accepts get bits a

theorem putFewBits_emits {depth bits obits : Nat} (hpos : 0 < obits) (hobits : obits ≤ 31)
    (hbody : ∀ po : BitOutp, po.Valid → po.nboff < 8 → po.nboff+obits ≤ po.nbits →
      Put.Wrote po (ofNat obits bits) () (if po.nboff+obits ≤ 31 then do
          let po ← assignBits po (bits &&& (1 <<< obits-1)) obits
          pure (some (),po)
        else (do
          putFewBits depth ((bits &&& (1 <<< obits-1)) >>> (obits-24)) 24
          putFewBits depth (bits &&& (1 <<< obits-1)) (obits-24) : Put Unit) po)) :
    Put.Emits (putFewBits (depth+1) bits obits) (ofNat obits bits) () := by
  intro po hv
  obtain ⟨hnv,hwritten,hoff,hout⟩ := hv.normalize
  unfold putFewBits
  rw [if_neg (by omega),if_neg (by omega)]
  by_cases hflush : po.normalize.nbits < po.normalize.nboff+obits
  · obtain ⟨result,po₁,hrun,hv₁,hout₁,hwritten₁,hall,hkept⟩ := hnv.flush hoff
    simp only [if_pos hflush,hrun,ok_bind]
    cases result with
    | none =>
      refine ⟨none,po₁,rfl,hv₁,hout₁.trans hout,?_,?_⟩
      · intro r hr
        cases hr
      · intro hall'
        exact hall (by rw [hout]; exact hall')
    | some u =>
      obtain ⟨hnboff,hnbits⟩ := hkept rfl
      have htmp : tmpspaceSize = 32 := rfl
      obtain ⟨result,po₂,hrun₂,hv₂,hout₂,hw₂,hall₂⟩ := hbody po₁ hv₁ (by omega) (by omega)
      refine ⟨result,po₂,hrun₂,hv₂,hout₂.trans (hout₁.trans hout),?_,?_⟩
      · intro r hr
        exact ⟨rfl,by rw [(hw₂ r hr).2,hwritten₁,hwritten]⟩
      · intro hall'
        exact hall₂ (by rw [hout₁,hout]; exact hall')
  · obtain ⟨result,po₂,hrun₂,hv₂,hout₂,hw₂,hall₂⟩ :=
      hbody po.normalize hnv hoff (by omega)
    simp only [if_neg hflush]
    refine ⟨result,po₂,hrun₂,hv₂,hout₂.trans hout,?_,?_⟩
    · intro r hr
      exact ⟨rfl,by rw [(hw₂ r hr).2,hwritten]⟩
    · intro hall'
      exact hall₂ (by rw [hout]; exact hall')

theorem assignBits_body {po : BitOutp} (hv : po.Valid) (hoff : po.nboff < 8) {bits obits : Nat}
    (hpos : 0 < obits) (hlen : po.nboff+obits ≤ 31) (hspace : po.nboff+obits ≤ po.nbits) :
    Put.Wrote po (ofNat obits bits) () (do
        let po ← assignBits po (bits &&& (1 <<< obits-1)) obits
        pure (some (),po)) := by
  have hmask := masked_eq bits obits
  have hlt : bits &&& (1 <<< obits-1) < 2^obits := by
    rw [hmask]
    exact Nat.mod_lt _ (Nat.two_pow_pos _)
  obtain ⟨po',hassign,hv',hout',hw'⟩ := assignBits_ok hv hoff hlt hpos hlen hspace
  rw [hassign,ok_bind]
  refine ⟨some (),po',rfl,hv',hout',?_,fun _ => rfl⟩
  intro r _
  exact ⟨rfl,by rw [hw',hmask,ofNat_mod]⟩

theorem putFewBits_short {depth bits obits : Nat} (hobits : obits ≤ 24) :
    Put.Emits (putFewBits (depth+1) bits obits) (ofNat obits bits) () := by
  by_cases hzero : obits = 0
  · subst hzero
    exact Put.Emits.pure ()
  · apply putFewBits_emits (by omega) (by omega)
    intro po hv hoff hspace
    rw [if_pos (by omega)]
    exact assignBits_body hv hoff (by omega) (by omega) hspace

theorem asnPutFewBits_emits {bits obits : Nat} (hobits : obits ≤ 31) :
    Put.Emits (asnPutFewBits bits obits) (ofNat obits bits) () := by
  by_cases hshort : obits ≤ 24
  · exact putFewBits_short hshort
  · apply putFewBits_emits (by omega) hobits
    intro po hv hoff hspace
    by_cases hlen : po.nboff+obits ≤ 31
    · rw [if_pos hlen]
      exact assignBits_body hv hoff (by omega) hlen hspace
    · rw [if_neg hlen]
      have hsplit : ofNat obits bits =
          ofNat 24 ((bits &&& (1 <<< obits-1)) >>> (obits-24)) ++
            ofNat (obits-24) (bits &&& (1 <<< obits-1)) := by
        have hadd := ofNat_add 24 (obits-24) (bits % 2^obits)
        rw [Nat.add_sub_cancel' (by omega)] at hadd
        rw [masked_eq,Nat.shiftRight_eq_div_pow,← hadd,ofNat_mod]
      rw [hsplit]
      exact (putFewBits_short (by decide)).bind (putFewBits_short (by omega)) po hv

def lastWord (src : List UInt8) (nbits : Nat) : Except Fault Nat := do
  let value ← byteAt src 0
  let value ← if 8 < nbits then do
      let b1 ← byteAt src 1
      pure (value <<< 8 ||| b1)
    else pure value
  let value ← if 16 < nbits then do
      let b2 ← byteAt src 2
      pure (value <<< 8 ||| b2)
    else pure value
  pure (if nbits % 8 ≠ 0 then value >>> (8-nbits % 8) else value)

/-- The loop of `asn_put_many_bits`; `fuel` is the number of its rounds. -/
def putManyLoop : Nat → List UInt8 → Nat → Put Unit
  | 0, _, _ => fun _ => .error .unfinished
  | fuel+1, src, nbits => fun po =>
    if nbits = 0 then .ok (some (),po)
    else if 24 ≤ nbits then do
      let b0 ← byteAt src 0
      let b1 ← byteAt src 1
      let b2 ← byteAt src 2
      (do
        asnPutFewBits (b0 <<< 16 ||| b1 <<< 8 ||| b2) 24
        putManyLoop fuel (src.drop 3) (nbits-24) : Put Unit) po
    else do
      let value ← lastWord src nbits
      asnPutFewBits value nbits po

def asnPutManyBits (src : List UInt8) (nbits : Nat) : Put Unit := putManyLoop (nbits/24+1) src nbits

theorem shiftLeft_or_byte (v : Nat) (b : UInt8) : v <<< 8 ||| b.toNat = v*2^8+b.toNat := by
  rw [← Nat.shiftLeft_add_eq_or_of_lt b.toNat_lt,Nat.shiftLeft_eq]

theorem value_ofBytes_concat (bytes : List UInt8) (b : UInt8) :
    value (ofBytes (bytes ++ [b])) = value (ofBytes bytes)*2^8+b.toNat := by
  have hb : b.toNat % 2^8 = b.toNat := Nat.mod_eq_of_lt b.toNat_lt
  rw [ofBytes_append,value_append,ofBytes,ofBytes,List.append_nil,value_ofNat,length_ofNat,hb]

theorem value_ofBytes_one (b : UInt8) : value (ofBytes [b]) = b.toNat := by
  have h := value_ofBytes_concat [] b
  simpa [ofBytes,value] using h

theorem value_ofBytes_two (b0 b1 : UInt8) :
    value (ofBytes [b0,b1]) = b0.toNat <<< 8 ||| b1.toNat := by
  rw [shiftLeft_or_byte,← value_ofBytes_one b0]
  exact value_ofBytes_concat [b0] b1

theorem value_ofBytes_three (b0 b1 b2 : UInt8) :
    value (ofBytes [b0,b1,b2]) = (b0.toNat <<< 8 ||| b1.toNat) <<< 8 ||| b2.toNat := by
  rw [shiftLeft_or_byte,← value_ofBytes_two]
  exact value_ofBytes_concat [b0,b1] b2

theorem take_ofBytes (bytes : List UInt8) {n : Nat} (hn : n ≤ 8*bytes.length) :
    (ofBytes bytes).take n = ofNat n (value (ofBytes bytes)/2^(8*bytes.length-n)) := by
  have hword := ofNat_value (ofBytes bytes)
  have hsplit := ofNat_add n (8*bytes.length-n) (value (ofBytes bytes))
  rw [Nat.add_sub_cancel' hn] at hsplit
  rw [length_ofBytes,hsplit] at hword
  rw [← hword,List.take_left' (length_ofNat _ _)]
  rw [hword]

theorem lastWord_eq {src : List UInt8} {n : Nat} (hn : 0 < n) (h24 : n < 24)
    (hlen : n ≤ 8*src.length) :
    ∃ word, lastWord src n = .ok word ∧ (ofBytes src).take n = ofNat n word := by
  have hfront : ∀ k, n ≤ 8*k → k ≤ src.length → (ofBytes src).take n =
      ofNat n (value (ofBytes (src.take k))/2^(8*k-n)) := by
    intro k hk hsrc
    have htake := take_ofBytes (src.take k) (n := n) (by
      rw [List.length_take,Nat.min_eq_left hsrc]; exact hk)
    rw [List.length_take,Nat.min_eq_left hsrc] at htake
    rw [← htake,ofBytes_take,List.take_take,Nat.min_eq_left hk]
  have hshift : ∀ k v, 8*k < n+8 → n ≤ 8*k →
      (if n % 8 ≠ 0 then v >>> (8-n % 8) else v) = v/2^(8*k-n) := by
    intro k v hk hk'
    by_cases hmod : n % 8 = 0
    · rw [if_neg (by simp [hmod]),show 8*k-n = 0 by omega,Nat.pow_zero,Nat.div_one]
    · rw [if_pos hmod,Nat.shiftRight_eq_div_pow]
      congr 2
      omega
  unfold lastWord
  by_cases h8 : n ≤ 8
  · obtain ⟨b0,rest,hsrc⟩ : ∃ b0 rest, src = b0 :: rest :=
      List.exists_cons_of_length_pos (by omega)
    have hb0 : byteAt src 0 = .ok b0.toNat := byteAt_eq (by simp [hsrc])
    refine ⟨b0.toNat/2^(8*1-n),?_,?_⟩
    · simp only [hb0,if_neg (show ¬ 8 < n by omega),if_neg (show ¬ 16 < n by omega),ok_bind,
        pure_bind]
      rw [hshift 1 b0.toNat (by omega) (by omega)]
      rfl
    · rw [hfront 1 (by omega) (by omega),hsrc,← value_ofBytes_one b0]
      rfl
  · by_cases h16 : n ≤ 16
    · obtain ⟨b0,b1,rest,hsrc⟩ := exists_two (l := src) (by omega)
      have hb0 : byteAt src 0 = .ok b0.toNat := byteAt_eq (by simp [hsrc])
      have hb1 : byteAt src 1 = .ok b1.toNat := byteAt_eq (by simp [hsrc])
      refine ⟨(b0.toNat <<< 8 ||| b1.toNat)/2^(8*2-n),?_,?_⟩
      · simp only [hb0,hb1,if_pos (show 8 < n by omega),if_neg (show ¬ 16 < n by omega),ok_bind,
          pure_bind]
        rw [hshift 2 _ (by omega) (by omega)]
        rfl
      · rw [hfront 2 (by omega) (by omega),hsrc,← value_ofBytes_two]
        rfl
    · obtain ⟨b0,b1,b2,rest,hsrc⟩ := exists_three (l := src) (by omega)
      have hb0 : byteAt src 0 = .ok b0.toNat := byteAt_eq (by simp [hsrc])
      have hb1 : byteAt src 1 = .ok b1.toNat := byteAt_eq (by simp [hsrc])
      have hb2 : byteAt src 2 = .ok b2.toNat := byteAt_eq (by simp [hsrc])
      refine ⟨((b0.toNat <<< 8 ||| b1.toNat) <<< 8 ||| b2.toNat)/2^(8*3-n),?_,?_⟩
      · simp only [hb0,hb1,hb2,if_pos (show 8 < n by omega),if_pos (show 16 < n by omega),ok_bind,
          pure_bind]
        rw [hshift 3 _ (by omega) (by omega)]
        rfl
      · rw [hfront 3 (by omega) (by omega),hsrc,← value_ofBytes_three]
        rfl

theorem putManyLoop_emits {fuel : Nat} {src : List UInt8} {n : Nat} (hfuel : n/24 < fuel)
    (hlen : n ≤ 8*src.length) : Put.Emits (putManyLoop fuel src n) ((ofBytes src).take n) () := by
  induction fuel generalizing src n with
  | zero => omega
  | succ fuel ih =>
    intro po hv
    unfold putManyLoop
    by_cases hzero : n = 0
    · subst hzero
      exact Put.Emits.pure () po hv
    · by_cases h24 : 24 ≤ n
      · obtain ⟨b0,b1,b2,rest,hsrc⟩ := exists_three (l := src) (by omega)
        have hword : b0.toNat <<< 16 ||| b1.toNat <<< 8 ||| b2.toNat =
            value (ofBytes [b0,b1,b2]) := by
          rw [value_ofBytes_three,Nat.shiftLeft_or_distrib,← Nat.shiftLeft_add]
        have hbits : (ofBytes src).take n = ofNat 24 (value (ofBytes [b0,b1,b2])) ++
            (ofBytes rest).take (n-24) := by
          have hthree := ofNat_value (ofBytes [b0,b1,b2])
          rw [length_ofBytes] at hthree
          change ofNat 24 _ = _ at hthree
          have hfront : src = [b0,b1,b2] ++ rest := hsrc
          have hlong : (ofBytes [b0,b1,b2]).length = 24 := by rw [length_ofBytes]; rfl
          rw [hthree,hfront,ofBytes_append,List.take_append,hlong,
            List.take_of_length_le (by omega)]
        have hb0 : byteAt src 0 = .ok b0.toNat := byteAt_eq (by simp [hsrc])
        have hb1 : byteAt src 1 = .ok b1.toNat := byteAt_eq (by simp [hsrc])
        have hb2 : byteAt src 2 = .ok b2.toNat := byteAt_eq (by simp [hsrc])
        simp only [if_neg hzero,if_pos h24,hb0,hb1,hb2,ok_bind]
        rw [hword,hbits]
        have hdrop : src.drop 3 = rest := by rw [hsrc]; rfl
        rw [hdrop]
        refine (asnPutFewBits_emits (by decide)).bind (ih (by omega) ?_) po hv
        rw [hsrc] at hlen
        simp only [List.length_cons] at hlen
        omega
      · obtain ⟨word,hlast,hbits⟩ := @lastWord_eq src n (by omega) (by omega) hlen
        rw [if_neg hzero,if_neg h24,hlast,ok_bind,hbits]
        exact asnPutFewBits_emits (by omega) po hv

theorem asnPutManyBits_emits {src : List UInt8} {n : Nat} (hlen : n ≤ 8*src.length) :
    Put.Emits (asnPutManyBits src n) ((ofBytes src).take n) () :=
  putManyLoop_emits (Nat.lt_succ_self _) hlen

/-- Wherever the two streams stand, up to 31 bits are read as they were written exactly if the
number fits into them. -/
theorem fewBits_roundTrips_iff {obits : Nat} (hobits : obits ≤ 31) (bits : Nat) :
    RoundTrips (asnPutFewBits bits obits) (getBits obits) bits ↔ bits < 2^obits := by
  constructor
  · rintro ⟨code,hemits,haccepts⟩
    have hlt : bits % 2^obits < 2^obits := Nat.mod_lt _ (Nat.two_pow_pos _)
    have hread := getBits_accepts hobits hlt
    rw [hemits.unique (asnPutFewBits_emits hobits),← List.append_nil (ofNat obits bits)] at haccepts
    rw [ofNat_mod] at hread
    rw [← hread.unique haccepts]
    exact hlt
  · intro hlt
    exact ⟨_,asnPutFewBits_emits hobits,getBits_accepts hobits hlt⟩

theorem fewBits_roundTrips_iff_five :
    RoundTrips (asnPutFewBits 31 5) (getBits 5) 31 ↔ 31 < 2^5 :=
  fewBits_roundTrips_iff (by decide) 31

/-- Bits of a buffer are copied from one stream to another, wherever the two stand. What is
left of the last byte is zero. -/
theorem manyBits_roundTrips {src : List UInt8} {n : Nat} (h : n ≤ 8*src.length) :
    RoundTrips (asnPutManyBits src n) (asnGetManyBits false n)
      (toBytes ((n+7)/8) ((ofBytes src).take n)) := by
  have hlen : ((ofBytes src).take n).length = n := by
    rw [List.length_take,length_ofBytes]
    omega
  have hread := (asnGetManyBits_parses ((ofBytes src).take n).length).accepts
    (Parser.accepts_toBytes ((ofBytes src).take n))
  rw [hlen] at hread
  exact ⟨_,asnPutManyBits_emits h,hread⟩

theorem manyBits_roundTrips_twelve :
    RoundTrips (asnPutManyBits [0xAB,0xCD] 12) (asnGetManyBits false 12)
      (toBytes 2 ((ofBytes [0xAB,0xCD]).take 12)) :=
  manyBits_roundTrips (by decide)

end Mitvane.Per

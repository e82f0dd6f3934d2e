import Mitvane.BitString
import Mitvane.PartialRun

/-! The position in an incoming stream of bits, with every access to the memory behind
its pointer. Reading is shown to go along the string of bits that is left. -/
set_option autoImplicit false

namespace Mitvane.Per
open PartialRun BitString

/-- What a run must not end with: an access beyond the memory that a pointer goes to, a
signed result that a `long` does not hold, a failed assertion, a loop that goes on. -/
inductive Fault where
  | outOfBounds
  | overflow
  | assertion
  | unfinished
  deriving DecidableEq, Repr

def byteAt (memory : List UInt8) (i : Nat) : Except Fault Nat :=
  match memory[i]? with
  | some b => .ok b.toNat
  | none => .error .outOfBounds

/-- `asn_bit_data_t`. The buffer is what lies between the pointer and the end of the
memory; `refill` is null, no function of the library sets it. -/
structure BitData where
  buffer : List UInt8
  nboff : Nat
  nbits : Nat
  moved : Nat
  deriving DecidableEq, Repr

namespace BitData

def normalize (pd : BitData) : BitData :=
  if 8 ≤ pd.nboff then { pd with
    buffer := pd.buffer.drop (pd.nboff >>> 3)
    nbits := pd.nbits-pd.nboff/8*8
    nboff := pd.nboff % 8 }
  else pd

end BitData

def asnGetUndo (pd : BitData) (nbits : Nat) : BitData :=
  if pd.nboff < nbits then pd
  else { pd with nboff := pd.nboff-nbits, moved := pd.moved-nbits }

def asWord (result : Option Nat) : Nat := result.getD (2^32-1)

def BitData.advance (pd : BitData) (n : Nat) : BitData :=
  { pd.normalize with moved := pd.normalize.moved+n, nboff := pd.normalize.nboff+n }

/-- Extract specified number of bits, where they end in the first 31 bits. -/
def extractWord (pd : BitData) (nbits : Nat) : Except Fault Nat :=
  let off := pd.nboff
  if off ≤ 8 then
    if nbits = 0 then .ok 0
    else do
      let b0 ← byteAt pd.buffer 0
      pure (b0 >>> (8-off))
  else if off ≤ 16 then do
    let b0 ← byteAt pd.buffer 0
    let b1 ← byteAt pd.buffer 1
    pure ((b0 <<< 8+b1) >>> (16-off))
  else if off ≤ 24 then do
    let b0 ← byteAt pd.buffer 0
    let b1 ← byteAt pd.buffer 1
    let b2 ← byteAt pd.buffer 2
    pure ((b0 <<< 16+b1 <<< 8+b2) >>> (24-off))
  else do
    let b0 ← byteAt pd.buffer 0
    let b1 ← byteAt pd.buffer 1
    let b2 ← byteAt pd.buffer 2
    let b3 ← byteAt pd.buffer 3
    pure ((b0 <<< 24+b1 <<< 16+b2 <<< 8+b3) >>> (32-off))

/-- `asn_get_few_bits`, with `none` for the result `-1`. The function calls itself where
the bits lie in five bytes, `depth` bounds how often. -/
def getFewBits : Nat → BitData → Nat → Except Fault (Option Nat × BitData)
  | 0, _, _ => .error .unfinished
  | depth+1, pd, nbits =>
    if pd.nbits-pd.nboff < nbits then .ok (none,pd)
    else
      let pd := pd.advance nbits
      if pd.nboff ≤ 31 then do
        let accum ← extractWord pd nbits
        pure (some (accum &&& (1 <<< nbits-1)),pd)
      else if nbits ≤ 31 then do
        let (head,tpd) ← getFewBits depth (asnGetUndo pd nbits) (nbits-24)
        let (tail,_) ← getFewBits depth tpd 24
        pure (some ((asWord head <<< 24 % 2^32 ||| asWord tail) &&& (1 <<< nbits-1)),pd)
      else .ok (none,asnGetUndo pd nbits)

/-- A negative number of bits, which the source also answers with `-1`, is not a value
here. -/
def asnGetFewBits (pd : BitData) (nbits : Nat) : Except Fault (Option Nat × BitData) :=
  getFewBits 2 pd nbits

namespace BitData

structure Valid (pd : BitData) : Prop where
  position : pd.nboff ≤ pd.nbits
  memory : pd.nbits ≤ 8*pd.buffer.length

def rest (pd : BitData) : List Bool := ((ofBytes pd.buffer).take pd.nbits).drop pd.nboff

theorem Valid.length_rest {pd : BitData} (h : pd.Valid) :
    pd.rest.length = pd.nbits-pd.nboff := by
  have hm := h.memory
  rw [rest,List.length_drop,List.length_take,length_ofBytes]
  omega

theorem Valid.normalize {pd : BitData} (h : pd.Valid) :
    pd.normalize.Valid ∧ pd.normalize.rest = pd.rest ∧ pd.normalize.nboff < 8 ∧
      pd.normalize.nbits-pd.normalize.nboff = pd.nbits-pd.nboff ∧
      pd.normalize.moved = pd.moved := by
  have hp := h.position
  have hm := h.memory
  unfold BitData.normalize
  split
  · have hshift : pd.nboff >>> 3 = pd.nboff/8 := Nat.shiftRight_eq_div_pow _ 3
    refine ⟨⟨?_,?_⟩,?_,?_,?_,rfl⟩
    · change pd.nboff % 8 ≤ pd.nbits-pd.nboff/8*8
      omega
    · change pd.nbits-pd.nboff/8*8 ≤ 8*(pd.buffer.drop (pd.nboff >>> 3)).length
      rw [List.length_drop,hshift]
      omega
    · simp only [rest]
      rw [hshift,ofBytes_drop,List.take_drop,List.drop_drop]
      congr 2
      · omega
      · omega
    · change pd.nboff % 8 < 8
      omega
    · change pd.nbits-pd.nboff/8*8-pd.nboff % 8 = pd.nbits-pd.nboff
      omega
  · exact ⟨h,rfl,by omega,rfl,rfl⟩

theorem Valid.advance {pd : BitData} (h : pd.Valid) {n : Nat} (hn : n ≤ pd.rest.length) :
    (pd.advance n).Valid ∧ (pd.advance n).rest = pd.rest.drop n ∧
      (pd.advance n).moved = pd.moved+n := by
  obtain ⟨hv,hrest,_,hleft,hmoved⟩ := h.normalize
  have hlen := hv.length_rest
  rw [hrest] at hlen
  refine ⟨⟨?_,hv.memory⟩,?_,?_⟩
  · change pd.normalize.nboff+n ≤ pd.normalize.nbits
    have hp := hv.position
    omega
  · rw [← hrest]
    simp only [rest,BitData.advance]
    rw [List.drop_drop]
  · simp only [BitData.advance,hmoved]

structure Follows (pd pd' : BitData) : Prop where
  moved : pd'.moved+pd'.rest.length = pd.moved+pd.rest.length
  memory : 8*pd'.buffer.length+pd.nbits = 8*pd.buffer.length+pd'.nbits
  forward : pd'.rest.length ≤ pd.rest.length
  pointer : pd'.buffer.length ≤ pd.buffer.length

theorem Follows.refl (pd : BitData) : pd.Follows pd := ⟨rfl,rfl,Nat.le_refl _,Nat.le_refl _⟩

theorem Follows.trans {pd pd₁ pd₂ : BitData} (h : pd.Follows pd₁) (h' : pd₁.Follows pd₂) :
    pd.Follows pd₂ := by
  refine ⟨h'.moved.trans h.moved,?_,Nat.le_trans h'.forward h.forward,
    Nat.le_trans h'.pointer h.pointer⟩
  have hm := h.memory
  have hm' := h'.memory
  omega

theorem Valid.follows_normalize {pd : BitData} (h : pd.Valid) : pd.Follows pd.normalize := by
  obtain ⟨_,hrest,_,_,hmoved⟩ := h.normalize
  have hp := h.position
  have hm := h.memory
  have hbytes : 8*pd.normalize.buffer.length+pd.nbits = 8*pd.buffer.length+pd.normalize.nbits ∧
      pd.normalize.buffer.length ≤ pd.buffer.length := by
    unfold BitData.normalize
    split
    · have hshift : pd.nboff >>> 3 = pd.nboff/8 := Nat.shiftRight_eq_div_pow _ 3
      simp only [List.length_drop,hshift]
      omega
    · exact ⟨rfl,Nat.le_refl _⟩
  exact ⟨by rw [hrest,hmoved],hbytes.1,by rw [hrest],hbytes.2⟩

theorem Valid.follows_advance {pd : BitData} (h : pd.Valid) {n : Nat} (hn : n ≤ pd.rest.length) :
    pd.Follows (pd.advance n) := by
  obtain ⟨_,hrest,hmoved⟩ := h.advance hn
  refine ⟨?_,h.follows_normalize.memory,?_,h.follows_normalize.pointer⟩
  · rw [hrest,hmoved,List.length_drop]
    omega
  · rw [hrest,List.length_drop]
    omega

theorem Valid.value_take_rest {pd : BitData} {n : Nat} (k : Nat) (h : pd.nboff+n ≤ pd.nbits)
    (hk : pd.nboff+n ≤ 8*k) (hlen : k ≤ pd.buffer.length) :
    value (pd.rest.take n) =
      value (ofBytes (pd.buffer.take k))/2^(8*k-(pd.nboff+n)) % 2^n := by
  have htake : pd.rest.take n = ((ofBytes (pd.buffer.take k)).drop pd.nboff).take n := by
    rw [rest,ofBytes_take,List.drop_take,List.drop_take,List.take_take,List.take_take]
    congr 1
    omega
  have hbytes : (ofBytes (pd.buffer.take k)).length = 8*k := by
    rw [length_ofBytes,List.length_take,Nat.min_eq_left hlen]
  rw [htake,value_slice (by omega),hbytes]

theorem value_ofBytes_cons (b : UInt8) (bytes : List UInt8) :
    value (ofBytes (b :: bytes)) = b.toNat <<< (8*bytes.length)+value (ofBytes bytes) := by
  have hb : b.toNat % 2^8 = b.toNat := Nat.mod_eq_of_lt b.toNat_lt
  rw [ofBytes,value_append,value_ofNat,hb,length_ofBytes,Nat.shiftLeft_eq]

end BitData

theorem masked_eq (accum n : Nat) : accum &&& (1 <<< n-1) = accum % 2^n := by
  rw [Nat.one_shiftLeft,Nat.and_two_pow_sub_one_eq_mod]

def readResult (pd : BitData) (n : Nat) : Except Fault (Option Nat × BitData) :=
  if n ≤ pd.rest.length then .ok (some (value (pd.rest.take n)),pd.advance n)
  else .ok (none,pd)

theorem exists_two {α : Type} {l : List α} (h : 2 ≤ l.length) : ∃ a b rest, l = a :: b :: rest := by
  obtain ⟨a,l,rfl⟩ := List.exists_cons_of_length_pos (l := l) (by omega)
  obtain ⟨b,rest,rfl⟩ := List.exists_cons_of_length_pos (l := l) (by simp at h; omega)
  exact ⟨a,b,rest,rfl⟩

theorem exists_three {α : Type} {l : List α} (h : 3 ≤ l.length) :
    ∃ a b c rest, l = a :: b :: c :: rest := by
  obtain ⟨a,b,l,rfl⟩ := exists_two (l := l) (by omega)
  obtain ⟨c,rest,rfl⟩ := List.exists_cons_of_length_pos (l := l) (by simp at h; omega)
  exact ⟨a,b,c,rest,rfl⟩

theorem exists_four {α : Type} {l : List α} (h : 4 ≤ l.length) :
    ∃ a b c d rest, l = a :: b :: c :: d :: rest := by
  obtain ⟨a,b,c,l,rfl⟩ := exists_three (l := l) (by omega)
  obtain ⟨d,rest,rfl⟩ := List.exists_cons_of_length_pos (l := l) (by simp at h; omega)
  exact ⟨a,b,c,d,rest,rfl⟩

theorem byteAt_eq {memory : List UInt8} {i : Nat} {b : UInt8} (h : memory[i]? = some b) :
    byteAt memory i = .ok b.toNat := by
  rw [byteAt,h]

theorem extractWord_eq (pd : BitData) {n : Nat} (hoff : pd.nboff ≤ 31)
    (hmem : pd.nboff ≤ 8*pd.buffer.length) (hn : n ≤ pd.nboff) (hlow : pd.nboff < 8+n) :
    ∃ k accum, pd.nboff ≤ 8*k ∧ k ≤ pd.buffer.length ∧ extractWord pd n = .ok accum ∧
      accum % 2^n = value (ofBytes (pd.buffer.take k))/2^(8*k-pd.nboff) % 2^n := by
  by_cases hzero : n = 0
  · subst hzero
    exact ⟨pd.buffer.length,0,hmem,Nat.le_refl _,
      by rw [extractWord,if_pos (by omega),if_pos rfl],by simp [Nat.mod_one]⟩
  · unfold extractWord
    by_cases h8 : pd.nboff ≤ 8
    · obtain ⟨b0,rest,hbuf⟩ : ∃ b0 rest, pd.buffer = b0 :: rest :=
        List.exists_cons_of_length_pos (by omega)
      refine ⟨1,b0.toNat >>> (8-pd.nboff),by omega,by omega,?_,?_⟩
      · rw [if_pos h8,if_neg hzero,byteAt_eq (b := b0) (by simp [hbuf])]
        rfl
      · rw [hbuf,List.take_succ_cons,BitData.value_ofBytes_cons,Nat.shiftRight_eq_div_pow]
        rfl
    · rw [if_neg h8]
      by_cases h16 : pd.nboff ≤ 16
      · obtain ⟨b0,b1,rest,hbuf⟩ : ∃ b0 b1 rest, pd.buffer = b0 :: b1 :: rest :=
          exists_two (by omega)
        refine ⟨2,(b0.toNat <<< 8+b1.toNat) >>> (16-pd.nboff),by omega,by omega,?_,?_⟩
        · rw [if_pos h16,byteAt_eq (b := b0) (by simp [hbuf]),
            byteAt_eq (b := b1) (by simp [hbuf])]
          rfl
        · rw [hbuf,Nat.shiftRight_eq_div_pow]
          change _ = value (ofBytes [b0,b1])/2^(16-pd.nboff) % 2^n
          rw [BitData.value_ofBytes_cons,BitData.value_ofBytes_cons]
          rfl
      · rw [if_neg h16]
        by_cases h24 : pd.nboff ≤ 24
        · obtain ⟨b0,b1,b2,rest,hbuf⟩ : ∃ b0 b1 b2 rest, pd.buffer = b0 :: b1 :: b2 :: rest :=
            exists_three (by omega)
          refine ⟨3,(b0.toNat <<< 16+b1.toNat <<< 8+b2.toNat) >>> (24-pd.nboff),by omega,
            by omega,?_,?_⟩
          · rw [if_pos h24,byteAt_eq (b := b0) (by simp [hbuf]),
              byteAt_eq (b := b1) (by simp [hbuf]),byteAt_eq (b := b2) (by simp [hbuf])]
            rfl
          · rw [hbuf,Nat.shiftRight_eq_div_pow,Nat.add_assoc]
            change _ = value (ofBytes [b0,b1,b2])/2^(24-pd.nboff) % 2^n
            rw [BitData.value_ofBytes_cons,BitData.value_ofBytes_cons,BitData.value_ofBytes_cons]
            rfl
        · rw [if_neg h24]
          obtain ⟨b0,b1,b2,b3,rest,hbuf⟩ :
              ∃ b0 b1 b2 b3 rest, pd.buffer = b0 :: b1 :: b2 :: b3 :: rest :=
            exists_four (by omega)
          refine ⟨4,(b0.toNat <<< 24+b1.toNat <<< 16+b2.toNat <<< 8+b3.toNat) >>> (32-pd.nboff),
            by omega,by omega,?_,?_⟩
          · rw [byteAt_eq (b := b0) (by simp [hbuf]),
              byteAt_eq (b := b1) (by simp [hbuf]),
              byteAt_eq (b := b2) (by simp [hbuf]),byteAt_eq (b := b3) (by simp [hbuf])]
            rfl
          · rw [hbuf,Nat.shiftRight_eq_div_pow,Nat.add_assoc,Nat.add_assoc]
            change _ = value (ofBytes [b0,b1,b2,b3])/2^(32-pd.nboff) % 2^n
            rw [BitData.value_ofBytes_cons,BitData.value_ofBytes_cons,BitData.value_ofBytes_cons,
              BitData.value_ofBytes_cons]
            rfl

theorem getFewBits_within {pd : BitData} (hv : pd.Valid) {n : Nat} (depth : Nat)
    (hn : pd.normalize.nboff+n ≤ 31) : getFewBits (depth+1) pd n = readResult pd n := by
  unfold getFewBits readResult
  rw [hv.length_rest]
  by_cases hleft : pd.nbits-pd.nboff < n
  · rw [if_pos hleft]
    exact (if_neg (by omega)).symm
  · have henough : n ≤ pd.nbits-pd.nboff := by omega
    rw [if_neg hleft,if_pos henough]
    obtain ⟨hnv,hrest,hoff,hsame,_⟩ := hv.normalize
    have hpos := hnv.position
    have hmem := hnv.memory
    have hin : pd.normalize.nboff+n ≤ pd.normalize.nbits := by omega
    obtain ⟨k,accum,hk,hlen,hword,haccum⟩ := extractWord_eq (pd.advance n) (n := n) hn
      (by change pd.normalize.nboff+n ≤ 8*pd.normalize.buffer.length; omega)
      (Nat.le_add_left n pd.normalize.nboff)
      (by change pd.normalize.nboff+n < 8+n; omega)
    have hslice := BitData.Valid.value_take_rest k hin hk hlen
    have hoff' : (pd.advance n).nboff ≤ 31 := hn
    simp only [if_pos hoff']
    rw [hword,ok_bind,masked_eq,haccum,← hrest,hslice]
    rfl

theorem longWord_eq {head tail n : Nat} (hn : 24 ≤ n) (hn' : n ≤ 31) (hhead : head < 2^(n-24))
    (htail : tail < 2^24) :
    (asWord (some head) <<< 24 % 2^32 ||| asWord (some tail)) &&& (1 <<< n-1) =
      head*2^24+tail := by
  have hseven : head < 2^7 := Nat.lt_of_lt_of_le hhead (Nat.pow_le_pow_right (by decide) (by omega))
  have hpow : 2^n = 2^(n-24)*2^24 := by rw [← Nat.pow_add,Nat.sub_add_cancel hn]
  have hfit : head*2^24+tail < 2^n := by
    calc head*2^24+tail < (head+1)*2^24 := by rw [Nat.succ_mul]; exact Nat.add_lt_add_left htail _
      _ ≤ 2^(n-24)*2^24 := Nat.mul_le_mul_right _ hhead
      _ = 2^n := hpow.symm
  have hshift : head <<< 24 % 2^32 = head <<< 24 := by
    apply Nat.mod_eq_of_lt
    rw [Nat.shiftLeft_eq]
    exact Nat.lt_of_lt_of_le (Nat.mul_lt_mul_of_pos_right hseven (by decide)) (by decide)
  rw [masked_eq,asWord,asWord,Option.getD_some,Option.getD_some,hshift,
    ← Nat.shiftLeft_add_eq_or_of_lt htail,Nat.shiftLeft_eq,Nat.mod_eq_of_lt hfit]

theorem asnGetFewBits_eq {pd : BitData} (hv : pd.Valid) {n : Nat} (hn : n ≤ 31) :
    asnGetFewBits pd n = readResult pd n := by
  by_cases hshort : pd.normalize.nboff+n ≤ 31
  · exact getFewBits_within hv 1 hshort
  · have hlen := hv.length_rest
    unfold asnGetFewBits getFewBits readResult
    by_cases hleft : pd.nbits-pd.nboff < n
    · rw [if_pos hleft]
      exact (if_neg (by omega)).symm
    · have henough : n ≤ pd.rest.length := by omega
      rw [if_neg hleft,if_pos henough]
      obtain ⟨hnv,hrest,hoff,_,_⟩ := hv.normalize
      have hundo : asnGetUndo (pd.advance n) n = pd.normalize := by
        unfold asnGetUndo BitData.advance
        rw [if_neg (by simp)]
        simp
      have hnn : pd.normalize.normalize = pd.normalize := if_neg (by omega)
      have hhead : getFewBits 1 pd.normalize (n-24) =
          .ok (some (value (pd.rest.take (n-24))),pd.normalize.advance (n-24)) := by
        rw [getFewBits_within hnv 0 (by rw [hnn]; omega),readResult,hrest,if_pos (by omega)]
      obtain ⟨hav,harest,_⟩ := hnv.advance (n := n-24) (by rw [hrest]; omega)
      rw [hrest] at harest
      have htail : getFewBits 1 (pd.normalize.advance (n-24)) 24 =
          .ok (some (value ((pd.rest.drop (n-24)).take 24)),
            (pd.normalize.advance (n-24)).advance 24) := by
        have hlow := hav.normalize.2.2.1
        rw [getFewBits_within hav 0 (by omega),readResult,harest,List.length_drop,
          if_pos (by omega)]
      have hvalue : value (pd.rest.take n) =
          value (pd.rest.take (n-24))*2^24+value ((pd.rest.drop (n-24)).take 24) := by
        have hsplit : pd.rest.take n = pd.rest.take (n-24) ++ (pd.rest.drop (n-24)).take 24 := by
          rw [← List.take_add,Nat.sub_add_cancel (by omega)]
        rw [hsplit,value_append,List.length_take,List.length_drop,Nat.min_eq_left (by omega)]
      have hhigh := value_lt (pd.rest.take (n-24))
      have hlow := value_lt ((pd.rest.drop (n-24)).take 24)
      rw [List.length_take,Nat.min_eq_left (by omega)] at hhigh
      rw [List.length_take,List.length_drop,Nat.min_eq_left (by omega)] at hlow
      have hoff' : ¬ (pd.advance n).nboff ≤ 31 := hshort
      simp only [if_neg hoff',if_pos hn,hundo,hhead,htail,ok_bind]
      rw [longWord_eq (by omega) hn hhigh hlow,hvalue]
      rfl

theorem asnGetFewBits_wide {pd : BitData} (hv : pd.Valid) {n : Nat} (hn : 31 < n) :
    ∃ pd', asnGetFewBits pd n = .ok (none,pd') ∧ pd'.Valid ∧ pd'.rest = pd.rest ∧
      pd.Follows pd' := by
  unfold asnGetFewBits getFewBits
  by_cases hleft : pd.nbits-pd.nboff < n
  · exact ⟨pd,if_pos hleft,hv,rfl,.refl pd⟩
  · obtain ⟨hnv,hrest,_,_,_⟩ := hv.normalize
    have hundo : asnGetUndo (pd.advance n) n = pd.normalize := by
      unfold asnGetUndo BitData.advance
      rw [if_neg (by simp)]
      simp
    have hoff : ¬ (pd.advance n).nboff ≤ 31 := by
      change ¬ pd.normalize.nboff+n ≤ 31
      omega
    refine ⟨pd.normalize,?_,hnv,hrest,hv.follows_normalize⟩
    rw [if_neg hleft]
    simp only [if_neg hoff,if_neg (show ¬ n ≤ 31 by omega),hundo]

/-- A function that reads from a stream: its result, `none` for `-1`, and the position it
leaves. -/
def Get (α : Type) := BitData → Except Fault (Option α × BitData)

namespace Get
variable {α β : Type}

/-- After the result `-1` the caller returns `-1` too. -/
instance : Monad Get where
  pure a := fun pd => .ok (some a,pd)
  bind m f := fun pd =>
    match m pd with
    | .ok (some a,pd) => f a pd
    | .ok (none,pd) => .ok (none,pd)
    | .error e => .error e

def fail : Get α := fun pd => .ok (none,pd)

def fault (e : Fault) : Get α := fun _ => .error e

def check (x : Except Fault (Option α)) : Get α := fun pd => x >>= fun a => pure (a,pd)

/-- The function reads the bits that are left as the parser does, and stays inside the
memory. -/
def Parses (m : Get α) (p : Parser α) : Prop :=
  ∀ pd, pd.Valid → ∃ result pd', m pd = .ok (result,pd') ∧ pd'.Valid ∧ pd.Follows pd' ∧
    match p pd.rest with
    | some (a,rest) => result = some a ∧ pd'.rest = rest
    | none => result = none

/-- Whatever the bits are, the function stays inside the memory and returns, with a result
that satisfies `P` if with one. -/
def Ensures (m : Get α) (P : α → Prop) : Prop :=
  ∀ pd, pd.Valid → ∃ result pd', m pd = .ok (result,pd') ∧ pd'.Valid ∧ pd.Follows pd' ∧
    ∀ a, result = some a → P a

/-- Wherever the bits that are left start with `code`, the function takes it off and
returns `a`. -/
def Accepts (m : Get α) (code : List Bool) (a : α) : Prop :=
  ∀ pd rest, pd.Valid → pd.rest = code ++ rest → ∃ pd', m pd = .ok (some a,pd') ∧
    pd'.Valid ∧ pd.Follows pd' ∧ pd'.rest = rest

/-- Wherever the bits that are left start with `code`, the function returns `-1`. -/
def Refuses (m : Get α) (code : List Bool) : Prop :=
  ∀ pd rest, pd.Valid → pd.rest = code ++ rest → ∃ pd', m pd = .ok (none,pd')

theorem bind_some {m : Get α} {f : α → Get β} {pd pd' : BitData} {a : α}
    (h : m pd = .ok (some a,pd')) : (m >>= f) pd = f a pd' := by
  simp only [Bind.bind,h]

theorem bind_none {m : Get α} {f : α → Get β} {pd pd' : BitData}
    (h : m pd = .ok (none,pd')) : (m >>= f) pd = .ok (none,pd') := by
  simp only [Bind.bind,h]

theorem bind_congr {m m' : Get α} {pd : BitData} (h : m pd = m' pd) (f : α → Get β) :
    (m >>= f) pd = (m' >>= f) pd := by
  simp only [Bind.bind,h]

theorem bind_assoc {γ : Type} (m : Get α) (f : α → Get β) (g : β → Get γ) (pd : BitData) :
    ((m >>= f) >>= g) pd = (m >>= fun a => f a >>= g) pd := by
  simp only [Bind.bind]
  cases m pd with
  | error e => rfl
  | ok r =>
    obtain ⟨result,pd'⟩ := r
    cases result with
    | none => rfl
    | some a => rfl

theorem Parses.pure (a : α) : Parses (Pure.pure a) (Pure.pure a) :=
  fun pd hv => ⟨some a,pd,rfl,hv,.refl pd,rfl,rfl⟩

theorem Parses.bind {m : Get α} {p : Parser α} {f : α → Get β} {q : α → Parser β}
    (hm : Parses m p) (hf : ∀ a, Parses (f a) (q a)) : Parses (m >>= f) (p >>= q) := by
  intro pd hv
  obtain ⟨result,pd₁,hrun,hv₁,hfollows₁,hcase⟩ := hm pd hv
  cases hp : p pd.rest with
  | none =>
    rw [hp] at hcase
    subst hcase
    refine ⟨none,pd₁,bind_none hrun,hv₁,hfollows₁,?_⟩
    rw [Parser.bind_apply,hp]
    rfl
  | some found =>
    rw [hp] at hcase
    obtain ⟨hresult,hrest⟩ := hcase
    subst hresult
    obtain ⟨result,pd₂,hrun₂,hv₂,hfollows₂,hcase₂⟩ := hf found.1 pd₁ hv₁
    rw [hrest] at hcase₂
    refine ⟨result,pd₂,(bind_some hrun).trans hrun₂,hv₂,hfollows₁.trans hfollows₂,?_⟩
    rw [Parser.bind_apply,hp]
    exact hcase₂

theorem Parses.accepts {m : Get α} {p : Parser α} {code : List Bool} {a : α} (h : Parses m p)
    (hp : Parser.Accepts p code a) : Accepts m code a := by
  intro pd rest hv hrest
  obtain ⟨result,pd',hrun,hv',hfollows,hcase⟩ := h pd hv
  rw [hrest,hp] at hcase
  obtain ⟨hresult,hrest'⟩ := hcase
  subst hresult
  exact ⟨pd',hrun,hv',hfollows,hrest'⟩

theorem Ensures.pure {P : α → Prop} {a : α} (h : P a) : Ensures (Pure.pure a) P :=
  fun pd hv => ⟨some a,pd,rfl,hv,.refl pd,fun _ hb => Option.some.inj hb ▸ h⟩

theorem Ensures.fail {P : α → Prop} : Ensures (Get.fail : Get α) P :=
  fun pd hv => ⟨none,pd,rfl,hv,.refl pd,fun _ hb => nomatch hb⟩

theorem Ensures.bind {m : Get α} {f : α → Get β} {P : α → Prop} {Q : β → Prop}
    (hm : Ensures m P) (hf : ∀ a, P a → Ensures (f a) Q) : Ensures (m >>= f) Q := by
  intro pd hv
  obtain ⟨result,pd₁,hrun,hv₁,hfollows₁,hp⟩ := hm pd hv
  cases result with
  | none => exact ⟨none,pd₁,bind_none hrun,hv₁,hfollows₁,fun _ hb => nomatch hb⟩
  | some a =>
    obtain ⟨result,pd₂,hrun₂,hv₂,hfollows₂,hq⟩ := hf a (hp a rfl) pd₁ hv₁
    exact ⟨result,pd₂,(bind_some hrun).trans hrun₂,hv₂,hfollows₁.trans hfollows₂,hq⟩

theorem Ensures.mono {m : Get α} {P Q : α → Prop} (hm : Ensures m P) (h : ∀ a, P a → Q a) :
    Ensures m Q := by
  intro pd hv
  obtain ⟨result,pd',hrun,hv',hfollows,hp⟩ := hm pd hv
  exact ⟨result,pd',hrun,hv',hfollows,fun a ha => h a (hp a ha)⟩

theorem Ensures.and {m : Get α} {P Q : α → Prop} (hp : Ensures m P) (hq : Ensures m Q) :
    Ensures m (fun a => P a ∧ Q a) := by
  intro pd hv
  obtain ⟨result,pd',hrun,hv',hfollows,hpost⟩ := hp pd hv
  obtain ⟨_,_,hrun',_,_,hpost'⟩ := hq pd hv
  rw [hrun] at hrun'
  cases hrun'
  exact ⟨result,pd',hrun,hv',hfollows,fun a ha => ⟨hpost a ha,hpost' a ha⟩⟩

theorem Ensures.check {x : Except Fault (Option α)} {P : α → Prop}
    (h : ∃ a, x = .ok a ∧ ∀ v, a = some v → P v) : Ensures (Get.check x) P := by
  obtain ⟨a,hx,hp⟩ := h
  intro pd hv
  rw [Get.check,hx]
  exact ⟨a,pd,rfl,hv,.refl pd,hp⟩

def Takes (m : Get α) (k : Nat) : Prop :=
  ∀ pd a pd', pd.Valid → m pd = .ok (some a,pd') → pd'.rest.length+k ≤ pd.rest.length

theorem Takes.bind {m : Get α} {f : α → Get β} {P : α → Prop} {Q : β → Prop} {k : Nat}
    (hm : Takes m k) (he : Ensures m P) (hf : ∀ a, P a → Ensures (f a) Q) :
    Takes (m >>= f) k := by
  intro pd b pd' hv hrun
  obtain ⟨result,pd₁,hrun₁,hv₁,_,hp⟩ := he pd hv
  cases result with
  | none => rw [bind_none hrun₁] at hrun; cases hrun
  | some a =>
    rw [bind_some hrun₁] at hrun
    obtain ⟨result,pd₂,hrun₂,_,hfollows₂,_⟩ := hf a (hp a rfl) pd₁ hv₁
    rw [hrun₂] at hrun
    cases hrun
    have hfirst := hm pd a pd₁ hv hrun₁
    have hnext := hfollows₂.forward
    omega

theorem Accepts.pure (a : α) : Accepts (Pure.pure a) [] a :=
  fun pd _ hv hrest => ⟨pd,rfl,hv,.refl pd,hrest⟩

theorem Accepts.check {x : Except Fault (Option α)} {a : α} (h : x = .ok (some a)) :
    Accepts (Get.check x) [] a := by
  intro pd rest hv hrest
  rw [Get.check,h]
  exact ⟨pd,rfl,hv,.refl pd,hrest⟩

theorem Accepts.bind {m : Get α} {f : α → Get β} {code code' : List Bool} {a : α} {b : β}
    (hm : Accepts m code a) (hf : Accepts (f a) code' b) : Accepts (m >>= f) (code ++ code') b := by
  intro pd rest hv hrest
  obtain ⟨pd₁,hrun,hv₁,hfollows₁,hrest₁⟩ := hm pd (code' ++ rest) hv (by
    rw [hrest,List.append_assoc])
  obtain ⟨pd₂,hrun₂,hv₂,hfollows₂,hrest₂⟩ := hf pd₁ rest hv₁ hrest₁
  exact ⟨pd₂,(bind_some hrun).trans hrun₂,hv₂,hfollows₁.trans hfollows₂,hrest₂⟩

theorem Accepts.bind_last {m : Get α} {f : α → Get β} {code : List Bool} {a : α} {b : β}
    (hm : Accepts m code a) (hf : Accepts (f a) [] b) : Accepts (m >>= f) code b := by
  have hall := hm.bind hf
  rw [List.append_nil] at hall
  exact hall

theorem Accepts.bind_refuses {m : Get α} {f : α → Get β} {code code' : List Bool} {a : α}
    (hm : Accepts m code a) (hf : Refuses (f a) code') : Refuses (m >>= f) (code ++ code') := by
  intro pd rest hv hrest
  obtain ⟨pd₁,hrun,hv₁,_,hrest₁⟩ := hm pd (code' ++ rest) hv (by rw [hrest,List.append_assoc])
  obtain ⟨pd₂,hrun₂⟩ := hf pd₁ rest hv₁ hrest₁
  exact ⟨pd₂,(bind_some hrun).trans hrun₂⟩

theorem Refuses.append {m : Get α} {code : List Bool} (hm : Refuses m code) (code' : List Bool) :
    Refuses m (code ++ code') := by
  intro pd rest hv hrest
  exact hm pd (code' ++ rest) hv (by rw [hrest,List.append_assoc])

theorem Refuses.bind {m : Get α} {code : List Bool} (hm : Refuses m code) (f : α → Get β) :
    Refuses (m >>= f) code := by
  intro pd rest hv hrest
  obtain ⟨pd₁,hrun⟩ := hm pd rest hv hrest
  exact ⟨pd₁,bind_none hrun⟩

end Get

def getBits (nbits : Nat) : Get Nat := fun pd => asnGetFewBits pd nbits

theorem getBits_parses {n : Nat} (hn : n ≤ 31) : Get.Parses (getBits n) (Parser.number n) := by
  intro pd hv
  rw [getBits,asnGetFewBits_eq hv hn,readResult,Parser.number]
  by_cases hlen : n ≤ pd.rest.length
  · obtain ⟨hav,hrest,_⟩ := hv.advance hlen
    rw [if_pos hlen,if_pos hlen]
    exact ⟨_,_,rfl,hav,hv.follows_advance hlen,rfl,hrest⟩
  · rw [if_neg hlen,if_neg hlen]
    exact ⟨none,pd,rfl,hv,.refl pd,rfl⟩

theorem getBits_ensures (n : Nat) : Get.Ensures (getBits n) (fun v => v < 2^n) := by
  intro pd hv
  by_cases hn : n ≤ 31
  · rw [getBits,asnGetFewBits_eq hv hn,readResult]
    by_cases hlen : n ≤ pd.rest.length
    · obtain ⟨hav,_,_⟩ := hv.advance hlen
      rw [if_pos hlen]
      refine ⟨_,_,rfl,hav,hv.follows_advance hlen,?_⟩
      intro v hvalue
      have hlt := value_lt (pd.rest.take n)
      rw [List.length_take,Nat.min_eq_left hlen,Option.some.inj hvalue] at hlt
      exact hlt
    · rw [if_neg hlen]
      exact ⟨none,pd,rfl,hv,.refl pd,fun _ hb => nomatch hb⟩
  · obtain ⟨pd',hrun,hv',_,hfollows⟩ := asnGetFewBits_wide hv (n := n) (by omega)
    exact ⟨none,pd',hrun,hv',hfollows,fun _ hb => nomatch hb⟩

theorem getBits_accepts {n v : Nat} (hn : n ≤ 31) (hv : v < 2^n) :
    Get.Accepts (getBits n) (ofNat n v) v :=
  (getBits_parses hn).accepts (Parser.accepts_number hv)

theorem getBits_takes (n : Nat) : Get.Takes (getBits n) n := by
  intro pd v pd' hv hrun
  by_cases hn : n ≤ 31
  · rw [getBits,asnGetFewBits_eq hv hn,readResult] at hrun
    by_cases hlen : n ≤ pd.rest.length
    · rw [if_pos hlen] at hrun
      cases hrun
      rw [(hv.advance hlen).2.1,List.length_drop]
      omega
    · rw [if_neg hlen] at hrun
      cases hrun
  · obtain ⟨pd₁,hwide,_⟩ := asnGetFewBits_wide hv (n := n) (by omega)
    rw [getBits,hwide] at hrun
    cases hrun

theorem exists_rest (bits : List Bool) : ∃ pd : BitData, pd.Valid ∧ pd.rest = bits := by
  have hfit : bits.length ≤ 8*((bits.length+7)/8) := by omega
  refine ⟨⟨toBytes ((bits.length+7)/8) bits,0,bits.length,0⟩,⟨Nat.zero_le _,?_⟩,?_⟩
  · rw [length_toBytes]
    exact hfit
  · simp only [BitData.rest,List.drop_zero]
    rw [ofBytes_toBytes hfit,List.take_left' rfl]

theorem Get.Accepts.not_refuses {α : Type} {m : Get α} {code : List Bool} {a : α}
    (h : Get.Accepts m code a) : ¬ Get.Refuses m code := by
  intro hrefuses
  obtain ⟨pd,hv,hpd⟩ := exists_rest (code ++ [])
  obtain ⟨pd₁,hrun,_⟩ := h pd [] hv hpd
  obtain ⟨pd₂,hrun'⟩ := hrefuses pd [] hv hpd
  rw [hrun] at hrun'
  cases hrun'

theorem Get.Accepts.unique {α : Type} {m : Get α} {code rest : List Bool} {a b : α}
    (h : Get.Accepts m code a) (h' : Get.Accepts m (code ++ rest) b) : a = b := by
  obtain ⟨pd,hv,hpd⟩ := exists_rest (code ++ rest)
  obtain ⟨pd₁,hrun,_⟩ := h pd rest hv hpd
  obtain ⟨pd₂,hrun',_⟩ := h' pd [] hv (by rw [hpd,List.append_nil])
  rw [hrun] at hrun'
  cases hrun'
  rfl

def lastBytes (value nbits : Nat) : List UInt8 :=
  let shift := if nbits % 8 = 0 then 0 else 8-nbits % 8
  let value := value <<< shift
  let nbits := nbits+shift
  (if 24 < nbits then [UInt8.ofNat (value >>> 24)] else []) ++
  (if 16 < nbits then [UInt8.ofNat (value >>> 16)] else []) ++
  (if 8 < nbits then [UInt8.ofNat (value >>> 8)] else []) ++ [UInt8.ofNat value]

/-- The loop of `asn_get_many_bits`; `fuel` is the number of its rounds. -/
def getManyLoop : Nat → Nat → Get (List UInt8)
  | 0, _ => pure []
  | fuel+1, nbits =>
    if nbits = 0 then pure []
    else if 24 ≤ nbits then do
      let value ← getBits 24
      let dst ← getManyLoop fuel (nbits-24)
      pure (UInt8.ofNat (value >>> 16) :: UInt8.ofNat (value >>> 8) :: UInt8.ofNat value :: dst)
    else do
      let value ← getBits nbits
      pure (lastBytes value nbits)

/-- The result is what is written to `dst`; after `-1` nobody looks at that. -/
def asnGetManyBits (alright : Bool) (nbits : Nat) : Get (List UInt8) :=
  if alright && nbits % 8 ≠ 0 then do
    let value ← getBits (nbits % 8)
    let dst ← getManyLoop (nbits/24+1) (nbits-nbits % 8)
    pure (UInt8.ofNat value :: dst)
  else getManyLoop (nbits/24+1) nbits

theorem ofBytes_three (v : Nat) :
    ofBytes [UInt8.ofNat (v >>> 16),UInt8.ofNat (v >>> 8),UInt8.ofNat v] = ofNat 24 v := by
  simp only [ofBytes,ofNat_uint8,List.append_nil]
  rw [ofNat_add 8 16 v,ofNat_add 8 8 v,Nat.shiftRight_eq_div_pow,Nat.shiftRight_eq_div_pow]

theorem ofBytes_lastBytes {v n : Nat} (hn : 0 < n) (h24 : n < 24) :
    ofBytes (lastBytes v n) = ofNat n v ++ List.replicate (8*((n+7)/8)-n) false := by
  have hpad := ofNat_mul_pow n (8*((n+7)/8)-n) v
  have hshift : (if n % 8 = 0 then 0 else 8-n % 8) = 8*((n+7)/8)-n := by
    split <;> omega
  rw [← hpad,lastBytes]
  simp only [hshift,Nat.shiftLeft_eq,Nat.shiftRight_eq_div_pow]
  generalize v*2^(8*((n+7)/8)-n) = word
  have hcases : n+(8*((n+7)/8)-n) = 8 ∨ n+(8*((n+7)/8)-n) = 16 ∨ n+(8*((n+7)/8)-n) = 24 := by
    omega
  have hbyte : ∀ m, ofNat 8 (m % 256) = ofNat 8 m := ofNat_mod 8
  rcases hcases with h | h | h
  · rw [h]
    simp [ofBytes,hbyte]
  · rw [h,ofNat_add 8 8 word]
    simp [ofBytes,hbyte]
  · rw [h,ofNat_add 8 16 word,ofNat_add 8 8 word]
    simp [ofBytes,hbyte]

theorem eq_toBytes (bytes : List UInt8) (bits : List Bool)
    (h : ofBytes bytes = bits ++ List.replicate (8*((bits.length+7)/8)-bits.length) false) :
    bytes = toBytes ((bits.length+7)/8) bits :=
  ofBytes_injective (by rw [h,ofBytes_toBytes (by omega)])

theorem bytes_three (n : Nat) (h : 24 ≤ n) :
    (do let v ← Parser.number 24
        let dst ← Parser.bytes (n-24)
        pure (UInt8.ofNat (v >>> 16) :: UInt8.ofNat (v >>> 8) :: UInt8.ofNat v :: dst)) =
      Parser.bytes n := by
  funext bs
  rw [Parser.bind_apply,Parser.number,Parser.bytes]
  by_cases hlen : n ≤ bs.length
  · have htake : (bs.take 24).length = 24 := by rw [List.length_take]; omega
    have hdrop : n-24 ≤ (bs.drop 24).length := by rw [List.length_drop]; omega
    rw [if_pos (by omega),if_pos hlen,Option.bind_some,Parser.bind_apply,Parser.bytes,
      if_pos hdrop,Option.bind_some,Parser.pure_apply,List.drop_drop]
    have hbits : bs.take n = bs.take 24 ++ (bs.drop 24).take (n-24) := by
      rw [← List.take_add,Nat.add_sub_cancel' h]
    have hrest : ((bs.drop 24).take (n-24)).length = n-24 := by
      rw [List.length_take,Nat.min_eq_left hdrop]
    have hn : (bs.take n).length = n := by rw [List.length_take,Nat.min_eq_left hlen]
    have hbytes := eq_toBytes (UInt8.ofNat (value (bs.take 24) >>> 16) ::
        UInt8.ofNat (value (bs.take 24) >>> 8) :: UInt8.ofNat (value (bs.take 24)) ::
        toBytes ((n-24+7)/8) ((bs.drop 24).take (n-24))) (bs.take n) (by
      have hthree := ofBytes_three (value (bs.take 24))
      have hvalue := ofNat_value (bs.take 24)
      rw [htake] at hvalue
      rw [hvalue] at hthree
      rw [show ∀ a b c : UInt8, ∀ l, a :: b :: c :: l = [a,b,c] ++ l from fun _ _ _ _ => rfl,
        ofBytes_append,hthree,ofBytes_toBytes (by omega),hbits,List.append_assoc,
        List.length_append,htake,hrest]
      congr 3
      omega)
    rw [hn] at hbytes
    rw [hbytes,Nat.add_sub_cancel' h]
  · rw [if_neg hlen]
    by_cases h24 : 24 ≤ bs.length
    · rw [if_pos h24,Option.bind_some,Parser.bind_apply,Parser.bytes,
        if_neg (by rw [List.length_drop]; omega)]
      rfl
    · rw [if_neg h24]
      rfl

theorem bytes_last {n : Nat} (hn : 0 < n) (h24 : n < 24) :
    (do let v ← Parser.number n
        pure (lastBytes v n)) = Parser.bytes n := by
  funext bs
  rw [Parser.bind_apply,Parser.number,Parser.bytes]
  by_cases hlen : n ≤ bs.length
  · have htake : (bs.take n).length = n := by rw [List.length_take,Nat.min_eq_left hlen]
    have hbytes := eq_toBytes (lastBytes (value (bs.take n)) n) (bs.take n) (by
      have hvalue := ofNat_value (bs.take n)
      rw [htake] at hvalue
      rw [ofBytes_lastBytes hn h24,hvalue,htake])
    rw [htake] at hbytes
    rw [if_pos hlen,if_pos hlen,Option.bind_some,Parser.pure_apply,hbytes]
  · rw [if_neg hlen,if_neg hlen]
    rfl

theorem bytes_zero : (pure [] : Parser (List UInt8)) = Parser.bytes 0 := by
  funext bs
  rw [Parser.pure_apply,Parser.bytes,if_pos (Nat.zero_le _)]
  rfl

theorem getManyLoop_parses {fuel n : Nat} (h : n/24 < fuel) :
    Get.Parses (getManyLoop fuel n) (Parser.bytes n) := by
  induction fuel generalizing n with
  | zero => omega
  | succ fuel ih =>
    unfold getManyLoop
    by_cases hzero : n = 0
    · subst hzero
      rw [if_pos rfl,← bytes_zero]
      exact .pure []
    · rw [if_neg hzero]
      by_cases h24 : 24 ≤ n
      · rw [if_pos h24,← bytes_three n h24]
        exact (getBits_parses (by decide)).bind fun v =>
          (ih (by omega)).bind fun dst => .pure _
      · rw [if_neg h24,← bytes_last (by omega) (by omega)]
        exact (getBits_parses (by omega)).bind fun v => .pure _

/-- Reading many bits fills bytes from the left. -/
theorem asnGetManyBits_parses (n : Nat) :
    Get.Parses (asnGetManyBits false n) (Parser.bytes n) :=
  getManyLoop_parses (Nat.lt_succ_self _)

theorem asnGetManyBits_ensures (n : Nat) :
    Get.Ensures (asnGetManyBits false n) (fun bytes => bytes.length = (n+7)/8) := by
  intro pd hv
  obtain ⟨result,pd',hrun,hv',hfollows,hcase⟩ := asnGetManyBits_parses n pd hv
  refine ⟨result,pd',hrun,hv',hfollows,?_⟩
  intro bytes hbytes
  rw [Parser.bytes] at hcase
  by_cases hlen : n ≤ pd.rest.length
  · rw [if_pos hlen] at hcase
    rw [hcase.1] at hbytes
    cases hbytes
    exact length_toBytes _ _
  · rw [if_neg hlen] at hcase
    rw [hcase] at hbytes
    cases hbytes

end Mitvane.Per

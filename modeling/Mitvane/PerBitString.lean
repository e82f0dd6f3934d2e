import Mathlib.Data.List.DropRight
import Mitvane.PerStrings

/-! Strings of bits. The encoder sends them without their trailing zeros, and with as many
zeros as the size constraint asks for. -/
set_option autoImplicit false

namespace Mitvane.Per
open PartialRun BitString

def lastByte (buf : List UInt8) : Nat → Nat
  | 0 => 0
  | b+1 => if buf.getD (b+1) 0 = 0 then lastByte buf b else b+1

def unusedOf (v : Nat) : Nat :=
  let v := v &&& (256-v)
  7-(if v &&& 0x0F ≠ 0 then 4 else 0)-(if v &&& 0x33 ≠ 0 then 2 else 0)-
    (if v &&& 0x55 ≠ 0 then 1 else 0)

/-- The size and the unused bits, without the trailing zero bits. Bits that were unused
before count as any other. -/
def bitStringCompactify (buf : List UInt8) : Nat × Nat :=
  if buf.length = 0 then (0,0)
  else
    let b := lastByte buf (buf.length-1)
    let v := (buf.getD b 0).toNat
    if v ≠ 0 then (b+1,unusedOf v) else (b,0)

def sizeInBits (buf : List UInt8) : Nat :=
  8*(bitStringCompactify buf).1-(bitStringCompactify buf).2

def bitsUnused (n : Nat) : Nat := if n % 8 ≠ 0 then 8-n % 8 else 0

def bitStringLoop : Nat → List UInt8 → Nat → Get (List UInt8 × Nat)
  | 0, _, _ => Get.fault .unfinished
  | fuel+1, buf, unused => do
    let (lenBits,more) ← uperGetLength (-1) 0
    let bytes ← asnGetManyBits false lenBits
    let unused := if lenBits % 8 ≠ 0 then bitsUnused lenBits else unused
    if more then bitStringLoop fuel (buf ++ bytes) unused else pure (buf ++ bytes,unused)

def getBitFragments : Get (List UInt8 × Nat) := fun pd => bitStringLoop (pd.nbits/8+1) [] 0 pd

/-- The string and the bits taken, of which the decoder tells only where the length is
fixed. -/
def getBitString (csiz : PerConstraint) : Get ((List UInt8 × Nat) × Nat) :=
  if csiz.effectiveBits = 0 then do
    let buf ← asnGetManyBits false csiz.upperBound.toNat
    pure ((buf,(8-csiz.upperBound.toNat % 8) % 8),csiz.upperBound.toNat)
  else if 0 ≤ csiz.effectiveBits ∧ csiz.effectiveBits ≤ 16 then do
    let (lenBits,_) ← uperGetLength csiz.effectiveBits csiz.lowerBound.toNat
    let buf ← asnGetManyBits false lenBits
    pure ((buf,bitsUnused lenBits),0)
  else do
    let st ← getBitFragments
    pure (st,0)

def bitStringDecodeUper (pc : Option PerConstraints) : Get ((List UInt8 × Nat) × Nat) := do
  let root ← getRoot (some (stringSize pc))
  getBitString (root.getD openSize)

def putZeros : Nat → Nat → Put Unit
  | 0, _ => fun _ => .error .unfinished
  | fuel+1, trailing =>
    if trailing = 0 then pure ()
    else if 128 < trailing then do
      asnPutManyBits (List.replicate 16 0) 128
      putZeros fuel (trailing-128)
    else asnPutManyBits (List.replicate 16 0) trailing

def putBitString (csiz : PerConstraint) (buf : List UInt8) : Put Unit :=
  let size := sizeInBits buf
  if 0 ≤ csiz.effectiveBits then do
    asnPutFewBits (if (size : Int) < csiz.lowerBound then 0
      else ((size : Int)-csiz.lowerBound).toNat) csiz.effectiveBits.toNat
    asnPutManyBits buf size
    let trailing := (csiz.lowerBound-size).toNat
    putZeros (trailing/128+1) trailing
  else
    putFragments (fun offset maySave => asnPutManyBits (buf.drop (offset/8)) maySave)
      (size/16384+1) 0 size

def bitStringEncodeUper (pc : Option PerConstraints) (buf : List UInt8) (unused : Nat) : Put Unit :=
  if (buf.length = 0 ∧ unused ≠ 0) ∨ 7 < unused then Put.fail
  else
    let csiz := stringSize pc
    let inext := decide (0 ≤ csiz.effectiveBits ∧ csiz.upperBound < (sizeInBits buf : Int))
    if csiz.extensible then do
      asnPutFewBits inext.toNat 1
      putBitString (if inext then openSize else csiz) buf
    else if inext then Put.fail
    else putBitString csiz buf

def bitString (own : Option PerConstraints) : TypeDescriptor where
  uperDecoder constraints := do
    let (st,consumed) ← bitStringDecodeUper (chosen own constraints)
    pure (.bits st.1 st.2,consumed)
  uperEncoder constraints v :=
    match v with
    | .bits buf unused => bitStringEncodeUper (chosen own constraints) buf unused
    | _ => Put.fail

def ofBits (bits : List Bool) : List UInt8 × Nat :=
  (toBytes ((bits.length+7)/8) bits,bitsUnused bits.length)

section Compact

theorem unusedOf_spec : ∀ v < 256, v ≠ 0 → unusedOf v < 8 ∧
    ofNat 8 v = (ofNat 8 v).take (7-unusedOf v) ++ true :: List.replicate (unusedOf v) false := by
  decide +kernel

theorem lastByte_le (buf : List UInt8) (b : Nat) : lastByte buf b ≤ b := by
  induction b with
  | zero => simp [lastByte]
  | succ b ih =>
    simp only [lastByte]
    split
    · omega
    · omega

theorem lastByte_after (buf : List UInt8) (b : Nat) :
    ∀ i, lastByte buf b < i → i ≤ b → buf.getD i 0 = 0 := by
  induction b with
  | zero => simp [lastByte]; omega
  | succ b ih =>
    intro i hi hle
    simp only [lastByte] at hi
    split at hi
    · rename_i hzero
      by_cases hlast : i = b+1
      · rw [hlast,hzero]
      · exact ih i hi (by omega)
    · omega

theorem lastByte_data (buf : List UInt8) (b : Nat) :
    lastByte buf b = 0 ∨ buf.getD (lastByte buf b) 0 ≠ 0 := by
  induction b with
  | zero => simp [lastByte]
  | succ b ih =>
    simp only [lastByte]
    split
    · exact ih
    · rename_i hdata
      exact .inr hdata

theorem ofBytes_zeros (n : Nat) :
    ofBytes (List.replicate n 0) = List.replicate (8*n) false := by
  induction n with
  | zero => rfl
  | succ n ih =>
    rw [List.replicate_succ,ofBytes,ih,show 8*(n+1) = 8+8*n by omega,← List.replicate_append_replicate]
    rfl

theorem split_lastByte {buf : List UInt8} (h : buf.length ≠ 0) :
    ∃ L, L = lastByte buf (buf.length-1) ∧ L < buf.length ∧
      ofBytes buf = ofBytes (buf.take L) ++ (ofNat 8 (buf.getD L 0).toNat ++
        List.replicate (8*(buf.length-L-1)) false) := by
  have hle := lastByte_le buf (buf.length-1)
  have hafter := lastByte_after buf (buf.length-1)
  generalize lastByte buf (buf.length-1) = L at hle hafter
  refine ⟨L,rfl,by omega,?_⟩
  have hL : L < buf.length := by omega
  have hzeros : buf.drop (L+1) = List.replicate (buf.length-L-1) 0 := by
    rw [List.eq_replicate_iff]
    refine ⟨by rw [List.length_drop]; omega,?_⟩
    intro x hx
    obtain ⟨i,hi,hget⟩ := List.mem_iff_getElem.mp hx
    rw [List.length_drop] at hi
    have hzero := hafter (L+1+i) (by omega) (by omega)
    rw [List.getElem_drop] at hget
    rw [← hget]
    simpa [List.getD_eq_getElem?_getD,List.getElem?_eq_getElem (show L+1+i < buf.length by omega)]
      using hzero
  have hbuf : buf = buf.take L ++ (buf.getD L 0 :: List.replicate (buf.length-L-1) 0) := by
    have hcons := List.drop_eq_getElem_cons hL
    rw [hzeros] at hcons
    have hget : buf.getD L 0 = buf[L] := by
      simp [List.getD_eq_getElem?_getD,List.getElem?_eq_getElem hL]
    rw [hget,← hcons,List.take_append_drop]
  calc ofBytes buf
      = ofBytes (buf.take L ++ (buf.getD L 0 :: List.replicate (buf.length-L-1) 0)) :=
        congrArg ofBytes hbuf
    _ = _ := by rw [ofBytes_append,ofBytes,ofBytes_zeros]

/-- The string without its trailing zeros. -/
theorem sizeInBits_spec (buf : List UInt8) : ∃ front, ofBytes buf =
      front ++ List.replicate (8*buf.length-sizeInBits buf) false ∧
    front.length = sizeInBits buf ∧ (front = [] ∨ ∃ rest, front = rest ++ [true]) := by
  by_cases hlen : buf.length = 0
  · refine ⟨[],?_,?_,.inl rfl⟩
    · simp [List.eq_nil_of_length_eq_zero hlen,ofBytes]
    · simp [sizeInBits,bitStringCompactify,hlen]
  · obtain ⟨L,hL,hlt,hbits⟩ := split_lastByte hlen
    have hdata := lastByte_data buf (buf.length-1)
    have hv := (buf.getD L 0).toNat_lt
    have hsize : sizeInBits buf = if (buf.getD L 0).toNat ≠ 0
        then 8*(L+1)-unusedOf (buf.getD L 0).toNat else 8*L := by
      simp only [sizeInBits,bitStringCompactify,if_neg hlen,← hL]
      split
      · rfl
      · rfl
    rw [← hL] at hdata
    by_cases hzero : (buf.getD L 0).toNat = 0
    · have hbyte : buf.getD L 0 = 0 := UInt8.toNat_inj.mp hzero
      have hfirst : L = 0 := hdata.resolve_right (not_not_intro hbyte)
      rw [if_neg (not_not_intro hzero)] at hsize
      refine ⟨[],?_,by rw [hsize,hfirst]; rfl,.inl rfl⟩
      rw [hbits,hzero,hsize,hfirst,show ofNat 8 0 = List.replicate 8 false from rfl]
      simp only [List.take_zero,ofBytes,List.nil_append,List.replicate_append_replicate]
      congr 1
      omega
    · obtain ⟨hunused,hbyte⟩ := unusedOf_spec _ (by omega) hzero
      rw [if_pos hzero] at hsize
      generalize (buf.getD L 0).toNat = v at *
      refine ⟨ofBytes (buf.take L) ++ ((ofNat 8 v).take (7-unusedOf v) ++ [true]),?_,?_,
        .inr ⟨ofBytes (buf.take L) ++ (ofNat 8 v).take (7-unusedOf v),?_⟩⟩
      · calc ofBytes buf
            = ofBytes (buf.take L) ++ (((ofNat 8 v).take (7-unusedOf v) ++
                true :: List.replicate (unusedOf v) false) ++
                List.replicate (8*(buf.length-L-1)) false) := by rw [hbits,← hbyte]
          _ = _ := by
            simp only [List.append_assoc,List.cons_append,List.nil_append,
              List.replicate_append_replicate]
            congr 4
            omega
      · simp only [List.length_append,length_ofBytes,List.length_take,length_ofNat,
          List.length_singleton]
        omega
      · rw [List.append_assoc]

end Compact

section Reading

def bitChunk (n : Nat) : Get (List Bool) := do
  let bytes ← asnGetManyBits false n
  pure ((ofBytes bytes).take n)

theorem bitChunk_accepts (bits : List Bool) : Get.Accepts (bitChunk bits.length) bits bits := by
  have hmany := (asnGetManyBits_parses bits.length).accepts (Parser.accepts_toBytes bits)
  have hbytes := @ofBytes_toBytes ((bits.length+7)/8) bits (by omega)
  refine hmany.bind_last ?_
  rw [hbytes,List.take_left' rfl]
  exact .pure bits

theorem bitChunk_ensures (n : Nat) : Get.Ensures (bitChunk n) (fun _ => True) :=
  (asnGetManyBits_ensures n).bind fun _ _ => .pure trivial

theorem ofBits_append (buf : List UInt8) (bits : List Bool) :
    ofBits (ofBytes buf ++ bits) =
      (buf ++ toBytes ((bits.length+7)/8) bits,bitsUnused bits.length) := by
  have hcount : (8*buf.length+bits.length+7)/8 = buf.length+(bits.length+7)/8 := by omega
  unfold ofBits
  simp only [List.length_append,length_ofBytes]
  congr 1
  · apply ofBytes_injective
    rw [ofBytes_toBytes (by simp; omega),ofBytes_append,ofBytes_toBytes (by omega)]
    simp only [List.length_append,length_ofBytes,List.append_assoc]
    congr 3
    omega
  · unfold bitsUnused
    rw [Nat.mul_add_mod]

theorem bitStringLoop_eq (fuel : Nat) (buf : List UInt8) (pd : BitData) (hv : pd.Valid) :
    bitStringLoop fuel buf 0 pd =
      (getFragmentsLoop bitChunk fuel (ofBytes buf) >>= fun bits => pure (ofBits bits)) pd := by
  induction fuel generalizing buf pd with
  | zero => rfl
  | succ fuel ih =>
    obtain ⟨result,pd₁,hrun₁,hv₁,_,hwhole⟩ := uperGetLength_more pd hv
    unfold bitStringLoop getFragmentsLoop
    rw [Get.bind_assoc]
    cases result with
    | none => rw [Get.bind_none hrun₁,Get.bind_none hrun₁]
    | some r =>
      obtain ⟨n,more⟩ := r
      have hmod := hwhole (n,more) rfl
      obtain ⟨result,pd₂,hrun₂,hv₂,_,hcase⟩ := asnGetManyBits_parses n pd₁ hv₁
      rw [Get.bind_some hrun₁,Get.bind_some hrun₁,Get.bind_assoc]
      dsimp only
      rw [Parser.bytes] at hcase
      by_cases hlen : n ≤ pd₁.rest.length
      · rw [if_pos hlen] at hcase
        obtain ⟨hresult,_⟩ := hcase
        have hbits : (pd₁.rest.take n).length = n := by simp [hlen]
        generalize pd₁.rest.take n = bits at hresult hbits
        subst hresult hbits
        have hbytes := @ofBytes_toBytes ((bits.length+7)/8) bits (by omega)
        have hchunk : bitChunk bits.length pd₁ = .ok (some bits,pd₂) := by
          unfold bitChunk
          rw [Get.bind_some hrun₂,hbytes,List.take_left' rfl]
          rfl
        rw [Get.bind_some hrun₂,Get.bind_some hchunk]
        cases more with
        | false =>
          have hunused : (if bits.length % 8 ≠ 0 then bitsUnused bits.length else 0) =
              bitsUnused bits.length := by
            unfold bitsUnused
            split <;> rfl
          simp only [hunused,Bool.false_eq_true,if_false]
          change _ = (pure (ofBits (ofBytes buf ++ bits)) : Get (List UInt8 × Nat)) pd₂
          rw [ofBits_append]
        | true =>
          have hfull : bits.length % 8 = 0 := by
            have hwholes : bits.length % 16384 = 0 := hmod rfl
            omega
          have hall : ofBytes buf ++ bits =
              ofBytes (buf ++ toBytes ((bits.length+7)/8) bits) := by
            rw [ofBytes_append,hbytes,show 8*((bits.length+7)/8)-bits.length = 0 by omega]
            simp
          simp only [hfull,ne_eq,not_true_eq_false,if_false,if_true]
          rw [hall]
          exact ih _ pd₂ hv₂
      · rw [if_neg hlen] at hcase
        subst hcase
        have hchunk : bitChunk n pd₁ = .ok (none,pd₂) := Get.bind_none hrun₂
        rw [Get.bind_none hrun₂,Get.bind_none hchunk]

theorem getBitString_open (pd : BitData) (hv : pd.Valid) {csiz : PerConstraint}
    (h : csiz.effectiveBits < 0) : getBitString csiz pd =
      (getFragments bitChunk >>= fun bits => pure (ofBits bits,0)) pd := by
  unfold getBitString
  rw [if_neg (by omega),if_neg (by omega)]
  have hread : getBitFragments pd =
      (getFragments bitChunk >>= fun bits => pure (ofBits bits)) pd := by
    have hfragments : getFragments bitChunk pd =
        getFragmentsLoop bitChunk (pd.nbits/8+1) [] pd := rfl
    rw [Get.bind_congr hfragments]
    exact bitStringLoop_eq (pd.nbits/8+1) [] pd hv
  rw [Get.bind_congr hread,Get.bind_assoc]
  rfl

theorem bitsUnused_eq (n : Nat) : bitsUnused n = (8-n % 8) % 8 := by
  unfold bitsUnused
  split
  · omega
  · omega

def HasBits (n : Nat) (st : List UInt8 × Nat) : Prop :=
  st.1.length = (n+7)/8 ∧ st.2 = bitsUnused n

theorem hasBits_ofBits (bits : List Bool) : HasBits bits.length (ofBits bits) :=
  ⟨length_toBytes _ _,rfl⟩

theorem getBitString_ensures {csiz : PerConstraint} (h : csiz.effectiveBits ≤ 16) :
    Get.Ensures (getBitString csiz) (fun r => ∃ n, HasBits n r.1 ∧
      (csiz.SoundSize → csiz.Counts n)) := by
  by_cases heff : 0 ≤ csiz.effectiveBits
  · unfold getBitString
    split
    · rename_i hzero
      refine (asnGetManyBits_ensures _).bind fun buf hlen =>
        .pure ⟨csiz.upperBound.toNat,⟨hlen,(bitsUnused_eq _).symm⟩,?_⟩
      intro hsound _ _
      have hlower := hsound.lower
      have horder := hsound.order heff
      have hfits := hsound.fits heff
      rw [hzero] at hfits ⊢
      simp only [Int.toNat_zero,pow_zero] at hfits ⊢
      omega
    · rw [if_pos ⟨heff,h⟩]
      refine (uperGetLength_sized ⟨heff,h⟩ _).bind fun r hr =>
        (asnGetManyBits_ensures _).bind fun buf hlen => .pure ⟨r.1,⟨hlen,rfl⟩,?_⟩
      intro hsound _ _
      have hlower := hsound.lower
      have hpow : ((2^csiz.effectiveBits.toNat : Nat) : Int) = 2^csiz.effectiveBits.toNat := by
        exact_mod_cast rfl
      omega
  · intro pd hv
    have hread : Get.Ensures (getFragments bitChunk >>= fun bits => pure (ofBits bits,0))
        (fun r => ∃ n, HasBits n r.1 ∧ (csiz.SoundSize → csiz.Counts n)) := by
      refine Get.Ensures.bind (P := fun _ => True) (getFragments_ensures trivial
        (fun _ _ _ _ => trivial) fun n _ => bitChunk_ensures n) fun bits _ => ?_
      exact .pure ⟨bits.length,hasBits_ofBits bits,fun _ _ hnonneg => absurd hnonneg heff⟩
    rw [getBitString_open pd hv (by omega)]
    exact hread pd hv

end Reading

section Writing
variable {csiz : PerConstraint} {buf : List UInt8}

theorem putZeros_emits {fuel n : Nat} (h : n/128 < fuel) :
    Put.Emits (putZeros fuel n) (List.replicate n false) () := by
  have hzeros : ∀ k ≤ 128, Put.Emits (asnPutManyBits (List.replicate 16 0) k)
      (List.replicate k false) () := by
    intro k hk
    have hmany := @asnPutManyBits_emits (List.replicate 16 0) k (by simp; omega)
    rw [ofBytes_zeros,List.take_replicate,Nat.min_eq_left (by omega)] at hmany
    exact hmany
  induction fuel generalizing n with
  | zero => omega
  | succ fuel ih =>
    unfold putZeros
    by_cases hdone : n = 0
    · rw [if_pos hdone,hdone]
      exact .pure ()
    · rw [if_neg hdone]
      by_cases hmore : 128 < n
      · have hsplit : List.replicate n false =
            List.replicate 128 false ++ List.replicate (n-128) false := by
          rw [List.replicate_append_replicate,Nat.add_sub_cancel' (by omega)]
        have hfirst := hzeros 128 (Nat.le_refl _)
        have hrest := ih (show (n-128)/128 < fuel by omega)
        rw [if_pos hmore,hsplit]
        exact hfirst.bind hrest
      · rw [if_neg hmore]
        exact hzeros n (by omega)

def sentBits (csiz : PerConstraint) (buf : List UInt8) : List Bool :=
  (ofBytes buf).take (sizeInBits buf) ++
    if 0 ≤ csiz.effectiveBits then List.replicate (csiz.lowerBound-sizeInBits buf).toNat false
    else []

theorem sizeInBits_le (buf : List UInt8) : sizeInBits buf ≤ 8*buf.length := by
  obtain ⟨front,hbits,hfront,_⟩ := sizeInBits_spec buf
  have hlen := congrArg List.length hbits
  rw [length_ofBytes,List.length_append,hfront] at hlen
  omega

theorem length_sentBits (h : 0 ≤ csiz.effectiveBits) :
    (sentBits csiz buf).length = sizeInBits buf+(csiz.lowerBound-sizeInBits buf).toNat := by
  have hle := sizeInBits_le buf
  simp only [sentBits,if_pos h,List.length_append,List.length_take,length_ofBytes,
    List.length_replicate]
  omega

theorem readBits_accepts (bits : List Bool) : Get.Accepts (asnGetManyBits false bits.length) bits
    (toBytes ((bits.length+7)/8) bits) :=
  (asnGetManyBits_parses bits.length).accepts (Parser.accepts_toBytes bits)

theorem putBitString_roundTrips (hsound : csiz.SoundSize)
    (hin : 0 ≤ csiz.effectiveBits → (sizeInBits buf : Int) ≤ csiz.upperBound) :
    ∃ consumed, RoundTrips (putBitString csiz buf) (getBitString csiz)
      (ofBits (sentBits csiz buf),consumed) := by
  have hlower := hsound.lower
  have hbits := hsound.bits
  have hle := sizeInBits_le buf
  by_cases heff : 0 ≤ csiz.effectiveBits
  · have hmax := hin heff
    have hfits := hsound.fits heff
    have horder := hsound.order heff
    have hlen := @length_sentBits csiz buf heff
    have hcode : Put.Emits (putBitString csiz buf)
        (ofNat csiz.effectiveBits.toNat ((sentBits csiz buf).length-csiz.lowerBound.toNat) ++
          sentBits csiz buf) () := by
      have hnumber : (if (sizeInBits buf : Int) < csiz.lowerBound then 0
          else ((sizeInBits buf : Int)-csiz.lowerBound).toNat) =
          (sentBits csiz buf).length-csiz.lowerBound.toNat := by
        rw [hlen]
        split
        · omega
        · omega
      have hparts : sentBits csiz buf = (ofBytes buf).take (sizeInBits buf) ++
          List.replicate (csiz.lowerBound-sizeInBits buf).toNat false := by
        rw [sentBits,if_pos heff]
      unfold putBitString
      simp only [if_pos heff,hnumber]
      generalize (sentBits csiz buf).length-csiz.lowerBound.toNat = number
      rw [hparts]
      refine (asnPutFewBits_emits (by omega)).bind ((asnPutManyBits_emits hle).bind ?_)
      exact putZeros_emits (Nat.lt_succ_self _)
    by_cases hzero : csiz.effectiveBits = 0
    · have hub : csiz.upperBound.toNat = (sentBits csiz buf).length := by
        rw [hzero] at hfits
        simp at hfits
        omega
      refine ⟨csiz.upperBound.toNat,_,hcode,?_⟩
      unfold getBitString ofBits
      rw [if_pos hzero,hzero,hub,bitsUnused_eq]
      exact (readBits_accepts _).bind_last (.pure _)
    · refine ⟨0,_,hcode,?_⟩
      obtain ⟨ebits,hebits⟩ := Int.eq_ofNat_of_zero_le heff
      have hlength := @uperGetLength_constrained ebits
        ((sentBits csiz buf).length-csiz.lowerBound.toNat) csiz.lowerBound.toNat (by omega) (by
          rw [hebits] at hfits
          simp only [Int.toNat_natCast] at hfits
          omega)
      have hsum : (sentBits csiz buf).length-csiz.lowerBound.toNat+csiz.lowerBound.toNat =
          (sentBits csiz buf).length := by omega
      rw [hsum] at hlength
      unfold getBitString ofBits
      rw [if_neg hzero,if_pos ⟨heff,hbits⟩,hebits]
      exact hlength.bind ((readBits_accepts _).bind_last (.pure _))
  · have hsent : sentBits csiz buf = (ofBytes buf).take (sizeInBits buf) := by
      rw [sentBits,if_neg heff,List.append_nil]
    have hlen : ((ofBytes buf).take (sizeInBits buf)).length = sizeInBits buf := by
      simp [hle]
    have hput : ∀ offset n, offset % 16384 = 0 →
        offset+n ≤ ((ofBytes buf).take (sizeInBits buf)).length →
        Put.Emits (asnPutManyBits (buf.drop (offset/8)) n)
          ((((ofBytes buf).take (sizeInBits buf)).drop offset).take n) () := by
      intro offset n hwhole hn
      rw [hlen] at hn
      have hmany := @asnPutManyBits_emits (buf.drop (offset/8)) n (by rw [List.length_drop]; omega)
      rw [ofBytes_drop,show 8*(offset/8) = offset by omega] at hmany
      rw [List.drop_take,List.take_take,Nat.min_eq_left (by omega)]
      exact hmany
    have hall := @putFragments_emits _ (fun bits : List Bool => bits) _ _ hput _ 0 rfl
      (Nat.lt_succ_self _) (Nat.zero_le _)
    simp only [Nat.sub_zero,List.drop_zero,hlen] at hall
    refine ⟨0,_,by unfold putBitString; simp only [if_neg heff]; exact hall,?_⟩
    have hfragments := @getFragments_accepts _ bitChunk (fun bits : List Bool => bits)
      ((ofBytes buf).take (sizeInBits buf)) (fun seg _ => bitChunk_accepts seg) rfl
    rw [hlen] at hfragments
    have hread : Get.Accepts (getFragments bitChunk >>= fun bits => pure (ofBits bits,0))
        (fragmentsCode (fun bits => bits) (sizeInBits buf/16384+1)
          ((ofBytes buf).take (sizeInBits buf)))
        (ofBits ((ofBytes buf).take (sizeInBits buf)),0) := hfragments.bind_last (.pure _)
    intro pd rest hv hrest
    rw [getBitString_open pd hv (by omega),hsent]
    exact hread pd rest hv hrest

end Writing

theorem bitString_yields {own constraints : Option PerConstraints}
    (h : (stringSize (chosen own constraints)).effectiveBits ≤ 16) :
    (bitString own).Yields constraints (fun v => ∃ buf unused, v = .bits buf unused ∧
      ∃ n, HasBits n (buf,unused) ∧ ((stringSize (chosen own constraints)).SoundSize →
        (stringSize (chosen own constraints)).Counts n)) := by
  have hread : Get.Ensures (bitStringDecodeUper (chosen own constraints)) (fun r =>
      ∃ n, HasBits n r.1 ∧ ((stringSize (chosen own constraints)).SoundSize →
        (stringSize (chosen own constraints)).Counts n)) := by
    refine (getRoot_ensures _).bind fun root hroot => ?_
    rcases hroot with hroot | hroot
    · rw [hroot,Option.getD_some]
      exact getBitString_ensures h
    · rw [hroot.1,Option.getD_none]
      refine (getBitString_ensures (by decide)).mono fun r hr => ?_
      obtain ⟨n,hn,_⟩ := hr
      exact ⟨n,hn,fun _ => PerConstraint.counts_extensible (hroot.2 _ rfl) n⟩
  exact hread.bind fun r hr => .pure ⟨r.1.1,r.1.2,rfl,hr⟩

/-- A string without the zeros at its end, but for those that the least size asks for. -/
def trimmed (least : Nat) (bits : List Bool) : List Bool :=
  let kept := bits.rdropWhile (!·)
  kept ++ List.replicate (least-kept.length) false

def leastSize (csiz : PerConstraint) : Nat :=
  if 0 ≤ csiz.effectiveBits then csiz.lowerBound.toNat else 0

theorem split_zeros (bits : List Bool) : ∃ front n, bits = front ++ List.replicate n false ∧
    (front = [] ∨ ∃ rest, front = rest ++ [true]) := by
  induction bits using List.reverseRecOn with
  | nil => exact ⟨[],0,rfl,.inl rfl⟩
  | append_singleton bits b ih =>
    cases b with
    | true => exact ⟨bits ++ [true],0,(List.append_nil _).symm,.inr ⟨bits,rfl⟩⟩
    | false =>
      obtain ⟨front,n,rfl,hlast⟩ := ih
      exact ⟨front,n+1,by rw [List.replicate_succ',List.append_assoc],hlast⟩

section Trimming
variable {front bits : List Bool}

theorem rdropWhile_zeros (h : front = [] ∨ ∃ rest, front = rest ++ [true]) (n : Nat) :
    (front ++ List.replicate n false).rdropWhile (!·) = front := by
  induction n with
  | zero =>
    rw [List.replicate_zero,List.append_nil]
    rcases h with rfl | ⟨rest,rfl⟩
    · rfl
    · exact List.rdropWhile_concat_neg _ _ _ (by decide)
  | succ n ih =>
    rw [List.replicate_succ',← List.append_assoc,List.rdropWhile_concat_pos _ _ _ (by decide),ih]

theorem trimmed_split (h : front = [] ∨ ∃ rest, front = rest ++ [true]) (least n : Nat) :
    trimmed least (front ++ List.replicate n false) =
      front ++ List.replicate (least-front.length) false := by
  rw [trimmed,rdropWhile_zeros h]

theorem trimmed_zeros (least n : Nat) :
    trimmed least (bits ++ List.replicate n false) = trimmed least bits := by
  obtain ⟨front,m,rfl,hlast⟩ := split_zeros bits
  rw [List.append_assoc,← List.replicate_add,trimmed_split hlast,trimmed_split hlast]

theorem not_last_of_zeros {rest : List Bool} {n : Nat}
    (h : front ++ List.replicate n false = rest ++ [true]) : n = 0 := by
  cases n with
  | zero => rfl
  | succ n =>
    rw [List.replicate_succ',← List.append_assoc] at h
    have hlast := List.append_inj_right' h rfl
    cases hlast

theorem trimmed_eq_self {least : Nat} (h : least ≤ bits.length) :
    trimmed least bits = bits ↔ bits.length = least ∨ ∃ rest, bits = rest ++ [true] := by
  obtain ⟨front,n,rfl,hlast⟩ := split_zeros bits
  rw [List.length_append,List.length_replicate] at h ⊢
  rw [trimmed_split hlast,List.append_cancel_left_eq]
  constructor
  · intro hsame
    have hcount := congrArg List.length hsame
    rw [List.length_replicate,List.length_replicate] at hcount
    by_cases hleast : front.length+n = least
    · exact .inl hleast
    · have hzero : n = 0 := by omega
      have hne : front ≠ [] := List.ne_nil_of_length_pos (by omega)
      rw [hzero,List.replicate_zero,List.append_nil]
      exact .inr (hlast.resolve_left hne)
  · rintro (hleast | ⟨rest,hrest⟩)
    · congr 1
      omega
    · have hzero := not_last_of_zeros hrest
      congr 1
      omega

end Trimming

theorem sentBits_eq (csiz : PerConstraint) (buf : List UInt8) :
    sentBits csiz buf = trimmed (leastSize csiz) (ofBytes buf) := by
  obtain ⟨front,hsplit,hlen,hlast⟩ := sizeInBits_spec buf
  have htake : (ofBytes buf).take (sizeInBits buf) = front := by rw [hsplit,List.take_left' hlen]
  rw [sentBits,htake,hsplit,trimmed_split hlast,hlen,leastSize]
  by_cases heff : 0 ≤ csiz.effectiveBits
  · rw [if_pos heff,if_pos heff]
    congr 2
    omega
  · rw [if_neg heff,if_neg heff,Nat.zero_sub]
    rfl

theorem bitStringUper_roundTrips (pc : Option PerConstraints) {buf : List UInt8} {unused : Nat}
    (hvalid : unused ≤ 7 ∧ (buf = [] → unused = 0)) (hsound : (stringSize pc).SoundSize)
    (hallows : (sizeInBits buf : Int) ≤ (stringSize pc).upperBound ∨
      (stringSize pc).extensible = true ∨ (stringSize pc).effectiveBits < 0) :
    ∃ consumed, RoundTrips (bitStringEncodeUper pc buf unused) (bitStringDecodeUper pc)
      (ofBits (trimmed (leastSize (stringSize pc)) (ofBytes buf)),consumed) := by
  have hok : ¬ ((buf.length = 0 ∧ unused ≠ 0) ∨ 7 < unused) := by
    intro hbad
    rcases hbad with hbad | hbad
    · exact hbad.2 (hvalid.2 (List.eq_nil_of_length_eq_zero hbad.1))
    · omega
  unfold bitStringEncodeUper bitStringDecodeUper
  rw [if_neg hok]
  by_cases hin : 0 ≤ (stringSize pc).effectiveBits ∧ (stringSize pc).upperBound < sizeInBits buf
  · have hext : (stringSize pc).extensible = true := by
      rcases hallows with hroot | hext | hopen
      · omega
      · exact hext
      · omega
    obtain ⟨consumed,bits,hput,hget⟩ := @putBitString_roundTrips openSize buf openSize_sound
      (fun h => absurd h (by decide))
    have hsent : sentBits openSize buf = sentBits (stringSize pc) buf := by
      have horder := hsound.order hin.1
      have hnone : ((stringSize pc).lowerBound-sizeInBits buf).toNat = 0 := by omega
      rw [sentBits,sentBits,if_pos hin.1,hnone]
      rfl
    rw [hsent,sentBits_eq] at hget
    refine ⟨consumed,rootBit (stringSize pc) true ++ bits,?_,(getRoot_extension hext).bind hget⟩
    simp only [decide_eq_true hin,if_pos hext,rootBit,if_true]
    exact (asnPutFewBits_emits (by decide)).bind hput
  · obtain ⟨consumed,bits,hput,hget⟩ := @putBitString_roundTrips (stringSize pc) buf hsound
      (by omega)
    rw [sentBits_eq] at hget
    refine ⟨consumed,rootBit (stringSize pc) false ++ bits,?_,(getRoot_root _).bind hget⟩
    simp only [decide_eq_false hin,rootBit,Bool.false_eq_true,if_false,Bool.toNat_false]
    by_cases hext : (stringSize pc).extensible = true
    · rw [if_pos hext,if_pos hext]
      exact (asnPutFewBits_emits (by decide)).bind hput
    · rw [if_neg hext,if_neg hext]
      exact hput

theorem ofBytes_ofBits (bits : List Bool) : ∃ n, ofBytes (ofBits bits).1 =
    bits ++ List.replicate n false :=
  ⟨_,ofBytes_toBytes (by omega)⟩

theorem ofBits_injective {bits bits' : List Bool} (h : ofBits bits = ofBits bits') : bits = bits' := by
  have hlen := congrArg (List.length ·.1) h
  have hunused := congrArg Prod.snd h
  simp only [ofBits,length_toBytes,bitsUnused_eq] at hlen hunused
  have hbytes := congrArg (fun st : List UInt8 × Nat => (ofBytes st.1).take bits.length) h
  simp only [ofBits] at hbytes
  rw [ofBytes_toBytes (by omega),ofBytes_toBytes (by omega),List.take_left' rfl,
    List.take_left' (by omega)] at hbytes
  exact hbytes

def bitsOf (buf : List UInt8) (unused : Nat) : List Bool :=
  (ofBytes buf).take (8*buf.length-unused)

def bitsValue (bits : List Bool) : Value := .bits (ofBits bits).1 (ofBits bits).2

theorem bitsValue_injective {bits bits' : List Bool} (h : bitsValue bits = bitsValue bits') :
    bits = bits' := by
  cases hbits : ofBits bits
  cases hbits' : ofBits bits'
  simp only [bitsValue,hbits,hbits',Value.bits.injEq] at h
  exact ofBits_injective (by rw [hbits,hbits',h.1,h.2])

section Coding
variable {own constraints : Option PerConstraints}

def bitsAllowed (csiz : PerConstraint) (buf : List UInt8) (unused : Nat) : Prop :=
  unused ≤ 7 ∧ sizeInBits buf+unused ≤ 8*buf.length ∧ csiz.Allows (8*buf.length-unused)

instance (csiz : PerConstraint) (buf : List UInt8) (unused : Nat) :
    Decidable (bitsAllowed csiz buf unused) :=
  inferInstanceAs (Decidable (_ ∧ _))

/-- What arrives of a string: all but the zeros at its end that its size does not ask for. -/
theorem bitString_carries (hsound : (stringSize (chosen own constraints)).SoundSize)
    {buf : List UInt8} {unused : Nat}
    (h : bitsAllowed (stringSize (chosen own constraints)) buf unused) :
    (bitString own).Carries constraints (.bits buf unused)
      (bitsValue (trimmed (leastSize (stringSize (chosen own constraints))) (ofBytes buf))) := by
  obtain ⟨hunused,hsize,hallows⟩ := h
  obtain ⟨consumed,code,hemits,haccepts⟩ := @bitStringUper_roundTrips (chosen own constraints)
    buf unused ⟨hunused,by rintro rfl; simp at hsize; omega⟩ hsound (by
      rcases hallows with hroot | hrest
      · omega
      · exact .inr hrest)
  exact ⟨consumed,code,hemits,haccepts.bind_last (.pure _)⟩

theorem sizeInBits_ofBits (bits : List Bool) : sizeInBits (ofBits bits).1 ≤ bits.length := by
  obtain ⟨n,hbytes⟩ := ofBytes_ofBits bits
  obtain ⟨front,hsplit,hlen,hlast⟩ := sizeInBits_spec (ofBits bits).1
  obtain ⟨front',m,rfl,hlast'⟩ := split_zeros bits
  have hkept := congrArg (List.rdropWhile (!·)) (hsplit.symm.trans hbytes)
  rw [List.append_assoc,← List.replicate_add,rdropWhile_zeros hlast,rdropWhile_zeros hlast'] at hkept
  rw [← hlen,hkept,List.length_append]
  omega

theorem bitsAllowed_ofBits {csiz : PerConstraint} {bits : List Bool} (h : csiz.Allows bits.length) :
    bitsAllowed csiz (ofBits bits).1 (ofBits bits).2 := by
  have hlen : (ofBits bits).1.length = (bits.length+7)/8 := length_toBytes _ _
  have hunused : (ofBits bits).2 = (8-bits.length % 8) % 8 := bitsUnused_eq _
  have hsize := sizeInBits_ofBits bits
  have hcount : 8*(ofBits bits).1.length-(ofBits bits).2 = bits.length := by omega
  exact ⟨by omega,by omega,by rw [hcount]; exact h⟩

/-- A string is read back as it was if it has the least size or ends in a set bit. Of any
other one the zeros at the end are lost, as far as the least size lets them go. -/
theorem bitString_codes_iff (hsound : (stringSize (chosen own constraints)).SoundSize)
    (heff : 0 ≤ (stringSize (chosen own constraints)).effectiveBits) {bits : List Bool}
    (hsize : (stringSize (chosen own constraints)).lowerBound ≤ bits.length ∧
      bits.length ≤ (stringSize (chosen own constraints)).upperBound) :
    (bitString own).Carries constraints (bitsValue bits)
        (bitsValue (trimmed (stringSize (chosen own constraints)).lowerBound.toNat bits)) ∧
      ((bitString own).Codes constraints (bitsValue bits) ↔
        bits.length = (stringSize (chosen own constraints)).lowerBound ∨
          ∃ rest, bits = rest ++ [true]) := by
  have hlower := hsound.lower
  obtain ⟨n,hbytes⟩ := ofBytes_ofBits bits
  have hcarries := bitString_carries hsound (bitsAllowed_ofBits (.inl hsize))
  rw [hbytes,trimmed_zeros,leastSize,if_pos heff] at hcarries
  have hself := @trimmed_eq_self bits (stringSize (chosen own constraints)).lowerBound.toNat
    (by omega)
  refine ⟨hcarries,?_⟩
  constructor
  · intro hcodes
    have hsame := hself.mp (bitsValue_injective (hcarries.unique hcodes))
    exact hsame.imp_left fun hlen => by omega
  · intro hlast
    have hsame := hself.mpr (hlast.imp_left fun hlen => by omega)
    rw [hsame] at hcarries
    exact hcarries

theorem bitString_codes_iff_lanes :
    (bitString none).Carries
        (some ⟨⟨false,false,false,-1,-1,0,0⟩,⟨false,true,false,4,4,1,13⟩,none,none⟩)
        (bitsValue [true,false,false]) (bitsValue (trimmed 1 [true,false,false])) ∧
      ((bitString none).Codes
          (some ⟨⟨false,false,false,-1,-1,0,0⟩,⟨false,true,false,4,4,1,13⟩,none,none⟩)
          (bitsValue [true,false,false]) ↔
        ([true,false,false].length : Int) = 1 ∨ ∃ rest, [true,false,false] = rest ++ [true]) :=
  bitString_codes_iff (by decide) (by decide) (by decide)

end Coding

end Mitvane.Per

import Mitvane.PerTypes

set_option autoImplicit false

namespace Mitvane.Per
open PartialRun BitString

def openSize : PerConstraint := ⟨true,false,false,-1,-1,0,0⟩

def octetValues : PerConstraint := ⟨false,true,false,8,8,0,255⟩

def stringSize (pc : Option PerConstraints) : PerConstraint := (pc.map (·.size)).getD openSize

def stringValues (pc : Option PerConstraints) : PerConstraint :=
  (pc.map (·.value)).getD octetValues

def unitBits (cval : PerConstraint) (inext : Bool) : Nat :=
  if cval.constrained && !inext then cval.rangeBits.toNat else 8

def getUnits (unit : Get UInt8) : Nat → Get (List UInt8)
  | 0 => pure []
  | n+1 => do
    let ch ← unit
    let rest ← getUnits unit n
    pure (ch :: rest)

def putUnits (unit : UInt8 → Put Unit) : List UInt8 → Put Unit
  | [] => pure ()
  | ch :: rest => do
    unit ch
    putUnits unit rest

def asIs (cval : PerConstraint) (bits : Nat) : Bool :=
  decide (toUlong cval.upperBound ≤ 2 <<< (bits-1))

def getMapped (map : Nat → Option Nat) (bits : Nat) : Get UInt8 := do
  let code ← getBits bits
  match map code with
  | none => Get.fail
  | some value => pure (UInt8.ofNat value)

def getPlain (lb ub : Int) (bits : Nat) : Get UInt8 := do
  let code ← getBits bits
  if ub < code+lb then Get.fail else pure (UInt8.ofNat ((code+lb) % 256).toNat)

def getCopied (lb ub : Int) (bits units : Nat) : Get (List UInt8) :=
  if lb = 0 ∧ bits = 8 then asnGetManyBits false (bits*units) else getUnits (getPlain lb ub bits) units

def getCharacters (pc : Option PerConstraints) (bits units : Nat) : Get (List UInt8) :=
  let cval := stringValues pc
  if asIs cval bits then getCopied 0 cval.upperBound bits units
  else
    match pc.bind (·.code2value) with
    | some map => if 16 < bits then Get.fail else getUnits (getMapped map bits) units
    | none => getCopied cval.lowerBound cval.upperBound bits units

def putMapped (map : Nat → Option Nat) (bits : Nat) (ch : UInt8) : Put Unit :=
  match map ch.toNat with
  | none => Put.fail
  | some code => asnPutFewBits code bits

def putPlain (lb ub : Int) (bits : Nat) (ch : UInt8) : Put Unit :=
  if (ch.toNat : Int)-lb < 0 ∨ ub-lb < (ch.toNat : Int)-lb then Put.fail
  else asnPutFewBits ((ch.toNat : Int)-lb).toNat bits

def putCopied (lb ub : Int) (bits : Nat) (buf : List UInt8) : Put Unit :=
  if lb = 0 ∧ bits = 8 then asnPutManyBits buf (bits*buf.length) else putUnits (putPlain lb ub bits) buf

/-- `OCTET_STRING_per_put_characters`. Characters of a table go on to what follows, with
nothing left of them. -/
def putCharacters (pc : Option PerConstraints) (bits : Nat) (buf : List UInt8) : Put Unit :=
  let cval := stringValues pc
  if asIs cval bits then putCopied 0 cval.upperBound bits buf
  else
    match pc.bind (·.value2code) with
    | some map => do
      putUnits (putMapped map bits) buf
      if cval.lowerBound = 0 ∧ bits = 8 then asnPutManyBits [] (bits*buf.length) else pure ()
    | none => putCopied cval.lowerBound cval.upperBound bits buf

/-- A string whose length is fixed, or stands in the bits of the constraint, or in front of
fragments. -/
def getString (csiz : PerConstraint) (chunk : Nat → Get (List UInt8)) : Get (List UInt8) :=
  if csiz.effectiveBits = 0 then chunk csiz.upperBound.toNat
  else if 0 ≤ csiz.effectiveBits ∧ csiz.effectiveBits ≤ 16 then do
    let (rawLen,_) ← uperGetLength csiz.effectiveBits csiz.lowerBound.toNat
    chunk rawLen
  else getFragments chunk

/-- The bits taken, as the decoder of a string tells them: none unless the length is
fixed. -/
def stringConsumed (csiz : PerConstraint) (bits : Nat) : Nat :=
  if csiz.effectiveBits = 0 then bits*csiz.upperBound.toNat else 0

def octetStringDecodeUper (pc : Option PerConstraints) : Get (List UInt8 × Nat) := do
  let root ← getRoot (some (stringSize pc))
  let bits := unitBits (stringValues pc) root.isNone
  let csiz := root.getD openSize
  let buf ← getString csiz (getCharacters pc bits)
  pure (buf,stringConsumed csiz bits)

def putString (csiz : PerConstraint) (put : List UInt8 → Put Unit) (buf : List UInt8) : Put Unit :=
  if 0 ≤ csiz.effectiveBits then do
    asnPutFewBits ((buf.length : Int)-csiz.lowerBound).toNat csiz.effectiveBits.toNat
    put buf
  else
    putFragments (fun offset maySave => put ((buf.drop offset).take maySave))
      (buf.length/16384+1) 0 buf.length

def octetStringEncodeUper (pc : Option PerConstraints) (buf : List UInt8) : Put Unit :=
  let csiz := stringSize pc
  let inext := decide (0 ≤ csiz.effectiveBits ∧
    ((buf.length : Int) < csiz.lowerBound ∨ csiz.upperBound < (buf.length : Int)))
  let put := putCharacters pc (unitBits (stringValues pc) inext)
  if csiz.extensible then do
    asnPutFewBits inext.toNat 1
    putString (if inext then openSize else csiz) put buf
  else if inext then Put.fail
  else putString csiz put buf

def octetString (own : Option PerConstraints) : TypeDescriptor where
  uperDecoder constraints := do
    let (buf,consumed) ← octetStringDecodeUper (chosen own constraints)
    pure (.octets buf,consumed)
  uperEncoder constraints v :=
    match v with
    | .octets buf => octetStringEncodeUper (chosen own constraints) buf
    | _ => Put.fail

section Octets
variable {pc : Option PerConstraints} {bits : Nat}

theorem getUnits_ensures {unit : Get UInt8} (h : Get.Ensures unit (fun _ => True)) (n : Nat) :
    Get.Ensures (getUnits unit n) (fun buf => buf.length = n) := by
  induction n with
  | zero => exact .pure rfl
  | succ n ih =>
    refine h.bind fun ch _ => ih.bind fun rest hrest => .pure ?_
    rw [List.length_cons,hrest]

theorem getCopied_ensures (lb ub : Int) (bits units : Nat) :
    Get.Ensures (getCopied lb ub bits units) (fun buf => buf.length = units) := by
  unfold getCopied
  split
  · rename_i hwhole
    refine (asnGetManyBits_ensures _).mono fun buf hlen => ?_
    rw [hwhole.2] at hlen
    omega
  · refine getUnits_ensures ((getBits_ensures bits).bind fun code _ => ?_) units
    split
    · exact .fail
    · exact .pure trivial

theorem getCharacters_ensures (pc : Option PerConstraints) (bits units : Nat) :
    Get.Ensures (getCharacters pc bits units) (fun buf => buf.length = units) := by
  unfold getCharacters
  simp only
  split
  · exact getCopied_ensures _ _ _ _
  · split
    · split
      · exact .fail
      · refine getUnits_ensures ((getBits_ensures bits).bind fun code _ => ?_) units
        split
        · exact .fail
        · exact .pure trivial
    · exact getCopied_ensures _ _ _ _

theorem PerConstraint.counts_extensible {ct : PerConstraint} (h : ct.extensible = true) (n : Nat) :
    ct.Counts n := by
  intro hfixed
  rw [h] at hfixed
  cases hfixed

theorem getString_ensures {chunk : Nat → Get (List UInt8)}
    (h : ∀ n, Get.Ensures (chunk n) (fun buf => buf.length = n)) (csiz : PerConstraint) :
    Get.Ensures (getString csiz chunk) (fun buf => csiz.SoundSize → csiz.Counts buf.length) := by
  unfold getString
  split
  · rename_i hzero
    refine (h _).mono fun buf hlen hsound _ _ => ?_
    have hlower := hsound.lower
    have horder := hsound.order (by omega)
    have hfits := hsound.fits (by omega)
    rw [hzero] at hfits ⊢
    rw [hlen]
    simp only [Int.toNat_zero,pow_zero] at hfits ⊢
    omega
  · split
    · rename_i hbits
      refine (uperGetLength_sized hbits _).bind fun r hr => (h r.1).mono fun buf hlen hsound _ _ => ?_
      have hlower := hsound.lower
      have hpow : ((2^csiz.effectiveBits.toNat : Nat) : Int) = 2^csiz.effectiveBits.toNat := by
        exact_mod_cast rfl
      rw [hlen]
      omega
    · rename_i hopen
      have hread : Get.Ensures (getFragments chunk) (fun _ => True) :=
        getFragments_ensures trivial (fun _ _ _ _ => trivial)
          fun n _ => (h n).mono fun _ _ => trivial
      refine hread.mono fun buf _ hsound _ heff => ?_
      exact absurd ⟨heff,hsound.bits⟩ hopen

/-- Whatever the constraints and the bits are, a string is read without a fault. -/
theorem octetString_yields (own constraints : Option PerConstraints) :
    (octetString own).Yields constraints (fun v => ∃ buf, v = .octets buf ∧
      ((stringSize (chosen own constraints)).SoundSize →
        (stringSize (chosen own constraints)).Counts buf.length)) := by
  have hread : Get.Ensures (octetStringDecodeUper (chosen own constraints)) (fun r =>
      (stringSize (chosen own constraints)).SoundSize →
        (stringSize (chosen own constraints)).Counts r.1.length) := by
    refine (getRoot_ensures _).bind fun root hroot => ?_
    refine (getString_ensures (getCharacters_ensures _ _) _).bind fun buf hbuf => .pure ?_
    rcases hroot with hroot | hroot
    · rw [hroot,Option.getD_some] at hbuf
      exact hbuf
    · intro _
      exact PerConstraint.counts_extensible (hroot.2 _ rfl) _
  exact hread.bind fun r hr => .pure ⟨r.1,rfl,hr⟩

/-- The characters are in the alphabet: coded as they are, or through tables that are
inverse to each other. -/
def Spells (pc : Option PerConstraints) (bits : Nat) (buf : List UInt8) : Prop :=
  bits ≤ 16 ∧
  if asIs (stringValues pc) bits then bits = 8 ∨ ∀ ch ∈ buf,
    (ch.toNat : Int) ≤ (stringValues pc).upperBound ∧ ch.toNat < 2^bits
  else ¬ ((stringValues pc).lowerBound = 0 ∧ bits = 8) ∧
    ∃ value2code code2value, pc.bind (·.value2code) = some value2code ∧
      pc.bind (·.code2value) = some code2value ∧ ∀ ch ∈ buf, ∃ code < 2^bits,
        value2code ch.toNat = some code ∧ code2value code = some ch.toNat

def spelledBy (pc : Option PerConstraints) (bits : Nat) (buf : List UInt8) : Bool :=
  (pc.bind (·.value2code)).any fun value2code => (pc.bind (·.code2value)).any fun code2value =>
    buf.all fun ch => (value2code ch.toNat).any fun code =>
      decide (code < 2^bits) && code2value code == some ch.toNat

theorem spelledBy_iff (pc : Option PerConstraints) (bits : Nat) (buf : List UInt8) :
    spelledBy pc bits buf = true ↔
      ∃ value2code code2value, pc.bind (·.value2code) = some value2code ∧
        pc.bind (·.code2value) = some code2value ∧ ∀ ch ∈ buf, ∃ code < 2^bits,
          value2code ch.toNat = some code ∧ code2value code = some ch.toNat := by
  simp only [spelledBy,Option.any_eq_true,List.all_eq_true,Bool.and_eq_true,decide_eq_true_eq,
    beq_iff_eq]
  constructor
  · rintro ⟨f,hf,g,hg,h⟩
    refine ⟨f,g,hf,hg,fun ch hch => ?_⟩
    obtain ⟨code,hcode,hlt,hback⟩ := h ch hch
    exact ⟨code,hlt,hcode,hback⟩
  · rintro ⟨f,g,hf,hg,h⟩
    refine ⟨f,hf,g,hg,fun ch hch => ?_⟩
    obtain ⟨code,hlt,hcode,hback⟩ := h ch hch
    exact ⟨code,hcode,hlt,hback⟩

instance (pc : Option PerConstraints) (bits : Nat) (buf : List UInt8) :
    Decidable (∃ value2code code2value, pc.bind (·.value2code) = some value2code ∧
      pc.bind (·.code2value) = some code2value ∧ ∀ ch ∈ buf, ∃ code < 2^bits,
        value2code ch.toNat = some code ∧ code2value code = some ch.toNat) :=
  decidable_of_iff _ (spelledBy_iff pc bits buf)

instance (pc : Option PerConstraints) (bits : Nat) (buf : List UInt8) :
    Decidable (Spells pc bits buf) :=
  inferInstanceAs (Decidable (_ ∧ _))

theorem Spells.segment {buf seg : List UInt8} (h : Spells pc bits buf) (hseg : seg ⊆ buf) :
    Spells pc bits seg := by
  obtain ⟨hbits,hcase⟩ := h
  refine ⟨hbits,?_⟩
  by_cases hasIs : asIs (stringValues pc) bits = true
  · rw [if_pos hasIs] at hcase ⊢
    exact hcase.imp_right fun hall ch hch => hall ch (hseg hch)
  · rw [if_neg hasIs] at hcase ⊢
    obtain ⟨hnot,into,back,hto,hback,hall⟩ := hcase
    exact ⟨hnot,into,back,hto,hback,fun ch hch => hall ch (hseg hch)⟩

def charCode (pc : Option PerConstraints) (bits : Nat) (ch : UInt8) : List Bool :=
  if asIs (stringValues pc) bits then ofNat bits ch.toNat
  else ofNat bits (((pc.bind (·.value2code)).bind (· ch.toNat)).getD 0)

theorem putUnits_emits {unit : UInt8 → Put Unit} {code : UInt8 → List Bool} {buf : List UInt8}
    (h : ∀ ch ∈ buf, Put.Emits (unit ch) (code ch) ()) :
    Put.Emits (putUnits unit buf) (buf.flatMap code) () := by
  induction buf with
  | nil => exact .pure ()
  | cons ch rest ih =>
    simp only [List.mem_cons,forall_eq_or_imp] at h
    exact h.1.bind (ih h.2)

theorem getUnits_accepts {unit : Get UInt8} {code : UInt8 → List Bool} {buf : List UInt8}
    (h : ∀ ch ∈ buf, Get.Accepts unit (code ch) ch) :
    Get.Accepts (getUnits unit buf.length) (buf.flatMap code) buf := by
  induction buf with
  | nil => exact .pure []
  | cons ch rest ih =>
    simp only [List.mem_cons,forall_eq_or_imp] at h
    exact h.1.bind ((ih h.2).bind_last (.pure _))

theorem ofBytes_eq_flatMap (buf : List UInt8) :
    ofBytes buf = buf.flatMap (fun ch => ofNat 8 ch.toNat) := by
  induction buf with
  | nil => rfl
  | cons b rest ih => simp [ofBytes,ih]

theorem putCharacters_emits {buf : List UInt8} (h : Spells pc bits buf) :
    Put.Emits (putCharacters pc bits buf) (buf.flatMap (charCode pc bits)) () := by
  obtain ⟨hbits,hcase⟩ := h
  unfold putCharacters
  by_cases hasIs : asIs (stringValues pc) bits = true
  · have hcode : charCode pc bits = fun ch => ofNat bits ch.toNat := by
      funext ch
      simp [charCode,hasIs]
    rw [if_pos hasIs] at hcase
    simp only [hcode,if_pos hasIs,putCopied,true_and]
    by_cases h8 : bits = 8
    · subst h8
      have hmany := @asnPutManyBits_emits buf (8*buf.length) (Nat.le_refl _)
      rw [List.take_of_length_le (by simp),ofBytes_eq_flatMap] at hmany
      simpa using hmany
    · rw [if_neg h8]
      refine putUnits_emits fun ch hch => ?_
      have hch' := hcase.resolve_left h8 ch hch
      unfold putPlain
      rw [if_neg (by omega)]
      simp only [Int.sub_zero,Int.toNat_natCast]
      exact asnPutFewBits_emits (by omega)
  · rw [if_neg hasIs] at hcase
    obtain ⟨hnot,into,back,hto,hback,hall⟩ := hcase
    simp only [if_neg hasIs,hto,if_neg hnot]
    refine (putUnits_emits fun ch hch => ?_).bind_last (.pure ())
    obtain ⟨code,_,hcode,_⟩ := hall ch hch
    simp only [putMapped,charCode,hasIs,hto,hcode,Option.bind_some,Option.getD_some]
    exact asnPutFewBits_emits (by omega)

theorem getCharacters_accepts {buf : List UInt8} (h : Spells pc bits buf) :
    Get.Accepts (getCharacters pc bits buf.length) (buf.flatMap (charCode pc bits)) buf := by
  obtain ⟨hbits,hcase⟩ := h
  unfold getCharacters
  by_cases hasIs : asIs (stringValues pc) bits = true
  · have hcode : charCode pc bits = fun ch => ofNat bits ch.toNat := by
      funext ch
      simp [charCode,hasIs]
    rw [if_pos hasIs] at hcase
    simp only [hcode,if_pos hasIs,getCopied,true_and]
    by_cases h8 : bits = 8
    · subst h8
      rw [if_pos rfl,← ofBytes_eq_flatMap]
      exact (asnGetManyBits_parses _).accepts (Parser.accepts_bytes buf)
    · rw [if_neg h8]
      refine getUnits_accepts fun ch hch => ?_
      have hch' := hcase.resolve_left h8 ch hch
      have hback : UInt8.ofNat (((ch.toNat : Int)+0) % 256).toNat = ch := by
        have hlt := ch.toNat_lt
        apply UInt8.toNat_inj.mp
        simp
        omega
      refine (getBits_accepts (by omega) hch'.2).bind_last ?_
      rw [if_neg (by omega),hback]
      exact .pure ch
  · rw [if_neg hasIs] at hcase
    obtain ⟨hnot,into,back,hto,hback,hall⟩ := hcase
    simp only [if_neg hasIs,hback,if_neg (show ¬ 16 < bits by omega)]
    refine getUnits_accepts fun ch hch => ?_
    obtain ⟨code,hlt,hcode,hch'⟩ := hall ch hch
    simp only [charCode,hasIs,hto,hcode,Option.bind_some,Option.getD_some]
    refine (getBits_accepts (by omega) hlt).bind_last ?_
    simp only [hch',UInt8.ofNat_toNat]
    exact .pure ch

theorem string_roundTrips {csiz : PerConstraint} {put : List UInt8 → Put Unit}
    {chunk : Nat → Get (List UInt8)} {code : UInt8 → List Bool} {buf : List UInt8}
    (hput : ∀ seg, seg ⊆ buf → Put.Emits (put seg) (seg.flatMap code) ())
    (hchunk : ∀ seg, seg ⊆ buf → Get.Accepts (chunk seg.length) (seg.flatMap code) seg)
    (hsound : csiz.SoundSize)
    (hin : 0 ≤ csiz.effectiveBits → csiz.lowerBound ≤ buf.length ∧ buf.length ≤ csiz.upperBound) :
    RoundTrips (putString csiz put buf) (getString csiz chunk) buf := by
  have hlower := hsound.lower
  have hbits := hsound.bits
  unfold putString getString
  by_cases heff : 0 ≤ csiz.effectiveBits
  · obtain ⟨hmin,hmax⟩ := hin heff
    have hfits := hsound.fits heff
    rw [if_pos heff]
    refine ⟨_,(asnPutFewBits_emits (by omega)).bind (hput buf (List.Subset.refl _)),?_⟩
    by_cases hzero : csiz.effectiveBits = 0
    · have hub : csiz.upperBound.toNat = buf.length := by
        rw [hzero] at hfits
        simp at hfits
        omega
      rw [if_pos hzero,hzero,hub]
      exact hchunk buf (List.Subset.refl _)
    · rw [if_neg hzero,if_pos ⟨heff,hbits⟩]
      obtain ⟨ebits,hebits⟩ := Int.eq_ofNat_of_zero_le heff
      have hlength := @uperGetLength_constrained ebits
        ((buf.length : Int)-csiz.lowerBound).toNat csiz.lowerBound.toNat (by omega) (by
          rw [hebits] at hfits
          simp only [Int.toNat_natCast] at hfits
          omega)
      have hsum : ((buf.length : Int)-csiz.lowerBound).toNat+csiz.lowerBound.toNat =
          buf.length := by omega
      rw [hsum] at hlength
      rw [hebits]
      exact hlength.bind (hchunk buf (List.Subset.refl _))
  · rw [if_neg heff,if_neg (by omega),if_neg (by omega)]
    have hall := @putFragments_emits _ (·.flatMap code) _ buf (fun offset n _ _ =>
      hput ((buf.drop offset).take n) fun ch hch =>
        List.mem_of_mem_drop (List.mem_of_mem_take hch)) _ 0 rfl
      (Nat.lt_succ_self _) (Nat.zero_le _)
    simp only [Nat.sub_zero,List.drop_zero] at hall
    exact ⟨_,hall,getFragments_accepts buf (fun seg hseg => hchunk seg hseg.subset) rfl⟩

theorem openSize_sound : openSize.SoundSize :=
  ⟨by decide,by decide,fun h => absurd h (by decide),fun h => absurd h (by decide)⟩

/-- A string of the alphabet is read back. Outside the root of its size, the characters
take eight bits. -/
theorem octetStringUper_roundTrips {buf : List UInt8} (hsound : (stringSize pc).SoundSize)
    (hallows : (stringSize pc).Allows buf.length)
    (hspells : ∀ inext, Spells pc (unitBits (stringValues pc) inext) buf) :
    ∃ consumed, RoundTrips (octetStringEncodeUper pc buf) (octetStringDecodeUper pc)
      (buf,consumed) := by
  -- the string with the size constraint that is left after the extension bit
  have hstring : ∀ (inext : Bool) (csiz : PerConstraint), csiz.SoundSize →
      (0 ≤ csiz.effectiveBits → csiz.lowerBound ≤ buf.length ∧ buf.length ≤ csiz.upperBound) →
      RoundTrips (putString csiz (putCharacters pc (unitBits (stringValues pc) inext)) buf)
        (getString csiz (getCharacters pc (unitBits (stringValues pc) inext))) buf :=
    fun inext csiz hsound hin => string_roundTrips
      (fun seg hseg => putCharacters_emits ((hspells inext).segment hseg))
      (fun seg hseg => getCharacters_accepts ((hspells inext).segment hseg)) hsound hin
  unfold octetStringDecodeUper octetStringEncodeUper
  by_cases hin : 0 ≤ (stringSize pc).effectiveBits ∧
      ((buf.length : Int) < (stringSize pc).lowerBound ∨ (stringSize pc).upperBound < buf.length)
  · have hext : (stringSize pc).extensible = true := by
      rcases hallows with hroot | hext | hopen
      · omega
      · exact hext
      · omega
    obtain ⟨bits,hput,hget⟩ := hstring true openSize openSize_sound (fun h => absurd h (by decide))
    refine ⟨stringConsumed openSize (unitBits (stringValues pc) true),
      rootBit (stringSize pc) true ++ bits,?_,?_⟩
    · simp only [decide_eq_true hin,if_pos hext,rootBit,if_true]
      exact (asnPutFewBits_emits (by decide)).bind hput
    · exact (getRoot_extension hext).bind (hget.bind_last (.pure _))
  · obtain ⟨bits,hput,hget⟩ := hstring false (stringSize pc) hsound (by omega)
    refine ⟨stringConsumed (stringSize pc) (unitBits (stringValues pc) false),
      rootBit (stringSize pc) false ++ bits,?_,?_⟩
    · simp only [decide_eq_false hin,rootBit,Bool.false_eq_true,if_false,Bool.toNat_false]
      by_cases hext : (stringSize pc).extensible = true
      · rw [if_pos hext,if_pos hext]
        exact (asnPutFewBits_emits (by decide)).bind hput
      · rw [if_neg hext,if_neg hext]
        exact hput
    · exact (getRoot_root _).bind (hget.bind_last (.pure _))

theorem octetString_codes {own constraints : Option PerConstraints} {buf : List UInt8}
    (hsound : (stringSize (chosen own constraints)).SoundSize)
    (hallows : (stringSize (chosen own constraints)).Allows buf.length)
    (hspells : ∀ inext, Spells (chosen own constraints)
      (unitBits (stringValues (chosen own constraints)) inext) buf) :
    (octetString own).Codes constraints (.octets buf) := by
  obtain ⟨consumed,bits,hemits,haccepts⟩ := octetStringUper_roundTrips hsound hallows hspells
  exact ⟨consumed,bits,hemits,haccepts.bind_last (.pure _)⟩

end Octets

end Mitvane.Per

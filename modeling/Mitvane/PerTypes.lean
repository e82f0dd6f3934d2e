import Mathlib.Data.List.Nodup
import Mitvane.PerInteger

set_option autoImplicit false

namespace Mitvane.Per
open PartialRun BitString

/-- What a decoder fills in and an encoder reads. A member that is a null pointer is
`none`. -/
inductive Value where
  | boolean (b : Bool)
  | native (v : Int)
  | integer (buf : List UInt8)
  | octets (buf : List UInt8)
  | bits (buf : List UInt8) (bitsUnused : Nat)
  | list (elements : List Value)
  | struct (members : List (Option Value))
  | choice (present : Nat) (member : Value)

/-- `asn_per_constraints_t`, with the tables of an alphabet. -/
structure PerConstraints where
  value : PerConstraint
  size : PerConstraint
  value2code : Option (Nat → Option Nat)
  code2value : Option (Nat → Option Nat)

/-- The operations of an `asn_TYPE_descriptor_t`. A decoder's result is the value and
`rv.consumed`. -/
structure TypeDescriptor where
  uperDecoder : Option PerConstraints → Get (Value × Nat)
  uperEncoder : Option PerConstraints → Value → Put Unit

namespace TypeDescriptor

/-- Decoding ends, without a fault, whatever the bits are, and what is accepted is such a
value. -/
def Yields (td : TypeDescriptor) (constraints : Option PerConstraints) (P : Value → Prop) : Prop :=
  Get.Ensures (td.uperDecoder constraints) (fun r => P r.1)

/-- What the encoder writes for the first value the decoder reads as the second. -/
def Carries (td : TypeDescriptor) (constraints : Option PerConstraints) (v w : Value) : Prop :=
  ∃ consumed, RoundTrips (td.uperEncoder constraints v) (td.uperDecoder constraints) (w,consumed)

def Codes (td : TypeDescriptor) (constraints : Option PerConstraints) (v : Value) : Prop :=
  td.Carries constraints v v

theorem Carries.unique {td : TypeDescriptor} {constraints : Option PerConstraints} {v w w' : Value}
    (h : td.Carries constraints v w) (h' : td.Carries constraints v w') : w = w' := by
  obtain ⟨consumed,code,hemits,haccepts⟩ := h
  obtain ⟨consumed',code',hemits',haccepts'⟩ := h'
  rw [hemits'.unique hemits,← List.append_nil code] at haccepts'
  exact congrArg Prod.fst (haccepts.unique haccepts')

end TypeDescriptor

/-- A descriptor's own constraints stand in where its user gives none. -/
def chosen (own constraints : Option PerConstraints) : Option PerConstraints := constraints.or own

def slot {α : Type} (table : List α) (i : Nat) : Except Fault (Option α) :=
  match table[i]? with
  | some a => .ok (some a)
  | none => .error .outOfBounds

theorem slot_eq {α : Type} {table : List α} {i : Nat} {a : α} (h : table[i]? = some a) :
    slot table i = .ok (some a) := by
  rw [slot,h]

theorem slot_ensures {α : Type} {table : List α} {i : Nat} (h : i < table.length) :
    Get.Ensures (Get.check (slot table i)) (fun a => table[i]? = some a) := by
  have ha := List.getElem?_eq_getElem h
  refine .check ⟨some table[i],slot_eq ha,?_⟩
  intro a hsome
  rw [← hsome,ha]

/-- A size constraint as the compiler writes it: with few enough bits, and none of its sizes
negative. -/
@[mk_iff]
structure PerConstraint.SoundSize (ct : PerConstraint) : Prop where
  lower : 0 ≤ ct.lowerBound
  bits : ct.effectiveBits ≤ 16
  order : 0 ≤ ct.effectiveBits → ct.lowerBound ≤ ct.upperBound
  fits : 0 ≤ ct.effectiveBits →
    (ct.upperBound-ct.lowerBound).toNat < 2^ct.effectiveBits.toNat

instance (ct : PerConstraint) : Decidable ct.SoundSize :=
  decidable_of_iff _ (PerConstraint.soundSize_iff ct).symm

/-- A number of elements that the bits of a size constraint can say. The upper bound plays no
part. -/
def PerConstraint.Counts (ct : PerConstraint) (n : Nat) : Prop :=
  ct.extensible = false → 0 ≤ ct.effectiveBits →
    ct.lowerBound ≤ n ∧ n < ct.lowerBound+2^ct.effectiveBits.toNat

def PerConstraint.Allows (ct : PerConstraint) (n : Nat) : Prop :=
  (ct.lowerBound ≤ n ∧ n ≤ ct.upperBound) ∨ ct.extensible = true ∨ ct.effectiveBits < 0

instance (ct : PerConstraint) (n : Nat) : Decidable (ct.Allows n) :=
  inferInstanceAs (Decidable (_ ∨ _))

def booleanDescriptor : TypeDescriptor where
  uperDecoder _ := do
    let bit ← getBits 1
    pure (.boolean (decide (bit = 1)),1)
  uperEncoder _ v :=
    match v with
    | .boolean st => asnPutFewBits st.toNat 1
    | _ => Put.fail

def nativeInteger (fieldUnsigned : Bool) (own : Option PerConstraints) : TypeDescriptor where
  uperDecoder constraints := do
    let native ← nativeIntegerDecodeUper fieldUnsigned ((chosen own constraints).map (·.value))
    pure (.native native,0)
  uperEncoder constraints v :=
    match v with
    | .native native =>
      nativeIntegerEncodeUper fieldUnsigned ((chosen own constraints).map (·.value)) native
    | _ => Put.fail

def integer (fieldUnsigned : Bool) (own : Option PerConstraints) : TypeDescriptor where
  uperDecoder constraints := do
    let st ← integerDecodeUper fieldUnsigned ((chosen own constraints).map (·.value))
    pure (.integer st,0)
  uperEncoder constraints v :=
    match v with
    | .integer st =>
      integerEncodeUper fieldUnsigned ((chosen own constraints).map (·.value)) st
    | _ => Put.fail

/-- The numbers of an enumeration in order, and where its extension starts: one more than
the index, or zero. -/
structure EnumSpecs where
  value2enum : List Int
  extension : Nat

namespace EnumSpecs

def rootCount (specs : EnumSpecs) : Nat :=
  if specs.extension ≠ 0 then specs.extension-1 else specs.value2enum.length

end EnumSpecs

def enumeratedIndex (specs : EnumSpecs) (ct : Option PerConstraint) : Get Nat :=
  match ct.filter (fun ct => decide (0 ≤ ct.rangeBits)) with
  | some ct => do
    let value ← getBits ct.rangeBits.toNat
    if specs.rootCount ≤ value then Get.fail else pure value
  | none =>
    if specs.extension = 0 then Get.fail
    else do
      let value ← uperGetNsnnwn
      let value := value+(specs.extension-1)
      if specs.value2enum.length ≤ value then Get.fail else pure value

def enumeratedPutIndex (specs : EnumSpecs) (ct : PerConstraint) (value : Nat) : Put Unit :=
  let inext := decide (0 ≤ ct.rangeBits) && decide (specs.rootCount ≤ value)
  let extended : Put Unit :=
    if specs.extension = 0 then Put.fail
    else uperPutNsnnwn (value-(if inext then ((specs.extension-1 : Nat) : Int) else 0))
  let root : Put Unit :=
    if 0 ≤ ct.rangeBits then asnPutFewBits value ct.rangeBits.toNat else extended
  if ct.extensible then do
    asnPutFewBits inext.toNat 1
    if inext then extended else root
  else if inext then Put.fail
  else root

def nativeEnumerated (specs : EnumSpecs) (own : Option PerConstraints) : TypeDescriptor where
  uperDecoder constraints :=
    match chosen own constraints with
    | none => Get.fail
    | some c => do
      let ct ← getRoot (some c.value)
      let value ← enumeratedIndex specs ct
      let native ← Get.check (slot specs.value2enum value)
      pure (.native native,0)
  uperEncoder constraints v :=
    match v with
    | .native native =>
      match chosen own constraints with
      | none => Put.fail
      | some c =>
        match specs.value2enum.findIdx? (· == native) with
        | none => Put.fail
        | some value => enumeratedPutIndex specs c.value value
    | _ => Put.fail

theorem booleanDescriptor_yields (constraints : Option PerConstraints) :
    booleanDescriptor.Yields constraints (fun v => ∃ b, v = .boolean b) :=
  (getBits_ensures 1).bind fun _ _ => .pure ⟨_,rfl⟩

theorem booleanDescriptor_codes (constraints : Option PerConstraints) (b : Bool) :
    booleanDescriptor.Codes constraints (.boolean b) := by
  refine ⟨1,ofNat 1 b.toNat,asnPutFewBits_emits (by decide),?_⟩
  refine (getBits_accepts (v := b.toNat) (by decide) (by cases b <;> decide)).bind_last ?_
  cases b with
  | false => exact .pure _
  | true => exact .pure _

/-- The constraints of a number in force are sound. -/
def NumbersSound (fieldUnsigned : Bool) (constraints : Option PerConstraints) : Prop :=
  ∀ c, constraints = some c → c.value.Sound fieldUnsigned

theorem NumbersSound.value {fieldUnsigned : Bool} {constraints : Option PerConstraints}
    (h : NumbersSound fieldUnsigned constraints) :
    ∀ c, constraints.map (·.value) = some c → c.Sound fieldUnsigned := by
  intro c hc
  cases constraints with
  | none => cases hc
  | some all =>
    cases hc
    exact h all rfl

theorem within_value {constraints : Option PerConstraints} {v : Int}
    (h : ∀ c, constraints = some c → c.value.Within v ∨ c.value.extensible = true) :
    ∀ c, constraints.map (·.value) = some c → c.Within v ∨ c.extensible = true := by
  intro c hc
  obtain ⟨all,hall,rfl⟩ := Option.map_eq_some_iff.mp hc
  exact h all hall

def ReadsNumber (fieldUnsigned : Bool) (constraints : Option PerConstraints) (v : Int) : Prop :=
  IsLong v ∧ ∀ c, constraints = some c → c.value.extensible = false → 0 ≤ c.value.rangeBits →
    c.value.Reads fieldUnsigned v

theorem nativeInteger_yields {fieldUnsigned : Bool} {own constraints : Option PerConstraints}
    (h : NumbersSound fieldUnsigned (chosen own constraints)) :
    (nativeInteger fieldUnsigned own).Yields constraints
      (fun v => ∃ n, v = .native n ∧ ReadsNumber fieldUnsigned (chosen own constraints) n) := by
  refine (nativeIntegerDecodeUper_ensures h.value).bind fun n hn => .pure ⟨n,rfl,hn.1,?_⟩
  intro c hc
  exact hn.2 c.value (by rw [hc]; rfl)

theorem integer_yields {fieldUnsigned : Bool} {own constraints : Option PerConstraints}
    (h : NumbersSound fieldUnsigned (chosen own constraints)) :
    (integer fieldUnsigned own).Yields constraints (fun v => ∃ st, v = .integer st ∧
      ∀ c, chosen own constraints = some c → c.value.extensible = false → 0 ≤ c.value.rangeBits →
        ∃ n, IsLong n ∧ c.value.Reads fieldUnsigned n ∧ st = asnImax2INTEGER n) := by
  refine (integerDecodeUper_ensures h.value).bind fun st hst => .pure ⟨st,rfl,?_⟩
  intro c hc
  exact hst c.value (by rw [hc]; rfl)

theorem nativeInteger_codes {fieldUnsigned : Bool} {own constraints : Option PerConstraints}
    (h : NumbersSound fieldUnsigned (chosen own constraints)) {v : Int} (hv : IsLong v)
    (hnonneg : fieldUnsigned = true → 0 ≤ v)
    (hin : ∀ c, chosen own constraints = some c → c.value.Within v ∨ c.value.extensible = true) :
    (nativeInteger fieldUnsigned own).Codes constraints (.native v) := by
  obtain ⟨bits,hemits,haccepts⟩ :=
    nativeInteger_roundTrips fieldUnsigned h.value hv hnonneg (within_value hin)
  refine ⟨0,bits,hemits,?_⟩
  exact haccepts.bind_last (.pure _)

theorem integer_carries {fieldUnsigned : Bool} {own constraints : Option PerConstraints}
    (h : NumbersSound fieldUnsigned (chosen own constraints)) {st : List UInt8}
    (hlen : 0 < st.length ∧ st.length ≤ 8) (hv : IsLong (signedOf st))
    (hnonneg : fieldUnsigned = true → 0 ≤ signedOf st)
    (hin : ∀ c, chosen own constraints = some c →
      (c.value.Within (signedOf st) ∨ c.value.extensible = true) ∧
        c.value.semiConstrained = false) :
    (integer fieldUnsigned own).Carries constraints (.integer st)
      (.integer (arrivingOctets ((chosen own constraints).map (·.value)) st)) := by
  obtain ⟨st',⟨bits,hemits,haccepts⟩,_,hsame⟩ := integerUper_roundTrips fieldUnsigned h.value hv
    hnonneg (within_value fun c hc => (hin c hc).1) rfl hlen.1 hlen.2
  have hplain : ∀ c, (chosen own constraints).map (·.value) = some c →
      c.semiConstrained = false := by
    intro c hc
    obtain ⟨all,hall,rfl⟩ := Option.map_eq_some_iff.mp hc
    exact (hin all hall).2
  rw [hsame hplain] at haccepts
  exact ⟨0,bits,hemits,haccepts.bind_last (.pure _)⟩

@[mk_iff]
structure EnumSpecs.Sound (specs : EnumSpecs) (ct : PerConstraint) : Prop where
  range : 0 ≤ ct.rangeBits ∧ ct.rangeBits ≤ 31
  root : specs.rootCount ≤ specs.value2enum.length
  fits : specs.rootCount ≤ 2^ct.rangeBits.toNat
  distinct : specs.value2enum.Nodup
  extended : ct.extensible = true ↔ specs.extension ≠ 0

instance (specs : EnumSpecs) (ct : PerConstraint) : Decidable (specs.Sound ct) :=
  decidable_of_iff _ (EnumSpecs.sound_iff specs ct).symm

theorem enumeratedIndex_ensures {specs : EnumSpecs} {ct : PerConstraint} (h : specs.Sound ct)
    {r : Option PerConstraint} (hr : r = some ct ∨ r = none) :
    Get.Ensures (enumeratedIndex specs r) (fun value => value < specs.value2enum.length) := by
  have hroot := h.root
  unfold enumeratedIndex
  rcases hr with hr | hr
  · subst hr
    rw [Option.filter_some,if_pos (by simpa using h.range.1)]
    refine (getBits_ensures _).bind fun value _ => ?_
    by_cases hout : specs.rootCount ≤ value
    · simp only [if_pos hout]
      exact .fail
    · simp only [if_neg hout]
      exact .pure (by omega)
  · subst hr
    rw [Option.filter_none]
    by_cases hext : specs.extension = 0
    · simp only [if_pos hext]
      exact .fail
    · simp only [if_neg hext]
      refine Get.Ensures.bind (P := fun _ => True) uperGetNsnnwn_ensures fun value _ => ?_
      by_cases hout : specs.value2enum.length ≤ value+(specs.extension-1)
      · rw [if_pos hout]
        exact .fail
      · rw [if_neg hout]
        exact .pure (by omega)

theorem nativeEnumerated_yields {specs : EnumSpecs} {own constraints : Option PerConstraints}
    (h : ∀ c, chosen own constraints = some c → specs.Sound c.value) :
    (nativeEnumerated specs own).Yields constraints
      (fun v => ∃ n ∈ specs.value2enum, v = .native n) := by
  unfold TypeDescriptor.Yields nativeEnumerated
  simp only
  cases hc : chosen own constraints with
  | none => exact .fail
  | some c =>
    refine (getRoot_ensures _).bind fun r hr => ?_
    have hr' : r = some c.value ∨ r = none := by
      rcases hr with hr | hr
      · exact .inl hr
      · exact .inr hr.1
    refine (enumeratedIndex_ensures (h c hc) hr').bind fun value hvalue => ?_
    exact (slot_ensures hvalue).bind fun native hmem => .pure ⟨native,List.mem_of_getElem? hmem,rfl⟩

theorem nativeEnumerated_codes {specs : EnumSpecs} {own constraints : Option PerConstraints}
    {c : PerConstraints} (hc : chosen own constraints = some c) (h : specs.Sound c.value)
    {native : Int} {value : Nat} (hvalue : specs.value2enum[value]? = some native)
    (hsmall : value < specs.rootCount+64) :
    (nativeEnumerated specs own).Codes constraints (.native native) := by
  obtain ⟨hlen,hget⟩ := List.getElem?_eq_some_iff.mp hvalue
  have hfound : specs.value2enum.findIdx? (· == native) = some value := by
    rw [List.findIdx?_eq_some_iff_getElem]
    refine ⟨hlen,by simpa using hget,?_⟩
    intro j hj
    simp only [beq_iff_eq]
    intro hsame
    have hindex := (List.Nodup.getElem_inj_iff h.distinct).mp (hsame.trans hget.symm)
    omega
  have hrest : ∀ {code : List Bool} {r : Option PerConstraint},
      Get.Accepts (enumeratedIndex specs r) code value →
      Get.Accepts (enumeratedIndex specs r >>= fun value =>
        Get.check (slot specs.value2enum value) >>= fun native =>
          pure (Value.native native,0)) code (.native native,0) := by
    intro code r hr
    exact hr.bind_last ((Get.Accepts.check (slot_eq hvalue)).bind (.pure _))
  obtain ⟨hbits,hbits31⟩ := h.range
  have hfits := h.fits
  unfold TypeDescriptor.Codes TypeDescriptor.Carries RoundTrips nativeEnumerated
  simp only [hc,hfound]
  by_cases hroot : value < specs.rootCount
  · have hin : (decide (0 ≤ c.value.rangeBits) && decide (specs.rootCount ≤ value)) = false := by
      simp [hroot]
    refine ⟨0,rootBit c.value false ++ ofNat c.value.rangeBits.toNat value,?_,?_⟩
    · unfold enumeratedPutIndex rootBit
      simp only [hin,if_pos hbits,Bool.toNat_false]
      by_cases hext : c.value.extensible = true
      · rw [if_pos hext,if_pos hext]
        exact (asnPutFewBits_emits (by decide)).bind (asnPutFewBits_emits (by omega))
      · rw [if_neg hext,if_neg hext]
        exact asnPutFewBits_emits (by omega)
    · refine (getRoot_root _).bind (hrest ?_)
      unfold enumeratedIndex
      rw [Option.filter_some,if_pos (by simpa using hbits)]
      refine (getBits_accepts (by omega) (by omega)).bind_last ?_
      rw [if_neg (by omega)]
      exact .pure _
  · have hin : (decide (0 ≤ c.value.rangeBits) && decide (specs.rootCount ≤ value)) = true := by
      simp [hbits]
      omega
    have hext : c.value.extensible = true := by
      rw [h.extended]
      intro hzero
      unfold EnumSpecs.rootCount at hroot
      rw [if_neg (not_not_intro hzero)] at hroot
      exact hroot hlen
    have hextension := h.extended.mp hext
    have hcount : specs.rootCount = specs.extension-1 := if_pos hextension
    have hoffset : (value : Int)-((specs.extension-1 : Nat) : Int) =
        ((value-(specs.extension-1) : Nat) : Int) := by omega
    refine ⟨0,rootBit c.value true ++ ofNat 7 (value-(specs.extension-1)),?_,?_⟩
    · unfold enumeratedPutIndex rootBit
      simp only [hin,if_pos hext,if_true,if_neg hextension,hoffset,Bool.toNat_true]
      exact (asnPutFewBits_emits (by decide)).bind (uperPutNsnnwn_small (by omega))
    · refine (getRoot_extension hext).bind (hrest ?_)
      unfold enumeratedIndex
      simp only [Option.filter_none,if_neg hextension]
      refine (uperGetNsnnwn_small (by omega)).bind_last ?_
      have hback : value-(specs.extension-1)+(specs.extension-1) = value := by omega
      rw [hback,if_neg (by omega)]
      exact .pure _

end Mitvane.Per

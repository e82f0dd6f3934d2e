import Mitvane.PerVersions
import Mitvane.PerBitString

set_option autoImplicit false

namespace Mitvane.Per
open PartialRun BitString

/-- An `asn_TYPE_member_t` but for its type: `ATF_POINTER`, the optional count, and what the
member has of its own. -/
structure FieldInfo where
  pointer : Bool
  optional : Bool
  constraints : Option PerConstraints
  defaultValueCmp : Option (Value → Bool)
  defaultValueSet : Option Value

mutual

/-- An `asn_TYPE_descriptor_t`: the operations it points to, and their arguments. -/
inductive Schema where
  | boolean
  | nativeInteger (fieldUnsigned : Bool) (own : Option PerConstraints)
  | integer (fieldUnsigned : Bool) (own : Option PerConstraints)
  | nativeEnumerated (specs : EnumSpecs) (own : Option PerConstraints)
  | octetString (own : Option PerConstraints)
  | bitString (own : Option PerConstraints)
  | sequenceOf (elm : Schema) (constraints own : Option PerConstraints)
  | choice (elements : Fields) (specs : ChoiceSpecs) (own : Option PerConstraints)
  | sequence (root : Fields) (extensible : Bool) (additions : Fields) (roms aoms : List Nat)

inductive Fields where
  | nil
  | cons (type : Schema) (info : FieldInfo) (rest : Fields)

end

mutual

/-- Memory filled with zeros: a pointer is null, and no alternative is chosen. -/
def Schema.zero : Schema → Value
  | .boolean => .boolean false
  | .nativeInteger _ _ => .native 0
  | .integer _ _ => .integer []
  | .nativeEnumerated _ _ => .native 0
  | .octetString _ => .octets []
  | .bitString _ => .bits [] 0
  | .sequenceOf _ _ _ => .list []
  | .choice _ _ _ => .choice 0 (.native 0)
  | .sequence root _ additions _ _ => .struct (root.zeros ++ additions.zeros)

def Fields.zeros : Fields → List (Option Value)
  | .nil => []
  | .cons type info rest => (if info.pointer then none else some type.zero) :: rest.zeros

end

mutual

def Schema.descriptor (stack : Tmpspace) : Schema → TypeDescriptor
  | .boolean => booleanDescriptor
  | .nativeInteger fieldUnsigned own => Per.nativeInteger fieldUnsigned own
  | .integer fieldUnsigned own => Per.integer fieldUnsigned own
  | .nativeEnumerated specs own => Per.nativeEnumerated specs own
  | .octetString own => Per.octetString own
  | .bitString own => Per.bitString own
  | .sequenceOf elm constraints own =>
    Per.sequenceOf ⟨elm.descriptor stack,constraints,false,none,none,none⟩ own
  | .choice elements specs own => choiceOf stack (elements.members stack) specs own
  | .sequence root extensible additions roms aoms =>
    Per.sequence stack ⟨root.members stack,
      if extensible then some (additions.members stack) else none,roms,aoms⟩

def Fields.members (stack : Tmpspace) : Fields → List Member
  | .nil => []
  | .cons type info rest =>
    ⟨type.descriptor stack,info.constraints,info.optional,
      if info.pointer then none else some type.zero,info.defaultValueCmp,info.defaultValueSet⟩ ::
      rest.members stack

end

def sequenceSpecs (stack : Tmpspace) (root : Fields) (extensible : Bool) (additions : Fields)
    (roms aoms : List Nat) : SequenceSpecs :=
  ⟨root.members stack,if extensible then some (additions.members stack) else none,roms,aoms⟩

namespace Fields

def length : Fields → Nat
  | .nil => 0
  | .cons _ _ rest => rest.length+1

def optionals : Fields → Nat → List Nat
  | .nil, _ => []
  | .cons _ info rest, edx =>
    if info.optional then edx :: rest.optionals (edx+1) else rest.optionals (edx+1)

@[simp] theorem length_members (stack : Tmpspace) :
    ∀ fields : Fields, (fields.members stack).length = fields.length
  | .nil => rfl
  | .cons _ _ rest => by simp [members,length,length_members stack rest]

theorem findIdxs_members (stack : Tmpspace) : ∀ (fields : Fields) (edx : Nat),
    (fields.members stack).findIdxs (·.optional) edx = fields.optionals edx
  | .nil, _ => rfl
  | .cons _ info rest, edx => by
    simp [members,optionals,List.findIdxs_cons,findIdxs_members stack rest]

end Fields

mutual

def Schema.sound : Schema → Option PerConstraints → Bool
  | .boolean, _ => true
  | .nativeInteger fieldUnsigned own, constraints =>
    (chosen own constraints).all fun c => decide (c.value.Sound fieldUnsigned)
  | .integer fieldUnsigned own, constraints =>
    (chosen own constraints).all fun c =>
      decide (c.value.Sound fieldUnsigned ∧ c.value.semiConstrained = false)
  | .nativeEnumerated specs own, constraints =>
    (chosen own constraints).any fun c => decide (specs.Sound c.value)
  | .octetString own, constraints => decide (stringSize (chosen own constraints)).SoundSize
  | .bitString own, constraints => decide (stringSize (chosen own constraints)).SoundSize
  | .sequenceOf elm constraints' own, constraints =>
    elm.sound constraints' && (chosen own constraints).all fun c => decide c.size.SoundSize
  | .choice elements specs own, constraints =>
    elements.sound false &&
      (chosen own constraints).any fun c => decide (specs.Sound elements.length c.value)
  | .sequence root extensible additions roms aoms, _ =>
    root.sound false && additions.sound true && decide (roms = root.optionals 0) &&
      decide (∀ edx ∈ aoms, edx < root.length+additions.length) &&
      (extensible || decide (additions.length = 0 ∧ aoms = []))

/-- What may be left out is behind a pointer, and what has a default may be left out. -/
def Fields.sound (added : Bool) : Fields → Bool
  | .nil => true
  | .cons type info rest =>
    type.sound info.constraints && ((!(added || info.optional) || info.pointer) &&
      (info.optional || info.defaultValueCmp.isNone)) && rest.sound added

end

mutual

/-- What a reader may take for a value of the type. -/
def Schema.WellFormed : Schema → Option PerConstraints → Value → Prop
  | .boolean, _, v => ∃ b, v = .boolean b
  | .nativeInteger fieldUnsigned own, constraints, v =>
    ∃ n, v = .native n ∧ ReadsNumber fieldUnsigned (chosen own constraints) n
  | .integer fieldUnsigned own, constraints, v =>
    ∃ st, v = .integer st ∧ ∀ c, chosen own constraints = some c → c.value.extensible = false →
      0 ≤ c.value.rangeBits →
        ∃ n, IsLong n ∧ c.value.Reads fieldUnsigned n ∧ st = asnImax2INTEGER n
  | .nativeEnumerated specs _, _, v => ∃ n ∈ specs.value2enum, v = .native n
  | .octetString own, constraints, v =>
    ∃ buf, v = .octets buf ∧ (stringSize (chosen own constraints)).Counts buf.length
  | .bitString own, constraints, v =>
    ∃ buf unused, v = .bits buf unused ∧
      ∃ n, HasBits n (buf,unused) ∧ (stringSize (chosen own constraints)).Counts n
  | .sequenceOf elm constraints' own, constraints, v =>
    ∃ elements, v = .list elements ∧ (∀ e ∈ elements, elm.WellFormed constraints' e) ∧
      ∀ c, chosen own constraints = some c → c.size.Counts elements.length
  | .choice elements _ _, _, v =>
    ∃ i < elements.length, ∃ w, v = .choice (i+1) w ∧ elements.WellFormedAt i w
  | .sequence root _ additions _ _, _, v =>
    ∃ members added, v = .struct (members ++ added) ∧ root.AllWellFormed false members ∧
      additions.AllWellFormed true added

def Fields.WellFormedAt : Fields → Nat → Value → Prop
  | .nil, _, _ => False
  | .cons type info _, 0, w => type.WellFormed info.constraints w
  | .cons _ _ rest, i+1, w => rest.WellFormedAt i w

/-- Each member has its value, or its default or none if it may be left out. -/
def Fields.AllWellFormed (added : Bool) : Fields → List (Option Value) → Prop
  | .nil, members => members = []
  | .cons type info rest, members => ∃ m more, members = m :: more ∧
    ((∃ v, m = some v ∧ type.WellFormed info.constraints v) ∨
      ((added || info.optional) = true ∧ (m = none ∨ m = info.defaultValueSet))) ∧
    rest.AllWellFormed added more

end

def Fields.expected (stack : Tmpspace) (added : Bool) : Fields → List Expected
  | .nil => []
  | .cons type info rest =>
    ⟨⟨type.descriptor stack,info.constraints,info.optional,
      if info.pointer then none else some type.zero,info.defaultValueCmp,info.defaultValueSet⟩,
      type.WellFormed info.constraints,!(added || info.optional)⟩ :: rest.expected stack added

namespace Fields

section Extensible
variable {stack : Tmpspace} {root additions : Fields} {extensible : Bool} {roms aoms : List Nat}

theorem getD_additions (h : (extensible || decide (additions.length = 0 ∧ aoms = [])) = true) :
    (sequenceSpecs stack root extensible additions roms aoms).additions.getD [] =
      additions.members stack := by
  cases extensible with
  | true => rfl
  | false =>
    have hlen := (of_decide_eq_true h).1
    rw [← length_members stack] at hlen
    rw [List.eq_nil_of_length_eq_zero hlen]
    rfl

theorem aoms_closed (h : (extensible || decide (additions.length = 0 ∧ aoms = [])) = true) :
    (sequenceSpecs stack root extensible additions roms aoms).additions = none → aoms = [] := by
  cases extensible with
  | true => exact fun hnone => nomatch hnone
  | false => exact fun _ => (of_decide_eq_true h).2

theorem aoms_bound (h : (extensible || decide (additions.length = 0 ∧ aoms = [])) = true)
    (haoms : ∀ edx ∈ aoms, edx < root.length+additions.length) :
    ∀ edx ∈ aoms,
      edx < (sequenceSpecs stack root extensible additions roms aoms).elements.length := by
  rw [SequenceSpecs.elements,getD_additions h,List.length_append,length_members]
  change ∀ edx ∈ aoms, edx < (root.members stack).length+additions.length
  rw [length_members]
  exact haoms

end Extensible

theorem expected_members (stack : Tmpspace) (added : Bool) : ∀ fields : Fields,
    (fields.expected stack added).map (·.member) = fields.members stack
  | .nil => rfl
  | .cons _ _ rest => by simp [expected,members,expected_members stack added rest]

theorem found_wellFormed {stack : Tmpspace} {added : Bool} : ∀ {fields : Fields},
    fields.sound added = true → ∀ {members : List (Option Value)},
    List.Forall₂ Expected.Found (fields.expected stack added) members →
    fields.AllWellFormed added members
  | .nil, _, _, h => by
    cases h
    rfl
  | .cons type info rest, hsound, members, h => by
    simp only [sound,Bool.and_eq_true] at hsound
    cases h with
    | @cons _ m _ more hm hmore =>
      refine ⟨m,more,rfl,?_,found_wellFormed hsound.2 hmore⟩
      rcases hm with hm | ⟨hrequired,hm⟩
      · exact .inl hm
      · have hfree : (added || info.optional) = true :=
          (Bool.not_eq_false_eq_eq_true _).mp hrequired
        have hpointer : info.pointer = true := by simpa [hfree] using hsound.1.2.1
        exact .inr ⟨hfree,by simpa [hpointer] using hm⟩

end Fields

mutual

theorem Schema.yields (stack : Tmpspace) : ∀ (schema : Schema) (constraints : Option PerConstraints),
    schema.sound constraints = true →
    (schema.descriptor stack).Yields constraints (schema.WellFormed constraints)
  | .boolean, constraints, _ => booleanDescriptor_yields constraints
  | .nativeInteger fieldUnsigned own, constraints, h => by
    rw [Schema.sound,Option.all_eq_true] at h
    exact nativeInteger_yields fun c hc => of_decide_eq_true (h c hc)
  | .integer fieldUnsigned own, constraints, h => by
    rw [Schema.sound,Option.all_eq_true] at h
    exact integer_yields fun c hc => (of_decide_eq_true (h c hc)).1
  | .nativeEnumerated specs own, constraints, h => by
    rw [Schema.sound,Option.any_eq_true] at h
    obtain ⟨c,hc,hsound⟩ := h
    refine nativeEnumerated_yields fun c' hc' => ?_
    rw [hc] at hc'
    cases hc'
    exact of_decide_eq_true hsound
  | .octetString own, constraints, h => by
    have hsound := of_decide_eq_true h
    refine (octetString_yields own constraints).mono fun r hr => ?_
    obtain ⟨buf,hv,hcounts⟩ := hr
    exact ⟨buf,hv,hcounts hsound⟩
  | .bitString own, constraints, h => by
    have hsound := of_decide_eq_true h
    refine (bitString_yields hsound.bits).mono fun r hr => ?_
    obtain ⟨buf,unused,hv,n,hbits,hcounts⟩ := hr
    exact ⟨buf,unused,hv,n,hbits,hcounts hsound⟩
  | .sequenceOf elm constraints' own, constraints, h => by
    rw [Schema.sound,Bool.and_eq_true,Option.all_eq_true] at h
    have helm := Schema.yields stack elm constraints' h.1
    have hread := @sequenceOf_yields ⟨elm.descriptor stack,constraints',false,none,none,none⟩ _ helm
      own constraints
    refine hread.mono fun r hr => ?_
    obtain ⟨elements,hv,hall,hcounts⟩ := hr
    exact ⟨elements,hv,hall,fun c hc => hcounts c hc (of_decide_eq_true (h.2 c hc)).lower⟩
  | .choice elements specs own, constraints, h => by
    rw [Schema.sound,Bool.and_eq_true,Option.any_eq_true] at h
    obtain ⟨helements,c,hc,hsound⟩ := h
    have hspecs := of_decide_eq_true hsound
    rw [← Fields.length_members stack] at hspecs
    have hread := @choiceOf_yields stack _ _ own constraints _ _ hc hspecs
      (Fields.yieldsAt stack elements helements)
    rw [Fields.length_members] at hread
    exact hread
  | .sequence root extensible additions roms aoms, constraints, h => by
    simp only [Schema.sound,Bool.and_eq_true] at h
    obtain ⟨⟨⟨⟨hroot,hadditions⟩,_⟩,haoms⟩,hclosed⟩ := h
    have hread := @sequence_yields stack (sequenceSpecs stack root extensible additions roms aoms)
      (root.expected stack false) (additions.expected stack true)
      (Fields.expected_members stack false root).symm
      ((Fields.getD_additions hclosed).trans (Fields.expected_members stack true additions).symm)
      (fun e he => ⟨(Fields.yields stack false root hroot e he).1,fun hopt =>
        (Fields.yields stack false root hroot e he).2 (.inl hopt)⟩)
      (fun e he => ⟨(Fields.yields stack true additions hadditions e he).1,
        (Fields.yields stack true additions hadditions e he).2 (.inr rfl)⟩)
      (Fields.aoms_bound hclosed (of_decide_eq_true haoms)) constraints
    refine hread.mono fun r hr => ?_
    obtain ⟨members,hv,hall⟩ := hr
    obtain ⟨front,back,rfl,hfront,hback⟩ := forall₂_append_left hall
    exact ⟨front,back,hv,Fields.found_wellFormed hroot hfront,
      Fields.found_wellFormed hadditions hback⟩

theorem Fields.yieldsAt (stack : Tmpspace) : ∀ (fields : Fields), fields.sound false = true →
    ∀ (i : Nat) (elm : Member), (fields.members stack)[i]? = some elm →
    elm.Yields (fields.WellFormedAt i)
  | .nil, _, i, elm, h => by simp [Fields.members] at h
  | .cons type info rest, hsound, 0, elm, h => by
    simp only [Fields.sound,Bool.and_eq_true] at hsound
    rw [Fields.members,List.getElem?_cons_zero] at h
    cases h
    exact Schema.yields stack type info.constraints hsound.1.1
  | .cons type info rest, hsound, i+1, elm, h => by
    simp only [Fields.sound,Bool.and_eq_true] at hsound
    rw [Fields.members,List.getElem?_cons_succ] at h
    exact Fields.yieldsAt stack rest hsound.2 i elm h

theorem Fields.yields (stack : Tmpspace) (added : Bool) : ∀ (fields : Fields),
    fields.sound added = true → ∀ e ∈ fields.expected stack added,
    e.member.Yields e.sort ∧ (e.member.optional = true ∨ added = true → e.required = false)
  | .nil, _, e, he => by simp [Fields.expected] at he
  | .cons type info rest, hsound, e, he => by
    simp only [Fields.sound,Bool.and_eq_true] at hsound
    rw [Fields.expected,List.mem_cons] at he
    rcases he with he | he
    · subst he
      refine ⟨Schema.yields stack type info.constraints hsound.1.1,?_⟩
      rintro (h | h) <;> simp_all
    · exact Fields.yields stack added rest hsound.2 e he

end

namespace Schema

/-- Whatever the bytes are, decoding a message ends without a fault, takes no more than there
is, and what it accepts is well formed. -/
theorem decoded_wellFormed (stack : Tmpspace) {schema : Schema} (h : schema.sound none = true)
    (buffer : List UInt8) :
    ∃ rval, uperDecodeComplete ((schema.descriptor stack).uperDecoder none) buffer = .ok rval ∧
      ∀ v consumed size, rval = some ((v,consumed),size) →
        schema.WellFormed none v ∧ size ≤ buffer.length := by
  obtain ⟨rval,hrun,hall⟩ := uperDecodeComplete_ensures (schema.yields stack none h) buffer
  exact ⟨rval,hrun,fun v consumed size hrval => hall (v,consumed) size hrval⟩

def flagsAndNumber : Schema :=
  .sequence
    (.cons (.sequenceOf .boolean none
        (some ⟨⟨false,false,false,-1,-1,0,0⟩,⟨false,true,false,2,2,0,3⟩,none,none⟩))
      ⟨false,false,none,none,none⟩
      (.cons (.nativeInteger false
          (some ⟨⟨false,true,false,8,8,0,255⟩,⟨false,false,false,-1,-1,0,0⟩,none,none⟩))
        ⟨true,true,none,none,none⟩ .nil))
    true (.cons .boolean ⟨true,true,none,none,none⟩ .nil) [1] []

theorem decoded_wellFormed_number :
    ∃ rval, uperDecodeComplete ((flagsAndNumber.descriptor zeroStack).uperDecoder none)
        [0x6C,0x28] = .ok rval ∧
      ∀ v consumed size, rval = some ((v,consumed),size) →
        flagsAndNumber.WellFormed none v ∧ size ≤ [(0x6C : UInt8),0x28].length :=
  decoded_wellFormed zeroStack (by decide) [0x6C,0x28]

end Schema

end Mitvane.Per

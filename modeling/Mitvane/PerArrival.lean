import Mitvane.PerSchema

set_option autoImplicit false

namespace Mitvane.Per
open PartialRun BitString

def numberInRange (fieldUnsigned : Bool) (constraints : Option PerConstraints) (n : Int) : Bool :=
  decide (IsLong n ∧ (fieldUnsigned = true → 0 ≤ n)) &&
    constraints.all fun c => decide (c.value.Within n ∨ c.value.extensible = true)

/-- An alternative of the root, or one of the first 64 after it. -/
def indexInRange (specs : ChoiceSpecs) (ct : PerConstraint) (place : Nat) : Bool :=
  match adjusted specs.toCanonicalOrder place with
  | .ok (some presentEnc) => decide (presentEnc ≤ ct.upperBound ∨
      (ct.extensible = true ∧ presentEnc ≤ ct.upperBound+64))
  | _ => false

mutual

/-- A value that keeps to the ranges of its type, with up to 200 elements in a list and 64
items in an extension. -/
def Schema.inRange : Schema → Option PerConstraints → Value → Bool
  | .boolean, _, v =>
    match v with
    | .boolean _ => true
    | _ => false
  | .nativeInteger fieldUnsigned own, constraints, v =>
    match v with
    | .native n => numberInRange fieldUnsigned (chosen own constraints) n
    | _ => false
  | .integer fieldUnsigned own, constraints, v =>
    match v with
    | .integer st => decide (0 < st.length ∧ st.length ≤ 8) &&
        numberInRange fieldUnsigned (chosen own constraints) (signedOf st)
    | _ => false
  | .nativeEnumerated specs _, _, v =>
    match v with
    | .native n => (specs.value2enum.findIdx? (· == n)).any fun value =>
        decide (value < specs.rootCount+64)
    | _ => false
  | .octetString own, constraints, v =>
    match v with
    | .octets buf => decide ((stringSize (chosen own constraints)).Allows buf.length ∧
        ∀ inext, Spells (chosen own constraints)
          (unitBits (stringValues (chosen own constraints)) inext) buf)
    | _ => false
  | .bitString own, constraints, v =>
    match v with
    | .bits buf unused => decide (bitsAllowed (stringSize (chosen own constraints)) buf unused)
    | _ => false
  | .sequenceOf elm constraints' own, constraints, v =>
    match v with
    | .list elements => elements.all (elm.inRange constraints') && decide (elements.length ≤ 200) &&
        (chosen own constraints).all fun c => decide (c.size.Allows elements.length)
    | _ => false
  | .choice elements specs own, constraints, v =>
    match v with
    | .choice (place+1) w => elements.inRangeAt place w &&
        (chosen own constraints).all fun c => indexInRange specs c.value place
    | _ => false
  | .sequence root _ additions _ _, _, v =>
    match v with
    | .struct members => root.allInRange false (members.take root.length) &&
        additions.allInRange true (members.drop root.length) &&
        (decide (additions.length ≤ 64) || (members.drop root.length).all (·.isNone))
    | _ => false

def Fields.inRangeAt : Fields → Nat → Value → Bool
  | .nil, _, _ => false
  | .cons type info _, 0, w => type.inRange info.constraints w
  | .cons _ _ rest, i+1, w => rest.inRangeAt i w

def Fields.allInRange (added : Bool) : Fields → List (Option Value) → Bool
  | .nil, members => members.isEmpty
  | .cons _ _ _, [] => false
  | .cons type info rest, m :: more =>
    (match m with
      | none => added || info.optional
      | some v => type.inRange info.constraints v) && rest.allInRange added more

end

def Fields.fillers : Fields → List (Option Value)
  | .nil => []
  | .cons _ info rest => (if info.pointer then info.defaultValueSet else none) :: rest.fillers

mutual

/-- What the reader gets: no zeros at the end of a string of bits but those of the least size,
the shortest octets of a number in a range, and the default in the place of a member that is
not there. -/
def Schema.arrives : Schema → Option PerConstraints → Value → Value
  | .boolean, _, v => v
  | .nativeInteger _ _, _, v => v
  | .integer _ own, constraints, v =>
    match v with
    | .integer st => .integer (arrivingOctets ((chosen own constraints).map (·.value)) st)
    | v => v
  | .nativeEnumerated _ _, _, v => v
  | .octetString _, _, v => v
  | .bitString own, constraints, v =>
    match v with
    | .bits buf _ => bitsValue (trimmed (leastSize (stringSize (chosen own constraints))) (ofBytes buf))
    | v => v
  | .sequenceOf elm constraints' _, _, v =>
    match v with
    | .list elements => .list (elements.map (elm.arrives constraints'))
    | v => v
  | .choice elements _ _, _, v =>
    match v with
    | .choice (place+1) w => .choice (place+1) (elements.arrivesAt place w)
    | v => v
  | .sequence root _ additions _ aoms, _, v =>
    match v with
    | .struct members => .struct (withDefaults (root.fillers ++ additions.fillers) aoms
        (root.allArrive false (members.take root.length) ++
          additions.allArrive true (members.drop root.length)))
    | v => v

def Fields.arrivesAt : Fields → Nat → Value → Value
  | .nil, _, w => w
  | .cons type info _, 0, w => type.arrives info.constraints w
  | .cons _ _ rest, i+1, w => rest.arrivesAt i w

def Fields.allArrive (added : Bool) : Fields → List (Option Value) → List (Option Value)
  | .nil, _ => []
  | .cons _ _ _, [] => []
  | .cons type info rest, m :: more =>
    (match m with
      | none => if added then none else info.defaultValueSet
      | some v =>
        if !added && info.defaultValueCmp.any (· v) then info.defaultValueSet
        else some (type.arrives info.constraints v)) :: rest.allArrive added more

end

def exactBits (csiz : PerConstraint) (buf : List UInt8) (unused : Nat) : Bool :=
  let bits := bitsOf buf unused
  decide (bits.length = leastSize csiz ∨ (leastSize csiz ≤ bits.length ∧ bits.getLast? = some true))

mutual

def Schema.exact : Schema → Option PerConstraints → Value → Bool
  | .boolean, _, _ => true
  | .nativeInteger _ _, _, _ => true
  | .integer _ _, _, v =>
    match v with
    | .integer st => decide (asnImax2INTEGER (signedOf st) = st)
    | _ => true
  | .nativeEnumerated _ _, _, _ => true
  | .octetString _, _, _ => true
  | .bitString own, constraints, v =>
    match v with
    | .bits buf unused => exactBits (stringSize (chosen own constraints)) buf unused
    | _ => true
  | .sequenceOf elm constraints' _, _, v =>
    match v with
    | .list elements => elements.all (elm.exact constraints')
    | _ => true
  | .choice elements _ _, _, v =>
    match v with
    | .choice (place+1) w => elements.exactAt place w
    | _ => true
  | .sequence root _ additions _ _, _, v =>
    match v with
    | .struct members => root.allExact false (members.take root.length) &&
        additions.allExact true (members.drop root.length)
    | _ => true

def Fields.exactAt : Fields → Nat → Value → Bool
  | .nil, _, _ => true
  | .cons type info _, 0, w => type.exact info.constraints w
  | .cons _ _ rest, i+1, w => rest.exactAt i w

/-- No member has its default, and none is left out that has one. -/
def Fields.allExact (added : Bool) : Fields → List (Option Value) → Bool
  | .nil, _ => true
  | .cons _ _ _, [] => true
  | .cons type info rest, m :: more =>
    (match m with
      | none => info.defaultValueSet.isNone
      | some v => !(!added && info.defaultValueCmp.any (· v)) && type.exact info.constraints v) &&
    rest.allExact added more

end

theorem numberInRange_spec {fieldUnsigned : Bool} {constraints : Option PerConstraints} {n : Int}
    (h : numberInRange fieldUnsigned constraints n = true) :
    IsLong n ∧ (fieldUnsigned = true → 0 ≤ n) ∧
      ∀ c, constraints = some c → c.value.Within n ∨ c.value.extensible = true := by
  rw [numberInRange,Bool.and_eq_true,Option.all_eq_true] at h
  obtain ⟨hlong,hin⟩ := h
  have hlong := of_decide_eq_true hlong
  exact ⟨hlong.1,hlong.2,fun c hc => of_decide_eq_true (hin c hc)⟩

theorem indexInRange_spec {specs : ChoiceSpecs} {ct : PerConstraint} {place : Nat}
    (h : indexInRange specs ct place = true) :
    ∃ presentEnc, adjusted specs.toCanonicalOrder place = .ok (some presentEnc) ∧
      (presentEnc ≤ ct.upperBound ∨ (ct.extensible = true ∧ presentEnc ≤ ct.upperBound+64)) := by
  unfold indexInRange at h
  split at h
  · rename_i presentEnc hplace
    exact ⟨presentEnc,hplace,of_decide_eq_true h⟩
  · cases h

theorem Fields.fillers_members (stack : Tmpspace) : ∀ fields : Fields,
    (fields.members stack).map Member.filler = fields.fillers
  | .nil => rfl
  | .cons type info rest => by
    rw [members,List.map_cons,fillers_members stack rest,fillers,Member.filler]
    cases info.pointer with
    | true => rfl
    | false => rfl

def Member.Arrives (added : Bool) (p : Member × Option Value) (m : Option Value) : Prop :=
  match added with
  | true => p.1.Keeps p.2 m
  | false => p.1.Receives p.2 m

namespace Fields
variable (stack : Tmpspace) (type : Schema) {info : FieldInfo} {added : Bool}

def member (info : FieldInfo) : Member :=
  ⟨type.descriptor stack,info.constraints,info.optional,
    if info.pointer then none else some type.zero,info.defaultValueCmp,info.defaultValueSet⟩

theorem absent_member (h : info.pointer = true) :
    (member stack type info).absent = info.defaultValueSet := by
  simp [member,Member.absent,h]

theorem arrives_none (hfree : (added || info.optional) = true) (hpointer : info.pointer = true) :
    Member.Arrives added (member stack type info,none)
      (if added then none else info.defaultValueSet) := by
  cases added with
  | true =>
    have hcleared : (member stack type info).cleared = none := if_pos hpointer
    have habsent := @Member.Keeps.absent (member stack type info)
    rw [hcleared] at habsent
    exact habsent
  | false =>
    have habsent := @Member.Receives.absent (member stack type info) none hfree rfl
    rw [absent_member stack type hpointer] at habsent
    exact habsent

theorem arrives_some {v w : Value} (hcarries : (member stack type info).Carries v w)
    (hoptional : info.defaultValueCmp ≠ none → info.optional = true ∧ info.pointer = true) :
    Member.Arrives added (member stack type info,some v)
      (if !added && info.defaultValueCmp.any (· v) then info.defaultValueSet else some w) := by
  cases added with
  | true => exact .sent hcarries
  | false =>
    have hdefault : (member stack type info).isDefault v = info.defaultValueCmp.any (· v) := by
      unfold Member.isDefault member
      cases info.defaultValueCmp with
      | none => rfl
      | some cmp => rfl
    cases hcmp : info.defaultValueCmp.any (· v) with
    | false => exact .sent (hdefault.trans hcmp) hcarries
    | true =>
      obtain ⟨hfree,hpointer⟩ := hoptional (by rintro hnone; rw [hnone] at hcmp; cases hcmp)
      have habsent := @Member.Receives.absent (member stack type info) (some v) hfree
        (by rw [Member.sends,hdefault,hcmp]; rfl)
      rw [absent_member stack type hpointer] at habsent
      exact habsent

end Fields

theorem announced_none {added : List (Member × Option Value)}
    (h : (added.map Prod.snd).all (·.isNone) = true) : announcedAdditions added = 0 := by
  refine if_pos (List.countP_eq_zero.mpr fun p hp => ?_)
  rw [List.all_map,List.all_eq_true] at h
  simpa using h p hp

mutual

theorem Schema.carries (stack : Tmpspace) : ∀ (schema : Schema) (constraints : Option PerConstraints),
    schema.sound constraints = true → ∀ v, schema.inRange constraints v = true →
    (schema.descriptor stack).Carries constraints v (schema.arrives constraints v)
  | .boolean, constraints, _, v, hv => by
    cases v with
    | boolean b => exact booleanDescriptor_codes constraints b
    | _ => cases hv
  | .nativeInteger fieldUnsigned own, constraints, h, v, hv => by
    rw [Schema.sound,Option.all_eq_true] at h
    cases v with
    | native n =>
      obtain ⟨hlong,hnonneg,hin⟩ := numberInRange_spec hv
      exact nativeInteger_codes (fun c hc => of_decide_eq_true (h c hc)) hlong hnonneg hin
    | _ => cases hv
  | .integer fieldUnsigned own, constraints, h, v, hv => by
    rw [Schema.sound,Option.all_eq_true] at h
    cases v with
    | integer st =>
      rw [Schema.inRange,Bool.and_eq_true] at hv
      obtain ⟨hlong,hnonneg,hin⟩ := numberInRange_spec hv.2
      exact integer_carries (fun c hc => (of_decide_eq_true (h c hc)).1) (of_decide_eq_true hv.1)
        hlong hnonneg fun c hc => ⟨hin c hc,(of_decide_eq_true (h c hc)).2⟩
    | _ => cases hv
  | .nativeEnumerated specs own, constraints, h, v, hv => by
    rw [Schema.sound,Option.any_eq_true] at h
    obtain ⟨c,hc,hsound⟩ := h
    cases v with
    | native n =>
      rw [Schema.inRange,Option.any_eq_true] at hv
      obtain ⟨value,hvalue,hsmall⟩ := hv
      obtain ⟨hlt,hn,_⟩ := List.findIdx?_eq_some_iff_getElem.mp hvalue
      have hentry : specs.value2enum[value]? = some n := by
        rw [List.getElem?_eq_getElem hlt,beq_iff_eq.mp hn]
      exact nativeEnumerated_codes hc (of_decide_eq_true hsound) hentry (of_decide_eq_true hsmall)
    | _ => cases hv
  | .octetString own, constraints, h, v, hv => by
    cases v with
    | octets buf =>
      obtain ⟨hallows,hspells⟩ := of_decide_eq_true hv
      exact octetString_codes (of_decide_eq_true h) hallows hspells
    | _ => cases hv
  | .bitString own, constraints, h, v, hv => by
    cases v with
    | bits buf unused => exact bitString_carries (of_decide_eq_true h) (of_decide_eq_true hv)
    | _ => cases hv
  | .sequenceOf elm constraints' own, constraints, h, v, hv => by
    rw [Schema.sound,Bool.and_eq_true,Option.all_eq_true] at h
    cases v with
    | list elements =>
      simp only [Schema.inRange,Bool.and_eq_true,List.all_eq_true,Option.all_eq_true] at hv
      obtain ⟨⟨helements,hlen⟩,hallows⟩ := hv
      have hall : List.Forall₂
          (⟨elm.descriptor stack,constraints',false,none,none,none⟩ : Member).Carries elements
          (elements.map (elm.arrives constraints')) := by
        rw [List.forall₂_map_right_iff,List.forall₂_same]
        exact fun e he => Schema.carries stack elm constraints' h.1 e (helements e he)
      exact sequenceOf_carries hall (of_decide_eq_true hlen)
        fun c hc => ⟨of_decide_eq_true (h.2 c hc),of_decide_eq_true (hallows c hc)⟩
    | _ => cases hv
  | .choice elements specs own, constraints, h, v, hv => by
    rw [Schema.sound,Bool.and_eq_true,Option.any_eq_true] at h
    obtain ⟨helements,c,hc,hsound⟩ := h
    have hspecs := of_decide_eq_true hsound
    rw [← Fields.length_members stack] at hspecs
    cases v with
    | choice present w =>
      cases present with
      | zero => cases hv
      | succ place =>
        rw [Schema.inRange,Bool.and_eq_true,Option.all_eq_true] at hv
        obtain ⟨presentEnc,hto,hsmall⟩ := indexInRange_spec (hv.2 c hc)
        obtain ⟨elm,helm,hcarries⟩ := Fields.carriesAt stack elements helements place w hv.1
        exact choiceOf_carries hc hspecs helm hto hsmall hcarries
    | _ => cases hv
  | .sequence root extensible additions roms aoms, constraints, h, v, hv => by
    simp only [Schema.sound,Bool.and_eq_true] at h
    obtain ⟨⟨⟨⟨hroot,hadditions⟩,hroms⟩,haoms⟩,hclosed⟩ := h
    cases v with
    | struct members =>
      simp only [Schema.inRange,Bool.and_eq_true,Bool.or_eq_true] at hv
      obtain ⟨⟨hfront,hback⟩,hlen⟩ := hv
      obtain ⟨front,hfront₁,hfront₂,hreceives⟩ := Fields.carries stack false root hroot _ hfront
      obtain ⟨back,hback₁,hback₂,hkeeps⟩ := Fields.carries stack true additions hadditions _ hback
      have hcount : back.length = additions.length := by
        rw [← Fields.length_members stack,← hback₁,List.length_map]
      have hadd : (sequenceSpecs stack root extensible additions roms aoms).additions.getD [] =
          back.map Prod.fst := (Fields.getD_additions hclosed).trans hback₁.symm
      have hread := @sequence_carries stack (sequenceSpecs stack root extensible additions roms aoms)
        front back _ _ ⟨hfront₁.symm,
          (of_decide_eq_true hroms).trans (Fields.findIdxs_members stack root 0).symm⟩ hadd
        (Fields.aoms_bound hclosed (of_decide_eq_true haoms)) hreceives hkeeps
        (fun hsome => by
          rcases hlen with hlen | hlen
          · rw [hcount]
            exact of_decide_eq_true hlen
          · rw [← hback₂] at hlen
            exact absurd (announced_none hlen) hsome)
        (Fields.aoms_closed hclosed) constraints
      have hfillers : (sequenceSpecs stack root extensible additions roms aoms).elements.map
          Member.filler = root.fillers ++ additions.fillers := by
        rw [SequenceSpecs.elements,Fields.getD_additions hclosed,List.map_append,
          Fields.fillers_members]
        congr 1
        exact Fields.fillers_members stack root
      rw [hfront₂,hback₂,List.take_append_drop,hfillers] at hread
      exact hread
    | _ => cases hv

theorem Fields.carriesAt (stack : Tmpspace) : ∀ (fields : Fields), fields.sound false = true →
    ∀ (i : Nat) (w : Value), fields.inRangeAt i w = true →
    ∃ elm, (fields.members stack)[i]? = some elm ∧ elm.Carries w (fields.arrivesAt i w)
  | .nil, _, i, w, hw => by simp [Fields.inRangeAt] at hw
  | .cons type info rest, hsound, 0, w, hw => by
    simp only [Fields.sound,Bool.and_eq_true] at hsound
    exact ⟨_,rfl,Schema.carries stack type info.constraints hsound.1.1 w hw⟩
  | .cons type info rest, hsound, i+1, w, hw => by
    simp only [Fields.sound,Bool.and_eq_true] at hsound
    exact Fields.carriesAt stack rest hsound.2 i w hw

theorem Fields.carries (stack : Tmpspace) (added : Bool) : ∀ (fields : Fields),
    fields.sound added = true → ∀ members, fields.allInRange added members = true →
    ∃ pairs : List (Member × Option Value), pairs.map Prod.fst = fields.members stack ∧
      pairs.map Prod.snd = members ∧
      List.Forall₂ (Member.Arrives added) pairs (fields.allArrive added members)
  | .nil, _, members, h => by
    rw [Fields.allInRange,List.isEmpty_iff] at h
    exact ⟨[],rfl,h.symm,.nil⟩
  | .cons _ _ _, _, [], h => by simp [Fields.allInRange] at h
  | .cons type info rest, hsound, m :: more, h => by
    simp only [Fields.sound,Fields.allInRange,Bool.and_eq_true] at hsound h
    obtain ⟨⟨htype,hpointer,hdefault⟩,hrest⟩ := hsound
    obtain ⟨pairs,hfst,hsnd,hall⟩ := Fields.carries stack added rest hrest more h.2
    refine ⟨(Fields.member stack type info,m) :: pairs,by rw [List.map_cons,hfst]; rfl,
      by rw [List.map_cons,hsnd],?_⟩
    cases m with
    | none =>
      refine .cons ?_ hall
      exact Fields.arrives_none stack type h.1 (by simpa [h.1] using hpointer)
    | some w =>
      refine .cons ?_ hall
      refine Fields.arrives_some stack type
        (Schema.carries stack type info.constraints htype w h.1) fun hcmp => ?_
      have hoptional : info.optional = true := by
        cases hnone : info.defaultValueCmp with
        | none => exact absurd hnone hcmp
        | some cmp => simpa [hnone] using hdefault
      exact ⟨hoptional,by simpa [hoptional] using hpointer⟩

end

theorem bitsAllowed_split {csiz : PerConstraint} {buf : List UInt8} {unused : Nat}
    (h : bitsAllowed csiz buf unused) :
    ofBytes buf = bitsOf buf unused ++ List.replicate unused false ∧
      bitsValue (bitsOf buf unused) = .bits buf unused := by
  unfold bitsOf
  obtain ⟨hunused,hsize,_⟩ := h
  obtain ⟨front,hsplit,hlen,_⟩ := sizeInBits_spec buf
  have hdrop : (ofBytes buf).drop (8*buf.length-unused) = List.replicate unused false := by
    rw [hsplit,List.drop_append,List.drop_eq_nil_of_le (by omega),List.nil_append,
      List.drop_replicate]
    congr 1
    omega
  have hall := List.take_append_drop (8*buf.length-unused) (ofBytes buf)
  rw [hdrop] at hall
  have hcount : ((ofBytes buf).take (8*buf.length-unused)).length = 8*buf.length-unused := by
    rw [List.length_take,length_ofBytes]
    omega
  refine ⟨hall.symm,?_⟩
  have hbytes := eq_toBytes_of_padding hall.symm (by omega)
  have hbits := bitsUnused_eq (8*buf.length-unused)
  generalize (ofBytes buf).take (8*buf.length-unused) = bits at hbytes hcount
  rw [bitsValue,ofBits,← hbytes,hcount,hbits]
  congr 1
  omega

theorem bitsValue_exact {csiz : PerConstraint} {buf : List UInt8} {unused : Nat}
    (h : bitsAllowed csiz buf unused) (hexact : exactBits csiz buf unused = true) :
    bitsValue (trimmed (leastSize csiz) (ofBytes buf)) = .bits buf unused := by
  obtain ⟨hsplit,hvalue⟩ := bitsAllowed_split h
  have hexact := of_decide_eq_true hexact
  generalize bitsOf buf unused = bits at hsplit hvalue hexact
  have hself : trimmed (leastSize csiz) bits = bits := by
    rcases hexact with hlen | ⟨hle,hlast⟩
    · exact (trimmed_eq_self (by omega)).mpr (.inl hlen)
    · exact (trimmed_eq_self hle).mpr
        (.inr ⟨_,(List.dropLast_append_getLast? true hlast).symm⟩)
  rw [hsplit,trimmed_zeros,hself,hvalue]

theorem withDefaults_self {fillers members : List (Option Value)}
    (h : List.Forall₂ (fun filler m => m = none → filler = none) fillers members)
    (aoms : List Nat) : withDefaults fillers aoms members = members := by
  induction aoms with
  | nil => rfl
  | cons edx rest ih =>
    cases hm : members[edx]? with
    | none =>
      rw [withDefaults,hm]
      exact ih
    | some m =>
      cases m with
      | some v => rw [withDefaults_some hm,ih]
      | none =>
        have hlt := (List.getElem?_eq_some_iff.mp hm).1
        have hfiller := List.getElem?_eq_getElem (l := fillers) (i := edx)
          (by rw [h.length_eq]; exact hlt)
        have hnone : fillers.getD edx none = none := by
          rw [List.getD_eq_getElem?_getD,hfiller]
          exact forall₂_get h hfiller hm rfl
        rw [withDefaults_none hm,hnone,set_self hm,ih]

theorem Fields.fillers_exact {added : Bool} : ∀ {fields : Fields} {members : List (Option Value)},
    fields.allInRange added members = true → fields.allExact added members = true →
    List.Forall₂ (fun filler m => m = none → filler = none) fields.fillers members
  | .nil, members, h, _ => by
    rw [allInRange,List.isEmpty_iff] at h
    rw [h]
    exact .nil
  | .cons _ _ _, [], h, _ => by simp [allInRange] at h
  | .cons _ info rest, m :: more, h, hexact => by
    simp only [allInRange,allExact,Bool.and_eq_true] at h hexact
    refine .cons ?_ (fillers_exact h.2 hexact.2)
    rintro rfl
    have hdefault := Option.isNone_iff_eq_none.mp hexact.1
    rw [hdefault]
    split
    · rfl
    · rfl

mutual

theorem Schema.arrives_exact : ∀ (schema : Schema) (constraints : Option PerConstraints) (v : Value),
    schema.inRange constraints v = true → schema.exact constraints v = true →
    schema.arrives constraints v = v
  | .boolean, _, _, _, _ => rfl
  | .nativeInteger _ _, _, _, _, _ => rfl
  | .integer _ own, constraints, v, hv, h => by
    cases v with
    | integer st =>
      have hsame := of_decide_eq_true h
      unfold Schema.arrives arrivingOctets
      simp only
      split
      · rfl
      · split
        · rw [hsame]
        · rfl
    | _ => rfl
  | .nativeEnumerated _ _, _, _, _, _ => rfl
  | .octetString _, _, _, _, _ => rfl
  | .bitString own, constraints, v, hv, h => by
    cases v with
    | bits buf unused => exact bitsValue_exact (of_decide_eq_true hv) h
    | _ => rfl
  | .sequenceOf elm constraints' own, constraints, v, hv, h => by
    cases v with
    | list elements =>
      simp only [Schema.inRange,Schema.exact,Bool.and_eq_true,List.all_eq_true] at hv h
      have hall : elements.map (elm.arrives constraints') = elements :=
        (List.map_congr_left fun e he =>
          Schema.arrives_exact elm constraints' e (hv.1.1 e he) (h e he)).trans (List.map_id' _)
      rw [Schema.arrives,hall]
    | _ => rfl
  | .choice elements specs own, constraints, v, hv, h => by
    cases v with
    | choice present w =>
      cases present with
      | zero => rfl
      | succ place =>
        rw [Schema.inRange,Bool.and_eq_true] at hv
        rw [Schema.arrives,Fields.arrivesAt_exact elements place w hv.1 h]
    | _ => rfl
  | .sequence root extensible additions roms aoms, constraints, v, hv, h => by
    cases v with
    | struct members =>
      simp only [Schema.inRange,Schema.exact,Bool.and_eq_true] at hv h
      have hfill : List.Forall₂ (fun filler m => m = none → filler = none)
          (root.fillers ++ additions.fillers) (members.take root.length ++ members.drop root.length) :=
        List.rel_append (Fields.fillers_exact hv.1.1 h.1) (Fields.fillers_exact hv.1.2 h.2)
      rw [Schema.arrives,Fields.allArrive_exact false root _ hv.1.1 h.1,
        Fields.allArrive_exact true additions _ hv.1.2 h.2,withDefaults_self hfill,
        List.take_append_drop]
    | _ => rfl

theorem Fields.arrivesAt_exact : ∀ (fields : Fields) (i : Nat) (w : Value),
    fields.inRangeAt i w = true → fields.exactAt i w = true → fields.arrivesAt i w = w
  | .nil, _, _, _, _ => rfl
  | .cons type info _, 0, w, hw, h => Schema.arrives_exact type info.constraints w hw h
  | .cons _ _ rest, i+1, w, hw, h => Fields.arrivesAt_exact rest i w hw h

theorem Fields.allArrive_exact (added : Bool) : ∀ (fields : Fields) (members : List (Option Value)),
    fields.allInRange added members = true → fields.allExact added members = true →
    fields.allArrive added members = members
  | .nil, members, h, _ => by
    rw [Fields.allInRange,List.isEmpty_iff] at h
    rw [h]
    rfl
  | .cons _ _ _, [], _, _ => rfl
  | .cons type info rest, m :: more, h, hexact => by
    simp only [Fields.allInRange,Fields.allExact,Bool.and_eq_true] at h hexact
    have hrest := Fields.allArrive_exact added rest more h.2 hexact.2
    cases m with
    | none =>
      have hdefault := Option.isNone_iff_eq_none.mp hexact.1
      simp [Fields.allArrive,hrest,hdefault]
    | some v =>
      rw [Bool.and_eq_true,Bool.not_eq_true'] at hexact
      have hsame := Schema.arrives_exact type info.constraints v h.1 hexact.1.2
      simp [Fields.allArrive,hrest,hexact.1.1,hsame]

end

theorem accepts_pos {α : Type} {uperDecoder : Get α} {bits : List Bool} {value : α}
    (h : Get.Accepts uperDecoder bits value) (hnothing : uperDecode uperDecoder [] 0 0 = .ok none) :
    0 < bits.length := by
  cases bits with
  | cons b bits => exact Nat.succ_pos _
  | nil =>
    have hv : (startOf [] 0 0).Valid := ⟨Nat.zero_le _,Nat.le_refl _⟩
    obtain ⟨pd,hrun,hv',hfollows,_⟩ := h (startOf [] 0 0) [] hv rfl
    rw [uperDecode_some (Nat.zero_le 7) (Nat.zero_le 7) (Nat.zero_le _) hrun hv' hfollows] at hnothing
    cases hnothing

/-- A message in its ranges is encoded, and it arrives, whatever follows it. -/
theorem Schema.message_roundTrips (stack : Tmpspace) {schema : Schema}
    (h : schema.sound none = true)
    (hnothing : uperDecode ((schema.descriptor stack).uperDecoder none) [] 0 0 = .ok none)
    {v : Value} (hv : schema.inRange none v = true) :
    ∃ bytes consumed, encodePer stack ((schema.descriptor stack).uperEncoder none v) =
        .ok (some bytes) ∧
      ∀ more, decodePer ((schema.descriptor stack).uperDecoder none) (bytes ++ more) =
        .ok (some (schema.arrives none v,consumed)) := by
  obtain ⟨consumed,bits,hemits,haccepts⟩ := schema.carries stack none h v hv
  exact ⟨_,consumed,encodePer_eq hemits stack,
    decodePer_accepts haccepts (accepts_pos haccepts hnothing)⟩

end Mitvane.Per

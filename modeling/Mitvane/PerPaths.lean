import Mitvane.PerArrival

set_option autoImplicit false

namespace Mitvane.Per

/-- The value at a path of member indices, and of `present` in a CHOICE. -/
def member : List Nat → Value → Option Value
  | [], v => some v
  | i :: path, .struct members =>
    match members[i]? with
    | some (some w) => member path w
    | _ => none
  | i :: path, .choice present w => if present = i then member path w else none
  | _ :: _, _ => none

theorem member_struct {i : Nat} {path : List Nat} {members : List (Option Value)} {w : Value}
    (h : members[i]? = some (some w)) : member (i :: path) (.struct members) = member path w := by
  rw [member,h]

theorem member_append (path more : List Nat) (v : Value) :
    member (path ++ more) v = (member path v).bind (member more) := by
  fun_induction member path v with
  | case1 v => rfl
  | case2 i path members w hw ih => rw [List.cons_append,member_struct hw,ih]
  | case3 i path members hw =>
    rw [List.cons_append,member]
    split
    · rename_i w hsome
      exact absurd hsome (hw w)
    · rfl
  | case4 i path w ih => rw [List.cons_append,member,if_pos rfl,ih]
  | case5 i path present w hne => rw [List.cons_append,member,if_neg hne,Option.bind_none]
  | case6 i path v hstruct hchoice =>
    rw [List.cons_append,member,Option.bind_none]
    · exact hstruct
    · exact hchoice

mutual

/-- The type at a path of members that have to be there, with the constraints it has there. -/
def Schema.typeAt : Schema → Option PerConstraints → List Nat →
    Option (Schema × Option PerConstraints)
  | type, constraints, [] => some (type,constraints)
  | .sequence root _ _ _ _, _, i :: path => root.typeAt i path
  | _, _, _ :: _ => none

def Fields.typeAt : Fields → Nat → List Nat → Option (Schema × Option PerConstraints)
  | .nil, _, _ => none
  | .cons type info _, 0, path =>
    if info.optional then none else type.typeAt info.constraints path
  | .cons _ _ rest, i+1, path => rest.typeAt i path

end

mutual

/-- What has to be there is there, and well formed. -/
theorem Schema.member_typeAt : ∀ (schema : Schema) (constraints : Option PerConstraints)
    (path : List Nat) (type : Schema) (own : Option PerConstraints) (v : Value),
    schema.typeAt constraints path = some (type,own) → schema.WellFormed constraints v →
    ∃ w, member path v = some w ∧ type.WellFormed own w
  | schema, constraints, [], type, own, v, hat, h => by
    rw [Schema.typeAt] at hat
    cases hat
    exact ⟨v,rfl,h⟩
  | .sequence root _ _ _ _, _, i :: path, type, own, v, hat, h => by
    obtain ⟨members,added,rfl,hmembers,_⟩ := h
    obtain ⟨m,hm,w,hw,hwell⟩ := Fields.member_typeAt root i path type own members hat hmembers
    refine ⟨w,?_,hwell⟩
    have hlt := (List.getElem?_eq_some_iff.mp hm).1
    rw [member_struct ((List.getElem?_append_left hlt).trans hm),hw]
  | .boolean, _, i :: path, _, _, _, hat, _ => by cases hat
  | .nativeInteger _ _, _, i :: path, _, _, _, hat, _ => by cases hat
  | .integer _ _, _, i :: path, _, _, _, hat, _ => by cases hat
  | .nativeEnumerated _ _, _, i :: path, _, _, _, hat, _ => by cases hat
  | .octetString _, _, i :: path, _, _, _, hat, _ => by cases hat
  | .bitString _, _, i :: path, _, _, _, hat, _ => by cases hat
  | .sequenceOf _ _ _, _, i :: path, _, _, _, hat, _ => by cases hat
  | .choice _ _ _, _, i :: path, _, _, _, hat, _ => by cases hat

theorem Fields.member_typeAt : ∀ (fields : Fields) (i : Nat) (path : List Nat) (type : Schema)
    (own : Option PerConstraints) (members : List (Option Value)),
    fields.typeAt i path = some (type,own) → fields.AllWellFormed false members →
    ∃ m, members[i]? = some (some m) ∧ ∃ w, member path m = some w ∧ type.WellFormed own w
  | .nil, _, _, _, _, _, hat, _ => by cases hat
  | .cons ty info rest, 0, path, type, own, members, hat, h => by
    obtain ⟨m,more,rfl,hm,_⟩ := h
    rw [Fields.typeAt] at hat
    split at hat
    · cases hat
    · rename_i hmandatory
      rcases hm with ⟨v,rfl,hv⟩ | ⟨hfree,_⟩
      · exact ⟨v,rfl,Schema.member_typeAt ty info.constraints path type own v hat hv⟩
      · exact absurd hfree hmandatory
  | .cons _ _ rest, i+1, path, type, own, members, hat, h => by
    obtain ⟨m,more,rfl,_,hmore⟩ := h
    exact Fields.member_typeAt rest i path type own more hat hmore

end

theorem withDefaults_get {fillers : List (Option Value)} {i : Nat} {m : Option Value}
    (hnone : m = none → fillers.getD i none = none) (aoms : List Nat)
    {members : List (Option Value)} (h : members[i]? = some m) :
    (withDefaults fillers aoms members)[i]? = some m := by
  induction aoms generalizing members with
  | nil => exact h
  | cons edx rest ih =>
    unfold withDefaults
    split
    · rename_i hedx
      refine ih ?_
      by_cases hsame : edx = i
      · subst hsame
        rw [hedx] at h
        cases h
        rw [hnone rfl,List.getElem?_set_self (List.getElem?_eq_some_iff.mp hedx).1]
      · rw [List.getElem?_set_ne hsame]
        exact h
    · exact ih h

mutual

theorem Schema.member_arrives : ∀ (schema : Schema) (constraints : Option PerConstraints)
    (path : List Nat) (type : Schema) (own : Option PerConstraints) (v : Value),
    schema.sound constraints = true → schema.typeAt constraints path = some (type,own) →
    schema.inRange constraints v = true →
    ∃ w, member path v = some w ∧ type.inRange own w = true ∧
      member path (schema.arrives constraints v) = some (type.arrives own w)
  | schema, constraints, [], type, own, v, _, hat, hv => by
    rw [Schema.typeAt] at hat
    cases hat
    exact ⟨v,rfl,hv,rfl⟩
  | .sequence root extensible additions roms aoms, constraints, i :: path, type, own, v, h, hat,
      hv => by
    simp only [Schema.sound,Bool.and_eq_true] at h
    cases v with
    | struct members =>
      simp only [Schema.inRange,Bool.and_eq_true] at hv
      obtain ⟨m,m',hm,hm',w,hw,hin,hw'⟩ :=
        Fields.member_arrives root i path type own _ h.1.1.1.1 hat hv.1.1
      refine ⟨w,?_,hin,?_⟩
      · rw [List.getElem?_take] at hm
        split at hm
        · rw [member_struct hm,hw]
        · cases hm
      · have hlt := (List.getElem?_eq_some_iff.mp hm').1
        rw [Schema.arrives,member_struct (withDefaults_get
          (fun hnone => absurd hnone (Option.some_ne_none m')) _
          ((List.getElem?_append_left hlt).trans hm')),hw']
    | _ => cases hv
  | .boolean, _, i :: path, _, _, _, _, hat, _ => by cases hat
  | .nativeInteger _ _, _, i :: path, _, _, _, _, hat, _ => by cases hat
  | .integer _ _, _, i :: path, _, _, _, _, hat, _ => by cases hat
  | .nativeEnumerated _ _, _, i :: path, _, _, _, _, hat, _ => by cases hat
  | .octetString _, _, i :: path, _, _, _, _, hat, _ => by cases hat
  | .bitString _, _, i :: path, _, _, _, _, hat, _ => by cases hat
  | .sequenceOf _ _ _, _, i :: path, _, _, _, _, hat, _ => by cases hat
  | .choice _ _ _, _, i :: path, _, _, _, _, hat, _ => by cases hat

theorem Fields.member_arrives : ∀ (fields : Fields) (i : Nat) (path : List Nat) (type : Schema)
    (own : Option PerConstraints) (members : List (Option Value)), fields.sound false = true →
    fields.typeAt i path = some (type,own) → fields.allInRange false members = true →
    ∃ m m', members[i]? = some (some m) ∧
      (fields.allArrive false members)[i]? = some (some m') ∧
      ∃ w, member path m = some w ∧ type.inRange own w = true ∧
        member path m' = some (type.arrives own w)
  | .nil, _, _, _, _, _, _, hat, _ => by cases hat
  | .cons _ _ _, _, _, _, _, [], _, _, hin => by simp [Fields.allInRange] at hin
  | .cons ty info rest, 0, path, type, own, m :: more, hsound, hat, hin => by
    simp only [Fields.sound,Fields.allInRange,Bool.and_eq_true] at hsound hin
    rw [Fields.typeAt] at hat
    split at hat
    · cases hat
    · rename_i hmandatory
      cases m with
      | none => exact absurd hin.1 hmandatory
      | some v =>
        have hcmp : info.defaultValueCmp = none := by simpa [hmandatory] using hsound.1.2.2
        obtain ⟨w,hw⟩ := Schema.member_arrives ty info.constraints path type own v hsound.1.1 hat
          hin.1
        exact ⟨v,ty.arrives info.constraints v,rfl,by simp [Fields.allArrive,hcmp],w,hw⟩
  | .cons _ _ rest, i+1, path, type, own, m :: more, hsound, hat, hin => by
    simp only [Fields.sound,Fields.allInRange,Bool.and_eq_true] at hsound hin
    obtain ⟨v,v',hv,hv',hw⟩ := Fields.member_arrives rest i path type own more hsound.2 hat hin.2
    exact ⟨v,v',hv,by rw [← hv']; rfl,hw⟩

end

namespace Fields

def fieldAt : Fields → Nat → Option (Schema × FieldInfo)
  | .nil, _ => none
  | .cons type info _, 0 => some (type,info)
  | .cons _ _ rest, i+1 => rest.fieldAt i

theorem member_fieldAt : ∀ (fields : Fields) (i : Nat) {type : Schema} {info : FieldInfo}
    {members : List (Option Value)}, fields.fieldAt i = some (type,info) →
    info.defaultValueSet = none → fields.AllWellFormed false members →
    ∃ m, members[i]? = some m ∧ ∀ w, m = some w → type.WellFormed info.constraints w
  | .nil, _, _, _, _, hi, _, _ => by cases hi
  | .cons _ _ _, 0, _, _, _, hi, hdefault, h => by
    cases hi
    obtain ⟨m,more,rfl,hm,_⟩ := h
    refine ⟨m,rfl,fun w hw => ?_⟩
    rcases hm with ⟨v,hv,hwell⟩ | ⟨_,habsent⟩
    · rw [hw] at hv
      cases hv
      exact hwell
    · rw [hdefault,or_self,hw] at habsent
      cases habsent
  | .cons _ _ rest, i+1, _, _, _, hi, hdefault, h => by
    obtain ⟨m,more,rfl,_,hmore⟩ := h
    exact rest.member_fieldAt i hi hdefault hmore

theorem fieldAt_fillers : ∀ (fields : Fields) (i : Nat) {type : Schema} {info : FieldInfo},
    fields.fieldAt i = some (type,info) → info.defaultValueSet = none →
    fields.fillers[i]? = some none
  | .nil, _, _, _, hi, _ => by cases hi
  | .cons _ _ _, 0, _, _, hi, hdefault => by
    cases hi
    simp [fillers,hdefault]
  | .cons _ _ rest, i+1, _, _, hi, hdefault => rest.fieldAt_fillers i hi hdefault

theorem fieldAt_arrives : ∀ (fields : Fields) (i : Nat) {type : Schema} {info : FieldInfo}
    {members : List (Option Value)}, fields.fieldAt i = some (type,info) →
    info.defaultValueSet = none → info.defaultValueCmp = none →
    fields.allInRange false members = true →
    ∃ m, members[i]? = some m ∧
      (fields.allArrive false members)[i]? = some (m.map (type.arrives info.constraints))
  | .nil, _, _, _, _, hi, _, _, _ => by cases hi
  | .cons _ _ _, _, _, _, [], _, _, _, h => by simp [allInRange] at h
  | .cons _ _ _, 0, _, _, m :: more, hi, hdefault, hcmp, _ => by
    cases hi
    refine ⟨m,rfl,?_⟩
    cases m with
    | none => simp [allArrive,hdefault]
    | some v => simp [allArrive,hcmp]
  | .cons _ _ rest, i+1, _, _, m :: more, hi, hdefault, hcmp, h => by
    simp only [allInRange,Bool.and_eq_true] at h
    exact rest.fieldAt_arrives i hi hdefault hcmp h.2

end Fields

theorem Schema.presence_arrives {root additions : Fields} {extensible : Bool}
    {roms aoms : List Nat} {constraints : Option PerConstraints} {i : Nat} {type : Schema}
    {info : FieldInfo} (hi : root.fieldAt i = some (type,info)) (hdefault : info.defaultValueSet = none)
    (hcmp : info.defaultValueCmp = none) {v : Value}
    (hv : (Schema.sequence root extensible additions roms aoms).inRange constraints v = true) :
    (member [i] ((Schema.sequence root extensible additions roms aoms).arrives constraints v)).isSome =
      (member [i] v).isSome := by
  cases v with
  | struct members =>
    simp only [Schema.inRange,Bool.and_eq_true] at hv
    obtain ⟨m,hm,hm'⟩ := root.fieldAt_arrives i hi hdefault hcmp hv.1.1
    have hfiller := root.fieldAt_fillers i hi hdefault
    rw [List.getElem?_take] at hm
    split at hm
    · have hempty : (root.fillers ++ additions.fillers).getD i none = none := by
        rw [List.getD_eq_getElem?_getD,List.getElem?_append_left
          (List.getElem?_eq_some_iff.mp hfiller).1,hfiller]
        rfl
      have hslot : (root.allArrive false (members.take root.length) ++
          additions.allArrive true (members.drop root.length))[i]? =
            some (m.map (type.arrives info.constraints)) :=
        (List.getElem?_append_left (List.getElem?_eq_some_iff.mp hm').1).trans hm'
      have harrived := withDefaults_get (fun _ => hempty) aoms hslot
      cases m with
      | none => simp [Schema.arrives,member,harrived,hm]
      | some w => simp [Schema.arrives,member,harrived,hm]
    · cases hm
  | _ => cases hv

/-- The least and the greatest number that a reader takes. -/
def numberRange (fieldUnsigned : Bool) (constraints : Option PerConstraints) :
    Option (Int × Int) :=
  constraints.bind fun c =>
    if c.value.extensible = true ∨ c.value.rangeBits < 0 then none
    else if fieldUnsigned then
      if longMax+1 < c.value.lowerBound+2^c.value.rangeBits.toNat then none
      else some (c.value.lowerBound,c.value.lowerBound+2^c.value.rangeBits.toNat-1)
    else some (c.value.lowerBound,c.value.upperBound)

theorem numberRange_spec {fieldUnsigned : Bool} {constraints : Option PerConstraints}
    {lower upper : Int} (h : numberRange fieldUnsigned constraints = some (lower,upper)) :
    ∃ c, constraints = some c ∧ c.value.extensible = false ∧ 0 ≤ c.value.rangeBits ∧
      ∀ n, c.value.Reads fieldUnsigned n → lower ≤ n ∧ n ≤ upper := by
  obtain ⟨c,hc,h⟩ := Option.bind_eq_some_iff.mp h
  split at h
  · cases h
  · rename_i hroot
    push Not at hroot
    refine ⟨c,hc,Bool.eq_false_iff.mpr hroot.1,hroot.2,fun n hn => ?_⟩
    unfold PerConstraint.Reads at hn
    cases fieldUnsigned with
    | false =>
      cases h
      exact hn
    | true =>
      rw [if_pos rfl] at h hn
      split at h
      · cases h
      · cases h
        have hin := hn (by omega)
        exact ⟨hin.1,by omega⟩

section Numbers
variable {schema : Schema} {constraints own given : Option PerConstraints} {path : List Nat}
  {fieldUnsigned : Bool} {lower upper : Int} {v : Value}

/-- A number at a path, from a range. -/
def NumberAt (v : Value) (path : List Nat) (lower upper : Int) : Prop :=
  ∃ n, member path v = some (.native n) ∧ lower ≤ n ∧ n ≤ upper

theorem numberAt_of_range (h : schema.WellFormed constraints v)
    (hat : schema.typeAt constraints path = some (.nativeInteger fieldUnsigned own,given))
    (hrange : numberRange fieldUnsigned (chosen own given) = some (lower,upper)) :
    NumberAt v path lower upper := by
  obtain ⟨w,hw,n,rfl,_,hreads⟩ := schema.member_typeAt constraints path _ _ v hat h
  obtain ⟨c,hc,hext,hbits,hin⟩ := numberRange_spec hrange
  exact ⟨n,hw,hin n (hreads c hc hext hbits)⟩

theorem integerAt_of_range (h : schema.WellFormed constraints v)
    (hat : schema.typeAt constraints path = some (.integer fieldUnsigned own,given))
    (hrange : numberRange fieldUnsigned (chosen own given) = some (lower,upper)) :
    ∃ st n, member path v = some (.integer st) ∧ asnINTEGER2long st = some n ∧
      lower ≤ n ∧ n ≤ upper := by
  obtain ⟨w,hw,st,rfl,hst⟩ := schema.member_typeAt constraints path _ _ v hat h
  obtain ⟨c,hc,hext,hbits,hin⟩ := numberRange_spec hrange
  obtain ⟨n,hlong,hn,rfl⟩ := hst c hc hext hbits
  exact ⟨_,n,hw,asnINTEGER2long_asnLong2INTEGER hlong,hin n hn⟩

end Numbers

def Schema.numeric : Schema → Bool
  | .nativeInteger _ _ => true
  | .nativeEnumerated _ _ => true
  | _ => false

theorem Schema.WellFormed.native {type : Schema} {constraints : Option PerConstraints} {v : Value}
    (h : type.WellFormed constraints v) (hnumeric : type.numeric = true) :
    ∃ n, v = .native n := by
  cases type with
  | nativeInteger fieldUnsigned own =>
    obtain ⟨n,hn,_⟩ := h
    exact ⟨n,hn⟩
  | nativeEnumerated specs own =>
    obtain ⟨n,_,hn⟩ := h
    exact ⟨n,hn⟩
  | _ => cases hnumeric

end Mitvane.Per

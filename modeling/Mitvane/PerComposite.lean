import Mitvane.PerTypes

set_option autoImplicit false

namespace Mitvane.Per
open PartialRun BitString

/-- A member of a structure: `asn_TYPE_member_t`. In a fresh structure its place is
`cleared`: a null pointer with `ATF_POINTER`, a value of zeros without. The comparison is
true of the default value. -/
structure Member where
  type : TypeDescriptor
  constraints : Option PerConstraints
  optional : Bool
  cleared : Option Value
  defaultValueCmp : Option (Value → Bool)
  defaultValueSet : Option Value

namespace Member

def decoder (elm : Member) : Get (Value × Nat) := elm.type.uperDecoder elm.constraints

def encoder (elm : Member) (v : Value) : Put Unit := elm.type.uperEncoder elm.constraints v

def Yields (elm : Member) (P : Value → Prop) : Prop := elm.type.Yields elm.constraints P

def Carries (elm : Member) (v w : Value) : Prop := elm.type.Carries elm.constraints v w

def Codes (elm : Member) (v : Value) : Prop := elm.type.Codes elm.constraints v

def Encodes (elm : Member) (v : Value) : Prop := ∃ bits, Put.Emits (elm.encoder v) bits ()

open Classical in
noncomputable def code (elm : Member) (v : Value) : List Bool :=
  if h : elm.Encodes v then h.choose else []

theorem Encodes.emits {elm : Member} {v : Value} (h : elm.Encodes v) :
    Put.Emits (elm.encoder v) (elm.code v) () := by
  rw [code,dif_pos h]
  exact h.choose_spec

theorem Carries.encodes {elm : Member} {v w : Value} (h : elm.Carries v w) : elm.Encodes v := by
  obtain ⟨consumed,bits,hemits,_⟩ := h
  exact ⟨bits,hemits⟩

theorem Codes.encodes {elm : Member} {v : Value} (h : elm.Codes v) : elm.Encodes v :=
  Carries.encodes h

theorem Carries.accepts {elm : Member} {v w : Value} (h : elm.Carries v w) :
    ∃ consumed, Get.Accepts elm.decoder (elm.code v) (w,consumed) := by
  have hemits := h.encodes.emits
  obtain ⟨consumed,bits,hemits',haccepts⟩ := h
  have hbits : bits = elm.code v := Put.Emits.unique hemits' hemits
  rw [hbits] at haccepts
  exact ⟨consumed,haccepts⟩

def flag (optional : Bool) : Member := ⟨booleanDescriptor,none,optional,none,none,none⟩

theorem flag_codes (optional b : Bool) : (flag optional).Codes (.boolean b) :=
  booleanDescriptor_codes none b

end Member

/-- Elements one after the other. Where an element takes no bits, there may be only so
many of them. -/
def getElements (elm : Member) (nelems : Nat) : Nat → Get (List Value)
  | 0 => pure []
  | n+1 => do
    let (v,consumed) ← elm.decoder
    if consumed = 0 ∧ 200 < nelems then Get.fail
    else do
      let rest ← getElements elm nelems n
      pure (v :: rest)

def putElements (elm : Member) : List Value → Put Unit
  | [] => pure ()
  | v :: rest => do
    elm.encoder v
    putElements elm rest

def setOfElements (elm : Member) (ct : Option PerConstraint) : Get (List Value) :=
  match ct.filter (fun ct => decide (0 ≤ ct.effectiveBits)) with
  | some ct => do
    let bits ← getBits ct.effectiveBits.toNat
    let nelems : Int := bits+ct.lowerBound
    if nelems < 0 then getFragments (fun n => getElements elm n n)
    else getElements elm nelems.toNat nelems.toNat
  | none => getFragments (fun n => getElements elm n n)

def putList (elm : Member) (ct : Option PerConstraint) (elements : List Value) : Put Unit :=
  match ct.filter (fun ct => decide (0 ≤ ct.effectiveBits)) with
  | some ct => do
    asnPutFewBits ((elements.length : Int)-ct.lowerBound).toNat ct.effectiveBits.toNat
    putElements elm elements
  | none =>
    if elements.length = 0 then do
      let _ ← uperPutLength 0
      pure ()
    else
      putFragments (fun offset mayEncode => putElements elm ((elements.drop offset).take mayEncode))
        (elements.length/16384+1) 0 elements.length

def sequenceOf (elm : Member) (own : Option PerConstraints) : TypeDescriptor where
  uperDecoder constraints := do
    let ct ← getRoot ((chosen own constraints).map (·.size))
    let elements ← setOfElements elm ct
    pure (.list elements,0)
  uperEncoder constraints v :=
    match v with
    | .list elements =>
      match (chosen own constraints).map (·.size) with
      | none => putList elm none elements
      | some ct =>
        let notInRoot := decide ((elements.length : Int) < ct.lowerBound ∨
          ct.upperBound < (elements.length : Int))
        if ct.extensible then do
          asnPutFewBits notInRoot.toNat 1
          putList elm (if notInRoot then none else some ct) elements
        else if notInRoot = true ∧ 0 ≤ ct.effectiveBits then Put.fail
        else putList elm (some ct) elements
    | _ => Put.fail

structure ChoiceSpecs where
  toCanonicalOrder : Option (List Nat)
  fromCanonicalOrder : Option (List Nat)
  extStart : Option Nat

def choiceIndex (count : Nat) (specs : ChoiceSpecs) (ct : Option PerConstraint) :
    Get (Nat × Bool) :=
  match ct.filter (fun ct => decide (0 ≤ ct.rangeBits)) with
  | some ct => do
    let value ← getBits ct.rangeBits.toNat
    if ct.upperBound < value then Get.fail else pure (value,true)
  | none =>
    match specs.extStart with
    | none => Get.fail
    | some extStart => do
      let value ← uperGetNsnnwn
      if count ≤ value+extStart then Get.fail else pure (value+extStart,false)

/-- Adjust if canonical order is different from natural order. -/
def adjusted (order : Option (List Nat)) (value : Nat) : Except Fault (Option Nat) :=
  match order with
  | none => .ok (some value)
  | some table => slot table value

def putAlternative (stack : Tmpspace) (specs : ChoiceSpecs) (ct : Option PerConstraint)
    (presentEnc : Nat) (elm : Member) (v : Value) : Put Unit :=
  match ct.filter (fun ct => decide (0 ≤ ct.rangeBits)) with
  | some ct => do
    asnPutFewBits presentEnc ct.rangeBits.toNat
    elm.encoder v
  | none =>
    match specs.extStart with
    | none => Put.fail
    | some extStart => do
      uperPutNsnnwn (presentEnc-(extStart : Int))
      uperOpenTypePut stack (elm.encoder v)

def choiceOf (stack : Tmpspace) (elements : List Member) (specs : ChoiceSpecs)
    (own : Option PerConstraints) : TypeDescriptor where
  uperDecoder constraints := do
    let ct ← getRoot ((chosen own constraints).map (·.value))
    let (value,root) ← choiceIndex elements.length specs ct
    let value ← Get.check (adjusted specs.fromCanonicalOrder value)
    let elm ← Get.check (slot elements value)
    let (v,consumed) ← if root then elm.decoder else uperOpenTypeGet elm.decoder
    pure (.choice (value+1) v,consumed)
  uperEncoder constraints v :=
    match v with
    | .choice present v =>
      if present = 0 ∨ elements.length < present then Put.fail
      else do
        let presentEnc ← Put.check (adjusted specs.toCanonicalOrder (present-1))
        let elm ← Put.check (slot elements (present-1))
        match (chosen own constraints).map (·.value) with
        | none => putAlternative stack specs none presentEnc elm v
        | some ct =>
          if 0 ≤ ct.rangeBits ∧
              ((presentEnc : Int) < ct.lowerBound ∨ ct.upperBound < (presentEnc : Int)) then
            if ct.extensible then do
              asnPutFewBits 1 1
              putAlternative stack specs none presentEnc elm v
            else Put.fail
          else if ct.extensible then do
            asnPutFewBits 0 1
            putAlternative stack specs (some ct) presentEnc elm v
          else putAlternative stack specs (some ct) presentEnc elm v
    | _ => Put.fail

section Reading
variable {elm : Member} {P : Value → Prop}

theorem getElements_ensures {R : Value × Nat → Prop} (h : Get.Ensures elm.decoder R)
    (nelems n : Nat) :
    Get.Ensures (getElements elm nelems n) (fun elements => elements.length = n ∧
      ∀ v ∈ elements, ∃ consumed, R (v,consumed) ∧ (200 < nelems → consumed ≠ 0)) := by
  induction n with
  | zero => exact .pure ⟨rfl,fun _ hv => nomatch hv⟩
  | succ n ih =>
    refine Get.Ensures.bind h fun r hr => ?_
    obtain ⟨v,consumed⟩ := r
    simp only
    split
    · exact .fail
    · rename_i hmoved
      refine ih.bind fun rest hrest => .pure ⟨by rw [List.length_cons,hrest.1],?_⟩
      exact List.forall_mem_cons.mpr ⟨⟨consumed,hr,fun hmany hzero => hmoved ⟨hzero,hmany⟩⟩,hrest.2⟩

theorem getElements_yields (h : elm.Yields P) (nelems n : Nat) :
    Get.Ensures (getElements elm nelems n)
      (fun elements => elements.length = n ∧ ∀ v ∈ elements, P v) :=
  (getElements_ensures h nelems n).mono fun _ hall => ⟨hall.1,fun v hv => by
    obtain ⟨_,hp,_⟩ := hall.2 v hv
    exact hp⟩

theorem getFragments_elements_ensures (h : elm.Yields P) :
    Get.Ensures (getFragments (fun n => getElements elm n n)) (fun elements => ∀ v ∈ elements, P v) :=
  getFragments_ensures (fun _ hv => nomatch hv)
    (fun _ _ hunits hrest => List.forall_mem_append.mpr ⟨hunits,hrest⟩)
    (fun n _ => (getElements_yields h n n).mono fun _ hall => hall.2)

theorem setOfElements_ensures (h : elm.Yields P) (ct : Option PerConstraint) :
    Get.Ensures (setOfElements elm ct) (fun elements => (∀ v ∈ elements, P v) ∧
      ∀ c, ct = some c → 0 ≤ c.lowerBound → c.Counts elements.length) := by
  unfold setOfElements
  cases hfilter : ct.filter (fun ct => decide (0 ≤ ct.effectiveBits)) with
  | none =>
    refine (getFragments_elements_ensures h).mono fun elements hall => ⟨hall,?_⟩
    rintro c rfl _ _ heff
    rw [Option.filter_some,if_pos (decide_eq_true heff)] at hfilter
    cases hfilter
  | some c =>
    obtain ⟨hct,_⟩ := Option.filter_eq_some_iff.mp hfilter
    refine (getBits_ensures _).bind fun bits hbits => ?_
    simp only
    split
    · refine (getFragments_elements_ensures h).mono fun elements hall => ⟨hall,?_⟩
      intro c' hc' hlower
      rw [hct] at hc'
      cases hc'
      omega
    · refine (getElements_yields h _ _).mono fun elements hall => ⟨hall.2,?_⟩
      intro c' hc' hlower _ _
      rw [hct] at hc'
      cases hc'
      have hpow : ((2^c.effectiveBits.toNat : Nat) : Int) = 2^c.effectiveBits.toNat := by
        exact_mod_cast rfl
      omega

/-- What is accepted as a list holds no more elements than the bits of its size can say. -/
theorem sequenceOf_yields (h : elm.Yields P) (own constraints : Option PerConstraints) :
    (sequenceOf elm own).Yields constraints (fun v => ∃ elements, v = .list elements ∧
      (∀ e ∈ elements, P e) ∧ ∀ c, chosen own constraints = some c → 0 ≤ c.size.lowerBound →
        c.size.Counts elements.length) := by
  refine (getRoot_ensures _).bind fun ct hct => ?_
  refine (setOfElements_ensures h ct).bind fun elements hall => .pure ⟨elements,rfl,hall.1,?_⟩
  intro c hc hlower hfixed
  rcases hct with hct | hct
  · exact hall.2 c.size (by rw [hct,hc]; rfl) hlower hfixed
  · have hext := hct.2 c.size (by rw [hc]; rfl)
    rw [hfixed] at hext
    cases hext

end Reading

section Elements
variable {elm : Member} {elements got : List Value}

theorem putElements_emits (h : ∀ v ∈ elements, elm.Encodes v) :
    Put.Emits (putElements elm elements) (elements.flatMap elm.code) () := by
  induction elements with
  | nil => exact .pure ()
  | cons v rest ih =>
    rw [List.flatMap_cons]
    exact (h v (by simp)).emits.bind (ih fun w hw => h w (List.mem_cons_of_mem v hw))

def Member.Reports (elm : Member) (w : Value) : Prop :=
  ∀ bits consumed, Get.Accepts elm.decoder bits (w,consumed) → consumed ≠ 0

theorem encodes_of_carries (h : List.Forall₂ elm.Carries elements got) :
    ∀ v ∈ elements, elm.Encodes v := by
  induction h with
  | nil => exact fun _ hv => nomatch hv
  | cons hfirst _ ih => exact List.forall_mem_cons.mpr ⟨hfirst.encodes,ih⟩

theorem getElements_accepts (h : List.Forall₂ elm.Carries elements got) {nelems : Nat}
    (hfew : nelems ≤ 200 ∨ ∀ w ∈ got, elm.Reports w) :
    Get.Accepts (getElements elm nelems elements.length) (elements.flatMap elm.code) got := by
  induction h with
  | nil => exact .pure []
  | @cons v w elements got hfirst _ ih =>
    obtain ⟨consumed,haccepts⟩ := hfirst.accepts
    have hrest := ih (hfew.imp_right fun hall w hw => hall w (List.mem_cons_of_mem _ hw))
    have hmoved : ¬ (consumed = 0 ∧ 200 < nelems) := by
      rintro ⟨hzero,hmany⟩
      rcases hfew with hfew | hall
      · omega
      · exact hall w (by simp) _ _ haccepts hzero
    rw [List.flatMap_cons]
    refine haccepts.bind ?_
    simp only
    rw [if_neg hmoved]
    exact hrest.bind_last (.pure _)

end Elements

theorem putList_fragments {elm : Member} {elements : List Value}
    (h : ∀ v ∈ elements, elm.Encodes v) {ct : Option PerConstraint}
    (hct : ct.filter (fun ct => decide (0 ≤ ct.effectiveBits)) = none) :
    Put.Emits (putList elm ct elements)
      (fragmentsCode (·.flatMap elm.code) (elements.length/16384+1) elements) () := by
  unfold putList
  rw [hct]
  have hput : ∀ offset n, offset % 16384 = 0 → offset+n ≤ elements.length →
      Put.Emits (putElements elm ((elements.drop offset).take n))
        (((elements.drop offset).take n).flatMap elm.code) () := fun offset n _ _ =>
    putElements_emits fun v hv => h v (List.mem_of_mem_drop (List.mem_of_mem_take hv))
  have hall := @putFragments_emits _ (·.flatMap elm.code) _ elements hput _ 0 rfl
    (Nat.lt_succ_self _) (Nat.zero_le _)
  simp only [Nat.sub_zero,List.drop_zero] at hall
  by_cases hzero : elements.length = 0
  · have hnil := List.eq_nil_of_length_eq_zero hzero
    subst hnil
    simp only [if_pos hzero]
    have hempty := (uperPutLength_emits 0).bind (f := fun _ => pure ()) (.pure ())
    rw [List.append_nil] at hempty
    exact hempty
  · simp only [if_neg hzero]
    exact hall

theorem fixedSize_filter {ct : PerConstraint} (h : 0 ≤ ct.effectiveBits) :
    (some ct).filter (fun ct => decide (0 ≤ ct.effectiveBits)) = some ct := by
  rw [Option.filter_some,if_pos (decide_eq_true h)]

theorem openSize_filter {ct : PerConstraint} (h : ct.effectiveBits < 0) :
    (some ct).filter (fun ct => decide (0 ≤ ct.effectiveBits)) = none := by
  rw [Option.filter_some,if_neg (by rw [decide_eq_true_eq]; omega)]

section Lists
variable {elm : Member} {elements got : List Value} {ct : PerConstraint}

theorem setOfElements_accepts (h : List.Forall₂ elm.Carries elements got)
    (hfew : elements.length ≤ 200 ∨ ∀ w ∈ got, elm.Reports w)
    (hbits : 0 ≤ ct.effectiveBits ∧ ct.effectiveBits ≤ 31) (hmin : ct.lowerBound ≤ elements.length)
    (hfits : ((elements.length : Int)-ct.lowerBound).toNat < 2^ct.effectiveBits.toNat) :
    Get.Accepts (setOfElements elm (some ct))
      (ofNat ct.effectiveBits.toNat ((elements.length : Int)-ct.lowerBound).toNat ++
        elements.flatMap elm.code) got := by
  unfold setOfElements
  rw [fixedSize_filter hbits.1]
  refine (getBits_accepts (by omega) hfits).bind ?_
  have hcount : (((elements.length : Int)-ct.lowerBound).toNat : Int)+ct.lowerBound =
      elements.length := by omega
  simp only [hcount]
  rw [if_neg (by omega),Int.toNat_natCast]
  exact getElements_accepts h hfew

theorem setOfElements_open (h : List.Forall₂ elm.Carries elements got)
    (hlen : elements.length ≤ 200) {r : Option PerConstraint}
    (hr : r.filter (fun ct => decide (0 ≤ ct.effectiveBits)) = none) :
    Get.Accepts (setOfElements elm r)
      (fragmentsCode (·.flatMap elm.code) (elements.length/16384+1) elements) got := by
  unfold setOfElements
  rw [hr,fragmentsCode_short (by omega)]
  exact getFragments_short (by omega) (getElements_accepts h (.inl hlen))

theorem rootList_roundTrips (h : List.Forall₂ elm.Carries elements got)
    (hlen : elements.length ≤ 200) (hsound : ct.SoundSize)
    (hin : ct.lowerBound ≤ elements.length ∧ elements.length ≤ ct.upperBound) :
    RoundTrips (putList elm (some ct) elements) (setOfElements elm (some ct)) got := by
  have hlower := hsound.lower
  have hencodes := encodes_of_carries h
  by_cases heff : 0 ≤ ct.effectiveBits
  · have hfits := hsound.fits heff
    have hbits := hsound.bits
    refine ⟨_,?_,setOfElements_accepts h (.inl hlen) ⟨heff,by omega⟩ hin.1 (by omega)⟩
    unfold putList
    rw [fixedSize_filter heff]
    exact (asnPutFewBits_emits (by omega)).bind (putElements_emits hencodes)
  · have hfilter := openSize_filter (show ct.effectiveBits < 0 by omega)
    exact ⟨_,putList_fragments hencodes hfilter,setOfElements_open h hlen hfilter⟩

theorem getRoot_elements {r : Option PerConstraint} {bit bits : List Bool}
    {own : Option PerConstraint} (hroot : Get.Accepts (getRoot own) bit r)
    (hread : Get.Accepts (setOfElements elm r) bits got) :
    Get.Accepts (getRoot own >>= fun ct => setOfElements elm ct >>= fun elements =>
      pure (Value.list elements,0)) (bit ++ bits) (.list got,0) :=
  hroot.bind (hread.bind_last (.pure _))

theorem sequenceOf_carries {own constraints : Option PerConstraints}
    (h : List.Forall₂ elm.Carries elements got) (hlen : elements.length ≤ 200)
    (hct : ∀ c, chosen own constraints = some c → c.size.SoundSize ∧ c.size.Allows elements.length) :
    (sequenceOf elm own).Carries constraints (.list elements) (.list got) := by
  have hencodes := encodes_of_carries h
  refine ⟨0,?_⟩
  unfold RoundTrips sequenceOf
  simp only
  cases hc : (chosen own constraints).map (·.size) with
  | none =>
    have hroot : Get.Accepts (getRoot none) [] none := .pure none
    have hread := getRoot_elements hroot (setOfElements_open h hlen rfl)
    exact ⟨_,putList_fragments hencodes rfl,hread⟩
  | some ct =>
    obtain ⟨all,hall,hsize⟩ := Option.map_eq_some_iff.mp hc
    have hboth := hct all hall
    rw [hsize] at hboth
    obtain ⟨hsound,hallows⟩ := hboth
    simp only
    by_cases hin : ct.lowerBound ≤ elements.length ∧ elements.length ≤ ct.upperBound
    · have hnot : decide ((elements.length : Int) < ct.lowerBound ∨
          ct.upperBound < elements.length) = false := decide_eq_false (by omega)
      obtain ⟨bits,hput,hget⟩ := rootList_roundTrips h hlen hsound hin
      refine ⟨rootBit ct false ++ bits,?_,
        getRoot_elements (getRoot_root _) hget⟩
      rw [hnot]
      unfold rootBit
      by_cases hext : ct.extensible = true
      · rw [if_pos hext,if_pos hext]
        exact (asnPutFewBits_emits (by decide)).bind hput
      · rw [if_neg hext,if_neg hext,if_neg (fun hbad => nomatch hbad.1)]
        exact hput
    · have hnot : decide ((elements.length : Int) < ct.lowerBound ∨
          ct.upperBound < elements.length) = true := decide_eq_true (by omega)
      rw [hnot]
      by_cases hext : ct.extensible = true
      · refine ⟨rootBit ct true ++ _,?_,getRoot_elements (getRoot_extension hext)
          (setOfElements_open h hlen rfl)⟩
        unfold rootBit
        rw [if_pos hext,if_pos hext]
        exact (asnPutFewBits_emits (by decide)).bind (putList_fragments hencodes rfl)
      · have heff : ct.effectiveBits < 0 := by
          rcases hallows with h1 | h1 | h1
          · exact absurd h1 hin
          · exact absurd h1 hext
          · exact h1
        have hfilter := openSize_filter heff
        refine ⟨rootBit ct false ++ _,?_,
          getRoot_elements (getRoot_root _) (setOfElements_open h hlen hfilter)⟩
        unfold rootBit
        rw [if_neg hext,if_neg hext,if_neg (by omega)]
        exact putList_fragments hencodes hfilter

theorem carries_self (h : ∀ v ∈ elements, elm.Codes v) :
    List.Forall₂ elm.Carries elements elements := by
  induction elements with
  | nil => exact .nil
  | cons v rest ih => exact .cons (h v (by simp)) (ih fun w hw => h w (List.mem_cons_of_mem v hw))

theorem Member.reports_of_ensures {consumed : Value → Nat}
    (h : Get.Ensures elm.decoder (fun r => r.2 = consumed r.1)) {w : Value} (hw : consumed w ≠ 0) :
    elm.Reports w := by
  intro bits taken haccepts
  have htaken : taken = consumed w := h.of_accepts haccepts
  rw [htaken]
  exact hw

/-- What a list of fixed size holds that was read: no more than the bits of its size say, and
no more than 200 elements that take no bits. -/
theorem sequenceOf_reported {own constraints : Option PerConstraints} {c : PerConstraints}
    (hc : chosen own constraints = some c) (hlower : 0 ≤ c.size.lowerBound)
    (hfixed : c.size.extensible = false ∧ 0 ≤ c.size.effectiveBits) {consumed : Value → Nat}
    (hreported : Get.Ensures elm.decoder (fun r => r.2 = consumed r.1)) :
    (sequenceOf elm own).Yields constraints (fun v => ∀ elements, v = .list elements →
      (elements.length : Int) < c.size.lowerBound+2^c.size.effectiveBits.toNat ∧
        (elements.length ≤ 200 ∨ ∀ v ∈ elements, consumed v ≠ 0)) := by
  obtain ⟨hclosed,heff⟩ := hfixed
  refine (getRoot_ensures _).bind fun ct hct => ?_
  have hroot : ct = some c.size := by
    rw [hc,Option.map_some] at hct
    rcases hct with hct | hct
    · exact hct
    · rw [hct.2 c.size rfl] at hclosed
      cases hclosed
  subst hroot
  unfold setOfElements
  rw [fixedSize_filter heff]
  refine Get.Ensures.bind (P := fun elements => (elements.length : Int) <
    c.size.lowerBound+2^c.size.effectiveBits.toNat ∧
      (elements.length ≤ 200 ∨ ∀ v ∈ elements, consumed v ≠ 0)) ?_ ?_
  · refine (getBits_ensures _).bind fun bits hbits => ?_
    simp only
    rw [if_neg (by omega)]
    refine (getElements_ensures hreported _ _).mono fun elements hall => ?_
    obtain ⟨hlen,hall⟩ := hall
    have hpow : ((2^c.size.effectiveBits.toNat : Nat) : Int) = 2^c.size.effectiveBits.toNat := by
      exact_mod_cast rfl
    refine ⟨by omega,?_⟩
    by_cases hfew : elements.length ≤ 200
    · exact .inl hfew
    · refine .inr fun v hv => ?_
      obtain ⟨taken,htaken,hmoved⟩ := hall v hv
      rw [← htaken]
      exact hmoved (by omega)
  · intro elements hall
    refine .pure fun elements' heq => ?_
    cases heq
    exact hall

/-- A list above the upper bound of its size is not encoded, but it is decoded as long as the
bits of the size can say its length, and, of more than 200 elements, as long as each is said
to take bits. -/
theorem oversized_list_accepted {own constraints : Option PerConstraints} {c : PerConstraints}
    (hc : chosen own constraints = some c) (hsound : c.size.SoundSize)
    (hfixed : c.size.extensible = false ∧ 0 ≤ c.size.effectiveBits) {consumed : Value → Nat}
    (hreported : Get.Ensures elm.decoder (fun r => r.2 = consumed r.1))
    (h : ∀ v ∈ elements, elm.Codes v) (hover : c.size.upperBound < elements.length)
    (stack : Tmpspace) :
    encodePer stack ((sequenceOf elm own).uperEncoder constraints (.list elements)) = .ok none ∧
    ((∃ bytes, decodePer ((sequenceOf elm own).uperDecoder constraints) bytes =
        .ok (some (.list elements,0))) ↔
      (elements.length : Int) < c.size.lowerBound+2^c.size.effectiveBits.toNat ∧
        (elements.length ≤ 200 ∨ ∀ v ∈ elements, consumed v ≠ 0)) := by
  obtain ⟨hclosed,heff⟩ := hfixed
  have hlower := hsound.lower
  have horder := hsound.order heff
  have hbits := hsound.bits
  constructor
  · have hrefused : (sequenceOf elm own).uperEncoder constraints (.list elements) = Put.fail := by
      unfold sequenceOf
      have hnot : decide ((elements.length : Int) < c.size.lowerBound ∨
          c.size.upperBound < elements.length) = true := decide_eq_true (.inr hover)
      simp only [hc,Option.map_some,hnot,hclosed,Bool.false_eq_true,if_false,if_pos heff,true_and,
        if_true]
    rw [hrefused]
    rfl
  · constructor
    · rintro ⟨bytes,hrun⟩
      obtain ⟨result,hresult,hall⟩ :=
        decodePer_ensures (sequenceOf_reported hc hlower ⟨hclosed,heff⟩ hreported) bytes
      rw [hrun] at hresult
      cases hresult
      exact hall _ rfl elements rfl
    · rintro ⟨hfits,hfew⟩
      have hpow : ((2^c.size.effectiveBits.toNat : Nat) : Int) = 2^c.size.effectiveBits.toNat := by
        exact_mod_cast rfl
      have hread := setOfElements_accepts (carries_self h)
        (hfew.imp_right fun hall v hv => Member.reports_of_ensures hreported (hall v hv))
        ⟨heff,by omega⟩ (by omega) (by omega)
      have hroot : Get.Accepts (getRoot ((chosen own constraints).map (·.size))) [] (some c.size) := by
        have hplain := getRoot_root c.size
        rw [hc]
        unfold rootBit at hplain
        rw [if_neg (by rw [hclosed]; decide)] at hplain
        exact hplain
      have hall : Get.Accepts ((sequenceOf elm own).uperDecoder constraints) _ _ :=
        getRoot_elements hroot hread
      have hpos : 0 < c.size.effectiveBits.toNat := by
        by_contra hzero
        rw [Nat.eq_zero_of_not_pos hzero] at hfits
        omega
      refine ⟨_,decodePer_accepts hall ?_ []⟩
      rw [List.nil_append,List.length_append,length_ofNat]
      omega

theorem nativeInteger_reported {fieldUnsigned : Bool} {own constraints : Option PerConstraints}
    (h : NumbersSound fieldUnsigned (chosen own constraints)) :
    Get.Ensures ((nativeInteger fieldUnsigned own).uperDecoder constraints) (fun r => r.2 = 0) :=
  (nativeIntegerDecodeUper_ensures h.value).bind fun _ _ => .pure rfl

def smallNumbers : TypeDescriptor :=
  sequenceOf ⟨nativeInteger false none,none,false,none,none,none⟩
    (some ⟨⟨false,false,false,-1,-1,0,0⟩,⟨false,true,false,8,8,1,255⟩,none,none⟩)

theorem smallNumber_codes :
    (⟨nativeInteger false none,none,false,none,none,none⟩ : Member).Codes (.native 5) := by
  refine nativeInteger_codes ?_ (by decide) (by decide) ?_
  · intro c hc
    cases hc
  · intro c hc
    cases hc

theorem oversized_list_accepted_numbers :
    encodePer zeroStack (smallNumbers.uperEncoder none (.list (List.replicate 256 (.native 5)))) =
      .ok none ∧
    ((∃ bytes, decodePer (smallNumbers.uperDecoder none) bytes =
        .ok (some (.list (List.replicate 256 (.native 5)),0))) ↔
      ((List.replicate 256 (Value.native 5)).length : Int) < 1+2^8 ∧
        ((List.replicate 256 (Value.native 5)).length ≤ 200 ∨
          ∀ v ∈ List.replicate 256 (Value.native 5), 0 ≠ 0)) :=
  @oversized_list_accepted ⟨nativeInteger false none,none,false,none,none,none⟩
    (List.replicate 256 (.native 5)) _ none _ rfl (by decide) (by decide) (fun _ => 0)
    (nativeInteger_reported fun _ hc => nomatch hc)
    (fun _ hv => List.eq_of_mem_replicate hv ▸ smallNumber_codes)
    (by rw [List.length_replicate]; decide) zeroStack

end Lists

/-- The alternatives as the compiler writes them: those of the root come first in the
canonical order, and the two tables are inverse to each other. -/
@[mk_iff]
structure ChoiceSpecs.Sound (specs : ChoiceSpecs) (count : Nat) (ct : PerConstraint) : Prop where
  range : 0 ≤ ct.rangeBits ∧ ct.rangeBits ≤ 31
  lower : ct.lowerBound = 0
  upper : ct.upperBound < count
  fits : ct.upperBound < 2^ct.rangeBits.toNat
  extended : ct.extensible = true → specs.extStart.map Int.ofNat = some (ct.upperBound+1)
  fromOrder : ∀ i < count, ∃ j < count, adjusted specs.fromCanonicalOrder i = .ok (some j)
  toOrder : ∀ j < count, ∃ i < count, adjusted specs.toCanonicalOrder j = .ok (some i) ∧
    adjusted specs.fromCanonicalOrder i = .ok (some j)

instance (specs : ChoiceSpecs) (count : Nat) (ct : PerConstraint) :
    Decidable (specs.Sound count ct) :=
  decidable_of_iff _ (ChoiceSpecs.sound_iff specs count ct).symm

section Choice
variable {stack : Tmpspace} {elements : List Member} {specs : ChoiceSpecs}

theorem choiceIndex_ensures {count : Nat} {ct : PerConstraint} (h : specs.Sound count ct)
    {r : Option PerConstraint} (hr : r = some ct ∨ r = none) :
    Get.Ensures (choiceIndex count specs r) (fun value => value.1 < count) := by
  have hupper := h.upper
  unfold choiceIndex
  rcases hr with hr | hr
  · subst hr
    rw [Option.filter_some,if_pos (by simpa using h.range.1)]
    refine (getBits_ensures _).bind fun value _ => ?_
    by_cases hout : ct.upperBound < value
    · rw [if_pos hout]
      exact .fail
    · rw [if_neg hout]
      exact .pure (by simp only; omega)
  · subst hr
    rw [Option.filter_none]
    cases hext : specs.extStart with
    | none => exact .fail
    | some extStart =>
      refine uperGetNsnnwn_ensures.bind fun value _ => ?_
      by_cases hout : count ≤ value+extStart
      · rw [if_pos hout]
        exact .fail
      · rw [if_neg hout]
        exact .pure (by simp only; omega)

theorem choiceOf_yields {own constraints : Option PerConstraints} {c : PerConstraints}
    {P : Nat → Value → Prop} (hc : chosen own constraints = some c)
    (h : specs.Sound elements.length c.value)
    (hyields : ∀ (i : Nat) (elm : Member), elements[i]? = some elm → elm.Yields (P i)) :
    (choiceOf stack elements specs own).Yields constraints
      (fun v => ∃ i < elements.length, ∃ w, v = .choice (i+1) w ∧ P i w) := by
  unfold TypeDescriptor.Yields choiceOf
  simp only [hc,Option.map_some]
  refine (getRoot_ensures _).bind fun r hr => ?_
  have hr' : r = some c.value ∨ r = none := by
    rcases hr with hr | hr
    · exact .inl hr
    · exact .inr hr.1
  refine (choiceIndex_ensures h hr').bind fun index hindex => ?_
  obtain ⟨value,root⟩ := index
  obtain ⟨place,hplace,hadjusted⟩ := h.fromOrder value hindex
  have hcheck : Get.Ensures (Get.check (adjusted specs.fromCanonicalOrder value))
      (fun place => place < elements.length) := by
    refine .check ⟨some place,hadjusted,?_⟩
    intro a ha
    cases ha
    exact hplace
  refine hcheck.bind fun place hplace => ?_
  refine (slot_ensures hplace).bind fun elm helm => ?_
  have hread := hyields place elm helm
  cases root with
  | true => exact Get.Ensures.bind hread fun r hr => .pure ⟨place,hplace,r.1,rfl,hr⟩
  | false =>
    exact Get.Ensures.bind (uperOpenTypeGet_ensures hread) fun r hr =>
      .pure ⟨place,hplace,r.1,rfl,hr⟩

theorem putAlternative_root {ct : PerConstraint} (hbits : 0 ≤ ct.rangeBits ∧ ct.rangeBits ≤ 31)
    {presentEnc : Nat} {elm : Member} {v : Value} {bits : List Bool}
    (h : Put.Emits (elm.encoder v) bits ()) :
    Put.Emits (putAlternative stack specs (some ct) presentEnc elm v)
      (ofNat ct.rangeBits.toNat presentEnc ++ bits) () := by
  unfold putAlternative
  rw [Option.filter_some,if_pos (by simpa using hbits.1)]
  exact (asnPutFewBits_emits (by omega)).bind h

theorem putAlternative_extension {extStart : Nat} (hext : specs.extStart = some extStart)
    {presentEnc : Nat} (hlow : extStart ≤ presentEnc) (hhigh : presentEnc < extStart+64)
    {elm : Member} {v : Value} {bits : List Bool} (h : Put.Emits (elm.encoder v) bits ()) :
    Put.Emits (putAlternative stack specs none presentEnc elm v)
      (ofNat 7 (presentEnc-extStart) ++ openTypeCode (contentOf bits)) () := by
  unfold putAlternative
  simp only [Option.filter_none,hext]
  have hoffset : (presentEnc : Int)-(extStart : Int) = ((presentEnc-extStart : Nat) : Int) := by
    omega
  rw [hoffset]
  exact (uperPutNsnnwn_small (by omega)).bind (uperOpenTypePut_emits h stack)

theorem choiceIndex_root {count : Nat} {ct : PerConstraint} (h : specs.Sound count ct)
    {presentEnc : Nat} (hin : (presentEnc : Int) ≤ ct.upperBound) :
    Get.Accepts (choiceIndex count specs (some ct)) (ofNat ct.rangeBits.toNat presentEnc)
      (presentEnc,true) := by
  have hrange := h.range
  have hfits := h.fits
  have hlt : presentEnc < 2^ct.rangeBits.toNat := by
    have hcast : ((2^ct.rangeBits.toNat : Nat) : Int) = 2^ct.rangeBits.toNat := by
      exact_mod_cast rfl
    omega
  unfold choiceIndex
  rw [Option.filter_some,if_pos (by simpa using hrange.1)]
  refine (getBits_accepts (by omega) hlt).bind_last ?_
  rw [if_neg (by omega)]
  exact .pure _

theorem choiceIndex_extension {count extStart presentEnc : Nat}
    (hext : specs.extStart = some extStart) (hcount : presentEnc < count)
    (hlow : extStart ≤ presentEnc) (hhigh : presentEnc < extStart+64) :
    Get.Accepts (choiceIndex count specs none) (ofNat 7 (presentEnc-extStart))
      (presentEnc,false) := by
  unfold choiceIndex
  simp only [Option.filter_none,hext]
  refine (uperGetNsnnwn_small (by omega)).bind_last ?_
  rw [Nat.sub_add_cancel hlow,if_neg (by omega)]
  exact .pure _

theorem choiceOf_carries {own constraints : Option PerConstraints} {c : PerConstraints}
    (hc : chosen own constraints = some c) (h : specs.Sound elements.length c.value)
    {present presentEnc : Nat} {elm : Member} {v w : Value}
    (helm : elements[present]? = some elm)
    (hto : adjusted specs.toCanonicalOrder present = .ok (some presentEnc))
    (hsmall : presentEnc ≤ c.value.upperBound ∨
      (c.value.extensible = true ∧ presentEnc ≤ c.value.upperBound+64))
    (hv : elm.Carries v w) :
    (choiceOf stack elements specs own).Carries constraints (.choice (present+1) v)
      (.choice (present+1) w) := by
  obtain ⟨consumed,bits,hemits,haccepts⟩ := hv
  obtain ⟨hpresent,_⟩ := List.getElem?_eq_some_iff.mp helm
  obtain ⟨place,hplace,hto',hfrom⟩ := h.toOrder present hpresent
  rw [hto] at hto'
  cases hto'
  have hrange := h.range
  have hlower := h.lower
  -- what both sides do once the index is known
  have hput : ∀ {ct : Option PerConstraint} {code : List Bool},
      Put.Emits (putAlternative stack specs ct presentEnc elm v) code () →
      ∀ {bit : Nat}, Put.Emits (do
        asnPutFewBits bit 1
        putAlternative stack specs ct presentEnc elm v) (ofNat 1 bit ++ code) () :=
    fun hcode _ => (asnPutFewBits_emits (by decide)).bind hcode
  refine ⟨consumed,?_⟩
  unfold RoundTrips choiceOf
  simp only [hc,Option.map_some]
  rw [if_neg (by omega),Nat.add_sub_cancel]
  by_cases hin : presentEnc ≤ c.value.upperBound
  · refine ⟨rootBit c.value false ++ (ofNat c.value.rangeBits.toNat presentEnc ++ bits),?_,?_⟩
    · have hplain : Put.Emits (putAlternative stack specs (some c.value) presentEnc elm v)
          (ofNat c.value.rangeBits.toNat presentEnc ++ bits) () :=
        putAlternative_root hrange hemits
      refine (Put.Emits.check hto).bind ((Put.Emits.check (slot_eq helm)).bind ?_)
      simp only [if_neg (show ¬ (0 ≤ c.value.rangeBits ∧ ((presentEnc : Int) < c.value.lowerBound ∨
        c.value.upperBound < presentEnc)) by omega)]
      unfold rootBit
      by_cases hext : c.value.extensible = true
      · rw [if_pos hext,if_pos hext]
        exact hput hplain
      · rw [if_neg hext,if_neg hext]
        exact hplain
    · refine (getRoot_root _).bind ?_
      refine (choiceIndex_root h hin).bind ?_
      refine (Get.Accepts.check hfrom).bind ((Get.Accepts.check (slot_eq helm)).bind ?_)
      exact haccepts.bind_last (.pure _)
  · obtain ⟨hext,hbound⟩ := hsmall.resolve_left hin
    obtain ⟨extStart,hstart,hstart'⟩ := Option.map_eq_some_iff.mp (h.extended hext)
    rw [Int.ofNat_eq_natCast] at hstart'
    refine ⟨rootBit c.value true ++ (ofNat 7 (presentEnc-extStart) ++
      openTypeCode (contentOf bits)),?_,?_⟩
    · refine (Put.Emits.check hto).bind ((Put.Emits.check (slot_eq helm)).bind ?_)
      simp only [if_pos (show 0 ≤ c.value.rangeBits ∧ ((presentEnc : Int) < c.value.lowerBound ∨
        c.value.upperBound < presentEnc) by omega),if_pos hext]
      unfold rootBit
      rw [if_pos hext]
      exact hput (putAlternative_extension hstart (by omega) (by omega) hemits)
    · have hmember := uperOpenTypeGet_accepts haccepts
      generalize openTypeCode (contentOf bits) = code at hmember ⊢
      refine (getRoot_extension hext).bind ?_
      refine (choiceIndex_extension hstart hplace (by omega) (by omega)).bind ?_
      refine (Get.Accepts.check hfrom).bind ((Get.Accepts.check (slot_eq helm)).bind ?_)
      exact hmember.bind_last (.pure _)

end Choice

end Mitvane.Per

import Mitvane.PerComposite

set_option autoImplicit false

namespace Mitvane.Per
open PartialRun BitString

namespace Member

def isDefault (elm : Member) (v : Value) : Bool :=
  match elm.defaultValueCmp with
  | none => false
  | some cmp => cmp v

def sends (elm : Member) (m : Option Value) : Bool :=
  match m with
  | none => false
  | some v => !elm.isDefault v

/-- What a decoder leaves in the place of an optional member that is not there. -/
def absent (elm : Member) : Option Value := elm.defaultValueSet.or elm.cleared

end Member

/-- A structure: its members up to `first_extension`, those from there on if the structure
is extensible, and the indices of the optional ones of both parts. -/
structure SequenceSpecs where
  root : List Member
  additions : Option (List Member)
  roms : List Nat
  aoms : List Nat

namespace SequenceSpecs

def elements (specs : SequenceSpecs) : List Member := specs.root ++ specs.additions.getD []

end SequenceSpecs

def presenceMap (n capacity : Nat) : Get BitData := do
  let map ← asnGetManyBits false n
  if capacity < map.length then Get.fault .outOfBounds else pure ⟨map,0,n,0⟩

def presenceBit (map : BitData) : Get (Option Nat × BitData) := Get.check (do
  let result ← asnGetFewBits map 1
  pure (some result))

def getMembers : List Member → BitData → Get (List (Option Value))
  | [], _ => pure []
  | elm :: rest, opmd =>
    if elm.optional then do
      let (present,opmd) ← presenceBit opmd
      if present = some 0 then do
        let members ← getMembers rest opmd
        pure (elm.absent :: members)
      else do
        let (v,_) ← elm.decoder
        let members ← getMembers rest opmd
        pure (some v :: members)
    else do
      let (v,_) ← elm.decoder
      let members ← getMembers rest opmd
      pure (some v :: members)

def getAdditions : List Member → BitData → Get (List (Option Value) × BitData)
  | [], epmd => pure ([],epmd)
  | elm :: rest, epmd => do
    let (present,epmd) ← presenceBit epmd
    match present with
    | none => pure ((elm :: rest).map (·.cleared),epmd)
    | some 0 => do
      let (members,epmd) ← getAdditions rest epmd
      pure (elm.cleared :: members,epmd)
    | some _ => do
      let (v,_) ← uperOpenTypeGet elm.decoder
      let (members,epmd) ← getAdditions rest epmd
      pure (some v :: members,epmd)

/-- Skip over overflow extensions which aren't present in this system's version of the
protocol. -/
def skipOverflow : Nat → BitData → Get Unit
  | 0, _ => Get.fault .unfinished
  | fuel+1, epmd => do
    let (present,epmd) ← presenceBit epmd
    match present with
    | none => pure ()
    | some 0 => skipOverflow fuel epmd
    | some _ => do
      uperOpenTypeSkip
      skipOverflow fuel epmd

def getExtensions (additions : List Member) : Get (List (Option Value)) := do
  let bmlength ← uperGetNslength
  let epmd ← presenceMap bmlength ((bmlength+15) >>> 3)
  let (members,epmd) ← getAdditions additions epmd
  skipOverflow (bmlength+1) epmd
  pure members

def setDefaults (elements : List Member) : List Nat → List (Option Value) →
    Get (List (Option Value))
  | [], members => pure members
  | edx :: rest, members => do
    let elm ← Get.check (slot elements edx)
    let m ← Get.check (slot members edx)
    if elm.defaultValueSet.isSome = true ∧ elm.cleared = none ∧ m = none then
      setDefaults elements rest (members.set edx elm.defaultValueSet)
    else setDefaults elements rest members

def extensionBit (specs : SequenceSpecs) : Get Nat :=
  if specs.additions.isSome then getBits 1 else pure 0

def optionalMap (specs : SequenceSpecs) : Get BitData :=
  if specs.roms.length = 0 then pure ⟨[],0,0,0⟩
  else presenceMap specs.roms.length (((specs.roms.length+7) >>> 3)+1)

def getAdded (additions : List Member) (extpresent : Nat) : Get (List (Option Value)) :=
  if extpresent = 0 then pure (additions.map (·.cleared)) else getExtensions additions

def sequenceDecodeUper (specs : SequenceSpecs) : Get (List (Option Value)) := do
  let extpresent ← extensionBit specs
  let opmd ← optionalMap specs
  let members ← getMembers specs.root opmd
  match specs.additions with
  | none => pure members
  | some additions => do
    let added ← getAdded additions extpresent
    setDefaults specs.elements specs.aoms (members ++ added)

def putMarker (markers : Bool) (m : Option Value) : Put Unit :=
  if markers then asnPutFewBits m.isSome.toNat 1 else pure ()

def putField (stack : Tmpspace) (fields : Bool) (elm : Member) (m : Option Value) : Put Unit :=
  match m with
  | none => pure ()
  | some v => if fields then uperOpenTypePut stack (elm.encoder v) else pure ()

/-- `SEQUENCE__handle_extensions`: as presence markers, as open type fields, or only to
count them. -/
def handleExtensions (stack : Tmpspace) (markers fields : Bool) :
    List (Member × Option Value) → Nat → Nat → Put Nat
  | [], extsPresent, extsCount => pure (if extsPresent = 0 then 0 else extsCount)
  | (elm,m) :: rest, extsPresent, extsCount => do
    putMarker markers m
    putField stack fields elm m
    handleExtensions stack markers fields rest (extsPresent+m.isSome.toNat) (extsCount+1)

def putPresence (elements : List Member) (members : List (Option Value)) : List Nat → Put Unit
  | [] => pure ()
  | edx :: rest => do
    let elm ← Put.check (slot elements edx)
    let m ← Put.check (slot members edx)
    asnPutFewBits (elm.sends m).toNat 1
    putPresence elements members rest

def putMembers : List (Member × Option Value) → Put Unit
  | [] => pure ()
  | (elm,m) :: rest =>
    match m with
    | none => if elm.optional then putMembers rest else Put.fail
    | some v =>
      if elm.isDefault v then putMembers rest
      else do
        elm.encoder v
        putMembers rest

def putExtensionBit (stack : Tmpspace) (specs : SequenceSpecs)
    (added : List (Member × Option Value)) : Put Nat :=
  if specs.additions.isSome then do
    let nExtensions ← handleExtensions stack false false added 0 0
    asnPutFewBits (if nExtensions = 0 then 0 else 1) 1
    pure nExtensions
  else pure 0

def putExtensions (stack : Tmpspace) (nExtensions : Nat) (added : List (Member × Option Value)) :
    Put Unit := do
  uperPutNslength nExtensions
  let marked ← handleExtensions stack true false added 0 0
  if marked ≠ nExtensions then Put.fail
  else do
    let written ← handleExtensions stack false true added 0 0
    if written ≠ nExtensions then Put.fail else pure ()

def sequenceEncodeUper (stack : Tmpspace) (specs : SequenceSpecs) (members : List (Option Value)) :
    Put Unit := do
  let added := (specs.additions.getD []).zip (members.drop specs.root.length)
  let nExtensions ← putExtensionBit stack specs added
  putPresence specs.elements members specs.roms
  putMembers (specs.root.zip (members.take specs.root.length))
  if nExtensions = 0 then pure () else putExtensions stack nExtensions added

/-- SEQUENCE. A value with another number of members is none of the type. -/
def sequence (stack : Tmpspace) (specs : SequenceSpecs) : TypeDescriptor where
  uperDecoder _ := do
    let members ← sequenceDecodeUper specs
    pure (.struct members,0)
  uperEncoder _ v :=
    match v with
    | .struct members =>
      if members.length = specs.elements.length then sequenceEncodeUper stack specs members
      else Put.fail
    | _ => Put.fail

theorem presenceBit_nil {map : BitData} (hv : map.Valid) (h : map.rest = []) :
    presenceBit map = pure (none,map) := by
  unfold presenceBit
  rw [asnGetFewBits_eq hv (by decide),readResult,h,if_neg (by decide)]
  rfl

theorem presenceBit_cons {map : BitData} (hv : map.Valid) {b : Bool} {bits : List Bool}
    (h : map.rest = b :: bits) : ∃ map' : BitData, map'.Valid ∧ map'.rest = bits ∧
      presenceBit map = pure (some b.toNat,map') := by
  have hlen : 1 ≤ map.rest.length := by simp [h]
  obtain ⟨hav,hrest,_⟩ := hv.advance hlen
  refine ⟨map.advance 1,hav,by rw [hrest,h]; rfl,?_⟩
  unfold presenceBit
  rw [asnGetFewBits_eq hv (by decide),readResult,if_pos hlen,h]
  cases b with
  | false => rfl
  | true => rfl

theorem presenceBit_ensures {map : BitData} (hv : map.Valid) :
    Get.Ensures (presenceBit map) (fun r => r.2.Valid ∧
      (r.1 ≠ none → r.2.rest.length+1 = map.rest.length)) := by
  cases h : map.rest with
  | nil =>
    rw [presenceBit_nil hv h]
    exact .pure ⟨hv,fun hsome => absurd rfl hsome⟩
  | cons b bits =>
    obtain ⟨map',hv',hrest,hrun⟩ := presenceBit_cons hv h
    rw [hrun]
    exact .pure ⟨hv',fun _ => by rw [hrest]; rfl⟩

theorem presenceMap_ensures {n capacity : Nat} (h : (n+7)/8 ≤ capacity) :
    Get.Ensures (presenceMap n capacity) (fun map => map.Valid ∧ map.rest.length = n) := by
  refine (asnGetManyBits_ensures n).bind fun map hmap => ?_
  rw [if_neg (by omega)]
  have hvalid : (⟨map,0,n,0⟩ : BitData).Valid := ⟨Nat.zero_le n,by simp only; omega⟩
  exact .pure ⟨hvalid,hvalid.length_rest⟩

/-- What a reader expects in the place of a member: values of this sort, and one of them if
it is required. -/
structure Expected where
  member : Member
  sort : Value → Prop
  required : Bool

namespace Expected

def Found (e : Expected) (m : Option Value) : Prop :=
  (∃ v, m = some v ∧ e.sort v) ∨
    (e.required = false ∧ (m = e.member.cleared ∨ m = e.member.defaultValueSet))

theorem found_absent {e : Expected} (h : e.required = false) : e.Found e.member.absent := by
  refine .inr ⟨h,?_⟩
  unfold Member.absent
  cases e.member.defaultValueSet with
  | none => exact .inl rfl
  | some v => exact .inr rfl

theorem found_default {e : Expected} (h : e.Found none) : e.Found e.member.defaultValueSet := by
  rcases h with ⟨v,hv,_⟩ | ⟨hrequired,_⟩
  · cases hv
  · exact .inr ⟨hrequired,.inr rfl⟩

end Expected

theorem getMembers_ensures {root : List Expected}
    (h : ∀ e ∈ root, e.member.Yields e.sort ∧ (e.member.optional = true → e.required = false))
    {opmd : BitData} (hv : opmd.Valid) :
    Get.Ensures (getMembers (root.map (·.member)) opmd) (List.Forall₂ Expected.Found root) := by
  induction root generalizing opmd with
  | nil => exact .pure .nil
  | cons e rest ih =>
    obtain ⟨hyields,hoptional⟩ := h e (by simp)
    have hrest : ∀ {map : BitData} {m : Option Value}, map.Valid → e.Found m →
        Get.Ensures (getMembers (rest.map (·.member)) map >>= fun members => pure (m :: members))
          (List.Forall₂ Expected.Found (e :: rest)) :=
      fun hv hm => (ih (fun e' he' => h e' (List.mem_cons_of_mem e he')) hv).bind
        fun members hmembers => .pure (.cons hm hmembers)
    have hread : ∀ {map : BitData}, map.Valid → Get.Ensures (e.member.decoder >>= fun r =>
        getMembers (rest.map (·.member)) map >>= fun members => pure (some r.1 :: members))
          (List.Forall₂ Expected.Found (e :: rest)) :=
      fun hv => Get.Ensures.bind hyields fun r hr => hrest hv (.inl ⟨r.1,rfl,hr⟩)
    rw [List.map_cons]
    unfold getMembers
    split
    · rename_i hopt
      refine (presenceBit_ensures hv).bind fun r hr => ?_
      by_cases hzero : r.1 = some 0
      · simp only [if_pos hzero]
        exact hrest hr.1 (Expected.found_absent (hoptional hopt))
      · simp only [if_neg hzero]
        exact hread hr.1
    · exact hread hv

theorem found_cleared {added : List Expected} (h : ∀ e ∈ added, e.required = false) :
    List.Forall₂ Expected.Found added (added.map (·.member.cleared)) := by
  induction added with
  | nil => exact .nil
  | cons e rest ih =>
    exact .cons (.inr ⟨h e (by simp),.inl rfl⟩) (ih fun e' he' => h e' (List.mem_cons_of_mem e he'))

theorem getAdditions_ensures {added : List Expected}
    (h : ∀ e ∈ added, e.member.Yields e.sort ∧ e.required = false)
    {epmd : BitData} (hv : epmd.Valid) :
    Get.Ensures (getAdditions (added.map (·.member)) epmd) (fun r =>
      List.Forall₂ Expected.Found added r.1 ∧ r.2.Valid ∧ r.2.rest.length ≤ epmd.rest.length) := by
  induction added generalizing epmd with
  | nil => exact .pure ⟨.nil,hv,Nat.le_refl _⟩
  | cons e rest ih =>
    obtain ⟨hyields,hrequired⟩ := h e (by simp)
    have hrest : ∀ {map : BitData} {m : Option Value}, map.Valid →
        map.rest.length ≤ epmd.rest.length → e.Found m →
        Get.Ensures (getAdditions (rest.map (·.member)) map >>= fun r => pure (m :: r.1,r.2))
          (fun r => List.Forall₂ Expected.Found (e :: rest) r.1 ∧ r.2.Valid ∧
            r.2.rest.length ≤ epmd.rest.length) :=
      fun hv hle hm => (ih (fun e' he' => h e' (List.mem_cons_of_mem e he')) hv).bind fun r hr =>
        .pure ⟨.cons hm hr.1,hr.2.1,Nat.le_trans hr.2.2 hle⟩
    rw [List.map_cons]
    unfold getAdditions
    cases hbits : epmd.rest with
    | nil =>
      have hall := found_cleared fun e' he' => (h e' he').2
      rw [presenceBit_nil hv hbits]
      exact (Get.Ensures.pure (P := fun r => r = (none,epmd)) rfl).bind fun r hr => by
        subst hr
        rw [← List.map_cons,List.map_map]
        exact .pure ⟨hall,hv,by simp [hbits]⟩
    | cons b bits =>
      obtain ⟨map,hmap,hleft,hrun⟩ := presenceBit_cons hv hbits
      have hle : map.rest.length ≤ epmd.rest.length := by simp [hleft,hbits]
      rw [hrun,← hbits]
      refine (Get.Ensures.pure (P := fun r => r = (some b.toNat,map)) rfl).bind fun r hr => ?_
      subst hr
      cases b with
      | false => exact hrest hmap hle (.inr ⟨hrequired,.inl rfl⟩)
      | true =>
        exact Get.Ensures.bind (uperOpenTypeGet_ensures hyields) fun r hr =>
          hrest hmap hle (.inl ⟨r.1,rfl,hr⟩)

theorem uperOpenTypeSkip_ensures : Get.Ensures uperOpenTypeSkip (fun _ => True) :=
  uperOpenTypeGet_ensures uperSotSuck_ensures

theorem skipOverflow_ensures (fuel : Nat) {epmd : BitData} (hv : epmd.Valid)
    (hfuel : epmd.rest.length < fuel) :
    Get.Ensures (skipOverflow fuel epmd) (fun _ => True) := by
  induction fuel generalizing epmd with
  | zero => omega
  | succ fuel ih =>
    unfold skipOverflow
    cases hbits : epmd.rest with
    | nil =>
      rw [presenceBit_nil hv hbits]
      exact (Get.Ensures.pure (P := fun r => r = (none,epmd)) rfl).bind fun r hr => by
        subst hr
        exact .pure trivial
    | cons b bits =>
      obtain ⟨map,hmap,hleft,hrun⟩ := presenceBit_cons hv hbits
      have hrest := ih hmap (by rw [hleft]; rw [hbits,List.length_cons] at hfuel; omega)
      rw [hrun]
      refine (Get.Ensures.pure (P := fun r => r = (some b.toNat,map)) rfl).bind fun r hr => ?_
      subst hr
      cases b with
      | false => exact hrest
      | true => exact uperOpenTypeSkip_ensures.bind fun _ _ => hrest

theorem getExtensions_ensures {added : List Expected}
    (h : ∀ e ∈ added, e.member.Yields e.sort ∧ e.required = false) :
    Get.Ensures (getExtensions (added.map (·.member))) (List.Forall₂ Expected.Found added) := by
  refine uperGetNslength_ensures.bind fun bmlength _ => ?_
  have hcapacity : (bmlength+7)/8 ≤ (bmlength+15) >>> 3 := by
    rw [Nat.shiftRight_eq_div_pow]
    omega
  refine (presenceMap_ensures hcapacity).bind fun epmd hmap => ?_
  refine (getAdditions_ensures h hmap.1).bind fun r hr => ?_
  obtain ⟨hall,hv,hle⟩ := hr
  exact (skipOverflow_ensures (bmlength+1) hv (by omega)).bind fun _ _ => .pure hall

theorem forall₂_set {α β : Type} {R : α → β → Prop} {l : List α} {ms : List β}
    (h : List.Forall₂ R l ms) {i : Nat} {a : α} {b : β} (ha : l[i]? = some a) (hb : R a b) :
    List.Forall₂ R l (ms.set i b) := by
  induction h generalizing i with
  | nil => cases ha
  | cons hfirst hrest ih =>
    cases i with
    | zero =>
      cases ha
      exact .cons hb hrest
    | succ i => exact .cons hfirst (ih ha)

theorem forall₂_get {α β : Type} {R : α → β → Prop} {l : List α} {ms : List β}
    (h : List.Forall₂ R l ms) {i : Nat} {a : α} {b : β} (ha : l[i]? = some a)
    (hb : ms[i]? = some b) : R a b := by
  induction h generalizing i with
  | nil => cases ha
  | cons hfirst hrest ih =>
    cases i with
    | zero =>
      cases ha
      cases hb
      exact hfirst
    | succ i => exact ih ha hb

theorem forall₂_append_left {α β : Type} {R : α → β → Prop} {l₁ l₂ : List α} {ms : List β}
    (h : List.Forall₂ R (l₁ ++ l₂) ms) : ∃ ms₁ ms₂, ms = ms₁ ++ ms₂ ∧ List.Forall₂ R l₁ ms₁ ∧
      List.Forall₂ R l₂ ms₂ := by
  induction l₁ generalizing ms with
  | nil => exact ⟨[],ms,rfl,.nil,h⟩
  | cons a l₁ ih =>
    cases h with
    | cons hfirst hrest =>
      obtain ⟨ms₁,ms₂,rfl,h₁,h₂⟩ := ih hrest
      exact ⟨_ :: ms₁,ms₂,rfl,.cons hfirst h₁,h₂⟩

theorem setDefaults_ensures {expected : List Expected} {aoms : List Nat}
    (h : ∀ edx ∈ aoms, edx < expected.length) {members : List (Option Value)}
    (hall : List.Forall₂ Expected.Found expected members) :
    Get.Ensures (setDefaults (expected.map (·.member)) aoms members)
      (List.Forall₂ Expected.Found expected) := by
  induction aoms generalizing members with
  | nil => exact .pure hall
  | cons edx rest ih =>
    have hedx := h edx (by simp)
    have hrest : ∀ e ∈ rest, e < expected.length := fun e he => h e (List.mem_cons_of_mem edx he)
    have hlen := hall.length_eq
    unfold setDefaults
    refine (slot_ensures (by rw [List.length_map]; exact hedx)).bind fun elm helm => ?_
    refine (slot_ensures (by omega)).bind fun m hm => ?_
    rw [List.getElem?_map] at helm
    obtain ⟨e,he,helm⟩ := Option.map_eq_some_iff.mp helm
    split
    · rename_i hset
      rw [hset.2.2] at hm
      rw [← helm]
      exact ih hrest (forall₂_set hall he (Expected.found_default (forall₂_get hall he hm)))
    · exact ih hrest hall

theorem sequenceDecodeUper_ensures {specs : SequenceSpecs} {root added : List Expected}
    (hroot : specs.root = root.map (·.member))
    (hadded : specs.additions.getD [] = added.map (·.member))
    (hyroot : ∀ e ∈ root, e.member.Yields e.sort ∧ (e.member.optional = true → e.required = false))
    (hyadded : ∀ e ∈ added, e.member.Yields e.sort ∧ e.required = false)
    (haoms : ∀ edx ∈ specs.aoms, edx < specs.elements.length) :
    Get.Ensures (sequenceDecodeUper specs) (List.Forall₂ Expected.Found (root ++ added)) := by
  have helements : specs.elements = (root ++ added).map (·.member) := by
    rw [SequenceSpecs.elements,hroot,hadded,List.map_append]
  unfold sequenceDecodeUper
  have hbit : Get.Ensures (extensionBit specs) (fun _ => True) := by
    unfold extensionBit
    split
    · exact (getBits_ensures 1).mono fun _ _ => trivial
    · exact .pure trivial
  refine hbit.bind fun extpresent _ => ?_
  have hmap : Get.Ensures (optionalMap specs) BitData.Valid := by
    unfold optionalMap
    split
    · exact .pure ⟨Nat.le_refl _,Nat.le_refl _⟩
    · refine (presenceMap_ensures ?_).mono fun map hmap => hmap.1
      rw [Nat.shiftRight_eq_div_pow]
      omega
  refine hmap.bind fun opmd hopmd => ?_
  rw [hroot]
  refine (getMembers_ensures hyroot hopmd).bind fun members hmembers => ?_
  cases hadd : specs.additions with
  | none =>
    rw [hadd,Option.getD_none] at hadded
    have hnil := List.map_eq_nil_iff.mp hadded.symm
    subst hnil
    rw [List.append_nil]
    exact .pure hmembers
  | some additions =>
    rw [hadd,Option.getD_some] at hadded
    have hread : Get.Ensures (getAdded additions extpresent)
        (List.Forall₂ Expected.Found added) := by
      unfold getAdded
      rw [hadded]
      split
      · rw [List.map_map]
        exact .pure (found_cleared fun e he => (hyadded e he).2)
      · exact getExtensions_ensures hyadded
    refine hread.bind fun found hfound => ?_
    rw [helements] at haoms ⊢
    rw [List.length_map] at haoms
    exact setDefaults_ensures haoms (List.rel_append hmembers hfound)

theorem sequence_yields {stack : Tmpspace} {specs : SequenceSpecs} {root added : List Expected}
    (hroot : specs.root = root.map (·.member))
    (hadded : specs.additions.getD [] = added.map (·.member))
    (hyroot : ∀ e ∈ root, e.member.Yields e.sort ∧ (e.member.optional = true → e.required = false))
    (hyadded : ∀ e ∈ added, e.member.Yields e.sort ∧ e.required = false)
    (haoms : ∀ edx ∈ specs.aoms, edx < specs.elements.length)
    (constraints : Option PerConstraints) :
    (sequence stack specs).Yields constraints (fun v => ∃ members, v = .struct members ∧
      List.Forall₂ Expected.Found (root ++ added) members) :=
  (sequenceDecodeUper_ensures hroot hadded hyroot hyadded haoms).bind fun members hall =>
    .pure ⟨members,rfl,hall⟩

namespace Member

noncomputable def sent (elm : Member) (m : Option Value) : List Bool :=
  match m with
  | none => []
  | some v => if elm.isDefault v then [] else elm.code v

/-- What arrives of a member of the root, which is not sent if it may be left out and is not
there or has its default. -/
inductive Receives (elm : Member) : Option Value → Option Value → Prop where
  | sent {v w : Value} : elm.isDefault v = false → elm.Carries v w →
      Receives elm (some v) (some w)
  | absent {m : Option Value} : elm.optional = true → elm.sends m = false →
      Receives elm m elm.absent

noncomputable def field (elm : Member) (m : Option Value) : List Bool :=
  match m with
  | none => []
  | some v => openTypeCode (contentOf (elm.code v))

end Member

theorem ofNat_one (b : Bool) : ofNat 1 b.toNat = [b] := by
  cases b with
  | false => rfl
  | true => rfl

section Root
variable {root : List (Member × Option Value)}

def optionals (root : List (Member × Option Value)) : List Bool :=
  (root.filter (·.1.optional)).map (fun p => p.1.sends p.2)

theorem optionals_optional {p : Member × Option Value} (h : p.1.optional = true) :
    optionals (p :: root) = p.1.sends p.2 :: optionals root := by
  unfold optionals
  rw [List.filter_cons,if_pos h,List.map_cons]

theorem optionals_mandatory {p : Member × Option Value} (h : ¬ p.1.optional = true) :
    optionals (p :: root) = optionals root := by
  unfold optionals
  rw [List.filter_cons,if_neg h]

theorem putPresence_emits {elements : List Member} {members : List (Option Value)} (start : Nat)
    (h : ∀ i p, root[i]? = some p → elements[start+i]? = some p.1 ∧ members[start+i]? = some p.2) :
    Put.Emits (putPresence elements members ((root.map Prod.fst).findIdxs (·.optional) start))
      (optionals root) () := by
  induction root generalizing start with
  | nil => exact .pure ()
  | cons p rest ih =>
    have hfirst := h 0 p rfl
    have hrest := ih (start+1) fun i q hq => by
      have hnext := h (i+1) q hq
      rw [Nat.add_comm i 1,← Nat.add_assoc] at hnext
      exact hnext
    rw [List.map_cons,List.findIdxs_cons]
    by_cases hopt : p.1.optional = true
    · rw [if_pos hopt,optionals_optional hopt]
      have hbit : Put.Emits (asnPutFewBits (p.1.sends p.2).toNat 1) [p.1.sends p.2] () := by
        rw [← ofNat_one]
        exact asnPutFewBits_emits (by decide)
      exact (Put.Emits.check (slot_eq hfirst.1)).bind
        ((Put.Emits.check (slot_eq hfirst.2)).bind (hbit.bind hrest))
    · rw [if_neg hopt,optionals_mandatory hopt]
      exact hrest

theorem putMembers_emits {members : List (Option Value)}
    (h : List.Forall₂ (fun p m => p.1.Receives p.2 m) root members) :
    Put.Emits (putMembers root) (root.flatMap fun p => p.1.sent p.2) () := by
  induction h with
  | nil => exact .pure ()
  | @cons p m rest _ hfirst _ ih =>
    obtain ⟨elm,given⟩ := p
    rw [List.flatMap_cons]
    cases hfirst with
    | @sent v _ hdefault hcarries =>
      rw [putMembers]
      simp only [Member.sent,hdefault,Bool.false_eq_true,if_false]
      exact hcarries.encodes.emits.bind ih
    | absent hoptional hsends =>
      cases given with
      | none =>
        rw [putMembers]
        simp only [if_pos hoptional]
        exact ih
      | some v =>
        have hdefault : elm.isDefault v = true := by simpa [Member.sends] using hsends
        rw [putMembers]
        simp only [Member.sent,if_pos hdefault]
        exact ih

theorem getMembers_accepts {members : List (Option Value)}
    (h : List.Forall₂ (fun p m => p.1.Receives p.2 m) root members)
    {opmd : BitData} (hv : opmd.Valid) (hmap : opmd.rest = optionals root) :
    Get.Accepts (getMembers (root.map Prod.fst) opmd) (root.flatMap fun p => p.1.sent p.2)
      members := by
  induction h generalizing opmd with
  | nil => exact .pure []
  | @cons p m rest members hfirst _ ih =>
    obtain ⟨elm,given⟩ := p
    have hrest : ∀ {map : BitData}, map.Valid → map.rest = optionals rest →
        ∀ m' : Option Value, Get.Accepts (getMembers (rest.map Prod.fst) map >>=
          fun members => pure (m' :: members)) (rest.flatMap fun p => p.1.sent p.2)
          (m' :: members) := by
      intro map hv hmap m'
      exact (ih hv hmap).bind_last (.pure _)
    rw [List.map_cons,List.flatMap_cons,getMembers]
    cases hfirst with
    | @sent v w hdefault hcarries =>
      obtain ⟨consumed,haccepts⟩ := hcarries.accepts
      have hsends : elm.sends (some v) = true := by simp [Member.sends,hdefault]
      simp only [Member.sent,hdefault,Bool.false_eq_true,if_false]
      by_cases hoptional : elm.optional = true
      · rw [optionals_optional hoptional] at hmap
        obtain ⟨map,hvmap,hleft,hrun⟩ := presenceBit_cons hv hmap
        rw [if_pos hoptional,hrun]
        refine (Get.Accepts.pure (some (elm.sends (some v)).toNat,map)).bind ?_
        simp only [hsends,Bool.toNat_true]
        exact haccepts.bind (hrest hvmap hleft (some w))
      · rw [optionals_mandatory hoptional] at hmap
        rw [if_neg hoptional]
        exact haccepts.bind (hrest hv hmap (some w))
    | absent hoptional hsends =>
      have hsent : elm.sent given = [] := by
        cases given with
        | none => rfl
        | some v =>
          have hdefault : elm.isDefault v = true := by simpa [Member.sends] using hsends
          simp only [Member.sent,hdefault,if_true]
      rw [optionals_optional hoptional] at hmap
      obtain ⟨map,hvmap,hleft,hrun⟩ := presenceBit_cons hv hmap
      rw [if_pos hoptional,hrun,hsent]
      refine (Get.Accepts.pure (some (elm.sends given).toNat,map)).bind ?_
      simp only [hsends,Bool.toNat_false,if_true]
      exact hrest hvmap hleft elm.absent

end Root

section Additions
variable {stack : Tmpspace}

/-- The number of additions that is announced: none if no addition is present. -/
def announcedAdditions (added : List (Member × Option Value)) : Nat :=
  if added.countP (·.2.isSome) = 0 then 0 else added.length

theorem putField_emits {fields : Bool} {elm : Member} {m : Option Value}
    (h : ∀ v, m = some v → elm.Encodes v) :
    Put.Emits (putField stack fields elm m) (if fields then elm.field m else []) () := by
  cases m with
  | none =>
    have hnone : (if fields = true then elm.field none else []) = [] := by
      split
      · rfl
      · rfl
    rw [hnone]
    exact .pure ()
  | some v =>
    cases fields with
    | false => exact .pure ()
    | true => exact uperOpenTypePut_emits (h v rfl).emits stack

theorem putMarker_emits (markers : Bool) (m : Option Value) :
    Put.Emits (putMarker markers m) (if markers then [m.isSome] else []) () := by
  cases markers with
  | false => exact .pure ()
  | true =>
    rw [if_pos rfl,← ofNat_one]
    exact asnPutFewBits_emits (by decide)

theorem handleExtensions_emits (stack : Tmpspace) (markers fields : Bool)
    {added : List (Member × Option Value)}
    (h : ∀ p ∈ added, ∀ v, p.2 = some v → p.1.Encodes v) (extsPresent extsCount : Nat) :
    Put.Emits (handleExtensions stack markers fields added extsPresent extsCount)
      (added.flatMap fun p => (if markers then [p.2.isSome] else []) ++
        if fields then p.1.field p.2 else [])
      (if extsPresent+added.countP (·.2.isSome) = 0 then 0 else extsCount+added.length) := by
  induction added generalizing extsPresent extsCount with
  | nil => exact .pure _
  | cons p rest ih =>
    obtain ⟨elm,m⟩ := p
    have hrest := ih (fun q hq => h q (List.mem_cons_of_mem _ hq)) (extsPresent+m.isSome.toNat)
      (extsCount+1)
    have hpresent : extsPresent+((elm,m) :: rest).countP (·.2.isSome) =
        extsPresent+m.isSome.toNat+rest.countP (·.2.isSome) := by
      rw [List.countP_cons,Nat.add_assoc]
      congr 1
      rw [Nat.add_comm]
      congr 1
      cases m with
      | none => rfl
      | some v => rfl
    have hcount : extsCount+((elm,m) :: rest).length = extsCount+1+rest.length := by
      rw [List.length_cons]
      omega
    rw [hpresent,hcount,List.flatMap_cons,List.append_assoc]
    exact (putMarker_emits markers m).bind
      ((putField_emits fun v hm => h (elm,m) (by simp) v hm).bind hrest)

noncomputable def additionsCode (added : List (Member × Option Value)) : List Bool :=
  ofNat 7 (added.length-1) ++ (added.map (·.2.isSome) ++ added.flatMap fun p => p.1.field p.2)

theorem handleExtensions_announced (stack : Tmpspace) (markers fields : Bool)
    {added : List (Member × Option Value)}
    (h : ∀ p ∈ added, ∀ v, p.2 = some v → p.1.Encodes v) :
    Put.Emits (handleExtensions stack markers fields added 0 0)
      (added.flatMap fun p => (if markers then [p.2.isSome] else []) ++
        if fields then p.1.field p.2 else []) (announcedAdditions added) := by
  have hall := handleExtensions_emits stack markers fields h 0 0
  rw [Nat.zero_add,Nat.zero_add] at hall
  exact hall

theorem putExtensions_emits {added : List (Member × Option Value)}
    (h : ∀ p ∈ added, ∀ v, p.2 = some v → p.1.Encodes v) (hlen : added.length ≤ 64)
    (hsome : announcedAdditions added ≠ 0) :
    Put.Emits (putExtensions stack (announcedAdditions added) added) (additionsCode added) () := by
  have hannounced : announcedAdditions added = added.length := by
    unfold announcedAdditions at hsome ⊢
    split at hsome
    · exact absurd rfl hsome
    · rename_i hcount
      exact if_neg hcount
  have hmarkers := handleExtensions_announced stack true false h
  have hfields := handleExtensions_announced stack false true h
  simp only [if_true,Bool.false_eq_true,if_false,List.append_nil,List.nil_append] at hmarkers hfields
  rw [← List.map_eq_flatMap] at hmarkers
  unfold putExtensions additionsCode
  have hlast : Put.Emits (handleExtensions stack false true added 0 0 >>= fun written =>
      if written ≠ announcedAdditions added then Put.fail else pure ())
      (added.flatMap fun p => p.1.field p.2) () := by
    refine hfields.bind_last ?_
    rw [if_neg (not_not_intro rfl)]
    exact .pure ()
  rw [hannounced] at hmarkers hlast ⊢
  refine (uperPutNslength_small (by omega) hlen).bind (hmarkers.bind ?_)
  rw [if_neg (not_not_intro rfl)]
  exact hlast

theorem presenceMap_accepts (bits : List Bool) {capacity : Nat}
    (h : (bits.length+7)/8 ≤ capacity) : ∃ map : BitData, map.Valid ∧ map.rest = bits ∧
      Get.Accepts (presenceMap bits.length capacity) bits map := by
  have hbytes := @ofBytes_toBytes ((bits.length+7)/8) bits (by omega)
  refine ⟨⟨toBytes ((bits.length+7)/8) bits,0,bits.length,0⟩,⟨Nat.zero_le _,?_⟩,?_,?_⟩
  · simp only [length_toBytes]
    omega
  · unfold BitData.rest
    rw [hbytes,List.drop_zero,List.take_left' rfl]
  · have hmany := (asnGetManyBits_parses bits.length).accepts (Parser.accepts_toBytes bits)
    refine hmany.bind_last ?_
    rw [length_toBytes,if_neg (by omega)]
    exact .pure _

inductive Member.Keeps (elm : Member) : Option Value → Option Value → Prop where
  | sent {v w : Value} : elm.Carries v w → Keeps elm (some v) (some w)
  | absent : Keeps elm none elm.cleared

theorem encodes_of_keeps {added : List (Member × Option Value)} {members : List (Option Value)}
    (h : List.Forall₂ (fun p m => p.1.Keeps p.2 m) added members) :
    ∀ p ∈ added, ∀ v, p.2 = some v → p.1.Encodes v := by
  induction h with
  | nil => exact fun _ hp => nomatch hp
  | @cons p m rest members hfirst _ ih =>
    obtain ⟨elm,given⟩ := p
    refine List.forall_mem_cons.mpr ⟨fun v hv => ?_,ih⟩
    cases hfirst with
    | sent hcarries =>
      cases hv
      exact hcarries.encodes
    | absent => cases hv

theorem getAdditions_accepts {known : List (Member × Option Value)} {more : List Member}
    {members : List (Option Value)} {tail : List Bool} (hone : more = [] ∨ tail = [])
    (h : List.Forall₂ (fun p m => p.1.Keeps p.2 m) known members) {epmd : BitData}
    (hv : epmd.Valid) (hmap : epmd.rest = known.map (·.2.isSome) ++ tail) :
    ∃ epmd' : BitData, epmd'.Valid ∧ epmd'.rest = tail ∧
      Get.Accepts (getAdditions (known.map Prod.fst ++ more) epmd)
        (known.flatMap fun p => p.1.field p.2) (members ++ more.map (·.cleared),epmd') := by
  induction h generalizing epmd with
  | nil =>
    cases more with
    | nil => exact ⟨epmd,hv,hmap,.pure _⟩
    | cons elm more =>
      have htail : tail = [] := hone.resolve_left (List.cons_ne_nil elm more)
      subst htail
      refine ⟨epmd,hv,hmap,?_⟩
      rw [List.map_nil,List.nil_append,getAdditions,presenceBit_nil hv hmap]
      exact (Get.Accepts.pure (none,epmd)).bind (.pure _)
  | @cons p m rest members hfirst _ ih =>
    obtain ⟨elm,given⟩ := p
    rw [List.map_cons,List.cons_append] at hmap
    obtain ⟨map,hvmap,hleft,hrun⟩ := presenceBit_cons hv hmap
    obtain ⟨epmd',hv',hrest',haccepts⟩ := ih hvmap hleft
    refine ⟨epmd',hv',hrest',?_⟩
    rw [List.map_cons,List.cons_append,List.cons_append,List.flatMap_cons,getAdditions,hrun]
    have hnext : ∀ m' : Option Value, Get.Accepts (getAdditions (rest.map Prod.fst ++ more) map >>=
        fun r => pure (m' :: r.1,r.2)) (rest.flatMap fun p => p.1.field p.2)
        (m' :: (members ++ more.map (·.cleared)),epmd') := by
      intro m'
      exact haccepts.bind_last (.pure _)
    cases hfirst with
    | absent => exact (Get.Accepts.pure (some 0,map)).bind (hnext elm.cleared)
    | @sent v w hcarries =>
      obtain ⟨consumed,hmember⟩ := hcarries.accepts
      have hopen := uperOpenTypeGet_accepts hmember
      exact (Get.Accepts.pure (some 1,map)).bind (hopen.bind (hnext (some w)))

/-- The octets of an addition are whole groups of three, or one zero octet. -/
def Member.Skippable (elm : Member) (v : Value) (stack : Tmpspace) : Prop :=
  ∀ buf size, uperEncodeToNewBuffer stack (elm.encoder v) = .ok (some (buf,size)) →
    size % 3 = 0 ∨ buf = [0]

theorem Member.Encodes.skippable_iff {elm : Member} {v : Value} (h : elm.Encodes v) :
    elm.Skippable v stack ↔ (contentOf (elm.code v)).length % 3 = 0 ∨
      contentOf (elm.code v) = [0] := by
  have hcontent := uperEncodeToNewBuffer_content h.emits stack
  constructor
  · intro hskip
    exact hskip _ _ hcontent
  · intro hsize buf size hbuf
    rw [hcontent] at hbuf
    cases hbuf
    exact hsize

section Overflow
variable {unknown : List (Member × Option Value)}

theorem skipOverflow_accepts (stack : Tmpspace)
    (h : ∀ p ∈ unknown, ∀ v, p.2 = some v → p.1.Encodes v ∧ p.1.Skippable v stack)
    {epmd : BitData} (hv : epmd.Valid) (hmap : epmd.rest = unknown.map (·.2.isSome))
    (fuel : Nat) (hfuel : unknown.length < fuel) :
    Get.Accepts (skipOverflow fuel epmd) (unknown.flatMap fun p => p.1.field p.2) () := by
  induction unknown generalizing epmd fuel with
  | nil =>
    obtain ⟨fuel,rfl⟩ := Nat.exists_eq_succ_of_ne_zero (Nat.ne_of_gt hfuel)
    rw [skipOverflow,presenceBit_nil hv hmap]
    exact (Get.Accepts.pure (none,epmd)).bind (.pure ())
  | cons p rest ih =>
    obtain ⟨elm,m⟩ := p
    rw [List.length_cons] at hfuel
    obtain ⟨fuel,rfl⟩ := Nat.exists_eq_succ_of_ne_zero (show fuel ≠ 0 by omega)
    obtain ⟨map,hvmap,hleft,hrun⟩ := presenceBit_cons hv hmap
    have hrest := ih (fun q hq => h q (List.mem_cons_of_mem _ hq)) hvmap hleft
      fuel (by omega)
    rw [List.flatMap_cons,skipOverflow,hrun]
    cases m with
    | none => exact (Get.Accepts.pure (some 0,map)).bind hrest
    | some v =>
      obtain ⟨hencodes,hskip⟩ := h (elm,some v) (by simp) v rfl
      exact (Get.Accepts.pure (some 1,map)).bind
        ((uperOpenTypeSkip_accepts (hencodes.skippable_iff.mp hskip)).bind hrest)

theorem skipOverflow_refuses (stack : Tmpspace)
    (h : ∀ p ∈ unknown, ∀ v, p.2 = some v → p.1.Encodes v)
    (hbad : ∃ p ∈ unknown, ∃ v, p.2 = some v ∧ ¬ p.1.Skippable v stack)
    {epmd : BitData} (hv : epmd.Valid) (hmap : epmd.rest = unknown.map (·.2.isSome))
    (fuel : Nat) (hfuel : unknown.length < fuel) :
    Get.Refuses (skipOverflow fuel epmd) (unknown.flatMap fun p => p.1.field p.2) := by
  induction unknown generalizing epmd fuel with
  | nil =>
    obtain ⟨p,hp,_⟩ := hbad
    cases hp
  | cons p rest ih =>
    obtain ⟨elm,m⟩ := p
    rw [List.length_cons] at hfuel
    obtain ⟨fuel,rfl⟩ := Nat.exists_eq_succ_of_ne_zero (show fuel ≠ 0 by omega)
    obtain ⟨map,hvmap,hleft,hrun⟩ := presenceBit_cons hv hmap
    rw [List.flatMap_cons,skipOverflow,hrun]
    -- a bad field is this one, or a later one that is reached past this one
    by_cases hhere : ∃ v, m = some v ∧ ¬ elm.Skippable v stack
    · obtain ⟨v,hm,hnot⟩ := hhere
      subst hm
      have hencodes := h (elm,some v) (by simp) v rfl
      rw [hencodes.skippable_iff] at hnot
      exact (Get.Accepts.pure (some 1,map)).bind_refuses
        (((uperOpenTypeSkip_refuses hnot).bind _).append _)
    · have hlater : ∃ p ∈ rest, ∃ v, p.2 = some v ∧ ¬ p.1.Skippable v stack := by
        obtain ⟨q,hq,v,hv,hnot⟩ := hbad
        rcases List.mem_cons.mp hq with hq | hq
        · subst hq
          exact absurd ⟨v,hv,hnot⟩ hhere
        · exact ⟨q,hq,v,hv,hnot⟩
      have hrest := ih (fun q hq => h q (List.mem_cons_of_mem _ hq)) hlater hvmap hleft
        fuel (by omega)
      cases m with
      | none => exact (Get.Accepts.pure (some 0,map)).bind_refuses hrest
      | some v =>
        have hencodes := h (elm,some v) (by simp) v rfl
        have hskip : elm.Skippable v stack := by
          by_contra hnot
          exact hhere ⟨v,rfl,hnot⟩
        exact (Get.Accepts.pure (some 1,map)).bind_refuses
          ((uperOpenTypeSkip_accepts (hencodes.skippable_iff.mp hskip)).bind_refuses hrest)

end Overflow

end Additions

end Mitvane.Per

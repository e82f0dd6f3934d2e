import Mitvane.CamTypes

set_option autoImplicit false

namespace Mitvane.Its
open Per BitString

inductive CamPermission where
  | cenDsrcTollingZone | publicTransport | specialTransport | dangerousGoods | roadwork
  | rescue | emergency | safetyCar | closedLanes | requestForRightOfWay
  | requestForFreeCrossingAtTrafficLight | noPassing | noPassingForTrucks | speedLimit
  deriving DecidableEq, Repr

/-- `vanetza::security::CamPermissions`: `has` is asked for one permission, `hasAll` for those
of another set. -/
structure CamPermissions (Flags : Type) where
  noFlags : Flags
  add : Flags → CamPermission → Flags
  has : Flags → CamPermission → Bool
  hasAll : Flags → Flags → Bool

/-- What the documentation of vanetza's set of flags promises. -/
structure CamPermissions.Laws {Flags : Type} (api : CamPermissions Flags) : Prop where
  has_noFlags (p : CamPermission) : api.has api.noFlags p = false
  has_add (flags : Flags) (p q : CamPermission) :
    api.has (api.add flags p) q = (decide (q = p) || api.has flags q)
  hasAll_iff (flags required : Flags) :
    api.hasAll flags required = true ↔ ∀ p, api.has required p = true → api.has flags p = true

def pointerAt (v : Value) (i : Nat) : Except Per.Fault (Option Value) :=
  match v with
  | .struct members =>
    match members[i]? with
    | some m => .ok m
    | none => .error .outOfBounds
  | _ => .error .outOfBounds

def valueAt (v : Value) (path : List Nat) : Except Per.Fault Value :=
  match member path v with
  | some w => .ok w
  | none => .error .outOfBounds

def chosenOf : Value → Except Per.Fault (Nat × Value)
  | .choice present w => .ok (present,w)
  | _ => .error .outOfBounds

def flagged (p : CamPermission) (flag : Bool) : List CamPermission := if flag then [p] else []

/-- The bits of a priority are looked at where it has one octet. -/
def priorityPermissions : Option Value → List CamPermission
  | some (.bits [bits] _) =>
    flagged .requestForRightOfWay (decide (bits.toNat &&& 1 <<< (7-0) ≠ 0)) ++
      flagged .requestForFreeCrossingAtTrafficLight (decide (bits.toNat &&& 1 <<< (7-1) ≠ 0))
  | _ => []

def trafficRulePermissions : Option Value → List CamPermission
  | some (.native n) =>
    if n = 0 then [.noPassing] else if n = 1 then [.noPassingForTrucks] else []
  | _ => []

def specialPermissions (present : Nat) (w : Value) : Except Per.Fault (List CamPermission) :=
  match present with
  | 1 => .ok [.publicTransport]
  | 2 => .ok [.specialTransport]
  | 3 => .ok [.dangerousGoods]
  | 4 => do
    let closedLanes ← pointerAt w 2
    pure (.roadwork :: flagged .closedLanes closedLanes.isSome)
  | 5 => .ok [.rescue]
  | 6 => do
    let emergencyPriority ← pointerAt w 2
    pure (.emergency :: priorityPermissions emergencyPriority)
  | 7 => do
    let trafficRule ← pointerAt w 2
    let speedLimit ← pointerAt w 3
    pure (.safetyCar :: (trafficRulePermissions trafficRule ++
      flagged .speedLimit speedLimit.isSome))
  | _ => .ok []

def zonePermissions (present : Nat) (rsu : Value) : Except Per.Fault (List CamPermission) :=
  if present = 2 then do
    let protectedZones ← pointerAt rsu 0
    pure (flagged .cenDsrcTollingZone protectedZones.isSome)
  else pure []

/-- The arguments of the calls of `add`, in their order. -/
def requiredPermissions (v : Value) : Except Per.Fault (List CamPermission) := do
  let params ← valueAt v [1,1]
  let highFrequency ← valueAt params [1]
  let (present,rsu) ← chosenOf highFrequency
  let zone ← zonePermissions present rsu
  let special ← pointerAt params 3
  match special with
  | none => pure zone
  | some special => do
    let (present,w) ← chosenOf special
    let more ← specialPermissions present w
    pure (zone ++ more)

def checkServiceSpecificPermissions {Flags : Type} (api : CamPermissions Flags) (v : Value)
    (ssp : Flags) : Except Per.Fault Bool := do
  let required ← requiredPermissions v
  pure (api.hasAll ssp (required.foldl api.add api.noFlags))

def Asks (special : Value) : CamPermission → Prop
  | .cenDsrcTollingZone => False
  | .publicTransport => (member [1] special).isSome = true
  | .specialTransport => (member [2] special).isSome = true
  | .dangerousGoods => (member [3] special).isSome = true
  | .roadwork => (member [4] special).isSome = true
  | .rescue => (member [5] special).isSome = true
  | .emergency => (member [6] special).isSome = true
  | .safetyCar => (member [7] special).isSome = true
  | .closedLanes => (member [4,2] special).isSome = true
  | .requestForRightOfWay => ∃ buf unused, member [6,2] special = some (.bits buf unused) ∧
      (bitsOf buf unused)[0]? = some true
  | .requestForFreeCrossingAtTrafficLight => ∃ buf unused,
      member [6,2] special = some (.bits buf unused) ∧ (bitsOf buf unused)[1]? = some true
  | .noPassing => member [7,2] special = some (.native 0)
  | .noPassingForTrucks => member [7,2] special = some (.native 1)
  | .speedLimit => (member [7,3] special).isSome = true

/-- What a message needs a permission for. -/
def Needs (v : Value) (p : CamPermission) : Prop :=
  (p = .cenDsrcTollingZone ∧ (member [1,1,1,2,0] v).isSome = true) ∨
    ∃ special, member [1,1,3] v = some special ∧ Asks special p

@[simp] theorem mem_flagged {p q : CamPermission} {flag : Bool} :
    q ∈ flagged p flag ↔ q = p ∧ flag = true := by
  cases flag <;> simp [flagged]

theorem CamPermissions.Laws.has_foldl_add {Flags : Type} {api : CamPermissions Flags}
    (laws : api.Laws) (required : List CamPermission) (flags : Flags) (p : CamPermission) :
    api.has (required.foldl api.add flags) p = true ↔ p ∈ required ∨ api.has flags p = true := by
  induction required generalizing flags with
  | nil => simp
  | cons q rest ih =>
    rw [List.foldl_cons,ih,laws.has_add,Bool.or_eq_true,decide_eq_true_iff,List.mem_cons]
    tauto

theorem CamPermissions.Laws.hasAll_added {Flags : Type} {api : CamPermissions Flags}
    (laws : api.Laws) (ssp : Flags) (required : List CamPermission) :
    api.hasAll ssp (required.foldl api.add api.noFlags) = true ↔
      ∀ p ∈ required, api.has ssp p = true := by
  rw [laws.hasAll_iff]
  refine forall_congr' fun p => imp_congr_left ?_
  rw [laws.has_foldl_add,laws.has_noFlags]
  simp

theorem pointerAt_ok {root additions : Fields} {extensible : Bool} {roms aoms : List Nat}
    {constraints : Option PerConstraints} {v : Value}
    (h : (Schema.sequence root extensible additions roms aoms).WellFormed constraints v)
    (i : Nat) {type : Schema} {info : FieldInfo} (hi : root.fieldAt i = some (type,info))
    (hdefault : info.defaultValueSet = none) :
    ∃ m, pointerAt v i = .ok m ∧ (∀ path, member (i :: path) v = m.bind (member path)) ∧
      ∀ w, m = some w → type.WellFormed info.constraints w := by
  obtain ⟨members,added,rfl,hmembers,_⟩ := h
  obtain ⟨m,hm,hwell⟩ := root.member_fieldAt i hi hdefault hmembers
  have hlt := (List.getElem?_eq_some_iff.mp hm).1
  have hslot := (@List.getElem?_append_left _ members added i hlt).trans hm
  refine ⟨m,?_,fun path => ?_,hwell⟩
  · rw [pointerAt,hslot]
  · cases m with
    | none => rw [member,hslot]; rfl
    | some w => rw [member_struct hslot]; rfl

theorem member_choice (path : List Nat) (present : Nat) (w : Value) :
    member (present :: path) (.choice present w) = member path w := by
  rw [member,if_pos rfl]

theorem priority_bits {priority : Value} (h : emergencyPriority.WellFormed none priority) :
    ∃ bits unused, priority = .bits [bits] unused ∧
      bitsOf [bits] unused = [bits.toNat.testBit 7,bits.toNat.testBit 6] := by
  obtain ⟨buf,unused,rfl,n,⟨hlen,hunused⟩,hcounts⟩ := h
  have htwo : n = 2 := by
    have hn := hcounts rfl (by decide)
    have hlow : (2 : Int) ≤ n := hn.1
    have hhigh : (n : Int) < 2+2^0 := hn.2
    omega
  subst htwo
  simp only at hlen hunused
  obtain ⟨bits,rfl⟩ := List.length_eq_one_iff.mp hlen
  refine ⟨bits,unused,rfl,?_⟩
  rw [hunused]
  rfl

theorem bit_set (n k : Nat) : decide (n &&& 1 <<< k ≠ 0) = n.testBit k := by
  rw [Nat.one_shiftLeft]
  cases hbit : n.testBit k with
  | true =>
    refine decide_eq_true fun hzero => ?_
    have hset : (n &&& 2^k).testBit k = true := by
      rw [Nat.testBit_and,hbit,Nat.testBit_two_pow_self]
      rfl
    rw [hzero,Nat.zero_testBit] at hset
    cases hset
  | false =>
    refine decide_eq_false (not_not.mpr (Nat.eq_of_testBit_eq fun i => ?_))
    rw [Nat.testBit_and,Nat.testBit_two_pow,Nat.zero_testBit]
    by_cases hi : k = i
    · rw [← hi,hbit,Bool.false_and]
    · rw [decide_eq_false hi,Bool.and_false]

theorem priorityPermissions_iff {m : Option Value}
    (h : ∀ w, m = some w → emergencyPriority.WellFormed none w) (p : CamPermission) :
    p ∈ priorityPermissions m ↔ ∃ buf unused, m = some (.bits buf unused) ∧
      ((p = .requestForRightOfWay ∧ (bitsOf buf unused)[0]? = some true) ∨
        (p = .requestForFreeCrossingAtTrafficLight ∧ (bitsOf buf unused)[1]? = some true)) := by
  cases m with
  | none => simp [priorityPermissions]
  | some priority =>
    obtain ⟨bits,unused,rfl,hbits⟩ := priority_bits (h priority rfl)
    have hfirst : decide (bits.toNat &&& 1 <<< (7-0) ≠ 0) = bits.toNat.testBit 7 := bit_set _ 7
    have hsecond : decide (bits.toNat &&& 1 <<< (7-1) ≠ 0) = bits.toNat.testBit 6 := bit_set _ 6
    rw [priorityPermissions,hfirst,hsecond,List.mem_append,mem_flagged,mem_flagged]
    simp [hbits]

theorem trafficRulePermissions_iff (m : Option Value) (p : CamPermission) :
    p ∈ trafficRulePermissions m ↔ (p = .noPassing ∧ m = some (.native 0)) ∨
      (p = .noPassingForTrucks ∧ m = some (.native 1)) := by
  cases m with
  | none => simp [trafficRulePermissions]
  | some v =>
    cases v with
    | native n =>
      by_cases hzero : n = 0
      · simp [trafficRulePermissions,hzero]
      · by_cases hone : n = 1 <;> simp [trafficRulePermissions,hzero,hone]
    | _ => simp [trafficRulePermissions]

theorem specialPermissions_iff {special : Value}
    (h : specialVehicleContainer.WellFormed none special) :
    ∃ present w more, special = .choice present w ∧ specialPermissions present w = .ok more ∧
      ∀ p, p ∈ more ↔ Asks special p := by
  obtain ⟨i,hi,w,rfl,hw⟩ := h
  have hi : i < 7 := hi
  obtain rfl | rfl | rfl | rfl | rfl | rfl | rfl :
    i = 0 ∨ i = 1 ∨ i = 2 ∨ i = 3 ∨ i = 4 ∨ i = 5 ∨ i = 6 := by omega
  · exact ⟨1,w,_,rfl,rfl,fun p => by cases p <;> simp [Asks,member]⟩
  · exact ⟨2,w,_,rfl,rfl,fun p => by cases p <;> simp [Asks,member]⟩
  · exact ⟨3,w,_,rfl,rfl,fun p => by cases p <;> simp [Asks,member]⟩
  · have hw : roadWorksContainerBasic.WellFormed none w := hw
    obtain ⟨m,hm,hmember,_⟩ := pointerAt_ok hw 2 rfl rfl
    refine ⟨4,w,.roadwork :: flagged .closedLanes m.isSome,rfl,?_,fun p => ?_⟩
    · rw [specialPermissions,hm]
      rfl
    · have hlanes : member [2] w = m := (hmember []).trans (by cases m <;> rfl)
      cases p <;> simp [Asks,member,hlanes]
  · exact ⟨5,w,_,rfl,rfl,fun p => by cases p <;> simp [Asks,member]⟩
  · have hw : emergencyContainer.WellFormed none w := hw
    obtain ⟨m,hm,hmember,hwell⟩ := pointerAt_ok hw 2 rfl rfl
    refine ⟨6,w,.emergency :: priorityPermissions m,rfl,?_,fun p => ?_⟩
    · rw [specialPermissions,hm]
      rfl
    · have hpriority : member [2] w = m := (hmember []).trans (by cases m <;> rfl)
      rw [List.mem_cons,priorityPermissions_iff hwell]
      cases p <;> simp [Asks,member,hpriority]
  · have hw : safetyCarContainer.WellFormed none w := hw
    obtain ⟨m,hm,hmember,_⟩ := pointerAt_ok hw 2 rfl rfl
    obtain ⟨m',hm',hmember',_⟩ := pointerAt_ok hw 3 rfl rfl
    refine ⟨7,w,.safetyCar :: (trafficRulePermissions m ++ flagged .speedLimit m'.isSome),rfl,?_,
      fun p => ?_⟩
    · rw [specialPermissions,hm,hm']
      rfl
    · have hrule : member [2] w = m := (hmember []).trans (by cases m <;> rfl)
      have hlimit : member [3] w = m' := (hmember' []).trans (by cases m' <;> rfl)
      rw [List.mem_cons,List.mem_append,trafficRulePermissions_iff,mem_flagged]
      cases p <;> simp [Asks,member,hrule,hlimit]

theorem zonePermissions_iff {high : Value} (h : highFrequencyContainer.WellFormed none high) :
    ∃ present w zone, high = .choice present w ∧ zonePermissions present w = .ok zone ∧
      ∀ p, p ∈ zone ↔ p = .cenDsrcTollingZone ∧ (member [2,0] high).isSome = true := by
  obtain ⟨i,hi,w,rfl,hw⟩ := h
  have hi : i < 2 := hi
  obtain rfl | rfl : i = 0 ∨ i = 1 := by omega
  · exact ⟨1,w,[],rfl,rfl,fun p => by simp [member]⟩
  · have hw : rsuContainerHighFrequency.WellFormed none w := hw
    obtain ⟨m,hm,hmember,_⟩ := pointerAt_ok hw 0 rfl rfl
    refine ⟨2,w,flagged .cenDsrcTollingZone m.isSome,rfl,?_,fun p => ?_⟩
    · rw [zonePermissions,if_pos rfl,hm]
      rfl
    · have hzones : member [0] w = m := (hmember []).trans (by cases m <;> rfl)
      rw [mem_flagged,member_choice,hzones]

/-- The permissions that a well formed message is checked for are those that it needs. -/
theorem requiredPermissions_iff {v : Value} (h : cam.WellFormed none v) :
    ∃ required, requiredPermissions v = .ok required ∧ ∀ p, p ∈ required ↔ Needs v p := by
  obtain ⟨params,hparams,hcontainers⟩ := cam.member_typeAt none [1,1] camParameters none v rfl h
  have hpath : ∀ path, member (1 :: 1 :: path) v = member path params := fun path =>
    (member_append [1,1] path v).trans (by rw [hparams]; rfl)
  obtain ⟨high,hhigh,hchoice⟩ := camParameters.member_typeAt none [1] highFrequencyContainer none
    params rfl hcontainers
  have hzonePath : member [1,1,1,2,0] v = member [2,0] high :=
    (hpath [1,2,0]).trans ((member_append [1] [2,0] params).trans (by rw [hhigh]; rfl))
  obtain ⟨present,w,zone,rfl,hzone,hzones⟩ := zonePermissions_iff hchoice
  obtain ⟨m,hm,hmember,hwell⟩ := pointerAt_ok hcontainers 3 rfl rfl
  have hspecial : member [1,1,3] v = m :=
    (hpath [3]).trans ((hmember []).trans (by cases m <;> rfl))
  cases m with
  | none =>
    refine ⟨zone,?_,fun p => ?_⟩
    · simp only [requiredPermissions,valueAt,hparams,hhigh,chosenOf,hzone,hm,PartialRun.ok_bind]
      rfl
    · rw [hzones,Needs,hzonePath,hspecial]
      simp
  | some special =>
    obtain ⟨present',w',more,rfl,hmore,hasks⟩ := specialPermissions_iff (hwell special rfl)
    refine ⟨zone ++ more,?_,fun p => ?_⟩
    · simp only [requiredPermissions,valueAt,hparams,hhigh,chosenOf,hzone,hm,hmore,
        PartialRun.ok_bind]
      rfl
    · rw [List.mem_append,hzones,hasks,Needs,hzonePath,hspecial]
      simp

/-- Whatever bytes are accepted as a message, its permissions are checked without a fault, and
it passes exactly if its sender has them all. -/
theorem permissions_checked {Flags : Type} (api : CamPermissions Flags) (laws : api.Laws)
    (stack : Tmpspace) (buffer : List UInt8) :
    ∃ rval, decodePer ((cam.descriptor stack).uperDecoder none) buffer = .ok rval ∧
      ∀ v consumed, rval = some (v,consumed) → ∀ ssp, ∃ granted,
        checkServiceSpecificPermissions api v ssp = .ok granted ∧
        (granted = true ↔ ∀ p, Needs v p → api.has ssp p = true) := by
  obtain ⟨rval,hrun,hall⟩ := decodePer_ensures (cam.yields stack none cam_sound) buffer
  refine ⟨rval,hrun,fun v consumed hrval ssp => ?_⟩
  obtain ⟨required,hrequired,hneeds⟩ := requiredPermissions_iff (hall (v,consumed) hrval)
  refine ⟨api.hasAll ssp (required.foldl api.add api.noFlags),?_,?_⟩
  · rw [checkServiceSpecificPermissions,hrequired]
    rfl
  · rw [laws.hasAll_added]
    exact forall_congr' fun p => imp_congr_left (hneeds p)

def listedPermissions : CamPermissions (List CamPermission) where
  noFlags := []
  add := fun flags p => p :: flags
  has := fun flags p => decide (p ∈ flags)
  hasAll := fun flags required => required.all fun p => decide (p ∈ flags)

theorem listedPermissions_laws : listedPermissions.Laws where
  has_noFlags := fun _ => rfl
  has_add := fun flags p q => by simp [listedPermissions,Bool.decide_or]
  hasAll_iff := fun flags required => by simp [listedPermissions]

theorem permissions_checked_roadWorks :
    ∃ v consumed, decodePer ((cam.descriptor zeroStack).uperDecoder none) sampleCamBytes =
        .ok (some (v,consumed)) ∧
      ∀ ssp, ∃ granted, checkServiceSpecificPermissions listedPermissions v ssp = .ok granted ∧
        (granted = true ↔ ∀ p, Needs v p → listedPermissions.has ssp p = true) := by
  obtain ⟨v,consumed,hdecoded⟩ := sampleCamBytes_accepted
  obtain ⟨rval,hrun,hchecked⟩ :=
    permissions_checked listedPermissions listedPermissions_laws zeroStack sampleCamBytes
  cases hrun.symm.trans hdecoded
  exact ⟨v,consumed,hdecoded,hchecked v consumed rfl⟩

end Mitvane.Its

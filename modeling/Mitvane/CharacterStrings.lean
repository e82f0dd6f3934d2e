import Mitvane.DenmTypes

/-! Character strings as they are received, and the checkers that the compiler writes for
them. Nothing calls these for a received message. -/
set_option autoImplicit false

namespace Mitvane.Per
open PartialRun BitString

section Characters
variable {pc : Option PerConstraints} {P : UInt8 → Prop}

theorem getUnits_all {unit : Get UInt8} (h : Get.Ensures unit P) (n : Nat) :
    Get.Ensures (getUnits unit n) (fun buf => ∀ ch ∈ buf, P ch) := by
  induction n with
  | zero => exact .pure fun _ hch => nomatch hch
  | succ n ih =>
    exact h.bind fun ch hch => ih.bind fun rest hrest =>
      .pure (List.forall_mem_cons.mpr ⟨hch,hrest⟩)

theorem getString_all {chunk : Nat → Get (List UInt8)}
    (h : ∀ n, Get.Ensures (chunk n) (fun buf => ∀ ch ∈ buf, P ch)) (csiz : PerConstraint) :
    Get.Ensures (getString csiz chunk) (fun buf => ∀ ch ∈ buf, P ch) := by
  unfold getString
  split
  · exact h _
  · split
    · rename_i hbits
      exact (uperGetLength_sized hbits _).bind fun r _ => h r.1
    · refine getFragments_ensures (fun _ hch => nomatch hch)
        (fun units rest hunits hrest ch hch => ?_) fun n _ => h n
      exact (List.mem_append.mp hch).elim (hunits ch) (hrest ch)

def Permits (pc : Option PerConstraints) (bits : Nat) (P : UInt8 → Prop) : Prop :=
  bits ≠ 8 ∧
    if asIs (stringValues pc) bits then
      ∀ ch : UInt8, (ch.toNat : Int) ≤ (stringValues pc).upperBound → P ch
    else ∃ map, pc.bind (·.code2value) = some map ∧
      ∀ code value, map code = some value → P (UInt8.ofNat value)

theorem getCharacters_all {bits : Nat} (h : Permits pc bits P) (units : Nat) :
    Get.Ensures (getCharacters pc bits units) (fun buf => ∀ ch ∈ buf, P ch) := by
  obtain ⟨hbits,hchars⟩ := h
  unfold getCharacters
  simp only
  split
  · rename_i hasIs
    rw [if_pos hasIs] at hchars
    rw [getCopied,if_neg (fun hcopy => hbits hcopy.2)]
    refine getUnits_all ((getBits_ensures bits).bind fun code _ => ?_) units
    split
    · exact .fail
    · rename_i hin
      refine .pure (hchars _ ?_)
      rw [UInt8.toNat_ofNat']
      omega
  · rename_i hasIs
    rw [if_neg hasIs] at hchars
    obtain ⟨map,hmap,hall⟩ := hchars
    rw [hmap]
    simp only
    split
    · exact .fail
    · refine getUnits_all ((getBits_ensures bits).bind fun code _ => ?_) units
      split
      · exact .fail
      · rename_i value hvalue
        exact .pure (hall code value hvalue)

theorem octetString_permitted {own constraints : Option PerConstraints}
    (hfixed : (stringSize (chosen own constraints)).extensible = false)
    (h : Permits (chosen own constraints)
      (unitBits (stringValues (chosen own constraints)) false) P) :
    (octetString own).Yields constraints
      (fun v => ∀ buf, v = .octets buf → ∀ ch ∈ buf, P ch) := by
  have hread : Get.Ensures (octetStringDecodeUper (chosen own constraints))
      (fun r => ∀ ch ∈ r.1, P ch) := by
    refine (getRoot_ensures _).bind fun root hroot => ?_
    have hsome : root = some (stringSize (chosen own constraints)) := by
      rcases hroot with hroot | hroot
      · exact hroot
      · rw [hroot.2 _ rfl] at hfixed
        cases hfixed
    subst hsome
    exact (getString_all (getCharacters_all h) _).bind fun buf hbuf => .pure hbuf
  refine hread.bind fun r hr => .pure fun buf hbuf => ?_
  cases hbuf
  exact hr

end Characters

def stringConstraint (lower upper : Nat) (permitted : UInt8 → Bool) (buf : List UInt8) : Bool :=
  decide (lower ≤ buf.length ∧ buf.length ≤ upper) && buf.all permitted

section Checkers
variable {own constraints : Option PerConstraints} {k : PerConstraints} {lower : Nat}
  {permitted : UInt8 → Bool}

/-- A received string passes its checker unless it is too long, and it can be as long as the
bits of its size say. -/
theorem received_stringConstraint (upper : Nat) {most : Nat} (hk : chosen own constraints = some k)
    (hfixed : k.size.extensible = false ∧ 0 ≤ k.size.effectiveBits) (hsound : k.size.SoundSize)
    (hlower : k.size.lowerBound = lower) (hmost : lower+2^k.size.effectiveBits.toNat = most+1)
    (hpermits : Permits (some k) (unitBits k.value false) (permitted · = true)) :
    (octetString own).Yields constraints (fun v => ∃ buf, v = .octets buf ∧ buf.length ≤ most ∧
      (stringConstraint lower upper permitted buf = true ↔ buf.length ≤ upper)) := by
  have hsize := octetString_yields own constraints
  have hchars := @octetString_permitted _ own constraints
    (by rw [hk]; exact hfixed.1) (by rw [hk]; exact hpermits)
  refine (Get.Ensures.and hsize hchars).mono fun r hr => ?_
  obtain ⟨⟨buf,hbuf,hcounts⟩,hall⟩ := hr
  rw [hk] at hcounts
  obtain ⟨hmin,hmax⟩ := hcounts hsound hfixed.1 hfixed.2
  change k.size.lowerBound ≤ buf.length at hmin
  change (buf.length : Int) < k.size.lowerBound+2^k.size.effectiveBits.toNat at hmax
  rw [hlower] at hmin hmax
  have hlen : buf.length < most+1 := by
    rw [← hmost]
    exact_mod_cast hmax
  refine ⟨buf,hbuf,by omega,?_⟩
  have hpassed : buf.all permitted = true := List.all_eq_true.mpr (hall buf hbuf)
  rw [stringConstraint,hpassed,Bool.and_true,decide_eq_true_eq]
  omega

theorem received_string_passes {upper : Nat} (hk : chosen own constraints = some k)
    (hfixed : k.size.extensible = false ∧ 0 ≤ k.size.effectiveBits) (hsound : k.size.SoundSize)
    (hlower : k.size.lowerBound = lower) (hfull : lower+2^k.size.effectiveBits.toNat = upper+1)
    (hpermits : Permits (some k) (unitBits k.value false) (permitted · = true)) :
    (octetString own).Yields constraints (fun v => ∃ buf, v = .octets buf ∧
      stringConstraint lower upper permitted buf = true) := by
  refine (received_stringConstraint upper hk hfixed hsound hlower hfull hpermits).mono
    fun r hr => ?_
  obtain ⟨buf,hbuf,hlen,hpass⟩ := hr
  exact ⟨buf,hbuf,hpass.mpr hlen⟩

end Checkers

end Mitvane.Per

namespace Mitvane.Its
open Per

def phoneNumberConstraint : List UInt8 → Bool :=
  stringConstraint 1 16 fun cv => decide (permittedAlphabetTable cv.toNat ≠ 0)

def ia5Character (cv : UInt8) : Bool := decide (cv.toNat ≤ 127)

def vdsConstraint : List UInt8 → Bool := stringConstraint 6 6 ia5Character

def wmInumberConstraint : List UInt8 → Bool := stringConstraint 1 3 ia5Character

def emergencyActionCodeConstraint : List UInt8 → Bool := stringConstraint 1 24 ia5Character

theorem permits_ia5 (size : PerConstraint) : Permits (some ⟨constrained 7 7 0 127,size,none,none⟩) 7
    (ia5Character · = true) := by
  refine ⟨by decide,?_⟩
  rw [if_pos (by rfl)]
  intro ch hch
  have hch : (ch.toNat : Int) ≤ 127 := hch
  exact decide_eq_true (by omega)

theorem permits_phone (size : PerConstraint) :
    Permits (some ⟨constrained 4 4 32 57,size,some phoneNumberV2c,some phoneNumberC2v⟩) 4
      (fun cv => decide (permittedAlphabetTable cv.toNat ≠ 0) = true) := by
  refine ⟨by decide,?_⟩
  rw [if_neg (ne_of_beq_false rfl)]
  refine ⟨phoneNumberC2v,rfl,fun code value hvalue => decide_eq_true ?_⟩
  have hin : value ∈ permittedAlphabetCode2value := List.mem_of_getElem? hvalue
  have hall : ∀ value ∈ permittedAlphabetCode2value,
      permittedAlphabetTable (UInt8.ofNat value).toNat ≠ 0 := by decide
  exact hall value hin

/-- Every telephone number and every descriptor of a vehicle that is received passes its
checker. A manufacturer's identifier does so unless it has four characters, and an emergency
action code unless it has more than 24 of the 32 that it can have. -/
theorem received_strings_checked (stack : Tmpspace) :
    (phoneNumber.descriptor stack).Yields none (fun v => ∃ buf, v = .octets buf ∧
      phoneNumberConstraint buf = true) ∧
    (vds.descriptor stack).Yields none (fun v => ∃ buf, v = .octets buf ∧
      vdsConstraint buf = true) ∧
    (wmInumber.descriptor stack).Yields none (fun v => ∃ buf, v = .octets buf ∧
      buf.length ≤ 4 ∧ (wmInumberConstraint buf = true ↔ buf.length ≤ 3)) ∧
    (ia5String.descriptor stack).Yields
      (some ⟨constrained 7 7 0 127,constrained 5 5 1 24,none,none⟩) (fun v => ∃ buf,
        v = .octets buf ∧ buf.length ≤ 32 ∧
        (emergencyActionCodeConstraint buf = true ↔ buf.length ≤ 24)) ∧
    ∃ buf, decodePer ((wmInumber.descriptor stack).uperDecoder none) [0xD0,0x60,0xC1,0x80] =
      .ok (some (.octets buf,0)) ∧ wmInumberConstraint buf = false := by
  refine ⟨?_,?_,?_,?_,_,rfl,rfl⟩
  · exact received_string_passes rfl (by decide) (by decide) rfl rfl (permits_phone _)
  · exact received_string_passes rfl (by decide) (by decide) rfl rfl (permits_ia5 _)
  · exact received_stringConstraint 3 rfl (by decide) (by decide) rfl rfl (permits_ia5 _)
  · exact received_stringConstraint 24 rfl (by decide) (by decide) rfl rfl (permits_ia5 _)

end Mitvane.Its

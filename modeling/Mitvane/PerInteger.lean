import Mitvane.OpenType

set_option autoImplicit false

namespace Mitvane.Per
open PartialRun BitString

def longMin : Int := -9223372036854775808

def longMax : Int := 9223372036854775807

def IsLong (x : Int) : Prop := longMin ≤ x ∧ x ≤ longMax

instance (x : Int) : Decidable (IsLong x) := inferInstanceAs (Decidable (_ ∧ _))

/-- The result of a signed operation. -/
def toLong (x : Int) : Except Fault Int :=
  if longMin ≤ x ∧ x ≤ longMax then .ok x else .error .overflow

def toUlong (x : Int) : Nat := (x % 18446744073709551616).toNat

/-- An `unsigned long` as `long`. -/
def toSigned (u : Nat) : Int :=
  if u < 9223372036854775808 then u else (u : Int)-18446744073709551616

def perLongRange (lb ub : Int) : Except Fault Nat :=
  if decide (ub < 0) = decide (lb < 0) then do
    let boundsRange ← toLong (ub-lb)
    pure (toUlong boundsRange)
  else if lb < 0 then
    if ub < 0 then .error .assertion
    else do
      let below ← toLong (lb+1)
      let below ← toLong (-below)
      pure (toUlong (1+(toUlong ub+toUlong below)))
  else .error .assertion

/-- The offset of a number in a range; `none` for `-1`. -/
def perLongRangeRebase (v lb ub : Int) : Except Fault (Option Nat) :=
  if ub < lb then .error .assertion
  else if v < lb ∨ ub < v then .ok none
  else do
    let range ← perLongRange lb ub
    if decide (v < 0) = decide (lb < 0) then do
      let offset ← toLong (v-lb)
      pure (some (toUlong offset))
    else if v < 0 then do
      let below ← toLong (v+1)
      let below ← toLong (-below)
      let rebased := toUlong (1+toUlong below+toUlong lb)
      if rebased ≤ range then pure (some rebased) else .error .assertion
    else if lb < 0 then do
      let below ← toLong (lb+1)
      let below ← toLong (-below)
      let rebased := toUlong (1+toUlong below+toUlong v)
      if rebased ≤ range then pure (some rebased) else .error .assertion
    else .error .assertion

/-- The number at an offset; `none` for `-1`. -/
def perLongRangeUnrebase (inp : Nat) (lb ub : Int) : Except Fault (Option Int) := do
  let range ← perLongRange lb ub
  if range < inp then pure none
  else if (inp : Int) ≤ longMax then do
    let v ← toLong (inp+lb)
    pure (some v)
  else do
    let base ← toLong (lb+longMax)
    let base ← toLong (base+1)
    let more ← toLong ((inp : Int)-longMax-1)
    let v ← toLong (base+more)
    pure (some v)

theorem toLong_ok {x : Int} (h : IsLong x) : toLong x = .ok x := if_pos h

theorem toUlong_eq {x : Int} (h : 0 ≤ x) (h' : x < 18446744073709551616) : toUlong x = x.toNat := by
  unfold toUlong
  omega

theorem perLongRange_eq {lb ub : Int} (hlb : IsLong lb) (hub : IsLong ub) (h : lb ≤ ub) :
    perLongRange lb ub = .ok (ub-lb).toNat := by
  unfold IsLong longMin longMax at hlb hub
  unfold perLongRange
  by_cases hsign : decide (ub < 0) = decide (lb < 0)
  · have hlong : IsLong (ub-lb) := by
      rw [decide_eq_decide] at hsign
      unfold IsLong longMin longMax
      omega
    rw [if_pos hsign,toLong_ok hlong,ok_bind,toUlong_eq (by omega) (by omega)]
    rfl
  · rw [decide_eq_decide] at hsign
    have hbelow : IsLong (lb+1) := by unfold IsLong longMin longMax; omega
    have hminus : IsLong (-(lb+1)) := by unfold IsLong longMin longMax; omega
    rw [if_neg (by rw [decide_eq_decide]; exact hsign),if_pos (by omega),if_neg (by omega),
      toLong_ok hbelow,ok_bind,toLong_ok hminus,ok_bind,toUlong_eq (x := ub) (by omega) (by omega),
      toUlong_eq (x := -(lb+1)) (by omega) (by omega),toUlong_eq (by omega) (by omega)]
    congr 1
    omega

theorem perLongRangeRebase_eq {v lb ub : Int} (hv : IsLong v) (hlb : IsLong lb) (hub : IsLong ub)
    (h : lb ≤ ub) :
    perLongRangeRebase v lb ub = .ok (if lb ≤ v ∧ v ≤ ub then some (v-lb).toNat else none) := by
  unfold perLongRangeRebase
  rw [if_neg (by omega)]
  by_cases hin : lb ≤ v ∧ v ≤ ub
  · rw [if_neg (by omega),if_pos hin,perLongRange_eq hlb hub h,ok_bind]
    unfold IsLong longMin longMax at hlb hub hv
    by_cases hsign : decide (v < 0) = decide (lb < 0)
    · have hlong : IsLong (v-lb) := by
        rw [decide_eq_decide] at hsign
        unfold IsLong longMin longMax
        omega
      rw [if_pos hsign,toLong_ok hlong,ok_bind,toUlong_eq (by omega) (by omega)]
      rfl
    · rw [decide_eq_decide] at hsign
      have hbelow : IsLong (lb+1) := by unfold IsLong longMin longMax; omega
      have hminus : IsLong (-(lb+1)) := by unfold IsLong longMin longMax; omega
      have hrebased : toUlong (1+toUlong (-(lb+1))+toUlong v) = (v-lb).toNat := by
        rw [toUlong_eq (x := -(lb+1)) (by omega) (by omega),
          toUlong_eq (x := v) (by omega) (by omega),toUlong_eq (by omega) (by omega)]
        omega
      rw [if_neg (by rw [decide_eq_decide]; exact hsign),if_neg (by omega),if_pos (by omega),
        toLong_ok hbelow,ok_bind,toLong_ok hminus,ok_bind]
      simp only [hrebased]
      rw [if_pos (by omega)]
      rfl
  · rw [if_pos (by omega),if_neg hin]

theorem perLongRangeUnrebase_eq {inp : Nat} {lb ub : Int} (hinp : inp < 18446744073709551616)
    (hlb : IsLong lb) (hub : IsLong ub) (h : lb ≤ ub) :
    perLongRangeUnrebase inp lb ub =
      .ok (if (inp : Int) ≤ ub-lb then some (lb+inp) else none) := by
  unfold perLongRangeUnrebase
  rw [perLongRange_eq hlb hub h,ok_bind]
  unfold IsLong longMin longMax at hlb hub
  by_cases hin : (inp : Int) ≤ ub-lb
  · rw [if_neg (by omega),if_pos hin]
    by_cases hsmall : (inp : Int) ≤ longMax
    · have hlong : IsLong (inp+lb) := by unfold IsLong longMin longMax; omega
      rw [if_pos hsmall,toLong_ok hlong,ok_bind,Int.add_comm]
      rfl
    · unfold longMax at hsmall ⊢
      have h1 : IsLong (lb+9223372036854775807) := by unfold IsLong longMin longMax; omega
      have h2 : IsLong (lb+9223372036854775807+1) := by unfold IsLong longMin longMax; omega
      have h3 : IsLong ((inp : Int)-9223372036854775807-1) := by
        unfold IsLong longMin longMax
        omega
      have h4 : IsLong (lb+9223372036854775807+1+((inp : Int)-9223372036854775807-1)) := by
        unfold IsLong longMin longMax
        omega
      rw [if_neg hsmall,toLong_ok h1,ok_bind,toLong_ok h2,ok_bind,toLong_ok h3,ok_bind,
        toLong_ok h4,ok_bind]
      congr 2
      omega
  · rw [if_pos (by omega),if_neg hin]
    rfl

/-- The numbers of a range and the offsets up to its length stand for each other, whatever the
range; no other number has an offset, and no other offset a number. -/
theorem rebase_unrebase {lb ub : Int} (hlb : IsLong lb) (hub : IsLong ub) (h : lb ≤ ub) :
    (∀ v, lb ≤ v → v ≤ ub → ∃ offset, perLongRangeRebase v lb ub = .ok (some offset) ∧
      perLongRangeUnrebase offset lb ub = .ok (some v)) ∧
    (∀ offset : Nat, (offset : Int) ≤ ub-lb → ∃ v, lb ≤ v ∧ v ≤ ub ∧
      perLongRangeUnrebase offset lb ub = .ok (some v) ∧
      perLongRangeRebase v lb ub = .ok (some offset)) ∧
    (∀ v, IsLong v → ¬ (lb ≤ v ∧ v ≤ ub) → perLongRangeRebase v lb ub = .ok none) ∧
    (∀ offset : Nat, offset < 18446744073709551616 → ub-lb < (offset : Int) →
      perLongRangeUnrebase offset lb ub = .ok none) := by
  have hrebase : ∀ v, lb ≤ v → v ≤ ub →
      perLongRangeRebase v lb ub = .ok (some (v-lb).toNat) := by
    intro v hlow hhigh
    have hv : IsLong v := ⟨hlb.1.trans hlow,hhigh.trans hub.2⟩
    rw [perLongRangeRebase_eq hv hlb hub h,if_pos ⟨hlow,hhigh⟩]
  have hunrebase : ∀ offset : Nat, (offset : Int) ≤ ub-lb →
      perLongRangeUnrebase offset lb ub = .ok (some (lb+offset)) := by
    intro offset hin
    have hoffset : offset < 18446744073709551616 := by
      unfold IsLong longMin longMax at hlb hub
      omega
    rw [perLongRangeUnrebase_eq hoffset hlb hub h,if_pos hin]
  refine ⟨?_,?_,?_,?_⟩
  · intro v hlow hhigh
    refine ⟨_,hrebase v hlow hhigh,?_⟩
    rw [hunrebase _ (by omega)]
    congr 2
    omega
  · intro offset hin
    refine ⟨lb+offset,by omega,by omega,hunrebase offset hin,?_⟩
    rw [hrebase _ (by omega) (by omega)]
    congr 2
    omega
  · intro v hv hout
    rw [perLongRangeRebase_eq hv hlb hub h,if_neg hout]
  · intro offset hoffset hout
    rw [perLongRangeUnrebase_eq hoffset hlb hub h,if_neg (by omega)]

theorem rebase_unrebase_long :
    (∀ v, longMin ≤ v → v ≤ longMax → ∃ offset,
      perLongRangeRebase v longMin longMax = .ok (some offset) ∧
      perLongRangeUnrebase offset longMin longMax = .ok (some v)) ∧
    (∀ offset : Nat, (offset : Int) ≤ longMax-longMin → ∃ v, longMin ≤ v ∧ v ≤ longMax ∧
      perLongRangeUnrebase offset longMin longMax = .ok (some v) ∧
      perLongRangeRebase v longMin longMax = .ok (some offset)) ∧
    (∀ v, IsLong v → ¬ (longMin ≤ v ∧ v ≤ longMax) →
      perLongRangeRebase v longMin longMax = .ok none) ∧
    (∀ offset : Nat, offset < 18446744073709551616 → longMax-longMin < (offset : Int) →
      perLongRangeUnrebase offset longMin longMax = .ok none) :=
  rebase_unrebase (by decide) (by decide) (by decide)

/-- Skip out the insignificant leading bytes. -/
def significant : List UInt8 → List UInt8
  | a :: b :: bytes =>
    if (a = 0x00 ∧ b.toNat &&& 0x80 = 0) ∨ (a = 0xff ∧ b.toNat &&& 0x80 ≠ 0) then
      significant (b :: bytes)
    else a :: b :: bytes
  | bytes => bytes

def asnImax2INTEGER (value : Int) : List UInt8 := significant (wordBytes 8 (toUlong value))

def asnLong2INTEGER (value : Int) : List UInt8 := asnImax2INTEGER value

/-- The argument is converted to a signed number. -/
def asnUlong2INTEGER (value : Nat) : List UInt8 := asnImax2INTEGER (toSigned value)

def convertFrom (value : Nat) (bytes : List UInt8) : Nat :=
  bytes.foldl (fun value b => value <<< 8 % 18446744073709551616 ||| b.toNat) value

def asnIntegerConvert : List UInt8 → Int
  | [] => 0
  | b :: bytes => toSigned
      (convertFrom (if b.toNat >>> 7 ≠ 0 then 18446744073709551615 else 0) (b :: bytes))

def asnINTEGER2imax (st : List UInt8) : Option Int :=
  let b := if 8 < st.length then significant st else st
  if 8 < b.length then none
  else if b.length = 0 then some 0
  else some (asnIntegerConvert b)

def asnINTEGER2long (st : List UInt8) : Option Int :=
  match asnINTEGER2imax st with
  | some v => if v < longMin ∨ longMax < v then none else some v
  | none => none

def withoutZeros : List UInt8 → Option (List UInt8)
  | [] => some []
  | b :: bytes =>
    if 8 < (b :: bytes).length then
      if b ≠ 0 then none else withoutZeros bytes
    else some (b :: bytes)

def asnINTEGER2ulong (st : List UInt8) : Option Nat := (withoutZeros st).map (convertFrom 0)

def signedOf : List UInt8 → Int
  | [] => 0
  | b :: bytes =>
    (value (ofBytes (b :: bytes)) : Int)-
      if 128 ≤ b.toNat then ((2^(8*(bytes.length+1)) : Nat) : Int) else 0

theorem and_sign_eq_zero (b : UInt8) : b.toNat &&& 0x80 = 0 ↔ b.toNat < 128 := by
  have hmask := @and_high _ 0x80 7 b.toNat_lt (by decide)
  rw [hmask]
  omega

theorem value_ofBytes_cons (b : UInt8) (bytes : List UInt8) :
    value (ofBytes (b :: bytes)) = b.toNat*2^(8*bytes.length)+value (ofBytes bytes) := by
  rw [BitData.value_ofBytes_cons,Nat.shiftLeft_eq]

theorem pow_octet (k : Nat) : 2^(8*(k+1)) = 256*2^(8*k) := by
  rw [show 8*(k+1) = 8+8*k by omega,Nat.pow_add]

theorem significant_signedOf (bytes : List UInt8) :
    signedOf (significant bytes) = signedOf bytes := by
  induction bytes with
  | nil => rfl
  | cons a bytes ih =>
    cases bytes with
    | nil => rfl
    | cons b bytes =>
      unfold significant
      by_cases hskip : (a = 0x00 ∧ b.toNat &&& 0x80 = 0) ∨ (a = 0xff ∧ b.toNat &&& 0x80 ≠ 0)
      · rw [if_pos hskip,ih]
        simp only [signedOf,value_ofBytes_cons a,List.length_cons]
        rcases hskip with h | h
        · obtain ⟨ha,hb⟩ := h
          rw [and_sign_eq_zero] at hb
          subst ha
          rw [if_neg (by omega),if_neg (by decide)]
          simp
        · obtain ⟨ha,hb⟩ := h
          rw [Ne,and_sign_eq_zero] at hb
          subst ha
          have hff : (255 : UInt8).toNat = 255 := rfl
          rw [if_pos (by omega),if_pos (by decide),hff]
          rw [pow_octet (bytes.length+1)]
          omega
      · rw [if_neg hskip]

theorem significant_length (bytes : List UInt8) : (significant bytes).length ≤ bytes.length := by
  induction bytes with
  | nil => exact Nat.le_refl _
  | cons a bytes ih =>
    cases bytes with
    | nil => exact Nat.le_refl _
    | cons b bytes =>
      unfold significant
      split
      · exact Nat.le_succ_of_le ih
      · exact Nat.le_refl _

theorem significant_ne_nil (a : UInt8) (bytes : List UInt8) : significant (a :: bytes) ≠ [] := by
  induction bytes generalizing a with
  | nil => simp [significant]
  | cons b bytes ih =>
    unfold significant
    split
    · exact ih b
    · simp

theorem convertFrom_eq (acc : Nat) (bytes : List UInt8) (hacc : acc < 18446744073709551616) :
    convertFrom acc bytes =
      (acc*2^(8*bytes.length)+value (ofBytes bytes)) % 18446744073709551616 := by
  induction bytes generalizing acc with
  | nil =>
    simp only [convertFrom,List.foldl_nil,List.length_nil,Nat.mul_zero,Nat.pow_zero,Nat.mul_one,
      ofBytes,value,Nat.add_zero]
    omega
  | cons b bytes ih =>
    have hb := b.toNat_lt
    have hstep : acc <<< 8 % 18446744073709551616 ||| b.toNat =
        (acc*256+b.toNat) % 18446744073709551616 := by
      have hmod : acc <<< 8 % 18446744073709551616 = (acc % 72057594037927936) <<< 8 := by
        rw [Nat.shiftLeft_eq,Nat.shiftLeft_eq]
        omega
      rw [hmod,← Nat.shiftLeft_add_eq_or_of_lt b.toNat_lt,Nat.shiftLeft_eq]
      omega
    have hfold : convertFrom acc (b :: bytes) =
        convertFrom (acc <<< 8 % 18446744073709551616 ||| b.toNat) bytes := rfl
    rw [hfold,hstep,ih _ (Nat.mod_lt _ (by decide)),value_ofBytes_cons,List.length_cons,pow_octet,
      Nat.add_mod,Nat.mod_mul_mod,← Nat.add_mod]
    congr 1
    ring

theorem asnIntegerConvert_eq {bytes : List UInt8} (hlen : bytes.length ≤ 8) :
    asnIntegerConvert bytes = signedOf bytes := by
  cases bytes with
  | nil => rfl
  | cons b bytes =>
    have hlt := value_lt (ofBytes (b :: bytes))
    rw [length_ofBytes,List.length_cons] at hlt
    have hle : 2^(8*(bytes.length+1)) ≤ 2^64 := by
      apply Nat.pow_le_pow_right (by decide)
      simp only [List.length_cons] at hlen
      omega
    have hhalf : 2^(8*(bytes.length+1)) = 2*(128*2^(8*bytes.length)) := by
      rw [pow_octet]
      omega
    have hsplit := value_ofBytes_cons b bytes
    have hrest := value_lt (ofBytes bytes)
    rw [length_ofBytes] at hrest
    have h64 : (2 : Nat)^64 = 18446744073709551616 := by decide
    rw [h64] at hle
    have hsign : b.toNat >>> 7 ≠ 0 ↔ 128 ≤ b.toNat := by
      rw [Nat.shiftRight_eq_div_pow]
      omega
    rw [asnIntegerConvert,signedOf]
    by_cases hneg : 128 ≤ b.toNat
    · have hlow : 128*2^(8*bytes.length) ≤ value (ofBytes (b :: bytes)) := by
        rw [hsplit]
        calc 128*2^(8*bytes.length) ≤ b.toNat*2^(8*bytes.length) := Nat.mul_le_mul_right _ hneg
          _ ≤ b.toNat*2^(8*bytes.length)+value (ofBytes bytes) := Nat.le_add_right _ _
      rw [if_pos (hsign.mpr hneg),if_pos hneg,convertFrom_eq _ _ (by decide),List.length_cons]
      generalize value (ofBytes (b :: bytes)) = word at *
      generalize 2^(8*(bytes.length+1)) = power at *
      have hword : 18446744073709551615*power+word =
          (18446744073709551616-power+word)+18446744073709551616*(power-1) := by omega
      rw [hword,Nat.add_mul_mod_self_left,Nat.mod_eq_of_lt (by omega),toSigned,if_neg (by omega)]
      omega
    · have hhigh : value (ofBytes (b :: bytes)) < 128*2^(8*bytes.length) := by
        rw [hsplit]
        calc b.toNat*2^(8*bytes.length)+value (ofBytes bytes)
            < b.toNat*2^(8*bytes.length)+2^(8*bytes.length) := Nat.add_lt_add_left hrest _
          _ = (b.toNat+1)*2^(8*bytes.length) := (Nat.succ_mul _ _).symm
          _ ≤ 128*2^(8*bytes.length) := Nat.mul_le_mul_right _ (by omega)
      rw [if_neg (fun h => hneg (hsign.mp h)),if_neg hneg,convertFrom_eq _ _ (by decide)]
      generalize value (ofBytes (b :: bytes)) = word at *
      rw [Nat.zero_mul,Nat.zero_add,Nat.mod_eq_of_lt (by omega),toSigned,if_pos (by omega)]
      omega

theorem asnINTEGER2imax_eq {st : List UInt8} (h : st.length ≤ 8 ∨ (significant st).length ≤ 8) :
    asnINTEGER2imax st = some (signedOf st) := by
  have hconvert : ∀ b : List UInt8, b.length ≤ 8 →
      (if 8 < b.length then none else if b.length = 0 then some 0
        else some (asnIntegerConvert b)) = some (signedOf b) := by
    intro b hb
    rw [if_neg (by omega)]
    by_cases hzero : b.length = 0
    · rw [if_pos hzero,List.eq_nil_of_length_eq_zero hzero]
      rfl
    · rw [if_neg hzero,asnIntegerConvert_eq hb]
  unfold asnINTEGER2imax
  by_cases hlong : 8 < st.length
  · simp only [if_pos hlong]
    rw [hconvert _ (by omega),significant_signedOf]
  · have hshort := hconvert st (by omega)
    rw [if_neg hlong] at hshort
    simp only [if_neg hlong]
    exact hshort

theorem value_wordBytes (k word : Nat) : value (ofBytes (wordBytes k word)) = word % 2^(8*k) := by
  rw [ofBytes_wordBytes,value_ofNat]

theorem signedOf_long {v : Int} (h : IsLong v) : signedOf (wordBytes 8 (toUlong v)) = v := by
  have hword := value_wordBytes 8 (toUlong v)
  have hbytes : wordBytes 8 (toUlong v) =
      UInt8.ofNat (toUlong v >>> 56) :: wordBytes 7 (toUlong v) := rfl
  have h64 : (2 : Nat)^(8*8) = 18446744073709551616 := by decide
  have hlt : toUlong v < 18446744073709551616 := by unfold toUlong; omega
  rw [h64,Nat.mod_eq_of_lt hlt] at hword
  rw [hbytes] at hword ⊢
  have htop : (UInt8.ofNat (toUlong v >>> 56)).toNat = toUlong v/72057594037927936 := by
    rw [UInt8.toNat_ofNat',Nat.shiftRight_eq_div_pow]
    omega
  have hpow : 2^(8*((wordBytes 7 (toUlong v)).length+1)) = 18446744073709551616 := by
    rw [length_wordBytes]
    decide
  rw [signedOf,hword,htop,hpow]
  unfold IsLong longMin longMax at h
  unfold toUlong
  split <;> omega

theorem signedOf_asnImax2INTEGER {v : Int} (h : IsLong v) : signedOf (asnImax2INTEGER v) = v := by
  rw [asnImax2INTEGER,significant_signedOf,signedOf_long h]

theorem length_asnImax2INTEGER (v : Int) :
    0 < (asnImax2INTEGER v).length ∧ (asnImax2INTEGER v).length ≤ 8 := by
  constructor
  · exact List.length_pos_iff.mpr (significant_ne_nil _ _)
  · have hle := significant_length (wordBytes 8 (toUlong v))
    rw [length_wordBytes] at hle
    exact hle

theorem asnINTEGER2long_of_signedOf {st : List UInt8} {v : Int} (h : IsLong v)
    (hv : signedOf st = v) (hlen : st.length ≤ 8 ∨ (significant st).length ≤ 8) :
    asnINTEGER2long st = some v := by
  unfold asnINTEGER2long
  rw [asnINTEGER2imax_eq hlen,hv]
  unfold IsLong at h
  simp only [if_neg (show ¬ (v < longMin ∨ longMax < v) by omega)]

theorem asnINTEGER2long_asnLong2INTEGER {v : Int} (h : IsLong v) :
    asnINTEGER2long (asnLong2INTEGER v) = some v :=
  asnINTEGER2long_of_signedOf h (signedOf_asnImax2INTEGER h) (.inl (length_asnImax2INTEGER v).2)

/-- `asn_per_constraint_t`, with the flags that are set. -/
structure PerConstraint where
  semiConstrained : Bool
  constrained : Bool
  extensible : Bool
  rangeBits : Int
  effectiveBits : Int
  lowerBound : Int
  upperBound : Int
  deriving DecidableEq, Repr

/-- `APC_UNCONSTRAINED` is no flag at all. -/
def PerConstraint.flagged (ct : PerConstraint) : Bool :=
  ct.semiConstrained || ct.constrained || ct.extensible

def getRoot (ct : Option PerConstraint) : Get (Option PerConstraint) :=
  match ct with
  | none => pure none
  | some ct =>
    if ct.extensible then do
      let inext ← getBits 1
      pure (if inext ≠ 0 then none else some ct)
    else pure (some ct)

/-- The part after the extension bit. Under a semi-constraint there is one more octet, a
zero. -/
def integerDecodeBody (fieldUnsigned : Bool) (ct : Option PerConstraint) : Get (List UInt8) :=
  match ct with
  | none => getFragments octets
  | some ct =>
    if ct.flagged = true ∧ 0 ≤ ct.rangeBits then
      if 64 < ct.rangeBits then Get.fail
      else do
        let uvalue ← uperGetConstrainedWholeNumber ct.rangeBits.toNat
        if fieldUnsigned then pure (asnUlong2INTEGER (toUlong (uvalue+ct.lowerBound)))
        else do
          let svalue ← Get.check (perLongRangeUnrebase uvalue ct.lowerBound ct.upperBound)
          pure (asnLong2INTEGER svalue)
    else do
      let data ← getFragments octets
      let st := if ct.semiConstrained then 0 :: data else data
      if ct.lowerBound ≠ 0 then do
        let value ← Get.check (.ok (asnINTEGER2long st))
        let value ← Get.check ((toLong (value+ct.lowerBound)).map some)
        pure (asnImax2INTEGER value)
      else pure st

def integerDecodeUper (fieldUnsigned : Bool) (ct : Option PerConstraint) : Get (List UInt8) := do
  let ct ← getRoot ct
  integerDecodeBody fieldUnsigned ct

/-- An INTEGER as a `long`; where the field is not signed, through `unsigned long`. -/
def toNative (fieldUnsigned : Bool) (st : List UInt8) : Option Int :=
  if fieldUnsigned then (asnINTEGER2ulong st).map toSigned else asnINTEGER2long st

def putOctets (st : List UInt8) : Put Unit :=
  putFragments (fun offset mayEncode => asnPutManyBits (st.drop offset) (8*mayEncode))
    (st.length/16384+1) 0 st.length

def PerConstraint.outside (fieldUnsigned : Bool) (ct : PerConstraint) (value : Int) : Bool :=
  let seen := fun x : Int => if fieldUnsigned then (toUlong x : Int) else x
  if ct.semiConstrained then decide (seen value < seen ct.lowerBound)
  else if 0 ≤ ct.rangeBits then
    decide (seen value < seen ct.lowerBound ∨ seen ct.upperBound < seen value)
  else false

def putInRoot (ct : PerConstraint) (value : Int) (st : List UInt8) : Put Unit :=
  if 0 ≤ ct.rangeBits then do
    let v ← Put.check (perLongRangeRebase value ct.lowerBound ct.upperBound)
    uperPutConstrainedWholeNumber v ct.rangeBits.toNat
  else if ct.lowerBound ≠ 0 then Put.fail
  else putOctets st

def integerEncodeUper (fieldUnsigned : Bool) (ct : Option PerConstraint) (st : List UInt8) :
    Put Unit :=
  if st.length = 0 then Put.fail
  else
    match ct with
    | none => putOctets st
    | some ct => do
      let value ← Put.check (.ok (toNative fieldUnsigned st))
      let inext := ct.outside fieldUnsigned value
      if ct.extensible then do
        asnPutFewBits inext.toNat 1
        if inext then putOctets st else putInRoot ct value st
      else if inext then Put.fail
      else putInRoot ct value st

def nativeIntegerDecodeUper (fieldUnsigned : Bool) (ct : Option PerConstraint) : Get Int := do
  let tmpint ← integerDecodeUper fieldUnsigned ct
  Get.check (.ok (toNative fieldUnsigned tmpint))

def nativeIntegerEncodeUper (fieldUnsigned : Bool) (ct : Option PerConstraint) (native : Int) :
    Put Unit :=
  integerEncodeUper fieldUnsigned ct
    (if fieldUnsigned then asnUlong2INTEGER (toUlong native) else asnLong2INTEGER native)

/-- A constraint as the compiler writes it for numbers: a number of the range fits into its
bits, and without a range there is no lower bound but zero. -/
@[mk_iff]
structure PerConstraint.Sound (fieldUnsigned : Bool) (ct : PerConstraint) : Prop where
  lower : IsLong ct.lowerBound
  upper : IsLong ct.upperBound
  range : 0 ≤ ct.rangeBits → ct.semiConstrained = false ∧ ct.flagged = true ∧
    ct.rangeBits ≤ 64 ∧ ct.lowerBound ≤ ct.upperBound ∧
    (ct.upperBound-ct.lowerBound).toNat < 2^ct.rangeBits.toNat
  unbounded : ct.rangeBits < 0 → ct.lowerBound = 0
  unsigned : fieldUnsigned = true → 0 ≤ ct.lowerBound

instance (fieldUnsigned : Bool) (ct : PerConstraint) : Decidable (ct.Sound fieldUnsigned) :=
  decidable_of_iff _ (PerConstraint.sound_iff fieldUnsigned ct).symm

def PerConstraint.Within (ct : PerConstraint) (v : Int) : Prop :=
  (ct.semiConstrained = true → ct.lowerBound ≤ v) ∧
    (0 ≤ ct.rangeBits → ct.lowerBound ≤ v ∧ v ≤ ct.upperBound)

instance (ct : PerConstraint) (v : Int) : Decidable (ct.Within v) :=
  inferInstanceAs (Decidable (_ ∧ _))

theorem toSigned_toUlong {v : Int} (h : IsLong v) : toSigned (toUlong v) = v := by
  unfold IsLong longMin longMax at h
  unfold toSigned toUlong
  split <;> omega

theorem toSigned_isLong {u : Nat} (h : u < 18446744073709551616) : IsLong (toSigned u) := by
  unfold IsLong longMin longMax toSigned
  split <;> omega

theorem toUlong_lt (x : Int) : toUlong x < 18446744073709551616 := by
  unfold toUlong
  omega

theorem native_octets (fieldUnsigned : Bool) {v : Int} (h : IsLong v) :
    (if fieldUnsigned then asnUlong2INTEGER (toUlong v) else asnLong2INTEGER v) =
      asnImax2INTEGER v := by
  cases fieldUnsigned with
  | false => rfl
  | true => rw [if_pos rfl,asnUlong2INTEGER,toSigned_toUlong h]

theorem putOctets_emits (st : List UInt8) :
    Put.Emits (putOctets st) (openTypeCode st) () := by
  have hput : ∀ offset n, offset % 16384 = 0 → offset+n ≤ st.length →
      Put.Emits (asnPutManyBits (st.drop offset) (8*n)) (ofBytes ((st.drop offset).take n)) () := by
    intro offset n _ hn
    rw [ofBytes_take]
    exact asnPutManyBits_emits (by rw [List.length_drop]; omega)
  have hall := putFragments_emits st hput 0 rfl (Nat.lt_succ_self _) (Nat.zero_le _)
  simp only [Nat.sub_zero,List.drop_zero] at hall
  exact hall

theorem getOctets_accepts (st : List UInt8) :
    Get.Accepts (getFragments octets) (openTypeCode st) st :=
  getFragments_accepts st (fun seg _ => octets_accepts seg) rfl

theorem getOctets_ensures : Get.Ensures (getFragments octets) (fun _ => True) :=
  getFragments_ensures trivial (fun _ _ _ _ => trivial)
    (fun n _ => (octets_ensures n).mono fun _ _ => trivial)

theorem value_of_nonneg {st : List UInt8} (h : 0 ≤ signedOf st) :
    signedOf st = value (ofBytes st) ∧ signedOf (0 :: st) = signedOf st ∧
      (significant (0 :: st)).length ≤ max 1 st.length := by
  cases st with
  | nil => exact ⟨rfl,rfl,Nat.le_refl _⟩
  | cons b bytes =>
    have hlt := value_lt (ofBytes (b :: bytes))
    rw [length_ofBytes,List.length_cons] at hlt
    have hb : b.toNat < 128 := by
      by_contra hneg
      rw [signedOf,if_pos (by omega)] at h
      omega
    have hsame : signedOf (b :: bytes) = value (ofBytes (b :: bytes)) := by
      rw [signedOf,if_neg (by omega)]
      exact Int.sub_zero _
    have hskip : significant (0 :: b :: bytes) = significant (b :: bytes) := by
      rw [significant,if_pos (.inl ⟨rfl,(and_sign_eq_zero b).mpr hb⟩)]
    refine ⟨hsame,?_,?_⟩
    · rw [← significant_signedOf (0 :: b :: bytes),hskip,significant_signedOf]
    · rw [hskip]
      exact Nat.le_trans (significant_length _) (Nat.le_max_right _ _)

theorem asnINTEGER2ulong_eq {st : List UInt8} (h : 0 ≤ signedOf st) (hlen : st.length ≤ 8) :
    asnINTEGER2ulong st = some (signedOf st).toNat := by
  have hlt := value_lt (ofBytes st)
  have hle : 2^(ofBytes st).length ≤ 2^64 := by
    apply Nat.pow_le_pow_right (by decide)
    rw [length_ofBytes]
    omega
  have h64 : (2 : Nat)^64 = 18446744073709551616 := by decide
  have hkept : withoutZeros st = some st := by
    cases st with
    | nil => rfl
    | cons b bytes => rw [withoutZeros,if_neg (by omega)]
  rw [asnINTEGER2ulong,hkept,Option.map_some,convertFrom_eq _ _ (by decide),(value_of_nonneg h).1,
    Nat.zero_mul,Nat.zero_add,Nat.mod_eq_of_lt (by omega),Int.toNat_natCast]

theorem asnINTEGER2ulong_zero {st : List UInt8} (h : 0 ≤ signedOf st) (hlen : st.length ≤ 8) :
    asnINTEGER2ulong (0 :: st) = some (signedOf st).toNat := by
  by_cases height : st.length = 8
  · have hskip : withoutZeros (0 :: st) = withoutZeros st := by
      rw [withoutZeros,if_pos (by rw [List.length_cons]; omega),if_neg (by decide)]
    have heq := asnINTEGER2ulong_eq h hlen
    rw [asnINTEGER2ulong] at heq ⊢
    rw [hskip,heq]
  · have hzero := (value_of_nonneg h).2.1
    rw [← hzero] at h ⊢
    exact asnINTEGER2ulong_eq h (by rw [List.length_cons]; omega)

def rootBit (ct : PerConstraint) (inext : Bool) : List Bool :=
  if ct.extensible then ofNat 1 inext.toNat else []

theorem getRoot_accepts {ct : PerConstraint} (inext : Bool) (h : inext = true → ct.extensible = true) :
    Get.Accepts (getRoot (some ct)) (rootBit ct inext) (if inext then none else some ct) := by
  unfold getRoot rootBit
  by_cases hext : ct.extensible = true
  · simp only [if_pos hext]
    refine (getBits_accepts (v := inext.toNat) (by decide) (by cases inext <;> decide)).bind_last ?_
    cases inext with
    | false => exact .pure _
    | true => exact .pure _
  · simp only [if_neg hext]
    cases inext with
    | false => exact .pure _
    | true => exact absurd (h rfl) hext

theorem getRoot_root (ct : PerConstraint) :
    Get.Accepts (getRoot (some ct)) (rootBit ct false) (some ct) :=
  getRoot_accepts false fun h => absurd h Bool.false_ne_true

theorem getRoot_extension {ct : PerConstraint} (h : ct.extensible = true) :
    Get.Accepts (getRoot (some ct)) (rootBit ct true) none :=
  getRoot_accepts true fun _ => h

theorem getRoot_ensures (ct : Option PerConstraint) :
    Get.Ensures (getRoot ct) (fun r => r = ct ∨
      (r = none ∧ ∀ c, ct = some c → c.extensible = true)) := by
  unfold getRoot
  cases ct with
  | none => exact .pure (.inl rfl)
  | some ct =>
    by_cases hext : ct.extensible = true
    · simp only [if_pos hext]
      refine (getBits_ensures 1).bind fun inext _ => .pure ?_
      by_cases hin : inext ≠ 0
      · rw [if_pos hin]
        refine .inr ⟨rfl,?_⟩
        intro c hc
        cases hc
        exact hext
      · rw [if_neg hin]
        exact .inl rfl
    · simp only [if_neg hext]
      exact .pure (.inl rfl)

theorem toNative_eq (fieldUnsigned : Bool) {st : List UInt8} {v : Int} (h : IsLong v)
    (hst : signedOf st = v) (hlen : st.length ≤ 8) (hnonneg : fieldUnsigned = true → 0 ≤ v) :
    toNative fieldUnsigned st = some v := by
  unfold toNative
  cases fieldUnsigned with
  | false => exact asnINTEGER2long_of_signedOf h hst (.inl hlen)
  | true =>
    have hv := hnonneg rfl
    rw [if_pos rfl,asnINTEGER2ulong_eq (by rw [hst]; exact hv) hlen,hst,Option.map_some]
    unfold IsLong longMin longMax at h
    rw [toSigned,if_pos (by omega)]
    congr 1
    omega

theorem toNative_zero (fieldUnsigned : Bool) {st : List UInt8} {v : Int} (h : IsLong v)
    (hst : signedOf st = v) (hlen : st.length ≤ 8) (hv : 0 ≤ v) :
    toNative fieldUnsigned (0 :: st) = some v := by
  have hnonneg : 0 ≤ signedOf st := by rw [hst]; exact hv
  obtain ⟨_,hzero,hskip⟩ := value_of_nonneg hnonneg
  unfold toNative
  cases fieldUnsigned with
  | false => exact asnINTEGER2long_of_signedOf h (hzero.trans hst) (.inr (by omega))
  | true =>
    rw [if_pos rfl,asnINTEGER2ulong_zero hnonneg hlen,hst,Option.map_some]
    unfold IsLong longMin longMax at h
    rw [toSigned,if_pos (by omega)]
    congr 1
    omega

theorem PerConstraint.Sound.outside_eq {fieldUnsigned : Bool} {ct : PerConstraint}
    (hct : ct.Sound fieldUnsigned) {v : Int} (hv : IsLong v)
    (hnonneg : fieldUnsigned = true → 0 ≤ v) :
    ct.outside fieldUnsigned v = false ↔ ct.Within v := by
  have hlower := hct.lower
  have hupper := hct.upper
  have hrange := hct.range
  have hunsigned := hct.unsigned
  have hseen : ∀ x : Int, IsLong x → (fieldUnsigned = true → 0 ≤ x) →
      (if fieldUnsigned then (toUlong x : Int) else x) = x := by
    intro x hx hx0
    cases fieldUnsigned with
    | false => rfl
    | true =>
      have hpos := hx0 rfl
      unfold IsLong longMin longMax at hx
      rw [if_pos rfl,toUlong_eq hpos (by omega)]
      omega
  unfold PerConstraint.outside PerConstraint.Within
  simp only [hseen v hv hnonneg,hseen ct.lowerBound hlower hunsigned]
  by_cases hsemi : ct.semiConstrained = true
  · rw [if_pos hsemi,decide_eq_false_iff_not]
    constructor
    · intro h
      refine ⟨fun _ => by omega,?_⟩
      intro hbits
      rw [(hrange hbits).1] at hsemi
      cases hsemi
    · intro h
      have hle := h.1 hsemi
      omega
  · rw [if_neg hsemi]
    by_cases hbits : 0 ≤ ct.rangeBits
    · have hbounds := (hrange hbits).2.2.2.1
      rw [if_pos hbits,hseen ct.upperBound hupper (fun hu => Int.le_trans (hunsigned hu) hbounds),
        decide_eq_false_iff_not]
      constructor
      · intro h
        exact ⟨fun hs => absurd hs hsemi,fun _ => by omega⟩
      · intro h
        have hboth := h.2 hbits
        omega
    · rw [if_neg hbits]
      exact ⟨fun _ => ⟨fun hs => absurd hs hsemi,fun hb => absurd hb hbits⟩,fun _ => rfl⟩

def rootCode (ct : PerConstraint) (v : Int) (st : List UInt8) : List Bool :=
  if 0 ≤ ct.rangeBits then ofNat ct.rangeBits.toNat (v-ct.lowerBound).toNat else openTypeCode st

theorem putInRoot_emits {fieldUnsigned : Bool} {ct : PerConstraint} (hct : ct.Sound fieldUnsigned)
    {v : Int} (hv : IsLong v) (hin : ct.Within v) (st : List UInt8) :
    Put.Emits (putInRoot ct v st) (rootCode ct v st) () := by
  unfold putInRoot rootCode
  by_cases hbits : 0 ≤ ct.rangeBits
  · obtain ⟨_,_,_,hbounds,_⟩ := hct.range hbits
    rw [if_pos hbits,if_pos hbits]
    have hoffset := perLongRangeRebase_eq hv hct.lower hct.upper hbounds
    rw [if_pos (hin.2 hbits)] at hoffset
    exact (Put.Emits.check hoffset).bind (uperPutConstrainedWholeNumber_emits _ _)
  · rw [if_neg hbits,if_neg hbits,if_neg (not_not_intro (hct.unbounded (by omega)))]
    exact putOctets_emits st

theorem integerDecodeBody_accepts {fieldUnsigned : Bool} {ct : PerConstraint}
    (hct : ct.Sound fieldUnsigned) {v : Int} (hv : IsLong v) (hin : ct.Within v)
    (hnonneg : fieldUnsigned = true → 0 ≤ v) {st : List UInt8} (hst : signedOf st = v)
    (hlen : st.length ≤ 8) :
    ∃ st', Get.Accepts (integerDecodeBody fieldUnsigned (some ct)) (rootCode ct v st) st' ∧
      toNative fieldUnsigned st' = some v ∧
      (ct.semiConstrained = false →
        st' = if 0 ≤ ct.rangeBits then asnImax2INTEGER v else st) := by
  have hcanon := toNative_eq fieldUnsigned hv (signedOf_asnImax2INTEGER hv)
    (length_asnImax2INTEGER v).2 hnonneg
  unfold integerDecodeBody rootCode
  by_cases hbits : 0 ≤ ct.rangeBits
  · obtain ⟨_,hflag,h64,hbounds,hfit⟩ := hct.range hbits
    have hboth := hin.2 hbits
    have hlower := hct.lower
    have hupper := hct.upper
    refine ⟨asnImax2INTEGER v,?_,hcanon,fun _ => (if_pos hbits).symm⟩
    simp only [if_pos (show ct.flagged = true ∧ 0 ≤ ct.rangeBits from ⟨hflag,hbits⟩),
      if_neg (show ¬ 64 < ct.rangeBits by omega),if_pos hbits]
    refine (uperGetConstrainedWholeNumber_accepts (by omega) (by omega)).bind_last ?_
    cases fieldUnsigned with
    | true =>
      have hsum : toUlong (((v-ct.lowerBound).toNat : Int)+ct.lowerBound) = toUlong v := by
        congr 1
        omega
      simp only [if_true]
      rw [hsum,asnUlong2INTEGER,toSigned_toUlong hv]
      exact .pure _
    | false =>
      unfold IsLong longMin longMax at hlower hupper
      have hnumber := @perLongRangeUnrebase_eq (v-ct.lowerBound).toNat _ _ (by omega) hct.lower
        hct.upper hbounds
      rw [if_pos (by omega)] at hnumber
      have hsame : ct.lowerBound+((v-ct.lowerBound).toNat : Int) = v := by omega
      rw [hsame] at hnumber
      simp only [Bool.false_eq_true,if_false]
      exact (Get.Accepts.check hnumber).bind (.pure _)
  · have hzero := hct.unbounded (by omega)
    refine ⟨if ct.semiConstrained then 0 :: st else st,?_,?_,?_⟩
    · simp only [if_neg (show ¬ (ct.flagged = true ∧ 0 ≤ ct.rangeBits) by omega),if_neg hbits]
      refine (getOctets_accepts st).bind_last ?_
      rw [if_neg (not_not_intro hzero)]
      exact .pure _
    · by_cases hsemi : ct.semiConstrained = true
      · have hle := hin.1 hsemi
        rw [if_pos hsemi]
        exact toNative_zero fieldUnsigned hv hst hlen (by omega)
      · rw [if_neg hsemi]
        exact toNative_eq fieldUnsigned hv hst hlen hnonneg
    · intro hsemi
      rw [hsemi,if_neg hbits]
      rfl

/-- What arrives of the octets of a number: those that the reader makes for a number in a
range, and elsewhere the ones that were sent. -/
def arrivingOctets (ct : Option PerConstraint) (st : List UInt8) : List UInt8 :=
  match ct with
  | none => st
  | some ct =>
    if 0 ≤ ct.rangeBits ∧ ct.Within (signedOf st) then asnImax2INTEGER (signedOf st) else st

/-- Octets of a number arrive, in the root of its constraint, outside, or without one; only a
semi-constraint puts a zero in front. -/
theorem integerUper_roundTrips (fieldUnsigned : Bool) {ct : Option PerConstraint}
    (hct : ∀ c, ct = some c → c.Sound fieldUnsigned) {v : Int} (hv : IsLong v)
    (hnonneg : fieldUnsigned = true → 0 ≤ v)
    (hin : ∀ c, ct = some c → c.Within v ∨ c.extensible = true) {st : List UInt8}
    (hst : signedOf st = v) (hpos : 0 < st.length) (hlen : st.length ≤ 8) :
    ∃ st', RoundTrips (integerEncodeUper fieldUnsigned ct st)
        (integerDecodeUper fieldUnsigned ct) st' ∧ toNative fieldUnsigned st' = some v ∧
      ((∀ c, ct = some c → c.semiConstrained = false) → st' = arrivingOctets ct st) := by
  have hnative := toNative_eq fieldUnsigned hv hst hlen hnonneg
  unfold RoundTrips integerEncodeUper arrivingOctets
  rw [if_neg (by omega)]
  cases ct with
  | none =>
    have hroot : Get.Accepts (getRoot none) [] none := .pure none
    exact ⟨_,⟨_,putOctets_emits _,hroot.bind (getOctets_accepts _)⟩,hnative,fun _ => rfl⟩
  | some ct =>
    have hsound := hct ct rfl
    have hcheck : Put.Emits (Put.check (.ok (toNative fieldUnsigned st))) [] v :=
      .check (by rw [hnative])
    simp only [hst]
    by_cases hwithin : ct.Within v
    · have hout := (hsound.outside_eq hv hnonneg).mpr hwithin
      obtain ⟨st',hbody,hst',hsame⟩ :=
        integerDecodeBody_accepts hsound hv hwithin hnonneg hst hlen
      refine ⟨st',⟨rootBit ct false ++ rootCode ct v st,?_,?_⟩,hst',?_⟩
      · refine hcheck.bind ?_
        simp only [hout]
        unfold rootBit
        by_cases hext : ct.extensible = true
        · rw [if_pos hext,if_pos hext]
          exact (asnPutFewBits_emits (by decide)).bind (putInRoot_emits hsound hv hwithin _)
        · rw [if_neg hext,if_neg hext]
          exact putInRoot_emits hsound hv hwithin _
      · exact Get.Accepts.bind (getRoot_root _) hbody
      · intro hplain
        rw [hsame (hplain ct rfl)]
        simp only [hwithin,and_true]
    · have hout : ct.outside fieldUnsigned v = true := by
        cases hb : ct.outside fieldUnsigned v with
        | true => rfl
        | false => exact absurd ((hsound.outside_eq hv hnonneg).mp hb) hwithin
      have hext := (hin ct rfl).resolve_left hwithin
      refine ⟨_,⟨rootBit ct true ++ openTypeCode st,?_,?_⟩,hnative,fun _ => ?_⟩
      · refine hcheck.bind ?_
        simp only [hout,if_pos hext]
        unfold rootBit
        rw [if_pos hext]
        exact (asnPutFewBits_emits (by decide)).bind (putOctets_emits _)
      · exact Get.Accepts.bind (getRoot_extension hext) (getOctets_accepts _)
      · rw [if_neg (fun hbad => hwithin hbad.2)]

/-- A number is read back, in the root of its constraint, outside, or without one. -/
theorem nativeInteger_roundTrips (fieldUnsigned : Bool) {ct : Option PerConstraint}
    (hct : ∀ c, ct = some c → c.Sound fieldUnsigned) {v : Int} (hv : IsLong v)
    (hnonneg : fieldUnsigned = true → 0 ≤ v)
    (hin : ∀ c, ct = some c → c.Within v ∨ c.extensible = true) :
    RoundTrips (nativeIntegerEncodeUper fieldUnsigned ct v)
      (nativeIntegerDecodeUper fieldUnsigned ct) v := by
  obtain ⟨hpos,hlen⟩ := length_asnImax2INTEGER v
  obtain ⟨st,⟨bits,hemits,haccepts⟩,hst,_⟩ :=
    integerUper_roundTrips fieldUnsigned hct hv hnonneg hin (signedOf_asnImax2INTEGER hv) hpos hlen
  unfold RoundTrips nativeIntegerEncodeUper
  rw [native_octets fieldUnsigned hv]
  exact ⟨bits,hemits,haccepts.bind_last (.check (by rw [hst]))⟩

/-- What a reader takes for a number under a range: a signed one lies in it, one that is not
signed in what its bits can say. -/
def PerConstraint.Reads (fieldUnsigned : Bool) (ct : PerConstraint) (v : Int) : Prop :=
  if fieldUnsigned then ct.lowerBound+2^ct.rangeBits.toNat ≤ longMax+1 →
    ct.lowerBound ≤ v ∧ v < ct.lowerBound+2^ct.rangeBits.toNat
  else ct.lowerBound ≤ v ∧ v ≤ ct.upperBound

theorem integerDecodeBody_ensures {fieldUnsigned : Bool} {ct : PerConstraint}
    (hct : ct.Sound fieldUnsigned) :
    Get.Ensures (integerDecodeBody fieldUnsigned (some ct)) (fun st =>
      0 ≤ ct.rangeBits → ∃ v, IsLong v ∧ ct.Reads fieldUnsigned v ∧ st = asnImax2INTEGER v) := by
  unfold integerDecodeBody
  have hlower := hct.lower
  have hupper := hct.upper
  by_cases hbits : ct.flagged = true ∧ 0 ≤ ct.rangeBits
  · obtain ⟨_,_,h64,hbounds,_⟩ := hct.range hbits.2
    simp only [if_pos hbits,if_neg (show ¬ 64 < ct.rangeBits by omega)]
    refine (uperGetConstrainedWholeNumber_ensures _).bind fun uvalue hu => ?_
    cases fieldUnsigned with
    | true =>
      have hnonneg := hct.unsigned rfl
      refine .pure fun _ => ⟨toSigned (toUlong (uvalue+ct.lowerBound)),
        toSigned_isLong (toUlong_lt _),?_,rfl⟩
      unfold PerConstraint.Reads
      rw [if_pos rfl]
      intro hfits
      have hpow : ((2^ct.rangeBits.toNat : Nat) : Int) = 2^ct.rangeBits.toNat := by
        exact_mod_cast rfl
      have hlong : IsLong (uvalue+ct.lowerBound) := by
        unfold IsLong longMin longMax at *
        omega
      rw [toSigned_toUlong hlong]
      omega
    | false =>
      have hsmall : uvalue < 18446744073709551616 := by
        have hle : 2^ct.rangeBits.toNat ≤ 2^64 := Nat.pow_le_pow_right (by decide) (by omega)
        have h64' : (2 : Nat)^64 = 18446744073709551616 := by decide
        omega
      have hnumber := perLongRangeUnrebase_eq hsmall hlower hupper hbounds
      refine Get.Ensures.bind
        (P := fun v => ct.lowerBound ≤ v ∧ v ≤ ct.upperBound) (.check ⟨_,hnumber,?_⟩) ?_
      · intro v hvalue
        split at hvalue
        · cases hvalue
          omega
        · cases hvalue
      · intro v hbetween
        have hlong : IsLong v := by
          unfold IsLong at hlower hupper ⊢
          omega
        exact .pure fun _ => ⟨v,hlong,hbetween,rfl⟩
  · simp only [if_neg hbits]
    have hopen : ct.rangeBits < 0 := by
      by_contra hrange
      exact hbits ⟨(hct.range (by omega)).2.1,by omega⟩
    refine getOctets_ensures.bind fun data _ => ?_
    rw [if_neg (not_not_intro (hct.unbounded hopen))]
    refine .pure ?_
    intro h
    omega

theorem integerDecodeUper_ensures {fieldUnsigned : Bool} {ct : Option PerConstraint}
    (hct : ∀ c, ct = some c → c.Sound fieldUnsigned) :
    Get.Ensures (integerDecodeUper fieldUnsigned ct) (fun st =>
      ∀ c, ct = some c → c.extensible = false → 0 ≤ c.rangeBits →
        ∃ v, IsLong v ∧ c.Reads fieldUnsigned v ∧ st = asnImax2INTEGER v) := by
  refine (getRoot_ensures ct).bind fun r hr => ?_
  rcases hr with hr | hr
  · subst hr
    cases r with
    | none => exact getOctets_ensures.mono fun _ _ _ h => nomatch h
    | some c =>
      refine (integerDecodeBody_ensures (hct c rfl)).mono ?_
      intro st hst c' hc'
      cases hc'
      intro _
      exact hst
  · obtain ⟨hnone,hext⟩ := hr
    subst hnone
    refine getOctets_ensures.mono ?_
    intro st _ c hc hfixed
    rw [hext c hc] at hfixed
    cases hfixed

theorem toNative_isLong {fieldUnsigned : Bool} {st : List UInt8} {v : Int}
    (h : toNative fieldUnsigned st = some v) : IsLong v := by
  unfold toNative at h
  cases fieldUnsigned with
  | false =>
    simp only [Bool.false_eq_true,if_false,asnINTEGER2long] at h
    cases hmax : asnINTEGER2imax st with
    | none => rw [hmax] at h; cases h
    | some w =>
      rw [hmax] at h
      simp only at h
      split at h
      · cases h
      · cases h
        unfold IsLong
        omega
  | true =>
    simp only [if_true,asnINTEGER2ulong,Option.map_map,Option.map_eq_some_iff] at h
    obtain ⟨bytes,_,hv⟩ := h
    have hlt : convertFrom 0 bytes < 18446744073709551616 := by
      rw [convertFrom_eq _ _ (by decide)]
      exact Nat.mod_lt _ (by decide)
    simp only [Function.comp_apply] at hv
    rw [← hv]
    exact toSigned_isLong hlt

theorem toNative_asnImax2INTEGER {fieldUnsigned : Bool} {v w : Int} (hv : IsLong v)
    (hnonneg : fieldUnsigned = true → 0 ≤ v)
    (h : toNative fieldUnsigned (asnImax2INTEGER v) = some w) : w = v := by
  rw [toNative_eq fieldUnsigned hv (signedOf_asnImax2INTEGER hv) (length_asnImax2INTEGER v).2
    hnonneg] at h
  exact (Option.some.inj h).symm

/-- Whatever the bits are, decoding a number ends without an overflow, and what is accepted
is a `long` within the range of a constraint. -/
theorem nativeIntegerDecodeUper_ensures {fieldUnsigned : Bool} {ct : Option PerConstraint}
    (hct : ∀ c, ct = some c → c.Sound fieldUnsigned) :
    Get.Ensures (nativeIntegerDecodeUper fieldUnsigned ct) (fun v => IsLong v ∧
      ∀ c, ct = some c → c.extensible = false → 0 ≤ c.rangeBits → c.Reads fieldUnsigned v) := by
  refine (integerDecodeUper_ensures hct).bind fun st hst => .check ⟨_,rfl,?_⟩
  intro v hv
  refine ⟨toNative_isLong hv,?_⟩
  intro c hc hfixed hbits
  obtain ⟨w,hlong,hreads,hw⟩ := hst c hc hfixed hbits
  subst hw
  cases fieldUnsigned with
  | false =>
    have hsame : v = w := toNative_asnImax2INTEGER hlong (fun h => Bool.noConfusion h) hv
    rw [hsame]
    exact hreads
  | true =>
    unfold PerConstraint.Reads at hreads ⊢
    rw [if_pos rfl] at hreads ⊢
    intro hfits
    have hbetween := hreads hfits
    have hnonneg := (hct c hc).unsigned rfl
    rw [toNative_asnImax2INTEGER hlong (fun _ => by omega) hv]
    exact hbetween

end Mitvane.Per

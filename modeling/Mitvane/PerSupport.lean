import Mitvane.BitOutput

/-! The numbers and lengths of the packed encoding: reading what has been written, and
the two places where that fails. -/
set_option autoImplicit false

namespace Mitvane.Per
open PartialRun BitString

/-- The length and whether another one follows. A negative number of effective bits stands
for a length that is not constrained. -/
def uperGetLength (ebits : Int) (lowerBound : Nat) : Get (Nat × Bool) :=
  if 0 ≤ ebits ∧ ebits ≤ 16 then do
    let value ← getBits ebits.toNat
    pure (value+lowerBound,false)
  else do
    let value ← getBits 8
    if value &&& 0x80 = 0 then pure (value &&& 0x7F,false)
    else if value &&& 0x40 = 0 then do
      let low ← getBits 8
      pure ((value &&& 0x3f) <<< 8 ||| low,false)
    else if value &&& 0x3f < 1 ∨ 4 < value &&& 0x3f then Get.fail
    else pure (16384*(value &&& 0x3f),true)

def uperPutLength (length : Nat) : Put (Nat × Bool) :=
  if length ≤ 127 then do
    asnPutFewBits length 8
    pure (length,false)
  else if length < 16384 then do
    asnPutFewBits (length ||| 0x8000) 16
    pure (length,false)
  else do
    let needEom := if 4 < length >>> 14 then false else decide (length &&& 16383 = 0)
    let units := if 4 < length >>> 14 then 4 else length >>> 14
    asnPutFewBits (0xC0 ||| units) 8
    pure (units <<< 14,needEom)

/-- A normally small length. The result of the first read is not tested for `-1`. -/
def uperGetNslength : Get Nat := fun pd => do
  let (small,pd) ← getBits 1 pd
  if small = some 0 then
    (do
      let length ← getBits 6
      pure (length+1) : Get Nat) pd
  else
    (do
      let (length,more) ← uperGetLength (-1) 0
      if more then Get.fail else pure length : Get Nat) pd

def uperPutNslength (length : Nat) : Put Unit :=
  if length ≤ 64 then
    if length = 0 then Put.fail else asnPutFewBits (length-1) 7
  else do
    let (saved,needEom) ← uperPutLength length
    if saved ≠ length ∨ needEom = true then Put.fail else pure ()

def uperGetNsnnwn : Get Nat := do
  let value ← getBits 7
  if value &&& 64 = 0 then pure value
  else do
    let low ← getBits 2
    let bytes := (value &&& 63) <<< 2 ||| low
    if bytes &&& 128 ≠ 0 then Get.fail
    else if bytes = 0 then pure 0
    else if 3 ≤ bytes then Get.fail
    else getBits (8*bytes)

def uperPutNsnnwn (n : Int) : Put Unit :=
  if n ≤ 63 then
    if n < 0 then Put.fail else asnPutFewBits n.toNat 7
  else if n < 256 then do
    asnPutFewBits 1 8
    asnPutFewBits n.toNat 8
  else if n < 65536 then do
    asnPutFewBits 2 8
    asnPutFewBits n.toNat 16
  else if n < 256*65536 then do
    asnPutFewBits 3 8
    asnPutFewBits n.toNat 24
  else Put.fail

def getWholeNumber : Nat → Nat → Get Nat
  | 0, _ => Get.fault .unfinished
  | depth+1, nbits =>
    if nbits ≤ 31 then getBits nbits
    else if 64 < nbits then Get.fail
    else do
      let half ← getBits 31
      let lhalf ← getWholeNumber depth (nbits-31)
      pure (half <<< (nbits-31) ||| lhalf)

/-- At most 64 bits, so the function calls itself at most twice. -/
def uperGetConstrainedWholeNumber (nbits : Nat) : Get Nat := getWholeNumber 3 nbits

def putWholeNumber : Nat → Nat → Nat → Put Unit
  | 0, _, _ => fun _ => .error .unfinished
  | depth+1, v, nbits =>
    if nbits ≤ 31 then asnPutFewBits v nbits
    else do
      putWholeNumber depth (v >>> 31) (nbits-31)
      asnPutFewBits v 31

def uperPutConstrainedWholeNumber (v nbits : Nat) : Put Unit := putWholeNumber (nbits/31+1) v nbits

def announced (n : Nat) : Nat := if n < 16384 then n else 16384*min (n/16384) 4

def endsWhole (n : Nat) : Bool := decide (16384 ≤ n ∧ n/16384 ≤ 4 ∧ n % 16384 = 0)

def lengthCode (n : Nat) : List Bool :=
  if n ≤ 127 then ofNat 8 n
  else if n < 16384 then ofNat 8 (128+n/256) ++ ofNat 8 (n % 256)
  else ofNat 8 (192+min (n/16384) 4)

theorem announced_le (n : Nat) : announced n ≤ n := by
  unfold announced
  split <;> omega

theorem or_high {v k : Nat} (h : v < 2^k) (a : Nat) : 2^k*a ||| v = 2^k*a+v :=
  (Nat.two_pow_add_eq_or_of_lt h a).symm

theorem uperPutLength_emits (n : Nat) :
    Put.Emits (uperPutLength n) (lengthCode n) (announced n,endsWhole n) := by
  unfold uperPutLength lengthCode announced endsWhole
  by_cases h127 : n ≤ 127
  · rw [if_pos h127,if_pos h127,if_pos (by omega),decide_eq_false (by omega)]
    have hcode := (@asnPutFewBits_emits n 8 (by decide)).bind
      (f := fun _ => pure (n,false)) (.pure (n,false))
    rw [List.append_nil] at hcode
    exact hcode
  · by_cases h16k : n < 16384
    · rw [if_neg h127,if_neg h127,if_pos h16k,if_pos h16k,if_pos h16k,decide_eq_false (by omega)]
      have hword : n ||| 0x8000 = 32768+n := by
        rw [Nat.or_comm]
        exact or_high (k := 15) (Nat.lt_of_lt_of_le h16k (by decide)) 1
      have hsplit : ofNat 16 (n ||| 0x8000) = ofNat 8 (128+n/256) ++ ofNat 8 (n % 256) := by
        rw [hword,ofNat_add 8 8 (32768+n)]
        congr 1
        · congr 1
          omega
        · rw [← ofNat_mod 8 (32768+n)]
          congr 1
          omega
      have hcode := (@asnPutFewBits_emits (n ||| 0x8000) 16 (by decide)).bind
        (f := fun _ => pure (n,false)) (.pure (n,false))
      rw [List.append_nil,hsplit] at hcode
      exact hcode
    · rw [if_neg h127,if_neg h127,if_neg h16k,if_neg h16k,if_neg h16k]
      have hshift : n >>> 14 = n/16384 := Nat.shiftRight_eq_div_pow n 14
      have hunits : (if 4 < n >>> 14 then 4 else n >>> 14) = min (n/16384) 4 := by
        rw [hshift]
        split <;> omega
      have heom : (if 4 < n >>> 14 then false else decide (n &&& 16383 = 0)) =
          decide (16384 ≤ n ∧ n/16384 ≤ 4 ∧ n % 16384 = 0) := by
        have hlow : n &&& 16383 = n % 16384 := Nat.and_two_pow_sub_one_eq_mod n 14
        rw [hshift,hlow]
        by_cases hfour : 4 < n/16384
        · rw [if_pos hfour,decide_eq_false (by omega)]
        · rw [if_neg hfour]
          congr 1
          apply propext
          constructor
          · intro hmod
            exact ⟨by omega,by omega,hmod⟩
          · intro hall
            exact hall.2.2
      have hor : 0xC0 ||| min (n/16384) 4 = 192+min (n/16384) 4 :=
        or_high (k := 6) (by omega) 3
      have hcode := (@asnPutFewBits_emits (192+min (n/16384) 4) 8 (by decide)).bind
        (f := fun _ => pure (16384*min (n/16384) 4,
          decide (16384 ≤ n ∧ n/16384 ≤ 4 ∧ n % 16384 = 0))) (.pure _)
      rw [List.append_nil] at hcode
      simp only [heom,hunits,hor,Nat.shiftLeft_eq]
      rw [Nat.mul_comm (min (n/16384) 4)]
      exact hcode

theorem lengthByte_short : ∀ v < 128, v &&& 0x80 = 0 ∧ v &&& 0x7F = v := by decide

theorem lengthByte_long : ∀ v < 64, (128+v) &&& 0x80 ≠ 0 ∧ (128+v) &&& 0x40 = 0 ∧
    (128+v) &&& 0x3f = v := by decide

theorem lengthByte_fragment : ∀ v < 5, (192+v) &&& 0x80 ≠ 0 ∧ (192+v) &&& 0x40 ≠ 0 ∧
    (192+v) &&& 0x3f = v := by decide

theorem uperGetLength_accepts (n : Nat) :
    Get.Accepts (uperGetLength (-1) 0) (lengthCode n) (announced n,decide (16384 ≤ n)) := by
  unfold uperGetLength lengthCode announced
  rw [if_neg (by decide)]
  by_cases h127 : n ≤ 127
  · rw [if_pos h127,if_pos (by omega),decide_eq_false (by omega)]
    refine (getBits_accepts (v := n) (by decide) (by omega)).bind_last ?_
    obtain ⟨htop,hlow⟩ := lengthByte_short n (by omega)
    rw [if_pos htop,hlow]
    exact .pure _
  · by_cases h16k : n < 16384
    · rw [if_neg h127,if_pos h16k,if_pos h16k,decide_eq_false (by omega)]
      refine (getBits_accepts (v := 128+n/256) (by decide) (by omega)).bind ?_
      obtain ⟨htop,hnext,hlow⟩ := lengthByte_long (n/256) (by omega)
      rw [if_neg htop,if_pos hnext,hlow]
      refine (getBits_accepts (v := n % 256) (by decide) (by omega)).bind_last ?_
      have hword : (n/256) <<< 8 ||| n % 256 = n := by
        rw [← Nat.shiftLeft_add_eq_or_of_lt (show n % 256 < 2^8 by omega),Nat.shiftLeft_eq]
        omega
      rw [hword]
      exact .pure _
    · rw [if_neg h127,if_neg h16k,if_neg h16k,decide_eq_true (by omega)]
      refine (getBits_accepts (v := 192+min (n/16384) 4) (by decide) (by omega)).bind_last ?_
      obtain ⟨htop,hnext,hlow⟩ := lengthByte_fragment (min (n/16384) 4) (by omega)
      rw [if_neg htop,if_neg hnext,hlow,if_neg (by omega)]
      exact .pure _

theorem uperGetLength_constrained {ebits n : Nat} (lowerBound : Nat) (hbits : ebits ≤ 16)
    (hn : n < 2^ebits) : Get.Accepts (uperGetLength ebits lowerBound) (ofNat ebits n)
      (n+lowerBound,false) := by
  unfold uperGetLength
  rw [if_pos (by omega)]
  exact (getBits_accepts (by rw [Int.toNat_natCast]; omega)
    (by rw [Int.toNat_natCast]; exact hn)).bind_last (.pure _)

theorem uperGetLength_sized {ebits : Int} (h : 0 ≤ ebits ∧ ebits ≤ 16) (lowerBound : Nat) :
    Get.Ensures (uperGetLength ebits lowerBound)
      (fun r => lowerBound ≤ r.1 ∧ r.1 < lowerBound+2^ebits.toNat) := by
  unfold uperGetLength
  rw [if_pos h]
  refine (getBits_ensures _).bind fun value hvalue => .pure ?_
  simp only
  omega

theorem uperGetLength_ensures (ebits : Int) (lowerBound : Nat) :
    Get.Ensures (uperGetLength ebits lowerBound) (fun r => r.1 ≤ 65536+lowerBound) := by
  unfold uperGetLength
  split
  · rename_i hebits
    refine (getBits_ensures _).bind fun v hv => .pure ?_
    have hle : 2^ebits.toNat ≤ 2^16 := Nat.pow_le_pow_right (by decide) (by omega)
    simp only
    omega
  · refine (getBits_ensures 8).bind fun v hv => ?_
    split
    · have hle : v &&& 0x7F ≤ 0x7F := Nat.and_le_right
      refine .pure ?_
      simp only
      omega
    · split
      · refine (getBits_ensures 8).bind fun low hlow => .pure ?_
        have hle : v &&& 0x3f ≤ 0x3f := Nat.and_le_right
        have hlt : (v &&& 0x3f) <<< 8 ||| low < 2^14 := by
          rw [← Nat.shiftLeft_add_eq_or_of_lt hlow,Nat.shiftLeft_eq]
          omega
        simp only
        omega
      · split
        · exact .fail
        · refine .pure ?_
          simp only
          omega

/-- A length that another one follows is of whole fragments. -/
theorem uperGetLength_more : Get.Ensures (uperGetLength (-1) 0)
    (fun r => r.2 = true → r.1 % 16384 = 0) := by
  unfold uperGetLength
  rw [if_neg (by decide)]
  refine (getBits_ensures 8).bind fun v _ => ?_
  split
  · exact .pure (fun hmore => nomatch hmore)
  · split
    · exact (getBits_ensures 8).bind fun low _ => .pure (fun hmore => nomatch hmore)
    · split
      · exact .fail
      · exact .pure (fun _ => Nat.mul_mod_right 16384 _)

theorem uperGetLength_takes : Get.Takes (uperGetLength (-1) 0) 8 := by
  unfold uperGetLength
  rw [if_neg (by decide)]
  refine (getBits_takes 8).bind (Q := fun _ => True) (getBits_ensures 8) fun v _ => ?_
  split
  · exact .pure trivial
  · split
    · exact (getBits_ensures 8).bind fun low _ => .pure trivial
    · split
      · exact .fail
      · exact .pure trivial

theorem uperPutNslength_small {n : Nat} (hpos : 0 < n) (hn : n ≤ 64) :
    Put.Emits (uperPutNslength n) (ofNat 7 (n-1)) () := by
  rw [uperPutNslength,if_pos hn,if_neg (by omega)]
  exact asnPutFewBits_emits (by decide)

theorem uperPutNslength_large {n : Nat} (hn : 64 < n) (h16k : n < 16384) :
    Put.Emits (uperPutNslength n) (lengthCode n) () := by
  have hannounced : announced n = n := if_pos h16k
  have hends : endsWhole n = false := decide_eq_false (by omega)
  rw [uperPutNslength,if_neg (by omega)]
  refine (uperPutLength_emits n).bind_last ?_
  simp only [hannounced,hends]
  rw [if_neg (by simp)]
  exact .pure ()

/-- From 16K on the length is written and refused. -/
theorem uperPutNslength_refused {n : Nat} (h16k : 16384 ≤ n) (bits : List Bool) :
    ¬ Put.Emits (uperPutNslength n) bits () := by
  intro h
  obtain ⟨po,hrun,_⟩ := h.run (List.replicate tmpspaceSize 0) List.length_replicate
  obtain ⟨po',hrun',_⟩ :=
    (uperPutLength_emits n).run (List.replicate tmpspaceSize 0) List.length_replicate
  have hrefused : announced n ≠ n ∨ endsWhole n = true := by
    unfold announced endsWhole
    rw [if_neg (by omega),decide_eq_true_eq]
    omega
  rw [uperPutNslength,if_neg (by omega),Put.bind_some hrun'] at hrun
  simp only [if_pos hrefused] at hrun
  cases hrun

theorem uperGetNslength_small {small : Nat} (h : small < 64) :
    Get.Accepts uperGetNslength (ofNat 7 small) (small+1) := by
  intro pd rest hv hrest
  have hsplit : ofNat 7 small = ofNat 1 0 ++ ofNat 6 small := by
    rw [ofNat_add 1 6 small,Nat.div_eq_of_lt (show small < 2^6 from h)]
  rw [hsplit,List.append_assoc] at hrest
  obtain ⟨pd₁,hrun₁,hv₁,hfollows₁,hrest₁⟩ :=
    getBits_accepts (n := 1) (v := 0) (by decide) (by decide) pd _ hv hrest
  obtain ⟨pd₂,hrun₂,hv₂,hfollows₂,hrest₂⟩ :=
    ((getBits_accepts (n := 6) (by decide) h).bind (f := fun length => pure (length+1))
      (.pure (small+1))) pd₁ rest hv₁ (by rw [List.append_nil]; exact hrest₁)
  refine ⟨pd₂,?_,hv₂,hfollows₁.trans hfollows₂,hrest₂⟩
  unfold uperGetNslength
  simp only [hrun₁,ok_bind,if_true]
  exact hrun₂

theorem uperGetNslength_large {n : Nat} (h : n < 128) :
    Get.Accepts uperGetNslength (ofNat 1 1 ++ ofNat 8 n) n := by
  intro pd rest hv hrest
  rw [List.append_assoc] at hrest
  obtain ⟨pd₁,hrun₁,hv₁,hfollows₁,hrest₁⟩ :=
    getBits_accepts (n := 1) (v := 1) (by decide) (by decide) pd _ hv hrest
  have hlength := uperGetLength_accepts n
  rw [lengthCode,if_pos (by omega),announced,if_pos (by omega),decide_eq_false (by omega)]
    at hlength
  obtain ⟨pd₂,hrun₂,hv₂,hfollows₂,hrest₂⟩ :=
    (hlength.bind (f := fun r => if r.2 then Get.fail else pure r.1) (.pure n)) pd₁ rest hv₁
      (by rw [List.append_nil]; exact hrest₁)
  refine ⟨pd₂,?_,hv₂,hfollows₁.trans hfollows₂,hrest₂⟩
  unfold uperGetNslength
  simp only [hrun₁,ok_bind]
  exact hrun₂

theorem uperGetNslength_ensures : Get.Ensures uperGetNslength (fun _ => True) := by
  intro pd hv
  obtain ⟨small,pd₁,hrun₁,hv₁,hfollows₁,_⟩ := getBits_ensures 1 pd hv
  have hshort : Get.Ensures (getBits 6 >>= fun length => (pure (length+1) : Get Nat))
      (fun _ => True) := (getBits_ensures 6).bind fun _ _ => .pure trivial
  have hlong : Get.Ensures (uperGetLength (-1) 0 >>= fun r =>
      if r.2 then (Get.fail : Get Nat) else pure r.1) (fun _ => True) := by
    refine (uperGetLength_ensures (-1) 0).bind fun r _ => ?_
    split
    · exact .fail
    · exact .pure trivial
  unfold uperGetNslength
  simp only [hrun₁,ok_bind]
  by_cases hsmall : small = some 0
  · obtain ⟨result,pd₂,hrun₂,hv₂,hfollows₂,hp⟩ := hshort pd₁ hv₁
    rw [if_pos hsmall]
    exact ⟨result,pd₂,hrun₂,hv₂,hfollows₁.trans hfollows₂,hp⟩
  · obtain ⟨result,pd₂,hrun₂,hv₂,hfollows₂,hp⟩ := hlong pd₁ hv₁
    rw [if_neg hsmall]
    exact ⟨result,pd₂,hrun₂,hv₂,hfollows₁.trans hfollows₂,hp⟩

/-- Above 64 the writer leaves out the bit that tells the reader so. -/
theorem nslength_misread {n : Nat} (hn : 64 < n) (h16k : n < 16384) :
    ∃ code rest m, lengthCode n = code ++ rest ∧ Get.Accepts uperGetNslength code m ∧ m < n := by
  by_cases h127 : n ≤ 127
  · refine ⟨ofNat 7 (n/2),ofNat 1 n,n/2+1,?_,uperGetNslength_small (by omega),by omega⟩
    rw [lengthCode,if_pos h127]
    exact ofNat_add 7 1 n
  · refine ⟨ofNat 1 1 ++ ofNat 8 (n/128),ofNat 7 n,n/128,?_,uperGetNslength_large (by omega),
      by omega⟩
    have hword : ofNat 8 (128+n/256) ++ ofNat 8 (n % 256) = ofNat 16 (32768+n) := by
      rw [ofNat_add 8 8 (32768+n)]
      congr 1
      · congr 1
        omega
      · rw [← ofNat_mod 8 (32768+n)]
        congr 1
        omega
    rw [lengthCode,if_neg h127,if_pos h16k,hword,ofNat_add 9 7 (32768+n),ofNat_add 1 8]
    congr 1
    · congr 1
      · congr 1
        omega
      · rw [← ofNat_mod 8 ((32768+n)/2^7)]
        congr 1
        omega
    · rw [← ofNat_mod 7 (32768+n),← ofNat_mod 7 n]
      congr 1
      omega

theorem nslength_roundTrips_iff (n : Nat) :
    RoundTrips (uperPutNslength n) uperGetNslength n ↔ 1 ≤ n ∧ n ≤ 64 := by
  constructor
  · intro h
    obtain ⟨bits,hemits,haccepts⟩ := h
    by_cases hzero : n = 0
    · subst hzero
      exact absurd hemits Put.not_emits_fail
    · refine ⟨by omega,?_⟩
      by_contra hlarge
      by_cases h16k : n < 16384
      · have hcode := hemits.unique (uperPutNslength_large (by omega) h16k)
        obtain ⟨code,rest,m,hsplit,hread,hlt⟩ := nslength_misread (by omega) h16k
        rw [hcode,hsplit] at haccepts
        have hsame := hread.unique haccepts
        omega
      · exact uperPutNslength_refused (by omega) bits hemits
  · intro h
    obtain ⟨hpos,hn⟩ := h
    have hread := @uperGetNslength_small (n-1) (by omega)
    rw [Nat.sub_add_cancel hpos] at hread
    exact ⟨_,uperPutNslength_small hpos hn,hread⟩

theorem uperGetNsnnwn_small {n : Nat} (h : n < 64) :
    Get.Accepts uperGetNsnnwn (ofNat 7 n) n := by
  have hlow : ∀ v < 64, v &&& 64 = 0 := by decide
  rw [uperGetNsnnwn]
  refine (getBits_accepts (v := n) (by decide) (by omega)).bind_last ?_
  rw [if_pos (hlow n h)]
  exact .pure n

theorem uperGetNsnnwn_ensures : Get.Ensures uperGetNsnnwn (fun _ => True) := by
  refine (getBits_ensures 7).bind fun value _ => ?_
  split
  · exact .pure trivial
  · refine (getBits_ensures 2).bind fun low _ => ?_
    simp only
    split
    · exact .fail
    · split
      · exact .pure trivial
      · split
        · exact .fail
        · exact (getBits_ensures _).mono fun _ _ => trivial

theorem uperPutNsnnwn_small {n : Nat} (h : n < 64) :
    Put.Emits (uperPutNsnnwn n) (ofNat 7 n) () := by
  rw [uperPutNsnnwn,if_pos (by omega),if_neg (by omega),Int.toNat_natCast]
  exact asnPutFewBits_emits (by decide)

/-- From 64 on a byte count stands where the reader expects a flag. -/
theorem uperPutNsnnwn_large {n : Nat} (h : 64 ≤ n) (h24 : n < 2^24) :
    ∃ bytes rest, 1 ≤ bytes ∧ bytes ≤ 3 ∧
      Put.Emits (uperPutNsnnwn n) (ofNat 8 bytes ++ rest) () := by
  unfold uperPutNsnnwn
  rw [if_neg (by omega),Int.toNat_natCast]
  by_cases h8 : n < 256
  · rw [if_pos (by omega)]
    exact ⟨1,_,by decide,by decide,
      (asnPutFewBits_emits (by decide)).bind (asnPutFewBits_emits (by decide))⟩
  · rw [if_neg (by omega)]
    by_cases h16 : n < 65536
    · rw [if_pos (by omega)]
      exact ⟨2,_,by decide,by decide,
        (asnPutFewBits_emits (by decide)).bind (asnPutFewBits_emits (by decide))⟩
    · rw [if_neg (by omega),if_pos (by omega)]
      exact ⟨3,_,by decide,by decide,
        (asnPutFewBits_emits (by decide)).bind (asnPutFewBits_emits (by decide))⟩

theorem nsnnwn_roundTrips_iff (n : Nat) :
    RoundTrips (uperPutNsnnwn n) uperGetNsnnwn n ↔ n ≤ 63 := by
  constructor
  · intro h
    obtain ⟨bits,hemits,haccepts⟩ := h
    by_contra hlarge
    by_cases h24 : n < 2^24
    · obtain ⟨bytes,rest,_,hbytes,hcode⟩ := uperPutNsnnwn_large (by omega) h24
      have hread := uperGetNsnnwn_small (n := bytes/2) (by omega)
      rw [hemits.unique hcode,ofNat_add 7 1 bytes,List.append_assoc] at haccepts
      have hsame := hread.unique haccepts
      omega
    · rw [uperPutNsnnwn,if_neg (by omega),if_neg (by omega),if_neg (by omega),
        if_neg (by omega)] at hemits
      exact Put.not_emits_fail hemits
  · intro h
    exact ⟨_,uperPutNsnnwn_small (by omega),uperGetNsnnwn_small (by omega)⟩

theorem putWholeNumber_emits {depth v n : Nat} (h : n/31 < depth) :
    Put.Emits (putWholeNumber depth v n) (ofNat n v) () := by
  induction depth generalizing v n with
  | zero => omega
  | succ depth ih =>
    unfold putWholeNumber
    by_cases h31 : n ≤ 31
    · rw [if_pos h31]
      exact asnPutFewBits_emits h31
    · have hsplit := ofNat_add (n-31) 31 v
      rw [Nat.sub_add_cancel (by omega)] at hsplit
      rw [if_neg h31,hsplit,← Nat.shiftRight_eq_div_pow]
      exact (ih (by omega)).bind (asnPutFewBits_emits (by decide))

theorem uperPutConstrainedWholeNumber_emits (v n : Nat) :
    Put.Emits (uperPutConstrainedWholeNumber v n) (ofNat n v) () :=
  putWholeNumber_emits (Nat.lt_succ_self _)

theorem getWholeNumber_accepts {depth v n : Nat} (hdepth : n ≤ 31*depth) (hpos : 0 < depth)
    (h64 : n ≤ 64) (hv : v < 2^n) : Get.Accepts (getWholeNumber depth n) (ofNat n v) v := by
  induction depth generalizing v n with
  | zero => omega
  | succ depth ih =>
    unfold getWholeNumber
    by_cases h31 : n ≤ 31
    · rw [if_pos h31]
      exact getBits_accepts h31 hv
    · have hsplit := ofNat_add 31 (n-31) v
      have hsum : 31+(n-31) = n := by omega
      rw [hsum,← ofNat_mod (n-31) v] at hsplit
      have hhigh : v/2^(n-31) < 2^31 := by
        apply Nat.div_lt_of_lt_mul
        rw [← Nat.pow_add,Nat.sub_add_cancel (by omega)]
        exact hv
      have hlow : v % 2^(n-31) < 2^(n-31) := Nat.mod_lt _ (Nat.two_pow_pos _)
      have hword : (v/2^(n-31)) <<< (n-31) ||| v % 2^(n-31) = v := by
        rw [← Nat.shiftLeft_add_eq_or_of_lt hlow,Nat.shiftLeft_eq,Nat.div_add_mod']
      rw [if_neg h31,if_neg (by omega),hsplit]
      refine (getBits_accepts (by decide) hhigh).bind ?_
      refine (ih (by omega) (by omega) (by omega) hlow).bind_last ?_
      rw [hword]
      exact .pure v

theorem uperGetConstrainedWholeNumber_accepts {v n : Nat} (h64 : n ≤ 64) (hv : v < 2^n) :
    Get.Accepts (uperGetConstrainedWholeNumber n) (ofNat n v) v :=
  getWholeNumber_accepts (by omega) (by decide) h64 hv

theorem getWholeNumber_ensures {depth n : Nat} (hdepth : n ≤ 31*depth ∨ 64 < n)
    (hpos : 0 < depth) : Get.Ensures (getWholeNumber depth n) (fun v => v < 2^n) := by
  induction depth generalizing n with
  | zero => omega
  | succ depth ih =>
    unfold getWholeNumber
    by_cases h31 : n ≤ 31
    · rw [if_pos h31]
      exact getBits_ensures n
    · rw [if_neg h31]
      by_cases h64 : 64 < n
      · rw [if_pos h64]
        exact .fail
      · rw [if_neg h64]
        refine (getBits_ensures 31).bind fun half hhalf => ?_
        refine (ih (n := n-31) (by omega) (by omega)).bind fun lhalf hlhalf => .pure ?_
        rw [← Nat.shiftLeft_add_eq_or_of_lt hlhalf,Nat.shiftLeft_eq]
        calc half*2^(n-31)+lhalf < (half+1)*2^(n-31) := by
              rw [Nat.succ_mul]
              exact Nat.add_lt_add_left hlhalf _
          _ ≤ 2^31*2^(n-31) := Nat.mul_le_mul_right _ hhalf
          _ = 2^n := by rw [← Nat.pow_add,Nat.add_sub_cancel' (by omega)]

theorem uperGetConstrainedWholeNumber_ensures (n : Nat) :
    Get.Ensures (uperGetConstrainedWholeNumber n) (fun v => v < 2^n) :=
  getWholeNumber_ensures (by omega) (by decide)

end Mitvane.Per

import Mitvane.PerSupport
import Mitvane.PerEntry

/-! Lengths in fragments, and open type fields: an encoding inside an encoding. A field
that the reader does not know is skipped. -/
set_option autoImplicit false

namespace Mitvane.Per
open PartialRun BitString

def endOfMessage (needEom : Bool) : Put Unit :=
  if needEom then do
    let _ ← uperPutLength 0
    pure ()
  else pure ()

def putFragments (chunk : Nat → Nat → Put Unit) : Nat → Nat → Nat → Put Unit
  | 0, _, _ => fun _ => .error .unfinished
  | fuel+1, offset, size => do
    let (maySave,needEom) ← uperPutLength size
    chunk offset maySave
    endOfMessage needEom
    if size-maySave = 0 then pure ()
    else putFragments chunk fuel (offset+maySave) (size-maySave)

section Fragments
variable {α : Type} (chunk : Nat → Get (List α)) (code : List α → List Bool)

def getFragmentsLoop : Nat → List α → Get (List α)
  | 0, _ => Get.fault .unfinished
  | fuel+1, found => do
    let (length,more) ← uperGetLength (-1) 0
    let units ← chunk length
    if more then getFragmentsLoop fuel (found ++ units) else pure (found ++ units)

def getFragments : Get (List α) := fun pd => getFragmentsLoop chunk (pd.nbits/8+1) [] pd

def fragmentsCode : Nat → List α → List Bool
  | 0, _ => []
  | fuel+1, units =>
    lengthCode units.length ++ (code (units.take (announced units.length)) ++
      ((if endsWhole units.length then lengthCode 0 else []) ++
        (if units.length-announced units.length = 0 then []
        else fragmentsCode fuel (units.drop (announced units.length)))))

variable {chunk code}

theorem endOfMessage_emits (needEom : Bool) :
    Put.Emits (endOfMessage needEom) (if needEom then lengthCode 0 else []) () := by
  cases needEom with
  | false => exact .pure ()
  | true =>
    rw [endOfMessage,if_pos rfl,if_pos rfl]
    exact (uperPutLength_emits 0).bind_last (.pure ())

theorem rest_lt {n fuel : Nat} (h : n/16384 < fuel+1) (hrest : n-announced n ≠ 0) :
    (n-announced n)/16384 < fuel := by
  unfold announced at hrest ⊢
  split at hrest
  · omega
  · rename_i hlarge
    rw [if_neg hlarge]
    omega

theorem putFragments_emits {put : Nat → Nat → Put Unit} (units : List α)
    (hput : ∀ offset n, offset % 16384 = 0 → offset+n ≤ units.length →
      Put.Emits (put offset n) (code ((units.drop offset).take n)) ())
    {fuel : Nat} (offset : Nat) (hwhole : offset % 16384 = 0)
    (hfuel : (units.length-offset)/16384 < fuel)
    (hoffset : offset ≤ units.length) :
    Put.Emits (putFragments put fuel offset (units.length-offset))
      (fragmentsCode code fuel (units.drop offset)) () := by
  induction fuel generalizing offset with
  | zero => omega
  | succ fuel ih =>
    have hle := announced_le (units.length-offset)
    unfold putFragments fragmentsCode
    rw [List.length_drop]
    refine (uperPutLength_emits _).bind ?_
    refine (hput offset _ hwhole (by omega)).bind ?_
    refine (endOfMessage_emits _).bind ?_
    by_cases hdone : units.length-offset-announced (units.length-offset) = 0
    · rw [if_pos hdone,if_pos hdone]
      exact .pure ()
    · rw [if_neg hdone,if_neg hdone,List.drop_drop]
      have hpart : announced (units.length-offset) % 16384 = 0 := by
        unfold announced at hdone ⊢
        split at hdone
        · omega
        · rename_i hlarge
          rw [if_neg hlarge]
          omega
      have hnext := ih (offset+announced (units.length-offset)) (by omega)
        (by rw [Nat.sub_add_eq]; exact rest_lt hfuel hdone) (by omega)
      rw [Nat.sub_add_eq] at hnext
      exact hnext

theorem eight_le_lengthCode (n : Nat) : 8 ≤ (lengthCode n).length := by
  unfold lengthCode
  split
  · simp
  · split
    · simp
    · simp

theorem getFragmentsLoop_accepts (units found : List α)
    (hchunk : ∀ seg, seg <:+: units → Get.Accepts (chunk seg.length) (code seg) seg)
    (hnil : code [] = []) {fuel rounds : Nat} (hrounds : units.length/16384 < rounds)
    (hfuel : (fragmentsCode code rounds units).length < 8*fuel) :
    Get.Accepts (getFragmentsLoop chunk fuel found) (fragmentsCode code rounds units)
      (found ++ units) := by
  induction rounds generalizing units found fuel with
  | zero => omega
  | succ rounds ih =>
    have hle := announced_le units.length
    have hseg : (units.take (announced units.length)).length = announced units.length := by
      rw [List.length_take,Nat.min_eq_left hle]
    have hread := hchunk (units.take (announced units.length)) (List.take_prefix _ _).isInfix
    rw [hseg] at hread
    have hcode := eight_le_lengthCode units.length
    cases fuel with
    | zero => omega
    | succ fuel =>
      unfold fragmentsCode at hfuel ⊢
      simp only [List.length_append] at hfuel
      refine (uperGetLength_accepts units.length).bind ?_
      refine hread.bind ?_
      by_cases hmore : 16384 ≤ units.length
      · simp only [decide_eq_true hmore,if_true]
        by_cases hdone : units.length-announced units.length = 0
        · have hends : endsWhole units.length = true := by
            unfold announced at hdone
            rw [if_neg (by omega)] at hdone
            exact decide_eq_true (by omega)
          have hall : units.take (announced units.length) = units :=
            List.take_of_length_le (by omega)
          have hempty := hchunk [] (List.nil_infix)
          rw [hnil] at hempty
          simp only [hends,if_true,if_pos hdone,List.length_nil] at hfuel ⊢
          rw [hall]
          cases fuel with
          | zero =>
            have h8 := eight_le_lengthCode 0
            omega
          | succ fuel =>
            unfold getFragmentsLoop
            refine (uperGetLength_accepts 0).bind ?_
            refine hempty.bind_last ?_
            simp only [List.append_nil]
            exact .pure _
        · have hends : endsWhole units.length = false := by
            unfold announced at hdone
            rw [if_neg (by omega)] at hdone
            exact decide_eq_false (by omega)
          simp only [hends,if_neg hdone,Bool.false_eq_true,if_false,List.nil_append,
            List.length_nil] at hfuel ⊢
          have hleft : (fragmentsCode code rounds (units.drop (announced units.length))).length <
              8*fuel := by omega
          have hnext := ih (units.drop (announced units.length))
            (found ++ units.take (announced units.length))
            (fun seg hsub => hchunk seg (hsub.trans (List.drop_suffix _ _).isInfix))
            (by rw [List.length_drop]; exact rest_lt hrounds hdone) hleft
          rw [List.append_assoc,List.take_append_drop] at hnext
          exact hnext
      · have hannounced : announced units.length = units.length := if_pos (by omega)
        have hends : endsWhole units.length = false := decide_eq_false (by omega)
        rw [hannounced,hends,Nat.sub_self,List.take_length]
        simp only [decide_eq_false hmore]
        exact .pure _

theorem getFragments_accepts (units : List α)
    (hchunk : ∀ seg, seg <:+: units → Get.Accepts (chunk seg.length) (code seg) seg)
    (hnil : code [] = []) :
    Get.Accepts (getFragments chunk) (fragmentsCode code (units.length/16384+1) units) units := by
  intro pd rest hv hrest
  have hlen := hv.length_rest
  rw [hrest,List.length_append] at hlen
  have hfuel : (fragmentsCode code (units.length/16384+1) units).length < 8*(pd.nbits/8+1) := by
    omega
  exact getFragmentsLoop_accepts units [] hchunk hnil (Nat.lt_succ_self _) hfuel pd rest hv hrest

theorem fragmentsCode_short {units : List α} (h : units.length < 16384) :
    fragmentsCode code (units.length/16384+1) units = lengthCode units.length ++ code units := by
  have hannounced : announced units.length = units.length := if_pos h
  have hends : endsWhole units.length = false := decide_eq_false (by omega)
  rw [fragmentsCode,hannounced,hends,Nat.sub_self,List.take_length,if_pos rfl,List.append_nil,
    if_neg Bool.false_ne_true,List.append_nil]

theorem getFragments_short {n : Nat} (hn : n < 16384) {bits : List Bool} {units : List α}
    (h : Get.Accepts (chunk n) bits units) :
    Get.Accepts (getFragments chunk) (lengthCode n ++ bits) units := by
  intro pd rest hv hrest
  have hloop : Get.Accepts (getFragmentsLoop chunk (pd.nbits/8+1) []) (lengthCode n ++ bits)
      units := by
    have hlength := uperGetLength_accepts n
    rw [announced,if_pos hn,decide_eq_false (by omega)] at hlength
    unfold getFragmentsLoop
    exact hlength.bind (h.bind_last (.pure units))
  exact hloop pd rest hv hrest

theorem getFragmentsLoop_ensures {P : List α → Prop}
    (happend : ∀ units rest, P units → P rest → P (units ++ rest))
    (hchunk : ∀ n ≤ 65536, Get.Ensures (chunk n) P) (fuel : Nat) (found : List α)
    (hfound : P found) (pd : BitData) (hv : pd.Valid) (hfuel : pd.rest.length < 8*fuel) :
    ∃ result pd', getFragmentsLoop chunk fuel found pd = .ok (result,pd') ∧ pd'.Valid ∧
      pd.Follows pd' ∧ ∀ units, result = some units → P units := by
  induction fuel generalizing pd found with
  | zero => omega
  | succ fuel ih =>
    unfold getFragmentsLoop
    obtain ⟨length,pd₁,hrun₁,hv₁,hfollows₁,hbound⟩ := uperGetLength_ensures (-1) 0 pd hv
    cases length with
    | none => exact ⟨none,pd₁,Get.bind_none hrun₁,hv₁,hfollows₁,fun _ hb => nomatch hb⟩
    | some length =>
      obtain ⟨n,more⟩ := length
      rw [Get.bind_some hrun₁]
      have htaken := uperGetLength_takes pd _ pd₁ hv hrun₁
      obtain ⟨units,pd₂,hrun₂,hv₂,hfollows₂,hp⟩ := hchunk n (by simpa using hbound _ rfl) pd₁ hv₁
      cases units with
      | none =>
        exact ⟨none,pd₂,Get.bind_none hrun₂,hv₂,hfollows₁.trans hfollows₂,fun _ hb => nomatch hb⟩
      | some units =>
        have hforward := hfollows₂.forward
        have hboth := happend found units hfound (hp units rfl)
        simp only [Get.bind_some hrun₂]
        cases more with
        | false =>
          refine ⟨some (found ++ units),pd₂,rfl,hv₂,hfollows₁.trans hfollows₂,?_⟩
          intro all heq
          cases heq
          exact hboth
        | true =>
          obtain ⟨result,pd₃,hrun₃,hv₃,hfollows₃,hp₃⟩ := ih (found ++ units) hboth pd₂ hv₂ (by omega)
          exact ⟨result,pd₃,hrun₃,hv₃,(hfollows₁.trans hfollows₂).trans hfollows₃,hp₃⟩

/-- The loop ends, since every length takes bits off the stream. -/
theorem getFragments_ensures {P : List α → Prop} (hnil : P [])
    (happend : ∀ units rest, P units → P rest → P (units ++ rest))
    (hchunk : ∀ n ≤ 65536, Get.Ensures (chunk n) P) : Get.Ensures (getFragments chunk) P := by
  intro pd hv
  have hlen := hv.length_rest
  exact getFragmentsLoop_ensures happend hchunk _ [] hnil pd hv (by omega)

end Fragments

def uperOpenTypePut (stack : Tmpspace) (uperEncoder : Put Unit) : Put Unit := fun po => do
  let encoded ← uperEncodeToNewBuffer stack uperEncoder
  match encoded with
  | none => Put.fail po
  | some (buf,size) =>
    if size = 0 then Put.fail po
    else
      putFragments (fun offset maySave => asnPutManyBits (buf.drop offset) (maySave*8))
        (size/16384+1) 0 size po

def openTypeLoop : Nat → List UInt8 → Nat → Get (List UInt8)
  | 0, _, _ => Get.fault .unfinished
  | fuel+1, buf, bufSize => do
    let (chunkBytes,more) ← uperGetLength (-1) 0
    let bufSize := if bufSize < buf.length+chunkBytes then chunkBytes+bufSize <<< 2 else bufSize
    let bytes ← asnGetManyBits false (chunkBytes <<< 3)
    if bufSize < buf.length+bytes.length then Get.fault .outOfBounds
    else if more then openTypeLoop fuel (buf ++ bytes) bufSize
    else pure (buf ++ bytes)

/-- Decoding of the octets, which have to be used up but for some zero bits. -/
def decodeInside {α : Type} (uperDecoder : Get α) (buf : List UInt8) : Except Fault (Option α) := do
  let (value,spd) ← uperDecoder ⟨buf,0,buf.length <<< 3,0⟩
  match value with
  | none => pure none
  | some value =>
    let padding := spd.nbits-spd.nboff
    if padding < 8 ∨ (spd.nboff = 0 ∧ spd.nbits = 8 ∧ spd.buffer.length = buf.length) then do
      let (pad,_) ← asnGetFewBits spd padding
      if pad = some 0 then pure (some value) else pure none
    else pure none

def uperOpenTypeGet {α : Type} (uperDecoder : Get α) : Get α := fun pd => do
  let (buf,pd) ← openTypeLoop (pd.nbits/8+1) [] 0 pd
  match buf with
  | none => pure (none,pd)
  | some buf => do
    let value ← decodeInside uperDecoder buf
    pure (value,pd)

def sotSuckLoop : Nat → Get Unit
  | 0 => Get.fault .unfinished
  | fuel+1 => fun pd => do
    let (value,pd) ← asnGetFewBits pd 24
    match value with
    | none => pure (some (),pd)
    | some _ => sotSuckLoop fuel pd

def uperSotSuck : Get Unit := fun pd => sotSuckLoop (pd.nbits/24+1) pd

def uperOpenTypeSkip : Get Unit := uperOpenTypeGet uperSotSuck

def octets (n : Nat) : Get (List UInt8) := asnGetManyBits false (8*n)

theorem octets_accepts (bytes : List UInt8) :
    Get.Accepts (octets bytes.length) (ofBytes bytes) bytes :=
  (asnGetManyBits_parses _).accepts (Parser.accepts_bytes bytes)

theorem octets_ensures (n : Nat) : Get.Ensures (octets n) (fun bytes => bytes.length = n) :=
  (asnGetManyBits_ensures (8*n)).mono fun bytes hbytes => by omega

theorem openTypeLoop_eq (fuel : Nat) (buf : List UInt8) (bufSize : Nat) (pd : BitData)
    (hv : pd.Valid) (hbuf : buf.length ≤ bufSize) :
    openTypeLoop fuel buf bufSize pd = getFragmentsLoop octets fuel buf pd := by
  induction fuel generalizing buf bufSize pd with
  | zero => rfl
  | succ fuel ih =>
    unfold openTypeLoop getFragmentsLoop
    obtain ⟨length,pd₁,hrun₁,hv₁,_,_⟩ := uperGetLength_ensures (-1) 0 pd hv
    cases length with
    | none => rw [Get.bind_none hrun₁,Get.bind_none hrun₁]
    | some length =>
      obtain ⟨n,more⟩ := length
      have height : n <<< 3 = 8*n := by rw [Nat.shiftLeft_eq]; omega
      have hroom : buf.length+n ≤
          if bufSize < buf.length+n then n+bufSize <<< 2 else bufSize := by
        rw [Nat.shiftLeft_eq]
        split <;> omega
      rw [Get.bind_some hrun₁,Get.bind_some hrun₁]
      simp only [height]
      generalize (if bufSize < buf.length+n then n+bufSize <<< 2 else bufSize) = size at hroom ⊢
      obtain ⟨bytes,pd₂,hrun₂,hv₂,_,hbytes⟩ := octets_ensures n pd₁ hv₁
      have hrun₂' : asnGetManyBits false (8*n) pd₁ = .ok (bytes,pd₂) := hrun₂
      cases bytes with
      | none => rw [Get.bind_none hrun₂',Get.bind_none hrun₂]
      | some bytes =>
        have hn : bytes.length = n := hbytes bytes rfl
        rw [Get.bind_some hrun₂',Get.bind_some hrun₂,
          if_neg (show ¬ size < buf.length+bytes.length by omega)]
        cases more with
        | false => rfl
        | true => exact ih (buf ++ bytes) size pd₂ hv₂ (by rw [List.length_append]; omega)

/-- The octets that stand for some bits: at least one, the last one filled with zeros. -/
def contentOf (bits : List Bool) : List UInt8 :=
  if bits.length = 0 then [0] else toBytes ((bits.length+7)/8) bits

def openTypeCode (content : List UInt8) : List Bool :=
  fragmentsCode ofBytes (content.length/16384+1) content

theorem uperEncodeToNewBuffer_content {uperEncoder : Put Unit} {bits : List Bool}
    (h : Put.Emits uperEncoder bits ()) (stack : Tmpspace) :
    uperEncodeToNewBuffer stack uperEncoder =
      .ok (some (contentOf bits,(contentOf bits).length)) := by
  rw [uperEncodeToNewBuffer_eq h stack,contentOf]
  by_cases hzero : bits.length = 0
  · rw [if_pos hzero,if_pos hzero]
    rfl
  · rw [if_neg hzero,if_neg hzero,length_toBytes]

theorem contentOf_pos (bits : List Bool) : 0 < (contentOf bits).length := by
  unfold contentOf
  split
  · decide
  · rw [length_toBytes]
    omega

theorem uperOpenTypePut_emits {uperEncoder : Put Unit} {bits : List Bool}
    (h : Put.Emits uperEncoder bits ()) (stack : Tmpspace) :
    Put.Emits (uperOpenTypePut stack uperEncoder) (openTypeCode (contentOf bits)) () := by
  intro po hv
  have hpos := contentOf_pos bits
  have hput : ∀ offset n, offset % 16384 = 0 → offset+n ≤ (contentOf bits).length →
      Put.Emits (asnPutManyBits ((contentOf bits).drop offset) (n*8))
        (ofBytes (((contentOf bits).drop offset).take n)) () := by
    intro offset n _ hn
    have hmany := @asnPutManyBits_emits ((contentOf bits).drop offset) (n*8)
      (by rw [List.length_drop]; omega)
    rw [Nat.mul_comm n 8,← ofBytes_take] at hmany
    rw [Nat.mul_comm n 8]
    exact hmany
  have hall := putFragments_emits (contentOf bits) hput 0 rfl
    (Nat.lt_succ_self _) (Nat.zero_le _) po hv
  simp only [Nat.sub_zero,List.drop_zero] at hall
  unfold uperOpenTypePut
  rw [uperEncodeToNewBuffer_content h stack,ok_bind]
  simp only [if_neg (show ¬ (contentOf bits).length = 0 by omega)]
  exact hall

theorem inside_start (buf : List UInt8) :
    (⟨buf,0,buf.length <<< 3,0⟩ : BitData).Valid ∧
      (⟨buf,0,buf.length <<< 3,0⟩ : BitData).rest = ofBytes buf := by
  have hlen : buf.length <<< 3 = 8*buf.length := by rw [Nat.shiftLeft_eq]; omega
  refine ⟨⟨Nat.zero_le _,by rw [hlen]⟩,?_⟩
  simp only [BitData.rest,List.drop_zero,hlen]
  exact List.take_of_length_le (by rw [length_ofBytes])

/-- What may be left over: less than an octet of zeros, or one zero octet and nothing
else. -/
theorem decodeInside_some {α : Type} {uperDecoder : Get α} {buf : List UInt8} {value : α}
    {spd : BitData} (hrun : uperDecoder ⟨buf,0,buf.length <<< 3,0⟩ = .ok (some value,spd))
    (hv : spd.Valid) (hfollows : (⟨buf,0,buf.length <<< 3,0⟩ : BitData).Follows spd) :
    decodeInside uperDecoder buf = .ok
      (if (spd.rest.length < 8 ∨ (buf.length = 1 ∧ spd.rest.length = 8)) ∧
        BitString.value spd.rest = 0 then some value else none) := by
  have hlen : buf.length <<< 3 = 8*buf.length := by rw [Nat.shiftLeft_eq]; omega
  have hmem := hfollows.memory
  have hpointer := hfollows.pointer
  have hrest := hv.length_rest
  have hposition := hv.position
  simp only [hlen] at hmem hpointer
  have hpadding : (spd.nbits-spd.nboff < 8 ∨
      (spd.nboff = 0 ∧ spd.nbits = 8 ∧ spd.buffer.length = buf.length)) ↔
      (spd.rest.length < 8 ∨ (buf.length = 1 ∧ spd.rest.length = 8)) := by
    constructor
    · intro h
      omega
    · intro h
      omega
  unfold decodeInside
  simp only [hrun,ok_bind]
  by_cases hfit : spd.rest.length < 8 ∨ (buf.length = 1 ∧ spd.rest.length = 8)
  · have hread : asnGetFewBits spd (spd.nbits-spd.nboff) =
        .ok (some (BitString.value spd.rest),spd.advance (spd.nbits-spd.nboff)) := by
      rw [asnGetFewBits_eq hv (by omega),readResult,if_pos (by omega),
        List.take_of_length_le (by omega)]
    rw [if_pos (hpadding.mpr hfit),hread,ok_bind]
    by_cases hzero : BitString.value spd.rest = 0
    · simp only [hzero,if_true,and_true,if_pos hfit]
      rfl
    · simp only [Option.some.injEq,hzero,if_false,and_false]
      rfl
  · rw [if_neg (fun h => hfit (hpadding.mp h)),if_neg (fun h => hfit h.1)]
    rfl

theorem decodeInside_accepts {α : Type} {uperDecoder : Get α} {bits : List Bool} {value : α}
    (h : Get.Accepts uperDecoder bits value) :
    decodeInside uperDecoder (contentOf bits) = .ok (some value) := by
  obtain ⟨hv,hrest⟩ := inside_start (contentOf bits)
  obtain ⟨z,hcontent,hz⟩ : ∃ z, ofBytes (contentOf bits) = bits ++ List.replicate z false ∧
      (z < 8 ∨ ((contentOf bits).length = 1 ∧ z = 8)) := by
    unfold contentOf
    by_cases hzero : bits.length = 0
    · rw [if_pos hzero,List.eq_nil_of_length_eq_zero hzero]
      exact ⟨8,rfl,.inr ⟨rfl,rfl⟩⟩
    · rw [if_neg hzero]
      exact ⟨_,ofBytes_toBytes (by omega),.inl (by omega)⟩
  rw [hcontent] at hrest
  obtain ⟨spd,hrun,hv',hfollows,hleft⟩ := h _ _ hv hrest
  rw [decodeInside_some hrun hv' hfollows,hleft,value_zeros,List.length_replicate,
    if_pos ⟨hz,rfl⟩]

theorem uperOpenTypeGet_run {α : Type} (uperDecoder : Get α) {content : List UInt8}
    {pd : BitData} {rest : List Bool} (hv : pd.Valid)
    (hrest : pd.rest = openTypeCode content ++ rest) :
    ∃ pd', pd'.Valid ∧ pd.Follows pd' ∧ pd'.rest = rest ∧
      uperOpenTypeGet uperDecoder pd =
        (decodeInside uperDecoder content >>= fun value => pure (value,pd')) := by
  obtain ⟨pd',hrun,hv',hfollows,hrest'⟩ :=
    getFragments_accepts content (fun seg _ => octets_accepts seg) rfl pd rest hv hrest
  have hloop : openTypeLoop (pd.nbits/8+1) [] 0 pd = .ok (some content,pd') := by
    rw [openTypeLoop_eq _ [] 0 pd hv (Nat.le_refl _)]
    exact hrun
  refine ⟨pd',hv',hfollows,hrest',?_⟩
  unfold uperOpenTypeGet
  rw [hloop]
  rfl

theorem uperOpenTypeGet_accepts {α : Type} {uperDecoder : Get α} {bits : List Bool} {value : α}
    (h : Get.Accepts uperDecoder bits value) :
    Get.Accepts (uperOpenTypeGet uperDecoder) (openTypeCode (contentOf bits)) value := by
  intro pd rest hv hrest
  obtain ⟨pd',hv',hfollows,hrest',hrun⟩ := uperOpenTypeGet_run uperDecoder hv hrest
  rw [decodeInside_accepts h] at hrun
  exact ⟨pd',hrun,hv',hfollows,hrest'⟩

theorem decodeInside_ensures {α : Type} {uperDecoder : Get α} {P : α → Prop}
    (h : Get.Ensures uperDecoder P) (buf : List UInt8) :
    ∃ result, decodeInside uperDecoder buf = .ok result ∧ ∀ value, result = some value → P value := by
  obtain ⟨result,spd,hrun,hv,hfollows,hp⟩ := h _ (inside_start buf).1
  cases result with
  | none =>
    refine ⟨none,?_,fun _ hb => nomatch hb⟩
    unfold decodeInside
    rw [hrun]
    rfl
  | some value =>
    refine ⟨_,decodeInside_some hrun hv hfollows,?_⟩
    intro value' hvalue
    split at hvalue
    · cases hvalue
      exact hp value rfl
    · cases hvalue

theorem uperOpenTypeGet_ensures {α : Type} {uperDecoder : Get α} {P : α → Prop}
    (h : Get.Ensures uperDecoder P) : Get.Ensures (uperOpenTypeGet uperDecoder) P := by
  intro pd hv
  obtain ⟨result,pd',hrun,hv',hfollows,_⟩ := @getFragments_ensures UInt8 octets
    (fun _ => True) trivial (fun _ _ _ _ => trivial)
    (fun n _ => (octets_ensures n).mono fun _ _ => trivial) pd hv
  have hloop : openTypeLoop (pd.nbits/8+1) [] 0 pd = .ok (result,pd') := by
    rw [openTypeLoop_eq _ [] 0 pd hv (Nat.le_refl _)]
    exact hrun
  unfold uperOpenTypeGet
  rw [hloop,ok_bind]
  cases result with
  | none => exact ⟨none,pd',rfl,hv',hfollows,fun _ hb => nomatch hb⟩
  | some buf =>
    obtain ⟨value,hinside,hp⟩ := decodeInside_ensures h buf
    simp only [hinside,ok_bind]
    exact ⟨value,pd',rfl,hv',hfollows,hp⟩

theorem sotSuckLoop_ok (fuel : Nat) (pd : BitData) (hv : pd.Valid)
    (hfuel : pd.rest.length < 24*fuel) :
    ∃ pd', sotSuckLoop fuel pd = .ok (some (),pd') ∧ pd'.Valid ∧ pd.Follows pd' ∧
      pd'.rest = pd.rest.drop (24*(pd.rest.length/24)) := by
  induction fuel generalizing pd with
  | zero => omega
  | succ fuel ih =>
    unfold sotSuckLoop
    rw [asnGetFewBits_eq hv (by decide),readResult]
    by_cases hlen : 24 ≤ pd.rest.length
    · obtain ⟨hav,hrest,_⟩ := hv.advance hlen
      rw [if_pos hlen,ok_bind]
      have hshort : (pd.advance 24).rest.length = pd.rest.length-24 := by
        rw [hrest,List.length_drop]
      obtain ⟨pd',hrun,hv',hfollows,hrest'⟩ := ih (pd.advance 24) hav (by omega)
      refine ⟨pd',hrun,hv',(hv.follows_advance hlen).trans hfollows,?_⟩
      rw [hrest',hshort,hrest,List.drop_drop]
      congr 1
      omega
    · rw [if_neg hlen,ok_bind]
      refine ⟨pd,rfl,hv,.refl pd,?_⟩
      rw [Nat.div_eq_of_lt (by omega)]
      rfl

theorem uperSotSuck_ok (pd : BitData) (hv : pd.Valid) :
    ∃ pd', uperSotSuck pd = .ok (some (),pd') ∧ pd'.Valid ∧ pd.Follows pd' ∧
      pd'.rest = pd.rest.drop (24*(pd.rest.length/24)) := by
  have hlen := hv.length_rest
  exact sotSuckLoop_ok (pd.nbits/24+1) pd hv (by omega)

theorem uperSotSuck_ensures : Get.Ensures uperSotSuck (fun _ => True) := by
  intro pd hv
  obtain ⟨pd',hrun,hv',hfollows,_⟩ := uperSotSuck_ok pd hv
  exact ⟨some (),pd',hrun,hv',hfollows,fun _ _ => trivial⟩

theorem decodeInside_suck (content : List UInt8) :
    decodeInside uperSotSuck content =
      .ok (if content.length % 3 = 0 ∨ content = [0] then some () else none) := by
  obtain ⟨hv,hrest⟩ := inside_start content
  obtain ⟨spd,hrun,hv',hfollows,hleft⟩ := uperSotSuck_ok _ hv
  rw [hrest,length_ofBytes] at hleft
  have hcount : spd.rest.length = 8*content.length-24*(8*content.length/24) := by
    rw [hleft,List.length_drop,length_ofBytes]
  rw [decodeInside_some hrun hv' hfollows]
  congr 1
  by_cases hthree : content.length % 3 = 0
  · have hnone : spd.rest = [] := List.eq_nil_of_length_eq_zero (by omega)
    rw [hnone,if_pos ⟨.inl (by decide),rfl⟩,if_pos (.inl hthree)]
  · by_cases hone : content.length = 1
    · obtain ⟨b,hb⟩ := List.length_eq_one_iff.mp hone
      have hall : spd.rest = ofBytes [b] := by
        rw [hleft,hone,hb]
        rfl
      rw [hall,value_ofBytes_one,hb]
      by_cases hzero : b.toNat = 0
      · have hb0 : b = 0 := UInt8.toNat_inj.mp hzero
        subst hb0
        rw [if_pos ⟨.inr ⟨rfl,rfl⟩,rfl⟩,if_pos (.inr rfl)]
      · rw [if_neg (fun h => hzero h.2),if_neg]
        intro h
        rcases h with h | h
        · simp at h
        · cases h
          exact hzero rfl
    · rw [if_neg (fun h => by omega),if_neg]
      intro h
      rcases h with h | h
      · exact hthree h
      · rw [h] at hone
        exact hone rfl

theorem uperOpenTypeSkip_run {content : List UInt8} {pd : BitData} {rest : List Bool}
    (hv : pd.Valid) (hrest : pd.rest = openTypeCode content ++ rest) :
    ∃ pd', pd'.Valid ∧ pd.Follows pd' ∧ pd'.rest = rest ∧ uperOpenTypeSkip pd =
      .ok (if content.length % 3 = 0 ∨ content = [0] then some () else none,pd') := by
  obtain ⟨pd',hv',hfollows,hrest',hrun⟩ := uperOpenTypeGet_run uperSotSuck hv hrest
  rw [decodeInside_suck content] at hrun
  exact ⟨pd',hv',hfollows,hrest',hrun⟩

theorem uperOpenTypeSkip_accepts {content : List UInt8}
    (h : content.length % 3 = 0 ∨ content = [0]) :
    Get.Accepts uperOpenTypeSkip (openTypeCode content) () := by
  intro pd rest hv hrest
  obtain ⟨pd',hv',hfollows,hrest',hrun⟩ := uperOpenTypeSkip_run hv hrest
  rw [if_pos h] at hrun
  exact ⟨pd',hrun,hv',hfollows,hrest'⟩

theorem uperOpenTypeSkip_refuses {content : List UInt8}
    (h : ¬ (content.length % 3 = 0 ∨ content = [0])) :
    Get.Refuses uperOpenTypeSkip (openTypeCode content) := by
  intro pd rest hv hrest
  obtain ⟨pd',_,_,_,hrun⟩ := uperOpenTypeSkip_run hv hrest
  rw [if_neg h] at hrun
  exact ⟨pd',hrun⟩

/-- An extension addition that the reader does not know: the octets decide, not what they
mean. -/
theorem unknown_extension_skipped_iff {uperEncoder : Put Unit} {bits : List Bool}
    (h : Put.Emits uperEncoder bits ()) (stack : Tmpspace) {buf : List UInt8} {size : Nat}
    (hbuf : uperEncodeToNewBuffer stack uperEncoder = .ok (some (buf,size))) :
    RoundTrips (uperOpenTypePut stack uperEncoder) uperOpenTypeSkip () ↔
      size % 3 = 0 ∨ buf = [0] := by
  rw [uperEncodeToNewBuffer_content h stack] at hbuf
  cases hbuf
  have hemits := uperOpenTypePut_emits h stack
  constructor
  · intro hround
    obtain ⟨code,hemits',haccepts⟩ := hround
    rw [hemits'.unique hemits] at haccepts
    by_contra hneither
    exact haccepts.not_refuses (uperOpenTypeSkip_refuses hneither)
  · intro hskipped
    exact ⟨_,hemits,uperOpenTypeSkip_accepts hskipped⟩

theorem unknown_extension_skipped_iff_flag :
    RoundTrips (uperOpenTypePut zeroStack (asnPutFewBits 1 1)) uperOpenTypeSkip () ↔
      1 % 3 = 0 ∨ [(0x80 : UInt8)] = [0] :=
  unknown_extension_skipped_iff (asnPutFewBits_emits (by decide)) _ rfl

end Mitvane.Per

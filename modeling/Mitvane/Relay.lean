import Mathlib.Algebra.Group.Nat.Defs
import Mitvane.ProxyRuns

/-! What the proxy relays of a frame from the air: the datagram that a send in flight
reads from the members of the handler. -/
set_option autoImplicit false

namespace Mitvane.Proxy
open PartialRun
variable {w : Nat} {ProxyHeader Power Endpoint : Type}

/-- The bytes of a frame between the descriptor and the four bytes of checksum. -/
def IsFrameBody (descriptorSize : Nat) (frame body : List UInt8) : Prop :=
  ∃ descriptor fcs, frame = descriptor ++ (body ++ fcs) ∧
    descriptor.length = descriptorSize ∧ fcs.length = 4

def Completion.frame (c : Completion w Endpoint) : List UInt8 :=
  c.filled.toList.take c.bytes.toNat

/-- What a UDP send in flight puts on the wire: the header and a part of the receive
buffer. There is no datagram when the part goes beyond the buffer. -/
def ProxyHandler.datagram (s : ProxyHandler ProxyHeader Endpoint) (r : Range) :
    Option (ProxyHeader × List UInt8) :=
  if r.offset + r.length ≤ 2048 then
    some (s.proxyHeader,(s.ota2udpBuffer.toList.drop r.offset).take r.length)
  else none

structure SameDatagrams (s s' : ProxyHandler ProxyHeader Endpoint) : Prop where
  ota2udpBuffer : s'.ota2udpBuffer = s.ota2udpBuffer
  proxyHeader : s'.proxyHeader = s.proxyHeader

section
variable {s s' t : ProxyHandler ProxyHeader Endpoint} {api : ProxyApi w ProxyHeader Power}
  {c : Completion w Endpoint} {r : Range}

theorem SameDatagrams.datagram_eq (h : SameDatagrams s s') (r : Range) :
    s'.datagram r = s.datagram r := by
  rw [ProxyHandler.datagram,ProxyHandler.datagram,h.ota2udpBuffer,h.proxyHeader]

theorem sendOta_same {header : ProxyHeader} {length : BitVec w}
    (h : sendOta api s header length = .ok s') : SameDatagrams s s' := by
  obtain ⟨_,_,rfl⟩ := sendOta_ok h
  exact ⟨rfl,rfl⟩

theorem handleUdpReceive_same {ok : Bool} {bytes : BitVec w}
    (h : handleUdpReceive api s ok bytes = .ok s') : SameDatagrams s s' := by
  unfold handleUdpReceive at h
  split at h
  · exact sendOta_same h
  · cases h
    exact ⟨rfl,rfl⟩

theorem handleUdpReceiveFrom_same {ok : Bool} {bytes : BitVec w}
    (h : handleUdpReceiveFrom api s ok bytes = .ok s') : SameDatagrams s s' := by
  unfold handleUdpReceiveFrom at h
  cases ok with
  | true =>
    have hsame := handleUdpReceive_same h
    exact ⟨hsame.ota2udpBuffer,hsame.proxyHeader⟩
  | false => exact handleUdpReceive_same h

theorem step_same (h : step api s c = .ok s') (hd : c.op.direction = .udpToAir) :
    SameDatagrams s s' := by
  rw [step,if_pos (step_pending h)] at h
  cases hop : c.op with
  | udpReceiveFrom =>
    simp only [hop] at h
    have hsame := handleUdpReceiveFrom_same h
    exact ⟨hsame.ota2udpBuffer,hsame.proxyHeader⟩
  | udpReceive =>
    simp only [hop] at h
    have hsame := handleUdpReceive_same h
    exact ⟨hsame.ota2udpBuffer,hsame.proxyHeader⟩
  | otaSend payload =>
    simp only [hop] at h
    cases h
    exact ⟨rfl,rfl⟩
  | otaReceive =>
    rw [hop] at hd
    cases hd
  | udpSend payload =>
    rw [hop] at hd
    cases hd

theorem step_datagram (h : step api s c = .ok s') (hs : Steady s)
    (hr : .udpSend r ∈ s.pending) (hne : c.op ≠ .udpSend r) :
    .udpSend r ∈ s'.pending ∧ s'.datagram r = s.datagram r := by
  obtain ⟨hmem,hstarts⟩ := step_starts h (hs.not_first h)
  have hkept : .udpSend r ∈ (s.completed c.op).pending :=
    (List.mem_erase_of_ne (Ne.symm hne)).mpr hr
  constructor
  · obtain ⟨op,_,_,hp⟩ := hstarts.pending
    rw [hp]
    exact List.mem_append_left _ hkept
  · have hother := (hs.quiet_completed hmem _ hkept).2
    have hdir : c.op.direction = .udpToAir := by
      cases hd : c.op.direction with
      | udpToAir => rfl
      | airToUdp => exact absurd hd.symm hother
    exact (step_same h hdir).datagram_eq r

/-- A datagram is the same at every moment at which the socket may read it. -/
theorem reaches_datagram (hs : Steady s) (hr : .udpSend r ∈ s.pending)
    {rest : List (Completion w Endpoint)} (h : Reaches (step api) s rest t)
    (hrest : ∀ c ∈ rest, c.op ≠ .udpSend r) :
    Steady t ∧ .udpSend r ∈ t.pending ∧ t.datagram r = s.datagram r := by
  induction h with
  | nil => exact ⟨hs,hr,rfl⟩
  | @snoc done t t' c _ hstep ih =>
    obtain ⟨hsteady,hin,hsame⟩ := ih (fun c' hc' => hrest c' (by simp [hc']))
    obtain ⟨hin',hsame'⟩ := step_datagram hstep hsteady hin (hrest c (by simp))
    exact ⟨(step_steady hstep hsteady).1,hin',hsame'.trans hsame⟩

end

theorem isFrameBody_slice {bytes : List UInt8} {d n : Nat} (h : d + n + 4 ≤ bytes.length) :
    IsFrameBody d (bytes.take (d + n + 4)) ((bytes.drop d).take n) := by
  refine ⟨bytes.take d,(bytes.drop (d + n)).take 4,?_,?_,?_⟩
  · rw [Nat.add_assoc,List.take_add,List.take_add,List.drop_drop]
  · rw [List.length_take]
    omega
  · rw [List.length_take,List.length_drop]
    omega

theorem toNat_fcsLength (hw : 16 ≤ w) : (4 : BitVec w).toNat = 4 := by
  have hpow : 2 ^ 16 ≤ 2 ^ w := Nat.pow_le_pow_right (by decide) hw
  have hof : (4 : BitVec w).toNat = 4 % 2 ^ w := BitVec.toNat_ofNat 4 w
  rw [hof]
  exact Nat.mod_eq_of_lt (by omega)

theorem toNat_bodyLength (hw : 16 ≤ w) {d bytes : BitVec w} (h : d.toNat + 4 ≤ bytes.toNat) :
    (bytes - d - 4).toNat = bytes.toNat - d.toNat - 4 := by
  have hfour := toNat_fcsLength hw
  have hd : (bytes - d).toNat = bytes.toNat - d.toNat :=
    BitVec.toNat_sub_of_le (BitVec.le_def.mpr (by omega))
  rw [BitVec.toNat_sub_of_le (BitVec.le_def.mpr (by omega)),hd,hfour]

theorem toNat_bodyLength_runt (hw : 16 ≤ w) {d bytes : BitVec w} (hd : d.toNat ≤ bytes.toNat)
    (h : bytes.toNat < d.toNat + 4) :
    (bytes - d - 4).toNat = 2 ^ w - (d.toNat + 4 - bytes.toNat) := by
  have hfour := toNat_fcsLength hw
  have hsub : (bytes - d).toNat = bytes.toNat - d.toNat :=
    BitVec.toNat_sub_of_le (BitVec.le_def.mpr hd)
  rw [BitVec.toNat_sub_of_lt (BitVec.lt_def.mpr (by omega)),hsub,hfour]
  omega

/-- A receive leaves the handler `s'` after it was called in `s`. If it called `send_udp`,
then with the exact length of the body, and the datagram carries the body for as long as
the send is in flight; a frame too short to have a body is skipped. -/
structure FrameRelayed (api : ProxyApi w ProxyHeader Power) (c : Completion w Endpoint)
    (s s' : ProxyHandler ProxyHeader Endpoint) : Prop where
  lengthExact : ∀ power offset length, s' = sendUdp api s power offset length →
    api.rxDescriptorSize.toNat + length.toNat + 4 = c.bytes.toNat
  carried : ∀ power offset length, s' = sendUdp api s power offset length →
    ∀ rest t, Reaches (step api) s' rest t →
      (∀ c' ∈ rest, c'.op ≠ .udpSend ⟨offset,length.toNat⟩) →
      ∃ body, t.datagram ⟨offset,length.toNat⟩ =
          some (api.setPayload (api.setSignalPower s.proxyHeader power) length,body) ∧
        IsFrameBody api.rxDescriptorSize.toNat c.frame body
  skipped : c.bytes.toNat < api.rxDescriptorSize.toNat + 4 → s' = s.nextOtaTransfer

/-- A frame without error that has its descriptor but not all of its checksum. -/
def Runt (api : ProxyApi w ProxyHeader Power) (c : Completion w Endpoint) : Prop :=
  c.ok = true ∧ api.rxDescriptorSize.toNat ≤ c.bytes.toNat ∧
    c.bytes.toNat < api.rxDescriptorSize.toNat + 4

section
variable {s s' : ProxyHandler ProxyHeader Endpoint} {api : ProxyApi w ProxyHeader Power}
  {c : Completion w Endpoint}

def ProxyHandler.otaReceived (s : ProxyHandler ProxyHeader Endpoint)
    (c : Completion w Endpoint) : ProxyHandler ProxyHeader Endpoint :=
  (s.completed .otaReceive).fillOta2udp c.filled

theorem step_otaReceive (hop : c.op = .otaReceive) (h : step api s c = .ok s') :
    s' = handleOtaReceive api (s.otaReceived c) c.ok c.bytes := by
  rw [step,if_pos (step_pending h)] at h
  simp only [hop] at h
  cases h
  rfl

theorem sendUdp_pending (power : Power) (offset : Nat) (length : BitVec w) :
    (sendUdp api s power offset length).pending =
      s.pending ++ [.udpSend ⟨offset,length.toNat⟩] := rfl

theorem sendUdp_ne_nextOtaTransfer (power : Power) (offset : Nat) (length : BitVec w) :
    s.nextOtaTransfer ≠ sendUdp api s power offset length := by
  intro h
  have hp : s.pending ++ [.otaReceive] = s.pending ++ [.udpSend ⟨offset,length.toNat⟩] :=
    congrArg ProxyHandler.pending h
  simp at hp

theorem sendUdp_inj {power power' : Power} {offset offset' : Nat} {length length' : BitVec w}
    (h : sendUdp api s power offset length = sendUdp api s power' offset' length') :
    offset = offset' ∧ length = length' := by
  have hp := congrArg ProxyHandler.pending h
  rw [sendUdp_pending,sendUdp_pending,List.append_cancel_left_eq] at hp
  simp only [List.cons.injEq,Operation.udpSend.injEq,Range.mk.injEq,and_true] at hp
  exact ⟨hp.1,BitVec.eq_of_toNat_eq hp.2⟩

theorem steady_of_otaReceive {udpReceiver : Endpoint} {udp2ota ota2udp : Buffer}
    {proxyHeader : ProxyHeader} {cs : List (Completion w Endpoint)}
    (h : Reaches (step api)
      (ProxyHandler.initial udpReceiver udp2ota ota2udp proxyHeader).startTransfer cs s)
    (hop : c.op = .otaReceive) (hstep : step api s c = .ok s') : Steady s := by
  cases cs with
  | nil =>
    have hmem := step_pending hstep
    rw [h.nil_eq,startTransfer_pending rfl,hop] at hmem
    simp at hmem
  | cons first rest => exact (reaches_steady rfl rfl h).2.1

theorem sendUdp_datagram (power : Power) (r : Range) (length : BitVec w) (offset : Nat)
    (h : r.offset + r.length ≤ 2048) :
    (sendUdp api s power offset length).datagram r =
      some (api.setPayload (api.setSignalPower s.proxyHeader power) length,
        (s.ota2udpBuffer.toList.drop r.offset).take r.length) := by
  rw [ProxyHandler.datagram,if_pos h]
  rfl

theorem runt_beyond_buffer (hw : 16 ≤ w) (hop : c.op = .otaReceive)
    (hstep : step api s c = .ok s') (hrunt : Runt api c) :
    ∃ r, r.length = 2 ^ w - (api.rxDescriptorSize.toNat + 4 - c.bytes.toNat) ∧
      .udpSend r ∈ s'.pending ∧ s'.datagram r = none := by
  obtain ⟨hok,hle,hshort⟩ := hrunt
  have hlength := toNat_bodyLength_runt hw hle hshort
  have hpow : 2 ^ 16 ≤ 2 ^ w := Nat.pow_le_pow_right (by decide) hw
  have hcall := step_otaReceive hop hstep
  rw [handleOtaReceive,if_pos ⟨hok,BitVec.le_def.mpr hle⟩] at hcall
  refine ⟨⟨api.rxDescriptorSize.toNat,(c.bytes - api.rxDescriptorSize - 4).toNat⟩,hlength,?_,?_⟩
  · rw [hcall,sendUdp_pending]
    simp
  · rw [ProxyHandler.datagram,if_neg]
    simp only
    omega

theorem sendUdp_relays {power : Power} (hw : 16 ≤ w) (hbytes : c.bytes.toNat ≤ 2048)
    (hlong : api.rxDescriptorSize.toNat + 4 ≤ c.bytes.toNat) (hfilled : s.ota2udpBuffer = c.filled)
    (hsteady : Steady s') (h : s' = sendUdp api s power api.rxDescriptorSize.toNat
      (c.bytes - api.rxDescriptorSize - 4)) : FrameRelayed api c s s' := by
  have hlength := toNat_bodyLength hw hlong
  have hexact : api.rxDescriptorSize.toNat + (c.bytes - api.rxDescriptorSize - 4).toNat + 4 =
      c.bytes.toNat := by omega
  refine ⟨?_,?_,fun hshort => absurd hlong (by omega)⟩
  · intro power' offset length hcall
    obtain ⟨_,rfl⟩ := sendUdp_inj (h.symm.trans hcall)
    exact hexact
  · intro power' offset length hcall rest t hreach hrest
    obtain ⟨rfl,rfl⟩ := sendUdp_inj (h.symm.trans hcall)
    have hin : .udpSend ⟨api.rxDescriptorSize.toNat,
        (c.bytes - api.rxDescriptorSize - 4).toNat⟩ ∈ s'.pending := by
      rw [h,sendUdp_pending]
      simp
    obtain ⟨_,_,hsame⟩ := reaches_datagram hsteady hin hreach hrest
    rw [hsame,hcall,sendUdp_datagram _ _ _ _ (by simp only; omega)]
    refine ⟨_,rfl,?_⟩
    rw [Completion.frame,← hexact,hfilled]
    exact isFrameBody_slice (by rw [Vector.length_toList]; omega)

end

/-- In every run of the proxy, a frame from the air is relayed exactly or skipped, unless
it is a runt. -/
theorem frame_relayed_iff (api : ProxyApi w ProxyHeader Power) (udpReceiver : Endpoint)
    (udp2ota ota2udp : Buffer) (proxyHeader : ProxyHeader) (cs : List (Completion w Endpoint))
    (s s' : ProxyHandler ProxyHeader Endpoint)
    (h : Reaches (step api)
      (ProxyHandler.initial udpReceiver udp2ota ota2udp proxyHeader).startTransfer cs s)
    (c : Completion w Endpoint) (hop : c.op = .otaReceive) (hstep : step api s c = .ok s')
    (hw : 16 ≤ w) (hbytes : c.bytes.toNat ≤ 2048) :
    FrameRelayed api c (s.otaReceived c) s' ↔ ¬ Runt api c := by
  have hcall := step_otaReceive hop hstep
  constructor
  · intro hrelayed hrunt
    obtain ⟨hok,hle,hshort⟩ := hrunt
    have hskip := hrelayed.skipped hshort
    rw [hcall,handleOtaReceive,if_pos ⟨hok,BitVec.le_def.mpr hle⟩] at hskip
    exact sendUdp_ne_nextOtaTransfer _ _ _ hskip.symm
  · intro hrunt
    by_cases hguard : c.ok = true ∧ api.rxDescriptorSize ≤ c.bytes
    · rw [handleOtaReceive,if_pos hguard] at hcall
      have hlong : api.rxDescriptorSize.toNat + 4 ≤ c.bytes.toNat := by
        by_contra hshort
        exact hrunt ⟨hguard.1,BitVec.le_def.mp hguard.2,by omega⟩
      have hsteady := (step_steady hstep (steady_of_otaReceive h hop hstep)).1
      exact sendUdp_relays hw hbytes hlong rfl hsteady hcall
    · rw [handleOtaReceive,if_neg hguard] at hcall
      have hnone : ∀ power offset length, s' ≠ sendUdp api (s.otaReceived c) power offset length := by
        intro power offset length hsend
        exact sendUdp_ne_nextOtaTransfer power offset length (hcall.symm.trans hsend)
      exact ⟨fun power offset length hsend => absurd hsend (hnone power offset length),
        fun power offset length hsend => absurd hsend (hnone power offset length),fun _ => hcall⟩

def airFrame (bytes : BitVec 32) : Completion 32 Unit :=
  ⟨.otaReceive,true,bytes,Vector.ofFn (fun i => UInt8.ofNat i.val),()⟩

theorem frame_relayed_six_bytes :
    ∃ s s', Reaches (step plainApi) newHandler.startTransfer [completion .udpReceiveFrom true] s ∧
      step plainApi s (airFrame 26) = .ok s' ∧
      .udpSend ⟨16,6⟩ ∈ s'.pending ∧
      FrameRelayed plainApi (airFrame 26) (s.otaReceived (airFrame 26)) s' := by
  have hreach : Reaches (step plainApi) newHandler.startTransfer
      ([] ++ [completion .udpReceiveFrom true]) _ := .snoc .nil rfl
  have hrunt : ¬ Runt plainApi (airFrame 26) := fun h => absurd h.2.2 (by decide)
  exact ⟨_,_,hreach,rfl,by decide,
    (frame_relayed_iff plainApi () zeroBuffer zeroBuffer () _ _ _ hreach (airFrame 26) rfl rfl
      (by decide) (by decide)).mpr hrunt⟩

theorem runt_frame_wraps_length :
    ∃ s s', Reaches (step plainApi) newHandler.startTransfer [completion .udpReceiveFrom true] s ∧
      step plainApi s (airFrame 18) = .ok s' ∧
      s' = sendUdp plainApi (s.otaReceived (airFrame 18)) () 16 4294967294 ∧
      s'.datagram ⟨16,4294967294⟩ = none ∧
      ¬ FrameRelayed plainApi (airFrame 18) (s.otaReceived (airFrame 18)) s' := by
  refine ⟨_,_,.snoc .nil rfl,rfl,rfl,rfl,?_⟩
  intro h
  have hexact := h.lengthExact () 16 4294967294 rfl
  exact absurd hexact (by decide)

end Mitvane.Proxy

import Mitvane.Relay

set_option autoImplicit false

namespace Mitvane.Proxy
open PartialRun
variable {w : Nat} {ProxyHeader Power Endpoint : Type}

abbrev Transfer := Range × Buffer

/-- What a completed receive makes its direction send. A runt frame counts, with the length
that wraps around. -/
def Completion.accepted (api : ProxyApi w ProxyHeader Power) (d : Direction)
    (c : Completion w Endpoint) : List Transfer :=
  match d with
  | .udpToAir =>
    if c.op.isUdpReceive ∧ c.ok ∧ api.proxyHeaderSize ≤ c.bytes then
      [(api.getPayload (api.headerOf c.filled) c.bytes,c.filled)]
    else []
  | .airToUdp =>
    if c.op = .otaReceive ∧ c.ok ∧ api.rxDescriptorSize ≤ c.bytes then
      [(⟨api.rxDescriptorSize.toNat,(c.bytes - api.rxDescriptorSize - 4).toNat⟩,c.filled)]
    else []

def ProxyHandler.buffer (s : ProxyHandler ProxyHeader Endpoint) : Direction → Buffer
  | .udpToAir => s.udp2otaBuffer
  | .airToUdp => s.ota2udpBuffer

def Operation.sends (d : Direction) : Operation → Option Range
  | .otaSend payload => if d = .udpToAir then some payload else none
  | .udpSend payload => if d = .airToUdp then some payload else none
  | _ => none

def ProxyHandler.queued (s : ProxyHandler ProxyHeader Endpoint) (d : Direction) :
    List Transfer :=
  (s.pending.filterMap (Operation.sends d)).map (fun payload => (payload,s.buffer d))

def ProxyHandler.finished (s : ProxyHandler ProxyHeader Endpoint) (d : Direction)
    (c : Completion w Endpoint) : List (Transfer × Bool) :=
  (c.op.sends d).toList.map (fun payload => ((payload,s.buffer d),c.ok))

def finishedSends (api : ProxyApi w ProxyHeader Power) (d : Direction) :
    ProxyHandler ProxyHeader Endpoint → List (Completion w Endpoint) → List (Transfer × Bool)
  | _, [] => []
  | s, c :: cs =>
    match step api s c with
    | .ok s' => s.finished d c ++ finishedSends api d s' cs
    | .error _ => []

def Completion.next (api : ProxyApi w ProxyHeader Power) (c : Completion w Endpoint) :
    List Operation :=
  match c.op with
  | .udpReceiveFrom => (if c.ok then [.otaReceive] else []) ++
      [if c.ok ∧ api.proxyHeaderSize ≤ c.bytes then
        .otaSend (api.getPayload (api.headerOf c.filled) c.bytes) else .udpReceive]
  | .udpReceive => [if c.ok ∧ api.proxyHeaderSize ≤ c.bytes then
        .otaSend (api.getPayload (api.headerOf c.filled) c.bytes) else .udpReceive]
  | .otaReceive => [if c.ok ∧ api.rxDescriptorSize ≤ c.bytes then
        .udpSend ⟨api.rxDescriptorSize.toNat,(c.bytes - api.rxDescriptorSize - 4).toNat⟩
        else .otaReceive]
  | .otaSend _ => [.udpReceive]
  | .udpSend _ => [.otaReceive]

def Completion.fills (c : Completion w Endpoint) (d : Direction) : Bool :=
  match d with
  | .udpToAir => c.op.isUdpReceive
  | .airToUdp => c.op = .otaReceive

section
variable {s s' : ProxyHandler ProxyHeader Endpoint} {api : ProxyApi w ProxyHeader Power}
  {c : Completion w Endpoint}

theorem handleUdpReceive_effect {ok : Bool} {bytes : BitVec w}
    (h : handleUdpReceive api s ok bytes = .ok s') :
    s'.pending = s.pending ++ [if ok ∧ api.proxyHeaderSize ≤ bytes then
        .otaSend (api.getPayload (api.headerOf s.udp2otaBuffer) bytes) else .udpReceive] ∧
      ∀ d, s'.buffer d = s.buffer d := by
  unfold handleUdpReceive at h
  split at h
  · rename_i hgood
    obtain ⟨_,_,rfl⟩ := sendOta_ok h
    rw [if_pos hgood]
    exact ⟨rfl,fun d => by cases d <;> rfl⟩
  · rename_i hbad
    cases h
    rw [if_neg hbad]
    exact ⟨rfl,fun d => by cases d <;> rfl⟩

theorem handleOtaReceive_effect (api : ProxyApi w ProxyHeader Power)
    (s : ProxyHandler ProxyHeader Endpoint) (ok : Bool) (bytes : BitVec w) :
    (handleOtaReceive api s ok bytes).pending = s.pending ++
      [if ok ∧ api.rxDescriptorSize ≤ bytes then
        .udpSend ⟨api.rxDescriptorSize.toNat,(bytes - api.rxDescriptorSize - 4).toNat⟩
        else .otaReceive] ∧
      ∀ d, (handleOtaReceive api s ok bytes).buffer d = s.buffer d := by
  unfold handleOtaReceive
  split
  · exact ⟨rfl,fun d => by cases d <;> rfl⟩
  · exact ⟨rfl,fun d => by cases d <;> rfl⟩

/-- All that a completion does to the operations in flight and to the buffers. -/
theorem step_effect (h : step api s c = .ok s') :
    s'.pending = s.pending.erase c.op ++ c.next api ∧
      ∀ d, s'.buffer d = if c.fills d then c.filled else s.buffer d := by
  rw [step,if_pos (step_pending h)] at h
  unfold Completion.next Completion.fills
  cases hop : c.op with
  | udpReceiveFrom =>
    simp only [hop,handleUdpReceiveFrom] at h
    obtain ⟨hp,hb⟩ := handleUdpReceive_effect h
    cases hok : c.ok with
    | true =>
      rw [hok] at hp hb
      refine ⟨by simpa [ProxyHandler.nextOtaTransfer,ProxyHandler.start,
        ProxyHandler.fillUdpReceiver,ProxyHandler.fillUdp2ota,ProxyHandler.writes,
        ProxyHandler.completed] using hp,?_⟩
      intro d
      rw [hb d]
      cases d <;> rfl
    | false =>
      rw [hok] at hp hb
      refine ⟨by simpa [ProxyHandler.fillUdpReceiver,ProxyHandler.fillUdp2ota,
        ProxyHandler.writes,ProxyHandler.completed] using hp,?_⟩
      intro d
      rw [hb d]
      cases d <;> rfl
  | udpReceive =>
    simp only [hop] at h
    obtain ⟨hp,hb⟩ := handleUdpReceive_effect h
    refine ⟨hp,?_⟩
    intro d
    rw [hb d]
    cases d <;> rfl
  | otaReceive =>
    simp only [hop] at h
    cases h
    obtain ⟨hp,hb⟩ := handleOtaReceive_effect api
      ((s.completed .otaReceive).fillOta2udp c.filled) c.ok c.bytes
    refine ⟨hp,?_⟩
    intro d
    rw [hb d]
    cases d <;> rfl
  | otaSend payload =>
    simp only [hop] at h
    cases h
    exact ⟨rfl,fun d => by cases d <;> rfl⟩
  | udpSend payload =>
    simp only [hop] at h
    cases h
    exact ⟨rfl,fun d => by cases d <;> rfl⟩

theorem Operation.direction_of_sends {d : Direction} {op : Operation} {payload : Range}
    (h : op.sends d = some payload) : op.direction = d := by
  cases op with
  | otaSend p =>
    cases d with
    | udpToAir => rfl
    | airToUdp => cases h
  | udpSend p =>
    cases d with
    | udpToAir => cases h
    | airToUdp => rfl
  | _ => cases h

theorem filterMap_sends_eq_nil {d : Direction} {ops : List Operation}
    (h : ∀ op ∈ ops, op.direction ≠ d) : ops.filterMap (Operation.sends d) = [] := by
  rw [List.filterMap_eq_nil_iff]
  intro op hop
  cases hs : op.sends d with
  | none => rfl
  | some payload => exact absurd (Operation.direction_of_sends hs) (h op hop)

theorem Completion.next_sends (api : ProxyApi w ProxyHeader Power) (d : Direction)
    (c : Completion w Endpoint) :
    (c.next api).filterMap (Operation.sends d) = (c.accepted api d).map Prod.fst := by
  unfold Completion.next Completion.accepted
  cases hop : c.op with
  | udpReceiveFrom =>
    cases hok : c.ok with
    | false => cases d <;> simp [Operation.sends]
    | true =>
      by_cases hb : api.proxyHeaderSize ≤ c.bytes
      · cases d <;> simp [List.filterMap_cons,Operation.sends,Operation.isUdpReceive,hb]
      · cases d <;> simp [List.filterMap_cons,Operation.sends,hb]
  | udpReceive =>
    by_cases hb : c.ok = true ∧ api.proxyHeaderSize ≤ c.bytes
    · cases d <;> simp [Operation.sends,Operation.isUdpReceive,hb]
    · cases d <;> simp [Operation.sends,Operation.isUdpReceive,hb]
  | otaReceive =>
    by_cases hb : c.ok = true ∧ api.rxDescriptorSize ≤ c.bytes
    · cases d <;> simp [Operation.sends,Operation.isUdpReceive,hb]
    · cases d <;> simp [Operation.sends,Operation.isUdpReceive,hb]
  | otaSend payload => cases d <;> simp [Operation.sends,Operation.isUdpReceive]
  | udpSend payload => cases d <;> simp [Operation.sends,Operation.isUdpReceive]

theorem Completion.accepted_filled {d : Direction} {transfer : Transfer}
    (h : transfer ∈ c.accepted api d) : c.fills d = true ∧ transfer.2 = c.filled := by
  unfold Completion.accepted at h
  cases d with
  | udpToAir =>
    simp only [] at h
    split at h
    · rename_i hgood
      cases List.mem_singleton.mp h
      exact ⟨hgood.1,rfl⟩
    · cases h
  | airToUdp =>
    simp only [] at h
    split at h
    · rename_i hgood
      cases List.mem_singleton.mp h
      exact ⟨by simp [Completion.fills,hgood.1],rfl⟩
    · cases h

theorem Completion.direction_of_fills {d : Direction} (h : c.fills d = true) :
    c.op.direction = d := by
  unfold Completion.fills at h
  cases hop : c.op <;> cases d <;> simp_all [Operation.isUdpReceive,Operation.direction]

def Ready (s : ProxyHandler ProxyHeader Endpoint) : Prop :=
  Steady s ∨ (s.pending = [.udpReceiveFrom] ∧ s.disturbed = false)

theorem Ready.step (hs : Ready s) (h : step api s c = .ok s') : Ready s' := by
  rcases hs with hs | ⟨hp,hc⟩
  · exact .inl (step_steady h hs).1
  · exact .inl (step_first h hp hc).2.1

theorem Ready.alone (hs : Ready s) {op : Operation} (hop : op ∈ s.pending) :
    ∀ other ∈ s.pending.erase op, other.direction ≠ op.direction := by
  rcases hs with hs | ⟨hp,_⟩
  · exact fun other hother => (hs.quiet_completed hop other hother).2
  · rw [hp] at hop ⊢
    cases List.mem_singleton.mp hop
    simp

/-- One completion: what was queued and what is accepted is what is finished and what is
queued then. -/
theorem step_conserves (hs : Ready s) (h : Proxy.step api s c = .ok s') (d : Direction) :
    s.queued d ++ c.accepted api d = (s.finished d c).map Prod.fst ++ s'.queued d := by
  have hmem := step_pending h
  obtain ⟨hpending,hbuffer⟩ := step_effect h
  have halone := hs.alone hmem
  obtain ⟨front,back,_,hsplit,herase⟩ := List.exists_erase_eq hmem
  unfold ProxyHandler.queued ProxyHandler.finished
  rw [hpending,List.filterMap_append,Completion.next_sends,hbuffer d]
  by_cases hd : c.op.direction = d
  · subst hd
    have hrest := filterMap_sends_eq_nil halone
    rw [hrest,List.nil_append,hsplit]
    rw [herase,List.filterMap_append,List.append_eq_nil_iff] at hrest
    have hmapped : (c.accepted api c.op.direction).map (fun transfer => (transfer.1,
        if c.fills c.op.direction then c.filled else s.buffer c.op.direction)) =
        c.accepted api c.op.direction := by
      conv => rhs; rw [← List.map_id (c.accepted api c.op.direction)]
      apply List.map_congr_left
      intro transfer ht
      obtain ⟨hf,hfill⟩ := Completion.accepted_filled ht
      rw [if_pos hf]
      exact Prod.ext rfl hfill.symm
    rw [List.map_map]
    rw [List.filterMap_append,List.filterMap_cons,hrest.1,hrest.2]
    cases c.op.sends c.op.direction with
    | none => simpa [Function.comp_def] using hmapped.symm
    | some payload => simpa [Function.comp_def] using hmapped.symm
  · have hsends : c.op.sends d = none := by
      cases hsend : c.op.sends d with
      | none => rfl
      | some payload => exact absurd (Operation.direction_of_sends hsend) hd
    have hfills : c.fills d = false := by
      cases hf : c.fills d with
      | false => rfl
      | true => exact absurd (Completion.direction_of_fills hf) hd
    have haccepted : c.accepted api d = [] := by
      rw [List.eq_nil_iff_forall_not_mem]
      intro transfer ht
      exact hd (Completion.direction_of_fills (Completion.accepted_filled ht).1)
    rw [haccepted,hsends,hfills,herase,hsplit]
    simp [hsends]

theorem Ready.length_queued (hs : Ready s) (d : Direction) : (s.queued d).length ≤ 1 := by
  unfold ProxyHandler.queued
  rw [List.length_map]
  cases hops : s.pending.filterMap (Operation.sends d) with
  | nil => exact Nat.zero_le 1
  | cons payload rest =>
    have hmem : payload ∈ s.pending.filterMap (Operation.sends d) := by simp [hops]
    obtain ⟨op,hop,hsend⟩ := List.mem_filterMap.mp hmem
    have hdir := Operation.direction_of_sends hsend
    obtain ⟨front,back,_,hsplit,herase⟩ := List.exists_erase_eq hop
    have hrest := filterMap_sends_eq_nil (hdir ▸ hs.alone hop)
    rw [herase,List.filterMap_append,List.append_eq_nil_iff] at hrest
    rw [← hops,hsplit,List.filterMap_append,List.filterMap_cons,hrest.1,hrest.2,hsend]
    exact Nat.le_refl 1

/-- Over a run, the queue of a direction neither loses, doubles nor swaps anything. -/
theorem drain_conserves (api : ProxyApi w ProxyHeader Power) (d : Direction)
    (s : ProxyHandler ProxyHeader Endpoint) (cs : List (Completion w Endpoint)) (hs : Ready s) :
    s.queued d ++ (drain (Proxy.step api) s cs).1.flatMap (Completion.accepted api d) =
      (finishedSends api d s (drain (Proxy.step api) s cs).1).map Prod.fst ++
        (drain (Proxy.step api) s cs).2.queued d := by
  refine drain_induction (R := fun s done t => Ready s →
    s.queued d ++ done.flatMap (Completion.accepted api d) =
      (finishedSends api d s done).map Prod.fst ++ t.queued d) ?_ ?_ s cs hs
  · intro s _
    simp [finishedSends]
  · intro s c s' done t hstep ih hs
    have hone := step_conserves hs hstep d
    have hrest := ih (hs.step hstep)
    simp only [List.flatMap_cons,finishedSends,hstep]
    rw [← List.append_assoc,hone,List.append_assoc,hrest,List.map_append,List.append_assoc]

theorem Completion.accepted_udpToAir {transfer : Transfer}
    (h : transfer ∈ c.accepted api .udpToAir) :
    transfer.1 = api.getPayload (api.headerOf c.filled) c.bytes := by
  unfold Completion.accepted at h
  simp only [] at h
  split at h
  · cases List.mem_singleton.mp h
    rfl
  · cases h

theorem Completion.accepted_airToUdp {transfer : Transfer}
    (h : transfer ∈ c.accepted api .airToUdp) :
    transfer.1.offset = api.rxDescriptorSize.toNat ∧
      (transfer.1.offset+transfer.1.length+4 = c.bytes.toNat ↔ ¬ Runt api c) := by
  unfold Completion.accepted at h
  simp only [] at h
  split at h
  · rename_i hgood
    obtain ⟨_,hok,hle⟩ := hgood
    cases List.mem_singleton.mp h
    refine ⟨rfl,?_⟩
    have hbytes := c.bytes.isLt
    rw [BitVec.le_def] at hle
    by_cases hwhole : api.rxDescriptorSize.toNat+4 ≤ c.bytes.toNat
    · have hfour : (4 : BitVec w).toNat = 4 :=
        (BitVec.toNat_ofNat 4 w).trans (Nat.mod_eq_of_lt (by omega))
      have hsize : (c.bytes-api.rxDescriptorSize).toNat =
          c.bytes.toNat-api.rxDescriptorSize.toNat :=
        BitVec.toNat_sub_of_le (BitVec.le_def.mpr hle)
      have hbody : (c.bytes-api.rxDescriptorSize-4).toNat =
          c.bytes.toNat-api.rxDescriptorSize.toNat-4 := by
        rw [BitVec.toNat_sub_of_le (BitVec.le_def.mpr (by omega)),hsize,hfour]
      refine ⟨fun _ hrunt => absurd hrunt.2.2 (by omega),fun _ => ?_⟩
      simp only [hbody]
      omega
    · refine ⟨fun hsame => ?_,fun hnot => absurd ⟨hok,hle,by omega⟩ hnot⟩
      simp only at hsame
      omega
  · cases h

end

def ProxyHandler.started (udpReceiver : Endpoint) (udp2ota ota2udp : Buffer)
    (proxyHeader : ProxyHeader) : ProxyHandler ProxyHeader Endpoint :=
  (ProxyHandler.initial udpReceiver udp2ota ota2udp proxyHeader).startTransfer

/-- Whatever completes in whatever order: for each direction of a started proxy, what its
receives accept is what its ended sends tried to send and what is still in flight, in this
order, each once. A send has the buffer as the receive left it: of a datagram the payload that
its header tells, of a frame from the air just the bytes between descriptor and checksum,
unless the frame is a runt. -/
theorem transfers_conserved (api : ProxyApi w ProxyHeader Power) (udpReceiver : Endpoint)
    (udp2ota ota2udp : Buffer) (proxyHeader : ProxyHeader) (d : Direction)
    (cs : List (Completion w Endpoint)) :
    (drain (step api) (.started udpReceiver udp2ota ota2udp proxyHeader) cs).1.flatMap
        (Completion.accepted api d) =
      (finishedSends api d (.started udpReceiver udp2ota ota2udp proxyHeader)
        (drain (step api) (.started udpReceiver udp2ota ota2udp proxyHeader) cs).1).map Prod.fst ++
      (drain (step api) (.started udpReceiver udp2ota ota2udp proxyHeader) cs).2.queued d ∧
    ((drain (step api) (.started udpReceiver udp2ota ota2udp proxyHeader) cs).2.queued d
      ).length ≤ 1 ∧
    ∀ c : Completion w Endpoint, ∀ transfer ∈ c.accepted api d, transfer.2 = c.filled ∧
      (d = .udpToAir → transfer.1 = api.getPayload (api.headerOf c.filled) c.bytes) ∧
      (d = .airToUdp → transfer.1.offset = api.rxDescriptorSize.toNat ∧
        (transfer.1.offset+transfer.1.length+4 = c.bytes.toNat ↔ ¬ Runt api c)) := by
  have hready : Ready (ProxyHandler.started udpReceiver udp2ota ota2udp proxyHeader) :=
    .inr ⟨rfl,rfl⟩
  have hlast : Ready
      (drain (step api) (.started udpReceiver udp2ota ota2udp proxyHeader) cs).2 :=
    drain_invariant (P := Ready) (fun h hs => hs.step h) _ cs hready
  refine ⟨drain_conserves api d _ cs hready,hlast.length_queued d,?_⟩
  intro c transfer htransfer
  refine ⟨(Completion.accepted_filled htransfer).2,?_,?_⟩
  · rintro rfl
    exact Completion.accepted_udpToAir htransfer
  · rintro rfl
    exact Completion.accepted_airToUdp htransfer

example : (drain (step plainApi) (ProxyHandler.started () zeroBuffer zeroBuffer ())
    [completion .udpReceiveFrom true,completion (.otaSend ⟨1,4⟩) true]).1.flatMap
      (Completion.accepted plainApi .udpToAir) = [(⟨1,4⟩,zeroBuffer)] := rfl

end Mitvane.Proxy

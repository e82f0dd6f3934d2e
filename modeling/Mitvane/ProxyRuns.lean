import Mathlib.Data.List.Count
import Mitvane.Proxy

set_option autoImplicit false

namespace Mitvane.Proxy
open PartialRun
variable {w : Nat} {ProxyHeader Power Endpoint : Type}

def Region.direction : Region → Direction
  | .udp2otaBuffer => .udpToAir
  | .mk2Tx => .udpToAir
  | .ota2udpBuffer => .airToUdp
  | .proxyHeader => .airToUdp
  | .udpReceiver => .airToUdp

theorem Operation.regions_direction {op : Operation} (h : op ≠ .udpReceiveFrom) {r : Region}
    (hr : r ∈ op.regions) : r.direction = op.direction := by
  cases op with
  | udpReceiveFrom => exact absurd rfl h
  | _ =>
    simp only [Operation.regions,List.mem_cons,List.not_mem_nil,or_false] at hr
    rcases hr with rfl | rfl | rfl <;> rfl

def Quiet (s : ProxyHandler ProxyHeader Endpoint) (d : Direction) : Prop :=
  ∀ op ∈ s.pending, op ≠ .udpReceiveFrom ∧ op.direction ≠ d

theorem Quiet.inFlight_eq_false {s : ProxyHandler ProxyHeader Endpoint} {r : Region}
    (h : Quiet s r.direction) : s.inFlight r = false := by
  rw [ProxyHandler.inFlight,List.any_eq_false]
  intro op hop hr
  have hdir := Operation.regions_direction (h op hop).1 (by simpa using hr)
  exact (h op hop).2 hdir.symm

/-- Same operations in flight, and no write to a member that one of them is on, if the
direction is quiet. -/
structure Keeps (d : Direction) (s s' : ProxyHandler ProxyHeader Endpoint) : Prop where
  pending : s'.pending = s.pending
  calm : Quiet s d → s.disturbed = false → s'.disturbed = false

structure Starts (d : Direction) (s s' : ProxyHandler ProxyHeader Endpoint) : Prop where
  pending : ∃ op, op.direction = d ∧ op ≠ .udpReceiveFrom ∧ s'.pending = s.pending ++ [op]
  calm : Quiet s d → s.disturbed = false → s'.disturbed = false

section
variable {s s' s'' : ProxyHandler ProxyHeader Endpoint} {d : Direction}

theorem Keeps.starts (h : Keeps d s s') (hs : Starts d s' s'') : Starts d s s'' where
  pending := by
    obtain ⟨op,hdir,hne,hp⟩ := hs.pending
    exact ⟨op,hdir,hne,by rw [hp,h.pending]⟩
  calm := fun hq hc => hs.calm (fun op hop => hq op (h.pending ▸ hop)) (h.calm hq hc)

theorem Keeps.trans (h : Keeps d s s') (hs : Keeps d s' s'') : Keeps d s s'' where
  pending := hs.pending.trans h.pending
  calm := fun hq hc => hs.calm (fun op hop => hq op (h.pending ▸ hop)) (h.calm hq hc)

theorem keeps_of_writes (r : Region) (hp : s'.pending = s.pending)
    (hd : s'.disturbed = (s.writes r).disturbed) : Keeps r.direction s s' where
  pending := hp
  calm := fun hq hc => by simp [hd,ProxyHandler.writes,hc,hq.inFlight_eq_false]

theorem start_starts (s : ProxyHandler ProxyHeader Endpoint) (op : Operation)
    (h : op ≠ .udpReceiveFrom) : Starts op.direction s (s.start op) where
  pending := ⟨op,rfl,h,rfl⟩
  calm := by
    intro hq hc
    have hany : op.regions.any s.inFlight = false := by
      rw [List.any_eq_false]
      intro r hr
      have hr' : Quiet s r.direction := by rw [Operation.regions_direction h hr]; exact hq
      simp [hr'.inFlight_eq_false]
    simp [ProxyHandler.start,hc,hany]

theorem setMk2Tx_keeps (s : ProxyHandler ProxyHeader Endpoint) (f : TxDescriptor → TxDescriptor) :
    Keeps .udpToAir s (s.setMk2Tx f) :=
  keeps_of_writes .mk2Tx rfl rfl

theorem setProxyHeader_keeps (s : ProxyHandler ProxyHeader Endpoint)
    (f : ProxyHeader → ProxyHeader) : Keeps .airToUdp s (s.setProxyHeader f) :=
  keeps_of_writes .proxyHeader rfl rfl

theorem sendOta_ok {api : ProxyApi w ProxyHeader Power} {header : ProxyHeader}
    {length : BitVec w} (h : sendOta api s header length = .ok s') :
    ∃ setPower setPriority, s' = ((s.setMk2Tx setPower).setMk2Tx setPriority).start
      (.otaSend (api.getPayload header length)) := by
  unfold sendOta at h
  cases hp : priorityOf (api.getAccessCategory header) with
  | none => simp [hp] at h
  | some priority =>
    simp only [hp] at h
    cases h
    exact ⟨_,_,rfl⟩

theorem sendOta_starts {api : ProxyApi w ProxyHeader Power} {header : ProxyHeader}
    {length : BitVec w} (h : sendOta api s header length = .ok s') : Starts .udpToAir s s' := by
  obtain ⟨setPower,setPriority,rfl⟩ := sendOta_ok h
  exact ((setMk2Tx_keeps s setPower).trans (setMk2Tx_keeps _ setPriority)).starts
    (start_starts _ (.otaSend (api.getPayload header length)) (by simp))

theorem handleUdpReceive_starts {api : ProxyApi w ProxyHeader Power} {ok : Bool}
    {bytes : BitVec w} (h : handleUdpReceive api s ok bytes = .ok s') :
    Starts .udpToAir s s' := by
  unfold handleUdpReceive at h
  split at h
  · exact sendOta_starts h
  · cases h
    exact start_starts s .udpReceive (by simp)

theorem handleOtaReceive_starts (api : ProxyApi w ProxyHeader Power)
    (s : ProxyHandler ProxyHeader Endpoint) (ok : Bool) (bytes : BitVec w) :
    Starts .airToUdp s (handleOtaReceive api s ok bytes) := by
  unfold handleOtaReceive
  split
  · exact ((setProxyHeader_keeps s _).trans (setProxyHeader_keeps _ _)).starts
      (start_starts _ (.udpSend ⟨api.rxDescriptorSize.toNat,
        (bytes - api.rxDescriptorSize - 4).toNat⟩) (by simp))
  · exact start_starts s .otaReceive (by simp)

theorem fillUdp2ota_keeps (s : ProxyHandler ProxyHeader Endpoint) (filled : Buffer) :
    Keeps .udpToAir s (s.fillUdp2ota filled) :=
  keeps_of_writes .udp2otaBuffer rfl rfl

theorem fillOta2udp_keeps (s : ProxyHandler ProxyHeader Endpoint) (filled : Buffer) :
    Keeps .airToUdp s (s.fillOta2udp filled) :=
  keeps_of_writes .ota2udpBuffer rfl rfl

/-- Only an operation in flight completes. -/
theorem step_pending {api : ProxyApi w ProxyHeader Power} {c : Completion w Endpoint}
    (h : step api s c = .ok s') : c.op ∈ s.pending := by
  by_contra hn
  rw [step,if_neg hn] at h
  cases h

/-- Every completion after the first receive is followed by one operation of the same
direction. -/
theorem step_starts {api : ProxyApi w ProxyHeader Power} {c : Completion w Endpoint}
    (h : step api s c = .ok s') (hne : c.op ≠ .udpReceiveFrom) :
    c.op ∈ s.pending ∧ Starts c.op.direction (s.completed c.op) s' := by
  have hmem := step_pending h
  refine ⟨hmem,?_⟩
  rw [step,if_pos hmem] at h
  cases hop : c.op with
  | udpReceiveFrom => exact absurd hop hne
  | udpReceive =>
    simp only [hop] at h
    exact (fillUdp2ota_keeps _ _).starts (handleUdpReceive_starts h)
  | otaReceive =>
    simp only [hop] at h
    cases h
    exact (fillOta2udp_keeps _ _).starts (handleOtaReceive_starts api _ c.ok c.bytes)
  | otaSend payload =>
    simp only [hop] at h
    cases h
    exact start_starts _ .udpReceive (by simp)
  | udpSend payload =>
    simp only [hop] at h
    cases h
    exact start_starts _ .otaReceive (by simp)

def outstanding (s : ProxyHandler ProxyHeader Endpoint) (d : Direction) : Nat :=
  s.pending.countP (fun op => op.direction = d)

theorem outstanding_completed {op : Operation} (h : op ∈ s.pending) (d : Direction) :
    outstanding (s.completed op) d + (if op.direction = d then 1 else 0) = outstanding s d := by
  have hperm := List.perm_cons_erase h
  have hcount := hperm.countP_eq (fun op => decide (op.direction = d))
  rw [List.countP_cons] at hcount
  simpa [outstanding,ProxyHandler.completed] using hcount.symm

theorem Starts.fresh (h : Starts d s s') (hf : .udpReceiveFrom ∉ s.pending) :
    .udpReceiveFrom ∉ s'.pending := by
  obtain ⟨op,_,hop,hp⟩ := h.pending
  rw [hp,List.mem_append,List.mem_singleton]
  intro hcase
  rcases hcase with hold | heq
  · exact hf hold
  · exact hop heq.symm

theorem Starts.outstanding_eq (h : Starts d s s') (d' : Direction) :
    outstanding s' d' = outstanding s d' + if d = d' then 1 else 0 := by
  obtain ⟨op,rfl,_,hp⟩ := h.pending
  simp [outstanding,hp,List.countP_append,List.countP_cons]

/-- No direction has more than one operation in flight, the first receive is over and no
member was written under an operation. -/
structure Steady (s : ProxyHandler ProxyHeader Endpoint) : Prop where
  atMostOne : ∀ d, outstanding s d ≤ 1
  fresh : .udpReceiveFrom ∉ s.pending
  calm : s.disturbed = false

theorem Steady.not_first {api : ProxyApi w ProxyHeader Power} {c : Completion w Endpoint}
    (hs : Steady s) (h : step api s c = .ok s') : c.op ≠ .udpReceiveFrom := by
  intro heq
  exact hs.fresh (heq ▸ step_pending h)

theorem Steady.quiet_completed (hs : Steady s) {op : Operation} (hmem : op ∈ s.pending) :
    Quiet (s.completed op) op.direction := by
  intro op' hop
  refine ⟨?_,?_⟩
  · intro heq
    subst heq
    exact hs.fresh (List.mem_of_mem_erase hop)
  · intro hdir
    have hone := outstanding_completed hmem op.direction
    have hle := hs.atMostOne op.direction
    have hpos : 0 < outstanding (s.completed op) op.direction :=
      List.countP_pos_iff.mpr ⟨op',hop,by simpa using hdir⟩
    simp only [if_true] at hone
    omega

theorem step_steady {api : ProxyApi w ProxyHeader Power} {c : Completion w Endpoint}
    (h : step api s c = .ok s') (hs : Steady s) :
    Steady s' ∧ ∀ d, outstanding s' d = outstanding s d := by
  obtain ⟨hmem,hstarts⟩ := step_starts h (hs.not_first h)
  have hcount : ∀ d, outstanding s' d = outstanding s d := by
    intro d
    rw [hstarts.outstanding_eq,outstanding_completed hmem]
  refine ⟨⟨?_,?_,hstarts.calm (hs.quiet_completed hmem) hs.calm⟩,hcount⟩
  · intro d
    rw [hcount d]
    exact hs.atMostOne d
  · exact hstarts.fresh (fun hold => hs.fresh (List.mem_of_mem_erase hold))

theorem step_first {api : ProxyApi w ProxyHeader Power} {c : Completion w Endpoint}
    (h : step api s c = .ok s') (hp : s.pending = [.udpReceiveFrom])
    (hc : s.disturbed = false) :
    c.op = .udpReceiveFrom ∧ Steady s' ∧ outstanding s' .udpToAir = 1 ∧
      outstanding s' .airToUdp = if c.ok then 1 else 0 := by
  have hop : c.op = .udpReceiveFrom := by simpa [hp] using step_pending h
  have hmem : Operation.udpReceiveFrom ∈ s.pending := by simp [hp]
  simp only [step,hop,if_pos hmem,handleUdpReceiveFrom] at h
  generalize hs₂ : ((s.completed .udpReceiveFrom).fillUdp2ota c.filled).fillUdpReceiver
    c.sender = s₂ at h
  have hnone : s₂.pending = [] := by
    subst hs₂
    simp [ProxyHandler.fillUdpReceiver,ProxyHandler.fillUdp2ota,ProxyHandler.writes,
      ProxyHandler.completed,hp]
  have hcalm : s₂.disturbed = false := by
    subst hs₂
    simp [ProxyHandler.fillUdpReceiver,ProxyHandler.fillUdp2ota,ProxyHandler.writes,
      ProxyHandler.completed,ProxyHandler.inFlight,hp,hc]
  have hzero : ∀ d, outstanding s₂ d = 0 := by simp [outstanding,hnone]
  refine ⟨hop,?_⟩
  cases hok : c.ok with
  | false =>
    simp only [hok,Bool.false_eq_true,if_false] at h
    have hudp := handleUdpReceive_starts h
    have hcount : ∀ d, outstanding s' d = if .udpToAir = d then 1 else 0 := by
      intro d
      rw [hudp.outstanding_eq,hzero,Nat.zero_add]
    refine ⟨⟨?_,?_,?_⟩,by simp [hcount],by simp [hcount]⟩
    · intro d
      rw [hcount]
      split <;> omega
    · exact hudp.fresh (by simp [hnone])
    · exact hudp.calm (by simp [Quiet,hnone]) hcalm
  | true =>
    simp only [hok,if_true] at h
    have hair := start_starts s₂ .otaReceive (by simp)
    have hudp := handleUdpReceive_starts h
    have hcount : ∀ d, outstanding s' d = 1 := by
      intro d
      rw [hudp.outstanding_eq,ProxyHandler.nextOtaTransfer,hair.outstanding_eq,hzero]
      cases d <;> simp [Operation.direction]
    refine ⟨⟨fun d => Nat.le_of_eq (hcount d),?_,?_⟩,hcount _,by simp [hcount]⟩
    · exact hudp.fresh (hair.fresh (by simp [hnone]))
    · refine hudp.calm ?_ (hair.calm (by simp [Quiet,hnone]) hcalm)
      simp [Quiet,ProxyHandler.nextOtaTransfer,ProxyHandler.start,hnone,Operation.direction]

end

def Operation.isUdpReceive : Operation → Bool
  | .udpReceiveFrom => true
  | .udpReceive => true
  | _ => false

def received (done : List (Completion w Endpoint)) : Bool :=
  done.any (fun c => c.op.isUdpReceive && c.ok)

@[simp] theorem received_cons (c : Completion w Endpoint) (done : List (Completion w Endpoint)) :
    received (c :: done) = (c.op.isUdpReceive && c.ok || received done) := rfl

@[simp] theorem received_append (done rest : List (Completion w Endpoint)) :
    received (done ++ rest) = (received done || received rest) := List.any_append

/-- One operation of the first direction is in flight, one of the second from the first
good datagram on, and no member was written while an operation on it was in flight. -/
structure Healthy (s : ProxyHandler ProxyHeader Endpoint) (done : List (Completion w Endpoint)) :
    Prop where
  udpToAir : outstanding s .udpToAir = 1
  airToUdp : outstanding s .airToUdp = if received done then 1 else 0
  undisturbed : s.disturbed = false

/-- The first receive completes without error, or no UDP receive after it does. -/
def FirstReceiveCounts (cs : List (Completion w Endpoint)) : Prop :=
  ∀ first rest, cs = first :: rest → first.ok = true ∨ received rest = false

section
variable {api : ProxyApi w ProxyHeader Power} {s₀ t : ProxyHandler ProxyHeader Endpoint}

theorem startTransfer_pending (h : s₀.pending = []) :
    s₀.startTransfer.pending = [.udpReceiveFrom] := by
  simp [ProxyHandler.startTransfer,ProxyHandler.start,h]

theorem startTransfer_calm (h : s₀.pending = []) (hc : s₀.disturbed = false) :
    s₀.startTransfer.disturbed = false := by
  simp [ProxyHandler.startTransfer,ProxyHandler.start,ProxyHandler.inFlight,h,hc]

/-- After the first completion the two directions are as that completion left them. -/
theorem reaches_steady (hp : s₀.pending = []) (hc : s₀.disturbed = false)
    {first : Completion w Endpoint} {rest : List (Completion w Endpoint)}
    (h : Reaches (step api) s₀.startTransfer (first :: rest) t) :
    first.op = .udpReceiveFrom ∧ Steady t ∧ outstanding t .udpToAir = 1 ∧
      outstanding t .airToUdp = if first.ok then 1 else 0 := by
  generalize hd : first :: rest = done at h
  induction h generalizing rest with
  | nil => cases hd
  | @snoc done t t' c hr hs ih =>
    cases done with
    | nil =>
      cases hd
      rw [hr.nil_eq] at hs
      exact step_first hs (startTransfer_pending hp) (startTransfer_calm hp hc)
    | cons x xs =>
      cases hd
      obtain ⟨hop,hsteady,hudp,hair⟩ := ih rfl
      obtain ⟨hsteady',hcount⟩ := step_steady hs hsteady
      exact ⟨hop,hsteady',by rw [hcount,hudp],by rw [hcount,hair]⟩

end

/-- Along a run of the proxy both directions stay alive, with no member disturbed,
exactly when the first receive does not fail before a later one succeeds. -/
theorem proxy_stays_healthy_iff (api : ProxyApi w ProxyHeader Power) (udpReceiver : Endpoint)
    (udp2ota ota2udp : Buffer) (proxyHeader : ProxyHeader) (cs : List (Completion w Endpoint))
    (s : ProxyHandler ProxyHeader Endpoint)
    (h : Reaches (step api)
      (ProxyHandler.initial udpReceiver udp2ota ota2udp proxyHeader).startTransfer cs s) :
    (∀ done t, done <+: cs → Reaches (step api)
      (ProxyHandler.initial udpReceiver udp2ota ota2udp proxyHeader).startTransfer done t →
        Healthy t done) ↔ FirstReceiveCounts cs := by
  constructor
  · intro hall first rest hcs
    subst hcs
    cases hok : first.ok with
    | true => exact .inl rfl
    | false =>
      right
      cases hrest : received rest with
      | false => rfl
      | true =>
        have hhealthy := hall (first :: rest) s List.prefix_rfl h
        obtain ⟨_,_,_,hair⟩ := reaches_steady rfl rfl h
        rw [hhealthy.airToUdp,received_cons,hrest,hok] at hair
        simp at hair
  · intro hfirst done t hpre hreach
    cases done with
    | nil =>
      rw [hreach.nil_eq]
      exact ⟨rfl,rfl,rfl⟩
    | cons first tail =>
      obtain ⟨rest,rfl⟩ := hpre
      obtain ⟨hop,hsteady,hudp,hair⟩ := reaches_steady rfl rfl hreach
      refine ⟨hudp,?_,hsteady.calm⟩
      rw [hair]
      rw [received_cons,hop]
      rcases hfirst first (tail ++ rest) rfl with hok | hnone
      · simp [Operation.isUdpReceive,hok]
      · rw [received_append,Bool.or_eq_false_iff] at hnone
        simp [Operation.isUdpReceive,hnone.1]

def plainApi : ProxyApi 32 Unit Unit where
  proxyHeaderSize := 1
  rxDescriptorSize := 16
  headerOf _ := ()
  getPayload _ length := ⟨1,length.toNat - 1⟩
  getSignalPower _ := ()
  getAccessCategory _ := .be
  setSignalPower _ _ := ()
  setPayload _ _ := ()
  rxPower _ := ()
  manualPower _ := 40

def zeroBuffer : Buffer := Vector.replicate 2048 0

def completion (op : Operation) (ok : Bool) : Completion 32 Unit :=
  ⟨op,ok,if ok then 5 else 0,zeroBuffer,()⟩

def newHandler : ProxyHandler Unit Unit :=
  ProxyHandler.initial () zeroBuffer zeroBuffer ()

theorem proxy_stays_healthy_first_ok :
    ∃ s, Reaches (step plainApi) newHandler.startTransfer
        [completion .udpReceiveFrom true,completion (.otaSend ⟨1,4⟩) true] s ∧
      Healthy s [completion .udpReceiveFrom true,completion (.otaSend ⟨1,4⟩) true] := by
  have hreach : Reaches (step plainApi) newHandler.startTransfer
      ([] ++ [completion .udpReceiveFrom true] ++ [completion (.otaSend ⟨1,4⟩) true]) _ :=
    .snoc (.snoc .nil rfl) rfl
  have hfirst : FirstReceiveCounts
      ([] ++ [completion .udpReceiveFrom true] ++ [completion (.otaSend ⟨1,4⟩) true]) := by
    intro first rest hcs
    cases hcs
    exact .inl rfl
  exact ⟨_,hreach,(proxy_stays_healthy_iff plainApi () zeroBuffer zeroBuffer () _ _ hreach).mpr
    hfirst _ _ List.prefix_rfl hreach⟩

theorem failed_first_receive_mutes_air :
    ∃ s, Reaches (step plainApi) newHandler.startTransfer
        [completion .udpReceiveFrom false,completion .udpReceive true] s ∧
      received [completion .udpReceiveFrom false,completion .udpReceive true] = true ∧
      outstanding s .airToUdp = 0 ∧
      ¬ Healthy s [completion .udpReceiveFrom false,completion .udpReceive true] := by
  refine ⟨_,.snoc (.snoc .nil rfl) rfl,rfl,rfl,?_⟩
  intro h
  have hair := h.airToUdp
  cases hair

end Mitvane.Proxy

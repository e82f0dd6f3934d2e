import Mitvane.Pipeline
import Mitvane.Wire

/-! What leaves the machine: with GeoNetworking rules `run` is a filter on the frames
it receives, without them the verdict comes from memory that nobody has set. -/
set_option autoImplicit false

namespace Mitvane
open PartialRun
variable {Chunk Certificate Area Fix : Type}

def frameReport (v : Vanetza Chunk Certificate Area) (isWithin : IsWithin Fix)
    (signatures : SignaturesType) (a : Arrival Area Fix) : List Signature :=
  match decodeArrival v 0 a with
  | .error _ => []
  | .ok d =>
    match detect isWithin a.fix d.context.geonetData signatures with
    | .error _ => []
    | .ok (report,_) => report.sigs

/-- A frame is let through: it comes from another station, is a GeoNetworking frame
and no reported signature asks for more than an alert. -/
def passes (v : Vanetza Chunk Certificate Area) (isWithin : IsWithin Fix)
    (localMid : MacAddress) (signatures : SignaturesType) (a : Arrival Area Fix) : Bool :=
  a.frame.header.source ≠ localMid && a.frame.header.type = ethertypeGeoNetworking &&
    (frameReport v isWithin signatures a).all (fun sig => sig.action = .alert)

def records (v : Vanetza Chunk Certificate Area) (isWithin : IsWithin Fix)
    (localMid : MacAddress) (signatures : SignaturesType) (a : Arrival Area Fix) : List String :=
  if accepts localMid a.frame.header then (frameReport v isWithin signatures a).map logRecord
  else []

section
variable {v : Vanetza Chunk Certificate Area} {isWithin : IsWithin Fix}

theorem decodeArrival_token {t₁ t₂ : Token} {a : Arrival Area Fix} {d₁ d₂ : Decoded Chunk Area}
    (h₁ : decodeArrival v t₁ a = .ok d₁) (h₂ : decodeArrival v t₂ a = .ok d₂) :
    SameInner d₁.context.geonetData d₂.context.geonetData ∧
    d₁.context.geonetData.nextHeader = d₂.context.geonetData.nextHeader := by
  have l₁ := decodeArrival_leaves h₁
  have l₂ := decodeArrival_leaves h₂
  exact ⟨⟨l₁.headerType.trans l₂.headerType.symm,
    l₁.maximumHopLimit.trans l₂.maximumHopLimit.symm,
    l₁.sourcePosition.trans l₂.sourcePosition.symm⟩,l₁.nextHeader.trans l₂.nextHeader.symm⟩

theorem frameReport_eq {token : Token} {a : Arrival Area Fix} {d : Decoded Chunk Area}
    {signatures : SignaturesType} {sigs : List Signature}
    (hm : signatures.lookup .geoNetworking = some sigs)
    (hthrow : sigs.any Signature.throws = false) (hd : decodeArrival v token a = .ok d) :
    frameReport v isWithin signatures a =
      sigs.filter (reported isWithin a.fix d.context.geonetData) := by
  obtain ⟨d₀,hd₀,_⟩ := (decodeArrival_related (v := v) token 0 a a.storage).of_ok hd
  have hd₀' : decodeArrival v 0 a = .ok d₀ := hd₀
  obtain ⟨hin,hnh⟩ := decodeArrival_token hd₀' hd
  simp only [frameReport,hd₀',detect_of_lookup hm,hthrow]
  apply List.filter_congr
  intro sig _
  exact reported_congr hin (fun _ => hnh)

/-- With an entry for GeoNetworking, detection leaves the map alone and reports
what the frame deserves. -/
theorem Processed.report_eq {s s' : IdpsState Chunk} {a : Arrival Area Fix}
    {d : Decoded Chunk Area} {report : DetectionReport}
    (h : Processed v isWithin s a s' d report) (hgn : Protocol.geoNetworking ∈ s.signatures) :
    s'.signatures = s.signatures ∧ report.result = DetectionResult.detected.code ∧
    report.sigs = frameReport v isWithin s.signatures a := by
  obtain ⟨sigs,hm⟩ := Finmap.mem_iff.mp hgn
  have hdet := h.detected
  rw [detectStep,if_pos hgn,detect_of_lookup hm] at hdet
  cases hthrow : sigs.any Signature.throws with
  | true => simp [hthrow] at hdet
  | false =>
    simp only [hthrow,Bool.false_eq_true,if_false,Except.ok.injEq,Prod.mk.injEq] at hdet
    obtain ⟨hreport,hsigs⟩ := hdet
    subst hreport
    exact ⟨hsigs.symm,rfl,(frameReport_eq hm hthrow h.decoded).symm⟩

theorem handleStep_detected (a : Arrival Area Fix) {report : DetectionReport}
    (h : report.result = DetectionResult.detected.code) :
    handleStep a report = ((if report.sigs.all (fun sig => sig.action = .alert)
      then HandleReport.allow.code else HandleReport.drop.code),report.sigs.map logRecord) := by
  simp only [handleStep,if_pos h,handle_eq]
  split <;> rfl

theorem passes_eq (localMid : MacAddress) (signatures : SignaturesType) (a : Arrival Area Fix) :
    passes v isWithin localMid signatures a = (accepts localMid a.frame.header &&
      (frameReport v isWithin signatures a).all (fun sig => sig.action = .alert)) := rfl

/-- The frames `done` went through a filter on the way from `s` to `s'`. -/
structure Filtered (v : Vanetza Chunk Certificate Area) (isWithin : IsWithin Fix)
    (s : IdpsState Chunk) (done : List (Arrival Area Fix)) (s' : IdpsState Chunk) : Prop where
  localMid : s'.localMid = s.localMid
  signatures : s'.signatures = s.signatures
  transmitted : s'.transmitted = s.transmitted ++
    (done.filter (passes v isWithin s.localMid s.signatures)).map (fun a => a.frame.packet)
  sent : s'.sent = s.sent ++
    (done.filter (passes v isWithin s.localMid s.signatures)).map (fun a => a.frame.packet.buffer)
  log : s'.log = s.log ++ done.flatMap (records v isWithin s.localMid s.signatures)

theorem run_filtered {s s' : IdpsState Chunk} {a : Arrival Area Fix}
    (hgn : Protocol.geoNetworking ∈ s.signatures) (h : run v isWithin s a = .ok s') :
    Filtered v isWithin s [a] s' := by
  rcases run_cases h with ⟨hacc,rfl⟩ | ⟨hacc,d,report,hp⟩
  · have hpass : passes v isWithin s'.localMid s'.signatures a = false := by
      simp [passes_eq,hacc]
    constructor <;> simp [hpass,records,hacc]
  · obtain ⟨hmap,hres,hsigs⟩ := hp.report_eq hgn
    have hhandle := handleStep_detected a hres
    rw [hsigs] at hhandle
    have hpass : passes v isWithin s.localMid s.signatures a =
        (frameReport v isWithin s.signatures a).all (fun sig => sig.action = .alert) := by
      simp [passes_eq,hacc]
    have hverdict : ∀ {β : Type} (b : β), forwards (handleStep a report).1 b =
        if passes v isWithin s.localMid s.signatures a then [b] else [] := by
      intro β b
      rw [hhandle,hpass]
      unfold forwards
      split <;> rfl
    refine ⟨hp.localMid,hmap,?_,?_,?_⟩
    · rw [hp.transmitted,hverdict]
      cases hpv : passes v isWithin s.localMid s.signatures a <;> simp [hpv]
    · rw [hp.sent,hverdict]
      cases hpv : passes v isWithin s.localMid s.signatures a <;> simp [hpv]
    · rw [hp.log,hhandle]
      simp [records,hacc]

theorem Filtered.cons {s s₁ s₂ : IdpsState Chunk} {a : Arrival Area Fix}
    {done : List (Arrival Area Fix)} (h₁ : Filtered v isWithin s [a] s₁)
    (h₂ : Filtered v isWithin s₁ done s₂) : Filtered v isWithin s (a :: done) s₂ := by
  have hmid := h₁.localMid
  have hsig := h₁.signatures
  refine ⟨h₂.localMid.trans hmid,h₂.signatures.trans hsig,?_,?_,?_⟩
  · rw [h₂.transmitted,h₁.transmitted,hmid,hsig,List.append_assoc,← List.map_append,
      ← List.filter_append]
    rfl
  · rw [h₂.sent,h₁.sent,hmid,hsig,List.append_assoc,← List.map_append,← List.filter_append]
    rfl
  · rw [h₂.log,h₁.log,hmid,hsig,List.append_assoc,← List.flatMap_append]
    rfl

end

/-- With GeoNetworking rules the frames sent are the received frames that pass, in
order, up to the first frame on which `run` does not return. -/
theorem run_is_filter (v : Vanetza Chunk Certificate Area) (isWithin : IsWithin Fix)
    (s : IdpsState Chunk) (arrivals : List (Arrival Area Fix))
    (hgn : Protocol.geoNetworking ∈ s.signatures) :
    Filtered v isWithin s (drain (run v isWithin) s arrivals).1
      (drain (run v isWithin) s arrivals).2 ∧
    ∃ rest, arrivals = (drain (run v isWithin) s arrivals).1 ++ rest ∧
      (rest = [] ∨ ∃ a tail e, rest = a :: tail ∧
        run v isWithin (drain (run v isWithin) s arrivals).2 a = .error e) := by
  refine ⟨?_,drain_stops (run v isWithin) s arrivals⟩
  refine drain_induction (R := fun s done t => Protocol.geoNetworking ∈ s.signatures →
    Filtered v isWithin s done t) ?_ ?_ s arrivals hgn
  · intro s _
    constructor <;> simp
  · intro s a s' done t hs ih hgn
    have hstep := run_filtered hgn hs
    exact hstep.cons (ih (hstep.signatures ▸ hgn))

def securedRule : Signature :=
  dropRule 1 ((∅ : StdMap String PatternType).insert "nh" (.string "secure"))

theorem run_is_filter_securedRule :
    Protocol.geoNetworking ∈ (camStation (geonetRules [securedRule])).signatures ∧
    Filtered wire flatWithin (camStation (geonetRules [securedRule]))
      [camArrival,securedCamArrival] (drain (run wire flatWithin)
        (camStation (geonetRules [securedRule])) [camArrival,securedCamArrival]).2 ∧
    [camArrival,securedCamArrival].filter
      (passes wire flatWithin 0 (geonetRules [securedRule])) = [camArrival] :=
  ⟨by decide,(run_is_filter wire flatWithin (camStation (geonetRules [securedRule]))
    [camArrival,securedCamArrival] (by decide)).1,rfl⟩

/-- Without GeoNetworking rules a frame is forwarded when the unset result happens to
read as detected, or the unset verdict as anything but drop. -/
theorem forwarded_without_rules_iff (v : Vanetza Chunk Certificate Area)
    (isWithin : IsWithin Fix) (s s' : IdpsState Chunk) (a : Arrival Area Fix)
    (hgn : Protocol.geoNetworking ∉ s.signatures)
    (hacc : accepts s.localMid a.frame.header = true) (h : run v isWithin s a = .ok s') :
    (s'.transmitted = s.transmitted ++ [a.frame.packet] ∧
      s'.sent = s.sent ++ [a.frame.packet.buffer]) ↔
    (a.storage.result = DetectionResult.detected.code ∨
      a.storage.handleReport ≠ HandleReport.drop.code) := by
  obtain ⟨d,report,hp⟩ := run_processed hacc h
  have hdet := hp.detected
  simp only [detectStep,if_neg hgn,Except.ok.injEq,Prod.mk.injEq] at hdet
  obtain ⟨hreport,_⟩ := hdet
  have htrans := hp.transmitted
  have hsent := hp.sent
  subst hreport
  by_cases hres : a.storage.result = DetectionResult.detected.code
  · rw [handleStep_detected a hres] at htrans hsent
    exact ⟨fun _ => .inl hres,fun _ => ⟨htrans,hsent⟩⟩
  · have hverdict : (handleStep a ⟨[],a.storage.result⟩).1 = a.storage.handleReport := by
      simp [handleStep,hres]
    rw [hverdict] at htrans hsent
    rw [htrans,hsent]
    by_cases hdrop : a.storage.handleReport = HandleReport.drop.code
    · simp [forwards,hres,hdrop]
    · simp [forwards,hdrop]

theorem forwarded_without_rules_camArrival :
    (∃ s', run wire flatWithin (camStation ∅) camArrival = .ok s') ∧
    ∀ s', run wire flatWithin (camStation ∅) camArrival = .ok s' →
      s'.transmitted = [camArrival.frame.packet] ∧ s'.sent = [camArrival.frame.packet.buffer] :=
  ⟨⟨_,rfl⟩,fun s' h => (forwarded_without_rules_iff wire flatWithin (camStation ∅) s' camArrival
    (by decide) rfl h).mpr (.inl rfl)⟩

def staleArrival : Arrival WireArea (Int × Int) :=
  { camArrival with storage := { zeroStorage with result := 1, handleReport := 1 } }

theorem dropped_without_rules :
    Protocol.geoNetworking ∉ (camStation ∅).signatures ∧
    accepts (camStation ∅).localMid staleArrival.frame.header = true ∧
    ∃ s', run wire flatWithin (camStation ∅) staleArrival = .ok s' ∧ s'.transmitted = [] ∧
      s'.transmitted ≠ (camStation ∅).transmitted ++ [staleArrival.frame.packet] :=
  ⟨by decide,rfl,_,rfl,rfl,by decide⟩

end Mitvane

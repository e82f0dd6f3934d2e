import Mitvane.HeaderChain
import Mitvane.PatternMatching
import Mitvane.IdpsContext

set_option autoImplicit false

namespace Mitvane
open PartialRun
variable {Chunk Certificate Area Fix : Type}

/-- The context in which the decoder starts on the packet of an arrival. -/
def received (Chunk : Type) (a : Arrival Area Fix) : IndicationContextBasic Chunk :=
  basicContext (.cohesive a.frame.packet) ⟨a.frame.header.source,a.frame.header.destination⟩

section
variable {v : Vanetza Chunk Certificate Area} {isWithin : IsWithin Fix}

theorem decodeArrival_leaves {token : Token} {a : Arrival Area Fix} {d : Decoded Chunk Area}
    (h : decodeArrival v token a = .ok d) :
    Leaves v token ((v.parseBasic (received Chunk a)).map BasicHeader.nextHeader)
      (reachedCommon v (received Chunk a)) (reachedExtended v (received Chunk a))
      a.storage.context.defaultInit d :=
  decodeBasic_leaves v token h

theorem decodeArrival_related (t₁ t₂ : Token) (a : Arrival Area Fix) (storage : Storage Area) :
    Related SameBtpData (decodeArrival v t₁ a) (decodeArrival v t₂ { a with storage }) :=
  decodeBasic_related v (received Chunk a) rfl

theorem Leaves.payload_of_btpData {token : Token} {next : Option NextHeaderBasic}
    {common : Option CommonHeader} {extended : Option ExtendedHeader}
    {storage : DetectionContext Area} {d : Decoded Chunk Area}
    (h : Leaves v token next common extended storage.defaultInit d)
    (hbtp : d.context.btpData.isSome) :
    ∃ packet, d.fate = .released ⟨d.context.payload,packet⟩ := by
  rcases h.btpData.mp hbtp with hb | ⟨hext,_⟩
  · cases hb
  · obtain ⟨hpayload,packet,hfate⟩ := h.released hext
    exact ⟨packet,by rw [hpayload]; exact hfate⟩

theorem applicationStep_ok {s s' : IdpsState Chunk} {d : Decoded Chunk Area}
    (h : applicationStep s d = .ok s') :
    (d.context.btpData = none ∧ s' = s) ∨
    ∃ btp app, d.context.btpData = some btp ∧ (classify s.appLayerParsers btp).1 = some app ∧
      s' = { s with
        appLayerParsers := (classify s.appLayerParsers btp).2
        ledger := s.ledger ++ [.handedOver d.context.payload] } := by
  unfold applicationStep at h
  cases hb : d.context.btpData with
  | none =>
    simp only [hb] at h
    cases h
    exact .inl ⟨rfl,rfl⟩
  | some btp =>
    simp only [hb] at h
    cases hc : (classify s.appLayerParsers btp).1 with
    | none => simp [hc] at h
    | some app =>
      simp only [hc] at h
      cases hf : d.fate with
      | disposed token => simp [hf,handOver] at h
      | released ptr =>
        simp only [hf,handOver] at h
        split at h
        · split at h
          · cases h
            exact .inr ⟨btp,app,rfl,hc,rfl⟩
          · cases h
        · cases h

def forwards {β : Type} (verdict : UInt32) (packet : β) : List β :=
  if verdict ≠ HandleReport.drop.code then [packet] else []

theorem detectAndForward_ok {s s' : IdpsState Chunk} {a : Arrival Area Fix}
    {data : GeonetData Area} (h : detectAndForward isWithin s a data = .ok s') :
    ∃ report signatures, detectStep isWithin a data s.signatures = .ok (report,signatures) ∧
      s' = { s with
        signatures := signatures
        log := s.log ++ (handleStep a report).2
        transmitted := s.transmitted ++ forwards (handleStep a report).1 a.frame.packet
        sent := s.sent ++ forwards (handleStep a report).1 a.frame.packet.buffer } := by
  simp only [detectAndForward,bind_eq_ok] at h
  obtain ⟨⟨report,signatures⟩,hd,h⟩ := h
  refine ⟨report,signatures,hd,?_⟩
  unfold forwards
  by_cases hv : (handleStep a report).1 ≠ HandleReport.drop.code
  · simp only [if_pos hv,transmit] at h ⊢
    split at h
    · cases h; rfl
    · cases h
  · simp only [if_neg hv] at h ⊢
    cases h
    simp

theorem detectAndForward_error {s : IdpsState Chunk} {a : Arrival Area Fix}
    {data : GeonetData Area} {e : Fault} (h : detectAndForward isWithin s a data = .error e) :
    e = .badGet ∨ e = .exception := by
  simp only [detectAndForward,bind_eq_error] at h
  rcases h with h | ⟨⟨report,signatures⟩,_,h⟩
  · unfold detectStep at h
    split at h
    · rw [detect_eq] at h
      split at h
      · cases h; exact .inl rfl
      · cases h
    · cases h
  · simp only [transmit] at h
    split at h
    · split at h
      · cases h
      · cases h; exact .inr rfl
    · cases h

/-- Everything an accepted frame does when `run` returns. -/
structure Processed (v : Vanetza Chunk Certificate Area) (isWithin : IsWithin Fix)
    (s : IdpsState Chunk) (a : Arrival Area Fix) (s' : IdpsState Chunk)
    (d : Decoded Chunk Area) (report : DetectionReport) : Prop where
  decoded : decodeArrival v s.nextToken a = .ok d
  detected : detectStep isWithin a d.context.geonetData s.signatures =
    .ok (report,s'.signatures)
  localMid : s'.localMid = s.localMid
  nextToken : s'.nextToken = s.nextToken+1
  ledger : s'.ledger = s.ledger ++ d.fate.event ::
    if d.context.btpData.isSome then [.handedOver d.context.payload] else []
  parsers : s'.appLayerParsers = match d.context.btpData with
    | none => s.appLayerParsers
    | some btp => (classify s.appLayerParsers btp).2
  log : s'.log = s.log ++ (handleStep a report).2
  transmitted : s'.transmitted =
    s.transmitted ++ forwards (handleStep a report).1 a.frame.packet
  sent : s'.sent = s.sent ++ forwards (handleStep a report).1 a.frame.packet.buffer

theorem run_rejected {s : IdpsState Chunk} {a : Arrival Area Fix}
    (h : accepts s.localMid a.frame.header = false) : run v isWithin s a = .ok s := by
  simp [run,h]

theorem run_processed {s s' : IdpsState Chunk} {a : Arrival Area Fix}
    (hacc : accepts s.localMid a.frame.header = true) (h : run v isWithin s a = .ok s') :
    ∃ d report, Processed v isWithin s a s' d report := by
  simp only [run,hacc,if_true,bind_eq_ok] at h
  obtain ⟨d,hd,s₁,happ,hfwd⟩ := h
  obtain ⟨report,signatures,hdet,rfl⟩ := detectAndForward_ok hfwd
  rcases applicationStep_ok happ with ⟨hb,rfl⟩ | ⟨btp,app,hb,_,rfl⟩
  · refine ⟨d,report,⟨hd,hdet,rfl,rfl,?_,?_,rfl,rfl,rfl⟩⟩
    · simp [recordDecode,hb]
    · simp [recordDecode,hb]
  · refine ⟨d,report,⟨hd,hdet,rfl,rfl,?_,?_,rfl,rfl,rfl⟩⟩
    · simp [recordDecode,hb]
    · simp [recordDecode,hb]

/-- A frame is passed over or processed. -/
theorem run_cases {s s' : IdpsState Chunk} {a : Arrival Area Fix}
    (h : run v isWithin s a = .ok s') :
    (accepts s.localMid a.frame.header = false ∧ s' = s) ∨
    (accepts s.localMid a.frame.header = true ∧
      ∃ d report, Processed v isWithin s a s' d report) := by
  cases hacc : accepts s.localMid a.frame.header with
  | false =>
    rw [run_rejected hacc] at h
    cases h
    exact .inl ⟨rfl,rfl⟩
  | true => exact .inr ⟨rfl,run_processed hacc h⟩

theorem run_localMid {s s' : IdpsState Chunk} {a : Arrival Area Fix}
    (h : run v isWithin s a = .ok s') : s'.localMid = s.localMid := by
  rcases run_cases h with ⟨_,rfl⟩ | ⟨_,d,report,hp⟩
  · rfl
  · exact hp.localMid

theorem step_cases {s s' : IdpsState Chunk} {c : Call Chunk Area Fix}
    (h : step v isWithin s c = .ok s') :
    (∃ a, c = .run a ∧ run v isWithin s a = .ok s') ∨
    ((∀ a, c ≠ .run a) ∧ ∃ parsers, s' = { s with appLayerParsers := parsers }) := by
  cases c with
  | enable app =>
    cases h
    refine .inr ⟨by simp,?_⟩
    unfold enable
    split
    · exact ⟨_,rfl⟩
    · exact ⟨s.appLayerParsers,rfl⟩
  | disable app =>
    cases h
    refine .inr ⟨by simp,?_⟩
    unfold disable
    split
    · exact ⟨_,rfl⟩
    · exact ⟨s.appLayerParsers,rfl⟩
  | run a => exact .inl ⟨a,rfl,h⟩

theorem step_localMid {s s' : IdpsState Chunk} {c : Call Chunk Area Fix}
    (h : step v isWithin s c = .ok s') : s'.localMid = s.localMid := by
  rcases step_cases h with ⟨a,_,hrun⟩ | ⟨_,parsers,rfl⟩
  · exact run_localMid hrun
  · rfl

theorem drain_localMid (v : Vanetza Chunk Certificate Area) (isWithin : IsWithin Fix)
    (s : IdpsState Chunk) (calls : List (Call Chunk Area Fix)) :
    (drain (step v isWithin) s calls).2.localMid = s.localMid :=
  drain_induction
    (R := fun (s : IdpsState Chunk) (_ : List (Call Chunk Area Fix)) t => t.localMid = s.localMid)
    (fun _ => rfl) (fun hs ht => ht.trans (step_localMid hs)) s calls

end

end Mitvane

import Mathlib.Data.List.Basic
import Mitvane.Pipeline
import Mitvane.Wire

/-! The ledger of heap packets: which are released by the decoder, and which of those a
parser takes over. -/
set_option autoImplicit false

namespace Mitvane
open PartialRun
variable {Chunk Certificate Area Fix : Type}

def OwnershipEvent.token : OwnershipEvent → Token
  | .released t => t
  | .disposed t => t
  | .handedOver t => t

def OwnershipEvent.isReleased : OwnershipEvent → Bool
  | .released _ => true
  | _ => false

def OwnershipEvent.isHandedOver : OwnershipEvent → Bool
  | .handedOver _ => true
  | _ => false

def releasedCount (s : IdpsState Chunk) : Nat := s.ledger.countP OwnershipEvent.isReleased

def handedOverCount (s : IdpsState Chunk) : Nat := s.ledger.countP OwnershipEvent.isHandedOver

/-- An accepted packet with an extended header but no BTP header. -/
def leaks (v : Vanetza Chunk Certificate Area) (localMid : MacAddress)
    (a : Arrival Area Fix) : Bool :=
  accepts localMid a.frame.header && (reachedExtended v (received Chunk a)).isSome &&
    !(reachedCommon v (received Chunk a)).any CommonHeader.carriesBtp

def callLeaks (v : Vanetza Chunk Certificate Area) (localMid : MacAddress) :
    Call Chunk Area Fix → Bool
  | .run a => leaks v localMid a
  | _ => false

/-- Tokens are fresh, and none is both destroyed and handed over. -/
structure LedgerOk (s : IdpsState Chunk) : Prop where
  fresh : ∀ e ∈ s.ledger, e.token < s.nextToken
  apart : ∀ t, .disposed t ∈ s.ledger → .handedOver t ∉ s.ledger

section
variable {v : Vanetza Chunk Certificate Area} {isWithin : IsWithin Fix}

theorem Processed.events {s s' : IdpsState Chunk} {a : Arrival Area Fix}
    {d : Decoded Chunk Area} {report : DetectionReport}
    (h : Processed v isWithin s a s' d report) (hacc : accepts s.localMid a.frame.header = true) :
    (leaks v s.localMid a = false ∧ (s'.ledger = s.ledger ++ [.disposed s.nextToken] ∨
      s'.ledger = s.ledger ++ [.released s.nextToken,.handedOver s.nextToken])) ∨
    (leaks v s.localMid a = true ∧ s'.ledger = s.ledger ++ [.released s.nextToken]) := by
  have l := decodeArrival_leaves h.decoded
  have hledger := h.ledger
  have hbtp : d.context.btpData.isSome ↔ (reachedExtended v (received Chunk a)).isSome ∧
      (reachedCommon v (received Chunk a)).any CommonHeader.carriesBtp = true := by
    rw [l.btpData]
    cases reachedCommon v (received Chunk a) <;> simp [DetectionContext.defaultInit]
  cases hext : (reachedExtended v (received Chunk a)).isSome with
  | false =>
    have hnone : d.context.btpData.isSome = false := by
      rw [← Bool.not_eq_true,hbtp,hext]
      simp
    have hfate := l.disposed (by simpa using hext)
    refine .inl ⟨by simp [leaks,hext],.inl ?_⟩
    simpa [hnone,hfate,Fate.event] using hledger
  | true =>
    obtain ⟨hpayload,packet,hfate⟩ := l.released hext
    cases hc : (reachedCommon v (received Chunk a)).any CommonHeader.carriesBtp with
    | false =>
      have hnone : d.context.btpData.isSome = false := by
        rw [← Bool.not_eq_true,hbtp,hc]
        simp
      refine .inr ⟨by simp [leaks,hacc,hext,hc],?_⟩
      simpa [hnone,hfate,Fate.event] using hledger
    | true =>
      have hsome : d.context.btpData.isSome = true := hbtp.mpr ⟨hext,hc⟩
      refine .inl ⟨by simp [leaks,hc],.inr ?_⟩
      simpa [hsome,hfate,hpayload,Fate.event] using hledger

theorem run_count {s s' : IdpsState Chunk} {a : Arrival Area Fix}
    (h : run v isWithin s a = .ok s') :
    releasedCount s' + handedOverCount s =
      releasedCount s + handedOverCount s' + if leaks v s.localMid a then 1 else 0 := by
  unfold releasedCount handedOverCount
  rcases run_cases h with ⟨hacc,rfl⟩ | ⟨hacc,d,report,hp⟩
  · simp [leaks,hacc]
  · rcases hp.events hacc with ⟨hl,hev | hev⟩ | ⟨hl,hev⟩
    · have hr : [OwnershipEvent.disposed s.nextToken].countP OwnershipEvent.isReleased = 0 := rfl
      have hh : [OwnershipEvent.disposed s.nextToken].countP OwnershipEvent.isHandedOver = 0 := rfl
      simp only [hl,hev,List.countP_append,hr,hh,Bool.false_eq_true,if_false]
      omega
    · have hr : [OwnershipEvent.released s.nextToken,.handedOver s.nextToken].countP
          OwnershipEvent.isReleased = 1 := rfl
      have hh : [OwnershipEvent.released s.nextToken,.handedOver s.nextToken].countP
          OwnershipEvent.isHandedOver = 1 := rfl
      simp only [hl,hev,List.countP_append,hr,hh,Bool.false_eq_true,if_false]
      omega
    · have hr : [OwnershipEvent.released s.nextToken].countP OwnershipEvent.isReleased = 1 := rfl
      have hh : [OwnershipEvent.released s.nextToken].countP OwnershipEvent.isHandedOver = 0 := rfl
      simp only [hl,hev,List.countP_append,hr,hh,if_true]
      omega

theorem LedgerOk.append {s s' : IdpsState Chunk} {events : List OwnershipEvent} (hs : LedgerOk s)
    (hledger : s'.ledger = s.ledger ++ events) (hnext : s'.nextToken = s.nextToken+1)
    (htoken : ∀ e ∈ events, e.token = s.nextToken)
    (hapart : ∀ t, .disposed t ∈ events → .handedOver t ∉ events) : LedgerOk s' := by
  constructor
  · intro e he
    rw [hledger] at he
    rw [hnext]
    rcases List.mem_append.mp he with hold | hev
    · exact Nat.lt_succ_of_lt (hs.fresh e hold)
    · rw [htoken e hev]
      exact Nat.lt_succ_self _
  · intro t hd hh
    rw [hledger] at hd hh
    rcases List.mem_append.mp hd with hd | hd
    · rcases List.mem_append.mp hh with hh | hh
      · exact hs.apart t hd hh
      · have hlt := hs.fresh _ hd
        have heq := htoken _ hh
        exact absurd heq (Nat.ne_of_lt hlt)
    · rcases List.mem_append.mp hh with hh | hh
      · have hlt := hs.fresh _ hh
        have heq := htoken _ hd
        exact absurd heq (Nat.ne_of_lt hlt)
      · exact hapart t hd hh

theorem run_ledgerOk {s s' : IdpsState Chunk} {a : Arrival Area Fix}
    (h : run v isWithin s a = .ok s') (hs : LedgerOk s) : LedgerOk s' := by
  rcases run_cases h with ⟨_,rfl⟩ | ⟨hacc,d,report,hp⟩
  · exact hs
  · rcases hp.events hacc with ⟨_,hev | hev⟩ | ⟨_,hev⟩
    · exact hs.append hev hp.nextToken (by simp [OwnershipEvent.token]) (by simp)
    · exact hs.append hev hp.nextToken (by simp [OwnershipEvent.token]) (by simp)
    · exact hs.append hev hp.nextToken (by simp [OwnershipEvent.token]) (by simp)

theorem run_ne_danglingPayload (s : IdpsState Chunk) (a : Arrival Area Fix) :
    run v isWithin s a ≠ .error .danglingPayload := by
  intro h
  cases hacc : accepts s.localMid a.frame.header with
  | false =>
    rw [run_rejected hacc] at h
    cases h
  | true =>
    simp only [run,hacc,if_true,bind_eq_error] at h
    rcases h with h | ⟨d,hd,h | ⟨s₁,_,h⟩⟩
    · rcases decodeBasic_error v s.nextToken h with ⟨he,_⟩ | ⟨he,_⟩ <;> cases he
    · unfold applicationStep at h
      cases hb : d.context.btpData with
      | none => simp [hb] at h
      | some btp =>
        obtain ⟨packet,hfate⟩ := (decodeArrival_leaves hd).payload_of_btpData (by simp [hb])
        simp only [hb,hfate] at h
        split at h
        · cases h
        · simp only [handOver,if_true] at h
          split at h <;> cases h
    · rcases detectAndForward_error h with he | he <;> cases he

theorem step_count {s s' : IdpsState Chunk} {c : Call Chunk Area Fix}
    (h : step v isWithin s c = .ok s') :
    releasedCount s' + handedOverCount s =
      releasedCount s + handedOverCount s' + if callLeaks v s.localMid c then 1 else 0 := by
  rcases step_cases h with ⟨a,rfl,hrun⟩ | ⟨hc,parsers,rfl⟩
  · exact run_count hrun
  · cases c with
    | run a => exact (hc a rfl).elim
    | _ => rfl

theorem step_ledgerOk {s s' : IdpsState Chunk} {c : Call Chunk Area Fix}
    (h : step v isWithin s c = .ok s') (hs : LedgerOk s) : LedgerOk s' := by
  rcases step_cases h with ⟨a,_,hrun⟩ | ⟨_,parsers,rfl⟩
  · exact run_ledgerOk hrun hs
  · exact ⟨hs.fresh,hs.apart⟩

/-- The surplus of released packets after a run is the number of leaking frames in it. -/
theorem drain_count (v : Vanetza Chunk Certificate Area) (isWithin : IsWithin Fix)
    (s : IdpsState Chunk) (calls : List (Call Chunk Area Fix)) :
    releasedCount (drain (step v isWithin) s calls).2 + handedOverCount s =
      releasedCount s + handedOverCount (drain (step v isWithin) s calls).2 +
        (drain (step v isWithin) s calls).1.countP (callLeaks v s.localMid) := by
  refine drain_induction (R := fun s done t => releasedCount t + handedOverCount s =
    releasedCount s + handedOverCount t + done.countP (callLeaks v s.localMid)) ?_ ?_ s calls
  · intro s
    simp
  · intro s c s' done t hs ih
    have hcount := step_count hs
    rw [step_localMid hs] at ih
    rw [List.countP_cons]
    omega

theorem drain_ledgerOk (v : Vanetza Chunk Certificate Area) (isWithin : IsWithin Fix)
    (s : IdpsState Chunk) (calls : List (Call Chunk Area Fix)) (h : LedgerOk s) :
    LedgerOk (drain (step v isWithin) s calls).2 :=
  drain_invariant (fun hs hp => step_ledgerOk hs hp) s calls h

end

theorem initial_ledgerOk (localMid : MacAddress) (signatures : SignaturesType) :
    LedgerOk (.initial localMid signatures : IdpsState Chunk) := by
  constructor <;> simp [IdpsState.initial]

theorem balanced_iff_no_leak (v : Vanetza Chunk Certificate Area) (isWithin : IsWithin Fix)
    (localMid : MacAddress) (signatures : SignaturesType) (calls : List (Call Chunk Area Fix)) :
    releasedCount (drain (step v isWithin) (.initial localMid signatures) calls).2 =
      handedOverCount (drain (step v isWithin) (.initial localMid signatures) calls).2 ↔
    ∀ c ∈ (drain (step v isWithin) (.initial localMid signatures) calls).1,
      callLeaks v localMid c = false := by
  have hcount := drain_count v isWithin (.initial localMid signatures) calls
  have hr : releasedCount (.initial localMid signatures : IdpsState Chunk) = 0 := rfl
  have hh : handedOverCount (.initial localMid signatures : IdpsState Chunk) = 0 := rfl
  have hmid : (IdpsState.initial localMid signatures : IdpsState Chunk).localMid = localMid := rfl
  rw [hr,hh,hmid] at hcount
  have hzero := List.countP_eq_zero (p := callLeaks v localMid)
    (l := (drain (step v isWithin) (.initial localMid signatures) calls).1)
  simp only [Bool.not_eq_true] at hzero
  rw [← hzero]
  omega

/-- Every released packet is taken over by a parser, in every state of a run, exactly
when no accepted frame of it has an extended header without a BTP header. No
destroyed packet is ever handed over. -/
theorem ownership_balanced_iff (v : Vanetza Chunk Certificate Area) (isWithin : IsWithin Fix)
    (localMid : MacAddress) (signatures : SignaturesType) (calls : List (Call Chunk Area Fix)) :
    ((∀ pre, pre <+: calls →
      releasedCount (drain (step v isWithin) (.initial localMid signatures) pre).2 =
        handedOverCount (drain (step v isWithin) (.initial localMid signatures) pre).2) ↔
      ∀ a, .run a ∈ (drain (step v isWithin) (.initial localMid signatures) calls).1 →
        leaks v localMid a = false) ∧
    (∀ t, .disposed t ∈
        (drain (step v isWithin) (.initial localMid signatures) calls).2.ledger →
      .handedOver t ∉
        (drain (step v isWithin) (.initial localMid signatures) calls).2.ledger) ∧
    ∀ a, run v isWithin (drain (step v isWithin) (.initial localMid signatures) calls).2 a ≠
      .error .danglingPayload := by
  refine ⟨?_,(drain_ledgerOk v isWithin _ calls (initial_ledgerOk localMid signatures)).apart,
    run_ne_danglingPayload _⟩
  constructor
  · intro h a ha
    exact (balanced_iff_no_leak v isWithin localMid signatures calls).mp
      (h calls (List.prefix_refl calls)) (.run a) ha
  · intro h pre hpre
    obtain ⟨rest,rfl⟩ := hpre
    apply (balanced_iff_no_leak v isWithin localMid signatures pre).mpr
    intro c hc
    have hmem := (drain_done_append (step v isWithin) (.initial localMid signatures) pre
      rest).subset hc
    cases c with
    | run a => exact h a hmem
    | _ => rfl

theorem beacon_is_leaked :
    (drain (step wire flatWithin) (.initial 0 ∅) [.run beaconArrival]).1 = [.run beaconArrival] ∧
    releasedCount (drain (step wire flatWithin) (.initial 0 ∅) [.run beaconArrival]).2 = 1 ∧
    handedOverCount (drain (step wire flatWithin) (.initial 0 ∅) [.run beaconArrival]).2 = 0 :=
  ⟨rfl,rfl,rfl⟩

end Mitvane

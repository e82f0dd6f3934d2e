import Mathlib.Data.List.Forall2
import Mitvane.MessageHandler

set_option autoImplicit false

namespace Mitvane

section Delimiters
variable {α : Type} {c : α} {xs xs' ys ys' : List α}

theorem eq_of_split_at_first (h : c ∉ xs) (h' : c ∉ xs') (heq : xs ++ c :: ys = xs' ++ c :: ys') :
    xs = xs' ∧ ys = ys' := by
  induction xs generalizing xs' with
  | nil =>
    cases xs' with
    | nil => exact ⟨rfl,List.cons.inj heq |>.2⟩
    | cons x' xs' =>
      obtain ⟨rfl,_⟩ := List.cons.inj heq
      simp at h'
  | cons x xs ih =>
    cases xs' with
    | nil =>
      obtain ⟨rfl,_⟩ := List.cons.inj heq
      simp at h
    | cons x' xs' =>
      obtain ⟨rfl,htail⟩ := List.cons.inj heq
      obtain ⟨rfl,hys⟩ := ih (fun hc => h (by simp [hc])) (fun hc => h' (by simp [hc])) htail
      exact ⟨rfl,hys⟩

theorem eq_of_split_at_last (h : c ∉ ys) (h' : c ∉ ys') (heq : xs ++ c :: ys = xs' ++ c :: ys') :
    xs = xs' ∧ ys = ys' := by
  have hrev : ys.reverse ++ c :: xs.reverse = ys'.reverse ++ c :: xs'.reverse := by
    simpa using congrArg List.reverse heq
  obtain ⟨hys,hxs⟩ := eq_of_split_at_first (by simpa using h) (by simpa using h') hrev
  exact ⟨List.reverse_injective hxs,List.reverse_injective hys⟩

end Delimiters

theorem toDigits_injective {a b : Nat} (h : Nat.toDigits 10 a = Nat.toDigits 10 b) : a = b := by
  simpa using congrArg (fun ds => Nat.ofDigitChars 10 ds 0) h

theorem notMem_toDigits {c : Char} (hc : c.isDigit = false) (n : Nat) :
    c ∉ Nat.toDigits 10 n := by
  intro h
  rw [Nat.isDigit_of_mem_toDigits (by decide) (by decide) h] at hc
  cases hc

theorem toList_toString_sid (sid : UInt32) : (toString sid).toList = Nat.toDigits 10 sid.toNat := by
  show (toString sid.toNat).toList = _
  rw [Nat.toString_eq_repr,Nat.toList_repr]

theorem toList_toString_rev (rev : UInt16) : (toString rev).toList = Nat.toDigits 10 rev.toNat := by
  show (toString rev.toNat).toList = _
  rw [Nat.toString_eq_repr,Nat.toList_repr]

theorem protocolToString_injective {p q : Protocol}
    (h : protocolToString p = protocolToString q) : p = q := by
  cases p <;> cases q <;> first | rfl | exact absurd h (by decide)

theorem notMem_protocolToString (p : Protocol) : '\x7b' ∉ (protocolToString p).toList := by
  cases p <;> decide

def Action.isLogged (a : Action) : Prop := a = .alert ∨ a = .drop

theorem actionToString_injective {a b : Action} (ha : a.isLogged) (hb : b.isLogged)
    (h : actionToString a = actionToString b) : a = b := by
  rcases ha with rfl | rfl <;> rcases hb with rfl | rfl <;>
    first | rfl | exact absurd h (by decide)

theorem notMem_actionToString {a : Action} (ha : a.isLogged) :
    ' ' ∉ (actionToString a).toList := by
  rcases ha with rfl | rfl <;> decide

theorem formatLog_toList (sig : Signature) :
    (formatLog sig).toList =
      '[' :: (Nat.toDigits 10 sig.metaData.sid.toNat ++ ':' ::
        (Nat.toDigits 10 sig.metaData.rev.toNat ++ ']' ::
          (((' ' :: sig.metaData.msg.toList) ++ ' ' :: (actionToString sig.action).toList) ++ [' ']
            ++ '\x7b' :: ((protocolToString sig.protocol).toList ++ ['\x7d'])))) := by
  simp [formatLog,sidRevToString,toList_toString_sid,toList_toString_rev]

structure Identified (sig sig' : Signature) : Prop where
  metaData : sig.metaData = sig'.metaData
  action : sig.action = sig'.action
  protocol : sig.protocol = sig'.protocol

theorem formatLog_injective {sig sig' : Signature} (ha : sig.action.isLogged)
    (ha' : sig'.action.isLogged) (h : formatLog sig = formatLog sig') : Identified sig sig' := by
  have hlist := congrArg String.toList h
  rw [formatLog_toList,formatLog_toList] at hlist
  -- from the left: the numerals end at the first colon and the first bracket
  obtain ⟨hsid,hlist⟩ := eq_of_split_at_first (notMem_toDigits (by decide) _)
    (notMem_toDigits (by decide) _) (List.cons.inj hlist).2
  obtain ⟨hrev,hlist⟩ := eq_of_split_at_first (notMem_toDigits (by decide) _)
    (notMem_toDigits (by decide) _) hlist
  -- from the right: the protocol starts at the last brace, the action at the last blank
  obtain ⟨hlist,hprotocol⟩ := eq_of_split_at_last
    (by simpa using notMem_protocolToString sig.protocol)
    (by simpa using notMem_protocolToString sig'.protocol) hlist
  obtain ⟨hmsg,haction⟩ := eq_of_split_at_last (notMem_actionToString ha)
    (notMem_actionToString ha') (List.append_cancel_right hlist)
  have hm : sig.metaData = sig'.metaData := by
    have hsid' := UInt32.toNat_inj.mp (toDigits_injective hsid)
    have hrev' := UInt16.toNat_inj.mp (toDigits_injective hrev)
    have hmsg' := String.toList_injective (List.cons.inj hmsg).2
    cases hs : sig.metaData
    cases hs' : sig'.metaData
    simp_all
  exact ⟨hm,actionToString_injective ha ha' (String.toList_injective haction),
    protocolToString_injective (String.toList_injective (List.append_cancel_right hprotocol))⟩

theorem logRecord_of_isLogged {sig : Signature} (ha : sig.action.isLogged) :
    logRecord sig = formatLog sig := by
  unfold logRecord
  rcases ha with h | h <;> rw [h]

theorem handle_log_eq {sigs : List Signature} (h : ∀ sig ∈ sigs, sig.action.isLogged) :
    (handle sigs).2 = sigs.map formatLog := by
  rw [handle_eq]
  exact List.map_congr_left (fun sig hsig => logRecord_of_isLogged (h sig hsig))

theorem identified_of_map_eq {sigs sigs' : List Signature}
    (h : ∀ sig ∈ sigs, sig.action.isLogged) (h' : ∀ sig ∈ sigs', sig.action.isLogged)
    (heq : sigs.map formatLog = sigs'.map formatLog) : List.Forall₂ Identified sigs sigs' := by
  induction sigs generalizing sigs' with
  | nil =>
    cases sigs' with
    | nil => exact .nil
    | cons sig' sigs' => cases heq
  | cons sig sigs ih =>
    cases sigs' with
    | nil => cases heq
    | cons sig' sigs' =>
      obtain ⟨hrecord,hrest⟩ := List.cons.inj heq
      exact .cons (formatLog_injective (h sig (by simp)) (h' sig' (by simp)) hrecord)
        (ih (fun s hs => h s (by simp [hs])) (fun s hs => h' s (by simp [hs])) hrest)

/-- One record for each signature in order, and equal logs come from lists that agree
position by position. -/
theorem log_identifies_detections (sigs sigs' : List Signature)
    (h : ∀ sig ∈ sigs, sig.action.isLogged) (h' : ∀ sig ∈ sigs', sig.action.isLogged) :
    (handle sigs).2 = sigs.map formatLog ∧
    ((handle sigs).2 = (handle sigs').2 → List.Forall₂ Identified sigs sigs') ∧
    ∀ sig ∈ sigs, ∀ sig' ∈ sigs', formatLog sig = formatLog sig' → Identified sig sig' := by
  refine ⟨handle_log_eq h,?_,?_⟩
  · intro heq
    rw [handle_log_eq h,handle_log_eq h'] at heq
    exact identified_of_map_eq h h' heq
  · intro sig hsig sig' hsig' heq
    exact formatLog_injective (h sig hsig) (h' sig' hsig') heq

def misleadingSignature (patterns : StdMap String PatternType) : Signature :=
  ⟨.alert,.btp,⟨"5:1] drop \x7bGeoNetworking\x7d",4294967295,1⟩,patterns⟩

def hopLimitThree : StdMap String PatternType := (∅ : StdMap String PatternType).insert "mhl" (.int 3)

/-- Two rules that differ in nothing but their patterns have the same record. -/
theorem log_identifies_misleading :
    (handle [misleadingSignature ∅]).2 =
      ["[4294967295:1] 5:1] drop \x7bGeoNetworking\x7d alert \x7bBTP\x7d"] ∧
    List.Forall₂ Identified [misleadingSignature ∅] [misleadingSignature hopLimitThree] := by
  have hlogged : ∀ patterns, ∀ sig ∈ [misleadingSignature patterns], sig.action.isLogged := by
    intro patterns sig hsig
    rw [List.mem_singleton.mp hsig]
    exact .inl rfl
  have h := log_identifies_detections [misleadingSignature ∅] [misleadingSignature hopLimitThree]
    (hlogged _) (hlogged _)
  exact ⟨by decide,h.2.1 rfl⟩

end Mitvane

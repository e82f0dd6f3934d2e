import Mitvane.PerSequence

set_option autoImplicit false

namespace Mitvane.Per
open PartialRun BitString

noncomputable def sequenceCode (extensible : Bool) (root added : List (Member × Option Value)) :
    List Bool :=
  (if extensible then [decide (announcedAdditions added ≠ 0)] else []) ++
    (optionals root ++ ((root.flatMap fun p => p.1.sent p.2) ++
      if announcedAdditions added = 0 then [] else additionsCode added))

/-- The structure as the compiler writes it, about these members of its root. -/
structure Described (specs : SequenceSpecs) (root : List (Member × Option Value)) : Prop where
  members : specs.root = root.map Prod.fst
  roms : specs.roms = specs.root.findIdxs (·.optional)

theorem length_optionals (root : List (Member × Option Value)) (start : Nat) :
    (optionals root).length = ((root.map Prod.fst).findIdxs (·.optional) start).length := by
  induction root generalizing start with
  | nil => rfl
  | cons p rest ih =>
    rw [List.map_cons,List.findIdxs_cons]
    by_cases hopt : p.1.optional = true
    · rw [if_pos hopt,optionals_optional hopt,List.length_cons,List.length_cons,ih]
    · rw [if_neg hopt,optionals_mandatory hopt,ih]

section Structure
variable {stack : Tmpspace} {specs : SequenceSpecs} {root : List (Member × Option Value)}
  {members : List (Option Value)}

theorem putExtensionBit_emits {added : List (Member × Option Value)}
    (h : ∀ p ∈ added, ∀ v, p.2 = some v → p.1.Encodes v)
    (hnone : specs.additions = none → added = []) :
    Put.Emits (putExtensionBit stack specs added)
      (if specs.additions.isSome then [decide (announcedAdditions added ≠ 0)] else [])
      (announcedAdditions added) := by
  unfold putExtensionBit
  cases hadd : specs.additions with
  | none =>
    have hnil := hnone hadd
    subst hnil
    exact .pure 0
  | some additions =>
    have hcount := handleExtensions_announced stack false false h
    simp only [Bool.false_eq_true,if_false,List.append_nil] at hcount
    have hempty : (added.flatMap fun _ => ([] : List Bool)) = [] := by
      rw [List.flatMap_eq_nil_iff]
      exact fun _ _ => rfl
    rw [hempty] at hcount
    have hbit : Put.Emits (asnPutFewBits (if announcedAdditions added = 0 then 0 else 1) 1)
        [decide (announcedAdditions added ≠ 0)] () := by
      rw [← ofNat_one]
      have htoNat : (decide (announcedAdditions added ≠ 0)).toNat =
          if announcedAdditions added = 0 then 0 else 1 := by
        by_cases hzero : announcedAdditions added = 0
        · simp [hzero]
        · simp [hzero]
      rw [htoNat]
      exact asnPutFewBits_emits (by decide)
    have hwrite : Put.Emits (asnPutFewBits (if announcedAdditions added = 0 then 0 else 1) 1 >>=
        fun _ => pure (announcedAdditions added)) [decide (announcedAdditions added ≠ 0)]
        (announcedAdditions added) := by
      exact hbit.bind_last (.pure _)
    exact hcount.bind hwrite

theorem sequenceEncodeUper_emits (hd : Described specs root)
    {added : List (Member × Option Value)} (hadd : specs.additions.getD [] = added.map Prod.fst)
    (hroot : List.Forall₂ (fun p m => p.1.Receives p.2 m) root members)
    (hadded : ∀ p ∈ added, ∀ v, p.2 = some v → p.1.Encodes v)
    (hlen : announcedAdditions added ≠ 0 → added.length ≤ 64) :
    Put.Emits (sequenceEncodeUper stack specs (root.map Prod.snd ++ added.map Prod.snd))
      (sequenceCode specs.additions.isSome root added) () := by
  have hnone : specs.additions = none → added = [] := by
    intro hnone
    rw [hnone,Option.getD_none] at hadd
    exact List.map_eq_nil_iff.mp hadd.symm
  have hcount : specs.root.length = (root.map Prod.snd).length := by
    rw [hd.members,List.length_map,List.length_map]
  have hzip : ∀ l : List (Member × Option Value), (l.map Prod.fst).zip (l.map Prod.snd) = l := by
    intro l
    rw [List.zip_map']
    simp
  have hfirst : specs.root.zip ((root.map Prod.snd ++ added.map Prod.snd).take specs.root.length) =
      root := by
    rw [List.take_left' hcount.symm,hd.members,hzip]
  have hsecond : (specs.additions.getD []).zip
      ((root.map Prod.snd ++ added.map Prod.snd).drop specs.root.length) = added := by
    rw [List.drop_left' hcount.symm,hadd,hzip]
  have hpresence : Put.Emits (putPresence specs.elements
      (root.map Prod.snd ++ added.map Prod.snd) specs.roms) (optionals root) () := by
    rw [hd.roms,hd.members]
    refine putPresence_emits 0 fun i p hp => ?_
    obtain ⟨hi,_⟩ := List.getElem?_eq_some_iff.mp hp
    rw [Nat.zero_add,SequenceSpecs.elements,hd.members]
    constructor
    · rw [List.getElem?_append_left (by simpa using hi),List.getElem?_map,hp]
      rfl
    · rw [List.getElem?_append_left (by simpa using hi),List.getElem?_map,hp]
      rfl
  unfold sequenceEncodeUper sequenceCode
  simp only [hfirst,hsecond]
  refine (putExtensionBit_emits hadded hnone).bind (hpresence.bind ((putMembers_emits hroot).bind ?_))
  by_cases hzero : announcedAdditions added = 0
  · rw [if_pos hzero,if_pos hzero]
    exact .pure ()
  · rw [if_neg hzero,if_neg hzero]
    exact putExtensions_emits hadded (hlen hzero) hzero

/-- What fills the place of a member that is not there. -/
def Member.filler (elm : Member) : Option Value :=
  if elm.cleared = none then elm.defaultValueSet else none

/-- The default values of absent additions. -/
def withDefaults (fillers : List (Option Value)) : List Nat → List (Option Value) →
    List (Option Value)
  | [], members => members
  | edx :: rest, members =>
    match members[edx]? with
    | some none => withDefaults fillers rest (members.set edx (fillers.getD edx none))
    | _ => withDefaults fillers rest members

theorem set_self {α : Type} {l : List α} {i : Nat} {a : α} (h : l[i]? = some a) : l.set i a = l := by
  obtain ⟨hlt,rfl⟩ := List.getElem?_eq_some_iff.mp h
  exact List.set_getElem_self hlt

theorem withDefaults_none {fillers : List (Option Value)} {edx : Nat} {rest : List Nat}
    {members : List (Option Value)} (h : members[edx]? = some none) :
    withDefaults fillers (edx :: rest) members =
      withDefaults fillers rest (members.set edx (fillers.getD edx none)) := by
  rw [withDefaults,h]

theorem withDefaults_some {fillers : List (Option Value)} {edx : Nat} {rest : List Nat}
    {members : List (Option Value)} {v : Value} (h : members[edx]? = some (some v)) :
    withDefaults fillers (edx :: rest) members = withDefaults fillers rest members := by
  rw [withDefaults,h]

theorem setDefaults_accepts {elements : List Member} {aoms : List Nat}
    (h : ∀ edx ∈ aoms, edx < elements.length) {members : List (Option Value)}
    (hlen : members.length = elements.length) :
    Get.Accepts (setDefaults elements aoms members) []
      (withDefaults (elements.map Member.filler) aoms members) := by
  induction aoms generalizing members with
  | nil => exact .pure members
  | cons edx rest ih =>
    have hedx := h edx (by simp)
    have hrest : ∀ e ∈ rest, e < elements.length := fun e he => h e (List.mem_cons_of_mem edx he)
    have helm := List.getElem?_eq_getElem hedx
    have hm := List.getElem?_eq_getElem (l := members) (i := edx) (by omega)
    have hfiller : (elements.map Member.filler).getD edx none = elements[edx].filler := by
      rw [List.getD_eq_getElem?_getD,List.getElem?_map,helm]
      rfl
    unfold setDefaults
    refine (Get.Accepts.check (slot_eq helm)).bind_last ?_
    refine (Get.Accepts.check (slot_eq hm)).bind_last ?_
    generalize elements[edx] = elm at hfiller
    generalize members[edx] = m at hm
    cases m with
    | none =>
      rw [withDefaults_none hm,hfiller,Member.filler]
      by_cases hset : elm.defaultValueSet.isSome = true ∧ elm.cleared = none
      · rw [if_pos ⟨hset.1,hset.2,rfl⟩,if_pos hset.2]
        exact ih hrest (by rw [List.length_set,hlen])
      · have hsame : members.set edx (if elm.cleared = none then elm.defaultValueSet else none) =
            members := by
          have hnone : (if elm.cleared = none then elm.defaultValueSet else none) = none := by
            split
            · rename_i hcleared
              cases hdefault : elm.defaultValueSet with
              | none => rfl
              | some v => exact absurd ⟨by rw [hdefault]; rfl,hcleared⟩ hset
            · rfl
          rw [hnone]
          exact set_self hm
        rw [if_neg (fun hbad => hset ⟨hbad.1,hbad.2.1⟩),hsame]
        exact ih hrest hlen
    | some v =>
      rw [withDefaults_some hm,if_neg (fun hbad => Option.some_ne_none v hbad.2.2)]
      exact ih hrest hlen

theorem optionalMap_accepts (hd : Described specs root) : ∃ map : BitData, map.Valid ∧
    map.rest = optionals root ∧ Get.Accepts (optionalMap specs) (optionals root) map := by
  have hlen : specs.roms.length = (optionals root).length := by
    rw [hd.roms,hd.members,length_optionals root 0]
  unfold optionalMap
  by_cases hzero : specs.roms.length = 0
  · have hnil : optionals root = [] := List.eq_nil_of_length_eq_zero (by omega)
    rw [if_pos hzero,hnil]
    exact ⟨⟨[],0,0,0⟩,⟨Nat.le_refl _,Nat.le_refl _⟩,rfl,.pure _⟩
  · rw [if_neg hzero,hlen]
    refine presenceMap_accepts (optionals root) ?_
    rw [Nat.shiftRight_eq_div_pow]
    omega

theorem sequenceDecodeUper_closed (hd : Described specs root) (hadd : specs.additions = none)
    (hroot : List.Forall₂ (fun p m => p.1.Receives p.2 m) root members) :
    Get.Accepts (sequenceDecodeUper specs) (sequenceCode false root []) members := by
  obtain ⟨map,hv,hmap,haccepts⟩ := optionalMap_accepts hd
  have hbit : Get.Accepts (extensionBit specs) [] 0 := by
    unfold extensionBit
    rw [hadd]
    exact .pure 0
  have hmembers := getMembers_accepts hroot hv hmap
  rw [← hd.members] at hmembers
  unfold sequenceDecodeUper sequenceCode
  refine hbit.bind (haccepts.bind (hmembers.bind ?_))
  rw [hadd]
  exact .pure _

section Versions
variable {known unknown : List (Member × Option Value)} {kept : List (Option Value)}
  {more : List Member}

theorem sequenceDecodeUper_eq (hadd : specs.additions = some (known.map Prod.fst ++ more)) :
    sequenceDecodeUper specs = (do
      let extpresent ← getBits 1
      let opmd ← optionalMap specs
      let members ← getMembers specs.root opmd
      let added ← getAdded (known.map Prod.fst ++ more) extpresent
      setDefaults specs.elements specs.aoms (members ++ added)) := by
  unfold sequenceDecodeUper extensionBit
  rw [hadd]
  rfl

theorem announced_length {added : List (Member × Option Value)}
    (h : announcedAdditions added ≠ 0) : 0 < added.length := by
  unfold announcedAdditions at h
  split at h
  · exact absurd rfl h
  · exact Nat.pos_of_ne_zero h

theorem getExtensions_front (hone : more = [] ∨ unknown = [])
    (hknown : List.Forall₂ (fun p m => p.1.Keeps p.2 m) known kept)
    (hpos : 0 < (known ++ unknown).length) (hlen : (known ++ unknown).length ≤ 64) :
    ∃ epmd : BitData, epmd.Valid ∧ epmd.rest = unknown.map (·.2.isSome) ∧
      (Get.Accepts (skipOverflow ((known ++ unknown).length+1) epmd)
          (unknown.flatMap fun p => p.1.field p.2) () →
        Get.Accepts (getExtensions (known.map Prod.fst ++ more)) (additionsCode (known ++ unknown))
          (kept ++ more.map (·.cleared))) ∧
      (Get.Refuses (skipOverflow ((known ++ unknown).length+1) epmd)
          (unknown.flatMap fun p => p.1.field p.2) →
        Get.Refuses (getExtensions (known.map Prod.fst ++ more))
          (additionsCode (known ++ unknown))) := by
  have hlength := @uperGetNslength_small ((known ++ unknown).length-1) (by omega)
  rw [Nat.sub_add_cancel hpos] at hlength
  obtain ⟨map,hv,hmap,hread⟩ := @presenceMap_accepts
    ((known ++ unknown).map (·.2.isSome)) (((known ++ unknown).length+15) >>> 3) (by
      rw [List.length_map,Nat.shiftRight_eq_div_pow]
      omega)
  rw [List.length_map] at hread
  rw [List.map_append] at hmap
  have htail : more = [] ∨ unknown.map (·.2.isSome) = [] := by
    rcases hone with hone | hone
    · exact .inl hone
    · exact .inr (by rw [hone,List.map_nil])
  obtain ⟨epmd,hv',hrest,hadditions⟩ := getAdditions_accepts htail hknown hv hmap
  refine ⟨epmd,hv',hrest,?_,?_⟩
  · intro hskip
    unfold getExtensions additionsCode
    rw [List.flatMap_append]
    refine hlength.bind (hread.bind (hadditions.bind ?_))
    exact hskip.bind_last (.pure _)
  · intro hskip
    unfold getExtensions additionsCode
    rw [List.flatMap_append]
    refine hlength.bind_refuses (hread.bind_refuses (hadditions.bind_refuses ?_))
    exact hskip.bind _

theorem kept_of_absent {added : List (Member × Option Value)}
    (h : announcedAdditions added = 0) : ∀ p ∈ added, p.2 = none := by
  intro p hp
  unfold announcedAdditions at h
  split at h
  · rename_i hcount
    have hnot := List.countP_eq_zero.mp hcount p hp
    simpa using hnot
  · rw [List.eq_nil_of_length_eq_zero h] at hp
    cases hp

theorem keeps_of_absent {added : List (Member × Option Value)} {members : List (Option Value)}
    (h : List.Forall₂ (fun p m => p.1.Keeps p.2 m) added members) (hnone : ∀ p ∈ added, p.2 = none) :
    members = added.map (·.1.cleared) := by
  induction h with
  | nil => rfl
  | @cons p m rest members hfirst _ ih =>
    obtain ⟨elm,given⟩ := p
    obtain ⟨hgiven,hrest⟩ := List.forall_mem_cons.mp hnone
    rw [ih hrest,List.map_cons]
    cases hfirst with
    | sent _ => cases hgiven
    | absent => rfl

/-- The reader gets what it knows of the structure if it can pass over the rest, and fails
otherwise. -/
theorem sequenceDecodeUper_outcome (stack : Tmpspace) (hd : Described specs root)
    (hadd : specs.additions = some (known.map Prod.fst ++ more))
    (haoms : ∀ edx ∈ specs.aoms, edx < specs.elements.length)
    (hroot : List.Forall₂ (fun p m => p.1.Receives p.2 m) root members)
    (hone : more = [] ∨ unknown = [])
    (hknown : List.Forall₂ (fun p m => p.1.Keeps p.2 m) known kept)
    (hunknown : ∀ p ∈ unknown, ∀ v, p.2 = some v → p.1.Encodes v)
    (hlen : announcedAdditions (known ++ unknown) ≠ 0 → (known ++ unknown).length ≤ 64) :
    ((∀ p ∈ unknown, ∀ v, p.2 = some v → p.1.Skippable v stack) →
      Get.Accepts (sequenceDecodeUper specs) (sequenceCode true root (known ++ unknown))
        (withDefaults (specs.elements.map Member.filler) specs.aoms
          (members ++ (kept ++ more.map (·.cleared))))) ∧
    ((∃ p ∈ unknown, ∃ v, p.2 = some v ∧ ¬ p.1.Skippable v stack) →
      Get.Refuses (sequenceDecodeUper specs) (sequenceCode true root (known ++ unknown))) := by
  obtain ⟨map,hv,hmap,hread⟩ := optionalMap_accepts hd
  have hmembers := getMembers_accepts hroot hv hmap
  rw [← hd.members] at hmembers
  have hcount : (members ++ (kept ++ more.map (·.cleared))).length = specs.elements.length := by
    simp only [SequenceSpecs.elements,hadd,hd.members,Option.getD_some,List.length_append,
      List.length_map,hroot.length_eq,hknown.length_eq]
  have hdefaults := setDefaults_accepts haoms hcount
  have hbit : ∀ b : Bool, Get.Accepts (getBits 1) [b] b.toNat := by
    intro b
    rw [← ofNat_one]
    exact getBits_accepts (by decide) (by cases b <;> decide)
  rw [sequenceDecodeUper_eq hadd]
  unfold sequenceCode
  rw [if_pos rfl]
  by_cases hzero : announcedAdditions (known ++ unknown) = 0
  · have habsent := kept_of_absent hzero
    have hkept : (known.map Prod.fst ++ more).map (·.cleared) = kept ++ more.map (·.cleared) := by
      rw [List.map_append,List.map_map,
        keeps_of_absent hknown fun p hp => habsent p (List.mem_append_left _ hp)]
      rfl
    constructor
    · intro _
      refine (hbit _).bind (hread.bind (hmembers.bind ?_))
      rw [if_pos hzero]
      unfold getAdded
      simp only [hzero,ne_eq,not_true_eq_false,decide_false,Bool.toNat_false,if_true]
      rw [hkept]
      exact (Get.Accepts.pure _).bind hdefaults
    · intro hbad
      obtain ⟨p,hp,v,hpv,_⟩ := hbad
      rw [habsent p (List.mem_append_right _ hp)] at hpv
      cases hpv
  · have hpresent : (decide (announcedAdditions (known ++ unknown) ≠ 0)).toNat = 1 := by
      simp [hzero]
    obtain ⟨epmd,hv',hrest,hfront,hback⟩ :=
      getExtensions_front hone hknown (announced_length hzero) (hlen hzero)
    have hfuel : unknown.length < (known ++ unknown).length+1 := by
      rw [List.length_append]
      omega
    constructor
    · intro hskip
      refine (hbit _).bind (hread.bind (hmembers.bind ?_))
      rw [if_neg hzero,hpresent]
      have hgot := hfront (skipOverflow_accepts stack
        (fun p hp v hpv => ⟨hunknown p hp v hpv,hskip p hp v hpv⟩) hv' hrest _ hfuel)
      exact hgot.bind_last hdefaults
    · intro hbad
      refine (hbit _).bind_refuses (hread.bind_refuses (hmembers.bind_refuses ?_))
      rw [if_neg hzero,hpresent]
      have hlost := hback (skipOverflow_refuses stack hunknown hbad hv' hrest _ hfuel)
      exact hlost.bind _

end Versions

end Structure

theorem sequence_emits (stack : Tmpspace) {specs : SequenceSpecs}
    {root added : List (Member × Option Value)} {members : List (Option Value)}
    (hd : Described specs root) (hadd : specs.additions.getD [] = added.map Prod.fst)
    (hroot : List.Forall₂ (fun p m => p.1.Receives p.2 m) root members)
    (hadded : ∀ p ∈ added, ∀ v, p.2 = some v → p.1.Encodes v)
    (hlen : announcedAdditions added ≠ 0 → added.length ≤ 64)
    (constraints : Option PerConstraints) :
    Put.Emits ((sequence stack specs).uperEncoder constraints
      (.struct (root.map Prod.snd ++ added.map Prod.snd)))
      (sequenceCode specs.additions.isSome root added) () := by
  have hcount : (root.map Prod.snd ++ added.map Prod.snd).length = specs.elements.length := by
    simp only [SequenceSpecs.elements,hadd,hd.members,List.length_append,List.length_map]
  unfold sequence
  simp only [if_pos hcount]
  exact sequenceEncodeUper_emits hd hadd hroot hadded hlen

theorem sequence_accepts (stack : Tmpspace) {specs : SequenceSpecs} {code : List Bool}
    {members : List (Option Value)} (h : Get.Accepts (sequenceDecodeUper specs) code members)
    (constraints : Option PerConstraints) :
    Get.Accepts ((sequence stack specs).uperDecoder constraints) code (.struct members,0) :=
  h.bind_last (.pure _)

theorem sequence_refuses (stack : Tmpspace) {specs : SequenceSpecs} {code : List Bool}
    (h : Get.Refuses (sequenceDecodeUper specs) code) (constraints : Option PerConstraints) :
    Get.Refuses ((sequence stack specs).uperDecoder constraints) code :=
  h.bind _

theorem sequence_carries {stack : Tmpspace} {specs : SequenceSpecs}
    {root added : List (Member × Option Value)} {members kept : List (Option Value)}
    (hd : Described specs root) (hadd : specs.additions.getD [] = added.map Prod.fst)
    (haoms : ∀ edx ∈ specs.aoms, edx < specs.elements.length)
    (hroot : List.Forall₂ (fun p m => p.1.Receives p.2 m) root members)
    (hadded : List.Forall₂ (fun p m => p.1.Keeps p.2 m) added kept)
    (hlen : announcedAdditions added ≠ 0 → added.length ≤ 64)
    (hclosed : specs.additions = none → specs.aoms = [])
    (constraints : Option PerConstraints) :
    (sequence stack specs).Carries constraints
      (.struct (root.map Prod.snd ++ added.map Prod.snd))
      (.struct (withDefaults (specs.elements.map Member.filler) specs.aoms (members ++ kept))) := by
  refine ⟨0,_,sequence_emits stack hd hadd hroot (encodes_of_keeps hadded) hlen constraints,
    sequence_accepts stack ?_ constraints⟩
  cases hsome : specs.additions with
  | none =>
    rw [hsome,Option.getD_none] at hadd
    have hnil := List.map_eq_nil_iff.mp hadd.symm
    subst hnil
    cases hadded
    rw [hclosed hsome,List.append_nil]
    exact sequenceDecodeUper_closed hd hsome hroot
  | some additions =>
    rw [hsome,Option.getD_some] at hadd
    subst hadd
    have hread := (@sequenceDecodeUper_outcome _ _ _ added [] _ [] stack hd
      (by rw [hsome,List.append_nil]) haoms hroot (.inl rfl) hadded (fun p hp => nomatch hp)
      (by rw [List.append_nil]; exact hlen)).1 (fun p hp => nomatch hp)
    rw [List.append_nil,List.map_nil,List.append_nil] at hread
    exact hread

/-- A message of another version: what the reader does not know it has to pass over, and it
can do that only with fields of whole groups of three octets and with a single zero
octet. -/
theorem other_version_decoded_iff {stack : Tmpspace} {writer reader : SequenceSpecs}
    {root known unknown : List (Member × Option Value)} {members kept : List (Option Value)}
    {more : List Member} (hwriter : Described writer root) (hreader : Described reader root)
    (hsent : writer.additions = some ((known ++ unknown).map Prod.fst))
    (hread : reader.additions = some (known.map Prod.fst ++ more))
    (haoms : ∀ edx ∈ reader.aoms, edx < reader.elements.length)
    (hroot : List.Forall₂ (fun p m => p.1.Receives p.2 m) root members)
    (hone : more = [] ∨ unknown = [])
    (hknown : List.Forall₂ (fun p m => p.1.Keeps p.2 m) known kept)
    (hunknown : ∀ p ∈ unknown, ∀ v, p.2 = some v → p.1.Encodes v)
    (hlen : announcedAdditions (known ++ unknown) ≠ 0 → (known ++ unknown).length ≤ 64)
    (constraints : Option PerConstraints) :
    ∃ bytes, encodePer stack ((sequence stack writer).uperEncoder constraints
        (.struct (root.map Prod.snd ++ (known ++ unknown).map Prod.snd))) = .ok (some bytes) ∧
      (decodePer ((sequence stack reader).uperDecoder constraints) bytes =
        .ok (some (.struct (withDefaults (reader.elements.map Member.filler) reader.aoms
          (members ++ (kept ++ more.map (·.cleared)))),0)) ↔
            ∀ p ∈ unknown, ∀ v, p.2 = some v → p.1.Skippable v stack) ∧
      (decodePer ((sequence stack reader).uperDecoder constraints) bytes = .ok none ↔
          ∃ p ∈ unknown, ∃ v, p.2 = some v ∧ ¬ p.1.Skippable v stack) := by
  have hall : ∀ p ∈ known ++ unknown, ∀ v, p.2 = some v → p.1.Encodes v := by
    intro p hp v hv
    rcases List.mem_append.mp hp with hp | hp
    · exact encodes_of_keeps hknown p hp v hv
    · exact hunknown p hp v hv
  have hemits := sequence_emits stack hwriter (by rw [hsent,Option.getD_some])
    hroot hall hlen constraints
  obtain ⟨hgood,hbad⟩ := sequenceDecodeUper_outcome stack hreader hread haoms hroot hone
    hknown hunknown hlen
  rw [hsent] at hemits
  have hpos : 0 < (sequenceCode true root (known ++ unknown)).length := by
    unfold sequenceCode
    rw [if_pos rfl,List.length_append,List.length_singleton]
    omega
  refine ⟨_,encodePer_eq hemits stack,?_⟩
  simp only [Option.isSome_some]
  have hdecoded := fun hskip => decodePer_accepts
    (sequence_accepts stack (hgood hskip) constraints) hpos []
  have hlost := fun hnot => decodePer_refuses (sequence_refuses stack (hbad hnot) constraints) []
  simp only [List.append_nil] at hdecoded hlost
  constructor
  · refine ⟨fun hrun => ?_,hdecoded⟩
    by_contra hnot
    push Not at hnot
    rw [hlost hnot] at hrun
    cases hrun
  · refine ⟨fun hrun => ?_,hlost⟩
    by_contra hnot
    push Not at hnot
    rw [hdecoded hnot] at hrun
    cases hrun

def flags (additions : List Member) : SequenceSpecs :=
  ⟨[Member.flag false,Member.flag true],some additions,[1],[]⟩

theorem other_version_decoded_iff_flag :
    ∃ bytes, encodePer zeroStack ((sequence zeroStack
        (flags [Member.flag true,Member.flag true,Member.flag true])).uperEncoder none
          (.struct [some (.boolean true),none,some (.boolean false),none,some (.boolean true)])) =
        .ok (some bytes) ∧
      (decodePer ((sequence zeroStack (flags [Member.flag true])).uperDecoder none) bytes =
        .ok (some (.struct [some (.boolean true),none,some (.boolean false)],0)) ↔
            ∀ p ∈ [(Member.flag true,none),(Member.flag true,some (Value.boolean true))],
              ∀ v, p.2 = some v → p.1.Skippable v zeroStack) ∧
      (decodePer ((sequence zeroStack (flags [Member.flag true])).uperDecoder none) bytes =
          .ok none ↔
        ∃ p ∈ [(Member.flag true,none),(Member.flag true,some (Value.boolean true))],
          ∃ v, p.2 = some v ∧ ¬ p.1.Skippable v zeroStack) :=
  @other_version_decoded_iff zeroStack (flags [Member.flag true,Member.flag true,Member.flag true])
    (flags [Member.flag true])
    [(Member.flag false,some (.boolean true)),(Member.flag true,none)]
    [(Member.flag true,some (.boolean false))]
    [(Member.flag true,none),(Member.flag true,some (.boolean true))]
    [some (.boolean true),none] [some (.boolean false)] []
    ⟨rfl,rfl⟩ ⟨rfl,rfl⟩ rfl rfl (fun _ hp => nomatch hp)
    (.cons (.sent rfl (Member.flag_codes false true)) (.cons (.absent rfl rfl) .nil))
    (.inl rfl) (.cons (.sent (Member.flag_codes true false)) .nil)
    (by simp [(Member.flag_codes true true).encodes]) (fun _ => by decide) none

end Mitvane.Per

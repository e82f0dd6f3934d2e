import Mitvane.DenmTypes

set_option autoImplicit false

namespace Mitvane.Its
open Per

/-- What stands after a field: nothing, a number, a number with its confidence, whether a
member is there, which alternative it is, or a number kept in octets. The last goes through a
variable that is not set before; the conversion says whether it set it, and nobody asks. -/
inductive Reading where
  | heading
  | number (path : List Nat)
  | confident (path confidence : List Nat)
  | presence (path : List Nat)
  | alternative (path : List Nat)
  | converted (path : List Nat) (unset : Int)

structure Row where
  level : Nat
  field : String
  reading : Reading

def numberAt (v : Value) (path : List Nat) : Except Per.Fault Int :=
  match member path v with
  | some (.native n) => .ok n
  | _ => .error .outOfBounds

def octetsAt (v : Value) (path : List Nat) : Except Per.Fault (List UInt8) :=
  match member path v with
  | some (.integer st) => .ok st
  | _ => .error .outOfBounds

def alternativeAt (v : Value) (path : List Nat) : Except Per.Fault (Nat × Value) :=
  match member path v with
  | some (.choice present w) => .ok (present,w)
  | _ => .error .outOfBounds

def Reading.print (v : Value) : Reading → Except Per.Fault String
  | .heading => .ok ""
  | .number path => do
    let n ← numberAt v path
    pure (toString n)
  | .confident path confidence => do
    let n ← numberAt v path
    let c ← numberAt v confidence
    pure (toString n ++ " [" ++ toString c ++ "]")
  | .presence path => .ok (if (member path v).isSome then "yes" else "no")
  | .alternative path => do
    let (present,_) ← alternativeAt v path
    pure (toString present)
  | .converted path unset => do
    let st ← octetsAt v path
    pure (toString ((asnINTEGER2long st).getD unset))

def Row.print (indent : String) (level : Nat) (v : Value) (row : Row) :
    Except Per.Fault String := do
  let text ← row.reading.print v
  pure (String.join (List.replicate (level+row.level) indent) ++ row.field ++ ": " ++ text)

def printRows (indent : String) (level : Nat) (v : Value) :
    List Row → Except Per.Fault (List String)
  | [] => .ok []
  | row :: rows => do
    let line ← row.print indent level v
    let lines ← printRows indent level v rows
    pure (line :: lines)

def headerRows : List Row :=
  [⟨0,"ITS PDU Header",.heading⟩,⟨1,"Protocol Version",.number [0,0]⟩,
   ⟨1,"Message ID",.number [0,1]⟩,⟨1,"Station ID",.number [0,2]⟩]

def camRows : List Row :=
  headerRows ++
  [⟨0,"CoopAwarensess",.heading⟩,⟨1,"Generation Delta Time",.number [1,0]⟩,
   ⟨1,"Basic Container",.heading⟩,⟨2,"Station Type",.number [1,1,0,0]⟩,
   ⟨2,"Reference Position",.heading⟩,⟨3,"Longitude",.number [1,1,0,1,1]⟩,
   ⟨3,"Latitude",.number [1,1,0,1,0]⟩,⟨3,"Semi Major Orientation",.number [1,1,0,1,2,2]⟩,
   ⟨3,"Semi Major Confidence",.number [1,1,0,1,2,0]⟩,
   ⟨3,"Semi Minor Confidence",.number [1,1,0,1,2,1]⟩,
   ⟨3,"Altitude [Confidence]",.confident [1,1,0,1,3,0] [1,1,0,1,3,1]⟩]

def vehicleRows : List Row :=
  [⟨2,"Heading [Confidence]",.confident [0,0] [0,1]⟩,
   ⟨2,"Speed [Confidence]",.confident [1,0] [1,1]⟩,⟨2,"Drive Direction",.number [2]⟩,
   ⟨2,"Longitudinal Acceleration",.number [5,0]⟩,
   ⟨2,"Vehicle Length [Confidence Indication]",.confident [3,0] [3,1]⟩,
   ⟨2,"Vehicle Width",.number [4]⟩,⟨2,"Curvature [Confidence]",.confident [6,0] [6,1]⟩,
   ⟨2,"Curvature Calculation Mode",.number [7]⟩,⟨2,"Yaw Rate [Confidence]",.confident [8,0] [8,1]⟩]

def camPrintIndented (indent : String) (level : Nat) (v : Value) :
    Except Per.Fault (List String) := do
  let basic ← printRows indent level v camRows
  let (present,bvc) ← alternativeAt v [1,1,1]
  let high ←
    if present = 1 then do
      let title ← printRows indent level v [⟨1,"High Frequency Container [Basic Vehicle]",.heading⟩]
      let vehicle ← printRows indent level bvc vehicleRows
      pure (title ++ vehicle)
    else printRows indent level v [⟨1,"High Frequency Container",.alternative [1,1,1]⟩]
  let low ← printRows indent level v [⟨1,"Low Frequency Container",.presence [1,1,2]⟩]
  pure (basic ++ high ++ low)

/-- `denm::print_indented`. The second time has the name of the first. -/
def denmRows (detectionTime referenceTime : Int) : List Row :=
  headerRows ++
  [⟨0,"DecentralizedEnvironmentalNotification",.heading⟩,⟨1,"Management Container",.heading⟩,
   ⟨2,"Action ID",.heading⟩,⟨3,"Originating Station ID",.number [1,0,0,0]⟩,
   ⟨3,"Sequence Number",.number [1,0,0,1]⟩,⟨2,"Detection Time",.converted [1,0,1] detectionTime⟩,
   ⟨2,"Detection Time",.converted [1,0,2] referenceTime⟩,⟨2,"Event Position",.heading⟩,
   ⟨3,"Altitude",.number [1,0,4,3,0]⟩,⟨3,"Altitude Confidence",.number [1,0,4,3,1]⟩,
   ⟨3,"Longitude",.number [1,0,4,1]⟩,⟨3,"Latitude",.number [1,0,4,0]⟩,
   ⟨3,"Semi Major Orientation",.number [1,0,4,2,2]⟩,
   ⟨3,"Semi Major Confidence",.number [1,0,4,2,0]⟩,
   ⟨3,"Semi Minor Confidence",.number [1,0,4,2,1]⟩]

def denmPrintIndented (detectionTime referenceTime : Int) (indent : String) (level : Nat)
    (v : Value) : Except Per.Fault (List String) :=
  printRows indent level v (denmRows detectionTime referenceTime)

def Reading.Says (v : Value) : Reading → String → Prop
  | .heading, text => text = ""
  | .number path, text => ∃ n, member path v = some (.native n) ∧ text = toString n
  | .confident path confidence, text => ∃ n c, member path v = some (.native n) ∧
      member confidence v = some (.native c) ∧ text = toString n ++ " [" ++ toString c ++ "]"
  | .presence path, text => text = if (member path v).isSome then "yes" else "no"
  | .alternative path, text => ∃ present w, member path v = some (.choice present w) ∧
      text = toString present
  | .converted path _, text => ∃ st n, member path v = some (.integer st) ∧
      asnINTEGER2long st = some n ∧ text = toString n

/-- The line names the field and says what the message has there. -/
def Row.Shows (indent : String) (level : Nat) (v : Value) (row : Row) (line : String) : Prop :=
  ∃ text, row.reading.Says v text ∧
    line = String.join (List.replicate (level+row.level) indent) ++ row.field ++ ": " ++ text

def hasNumber (type : Schema) (path : List Nat) : Bool :=
  (type.typeAt none path).any fun found => found.1.numeric

def keepsLong : Schema × Option PerConstraints → Bool
  | (.integer fieldUnsigned own,given) => (numberRange fieldUnsigned (chosen own given)).isSome
  | _ => false

def hasLong (type : Schema) (path : List Nat) : Bool := (type.typeAt none path).any keepsLong

def isChoice : Schema × Option PerConstraints → Bool
  | (.choice _ _ _,_) => true
  | _ => false

def hasChoice (type : Schema) (path : List Nat) : Bool := (type.typeAt none path).any isChoice

def hasOptional (type : Schema) (path : List Nat) : Bool :=
  match path.getLast?, type.typeAt none path.dropLast with
  | some i, some (.sequence root _ _ _ _,_) => (root.fieldAt i).any fun field =>
      field.2.defaultValueSet.isNone && field.2.defaultValueCmp.isNone
  | _, _ => false

def Reading.supported (type : Schema) : Reading → Bool
  | .heading => true
  | .number path => hasNumber type path
  | .confident path confidence => hasNumber type path && hasNumber type confidence
  | .presence path => hasOptional type path
  | .alternative path => hasChoice type path
  | .converted path _ => hasLong type path

section Printing
variable {type : Schema} {v : Value} {path : List Nat}

theorem numberAt_ok (h : type.WellFormed none v) (hpath : hasNumber type path = true) :
    ∃ n, member path v = some (.native n) ∧ numberAt v path = .ok n := by
  rw [hasNumber,Option.any_eq_true] at hpath
  obtain ⟨found,hat,hnumeric⟩ := hpath
  obtain ⟨w,hw,hwell⟩ := type.member_typeAt none path found.1 found.2 v hat h
  obtain ⟨n,rfl⟩ := hwell.native hnumeric
  exact ⟨n,hw,by rw [numberAt,hw]⟩

theorem octetsAt_ok (h : type.WellFormed none v) (hpath : hasLong type path = true) :
    ∃ st n, member path v = some (.integer st) ∧ octetsAt v path = .ok st ∧
      asnINTEGER2long st = some n := by
  rw [hasLong,Option.any_eq_true] at hpath
  obtain ⟨⟨at',given⟩,hat,hkeeps⟩ := hpath
  cases at' with
  | integer fieldUnsigned own =>
    obtain ⟨⟨lower,upper⟩,hrange⟩ := Option.isSome_iff_exists.mp hkeeps
    obtain ⟨st,n,hst,hlong,_⟩ := integerAt_of_range h hat hrange
    exact ⟨st,n,hst,by rw [octetsAt,hst],hlong⟩
  | _ => cases hkeeps

theorem alternativeAt_ok (h : type.WellFormed none v) (hpath : hasChoice type path = true) :
    ∃ present w, member path v = some (.choice present w) ∧
      alternativeAt v path = .ok (present,w) := by
  rw [hasChoice,Option.any_eq_true] at hpath
  obtain ⟨⟨at',given⟩,hat,hchoice⟩ := hpath
  cases at' with
  | choice elements specs own =>
    obtain ⟨_,hw,i,_,w,rfl,_⟩ := type.member_typeAt none path _ _ v hat h
    exact ⟨i+1,w,hw,by rw [alternativeAt,hw]⟩
  | _ => cases hchoice

def Reading.withUnset (n : Int) : Reading → Reading
  | .converted path _ => .converted path n
  | reading => reading

def Row.withUnset (n : Int) (row : Row) : Row := { row with reading := row.reading.withUnset n }

/-- A supported field is printed, and nothing but the message decides what is printed. -/
theorem Reading.print_ok (h : type.WellFormed none v) {reading : Reading}
    (hreading : reading.supported type = true) (n : Int) :
    ∃ text, reading.print v = .ok text ∧ (reading.withUnset n).print v = .ok text ∧
      reading.Says v text := by
  cases reading with
  | heading => exact ⟨_,rfl,rfl,rfl⟩
  | presence path => exact ⟨_,rfl,rfl,rfl⟩
  | number path =>
    obtain ⟨k,hmember,hk⟩ := numberAt_ok h hreading
    have hprint : (number path).print v = .ok (toString k) := by
      rw [print,hk]
      rfl
    exact ⟨_,hprint,hprint,k,hmember,rfl⟩
  | confident path confidence =>
    rw [supported,Bool.and_eq_true] at hreading
    obtain ⟨k,hmember,hk⟩ := numberAt_ok h hreading.1
    obtain ⟨c,hmember',hc⟩ := numberAt_ok h hreading.2
    have hprint : (confident path confidence).print v =
        .ok (toString k ++ " [" ++ toString c ++ "]") := by
      rw [print,hk,hc]
      rfl
    exact ⟨_,hprint,hprint,k,c,hmember,hmember',rfl⟩
  | alternative path =>
    obtain ⟨present,w,hmember,halternative⟩ := alternativeAt_ok h hreading
    have hprint : (alternative path).print v = .ok (toString present) := by
      rw [print,halternative]
      rfl
    exact ⟨_,hprint,hprint,present,w,hmember,rfl⟩
  | converted path unset =>
    obtain ⟨st,k,hmember,hst,hlong⟩ := octetsAt_ok h hreading
    have hprint : ∀ m, (converted path m).print v = .ok (toString k) := by
      intro m
      rw [print,hst,PartialRun.ok_bind,hlong]
      rfl
    exact ⟨_,hprint unset,hprint n,st,k,hmember,hlong,rfl⟩

theorem printRows_ok (h : type.WellFormed none v) (indent : String) (level : Nat) (n : Int)
    {rows : List Row} (hrows : (rows.all fun row => row.reading.supported type) = true) :
    ∃ lines, printRows indent level v rows = .ok lines ∧
      printRows indent level v (rows.map (Row.withUnset n)) = .ok lines ∧
      List.Forall₂ (Row.Shows indent level v) rows lines := by
  induction rows with
  | nil => exact ⟨[],rfl,rfl,.nil⟩
  | cons row rows ih =>
    rw [List.all_cons,Bool.and_eq_true] at hrows
    obtain ⟨text,htext,htext',htold⟩ := Reading.print_ok h hrows.1 n
    obtain ⟨lines,hlines,hlines',hshows⟩ := ih hrows.2
    have hrow : ∀ r : Row, r.level = row.level → r.field = row.field →
        r.reading.print v = .ok text → r.print indent level v = .ok (String.join
          (List.replicate (level+row.level) indent) ++ row.field ++ ": " ++ text) := by
      intro r hlevel hfield hprint
      rw [Row.print,hprint,hlevel,hfield]
      rfl
    refine ⟨(String.join (List.replicate (level+row.level) indent) ++ row.field ++ ": " ++ text) ::
      lines,?_,?_,.cons ⟨text,htold,rfl⟩ hshows⟩
    · rw [printRows,hrow row rfl rfl htext,hlines]
      rfl
    · rw [List.map_cons,printRows,hrow (row.withUnset n) rfl rfl htext',hlines']
      rfl

end Printing

theorem denmPrintIndented_ok {v : Value} (h : denm.WellFormed none v) (indent : String)
    (level : Nat) : ∃ lines, List.Forall₂ (Row.Shows indent level v) (denmRows 0 0) lines ∧
      ∀ detectionTime referenceTime,
        denmPrintIndented detectionTime referenceTime indent level v = .ok lines := by
  have hrows : ∀ detectionTime referenceTime, ((denmRows detectionTime referenceTime).all
      fun row => row.reading.supported denm) = true := fun _ _ => rfl
  obtain ⟨lines,hlines,_,hshows⟩ := printRows_ok h indent level 0 (hrows 0 0)
  refine ⟨lines,hshows,fun detectionTime referenceTime => ?_⟩
  obtain ⟨lines',hlines',hunset,_⟩ :=
    printRows_ok h indent level 0 (hrows detectionTime referenceTime)
  have hsame : (denmRows detectionTime referenceTime).map (Row.withUnset 0) = denmRows 0 0 := rfl
  rw [hsame,hlines] at hunset
  cases hunset
  exact hlines'

def Reading.under (front : List Nat) : Reading → Reading
  | .heading => .heading
  | .number path => .number (front ++ path)
  | .confident path confidence => .confident (front ++ path) (front ++ confidence)
  | .presence path => .presence (front ++ path)
  | .alternative path => .alternative (front ++ path)
  | .converted path unset => .converted (front ++ path) unset

def Row.under (front : List Nat) (row : Row) : Row :=
  { row with reading := row.reading.under front }

def camShown (v : Value) : List Row :=
  camRows ++ (match member [1,1,1] v with
    | some (.choice 1 _) => ⟨1,"High Frequency Container [Basic Vehicle]",.heading⟩ ::
        vehicleRows.map (Row.under [1,1,1,1])
    | _ => [⟨1,"High Frequency Container",.alternative [1,1,1]⟩]) ++
  [⟨1,"Low Frequency Container",.presence [1,1,2]⟩]

theorem Reading.says_under {front : List Nat} {v w : Value} (h : member front v = some w)
    (reading : Reading) (text : String) :
    (reading.under front).Says v text ↔ reading.Says w text := by
  have hpath : ∀ path, member (front ++ path) v = member path w := fun path => by
    rw [member_append,h,Option.bind_some]
  cases reading <;> simp [Says,under,hpath]

theorem shows_under {front : List Nat} {v w : Value} (h : member front v = some w)
    {indent : String} {level : Nat} {rows : List Row} {lines : List String} :
    List.Forall₂ (Row.Shows indent level v) (rows.map (Row.under front)) lines ↔
      List.Forall₂ (Row.Shows indent level w) rows lines := by
  rw [List.forall₂_map_left_iff]
  refine iff_of_eq (congrArg (fun R => List.Forall₂ R rows lines) ?_)
  funext row line
  simp only [Row.Shows,Row.under,Reading.says_under h]

theorem camPrintIndented_ok {v : Value} (h : cam.WellFormed none v) (indent : String)
    (level : Nat) : ∃ lines, List.Forall₂ (Row.Shows indent level v) (camShown v) lines ∧
      camPrintIndented indent level v = .ok lines := by
  obtain ⟨basic,hbasic,_,hbasics⟩ := @printRows_ok _ _ h indent level 0 camRows (by decide +kernel)
  obtain ⟨low,hlow,_,hlows⟩ := @printRows_ok _ _ h indent level 0
    [⟨1,"Low Frequency Container",.presence [1,1,2]⟩] rfl
  obtain ⟨high,hhigh,i,hi,w,rfl,hw⟩ := cam.member_typeAt none [1,1,1] _ _ v rfl h
  have halternative : alternativeAt v [1,1,1] = .ok (i+1,w) := by rw [alternativeAt,hhigh]
  rw [camPrintIndented,hbasic,PartialRun.ok_bind,halternative,PartialRun.ok_bind]
  unfold camShown
  cases i with
  | zero =>
    obtain ⟨title,htitle,_,htitles⟩ := @printRows_ok _ _ h indent level 0
      [⟨1,"High Frequency Container [Basic Vehicle]",.heading⟩] rfl
    obtain ⟨vehicle,hvehicle,_,hvehicles⟩ := @printRows_ok basicVehicleContainerHighFrequency w hw
      indent level 0 vehicleRows (by decide +kernel)
    have hvehicle' : member [1,1,1,1] v = some w :=
      (member_append [1,1,1] [1] v).trans (by rw [hhigh]; rfl)
    simp only [Nat.zero_add,if_pos,htitle,hvehicle,hlow,PartialRun.ok_bind,hhigh]
    have hhighs := List.rel_append htitles ((shows_under hvehicle').mpr hvehicles)
    exact ⟨_,List.rel_append (List.rel_append hbasics hhighs) hlows,rfl⟩
  | succ i =>
    obtain ⟨other,hother,_,hothers⟩ := @printRows_ok _ _ h indent level 0
      [⟨1,"High Frequency Container",.alternative [1,1,1]⟩] rfl
    have hne : i+1+1 ≠ 1 := by omega
    simp only [if_neg hne,hother,hlow,PartialRun.ok_bind,hhigh]
    exact ⟨_,List.rel_append (List.rel_append hbasics hothers) hlows,rfl⟩

section Arriving
variable {type : Schema} {v : Value} {path : List Nat}

theorem number_arrives (h : type.sound none = true) (hv : type.inRange none v = true)
    (hpath : hasNumber type path = true) : member path (type.arrives none v) = member path v := by
  rw [hasNumber,Option.any_eq_true] at hpath
  obtain ⟨⟨at',given⟩,hat,hnumeric⟩ := hpath
  obtain ⟨w,hw,_,hw'⟩ := type.member_arrives none path at' given v h hat hv
  rw [hw,hw']
  cases at' with
  | nativeInteger fieldUnsigned own => rfl
  | nativeEnumerated specs own => rfl
  | _ => cases hnumeric

theorem long_arrives (h : type.sound none = true) (hv : type.inRange none v = true)
    (hpath : hasLong type path = true) : ∃ st st', member path v = some (.integer st) ∧
      member path (type.arrives none v) = some (.integer st') ∧
      asnINTEGER2long st' = asnINTEGER2long st := by
  rw [hasLong,Option.any_eq_true] at hpath
  obtain ⟨⟨at',given⟩,hat,hkeeps⟩ := hpath
  cases at' with
  | integer fieldUnsigned own =>
    obtain ⟨w,hw,hin,hw'⟩ := type.member_arrives none path _ given v h hat hv
    cases w with
    | integer st =>
      rw [Schema.inRange,Bool.and_eq_true] at hin
      obtain ⟨hlong,_⟩ := numberInRange_spec hin.2
      refine ⟨st,_,hw,hw',?_⟩
      have hst := asnINTEGER2long_of_signedOf hlong rfl (.inl (of_decide_eq_true hin.1).2)
      unfold arrivingOctets
      split
      · rfl
      · split
        · rw [hst]
          exact asnINTEGER2long_asnLong2INTEGER hlong
        · rfl
    | _ => cases hin
  | _ => cases hkeeps

theorem choice_arrives (h : type.sound none = true) (hv : type.inRange none v = true)
    {elements : Fields} {specs : ChoiceSpecs} {own given : Option PerConstraints}
    (hat : type.typeAt none path = some (.choice elements specs own,given)) :
    ∃ place w, member path v = some (.choice (place+1) w) ∧ elements.inRangeAt place w = true ∧
      member path (type.arrives none v) = some (.choice (place+1) (elements.arrivesAt place w)) := by
  obtain ⟨w,hw,hin,hw'⟩ := type.member_arrives none path _ given v h hat hv
  cases w with
  | choice present w =>
    cases present with
    | zero => cases hin
    | succ place =>
      rw [Schema.inRange,Bool.and_eq_true] at hin
      exact ⟨place,w,hw,hin.1,hw'⟩
  | _ => cases hin

theorem optional_arrives (h : type.sound none = true) (hv : type.inRange none v = true)
    (hpath : hasOptional type path = true) :
    (member path (type.arrives none v)).isSome = (member path v).isSome := by
  unfold hasOptional at hpath
  split at hpath
  · rename_i i root extensible additions roms aoms given hlast hat
    rw [Option.any_eq_true] at hpath
    obtain ⟨⟨at',info⟩,hi,hplain⟩ := hpath
    rw [Bool.and_eq_true,Option.isNone_iff_eq_none,Option.isNone_iff_eq_none] at hplain
    obtain ⟨w,hw,hin,hw'⟩ := type.member_arrives none path.dropLast _ given v h hat hv
    rw [← List.dropLast_append_getLast? i hlast,member_append,member_append,hw,hw',
      Option.bind_some,Option.bind_some]
    exact Schema.presence_arrives hi hplain.1 hplain.2 hin
  · cases hpath

/-- What a supported field says of a message that arrived it says of the one that was sent. -/
theorem Reading.says_arrives (h : type.sound none = true) (hv : type.inRange none v = true)
    {reading : Reading} (hreading : reading.supported type = true) {text : String}
    (htold : reading.Says (type.arrives none v) text) : reading.Says v text := by
  cases reading with
  | heading => exact htold
  | number path =>
    rw [Says,number_arrives h hv hreading] at htold
    exact htold
  | confident path confidence =>
    rw [supported,Bool.and_eq_true] at hreading
    rw [Says,number_arrives h hv hreading.1,number_arrives h hv hreading.2] at htold
    exact htold
  | presence path =>
    rw [Says,optional_arrives h hv hreading] at htold
    exact htold
  | alternative path =>
    rw [supported,hasChoice,Option.any_eq_true] at hreading
    obtain ⟨⟨at',given⟩,hat,hchoice⟩ := hreading
    cases at' with
    | choice elements specs own =>
      obtain ⟨place,w,hw,_,hw'⟩ := choice_arrives h hv hat
      obtain ⟨present,w'',hmember,htext⟩ := htold
      rw [hw'] at hmember
      cases hmember
      exact ⟨place+1,w,hw,htext⟩
    | _ => cases hchoice
  | converted path unset =>
    obtain ⟨st,st',hst,hst',hsame⟩ := long_arrives h hv hreading
    obtain ⟨st'',n,hmember,hn,htext⟩ := htold
    rw [hst'] at hmember
    cases hmember
    exact ⟨st,n,hst,hsame ▸ hn,htext⟩

theorem Row.shows_arrives (h : type.sound none = true) (hv : type.inRange none v = true)
    {rows : List Row} (hrows : (rows.all fun row => row.reading.supported type) = true)
    {indent : String} {level : Nat} {row : Row} (hrow : row ∈ rows) {line : String}
    (hshows : row.Shows indent level (type.arrives none v) line) : row.Shows indent level v line := by
  obtain ⟨text,htold,hline⟩ := hshows
  exact ⟨text,Reading.says_arrives h hv (List.all_eq_true.mp hrows row hrow) htold,hline⟩

end Arriving

theorem forall₂_imp_mem {α β : Type} {R S : α → β → Prop} {l : List α} {l' : List β}
    (himp : ∀ a ∈ l, ∀ b, R a b → S a b) (h : List.Forall₂ R l l') : List.Forall₂ S l l' := by
  induction h with
  | nil => exact .nil
  | cons hfirst _ ih =>
    exact .cons (himp _ (by simp) _ hfirst) (ih fun a ha => himp a (List.mem_cons_of_mem _ ha))

theorem denm_shows_arrives {v : Value} (hv : denm.inRange none v = true) {indent : String}
    {level : Nat} {lines : List String}
    (h : List.Forall₂ (Row.Shows indent level (denm.arrives none v)) (denmRows 0 0) lines) :
    List.Forall₂ (Row.Shows indent level v) (denmRows 0 0) lines :=
  forall₂_imp_mem (fun _ hrow _ => Row.shows_arrives denm_sound hv (by decide +kernel) hrow) h

theorem cam_shows_arrives {v : Value} (hv : cam.inRange none v = true) {indent : String}
    {level : Nat} {lines : List String}
    (h : List.Forall₂ (Row.Shows indent level (cam.arrives none v)) (camShown (cam.arrives none v))
      lines) : List.Forall₂ (Row.Shows indent level v) (camShown v) lines := by
  obtain ⟨place,w,hw,hin,hw'⟩ := @choice_arrives cam v [1,1,1] cam_sound hv _ _ _ _ rfl
  have hfront : ∀ row ∈ camRows, ∀ line, row.Shows indent level (cam.arrives none v) line →
      row.Shows indent level v line := fun _ hrow _ =>
    Row.shows_arrives cam_sound hv (by decide +kernel) hrow
  have hlow : ∀ row ∈ [(⟨1,"Low Frequency Container",.presence [1,1,2]⟩ : Row)], ∀ line,
      row.Shows indent level (cam.arrives none v) line → row.Shows indent level v line :=
    fun _ hrow _ => Row.shows_arrives cam_sound hv (by decide +kernel) hrow
  unfold camShown at h ⊢
  cases place with
  | zero =>
    have hvehicle : member [1,1,1,1] v = some w :=
      (member_append [1,1,1] [1] v).trans (by rw [hw]; rfl)
    have hvehicle' : member [1,1,1,1] (cam.arrives none v) =
        some (basicVehicleContainerHighFrequency.arrives none w) :=
      (member_append [1,1,1] [1] _).trans (by rw [hw']; rfl)
    simp only [hw,hw',Nat.zero_add] at h ⊢
    refine forall₂_imp_mem (fun row hrow line hshows => ?_) h
    rw [List.mem_append,List.mem_append,List.mem_cons,List.mem_map] at hrow
    rcases hrow with (hrow | rfl | ⟨row,hrow,rfl⟩) | hrow
    · exact hfront row hrow line hshows
    · exact hshows
    · obtain ⟨text,htold,hline⟩ := hshows
      have hsupported : row.reading.supported basicVehicleContainerHighFrequency = true :=
        List.all_eq_true.mp (show (vehicleRows.all fun row => row.reading.supported
          basicVehicleContainerHighFrequency) = true by decide +kernel) row hrow
      have htold' := (Reading.says_under hvehicle' row.reading text).mp htold
      exact ⟨text,(Reading.says_under hvehicle row.reading text).mpr
        (Reading.says_arrives (by decide +kernel) hin hsupported htold'),hline⟩
    · exact hlow row hrow line hshows
  | succ place =>
    simp only [hw,hw'] at h ⊢
    refine forall₂_imp_mem (fun row hrow line hshows => ?_) h
    rw [List.mem_append,List.mem_append] at hrow
    rcases hrow with (hrow | hrow) | hrow
    · exact hfront row hrow line hshows
    · exact Row.shows_arrives cam_sound hv (by decide +kernel) hrow hshows
    · exact hlow row hrow line hshows

end Mitvane.Its

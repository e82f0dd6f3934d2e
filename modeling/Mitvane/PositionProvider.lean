import Mitvane.PartialRun

set_option autoImplicit false

namespace Mitvane
open PartialRun
variable {Real : Type}

structure ConfidentQuantity (Real : Type) where
  value : Real
  confidence : Real
  deriving DecidableEq, Repr

structure PositionConfidence (Real : Type) where
  semiMinor : Real
  semiMajor : Real
  orientation : Real
  deriving DecidableEq, Repr

/-- The timestamp is in microseconds since the POSIX epoch. -/
structure PositionFix (Real : Type) where
  timestamp : Int
  latitude : Real
  longitude : Real
  confidence : PositionConfidence Real
  speed : ConfidentQuantity Real
  course : ConfidentQuantity Real
  altitude : Option (ConfidentQuantity Real)
  deriving DecidableEq, Repr

/-- The floating point numbers of libgps and what the provider computes with them. -/
structure GpsReals (Real : Type) where
  isnan : Real → Bool
  greater : Real → Real → Bool
  plus : Real → Real → Real
  north : Real
  ninety : Real
  defaultConfidence : PositionConfidence Real

structure Timespec where
  tvSec : Int
  tvNsec : Int
  deriving DecidableEq, Repr

structure GpsFix (Real : Type) where
  time : Timespec
  mode : Int
  latitude : Real
  longitude : Real
  altitude : Real
  speed : Real
  track : Real
  eps : Real
  epd : Real
  epx : Real
  epy : Real
  epv : Real

structure GpsData (Real : Type) where
  ndevices : Int
  status : Int
  fix : GpsFix Real

def statusFix : Int := 1
def mode2D : Int := 2
def mode3D : Int := 3

/-- TAI is 37 seconds ahead of UTC. -/
def convertGpsTime (t : Timespec) : Int := t.tvSec*1000000+t.tvNsec.tdiv 1000+37*1000000

def confidenceOf (r : GpsReals Real) (fix : GpsFix Real) : PositionConfidence Real :=
  if !r.isnan fix.epx && !r.isnan fix.epy then
    if r.greater fix.epx fix.epy then ⟨fix.epy,fix.epx,r.plus r.north r.ninety⟩
    else ⟨fix.epx,fix.epy,r.north⟩
  else r.defaultConfidence

def positionFixOf (r : GpsReals Real) (fix : GpsFix Real) : PositionFix Real where
  timestamp := convertGpsTime fix.time
  latitude := fix.latitude
  longitude := fix.longitude
  confidence := confidenceOf r fix
  speed := ⟨fix.speed,fix.eps⟩
  course := ⟨r.plus r.north fix.track,r.plus r.north fix.epd⟩
  altitude := if fix.mode = mode3D then some ⟨fix.altitude,fix.epv⟩ else none

/-- One call of `gps_read`: its result and what it leaves in `gps_data`. -/
structure GpsRead (Real : Type) where
  rc : Int
  data : GpsData Real

inductive PositionFault where
  | positioning | reading
  deriving DecidableEq, Repr

def readGps : List (GpsRead Real) → Except PositionFault (GpsRead Real)
  | [] => .error .reading
  | read :: reads =>
    if 0 < read.rc ∧ 0 < read.data.ndevices then readGps reads else .ok read

/-- The members of the provider, and the timer operations in flight. -/
structure GpsPositionProvider (Real : Type) where
  fetchedPositionFix : PositionFix Real
  waits : Nat

def GpsData.isGood (data : GpsData Real) : Bool :=
  statusFix ≤ data.status && mode2D ≤ data.fix.mode

namespace GpsPositionProvider

def fetchPositionFix (r : GpsReals Real) (p : GpsPositionProvider Real)
    (reads : List (GpsRead Real)) : Except PositionFault (GpsPositionProvider Real) := do
  let read ← readGps reads
  if read.rc < 0 then .error .positioning
  else if read.data.isGood then
    .ok { p with fetchedPositionFix := positionFixOf r read.data.fix }
  else .ok p

def scheduleTimer (p : GpsPositionProvider Real) : GpsPositionProvider Real :=
  { p with waits := p.waits+1 }

/-- The wait has ended: expired, or aborted. -/
def onTimer (r : GpsReals Real) (p : GpsPositionProvider Real) (aborted : Bool)
    (reads : List (GpsRead Real)) : Except PositionFault (GpsPositionProvider Real) :=
  if aborted then .ok { p with waits := p.waits-1 }
  else do
    let p ← { p with waits := p.waits-1 }.fetchPositionFix r reads
    pure p.scheduleTimer

end GpsPositionProvider

def fetched (r : GpsReals Real) (reads : List (GpsRead Real)) : Option (PositionFix Real) :=
  match readGps reads with
  | .error _ => none
  | .ok read => if read.data.isGood then some (positionFixOf r read.data.fix) else none

theorem GpsPositionProvider.onTimer_ok {r : GpsReals Real} {p p' : GpsPositionProvider Real}
    {aborted : Bool} {reads : List (GpsRead Real)} (h : p.onTimer r aborted reads = .ok p') :
    p'.waits = (if aborted then p.waits-1 else p.waits-1+1) ∧ p'.fetchedPositionFix =
      if aborted then p.fetchedPositionFix else (fetched r reads).getD p.fetchedPositionFix := by
  unfold onTimer at h
  cases aborted with
  | true =>
    cases h
    exact ⟨rfl,rfl⟩
  | false =>
    simp only [Bool.false_eq_true,if_false,bind_eq_ok] at h
    obtain ⟨p₁,hfetch,hret⟩ := h
    cases hret
    unfold fetchPositionFix at hfetch
    simp only [bind_eq_ok] at hfetch
    obtain ⟨read,hread,hcase⟩ := hfetch
    simp only [fetched,hread]
    split at hcase
    · cases hcase
    · cases hgood : read.data.isGood with
      | true =>
        rw [hgood,if_pos rfl] at hcase
        cases hcase
        exact ⟨rfl,rfl⟩
      | false =>
        rw [hgood] at hcase
        cases hcase
        exact ⟨rfl,rfl⟩

def AxesInOrder (r : GpsReals Real) (c : PositionConfidence Real) : Prop :=
  c = r.defaultConfidence ∨ (r.isnan c.semiMinor = false ∧ r.isnan c.semiMajor = false ∧
    r.greater c.semiMinor c.semiMajor = false)

theorem confidenceOf_axes {r : GpsReals Real}
    (hasym : ∀ a b, r.greater a b = true → r.greater b a = false) (fix : GpsFix Real) :
    AxesInOrder r (confidenceOf r fix) := by
  unfold confidenceOf
  split
  · rename_i hnum
    simp only [Bool.and_eq_true,Bool.not_eq_true'] at hnum
    split
    · rename_i hg
      exact .inr ⟨hnum.2,hnum.1,hasym _ _ hg⟩
    · rename_i hg
      exact .inr ⟨hnum.1,hnum.2,by simpa using hg⟩
  · exact .inl rfl

end Mitvane

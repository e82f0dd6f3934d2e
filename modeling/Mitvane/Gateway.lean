import Mitvane.SocketLink
import Mitvane.PositionProvider
import Mitvane.Forwarding

set_option autoImplicit false

namespace Mitvane
open PartialRun
variable {Chunk Certificate Area Real : Type}

inductive Positioning (Real : Type) where
  | stored : PositionFix Real → Positioning Real
  | gpsd : GpsPositionProvider Real → Positioning Real

def Positioning.positionFix : Positioning Real → PositionFix Real
  | .stored fix => fix
  | .gpsd p => p.fetchedPositionFix

def Positioning.waits : Positioning Real → Nat
  | .stored _ => 0
  | .gpsd p => p.waits

def Positioning.onTimer (r : GpsReals Real) (aborted : Bool) (reads : List (GpsRead Real)) :
    Positioning Real → Except PositionFault (Positioning Real)
  | .stored fix => .ok (.stored fix)
  | .gpsd p => .gpsd <$> p.onTimer r aborted reads

structure Gateway (Chunk Real : Type) where
  source : RawSocketLink
  destination : RawSocketLink
  context : IdpsState Chunk
  positioning : Positioning Real
  signalWaits : Nat
  stopped : Bool

/-- An operation that ends. A read has a datagram or an error; it also says what memory
`run` finds and whether the destination socket accepts a datagram, should `run` be called. -/
inductive Event (Area Real : Type) where
  | sourceRead : Option ByteBuffer → Storage Area → Bool → Event Area Real
  | destinationRead : Option ByteBuffer → Storage Area → Bool → Event Area Real
  | timer : Bool → List (GpsRead Real) → Event Area Real
  | signal : Bool → Event Area Real

inductive GatewayFault where
  | notOutstanding : GatewayFault
  | packet : Fault → GatewayFault
  | position : PositionFault → GatewayFault
  deriving DecidableEq, Repr

namespace Gateway

def enabled (g : Gateway Chunk Real) : Event Area Real → Bool
  | .sourceRead _ _ _ => !g.stopped && 0 < g.source.receives
  | .destinationRead _ _ _ => !g.stopped && 0 < g.destination.receives
  | .timer _ _ => !g.stopped && 0 < g.positioning.waits
  | .signal _ => !g.stopped && 0 < g.signalWaits

/-- The callback that `set_link_layer` gives to a link. The detector asks for the position
during the call. -/
def indication (v : Vanetza Chunk Certificate Area) (isWithin : IsWithin (PositionFix Real))
    (fix : PositionFix Real) (storage : Storage Area) (socketOk : Bool) (s : IdpsState Chunk)
    (frame : Frame) : Except Fault (IdpsState Chunk) :=
  run v isWithin s ⟨frame,fix,storage,socketOk⟩

def handle (v : Vanetza Chunk Certificate Area) (isWithin : IsWithin (PositionFix Real))
    (r : GpsReals Real) (g : Gateway Chunk Real) :
    Event Area Real → Except GatewayFault (Gateway Chunk Real)
  | .sourceRead input storage socketOk => do
    let (source,context) ← (g.source.receive v
      (indication v isWithin g.positioning.positionFix storage socketOk) g.context
        input).mapError .packet
    pure { g with source := source, context := context }
  | .destinationRead input storage socketOk => do
    let (destination,context) ← (g.destination.receive v
      (indication v isWithin g.positioning.positionFix storage socketOk) g.context
        input).mapError .packet
    pure { g with destination := destination, context := context }
  | .timer aborted reads => do
    let positioning ← (g.positioning.onTimer r aborted reads).mapError .position
    pure { g with positioning := positioning }
  | .signal ok => .ok { g with
      signalWaits := g.signalWaits-1
      stopped := ok }

/-- One round of the event loop. An exception leaves it. -/
def step (v : Vanetza Chunk Certificate Area) (isWithin : IsWithin (PositionFix Real))
    (r : GpsReals Real) (g : Gateway Chunk Real) (e : Event Area Real) :
    Except GatewayFault (Gateway Chunk Real) :=
  if g.enabled e then g.handle v isWithin r e else .error .notOutstanding

end Gateway

def arrivalOf (v : Vanetza Chunk Certificate Area) (fix : PositionFix Real)
    (input : Option ByteBuffer) (storage : Storage Area) (socketOk : Bool) :
    Option (Arrival Area (PositionFix Real)) :=
  (input.bind (frameOf v)).map (fun frame => ⟨frame,fix,storage,socketOk⟩)

def fixAfter (r : GpsReals Real) (fix : PositionFix Real) :
    Event Area Real → PositionFix Real
  | .timer false reads => (fetched r reads).getD fix
  | _ => fix

/-- What the detection system gets to see of a sequence of events: the frames of the
source link, each with the position known at that time. -/
def observed (v : Vanetza Chunk Certificate Area) (r : GpsReals Real) (fix : PositionFix Real) :
    List (Event Area Real) → List (Arrival Area (PositionFix Real))
  | [] => []
  | e :: es =>
    (match e with
      | .sourceRead input storage socketOk => (arrivalOf v fix input storage socketOk).toList
      | _ => []) ++ observed v r (fixAfter r fix e) es

theorem observed_append (v : Vanetza Chunk Certificate Area) (r : GpsReals Real)
    (fix : PositionFix Real) (es es' : List (Event Area Real)) : observed v r fix (es ++ es') =
      observed v r fix es ++ observed v r (es.foldl (fixAfter r) fix) es' := by
  induction es generalizing fix with
  | nil => rfl
  | cons e es ih => simp [observed,ih]

theorem Filtered.refl {v : Vanetza Chunk Certificate Area} {isWithin : IsWithin (PositionFix Real)}
    (s : IdpsState Chunk) : Filtered v isWithin s [] s := by
  constructor <;> simp

theorem Filtered.trans {v : Vanetza Chunk Certificate Area}
    {isWithin : IsWithin (PositionFix Real)} {s s₁ s₂ : IdpsState Chunk}
    {done done' : List (Arrival Area (PositionFix Real))} (h₁ : Filtered v isWithin s done s₁)
    (h₂ : Filtered v isWithin s₁ done' s₂) : Filtered v isWithin s (done ++ done') s₂ := by
  have hmid := h₁.localMid
  have hsig := h₁.signatures
  refine ⟨h₂.localMid.trans hmid,h₂.signatures.trans hsig,?_,?_,?_⟩
  · rw [h₂.transmitted,h₁.transmitted,hmid,hsig,List.append_assoc,← List.map_append,
      ← List.filter_append]
  · rw [h₂.sent,h₁.sent,hmid,hsig,List.append_assoc,← List.map_append,← List.filter_append]
  · rw [h₂.log,h₁.log,hmid,hsig,List.append_assoc,← List.flatMap_append]

namespace Gateway
section
variable {v : Vanetza Chunk Certificate Area} {isWithin : IsWithin (PositionFix Real)}
  {r : GpsReals Real} {g g' : Gateway Chunk Real} {e : Event Area Real}

theorem step_ok (h : g.step v isWithin r e = .ok g') :
    g.enabled e = true ∧ g.handle v isWithin r e = .ok g' := by
  unfold step at h
  cases he : g.enabled e with
  | false => simp [he] at h
  | true =>
    rw [he,if_pos rfl] at h
    exact ⟨rfl,h⟩

inductive Round (v : Vanetza Chunk Certificate Area) (isWithin : IsWithin (PositionFix Real))
    (r : GpsReals Real) (g : Gateway Chunk Real) :
    Event Area Real → Gateway Chunk Real → Prop where
  | source {input : Option ByteBuffer} {storage : Storage Area} {socketOk : Bool}
      {source : RawSocketLink} {context : IdpsState Chunk} : 0 < g.source.receives →
      source.callback = g.source.callback →
      source.receives = g.source.receives-1+(if input.isSome then 1 else 0) →
      RawSocketLink.handUp (indication v isWithin g.positioning.positionFix storage socketOk)
        g.context (if g.source.callback then input.bind (frameOf v) else none) = .ok context →
      Round v isWithin r g (.sourceRead input storage socketOk)
        { g with source := source, context := context }
  | destination {input : Option ByteBuffer} {storage : Storage Area} {socketOk : Bool}
      {destination : RawSocketLink} {context : IdpsState Chunk} : 0 < g.destination.receives →
      destination.callback = g.destination.callback →
      destination.receives = g.destination.receives-1+(if input.isSome then 1 else 0) →
      RawSocketLink.handUp (indication v isWithin g.positioning.positionFix storage socketOk)
        g.context (if g.destination.callback then input.bind (frameOf v) else none) =
          .ok context →
      Round v isWithin r g (.destinationRead input storage socketOk)
        { g with destination := destination, context := context }
  | timer {aborted : Bool} {reads : List (GpsRead Real)} {p p' : GpsPositionProvider Real} :
      g.positioning = .gpsd p → 0 < p.waits → p.onTimer r aborted reads = .ok p' →
      Round v isWithin r g (.timer aborted reads) { g with positioning := .gpsd p' }
  | signal {ok : Bool} : 0 < g.signalWaits → Round v isWithin r g (.signal ok)
      { g with signalWaits := g.signalWaits-1, stopped := ok }

theorem step_round (h : g.step v isWithin r e = .ok g') :
    g.stopped = false ∧ Round v isWithin r g e g' := by
  obtain ⟨hen,hh⟩ := step_ok h
  cases e with
  | sourceRead input storage socketOk =>
    simp only [enabled,Bool.and_eq_true,Bool.not_eq_true',decide_eq_true_eq] at hen
    simp only [handle,bind_eq_ok,mapError_eq_ok] at hh
    obtain ⟨⟨source,context⟩,hrec,hret⟩ := hh
    cases hret
    obtain ⟨hcb,hcount,hup⟩ := RawSocketLink.receive_ok hrec
    exact ⟨hen.1,.source hen.2 hcb hcount hup⟩
  | destinationRead input storage socketOk =>
    simp only [enabled,Bool.and_eq_true,Bool.not_eq_true',decide_eq_true_eq] at hen
    simp only [handle,bind_eq_ok,mapError_eq_ok] at hh
    obtain ⟨⟨destination,context⟩,hrec,hret⟩ := hh
    cases hret
    obtain ⟨hcb,hcount,hup⟩ := RawSocketLink.receive_ok hrec
    exact ⟨hen.1,.destination hen.2 hcb hcount hup⟩
  | timer aborted reads =>
    simp only [enabled,Bool.and_eq_true,Bool.not_eq_true',decide_eq_true_eq] at hen
    simp only [handle,bind_eq_ok,mapError_eq_ok] at hh
    obtain ⟨positioning,htimer,hret⟩ := hh
    cases hret
    cases hp : g.positioning with
    | stored fix => simp [hp,Positioning.waits] at hen
    | gpsd p =>
      rw [hp] at htimer hen
      simp only [Positioning.onTimer,map_eq_ok] at htimer
      obtain ⟨p',hp',rfl⟩ := htimer
      exact ⟨hen.1,.timer hp hen.2 hp'⟩
  | signal ok =>
    simp only [enabled,Bool.and_eq_true,Bool.not_eq_true',decide_eq_true_eq] at hen
    cases hh
    exact ⟨hen.1,.signal hen.2⟩

theorem Round.positionFix (h : Round v isWithin r g e g') :
    g'.positioning.positionFix = fixAfter r g.positioning.positionFix e := by
  cases h with
  | source _ _ _ _ => rfl
  | destination _ _ _ _ => rfl
  | @timer aborted reads p p' hp _ ht =>
    have hfix := (GpsPositionProvider.onTimer_ok ht).2
    rw [hp]
    cases aborted with
    | true => exact hfix
    | false => exact hfix
  | signal _ => rfl

theorem Round.callback (h : Round v isWithin r g e g') :
    g'.source.callback = g.source.callback ∧
      g'.destination.callback = g.destination.callback := by
  cases h with
  | source _ hcb _ _ => exact ⟨hcb,rfl⟩
  | destination _ hcb _ _ => exact ⟨rfl,hcb⟩
  | _ => exact ⟨rfl,rfl⟩

theorem Round.context_of_destination {input : Option ByteBuffer} {storage : Storage Area}
    {socketOk : Bool} (h : Round v isWithin r g (.destinationRead input storage socketOk) g')
    (hcb : g.destination.callback = false) :
    g' = { g with destination := g'.destination } := by
  cases h with
  | destination _ _ _ hup =>
    rw [hcb] at hup
    cases hup
    rfl

theorem Round.filtered (h : Round v isWithin r g e g')
    (hcb : g.source.callback = true ∧ g.destination.callback = false)
    (hgn : Protocol.geoNetworking ∈ g.context.signatures) :
    Filtered v isWithin g.context (observed v r g.positioning.positionFix [e]) g'.context := by
  cases h with
  | @source input storage socketOk source context _ _ _ hup =>
    rw [hcb.1,if_pos rfl] at hup
    simp only [observed,arrivalOf,List.append_nil]
    rcases RawSocketLink.handUp_ok hup with ⟨hf,rfl⟩ | ⟨frame,hf,hrun⟩
    · rw [hf]
      exact .refl g.context
    · rw [hf]
      exact run_filtered hgn hrun
  | destination _ _ _ hup =>
    rw [hcb.2] at hup
    cases hup
    exact .refl g.context
  | timer _ _ _ => exact .refl g.context
  | signal _ => exact .refl g.context

theorem Round.context_of_failed {storage : Storage Area} {socketOk : Bool}
    (h : Round v isWithin r g (.sourceRead none storage socketOk) g') :
    g'.context = g.context := by
  cases h with
  | source _ _ _ hup =>
    rcases RawSocketLink.handUp_ok hup with ⟨_,rfl⟩ | ⟨frame,hf,_⟩
    · rfl
    · simp at hf

theorem reaches_positionFix {events : List (Event Area Real)} {t : Gateway Chunk Real}
    (h : Reaches (step v isWithin r) g events t) :
    t.positioning.positionFix = events.foldl (fixAfter r) g.positioning.positionFix := by
  induction h with
  | nil => rfl
  | snoc _ hs ih =>
    rw [(step_round hs).2.positionFix,ih,List.foldl_append]
    rfl

theorem reaches_callback {events : List (Event Area Real)} {t : Gateway Chunk Real}
    (h : Reaches (step v isWithin r) g events t) : t.source.callback = g.source.callback ∧
      t.destination.callback = g.destination.callback := by
  induction h with
  | nil => exact ⟨rfl,rfl⟩
  | snoc _ hs ih =>
    have hround := (step_round hs).2.callback
    exact ⟨hround.1.trans ih.1,hround.2.trans ih.2⟩

theorem reaches_filtered {events : List (Event Area Real)} {t : Gateway Chunk Real}
    (h : Reaches (step v isWithin r) g events t)
    (hcb : g.source.callback = true ∧ g.destination.callback = false)
    (hgn : Protocol.geoNetworking ∈ g.context.signatures) :
    Filtered v isWithin g.context (observed v r g.positioning.positionFix events) t.context := by
  induction h with
  | nil => exact .refl g.context
  | @snoc events t t' e hr hs ih =>
    rw [observed_append,← reaches_positionFix hr]
    have hlinks := reaches_callback hr
    exact ih.trans ((step_round hs).2.filtered ⟨hlinks.1.trans hcb.1,hlinks.2.trans hcb.2⟩
      (ih.signatures ▸ hgn))

theorem reaches_deaf {events : List (Event Area Real)} {t : Gateway Chunk Real}
    (h : Reaches (step v isWithin r) g events t) (hr : g.source.receives = 0)
    (hcb : g.destination.callback = false) :
    t.source.receives = 0 ∧ t.context = g.context := by
  induction h with
  | nil => exact ⟨hr,rfl⟩
  | snoc hreach hs ih =>
    obtain ⟨hzero,hctx⟩ := ih
    cases (step_round hs).2 with
    | source hpos _ _ _ => omega
    | destination _ _ _ hup =>
      rw [(reaches_callback hreach).2.trans hcb] at hup
      cases hup
      exact ⟨hzero,hctx⟩
    | _ => exact ⟨hzero,hctx⟩

end
end Gateway

def Event.sourceFails : Event Area Real → Bool
  | .sourceRead none _ _ => true
  | _ => false

def Event.destinationFails : Event Area Real → Bool
  | .destinationRead none _ _ => true
  | _ => false

def Event.aborts : Event Area Real → Bool
  | .timer true _ => true
  | _ => false

def Event.signals : Event Area Real → Bool
  | .signal _ => true
  | _ => false

def Event.stops : Event Area Real → Bool
  | .signal true => true
  | _ => false

/-- What is in flight after some events, of as many timers as there were, and whether the
loop still runs. -/
structure Listening (timers : Nat) (t : Gateway Chunk Real) (events : List (Event Area Real)) :
    Prop where
  source : t.source.receives = if events.any Event.sourceFails then 0 else 1
  destination : t.destination.receives = if events.any Event.destinationFails then 0 else 1
  timer : t.positioning.waits = if events.any Event.aborts then 0 else timers
  signal : t.signalWaits = if events.any Event.signals then 0 else 1
  stopped : t.stopped = events.any Event.stops

theorem counts_until {fails : Event Area Real → Bool} {events : List (Event Area Real)}
    {e : Event Area Real} {n n' most : Nat} (h : n = if events.any fails then 0 else most)
    (hmost : most ≤ 1) (hpos : 0 < n) (hnext : n' = n-1+(if fails e then 0 else 1)) :
    n' = if (events ++ [e]).any fails then 0 else most := by
  cases hany : events.any fails with
  | true =>
    rw [hany,if_pos rfl] at h
    omega
  | false =>
    rw [hany] at h
    have hone : n = 1 ∧ most = 1 := by
      simp only [Bool.false_eq_true,if_false] at h
      omega
    simp [hnext,hany,hone.1,hone.2]

namespace Gateway
section
variable {v : Vanetza Chunk Certificate Area} {isWithin : IsWithin (PositionFix Real)}
  {r : GpsReals Real} {g : Gateway Chunk Real}

theorem Round.stopped {g' : Gateway Chunk Real} {e : Event Area Real}
    (h : Round v isWithin r g e g') (hrunning : g.stopped = false) : g'.stopped = e.stops := by
  cases h with
  | @signal ok _ => cases ok <;> rfl
  | _ => exact hrunning

theorem reaches_stopped {events : List (Event Area Real)} {t : Gateway Chunk Real}
    (h : Reaches (step v isWithin r) g events t) (hrunning : g.stopped = false) :
    t.stopped = events.any Event.stops := by
  induction h with
  | nil => exact hrunning
  | snoc _ hs ih =>
    obtain ⟨hstep,hround⟩ := step_round hs
    rw [hround.stopped hstep,List.any_append,← ih,hstep]
    simp

theorem Round.listening {t t' : Gateway Chunk Real} {timers : Nat}
    {events : List (Event Area Real)} {e : Event Area Real} (h : Round v isWithin r t e t')
    (hrunning : t.stopped = false) (hl : Listening timers t events) (hw : timers ≤ 1) :
    Listening timers t' (events ++ [e]) := by
  have hstopped : t'.stopped = (events ++ [e]).any Event.stops := by
    rw [h.stopped hrunning,List.any_append,← hl.stopped,hrunning]
    simp
  -- the counters that an event leaves alone
  have hsource : e.sourceFails = false →
      t.source.receives = if (events ++ [e]).any Event.sourceFails then 0 else 1 := by
    intro he
    simpa [he] using hl.source
  have hdestination : e.destinationFails = false →
      t.destination.receives = if (events ++ [e]).any Event.destinationFails then 0 else 1 := by
    intro he
    simpa [he] using hl.destination
  have htimer : e.aborts = false →
      t.positioning.waits = if (events ++ [e]).any Event.aborts then 0 else timers := by
    intro he
    simpa [he] using hl.timer
  have hsignal : e.signals = false →
      t.signalWaits = if (events ++ [e]).any Event.signals then 0 else 1 := by
    intro he
    simpa [he] using hl.signal
  cases h with
  | @source input storage socketOk source context hpos _ hcount _ =>
    refine ⟨counts_until hl.source (Nat.le_refl 1) hpos ?_,hdestination rfl,htimer rfl,
      hsignal rfl,hstopped⟩
    cases input <;> exact hcount
  | @destination input storage socketOk destination context hpos _ hcount _ =>
    refine ⟨hsource rfl,counts_until hl.destination (Nat.le_refl 1) hpos ?_,htimer rfl,
      hsignal rfl,hstopped⟩
    cases input <;> exact hcount
  | @timer aborted reads p p' hp hpos hontimer =>
    have hwaits : t.positioning.waits = p.waits := by rw [hp,Positioning.waits]
    refine ⟨hsource rfl,hdestination rfl,counts_until hl.timer hw (hwaits ▸ hpos) ?_,hsignal rfl,
      hstopped⟩
    have hcount := (GpsPositionProvider.onTimer_ok hontimer).1
    rw [hwaits]
    cases aborted <;> exact hcount
  | signal hpos =>
    exact ⟨hsource rfl,hdestination rfl,htimer rfl,
      counts_until hl.signal (Nat.le_refl 1) hpos rfl,hstopped⟩

theorem reaches_listening {events : List (Event Area Real)} {t : Gateway Chunk Real}
    (h : Reaches (step v isWithin r) g events t) {timers : Nat}
    (hl : Listening timers g ([] : List (Event Area Real))) (hw : timers ≤ 1) :
    Listening timers t events := by
  induction h with
  | nil => exact hl
  | snoc _ hstep ih =>
    obtain ⟨hrunning,hround⟩ := step_round hstep
    exact hround.listening hrunning ih hw

theorem step_withDestination {e : Event Area Real}
    (he : ∀ input storage socketOk, e ≠ .destinationRead input storage socketOk)
    (d : RawSocketLink) :
    step v isWithin r { g with destination := d } e =
      (fun g' => { g' with destination := d }) <$> step v isWithin r g e := by
  have hen : ({ g with destination := d } : Gateway Chunk Real).enabled e = g.enabled e := by
    cases e with
    | destinationRead input storage socketOk => exact absurd rfl (he input storage socketOk)
    | _ => rfl
  unfold step
  rw [hen]
  cases g.enabled e with
  | false => rfl
  | true =>
    rw [if_pos rfl,if_pos rfl]
    cases e with
    | sourceRead input storage socketOk =>
      simp only [handle]
      cases (g.source.receive v (indication v isWithin g.positioning.positionFix storage socketOk)
        g.context input) <;> rfl
    | destinationRead input storage socketOk => exact absurd rfl (he input storage socketOk)
    | timer aborted reads =>
      simp only [handle]
      cases g.positioning.onTimer r aborted reads <;> rfl
    | signal ok => rfl

end
end Gateway

end Mitvane

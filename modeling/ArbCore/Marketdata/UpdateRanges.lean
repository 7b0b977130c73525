import ArbCore.Marketdata.AdapterWiring

/-! # Gap detection on a stream of depth events

A depth event of the exchange covers a range of update ids, of which the adapter reads
the last one only. The delta made of it claims the id before that one as its
predecessor, so in strict mode an event is accepted only if it covers a single id.
-/
namespace ArbCore

/-- `firstUpdateId` opens the range of the event and is read by nobody; `delivered`
says whether the event reaches the worker. -/
structure StreamEvent where
  firstUpdateId : ℕ
  event : BinanceDepthEvent
  delivered : Bool
  receivedAt : Instant

namespace StreamEvent
variable {t : TextTables} {b : OrderBook} {x : StreamEvent} {last m : ℕ}

def Single (x : StreamEvent) : Prop := x.firstUpdateId = x.event.finalUpdateId

/-- The ranges follow one another without a gap, the first one after `last`. -/
def Contiguous : ℕ → List StreamEvent → Prop
  | _, [] => True
  | last, x :: xs => x.firstUpdateId = last + 1 ∧ x.firstUpdateId ≤ x.event.finalUpdateId ∧
      Contiguous x.event.finalUpdateId xs

def lastId : ℕ → List StreamEvent → ℕ
  | last, [] => last
  | _, x :: xs => lastId x.event.finalUpdateId xs

theorem contiguous_append {pre post : List StreamEvent} (h : Contiguous last (pre ++ post)) :
    Contiguous last pre ∧ Contiguous (lastId last pre) post := by
  induction pre generalizing last with
  | nil => exact ⟨trivial,h⟩
  | cons x pre ih =>
    obtain ⟨hfirst,hrange,hrest⟩ := h
    exact ⟨⟨hfirst,hrange,(ih hrest).1⟩,(ih hrest).2⟩

def delta? (t : TextTables) (e : BinanceDepthEvent) : Option OrderbookDelta :=
  match t.toUpdateFromEvent e with
  | .error _ => none
  | .ok update => match mapAdapterUpdateToMessage update with
    | .ok (_,.delta d) => some d
    | _ => none

def Accepted (t : TextTables) (b : OrderBook) (x : StreamEvent) : Prop :=
  ∃ d ∈ delta? t x.event, (b.applyDeltaWithGapTolerance d 0 x.receivedAt).1 = .ok ()

def receive (t : TextTables) (b : OrderBook) (x : StreamEvent) : OrderBook :=
  match x.delivered, delta? t x.event with
  | true, some d => (b.applyDeltaWithGapTolerance d 0 x.receivedAt).2
  | _, _ => b

def bookAfter (t : TextTables) (b : OrderBook) (events : List StreamEvent) : OrderBook :=
  events.foldl (receive t) b

theorem delta?_eq_some {update : OrderbookUpdate} (h : t.toUpdateFromEvent x.event = .ok update) :
    ∃ d, delta? t x.event = some d ∧ d.prevSequence = some (x.event.finalUpdateId - 1) ∧
      d.sequence = some x.event.finalUpdateId := by
  obtain ⟨-,hseq,hsnapshot⟩ := TextTables.toUpdateFromEvent_ok h
  refine ⟨⟨update.symbol,update.bids,update.asks,update.sequence.map (· - 1),update.sequence,none⟩,?_,?_,hseq⟩
  · simp only [delta?, h, mapAdapterUpdateToMessage, hsnapshot, Bool.false_eq_true, ↓reduceIte]
  · rw [hseq]
    rfl

section Step
variable (hparse : x.delivered = true → ∃ update, t.toUpdateFromEvent x.event = .ok update)
  (hm : b.inner.lastSeq = some m) (hle : m ≤ last) (hfirst : x.firstUpdateId = last + 1)
  (hrange : x.firstUpdateId ≤ x.event.finalUpdateId)
include hparse hm hle hfirst hrange

/-- A delivered event is accepted exactly when it covers one id, the next one. -/
theorem accepted_iff (hdelivered : x.delivered = true) : Accepted t b x ↔ m = last ∧ x.Single := by
  obtain ⟨update,hupdate⟩ := hparse hdelivered
  obtain ⟨d,hd,hprev,-⟩ := delta?_eq_some hupdate
  have hgap : b.withinGap d 0 = true ↔ x.event.finalUpdateId - 1 = m := by
    rw [withinGap_some hm hprev, Nat.le_zero, sequenceGap_eq_zero]
  have haccepted : Accepted t b x ↔ b.withinGap d 0 = true := by
    simp only [Accepted, hd, Option.mem_def, Option.some.injEq, exists_eq_left']
    cases hwithin : b.withinGap d 0 with
    | true => simp [applyDeltaWithGapTolerance_accepted hwithin]
    | false =>
      simp [applyDeltaWithGapTolerance_rejected hwithin]
  rw [haccepted, hgap, Single]
  omega

/-- The book keeps up with the stream exactly as long as each event is delivered and
covers a single id. -/
theorem lastSeq_receive : ∃ m', (receive t b x).inner.lastSeq = some m' ∧
    m' ≤ x.event.finalUpdateId ∧
    (m' = x.event.finalUpdateId ↔ m = last ∧ x.delivered = true ∧ x.Single) := by
  cases hdelivered : x.delivered with
  | false =>
    refine ⟨m,by simp only [receive, hdelivered, hm],by omega,?_⟩
    simp only [Bool.false_eq_true, false_and, and_false, iff_false]
    omega
  | true =>
    obtain ⟨update,hupdate⟩ := hparse hdelivered
    obtain ⟨d,hd,hprev,hseq⟩ := delta?_eq_some hupdate
    have haccepted := accepted_iff hparse hm hle hfirst hrange hdelivered
    simp only [Accepted, hd, Option.mem_def, Option.some.injEq, exists_eq_left'] at haccepted
    simp only [receive, hdelivered, hd, true_and, ← haccepted]
    cases hwithin : b.withinGap d 0 with
    | true =>
      have hres := applyDeltaWithGapTolerance_accepted hwithin x.receivedAt
      exact ⟨x.event.finalUpdateId,by rw [hres]; exact hseq,le_rfl,by simp [hres]⟩
    | false =>
      have hres := applyDeltaWithGapTolerance_rejected hwithin x.receivedAt
      refine ⟨m,by rw [hres]; exact hm,by omega,?_⟩
      simp only [hres, reduceCtorEq, iff_false]
      omega

end Step

theorem lastSeq_bookAfter {events : List StreamEvent}
    (hparse : ∀ x ∈ events, x.delivered = true → ∃ update, t.toUpdateFromEvent x.event = .ok update)
    (hm : b.inner.lastSeq = some m) (hle : m ≤ last) (hevents : Contiguous last events) :
    ∃ m', (bookAfter t b events).inner.lastSeq = some m' ∧ m' ≤ lastId last events ∧
      (m' = lastId last events ↔ m = last ∧ ∀ x ∈ events, x.delivered = true ∧ x.Single) := by
  induction events generalizing b last m with
  | nil => exact ⟨m,hm,hle,by simp [lastId]⟩
  | cons x events ih =>
    obtain ⟨hfirst,hrange,hrest⟩ := hevents
    obtain ⟨hx,hparse⟩ := List.forall_mem_cons.mp hparse
    obtain ⟨m₁,hm₁,hle₁,hiff₁⟩ := lastSeq_receive hx hm hle hfirst hrange
    obtain ⟨m',hm',hle',hiff'⟩ := ih hparse hm₁ hle₁ hrest
    refine ⟨m',hm',hle',?_⟩
    rw [lastId, hiff', hiff₁, List.forall_mem_cons, and_assoc]

end StreamEvent

open StreamEvent

/-- After a snapshot the strict mode accepts the delivered events up to the first missing
one, and none after it, exactly when those up to there cover a single id each. -/
theorem strict_gap_iff {t : TextTables} (b : OrderBook) {s : OrderbookSnapshot} {last : ℕ}
    (hs : s.sequence = some last) (now : Instant) {stream : List StreamEvent}
    (hstream : Contiguous last stream)
    (hparse : ∀ x ∈ stream, x.delivered = true → ∃ update, t.toUpdateFromEvent x.event = .ok update) :
    (∀ pre x post, stream = pre ++ x :: post → x.delivered = true →
      (Accepted t (bookAfter t (b.applySnapshot s now).2 pre) x ↔ ∀ y ∈ pre, y.delivered = true)) ↔
    ∀ pre x post, stream = pre ++ x :: post → (∀ y ∈ pre, y.delivered = true) → x.delivered = true →
      x.Single := by
  have haccepted : ∀ pre x post, stream = pre ++ x :: post → x.delivered = true →
      (Accepted t (bookAfter t (b.applySnapshot s now).2 pre) x ↔
        (∀ y ∈ pre, y.delivered = true ∧ y.Single) ∧ x.Single) := by
    rintro pre x post rfl hdelivered
    obtain ⟨hpre,hfirst,hrange,-⟩ := contiguous_append hstream
    obtain ⟨m,hm,hle,hiff⟩ := lastSeq_bookAfter (t := t) (fun y hy => hparse y (List.mem_append_left _ hy))
      (show (b.applySnapshot s now).2.inner.lastSeq = some last from hs) le_rfl hpre
    rw [accepted_iff (hparse x (by simp)) hm hle hfirst hrange hdelivered, hiff]
    simp only [true_and]
  constructor
  · intro hexact pre x post hsplit hpre hdelivered
    exact ((haccepted pre x post hsplit hdelivered).mp
      ((hexact pre x post hsplit hdelivered).mpr hpre)).2
  · intro hsingle pre x post hsplit hdelivered
    rw [haccepted pre x post hsplit hdelivered]
    constructor
    · rintro ⟨hpre,-⟩ y hy
      exact (hpre y hy).1
    · intro hpre
      refine ⟨fun y hy => ⟨hpre y hy,?_⟩,hsingle pre x post hsplit hpre hdelivered⟩
      obtain ⟨before,after,rfl⟩ := List.append_of_mem hy
      refine hsingle before y (after ++ x :: post) (by simpa using hsplit) (fun z hz => ?_) (hpre y hy)
      exact hpre z (List.mem_append_left _ hz)

def noLevelTables : TextTables := ⟨fun _ => .error "Invalid decimal",fun c => [c.toUpper]⟩

def emptyBookAt (last : ℕ) : OrderBook :=
  ((OrderBook.new "BTCUSDT").applySnapshot ⟨"BTCUSDT",[],[],some last,none⟩ 0).2

def secondLost : List StreamEvent :=
  [⟨101,⟨"BTCUSDT",101,[],[]⟩,true,1⟩,⟨102,⟨"BTCUSDT",102,[],[]⟩,false,2⟩,⟨103,⟨"BTCUSDT",103,[],[]⟩,true,3⟩]

theorem strict_gap_iff_secondLost :
    Accepted noLevelTables (bookAfter noLevelTables (emptyBookAt 100) []) ⟨101,⟨"BTCUSDT",101,[],[]⟩,true,1⟩ ∧
      ¬ Accepted noLevelTables (bookAfter noLevelTables (emptyBookAt 100) (secondLost.take 2))
        ⟨103,⟨"BTCUSDT",103,[],[]⟩,true,3⟩ := by
  have hexact := (@strict_gap_iff noLevelTables (OrderBook.new "BTCUSDT")
    ⟨"BTCUSDT",[],[],some 100,none⟩ 100 rfl 0 secondLost ?_ ?_).mpr ?_
  · constructor
    · exact (hexact [] _ _ rfl rfl).mpr fun y hy => absurd hy List.not_mem_nil
    · intro haccepted
      exact absurd ((hexact (secondLost.take 2) _ [] rfl rfl).mp haccepted ⟨102,⟨"BTCUSDT",102,[],[]⟩,false,2⟩
        (List.mem_cons_of_mem _ List.mem_cons_self)) Bool.false_ne_true
  · simp [secondLost, Contiguous]
  · intro x hx _
    simp only [secondLost, List.mem_cons, List.not_mem_nil, or_false] at hx
    rcases hx with rfl | rfl | rfl <;> exact ⟨_,rfl⟩
  · intro pre x post hsplit _ _
    have hx : x ∈ secondLost := hsplit ▸ by simp
    simp only [secondLost, List.mem_cons, List.not_mem_nil, or_false] at hx
    rcases hx with rfl | rfl | rfl <;> rfl

/-- The first event after the snapshot arrives, covers the ids 101 and 102 and is rejected. -/
theorem wide_event_rejected :
    ∃ x, Contiguous 100 [x] ∧ x.delivered = true ∧
      ¬ (Accepted noLevelTables (bookAfter noLevelTables (emptyBookAt 100) []) x ↔
        ∀ y ∈ ([] : List StreamEvent), y.delivered = true) := by
  refine ⟨⟨101,⟨"BTCUSDT",102,[],[]⟩,true,1⟩,by simp [Contiguous],rfl,fun hexact => ?_⟩
  have haccepted := hexact.mpr (fun _ hy => absurd hy List.not_mem_nil)
  have hsingle := (accepted_iff (fun _ => ⟨_,rfl⟩) rfl le_rfl rfl (by decide) rfl).mp haccepted
  exact absurd hsingle.2 (by simp [Single])

end ArbCore

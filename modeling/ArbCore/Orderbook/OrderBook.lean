import ArbCore.Library.LastWrite
import ArbCore.Orderbook.Types

/-! # The order book and its three mutating operations

A side is an ordered tree map from price to size. Every operation takes the
write lock once, so it is one function from a book to a result and a book; a
rejected delta still raises the resync flag. `now` is the instant that
`Instant::now()` returns inside the operation.
-/
namespace ArbCore
open LastWrite

abbrev BTreeMap := Std.ExtTreeMap Decimal Decimal

instance transCmp_decimal : Std.TransCmp (compare : Decimal → Decimal → Ordering) := inferInstance

structure BookInner where
  bids : BTreeMap
  asks : BTreeMap
  lastSeq : Option ℕ
  lastUpdateTs : Option Instant

structure OrderBook where
  symbol : String
  inner : BookInner
  resyncRequired : Bool

def BookInner.side (b : BookInner) : Side → BTreeMap
  | .bid => b.bids
  | .ask => b.asks

structure FillState where
  targetSize : Decimal
  totalQty : Decimal
  totalNotional : Decimal

/-- The body shared by the two level loops of `estimate_fill_price`. -/
def fillLevels : List (Decimal × Decimal) → FillState → FillState
  | [], s => s
  | (price,size) :: rest, s =>
    if s.targetSize ≤ 0 then s
    else
      let take := if size ≤ s.targetSize then size else s.targetSize
      fillLevels rest ⟨s.targetSize - take, s.totalQty + take, s.totalNotional + take * price⟩

/-- The level loops of `apply_snapshot`: only positive sizes are stored. -/
def insertLevels (m : BTreeMap) (levels : List Level) : BTreeMap :=
  levels.foldl (fun m lvl => if 0 < lvl.size then m.insert lvl.price lvl.size else m) m

/-- The level loops of both delta operations: size zero removes the price. -/
def applyLevels (m : BTreeMap) (levels : List Level) : BTreeMap :=
  levels.foldl (fun m lvl => if lvl.size = 0 then m.erase lvl.price
    else m.insert lvl.price lvl.size) m

namespace OrderBook

def new (symbol : String) : OrderBook := ⟨symbol,⟨∅,∅,none,none⟩,false⟩

def bestBid (b : OrderBook) : Option Level :=
  b.inner.bids.toList.reverse.head?.map fun l => ⟨l.1,l.2⟩

def bestAsk (b : OrderBook) : Option Level :=
  b.inner.asks.toList.head?.map fun l => ⟨l.1,l.2⟩

def topN (b : OrderBook) (side : Side) (n : ℕ) : List Level :=
  match side with
  | .bid => (b.inner.bids.toList.reverse.take n).map fun l => ⟨l.1,l.2⟩
  | .ask => (b.inner.asks.toList.take n).map fun l => ⟨l.1,l.2⟩

def applySnapshot (b : OrderBook) (snapshot : OrderbookSnapshot) (now : Instant) :
    Except OrderBookError Unit × OrderBook :=
  (.ok (), { b with
    inner := ⟨insertLevels ∅ snapshot.bids, insertLevels ∅ snapshot.asks, snapshot.sequence, some now⟩
    resyncRequired := false })

def updateLevels (b : OrderBook) (delta : OrderbookDelta) (now : Instant) : OrderBook :=
  { b with
    inner := ⟨applyLevels b.inner.bids delta.bids, applyLevels b.inner.asks delta.asks,
      delta.sequence, some now⟩ }

def applyDelta (b : OrderBook) (delta : OrderbookDelta) (now : Instant) :
    Except OrderBookError Unit × OrderBook :=
  match b.inner.lastSeq, delta.prevSequence with
  | some prev, some dPrev =>
    if dPrev ≠ prev then (.error (.sequenceError prev dPrev), { b with resyncRequired := true })
    else (.ok (), b.updateLevels delta now)
  | _, _ => (.ok (), b.updateLevels delta now)

def sequenceGap (prev dPrev : ℕ) : ℕ := if dPrev > prev then dPrev - prev else prev - dPrev

/-- Unlike `applyDelta`, an accepted delta also lowers the resync flag. -/
def applyDeltaWithGapTolerance (b : OrderBook) (delta : OrderbookDelta) (maxGap : ℕ)
    (now : Instant) : Except OrderBookError Unit × OrderBook :=
  match b.inner.lastSeq, delta.prevSequence with
  | some prev, some dPrev =>
    if dPrev ≠ prev ∧ sequenceGap prev dPrev > maxGap then
      (.error (.sequenceError prev dPrev), { b with resyncRequired := true })
    else (.ok (), { b.updateLevels delta now with resyncRequired := false })
  | _, _ => (.ok (), { b.updateLevels delta now with resyncRequired := false })

def estimateFillPrice (b : OrderBook) (side : Side) (targetSize : Decimal) :
    Except OrderBookError EstimatedFill :=
  if targetSize ≤ 0 then .error (.invalidArgument "size must be > 0")
  else
    let levels := match side with
      | .bid => b.inner.asks.toList
      | .ask => b.inner.bids.toList.reverse
    let s := fillLevels levels ⟨targetSize,0,0⟩
    if s.targetSize > 0 then .error .insufficientDepth
    else .ok ⟨s.totalNotional / s.totalQty, s.totalQty, s.totalNotional⟩

def snapshotCopy (b : OrderBook) (now : Instant) : OrderbookSnapshot where
  symbol := b.symbol
  bids := b.inner.bids.toList.reverse.map fun l => ⟨l.1,l.2⟩
  asks := b.inner.asks.toList.map fun l => ⟨l.1,l.2⟩
  sequence := b.inner.lastSeq
  ts := b.inner.lastUpdateTs.map fun t => Instant.millisSince now t

end OrderBook

theorem toList_rises (m : BTreeMap) : m.toList.Pairwise fun k l => k.1 < l.1 :=
  Std.ExtTreeMap.ordered_keys_toList.imp fun h => compare_lt_iff_lt.mp h

def Level.write (l : Level) : Decimal × Option Decimal :=
  (l.price, if l.size = 0 then none else some l.size)

/-- The last level listed for a price decides what is written there. -/
theorem lastWrite_levels (levels : List Level) (p : Decimal) :
    lastWrite (levels.map Level.write) p =
      (levels.reverse.find? fun l => l.price = p).map fun l => l.write.2 := by
  simp only [lastWrite, ← List.map_reverse, List.find?_map, Option.map_map]
  rfl

theorem applyLevels_eq_foldl_write (m : BTreeMap) (levels : List Level) :
    applyLevels m levels = (levels.map Level.write).foldl write m := by
  unfold applyLevels
  rw [List.foldl_map]
  congr 1
  funext m lvl
  by_cases h : lvl.size = 0 <;> simp [write, Level.write, h]

theorem insertLevels_eq_foldl_write (m : BTreeMap) (levels : List Level) :
    insertLevels m levels =
      ((levels.filter fun l => 0 < l.size).map Level.write).foldl write m := by
  unfold insertLevels
  rw [List.foldl_map, List.foldl_filter]
  congr 1
  funext m lvl
  by_cases h : 0 < lvl.size
  · simp [write, Level.write, h, h.ne']
  · simp [h]

theorem getElem?_applyLevels (m : BTreeMap) (levels : List Level) (p : Decimal) :
    (applyLevels m levels)[p]? = overwrite (fun p => m[p]?) (levels.map Level.write) p := by
  rw [applyLevels_eq_foldl_write, getElem?_foldl_write]

theorem getElem?_insertLevels_empty (levels : List Level) (p : Decimal) :
    (insertLevels ∅ levels)[p]? =
      overwrite (fun _ => none) ((levels.filter fun l => 0 < l.size).map Level.write) p := by
  rw [insertLevels_eq_foldl_write, getElem?_foldl_write]
  simp

@[simp] theorem side_applySnapshot (b : OrderBook) (s : OrderbookSnapshot) (now : Instant)
    (side : Side) :
    (b.applySnapshot s now).2.inner.side side = insertLevels ∅ (s.levels side) := by
  cases side <;> rfl

@[simp] theorem side_updateLevels (b : OrderBook) (d : OrderbookDelta) (now : Instant)
    (side : Side) :
    (b.updateLevels d now).inner.side side = applyLevels (b.inner.side side) (d.levels side) := by
  cases side <;> rfl

section Check
variable {b : OrderBook} {d : OrderbookDelta} {maxGap : ℕ}

/-- The sequence check of a delta; it passes when there is nothing to compare. -/
def OrderBook.withinGap (b : OrderBook) (delta : OrderbookDelta) (maxGap : ℕ) : Bool :=
  match b.inner.lastSeq, delta.prevSequence with
  | some prev, some dPrev => sequenceGap prev dPrev ≤ maxGap
  | _, _ => true

theorem sequenceGap_eq_zero {prev dPrev : ℕ} :
    OrderBook.sequenceGap prev dPrev = 0 ↔ dPrev = prev := by
  unfold OrderBook.sequenceGap
  split <;> omega

theorem withinGap_eq_false (h : b.withinGap d maxGap = false) :
    ∃ prev dPrev, b.inner.lastSeq = some prev ∧ d.prevSequence = some dPrev ∧
      maxGap < OrderBook.sequenceGap prev dPrev := by
  unfold OrderBook.withinGap at h
  split at h
  · exact ⟨_,_,‹_›,‹_›,not_le.mp (of_decide_eq_false h)⟩
  · cases h

theorem withinGap_some {prev dPrev : ℕ} (hprev : b.inner.lastSeq = some prev)
    (hdPrev : d.prevSequence = some dPrev) :
    b.withinGap d maxGap = true ↔ OrderBook.sequenceGap prev dPrev ≤ maxGap := by
  simp only [OrderBook.withinGap, hprev, hdPrev, decide_eq_true_eq]

def OrderBook.gapError (b : OrderBook) (delta : OrderbookDelta) : OrderBookError :=
  .sequenceError (b.inner.lastSeq.getD 0) (delta.prevSequence.getD 0)

theorem applyDeltaWithGapTolerance_accepted (h : b.withinGap d maxGap = true) (now : Instant) :
    b.applyDeltaWithGapTolerance d maxGap now =
      (.ok (), { b.updateLevels d now with resyncRequired := false }) := by
  unfold OrderBook.applyDeltaWithGapTolerance
  split
  · rename_i prev dPrev hprev hdPrev
    have hle := (withinGap_some hprev hdPrev).mp h
    rw [if_neg fun hgap => absurd hgap.2 (not_lt.mpr hle)]
  · rfl

theorem applyDeltaWithGapTolerance_rejected (h : b.withinGap d maxGap = false) (now : Instant) :
    b.applyDeltaWithGapTolerance d maxGap now =
      (.error (b.gapError d), { b with resyncRequired := true }) := by
  obtain ⟨prev,dPrev,hprev,hdPrev,hgap⟩ := withinGap_eq_false h
  have hne : dPrev ≠ prev := by
    intro heq
    rw [sequenceGap_eq_zero.mpr heq] at hgap
    exact absurd hgap (Nat.not_lt_zero _)
  simp only [OrderBook.applyDeltaWithGapTolerance, OrderBook.gapError, hprev, hdPrev, ne_eq, hne,
    not_false_eq_true, gt_iff_lt, hgap, and_self, ↓reduceIte, Option.getD_some]

theorem applyDelta_accepted (h : b.withinGap d 0 = true) (now : Instant) :
    b.applyDelta d now = (.ok (), b.updateLevels d now) := by
  unfold OrderBook.applyDelta
  split
  · rename_i prev dPrev hprev hdPrev
    have hle := (withinGap_some hprev hdPrev).mp h
    rw [if_neg (not_not.mpr (sequenceGap_eq_zero.mp (Nat.le_zero.mp hle)))]
  · rfl

theorem applyDelta_rejected (h : b.withinGap d 0 = false) (now : Instant) :
    b.applyDelta d now = (.error (b.gapError d), { b with resyncRequired := true }) := by
  obtain ⟨prev,dPrev,hprev,hdPrev,hgap⟩ := withinGap_eq_false h
  have hne : dPrev ≠ prev := fun heq => absurd (sequenceGap_eq_zero.mpr heq) hgap.ne'
  simp only [OrderBook.applyDelta, OrderBook.gapError, hprev, hdPrev, ne_eq, hne, not_false_eq_true,
    ↓reduceIte, Option.getD_some]

section Congr
variable {b' : OrderBook} (h : b.inner = b'.inner)
include h

theorem withinGap_congr : b.withinGap d maxGap = b'.withinGap d maxGap := by
  rw [OrderBook.withinGap, OrderBook.withinGap, h]

theorem gapError_congr : b.gapError d = b'.gapError d := by
  rw [OrderBook.gapError, OrderBook.gapError, h]

theorem updateLevels_congr (now : Instant) :
    (b.updateLevels d now).inner = (b'.updateLevels d now).inner := by
  simp only [OrderBook.updateLevels, h]

end Congr

end Check

theorem sequenceGap_pos {prev dPrev : ℕ} (h : dPrev ≠ prev) : 0 < OrderBook.sequenceGap prev dPrev := by
  unfold OrderBook.sequenceGap
  split <;> omega

end ArbCore

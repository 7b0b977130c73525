import ArbCore.Orderbook.Runs

/-! # The sizes that a book stores

A snapshot drops every level whose size is not positive. The two delta operations
compare with zero only, so a level of negative size is inserted like any other, and
it stays unless the same delta lists its price again.
-/
namespace ArbCore
open LastWrite

def OrderBook.PositiveSizes (b : OrderBook) : Prop :=
  ∀ side (price size : Decimal), (b.inner.side side)[price]? = some size → 0 < size

/-- Of the levels that the delta lists for some price, the last has a negative size. -/
def OrderbookDelta.EndsNegative (d : OrderbookDelta) : Prop :=
  ∃ side price level, ((d.levels side).reverse.find? fun l => l.price = price) = some level ∧
    level.size < 0

def StoresNegative (b : OrderBook) : BookOp → Prop
  | .applySnapshot _ _ => False
  | .applyDelta d _ => b.withinGap d 0 = true ∧ d.EndsNegative
  | .applyDeltaWithGapTolerance d maxGap _ => b.withinGap d maxGap = true ∧ d.EndsNegative

theorem lastWrites_positive_iff (levels : List Level) :
    (∀ price size, lastWrite (levels.map Level.write) price = some (some size) → 0 < size) ↔
      ∀ price level, (levels.reverse.find? fun l => l.price = price) = some level → 0 ≤ level.size := by
  simp only [lastWrite_levels]
  constructor
  · intro h price level hlast
    rcases eq_or_ne level.size 0 with hzero | hzero
    · exact hzero.ge
    · exact (h price level.size (by rw [hlast, Option.map_some, Level.write, if_neg hzero])).le
  · intro h price size hwrite
    obtain ⟨level,hlast,hsize⟩ := Option.map_eq_some_iff.mp hwrite
    rw [Level.write] at hsize
    split_ifs at hsize with hzero
    cases hsize
    exact lt_of_le_of_ne (h price level hlast) (Ne.symm hzero)

namespace OrderBook.PositiveSizes
variable {b : OrderBook}

theorem new (symbol : String) : (OrderBook.new symbol).PositiveSizes := by
  intro side price size h
  cases side <;> simp [OrderBook.new, BookInner.side] at h

theorem applySnapshot (b : OrderBook) (s : OrderbookSnapshot) (now : Instant) :
    (b.applySnapshot s now).2.PositiveSizes := by
  intro side price size h
  rw [side_applySnapshot, getElem?_insertLevels_empty] at h
  have hempty : ∀ price size : Decimal, (fun _ : Decimal => (none : Option Decimal)) price = some size →
      0 < size := fun _ _ hnone => nomatch hnone
  refine overwrite_forall (P := fun _ size => 0 < size) hempty (fun price size hmem => ?_) h
  obtain ⟨level,hlevel,hwrite⟩ := List.mem_map.mp hmem
  have hpos : 0 < level.size := of_decide_eq_true (List.mem_filter.mp hlevel).2
  rw [Level.write, if_neg hpos.ne'] at hwrite
  cases hwrite
  exact hpos

theorem updateLevels_iff (h : b.PositiveSizes) (d : OrderbookDelta) (now : Instant) :
    (b.updateLevels d now).PositiveSizes ↔ ¬ d.EndsNegative := by
  have hside : ∀ side, (∀ price size : Decimal,
        ((b.updateLevels d now).inner.side side)[price]? = some size → 0 < size) ↔
      ∀ price level, ((d.levels side).reverse.find? fun l => l.price = price) = some level →
        0 ≤ level.size := by
    intro side
    simp only [side_updateLevels, getElem?_applyLevels]
    exact (overwrite_forall_iff (h side)).trans (lastWrites_positive_iff _)
  simp only [PositiveSizes, hside, OrderbookDelta.EndsNegative, not_exists, not_and, not_lt]

end OrderBook.PositiveSizes

theorem positiveSizes_apply_iff {b : OrderBook} (h : b.PositiveSizes) (op : BookOp) :
    (op.apply b).2.PositiveSizes ↔ ¬ StoresNegative b op := by
  cases op with
  | applySnapshot s now => exact iff_of_true (.applySnapshot b s now) id
  | applyDelta d now =>
    cases hgap : b.withinGap d 0 with
    | true =>
      rw [BookOp.apply, applyDelta_accepted hgap, h.updateLevels_iff d now]
      simp only [StoresNegative, hgap, true_and]
    | false =>
      rw [BookOp.apply, applyDelta_rejected hgap]
      exact iff_of_true h fun hbad => absurd (hgap.symm.trans hbad.1) Bool.false_ne_true
  | applyDeltaWithGapTolerance d maxGap now =>
    cases hgap : b.withinGap d maxGap with
    | true =>
      rw [BookOp.apply, applyDeltaWithGapTolerance_accepted hgap]
      simp only [StoresNegative, hgap, true_and]
      exact h.updateLevels_iff d now
    | false =>
      rw [BookOp.apply, applyDeltaWithGapTolerance_rejected hgap]
      exact iff_of_true h fun hbad => absurd (hgap.symm.trans hbad.1) Bool.false_ne_true

/-- All sizes are positive in every state of a run exactly when no accepted delta
of the run ends negative. -/
theorem positiveSizes_iff (symbol : String) (ops : List BookOp) :
    (∀ pre, pre <+: ops → (BookRun.run symbol pre).book.PositiveSizes) ↔
      ∀ pre op post, ops = pre ++ op :: post → ¬ StoresNegative (BookRun.run symbol pre).book op :=
  BookRun.run_forall_iff (.new symbol)
    (fun _ op h hgood => (positiveSizes_apply_iff h op).mpr hgood)
    (fun _ op h hbad hafter => (positiveSizes_apply_iff h op).mp hafter hbad) ops

theorem negative_bid_stored :
    ¬ (BookRun.run "BTCUSDT" [.applySnapshot ⟨"BTCUSDT",[⟨100,2⟩],[],some 5,none⟩ 0,
      .applyDelta ⟨"BTCUSDT",[⟨99,-1⟩],[],some 5,some 6,none⟩ 1]).book.PositiveSizes := by
  intro h
  have hpos := h .bid 99 (-1) (by decide +kernel)
  exact absurd hpos (by norm_num)

end ArbCore

import ArbCore.Library.GreedyFill
import ArbCore.Orderbook.PositiveSizes

/-! # What an estimated fill takes and what it costs

The estimate walks one side of the book from its best price and stops when nothing
more is wanted. On positive sizes this is the greedy fill. The walk itself keeps
wanted and taken together constant whatever the signs of the sizes are.
-/
namespace ArbCore
open GreedyFill

namespace OrderBook

/-- The levels that an estimate walks: a buyer takes asks and a seller hits bids. -/
def walked (b : OrderBook) : Side → List (Decimal × Decimal)
  | .bid => b.inner.asks.toList
  | .ask => b.inner.bids.toList.reverse

def depth (b : OrderBook) (side : Side) : Decimal := ((b.walked side).map Prod.snd).sum

/-- An amount for each price, between zero and its size, with the target as their sum. -/
structure Fills (b : OrderBook) (side : Side) (target : Decimal) (amount : Decimal → Decimal) : Prop where
  within : ∀ l ∈ b.walked side, 0 ≤ amount l.1 ∧ amount l.1 ≤ l.2
  total : ((b.walked side).map fun l => amount l.1).sum = target

def cost (b : OrderBook) (side : Side) (amount : Decimal → Decimal) : Decimal :=
  ((b.walked side).map fun l => l.1 * amount l.1).sum

def fillCosts (b : OrderBook) (side : Side) (target : Decimal) : Set Decimal :=
  {n | ∃ amount, b.Fills side target amount ∧ b.cost side amount = n}

end OrderBook

section Walk
variable {b : OrderBook} {side : Side} {target : Decimal}

theorem fillLevels_balance (levels : List (Decimal × Decimal)) (s : FillState) :
    (fillLevels levels s).totalQty + (fillLevels levels s).targetSize = s.totalQty + s.targetSize := by
  induction levels generalizing s with
  | nil => rfl
  | cons l levels ih =>
    rw [fillLevels]
    split
    · rfl
    · rw [ih]
      exact add_add_sub_cancel _ _ _

theorem fillLevels_target_nonneg (levels : List (Decimal × Decimal)) {s : FillState}
    (h : 0 ≤ s.targetSize) : 0 ≤ (fillLevels levels s).targetSize := by
  induction levels generalizing s with
  | nil => exact h
  | cons l levels ih =>
    rw [fillLevels]
    split
    · exact h
    · refine ih (sub_nonneg.mpr ?_)
      split
      · assumption
      · exact le_rfl

theorem estimateFillPrice_eq (b : OrderBook) (side : Side) (h : 0 < target) :
    b.estimateFillPrice side target =
      let s := fillLevels (b.walked side) ⟨target,0,0⟩
      if s.targetSize > 0 then .error .insufficientDepth
      else .ok ⟨s.totalNotional / s.totalQty, s.totalQty, s.totalNotional⟩ := by
  unfold OrderBook.estimateFillPrice
  rw [if_neg h.not_ge]
  cases side <;> rfl

/-- Wanted and taken together stay the target, and nothing is wanted any more. -/
theorem estimateFillPrice_ok {r : EstimatedFill} (h : b.estimateFillPrice side target = .ok r) :
    0 < target ∧ r.totalQty = target ∧ r.avgPrice = r.totalNotional / r.totalQty := by
  have hpos : 0 < target := by
    by_contra hle
    unfold OrderBook.estimateFillPrice at h
    rw [if_pos (not_lt.mp hle)] at h
    cases h
  rw [estimateFillPrice_eq b side hpos] at h
  dsimp only at h
  split at h
  · cases h
  · rename_i hdone
    have hzero : (fillLevels (b.walked side) ⟨target,0,0⟩).targetSize = 0 :=
      le_antisymm (not_lt.mp hdone) (fillLevels_target_nonneg _ hpos.le)
    have hbalance := fillLevels_balance (b.walked side) ⟨target,0,0⟩
    rw [hzero, add_zero, zero_add] at hbalance
    cases h
    exact ⟨hpos,hbalance,rfl⟩

theorem walked_bid_rises (b : OrderBook) : (b.walked .bid).Pairwise fun k l => k.1 < l.1 :=
  toList_rises _

theorem walked_ask_falls (b : OrderBook) : (b.walked .ask).Pairwise fun k l => l.1 < k.1 :=
  List.pairwise_reverse.mpr (toList_rises _)

theorem walked_prices (b : OrderBook) (side : Side) : (b.walked side).Pairwise fun k l => k.1 ≠ l.1 := by
  cases side with
  | bid => exact (walked_bid_rises b).imp ne_of_lt
  | ask => exact (walked_ask_falls b).imp ne_of_gt

theorem OrderBook.PositiveSizes.walked (hb : b.PositiveSizes) (side : Side) :
    ∀ l ∈ b.walked side, 0 ≤ l.2 := by
  rintro ⟨price,size⟩ hl
  cases side with
  | bid => exact (hb .ask price size (Std.ExtTreeMap.mem_toList_iff_getElem?_eq_some.mp hl)).le
  | ask =>
    have hmem := List.mem_reverse.mp hl
    exact (hb .bid price size (Std.ExtTreeMap.mem_toList_iff_getElem?_eq_some.mp hmem)).le

/-- On sizes that are not negative the walk is the greedy fill. -/
theorem fillLevels_eq {levels : List (Decimal × Decimal)} (hsizes : ∀ l ∈ levels, 0 ≤ l.2)
    {s : FillState} (hs : 0 ≤ s.targetSize) :
    fillLevels levels s = ⟨s.targetSize - (takes levels s.targetSize).sum,
      s.totalQty + (takes levels s.targetSize).sum,
      s.totalNotional + worth levels (takes levels s.targetSize)⟩ := by
  induction levels generalizing s with
  | nil => simp [fillLevels, takes, worth]
  | cons l levels ih =>
    rw [fillLevels]
    split
    · rename_i hdone
      obtain ⟨t,q,n⟩ := s
      obtain rfl : t = 0 := le_antisymm hdone hs
      simp only [sum_takes_zero hsizes, worth_takes_zero hsizes, sub_zero, add_zero]
    · have hrest := ih (fun k hk => hsizes k (List.mem_cons_of_mem _ hk))
        (s := ⟨s.targetSize - min l.2 s.targetSize,s.totalQty + min l.2 s.targetSize,
          s.totalNotional + min l.2 s.targetSize * l.1⟩) (rest_nonneg _ _)
      rw [← min_def]
      dsimp only at hrest ⊢
      rw [hrest, takes, List.sum_cons, worth]
      congr 1
      · ring
      · ring
      · ring

theorem fills_iff {amount : Decimal → Decimal} :
    b.Fills side target amount ↔ Within (b.walked side) ((b.walked side).map fun l => amount l.1) ∧
      ((b.walked side).map fun l => amount l.1).sum = target := by
  rw [Within, List.forall₂_map_right_iff, List.forall₂_same]
  exact ⟨fun h => ⟨h.within,h.total⟩,fun h => ⟨h.1,h.2⟩⟩

theorem cost_eq (b : OrderBook) (side : Side) (amount : Decimal → Decimal) :
    b.cost side amount = worth (b.walked side) ((b.walked side).map fun l => amount l.1) :=
  (worth_map _ _).symm

theorem worth_takes_mem_fillCosts (hb : b.PositiveSizes) (ht : 0 ≤ target)
    (hle : target ≤ b.depth side) :
    worth (b.walked side) (takes (b.walked side) target) ∈ b.fillCosts side target := by
  have hwithin := takes_within (hb.walked side) ht
  obtain ⟨amount,hamount⟩ := exists_map_eq (walked_prices b side) hwithin.length_eq.symm
  refine ⟨amount,fills_iff.mpr ?_,?_⟩
  · rw [hamount]
    exact ⟨hwithin,sum_takes_of_le (hb.walked side) ht hle⟩
  · rw [cost_eq, hamount]

theorem isLeast_fillCosts (hb : b.PositiveSizes) (ht : 0 ≤ target) (hle : target ≤ b.depth .bid) :
    IsLeast (b.fillCosts .bid target) (worth (b.walked .bid) (takes (b.walked .bid) target)) := by
  refine ⟨worth_takes_mem_fillCosts hb ht hle,?_⟩
  rintro n ⟨amount,hfills,rfl⟩
  obtain ⟨hwithin,htotal⟩ := fills_iff.mp hfills
  rw [cost_eq, ← htotal]
  exact worth_takes_le ((walked_bid_rises b).imp le_of_lt) hwithin

theorem isGreatest_fillCosts (hb : b.PositiveSizes) (ht : 0 ≤ target) (hle : target ≤ b.depth .ask) :
    IsGreatest (b.fillCosts .ask target) (worth (b.walked .ask) (takes (b.walked .ask) target)) := by
  refine ⟨worth_takes_mem_fillCosts hb ht hle,?_⟩
  rintro n ⟨amount,hfills,rfl⟩
  obtain ⟨hwithin,htotal⟩ := fills_iff.mp hfills
  rw [cost_eq, ← htotal]
  exact le_worth_takes ((walked_ask_falls b).imp le_of_lt) hwithin

/-- The estimate is decided by the depth, and where it succeeds it prices the greedy fill. -/
theorem estimateFillPrice_greedy (hb : b.PositiveSizes) (ht : 0 < target) :
    b.estimateFillPrice side target =
      if b.depth side < target then .error .insufficientDepth
      else .ok ⟨worth (b.walked side) (takes (b.walked side) target) / target, target,
        worth (b.walked side) (takes (b.walked side) target)⟩ := by
  rw [estimateFillPrice_eq b side ht, fillLevels_eq (hb.walked side) ht.le]
  dsimp only
  have hsum := sum_takes (hb.walked side) ht.le
  rcases lt_or_ge (b.depth side) target with hlt | hle
  · have hshort : 0 < target - (takes (b.walked side) target).sum := by
      rw [hsum, sub_pos]
      exact (min_le_left _ _).trans_lt hlt
    rw [if_pos hshort, if_pos hlt]
  · have hfull := sum_takes_of_le (hb.walked side) ht.le hle
    rw [hfull, sub_self, if_neg (lt_irrefl _), if_neg hle.not_gt, zero_add, zero_add]

theorem greedy_of_ok {r : EstimatedFill} (hb : b.PositiveSizes)
    (h : b.estimateFillPrice side target = .ok r) :
    0 < target ∧ target ≤ b.depth side ∧
      r.avgPrice = worth (b.walked side) (takes (b.walked side) target) / target := by
  have ht := (estimateFillPrice_ok h).1
  rw [estimateFillPrice_greedy hb ht] at h
  split at h
  · cases h
  · cases h
    exact ⟨ht,not_lt.mp ‹_›,rfl⟩

end Walk

/-- The estimate fails exactly where the side is too shallow; otherwise it fills the target
at the lowest cost for a buyer and for the highest proceeds of a seller. -/
theorem estimateFillPrice_optimal (b : OrderBook) (hb : b.PositiveSizes) (side : Side)
    (target : Decimal) (ht : 0 < target) :
    (b.estimateFillPrice side target = .error .insufficientDepth ↔ b.depth side < target) ∧
    (¬ b.depth side < target → ∃ r, b.estimateFillPrice side target = .ok r ∧
      r.totalQty = target ∧ r.avgPrice * r.totalQty = r.totalNotional ∧
      match side with
      | .bid => IsLeast (b.fillCosts side target) r.totalNotional
      | .ask => IsGreatest (b.fillCosts side target) r.totalNotional) := by
  rw [estimateFillPrice_greedy hb ht]
  constructor
  · split
    · exact iff_of_true rfl ‹_›
    · exact iff_of_false (fun h => by cases h) ‹_›
  · intro hdeep
    rw [if_neg hdeep]
    refine ⟨_,rfl,rfl,div_mul_cancel₀ _ ht.ne',?_⟩
    cases side with
    | bid => exact isLeast_fillCosts hb ht.le (not_lt.mp hdeep)
    | ask => exact isGreatest_fillCosts hb ht.le (not_lt.mp hdeep)

def twoAsks : OrderBook :=
  ((OrderBook.new "BTCUSDT").applySnapshot ⟨"BTCUSDT",[],[⟨101,2⟩,⟨100,1⟩],some 5,none⟩ 0).2

theorem twoAsks_positive : twoAsks.PositiveSizes := .applySnapshot _ _ _

theorem estimateFillPrice_optimal_twoAsks :
    twoAsks.estimateFillPrice .bid 2 = .ok ⟨201/2,2,201⟩ ∧ IsLeast (twoAsks.fillCosts .bid 2) 201 := by
  have hok : twoAsks.estimateFillPrice .bid 2 = .ok ⟨201/2,2,201⟩ := by decide +kernel
  obtain ⟨r,hr,_,_,hleast⟩ :=
    (estimateFillPrice_optimal twoAsks twoAsks_positive .bid 2 (by norm_num)).2 (by decide +kernel)
  rw [hok] at hr
  cases hr
  exact ⟨hok,hleast⟩

/-- On the book of any run, negative sizes included, an estimate that succeeds took exactly
the requested size, so it never divides by zero. -/
theorem estimateFillPrice_run (symbol : String) (ops : List BookOp) (side : Side) (target : Decimal)
    (r : EstimatedFill) (h : (BookRun.run symbol ops).book.estimateFillPrice side target = .ok r) :
    r.totalQty = target ∧ 0 < target ∧ r.totalQty ≠ 0 ∧ r.avgPrice * r.totalQty = r.totalNotional := by
  obtain ⟨hpos,hqty,havg⟩ := estimateFillPrice_ok h
  have hne : r.totalQty ≠ 0 := hqty ▸ hpos.ne'
  exact ⟨hqty,hpos,hne,by rw [havg, div_mul_cancel₀ _ hne]⟩

/-- The ask of size -1 raises what is still wanted from 2 to 3. -/
theorem estimateFillPrice_run_negative :
    (BookRun.run "BTCUSDT" [.applySnapshot ⟨"BTCUSDT",[],[⟨101,5⟩],some 5,none⟩ 0,
      .applyDelta ⟨"BTCUSDT",[],[⟨100,-1⟩],some 5,some 6,none⟩ 1]).book.estimateFillPrice .bid 2 =
        .ok ⟨203/2,2,203⟩ ∧
    (⟨203/2,2,203⟩ : EstimatedFill).totalQty ≠ 0 := by
  have hok : (BookRun.run "BTCUSDT" [.applySnapshot ⟨"BTCUSDT",[],[⟨101,5⟩],some 5,none⟩ 0,
      .applyDelta ⟨"BTCUSDT",[],[⟨100,-1⟩],some 5,some 6,none⟩ 1]).book.estimateFillPrice .bid 2 =
        .ok ⟨203/2,2,203⟩ := by
    decide +kernel
  exact ⟨hok,(estimateFillPrice_run _ _ _ _ _ hok).2.2.1⟩

end ArbCore

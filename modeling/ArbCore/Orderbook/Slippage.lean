import ArbCore.Orderbook.FillEstimate

/-! # Slippage

A larger fill reaches deeper levels and pays a worse average. The average lies
between the best price of the walked side and the last price that the walk reached.
-/
namespace ArbCore
open GreedyFill

def Side.NoWorse : Side → Decimal → Decimal → Prop
  | .bid, p, q => p ≤ q
  | .ask, p, q => q ≤ p

theorem Side.NoWorse.refl (side : Side) (p : Decimal) : side.NoWorse p p := by
  cases side <;> exact le_rfl

instance (side : Side) : Std.Refl fun k l : Decimal × Decimal => side.NoWorse k.1 l.1 :=
  ⟨fun k => .refl side k.1⟩

namespace OrderBook

def bestWalked (b : OrderBook) : Side → Option Level
  | .bid => b.bestAsk
  | .ask => b.bestBid

def touchedLevels (b : OrderBook) (side : Side) (target : Decimal) : List (Decimal × Decimal) :=
  touched (b.walked side) target

end OrderBook

section Touched
variable {b : OrderBook} {side : Side} {target : Decimal} {r : EstimatedFill}

theorem bestWalked_eq (b : OrderBook) (side : Side) :
    b.bestWalked side = (b.walked side).head?.map fun l => ⟨l.1,l.2⟩ := by
  cases side <;> rfl

theorem walked_noWorse (b : OrderBook) (side : Side) :
    (b.walked side).Pairwise fun k l => side.NoWorse k.1 l.1 := by
  cases side with
  | bid => exact (walked_bid_rises b).imp le_of_lt
  | ask => exact (walked_ask_falls b).imp le_of_lt

theorem average_noWorse {first last : Decimal} (hb : b.PositiveSizes)
    (h : b.estimateFillPrice side target = .ok r)
    (hfirst : ∀ l ∈ b.touchedLevels side target, side.NoWorse first l.1)
    (hlast : ∀ l ∈ b.touchedLevels side target, side.NoWorse l.1 last) :
    side.NoWorse first r.avgPrice ∧ side.NoWorse r.avgPrice last := by
  obtain ⟨ht,hle,havg⟩ := greedy_of_ok hb h
  rw [havg]
  cases side with
  | bid => exact ⟨le_average (hb.walked _) ht hle hfirst,average_le (hb.walked _) ht hle hlast⟩
  | ask => exact ⟨average_le (hb.walked _) ht hle hfirst,le_average (hb.walked _) ht hle hlast⟩

theorem walked_eq_cons (hb : b.PositiveSizes) (h : b.estimateFillPrice side target = .ok r) :
    ∃ l rest, b.walked side = l :: rest := by
  obtain ⟨ht,hle,_⟩ := greedy_of_ok hb h
  refine List.exists_cons_of_ne_nil fun hnil => ?_
  rw [OrderBook.depth, hnil] at hle
  exact absurd hle ht.not_ge

/-- The average lies between the best price and the price of the last touched level. -/
theorem average_between (hb : b.PositiveSizes) (h : b.estimateFillPrice side target = .ok r) :
    ∃ best last, b.bestWalked side = some best ∧
      (b.touchedLevels side target).getLast? = some last ∧
      side.NoWorse best.price r.avgPrice ∧ side.NoWorse r.avgPrice last.1 := by
  obtain ⟨l,rest,hwalked⟩ := walked_eq_cons hb h
  have hsorted : (b.touchedLevels side target).Pairwise fun k l => side.NoWorse k.1 l.1 :=
    (walked_noWorse b side).sublist (touched_sublist _ _)
  have htouched : b.touchedLevels side target = l :: touched rest (target - min l.2 target) := by
    rw [OrderBook.touchedLevels, hwalked, touched, if_neg (greedy_of_ok hb h).1.not_ge]
  have hne : b.touchedLevels side target ≠ [] := htouched ▸ List.cons_ne_nil _ _
  refine ⟨⟨l.1,l.2⟩,_,by rw [bestWalked_eq, hwalked]; rfl,List.getLast?_eq_some_getLast hne,?_⟩
  refine average_noWorse hb h (fun k hk => ?_) (fun k hk => hsorted.rel_getLast hk)
  have hhead := hsorted.rel_head hk
  simpa only [htouched, List.head_cons] using hhead

end Touched

/-- Of two fills that succeed the smaller one has the average that is no worse, and both
averages lie within the touched prices. -/
theorem slippage_monotone (b : OrderBook) (hb : b.PositiveSizes) (side : Side) (a c : Decimal)
    (ra rc : EstimatedFill) (ha : 0 < a) (hac : a ≤ c) (hra : b.estimateFillPrice side a = .ok ra)
    (hrc : b.estimateFillPrice side c = .ok rc) :
    side.NoWorse ra.avgPrice rc.avgPrice ∧
    ∀ target r, (target = a ∧ r = ra ∨ target = c ∧ r = rc) →
      ∃ best last, b.bestWalked side = some best ∧
        (b.touchedLevels side target).getLast? = some last ∧
        side.NoWorse best.price r.avgPrice ∧ side.NoWorse r.avgPrice last.1 := by
  constructor
  · obtain ⟨hc,hle,havgc⟩ := greedy_of_ok hb hrc
    rw [(greedy_of_ok hb hra).2.2, havgc]
    cases side with
    | bid => exact worth_div_le (hb.walked _) ((walked_bid_rises b).imp le_of_lt) ha hac hle
    | ask => exact le_worth_div (hb.walked _) ((walked_ask_falls b).imp le_of_lt) ha hac hle
  · rintro target r (⟨rfl,rfl⟩ | ⟨rfl,rfl⟩)
    · exact average_between hb hra
    · exact average_between hb hrc

theorem slippage_monotone_twoAsks :
    twoAsks.estimateFillPrice .bid 3 = .ok ⟨302/3,3,302⟩ ∧
    Side.NoWorse .bid 100 (302/3) ∧
    ∃ last, (twoAsks.touchedLevels .bid 3).getLast? = some last ∧ Side.NoWorse .bid (302/3) last.1 := by
  have hone : twoAsks.estimateFillPrice .bid 1 = .ok ⟨100,1,100⟩ := by decide +kernel
  have hthree : twoAsks.estimateFillPrice .bid 3 = .ok ⟨302/3,3,302⟩ := by decide +kernel
  obtain ⟨hmono,hbetween⟩ := slippage_monotone twoAsks twoAsks_positive .bid 1 3 _ _ (by norm_num)
    (by norm_num) hone hthree
  obtain ⟨_,last,_,hlast,_,hle⟩ := hbetween 3 _ (.inr ⟨rfl,rfl⟩)
  exact ⟨hthree,hmono,last,hlast,hle⟩

end ArbCore

import ArbCore.Orderbook.Types

/-! # Strategy configuration and its validation -/
namespace ArbCore

structure FeeInfo where
  maker : Decimal
  taker : Decimal

inductive Aggression where
  | aggressive
  | passive
deriving DecidableEq

/-- `depthFillFactor` is `none` when the float is not finite. -/
structure Limits where
  maxNotional : Decimal
  minProfitAbs : Decimal
  minProfitPct : Decimal
  depthFillFactor : Option ℚ

structure LotRule where
  minSize : Decimal
  stepSize : Decimal
  minNotional : Decimal

structure StrategyConfig where
  triangle : List String
  baseCurrency : String
  feeMap : HashMap FeeInfo
  limits : Limits
  aggression : Aggression
  maxConcurrentPlans : ℕ
  orderTimeoutMs : ℕ
  lotRules : HashMap LotRule

inductive StrategyError where
  | validation (message : String)
  | qtyRoundedZero (symbol : String)
  | minNotional (symbol : String) (notional required : Decimal)
deriving DecidableEq

def isWhiteSpace (c : Char) : Bool :=
  (9 ≤ c.toNat && c.toNat ≤ 13) || (0x2000 ≤ c.toNat && c.toNat ≤ 0x200A) ||
    [0x20,0x85,0xA0,0x1680,0x2028,0x2029,0x202F,0x205F,0x3000].contains c.toNat

def inUnitRange (x : Option ℚ) : Bool := x.any fun r => 0 ≤ r && r ≤ 1

def FeeInfo.negative (f : FeeInfo) : Bool := f.maker < 0 || f.taker < 0

def LotRule.negative (r : LotRule) : Bool := r.minSize < 0 || r.stepSize < 0 || r.minNotional < 0

namespace StrategyConfig

def validate (cfg : StrategyConfig) : Except StrategyError Unit :=
  if cfg.triangle.length ≠ 3 then
    .error (.validation "triangle must contain exactly 3 symbols")
  else if cfg.baseCurrency.toList.all isWhiteSpace then
    .error (.validation "base_currency must be set")
  else if cfg.maxConcurrentPlans = 0 then
    .error (.validation "max_concurrent_plans must be > 0")
  else if ¬ inUnitRange cfg.limits.depthFillFactor then
    .error (.validation "limits.depth_fill_factor must be between 0.0 and 1.0")
  else if cfg.limits.minProfitPct < 0 then
    .error (.validation "limits.min_profit_pct must be >= 0")
  else
    -- both loops return at the first offending entry
    match cfg.feeMap.entries.find? fun e => e.2.negative with
    | some e => .error (.validation ("fee values must be >= 0 for key " ++ e.1))
    | none =>
      match cfg.lotRules.entries.find? fun e => e.2.negative with
      | some e => .error (.validation ("lot_rules must be >= 0 for " ++ e.1))
      | none => .ok ()

structure Valid (cfg : StrategyConfig) : Prop where
  triangle : cfg.triangle.length = 3
  baseCurrency : cfg.baseCurrency.toList.all isWhiteSpace = false
  concurrency : 0 < cfg.maxConcurrentPlans
  depthFillFactor : inUnitRange cfg.limits.depthFillFactor = true
  minProfitPct : 0 ≤ cfg.limits.minProfitPct
  fees : ∀ sym f, cfg.feeMap.lookup sym = some f → 0 ≤ f.maker ∧ 0 ≤ f.taker
  rules : ∀ sym r, cfg.lotRules.lookup sym = some r →
    0 ≤ r.minSize ∧ 0 ≤ r.stepSize ∧ 0 ≤ r.minNotional

theorem find?_eq_none_iff {V : Type} {m : HashMap V} {bad : V → Bool} :
    (m.entries.find? fun e => bad e.2) = none ↔ ∀ sym v, m.lookup sym = some v → bad v = false := by
  rw [List.find?_eq_none]
  constructor
  · intro h sym v hv
    simpa using h _ (AList.mem_lookup_iff.mp hv)
  · intro h e he
    simpa using h e.1 e.2 (AList.mem_lookup_iff.mpr he)

theorem fees_iff (cfg : StrategyConfig) :
    (cfg.feeMap.entries.find? fun e => e.2.negative) = none ↔
      ∀ sym f, cfg.feeMap.lookup sym = some f → 0 ≤ f.maker ∧ 0 ≤ f.taker := by
  rw [find?_eq_none_iff]
  simp only [FeeInfo.negative, Bool.or_eq_false_iff, decide_eq_false_iff_not, not_lt]

theorem rules_iff (cfg : StrategyConfig) :
    (cfg.lotRules.entries.find? fun e => e.2.negative) = none ↔
      ∀ sym r, cfg.lotRules.lookup sym = some r →
        0 ≤ r.minSize ∧ 0 ≤ r.stepSize ∧ 0 ≤ r.minNotional := by
  rw [find?_eq_none_iff]
  simp only [LotRule.negative, Bool.or_eq_false_iff, decide_eq_false_iff_not, not_lt, and_assoc]

/-- Validation accepts exactly the valid configurations. -/
theorem validate_iff (cfg : StrategyConfig) : cfg.validate = .ok () ↔ cfg.Valid := by
  constructor
  · intro h
    unfold validate at h
    split_ifs at h with htri hbase hconc hdepth hpct
    cases hfee : cfg.feeMap.entries.find? fun e => e.2.negative with
    | some e => simp [hfee] at h
    | none =>
      cases hrule : cfg.lotRules.entries.find? fun e => e.2.negative with
      | some e => simp [hfee, hrule] at h
      | none =>
        exact ⟨not_not.mp htri,by simpa using hbase,Nat.pos_of_ne_zero hconc,hdepth,
          not_lt.mp hpct,(fees_iff cfg).mp hfee,(rules_iff cfg).mp hrule⟩
  · intro h
    have hfee := (fees_iff cfg).mpr h.fees
    have hrule := (rules_iff cfg).mpr h.rules
    simp only [validate, h.triangle, h.baseCurrency, h.concurrency.ne', h.depthFillFactor,
      not_lt.mpr h.minProfitPct, hfee, hrule, ne_eq, not_true_eq_false, Bool.false_eq_true, ↓reduceIte]

end StrategyConfig

/-- The taker fee of a symbol, zero when the map does not list it. -/
def takerFee (feeMap : HashMap FeeInfo) (sym : String) : Decimal :=
  ((feeMap.lookup sym).map FeeInfo.taker).getD 0

theorem takerFee_forall {P : Decimal → Prop} {feeMap : HashMap FeeInfo} (hzero : P 0)
    (h : ∀ sym f, feeMap.lookup sym = some f → P f.taker) (sym : String) : P (takerFee feeMap sym) := by
  unfold takerFee
  cases hf : feeMap.lookup sym with
  | none => exact hzero
  | some f => exact h sym f hf

end ArbCore

import ArbCore.Strategy.EngineSteps

/-! # The cap on plans in flight

The detector counts the plans in one lock section and registers a new one in a
later section. In between only the monitor touches the map, and it only removes
plans, so the remembered count bounds the current one.
-/
namespace ArbCore
open LabelledRun

/-- How many plans there may be, with what the detector remembers between its
two lock sections. -/
def DetectorPhase.Bound (max len : ℕ) : DetectorPhase → Prop
  | .counted _ _ n => len ≤ max ∧ len ≤ n
  | .planned _ _ => len < max
  | _ => len ≤ max

namespace DetectorPhase.Bound
variable {max len len' : ℕ} {d : DetectorPhase}

theorem le (h : d.Bound max len) : len ≤ max := by
  cases d <;> simp only [Bound] at h <;> omega

theorem mono (h : d.Bound max len) (hlen : len' ≤ len) : d.Bound max len' := by
  cases d <;> simp only [Bound] at h ⊢ <;> omega

end DetectorPhase.Bound

namespace Engine
variable {cfg : StrategyConfig} {storage : Bool} {e t : Engine}

def Capped (cfg : StrategyConfig) (e : Engine) : Prop :=
  e.detector.Bound cfg.maxConcurrentPlans e.inflight.keys.length

theorem capped_detectorMove {i : DetectorInput} (he : Capped cfg e) (h : DetectorMove cfg e i t) :
    Capped cfg t := by
  have hle := DetectorPhase.Bound.le he
  cases h with
  | detected _ _ => exact hle
  | detectPanicked _ _ => exact hle
  | viewDone _ => exact hle
  | counted _ => exact ⟨hle,le_rfl⟩
  | @takenUp op rest n hphase =>
    rw [Capped, hphase] at he
    rcases @takeUp_cases _ cfg op rest n i.planId with ⟨plan,hp⟩ | hr | hr
    · have hcap := (takeUp_planned hp).2.1
      simp only [Capped, hp, DetectorPhase.Bound]
      exact he.2.trans_lt hcap
    · simp only [Capped, hr]
      exact hle
    · simp only [Capped, hr]
      exact hle
  | @registered plan rest hphase =>
    rw [Capped, hphase] at he
    exact (length_keys_insert _ _ _).trans he
  | sent _ _ => exact hle
  | unsent _ _ => exact hle
  | submitted _ => exact hle
  | unregistered _ => exact (length_keys_erase _ _).trans hle
  | rejected _ => exact hle

theorem capped_step {ev : EngineEvent} (he : Capped cfg e) (h : e.step cfg storage ev = some t) :
    Capped cfg t := by
  rcases step_cases h with ⟨view,-,-,rfl⟩ | ⟨-,rfl⟩ | ⟨i,-,hmove⟩ | ⟨hd,-,hlen⟩
  · exact DetectorPhase.Bound.le he
  · exact DetectorPhase.Bound.le he
  · exact capped_detectorMove he hmove
  · rw [Capped, hd]
    exact he.mono hlen

/-- However the two loops interleave, the plans in flight stay within the cap. -/
theorem inflight_le_maxConcurrentPlans {events : List EngineEvent}
    (h : run (step cfg storage) new events = some e) :
    e.inflight.keys.length ≤ cfg.maxConcurrentPlans := by
  have hnew : Capped cfg new := Nat.zero_le _
  have hcap := run_invariant (fun _ _ _ => capped_step) hnew h
  exact hcap.le

end Engine

def plainConfig : StrategyConfig where
  triangle := ["BTCUSDT","ETHUSDT","ETHBTC"]
  baseCurrency := "USDT"
  feeMap := ∅
  limits := ⟨0,0,0,some 1⟩
  aggression := .aggressive
  maxConcurrentPlans := 1
  orderTimeoutMs := 1000
  lotRules := ∅

def submitOne (view : TriView) (id : String) : List EngineEvent :=
  .view view :: List.replicate 6 (.detector ⟨id,0,true⟩)

namespace Engine

theorem inflight_le_maxConcurrentPlans_submitOne :
    ((run (step plainConfig false) new (submitOne mispricedView "p1")).get
      (by decide +kernel)).inflight.keys.length ≤ 1 :=
  inflight_le_maxConcurrentPlans (Option.some_get _).symm

end Engine

end ArbCore

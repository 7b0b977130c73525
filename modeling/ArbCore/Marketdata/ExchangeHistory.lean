import ArbCore.Library.LastWrite
import ArbCore.Marketdata.Manager

/-! # Exchange histories and the strict worker

An exchange history is a start state and a sequence of events that overwrite
levels by absolute sizes. The worker sees its messages in any order, with any
loss and duplication. In strict mode its book, once a snapshot was applied, is
always one of the exchange states, the one its sequence number names.
-/
namespace ArbCore
open LastWrite

abbrev ExchangeState := Side → Decimal → Option Decimal

structure ExchangeEvent where
  levels : Side → List Level
  sizes_nonneg : ∀ side, ∀ l ∈ levels side, 0 ≤ l.size

def ExchangeState.apply (s : ExchangeState) (e : ExchangeEvent) : ExchangeState :=
  fun side => overwrite (s side) ((e.levels side).map Level.write)

structure ExchangeHistory where
  start : ExchangeState
  start_pos : ∀ side p q, start side p = some q → 0 < q
  event : ℕ → ExchangeEvent

namespace ExchangeHistory

/-- State `i` has the events `1` to `i` applied. -/
def state (h : ExchangeHistory) : ℕ → ExchangeState
  | 0 => h.start
  | i + 1 => (h.state i).apply (h.event (i + 1))

theorem state_pos (h : ExchangeHistory) (i : ℕ) (side : Side) (p q : Decimal)
    (hq : h.state i side p = some q) : 0 < q := by
  induction i generalizing p q with
  | zero => exact h.start_pos side p q hq
  | succ i ih =>
    refine overwrite_forall (P := fun _ q => 0 < q) ih ?_ hq
    intro p' q' hmem
    obtain ⟨l,hl,hw⟩ := List.mem_map.mp hmem
    have hnonneg := (h.event (i + 1)).sizes_nonneg side l hl
    by_cases hz : l.size = 0
    · simp [Level.write, hz] at hw
    · simp only [Level.write, hz, ↓reduceIte, Prod.mk.injEq, Option.some.injEq] at hw
      exact hw.2 ▸ lt_of_le_of_ne hnonneg (Ne.symm hz)

/-- A snapshot at some index lists exactly the levels of that state. -/
def IsSnapshot (h : ExchangeHistory) (s : OrderbookSnapshot) : Prop :=
  ∃ m, s.sequence = some m ∧ ∀ side p q, ⟨p,q⟩ ∈ s.levels side ↔ h.state m side p = some q

/-- Event `i + 1` travels as a delta from `i` to `i + 1`. -/
def IsDelta (h : ExchangeHistory) (d : OrderbookDelta) : Prop :=
  ∃ i, d.prevSequence = some i ∧ d.sequence = some (i + 1) ∧
    ∀ side, d.levels side = (h.event (i + 1)).levels side

def IsMessage (h : ExchangeHistory) : SymbolMessage → Prop
  | .snapshot s => h.IsSnapshot s
  | .delta d => h.IsDelta d

def Answers (h : ExchangeHistory) (env : WorkerEnv) : Prop :=
  ∀ s, fetchSnapshotFor env.provider = some s → h.IsSnapshot s

/-- The book is the exchange state that its sequence number names. -/
def Mirrors (h : ExchangeHistory) (b : OrderBook) : Prop :=
  ∃ m, b.inner.lastSeq = some m ∧ ∀ side p, (b.inner.side side)[p]? = h.state m side p

variable {h : ExchangeHistory}

theorem insertLevels_snapshot {s : OrderbookSnapshot} {m : ℕ} {side : Side}
    (hs : ∀ p q, ⟨p,q⟩ ∈ s.levels side ↔ h.state m side p = some q) (p : Decimal) :
    (insertLevels ∅ (s.levels side))[p]? = h.state m side p := by
  rw [getElem?_insertLevels_empty]
  refine congrFun (overwrite_eq_of_agree ?_ ?_) p
  · intro w hw
    obtain ⟨⟨p',q⟩,hl,rfl⟩ := List.mem_map.mp hw
    obtain ⟨hmem,hpos⟩ := List.mem_filter.mp hl
    have hq : q ≠ 0 := by
      intro hzero
      simp [hzero] at hpos
    simpa [Level.write, hq] using ((hs p' q).mp hmem).symm
  · intro p' hrest
    cases hp : h.state m side p' with
    | none => rfl
    | some q =>
      have hpos := h.state_pos m side p' q hp
      have hmem := (hs p' q).mpr hp
      exact absurd rfl (hrest (p',some q) (List.mem_map.mpr
        ⟨⟨p',q⟩,List.mem_filter.mpr ⟨hmem,by simpa using hpos⟩,by simp [Level.write, hpos.ne']⟩))

theorem mirrors_applySnapshot {s : OrderbookSnapshot} (hs : h.IsSnapshot s) (b : OrderBook)
    (now : Instant) : h.Mirrors (b.applySnapshot s now).2 := by
  obtain ⟨m,hseq,hlevels⟩ := hs
  refine ⟨m,hseq,fun side p => ?_⟩
  rw [side_applySnapshot]
  exact insertLevels_snapshot (hlevels side) p

theorem mirrors_updateLevels {b : OrderBook} {d : OrderbookDelta} {i : ℕ}
    (hb : ∀ side p, (b.inner.side side)[p]? = h.state i side p) (hseq : d.sequence = some (i + 1))
    (hlevels : ∀ side, d.levels side = (h.event (i + 1)).levels side) (now : Instant) :
    h.Mirrors (b.updateLevels d now) := by
  refine ⟨i + 1,hseq,fun side p => ?_⟩
  rw [side_updateLevels, getElem?_applyLevels, hlevels]
  have hfun : (fun p => (b.inner.side side)[p]?) = h.state i side := funext (hb side)
  rw [hfun]
  rfl

/-- With no tolerated gap a delta of the history either follows the mirrored
state or is rejected and leaves the book's contents. -/
theorem mirrors_applyDelta {b : OrderBook} (hb : h.Mirrors b) {d : OrderbookDelta}
    (hd : h.IsDelta d) (now : Instant) : h.Mirrors (b.applyDeltaWithGapTolerance d 0 now).2 := by
  obtain ⟨m,hm,hlevels⟩ := hb
  obtain ⟨i,hprev,hseq,hev⟩ := hd
  simp only [OrderBook.applyDeltaWithGapTolerance, hm, hprev]
  by_cases hi : i = m
  · subst hi
    simp only [ne_eq, not_true_eq_false, false_and, ↓reduceIte]
    exact mirrors_updateLevels hlevels hseq hev now
  · have hgap := sequenceGap_pos hi
    simp only [ne_eq, hi, not_false_eq_true, gt_iff_lt, hgap, and_self, ↓reduceIte]
    exact ⟨m,hm,hlevels⟩

def InStep (h : ExchangeHistory) (w : SymbolWorker) : Prop :=
  w.snapshotApplied = true → h.Mirrors w.book

theorem inStep_start {env : WorkerEnv} (henv : h.Answers env) (symbol : String) :
    h.InStep (SymbolWorker.start symbol env) := by
  unfold SymbolWorker.start
  cases hf : fetchSnapshotFor env.provider with
  | none => exact fun happ => nomatch happ
  | some s => exact fun _ => mirrors_applySnapshot (henv s hf) _ _

theorem inStep_receive {cfg : SymbolWorkerConfig} (hgap : cfg.maxAcceptableSequenceGap = 0)
    {w : SymbolWorker} (hw : h.InStep w) {msg : SymbolMessage} (hmsg : h.IsMessage msg)
    {env : WorkerEnv} (henv : h.Answers env) : h.InStep (w.receive cfg msg env) := by
  cases msg with
  | snapshot s => exact fun _ => mirrors_applySnapshot hmsg _ _
  | delta d =>
    cases happ : w.snapshotApplied with
    | false =>
      simp only [SymbolWorker.receive, happ, ↓reduceIte]
      split
      · cases hf : fetchSnapshotFor env.provider with
        | none => exact fun h => nomatch h
        | some s => exact fun _ => mirrors_applySnapshot (henv s hf) _ _
      · exact fun h => nomatch h
    | true =>
      have hbook := mirrors_applyDelta (hw happ) hmsg env.now
      simp only [SymbolWorker.receive, happ, hgap, Bool.true_eq_false, ↓reduceIte]
      cases hres : w.book.applyDeltaWithGapTolerance d 0 env.now with
      | mk res book =>
        rw [hres] at hbook
        cases res with
        | ok _ => exact fun _ => hbook
        | error _ =>
          cases hf : fetchSnapshotFor env.provider with
          | none => exact fun _ => hbook
          | some s => exact fun _ => mirrors_applySnapshot (henv s hf) _ _

/-- Strict mode never diverges, whatever the network and the provider do. -/
theorem strict_worker_mirrors (h : ExchangeHistory) {cfg : SymbolWorkerConfig}
    (hgap : cfg.maxAcceptableSequenceGap = 0) (symbol : String) {first : WorkerEnv}
    (hfirst : h.Answers first) {inputs : List (SymbolMessage × WorkerEnv)}
    (hinputs : ∀ i ∈ inputs, h.IsMessage i.1 ∧ h.Answers i.2)
    (happ : (perSymbolWorker cfg symbol first inputs).snapshotApplied = true) :
    h.Mirrors (perSymbolWorker cfg symbol first inputs).book := by
  have hrun : h.InStep (perSymbolWorker cfg symbol first inputs) :=
    List.foldlRecOn inputs _ (inStep_start hfirst symbol) fun w hw i hi =>
      inStep_receive hgap hw (hinputs i hi).1 (hinputs i hi).2
  exact hrun happ

def oneLevelHistory : ExchangeHistory where
  start := fun _ _ => none
  start_pos := by
    intro _ _ _ h
    cases h
  event := fun i => ⟨fun
      | .bid => [⟨100,i⟩]
      | .ask => [],by
    intro side l hl
    cases side with
    | bid =>
      cases List.mem_singleton.mp hl
      exact Nat.cast_nonneg i
    | ask => cases hl⟩

def firstEvents : List (SymbolMessage × WorkerEnv) :=
  [(.snapshot ⟨"BTCUSDT",[],[],some 0,none⟩,⟨none,0⟩),
    (.delta ⟨"BTCUSDT",[⟨100,1⟩],[],some 0,some 1,none⟩,⟨none,1⟩)]

theorem strict_worker_mirrors_firstEvents :
    oneLevelHistory.Mirrors (perSymbolWorker ⟨8,0⟩ "BTCUSDT" ⟨none,0⟩ firstEvents).book := by
  have hnone : ∀ now, oneLevelHistory.Answers ⟨none,now⟩ := by
    intro now s hs
    cases hs
  refine strict_worker_mirrors oneLevelHistory rfl "BTCUSDT" (hnone 0) ?_ rfl
  intro i hi
  simp only [firstEvents, List.mem_cons, List.not_mem_nil, or_false] at hi
  rcases hi with rfl | rfl
  · refine ⟨⟨0,rfl,fun side p q => ?_⟩,hnone 0⟩
    cases side <;> simp [OrderbookSnapshot.levels, state, oneLevelHistory]
  · refine ⟨⟨0,rfl,rfl,fun side => ?_⟩,hnone 1⟩
    cases side <;> simp [OrderbookDelta.levels, oneLevelHistory]

end ExchangeHistory

end ArbCore

import ArbCore.Marketdata.ExchangeHistory
import ArbCore.Orderbook.Runs

/-! # Replaying deltas that a snapshot already contains

After a snapshot the stream may resume at an earlier event. The books in between
are no exchange states: their sequence number walks back and catches up again.
Sizes are absolute, so that price by price the last write is the same in the end.
-/
namespace ArbCore
open LastWrite

namespace ExchangeHistory

def eventWrites (h : ExchangeHistory) (side : Side) (i : ℕ) : ℕ → List (Decimal × Option Decimal)
  | 0 => []
  | n + 1 => ((h.event (i + 1)).levels side).map Level.write ++ h.eventWrites side (i + 1) n

theorem state_add (h : ExchangeHistory) (side : Side) (i n : ℕ) :
    h.state (i + n) side = overwrite (h.state i side) (h.eventWrites side i n) := by
  induction n generalizing i with
  | zero => rfl
  | succ n ih =>
    have hstep : h.state (i + 1) side =
        overwrite (h.state i side) (((h.event (i + 1)).levels side).map Level.write) := rfl
    rw [Nat.add_comm n 1, ← Nat.add_assoc, ih, hstep, ← overwrite_append, Nat.add_comm 1 n]
    rfl

theorem eventWrites_add (h : ExchangeHistory) (side : Side) (i n n' : ℕ) :
    h.eventWrites side i (n + n') = h.eventWrites side i n ++ h.eventWrites side (i + n) n' := by
  induction n generalizing i with
  | zero => simp [eventWrites]
  | succ n ih =>
    have hindex : i + 1 + n = i + (n + 1) := by omega
    rw [Nat.succ_add, eventWrites, eventWrites, ih, hindex, List.append_assoc]

/-- Replayed over a state that has some of them already, events lead to the same state. -/
theorem overwrite_state_replay (h : ExchangeHistory) (side : Side) {i k n : ℕ} (hik : i ≤ k)
    (hkn : k ≤ i + n) :
    overwrite (h.state k side) (h.eventWrites side i n) = h.state (i + n) side := by
  obtain ⟨old,rfl⟩ := Nat.exists_eq_add_of_le hik
  obtain ⟨new,hnew⟩ := Nat.exists_eq_add_of_le hkn
  have hn : n = old + new := by omega
  rw [hn, state_add h side i old, state_add h side i (old + new), eventWrites_add, overwrite_replay]

def Carries (h : ExchangeHistory) (i : ℕ) : List OrderbookDelta → Prop
  | [] => True
  | d :: ds => d.prevSequence = some i ∧ d.sequence = some (i + 1) ∧
      (∀ side, d.levels side = (h.event (i + 1)).levels side) ∧ h.Carries (i + 1) ds

end ExchangeHistory

open ExchangeHistory

def tolerantOps (maxGap : ℕ) (ds : List (OrderbookDelta × Instant)) : List BookOp :=
  ds.map fun d => .applyDeltaWithGapTolerance d.1 maxGap d.2

/-- From a sequence number within the tolerance all deltas are accepted and their
writes are added; the flag stays down. -/
theorem BookRun.foldl_tolerantOps {h : ExchangeHistory} {i k maxGap : ℕ}
    {ds : List (OrderbookDelta × Instant)} (hds : h.Carries i (ds.map Prod.fst)) {r : BookRun}
    (hseq : r.book.inner.lastSeq = some k) (hgap : OrderBook.sequenceGap k i ≤ maxGap)
    (hflag : r.book.resyncRequired = false) (hok : ∀ c ∈ r.history, c.2 = .ok ()) :
    (∀ c ∈ ((tolerantOps maxGap ds).foldl step r).history, c.2 = .ok ()) ∧
    (∀ side p, (((tolerantOps maxGap ds).foldl step r).book.inner.side side)[p]? =
      overwrite (fun p => (r.book.inner.side side)[p]?) (h.eventWrites side i ds.length) p) ∧
    (ds ≠ [] → ((tolerantOps maxGap ds).foldl step r).book.inner.lastSeq = some (i + ds.length)) ∧
    ((tolerantOps maxGap ds).foldl step r).book.resyncRequired = false := by
  induction ds generalizing i k r with
  | nil => exact ⟨hok,fun side p => rfl,fun hne => absurd rfl hne,hflag⟩
  | cons d ds ih =>
    obtain ⟨hprev,hnext,hlevels,hrest⟩ := hds
    have haccepted := applyDeltaWithGapTolerance_accepted ((withinGap_some hseq hprev).mpr hgap) d.2
    have hbook : (r.step (.applyDeltaWithGapTolerance d.1 maxGap d.2)).book =
        { r.book.updateLevels d.1 d.2 with resyncRequired := false } := by
      rw [step, BookOp.apply, haccepted]
    have hgap' : OrderBook.sequenceGap (i + 1) (i + 1) ≤ maxGap := by
      rw [sequenceGap_eq_zero.mpr rfl]
      exact Nat.zero_le _
    have hok' : ∀ c ∈ (r.step (.applyDeltaWithGapTolerance d.1 maxGap d.2)).history, c.2 = .ok () := by
      intro c hc
      rcases List.mem_append.mp hc with hc | hc
      · exact hok c hc
      · cases List.mem_singleton.mp hc
        rw [BookOp.apply, haccepted]
    obtain ⟨hall,hsides,hlast,hdown⟩ := ih hrest (r := r.step (.applyDeltaWithGapTolerance d.1 maxGap d.2))
      (by rw [hbook]; exact hnext) hgap' (by rw [hbook]) hok'
    refine ⟨hall,fun side p => ?_,fun _ => ?_,hdown⟩
    · have hside : ∀ p, ((r.step (.applyDeltaWithGapTolerance d.1 maxGap d.2)).book.inner.side side)[p]? =
          overwrite (fun p => (r.book.inner.side side)[p]?)
            (((h.event (i + 1)).levels side).map Level.write) p := by
        intro p
        rw [hbook, ← hlevels, ← getElem?_applyLevels, ← side_updateLevels _ _ d.2]
      rw [List.length_cons, eventWrites, overwrite_append, ← funext hside]
      exact hsides side p
    · cases ds with
      | nil =>
        change (r.step _).book.inner.lastSeq = _
        rw [hbook]
        exact hnext
      | cons d' ds =>
        rw [List.length_cons, Nat.add_comm _ 1, ← Nat.add_assoc]
        exact hlast (List.cons_ne_nil _ _)

/-- A snapshot of state `k` followed by the events from `j` on, of which those up
to `k` are replayed, accepts every delta and ends in the state of the last one. -/
theorem overlapping_replay_converges (h : ExchangeHistory) {j k n : ℕ} (hj : 1 ≤ j) (hjk : j ≤ k + 1)
    (hn : max k j ≤ n) {maxGap : ℕ} (hgap : k - (j - 1) ≤ maxGap) {s : OrderbookSnapshot}
    (hs : s.sequence = some k)
    (hlevels : ∀ side p q, ⟨p,q⟩ ∈ s.levels side ↔ h.state k side p = some q)
    {ds : List (OrderbookDelta × Instant)} (hds : h.Carries (j - 1) (ds.map Prod.fst))
    (hlength : ds.length = n + 1 - j) (b : OrderBook) (now : Instant) :
    (∀ c ∈ ((BookOp.applySnapshot s now :: tolerantOps maxGap ds).foldl BookRun.step ⟨b,[]⟩).history,
      c.2 = .ok ()) ∧
    (∀ side p, (((BookOp.applySnapshot s now :: tolerantOps maxGap ds).foldl BookRun.step
      ⟨b,[]⟩).book.inner.side side)[p]? = h.state n side p) ∧
    ((BookOp.applySnapshot s now :: tolerantOps maxGap ds).foldl BookRun.step
      ⟨b,[]⟩).book.inner.lastSeq = some n ∧
    ((BookOp.applySnapshot s now :: tolerantOps maxGap ds).foldl BookRun.step
      ⟨b,[]⟩).book.resyncRequired = false := by
  obtain ⟨hkn,hjn⟩ := max_le_iff.mp hn
  have hend : j - 1 + ds.length = n := by omega
  have hne : ds ≠ [] := List.ne_nil_of_length_pos (by omega)
  have hgap' : OrderBook.sequenceGap k (j - 1) ≤ maxGap := by
    unfold OrderBook.sequenceGap
    split <;> omega
  have hsnap : ∀ side, (fun p => ((b.applySnapshot s now).2.inner.side side)[p]?) = h.state k side := by
    intro side
    funext p
    rw [side_applySnapshot]
    exact insertLevels_snapshot (hlevels side) p
  obtain ⟨hok,hsides,hlast,hflag⟩ := BookRun.foldl_tolerantOps
    (r := BookRun.step ⟨b,[]⟩ (.applySnapshot s now)) hds hs hgap' rfl (by
      intro c hc
      cases List.mem_singleton.mp hc
      rfl)
  refine ⟨hok,fun side p => ?_,?_,hflag⟩
  · rw [List.foldl_cons, hsides]
    change overwrite (fun p => ((b.applySnapshot s now).2.inner.side side)[p]?) _ p = _
    rw [hsnap, overwrite_state_replay h side (by omega) (by omega), hend]
  · rw [List.foldl_cons, hlast hne, hend]

theorem overlapping_replay_converges_twoEvents :
    ((BookOp.applySnapshot ⟨"BTCUSDT",[⟨100,2⟩],[],some 2,none⟩ 0 :: tolerantOps 2
      [(⟨"BTCUSDT",[⟨100,1⟩],[],some 0,some 1,none⟩,1),
        (⟨"BTCUSDT",[⟨100,2⟩],[],some 1,some 2,none⟩,2)]).foldl BookRun.step
      ⟨OrderBook.new "BTCUSDT",[]⟩).book.inner.lastSeq = some 2 := by
  have hstate : ∀ side p q, (⟨p,q⟩ : Level) ∈ OrderbookSnapshot.levels
      ⟨"BTCUSDT",[⟨100,2⟩],[],some 2,none⟩ side ↔ oneLevelHistory.state 2 side p = some q := by
    intro side p q
    cases side with
    | bid =>
      by_cases hp : p = 100
      · simp [OrderbookSnapshot.levels, state, ExchangeState.apply, oneLevelHistory, overwrite,
          lastWrite, Level.write, hp, eq_comm]
      · simp [OrderbookSnapshot.levels, state, ExchangeState.apply, oneLevelHistory, overwrite,
          lastWrite, Level.write, hp, Ne.symm hp]
    | ask => simp [OrderbookSnapshot.levels, state, ExchangeState.apply, oneLevelHistory, overwrite,
        lastWrite]
  have hcarries : oneLevelHistory.Carries (1 - 1) (List.map Prod.fst
      [((⟨"BTCUSDT",[⟨100,1⟩],[],some 0,some 1,none⟩ : OrderbookDelta),(1 : Instant)),
        (⟨"BTCUSDT",[⟨100,2⟩],[],some 1,some 2,none⟩,2)]) := by
    refine ⟨rfl,rfl,fun side => ?_,rfl,rfl,fun side => ?_,trivial⟩
    · cases side <;> simp [OrderbookDelta.levels, oneLevelHistory]
    · cases side <;> simp [OrderbookDelta.levels, oneLevelHistory]
  exact (overlapping_replay_converges oneLevelHistory (j := 1) (k := 2) (n := 2) le_rfl (by decide)
    (by decide) (by decide) rfl hstate hcarries rfl (OrderBook.new "BTCUSDT") 0).2.2.1

end ArbCore

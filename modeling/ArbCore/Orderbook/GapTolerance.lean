import ArbCore.Orderbook.SnapshotCopy

/-! # Strict and tolerant runs of the same messages

One list of messages is run through both delta operations. Where the strict one accepts
every delta so does the tolerant one, whatever gaps it allows, and without any gap the
two answer alike. Both runs then hold the same contents.
-/
namespace ArbCore

inductive BookMessage where
  | snapshot (snapshot : OrderbookSnapshot) (now : Instant)
  | delta (delta : OrderbookDelta) (now : Instant)

namespace BookMessage

def strict : BookMessage → BookOp
  | .snapshot s now => .applySnapshot s now
  | .delta d now => .applyDelta d now

def tolerant (maxGap : ℕ) : BookMessage → BookOp
  | .snapshot s now => .applySnapshot s now
  | .delta d now => .applyDeltaWithGapTolerance d maxGap now

end BookMessage

namespace BookRun

def outcomes (r : BookRun) : List (Except OrderBookError Unit) := r.history.map Prod.snd

theorem outcomes_concat (symbol : String) (ops : List BookOp) (op : BookOp) :
    (run symbol (ops ++ [op])).outcomes =
      (run symbol ops).outcomes ++ [(op.apply (run symbol ops).book).1] := by
  rw [run_concat, outcomes, step, List.map_append]
  rfl

end BookRun

section Step
variable {b b' : OrderBook} {d : OrderbookDelta} {maxGap : ℕ}

theorem withinGap_mono {minGap : ℕ} (hle : minGap ≤ maxGap) (h : b.withinGap d minGap = true) :
    b.withinGap d maxGap = true := by
  by_contra hnot
  obtain ⟨prev,dPrev,hprev,hdPrev,hgap⟩ := withinGap_eq_false (Bool.not_eq_true _ ▸ hnot)
  exact absurd ((withinGap_some hprev hdPrev).mp h) (hle.trans_lt hgap).not_ge

theorem applyDelta_isOk_iff (now : Instant) :
    (b.applyDelta d now).1.isOk = true ↔ b.withinGap d 0 = true := by
  cases hgap : b.withinGap d 0 with
  | true => exact iff_of_true (by rw [applyDelta_accepted hgap]; rfl) rfl
  | false =>
    exact iff_of_false (by rw [applyDelta_rejected hgap]; exact Bool.false_ne_true) Bool.false_ne_true

theorem applyDeltaWithGapTolerance_zero (b : OrderBook) (d : OrderbookDelta) (now : Instant) :
    (b.applyDeltaWithGapTolerance d 0 now).1 = (b.applyDelta d now).1 ∧
      (b.applyDeltaWithGapTolerance d 0 now).2.inner = (b.applyDelta d now).2.inner := by
  cases hgap : b.withinGap d 0 with
  | true =>
    rw [applyDelta_accepted hgap, applyDeltaWithGapTolerance_accepted hgap]
    exact ⟨rfl,rfl⟩
  | false =>
    rw [applyDelta_rejected hgap, applyDeltaWithGapTolerance_rejected hgap]
    exact ⟨rfl,rfl⟩

/-- What the strict operation accepts the tolerant one accepts, and stores the same. -/
theorem tolerant_apply_of_accepted {m : BookMessage} (maxGap : ℕ) (h : b.inner = b'.inner)
    (hok : (m.strict.apply b).1.isOk = true) :
    ((m.tolerant maxGap).apply b').1.isOk = true ∧
      ((m.tolerant maxGap).apply b').2.inner = (m.strict.apply b).2.inner := by
  cases m with
  | snapshot s now => exact ⟨rfl,rfl⟩
  | delta d now =>
    have hgap : b.withinGap d 0 = true := (applyDelta_isOk_iff now).mp hok
    have hgap' : b'.withinGap d maxGap = true := withinGap_congr h ▸ withinGap_mono (Nat.zero_le _) hgap
    simp only [BookMessage.strict, BookMessage.tolerant, BookOp.apply, applyDelta_accepted hgap,
      applyDeltaWithGapTolerance_accepted hgap']
    exact ⟨rfl,(updateLevels_congr h now).symm⟩

theorem tolerant_apply_zero (m : BookMessage) (h : b.inner = b'.inner) :
    ((m.tolerant 0).apply b').1 = (m.strict.apply b).1 ∧
      ((m.tolerant 0).apply b').2.inner = (m.strict.apply b).2.inner := by
  obtain ⟨houtcome,hinner⟩ := m.strict.apply_congr h
  rw [houtcome, hinner]
  cases m with
  | snapshot s now => exact ⟨rfl,rfl⟩
  | delta d now => exact applyDeltaWithGapTolerance_zero b' d now

end Step

section Runs
variable (symbol : String)

theorem tolerant_run_of_accepted (ms : List (BookMessage × ℕ))
    (h : ∀ res ∈ (BookRun.run symbol (ms.map fun m => m.1.strict)).outcomes, res.isOk = true) :
    (∀ res ∈ (BookRun.run symbol (ms.map fun m => m.1.tolerant m.2)).outcomes, res.isOk = true) ∧
      (BookRun.run symbol (ms.map fun m => m.1.strict)).book.inner =
        (BookRun.run symbol (ms.map fun m => m.1.tolerant m.2)).book.inner := by
  induction ms using List.reverseRecOn with
  | nil => exact ⟨h,rfl⟩
  | append_singleton ms m ih =>
    simp only [List.map_append, List.map_singleton, BookRun.outcomes_concat, List.forall_mem_append,
      List.forall_mem_singleton] at h ⊢
    obtain ⟨hok,hinner⟩ := ih h.1
    obtain ⟨hlast,hnext⟩ := tolerant_apply_of_accepted m.2 hinner h.2
    refine ⟨⟨hok,hlast⟩,?_⟩
    rw [BookRun.run_concat, BookRun.run_concat]
    exact hnext.symm

theorem tolerant_run_zero (ms : List BookMessage) :
    (BookRun.run symbol (ms.map fun m => m.tolerant 0)).outcomes =
        (BookRun.run symbol (ms.map fun m => m.strict)).outcomes ∧
      (BookRun.run symbol (ms.map fun m => m.strict)).book.inner =
        (BookRun.run symbol (ms.map fun m => m.tolerant 0)).book.inner := by
  induction ms using List.reverseRecOn with
  | nil => exact ⟨rfl,rfl⟩
  | append_singleton ms m ih =>
    obtain ⟨houtcomes,hinner⟩ := ih
    obtain ⟨hlast,hnext⟩ := tolerant_apply_zero m hinner
    simp only [List.map_append, List.map_singleton, BookRun.outcomes_concat, houtcomes, hlast, true_and]
    rw [BookRun.run_concat, BookRun.run_concat]
    exact hnext.symm

end Runs

theorem OrderBook.SameContents.of_inner {b b' : OrderBook} (h : b.inner = b'.inner) : b.SameContents b' :=
  ⟨by rw [h],by rw [h],by rw [h]⟩

/-- With any gaps allowed the tolerant operation accepts every delta of a run whose deltas
the strict one accepts, and with none the two answer alike on every run; both hold the
same contents in the end. -/
theorem tolerant_extends_strict (symbol : String) :
    (∀ ms : List (BookMessage × ℕ),
      let strict := BookRun.run symbol (ms.map fun m => m.1.strict)
      let tolerant := BookRun.run symbol (ms.map fun m => m.1.tolerant m.2)
      (∀ res ∈ strict.outcomes, res.isOk = true) →
        (∀ res ∈ tolerant.outcomes, res.isOk = true) ∧ tolerant.book.SameContents strict.book) ∧
    ∀ ms : List BookMessage,
      let strict := BookRun.run symbol (ms.map fun m => m.strict)
      let tolerant := BookRun.run symbol (ms.map fun m => m.tolerant 0)
      tolerant.outcomes = strict.outcomes ∧ tolerant.book.SameContents strict.book := by
  constructor
  · intro ms strict tolerant hok
    obtain ⟨haccepted,hinner⟩ := tolerant_run_of_accepted symbol ms hok
    exact ⟨haccepted,.of_inner hinner.symm⟩
  · intro ms
    obtain ⟨houtcomes,hinner⟩ := tolerant_run_zero symbol ms
    exact ⟨houtcomes,.of_inner hinner.symm⟩

theorem tolerant_extends_strict_unsequenced :
    (∀ res ∈ (BookRun.run "BTCUSDT" [.applySnapshot ⟨"BTCUSDT",[⟨99,1⟩],[],some 5,none⟩ 0,
        .applyDeltaWithGapTolerance ⟨"BTCUSDT",[⟨99,0⟩],[],none,some 9,none⟩ 3 1,
        .applyDeltaWithGapTolerance ⟨"BTCUSDT",[],[⟨101,2⟩],some 9,some 10,none⟩ 0 2]).outcomes,
      res.isOk = true) :=
  ((tolerant_extends_strict "BTCUSDT").1
    [(.snapshot ⟨"BTCUSDT",[⟨99,1⟩],[],some 5,none⟩ 0,0),
      (.delta ⟨"BTCUSDT",[⟨99,0⟩],[],none,some 9,none⟩ 1,3),
      (.delta ⟨"BTCUSDT",[],[⟨101,2⟩],some 9,some 10,none⟩ 2,0)] (by decide +kernel)).1

end ArbCore

import ArbCore.Orderbook.Runs

/-! # How long the resync flag stays up

A rejected delta raises the flag and a snapshot lowers it. The strict operation
leaves it alone when it accepts a delta, the tolerant one lowers it, although no
snapshot replaced what was missed.
-/
namespace ArbCore

def SequenceRejected (c : BookOp × Except OrderBookError Unit) : Prop :=
  ∃ expected got, c.2 = .error (.sequenceError expected got)

/-- The flag is up exactly when a delta was rejected after the last snapshot. -/
def BookRun.Sticky (r : BookRun) : Prop :=
  r.book.resyncRequired = true ↔ ∃ c ∈ r.history.fromLastSnapshot, SequenceRejected c

/-- The tolerant operation accepts a delta while the flag is up. -/
def ClearsFlag (b : OrderBook) : BookOp → Prop
  | .applyDeltaWithGapTolerance d maxGap _ => b.resyncRequired = true ∧ b.withinGap d maxGap = true
  | _ => False

/-- What an operation does to the flag: a snapshot lowers it, a rejection raises
it, and an accepted delta leaves it unless it clears it. -/
theorem flag_cases (op : BookOp) (b : OrderBook) :
    (op.isSnapshot = true ∧ (op.apply b).1 = .ok () ∧ (op.apply b).2.resyncRequired = false) ∨
    (op.isSnapshot = false ∧ SequenceRejected (op,(op.apply b).1) ∧
      (op.apply b).2.resyncRequired = true) ∨
    (op.isSnapshot = false ∧ (op.apply b).1 = .ok () ∧ ClearsFlag b op ∧
      (op.apply b).2.resyncRequired = false) ∨
    (op.isSnapshot = false ∧ (op.apply b).1 = .ok () ∧ ¬ ClearsFlag b op ∧
      (op.apply b).2.resyncRequired = b.resyncRequired) := by
  cases op with
  | applySnapshot s now => exact .inl ⟨rfl,rfl,rfl⟩
  | applyDelta d now =>
    right
    cases h : b.withinGap d 0 with
    | true => exact .inr (.inr ⟨rfl,by rw [BookOp.apply, applyDelta_accepted h],id,
        by rw [BookOp.apply, applyDelta_accepted h, OrderBook.updateLevels]⟩)
    | false =>
      have hres := applyDelta_rejected h now
      exact .inl ⟨rfl,⟨_,_,by rw [BookOp.apply, hres]; rfl⟩,by rw [BookOp.apply, hres]⟩
  | applyDeltaWithGapTolerance d maxGap now =>
    right
    cases h : b.withinGap d maxGap with
    | true =>
      have hres := applyDeltaWithGapTolerance_accepted h now
      cases hflag : b.resyncRequired with
      | true => exact .inr (.inl ⟨rfl,by rw [BookOp.apply, hres],⟨hflag,h⟩,by rw [BookOp.apply, hres]⟩)
      | false =>
        have hkeeps : ¬ ClearsFlag b (.applyDeltaWithGapTolerance d maxGap now) := fun hclears =>
          absurd (hflag.symm.trans hclears.1) Bool.false_ne_true
        exact .inr (.inr ⟨rfl,by rw [BookOp.apply, hres],hkeeps,by rw [BookOp.apply, hres]⟩)
    | false =>
      have hres := applyDeltaWithGapTolerance_rejected h now
      exact .inl ⟨rfl,⟨_,_,by rw [BookOp.apply, hres]; rfl⟩,by rw [BookOp.apply, hres]⟩

theorem not_sequenceRejected_ok (op : BookOp) : ¬ SequenceRejected (op,.ok ()) := fun ⟨_,_,h⟩ => nomatch h

namespace BookRun
variable {r : BookRun} {op : BookOp}

theorem rejected_since_delta (hop : op.isSnapshot = false) :
    (∃ c ∈ (r.step op).history.fromLastSnapshot, SequenceRejected c) ↔
      (∃ c ∈ r.history.fromLastSnapshot, SequenceRejected c) ∨
        SequenceRejected (op,(op.apply r.book).1) := by
  have hhistory : (r.step op).history.fromLastSnapshot =
      r.history.fromLastSnapshot ++ [(op,(op.apply r.book).1)] := by
    rw [step, History.fromLastSnapshot_concat, hop]
    rfl
  simp only [hhistory, List.mem_append, List.mem_singleton, or_and_right, exists_or, exists_eq_left]

theorem Sticky.step (h : r.Sticky) (hclears : ¬ ClearsFlag r.book op) : (r.step op).Sticky := by
  have hbook : (r.step op).book = (op.apply r.book).2 := rfl
  rcases flag_cases op r.book with ⟨hop,hres,hflag⟩ | ⟨hop,hrej,hflag⟩ | ⟨_,_,hc,_⟩ | ⟨hop,hres,_,hflag⟩
  · have hhistory : (r.step op).history.fromLastSnapshot = [(op,.ok ())] := by
      rw [BookRun.step, History.fromLastSnapshot_concat, hop, hres]
      rfl
    simp [Sticky, hbook, hflag, hhistory, not_sequenceRejected_ok]
  · simp [Sticky, rejected_since_delta hop, hbook, hflag, hrej]
  · exact absurd hc hclears
  · rw [Sticky, rejected_since_delta hop, hbook, hflag, hres]
    simp only [not_sequenceRejected_ok, or_false]
    exact h

theorem Sticky.not_step (h : r.Sticky) (hclears : ClearsFlag r.book op) : ¬ (r.step op).Sticky := by
  cases op with
  | applySnapshot s now => exact hclears.elim
  | applyDelta d now => exact hclears.elim
  | applyDeltaWithGapTolerance d maxGap now =>
    obtain ⟨hup,hwithin⟩ := hclears
    intro hsticky
    have hraised := hsticky.mpr ((rejected_since_delta rfl).mpr (.inl (h.mp hup)))
    rw [BookRun.step, BookOp.apply, applyDeltaWithGapTolerance_accepted hwithin now] at hraised
    cases hraised

end BookRun

/-- The flag is sticky in every state of a run exactly when no step of the run
has the tolerant operation accept a delta while the flag is up. -/
theorem resyncFlag_sticky_iff (symbol : String) (ops : List BookOp) :
    (∀ pre, pre <+: ops → (BookRun.run symbol pre).Sticky) ↔
      ∀ pre op post, ops = pre ++ op :: post → ¬ ClearsFlag (BookRun.run symbol pre).book op := by
  have hnew : BookRun.Sticky ⟨OrderBook.new symbol,[]⟩ := by
    simp [BookRun.Sticky, OrderBook.new, History.fromLastSnapshot]
  exact BookRun.run_forall_iff hnew (fun _ _ h hclears => h.step hclears)
    (fun _ _ h hclears => h.not_step hclears) ops

/-- Delta 7 is rejected, then delta 6 arrives late and lowers the flag. -/
theorem resyncFlag_lowered_by_late_delta :
    ¬ (BookRun.run "BTCUSDT" [.applySnapshot ⟨"BTCUSDT",[],[],some 5,none⟩ 0,
      .applyDeltaWithGapTolerance ⟨"BTCUSDT",[],[],some 6,some 7,none⟩ 0 1,
      .applyDeltaWithGapTolerance ⟨"BTCUSDT",[],[],some 5,some 6,none⟩ 0 2]).Sticky := by
  intro hsticky
  have hrejected := hsticky.mpr ⟨_,List.mem_cons_of_mem _ List.mem_cons_self,5,6,rfl⟩
  cases hrejected

end ArbCore

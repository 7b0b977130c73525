import ArbCore.Orderbook.OrderBook

/-! # Runs of book operations and the last write wins

A run applies any list of operations to a fresh book and records each outcome.
The reference reads the recorded history only: from the last snapshot on, the
entries of the accepted messages, of which the last one for a price decides.
-/
namespace ArbCore
open LastWrite

inductive BookOp where
  | applySnapshot (snapshot : OrderbookSnapshot) (now : Instant)
  | applyDelta (delta : OrderbookDelta) (now : Instant)
  | applyDeltaWithGapTolerance (delta : OrderbookDelta) (maxGap : ℕ) (now : Instant)

namespace BookOp

def apply (op : BookOp) (b : OrderBook) : Except OrderBookError Unit × OrderBook :=
  match op with
  | .applySnapshot s now => b.applySnapshot s now
  | .applyDelta d now => b.applyDelta d now
  | .applyDeltaWithGapTolerance d maxGap now => b.applyDeltaWithGapTolerance d maxGap now

def isSnapshot : BookOp → Bool
  | .applySnapshot _ _ => true
  | _ => false

def sequence : BookOp → Option ℕ
  | .applySnapshot s _ => s.sequence
  | .applyDelta d _ => d.sequence
  | .applyDeltaWithGapTolerance d _ _ => d.sequence

def entries (op : BookOp) (side : Side) : List Level :=
  match op with
  | .applySnapshot s _ => (s.levels side).filter fun l => 0 < l.size
  | .applyDelta d _ => d.levels side
  | .applyDeltaWithGapTolerance d _ _ => d.levels side

/-- The three things an operation can do to the locked state: replace it by a
snapshot, add a delta to it, or reject the delta and leave it. -/
theorem apply_cases (op : BookOp) (b : OrderBook) :
    (op.isSnapshot = true ∧ (op.apply b).1 = .ok () ∧ (op.apply b).2.inner.lastSeq = op.sequence ∧
      ∀ side p, ((op.apply b).2.inner.side side)[p]? =
        overwrite (fun _ => none) ((op.entries side).map Level.write) p) ∨
    (op.isSnapshot = false ∧ (op.apply b).1 = .ok () ∧ (op.apply b).2.inner.lastSeq = op.sequence ∧
      ∀ side p, ((op.apply b).2.inner.side side)[p]? =
        overwrite (fun p => (b.inner.side side)[p]?) ((op.entries side).map Level.write) p) ∨
    (op.isSnapshot = false ∧ (op.apply b).1.isOk = false ∧ (op.apply b).2.inner = b.inner) := by
  have hupdate : ∀ (d : OrderbookDelta) (now : Instant) (side : Side) (p : Decimal),
      ((b.updateLevels d now).inner.side side)[p]? =
        overwrite (fun p => (b.inner.side side)[p]?) ((d.levels side).map Level.write) p := by
    intro d now side p
    rw [side_updateLevels, getElem?_applyLevels]
  cases op with
  | applySnapshot s now =>
    refine Or.inl ⟨rfl,rfl,rfl,fun side p => ?_⟩
    simp only [apply, side_applySnapshot, getElem?_insertLevels_empty, entries]
  | applyDelta d now =>
    right
    cases hgap : b.withinGap d 0 with
    | true =>
      rw [apply, applyDelta_accepted hgap]
      exact .inl ⟨rfl,rfl,rfl,hupdate d now⟩
    | false =>
      rw [apply, applyDelta_rejected hgap]
      exact .inr ⟨rfl,rfl,rfl⟩
  | applyDeltaWithGapTolerance d maxGap now =>
    right
    cases hgap : b.withinGap d maxGap with
    | true =>
      rw [apply, applyDeltaWithGapTolerance_accepted hgap]
      exact .inl ⟨rfl,rfl,rfl,hupdate d now⟩
    | false =>
      rw [apply, applyDeltaWithGapTolerance_rejected hgap]
      exact .inr ⟨rfl,rfl,rfl⟩

theorem apply_congr (op : BookOp) {b b' : OrderBook} (h : b.inner = b'.inner) :
    (op.apply b).1 = (op.apply b').1 ∧ (op.apply b).2.inner = (op.apply b').2.inner := by
  cases op with
  | applySnapshot s now => exact ⟨rfl,rfl⟩
  | applyDelta d now =>
    cases hgap : b.withinGap d 0 with
    | true =>
      rw [apply, apply, applyDelta_accepted hgap, applyDelta_accepted (withinGap_congr h ▸ hgap)]
      exact ⟨rfl,updateLevels_congr h now⟩
    | false =>
      rw [apply, apply, applyDelta_rejected hgap, applyDelta_rejected (withinGap_congr h ▸ hgap),
        gapError_congr h]
      exact ⟨rfl,h⟩
  | applyDeltaWithGapTolerance d maxGap now =>
    cases hgap : b.withinGap d maxGap with
    | true =>
      rw [apply, apply, applyDeltaWithGapTolerance_accepted hgap,
        applyDeltaWithGapTolerance_accepted (withinGap_congr h ▸ hgap)]
      exact ⟨rfl,updateLevels_congr h now⟩
    | false =>
      rw [apply, apply, applyDeltaWithGapTolerance_rejected hgap,
        applyDeltaWithGapTolerance_rejected (withinGap_congr h ▸ hgap), gapError_congr h]
      exact ⟨rfl,h⟩

end BookOp

abbrev History := List (BookOp × Except OrderBookError Unit)

structure BookRun where
  book : OrderBook
  history : History

namespace BookRun

def step (r : BookRun) (op : BookOp) : BookRun :=
  ⟨(op.apply r.book).2, r.history ++ [(op,(op.apply r.book).1)]⟩

def run (symbol : String) (ops : List BookOp) : BookRun :=
  ops.foldl step ⟨OrderBook.new symbol,[]⟩

theorem run_concat (symbol : String) (ops : List BookOp) (op : BookOp) :
    run symbol (ops ++ [op]) = (run symbol ops).step op := by
  simp [run]

/-- What holds of a new book and is kept by exactly the steps that are not bad holds
in all states of a run exactly when none of its steps is bad. -/
theorem run_forall_iff {Inv : BookRun → Prop} {Bad : OrderBook → BookOp → Prop} {symbol : String}
    (hnew : Inv ⟨OrderBook.new symbol,[]⟩)
    (hkeep : ∀ r op, Inv r → ¬ Bad r.book op → Inv (r.step op))
    (hbreak : ∀ r op, Inv r → Bad r.book op → ¬ Inv (r.step op)) (ops : List BookOp) :
    (∀ pre, pre <+: ops → Inv (run symbol pre)) ↔
      ∀ pre op post, ops = pre ++ op :: post → ¬ Bad (run symbol pre).book op := by
  constructor
  · rintro hinv pre op post rfl hbad
    have hafter := hinv (pre ++ [op]) ⟨post,by simp⟩
    rw [run_concat] at hafter
    exact hbreak _ op (hinv pre (List.prefix_append _ _)) hbad hafter
  · rintro hgood pre ⟨rest,rfl⟩
    induction pre using List.reverseRecOn generalizing rest with
    | nil => exact hnew
    | append_singleton pre op ih =>
      rw [run_concat]
      have hpre := ih (op :: rest) (fun pre' op' post hops => hgood pre' op' post (by simpa using hops))
      exact hkeep _ op hpre (hgood pre op rest (by simp))

end BookRun

namespace History

def fromLastSnapshot (h : History) : History :=
  (h.filter fun c => c.1.isSnapshot).getLast?.toList ++ h.rtakeWhile fun c => !c.1.isSnapshot

def accepted (h : History) : History := h.filter fun c => c.2.isOk

def keptEntries (h : History) (side : Side) : List Level :=
  h.fromLastSnapshot.accepted.flatMap fun c => c.1.entries side

def storedSize (h : History) (side : Side) (p : Decimal) : Option Decimal :=
  ((h.keptEntries side).reverse.find? fun l => l.price = p).bind fun l =>
    if l.size = 0 then none else some l.size

def lastAcceptedSequence (h : History) : Option ℕ := h.accepted.getLast?.bind fun c => c.1.sequence

theorem storedSize_eq_overwrite (h : History) (side : Side) :
    h.storedSize side = overwrite (fun _ => none) ((h.keptEntries side).map Level.write) := by
  funext p
  rw [storedSize, overwrite, lastWrite_levels]
  cases (h.keptEntries side).reverse.find? (fun l => decide (l.price = p)) with
  | none => rfl
  | some l => rfl

theorem fromLastSnapshot_concat (h : History) (c : BookOp × Except OrderBookError Unit) :
    fromLastSnapshot (h ++ [c]) = if c.1.isSnapshot then [c] else h.fromLastSnapshot ++ [c] := by
  cases hc : c.1.isSnapshot <;> simp [fromLastSnapshot, hc]

theorem keptEntries_snapshot (h : History) {op : BookOp} {res : Except OrderBookError Unit}
    (hop : op.isSnapshot = true) (hres : res = .ok ()) (side : Side) :
    keptEntries (h ++ [(op,res)]) side = op.entries side := by
  subst hres
  simp [keptEntries, fromLastSnapshot_concat, hop, accepted, Except.isOk, Except.toBool]

theorem keptEntries_delta (h : History) {op : BookOp} {res : Except OrderBookError Unit}
    (hop : op.isSnapshot = false) (side : Side) :
    keptEntries (h ++ [(op,res)]) side =
      h.keptEntries side ++ if res.isOk then op.entries side else [] := by
  cases hres : res.isOk <;> simp [keptEntries, fromLastSnapshot_concat, hop, accepted, hres]

theorem lastAcceptedSequence_concat (h : History) (op : BookOp) (res : Except OrderBookError Unit) :
    lastAcceptedSequence (h ++ [(op,res)]) =
      if res.isOk then op.sequence else h.lastAcceptedSequence := by
  cases hres : res.isOk <;> simp [lastAcceptedSequence, accepted, hres]

end History

open History

def BookRun.Refines (r : BookRun) : Prop :=
  (∀ side p, (r.book.inner.side side)[p]? = r.history.storedSize side p) ∧
  r.book.inner.lastSeq = r.history.lastAcceptedSequence

theorem BookRun.Refines.step {r : BookRun} (h : r.Refines) (op : BookOp) : (r.step op).Refines := by
  obtain ⟨hside,hseq⟩ := h
  have hfun : ∀ side, (fun p => (r.book.inner.side side)[p]?) =
      overwrite (fun _ => none) ((r.history.keptEntries side).map Level.write) := by
    intro side
    rw [← storedSize_eq_overwrite]
    exact funext (hside side)
  simp only [Refines, BookRun.step, storedSize_eq_overwrite, lastAcceptedSequence_concat]
  rcases op.apply_cases r.book with ⟨hop,hres,hs,hw⟩ | ⟨hop,hres,hs,hw⟩ | ⟨hop,hres,hinner⟩
  · refine ⟨fun side p => ?_,by simp [hs, hres, Except.isOk, Except.toBool]⟩
    rw [hw, keptEntries_snapshot _ hop hres]
  · refine ⟨fun side p => ?_,by simp [hs, hres, Except.isOk, Except.toBool]⟩
    rw [hw, keptEntries_delta _ hop, hres, hfun, ← overwrite_append, ← List.map_append]
    rfl
  · refine ⟨fun side p => ?_,by simp [hinner, hseq, hres]⟩
    rw [keptEntries_delta _ hop, hres, hinner]
    simpa using congrFun (hfun side) p

theorem BookRun.run_refines (symbol : String) (ops : List BookOp) : (run symbol ops).Refines := by
  induction ops using List.reverseRecOn with
  | nil => exact ⟨fun side p => by cases side <;> simp [run, OrderBook.new, BookInner.side,
      storedSize, keptEntries, fromLastSnapshot, accepted],rfl⟩
  | append_singleton ops op ih =>
    rw [run_concat]
    exact ih.step op

/-- Replaying only the accepted operations reaches the same contents with the
same outcomes. -/
theorem BookRun.run_accepted (symbol : String) (ops : List BookOp) :
    (run symbol ((run symbol ops).history.accepted.map Prod.fst)).book.inner =
      (run symbol ops).book.inner ∧
    (run symbol ((run symbol ops).history.accepted.map Prod.fst)).history =
      (run symbol ops).history.accepted := by
  induction ops using List.reverseRecOn with
  | nil => exact ⟨rfl,rfl⟩
  | append_singleton ops op ih =>
    obtain ⟨hinner,hhist⟩ := ih
    simp only [run_concat, BookRun.step]
    cases hres : ((op.apply (run symbol ops).book).1).isOk with
    | true =>
      obtain ⟨hout,hnext⟩ := op.apply_congr hinner
      have hacc : accepted ((run symbol ops).history ++ [(op,(op.apply (run symbol ops).book).1)]) =
          (run symbol ops).history.accepted ++ [(op,(op.apply (run symbol ops).book).1)] := by
        simp [accepted, hres]
      rw [hacc, List.map_append, List.map_singleton, run_concat]
      exact ⟨hnext,by simp only [BookRun.step, hhist, hout]⟩
    | false =>
      have hacc : accepted ((run symbol ops).history ++ [(op,(op.apply (run symbol ops).book).1)]) =
          (run symbol ops).history.accepted := by
        simp [accepted, hres]
      have hkeep : (op.apply (run symbol ops).book).2.inner = (run symbol ops).book.inner := by
        rcases op.apply_cases (run symbol ops).book with ⟨_,hok,_⟩ | ⟨_,hok,_⟩ | ⟨_,_,h⟩
        · simp [hok, Except.isOk, Except.toBool] at hres
        · simp [hok, Except.isOk, Except.toBool] at hres
        · exact h
      rw [hacc, hkeep]
      exact ⟨hinner,hhist⟩

/-- The book of any run is the reference's, and rejected deltas leave no trace in it. -/
theorem run_lastWriteWins (symbol : String) (ops : List BookOp) :
    (∀ side p, ((BookRun.run symbol ops).book.inner.side side)[p]? =
      (BookRun.run symbol ops).history.storedSize side p) ∧
    (BookRun.run symbol ops).book.inner.lastSeq =
      (BookRun.run symbol ops).history.lastAcceptedSequence ∧
    (BookRun.run symbol ((BookRun.run symbol ops).history.accepted.map Prod.fst)).book.inner =
      (BookRun.run symbol ops).book.inner ∧
    (BookRun.run symbol ((BookRun.run symbol ops).history.accepted.map Prod.fst)).history =
      (BookRun.run symbol ops).history.accepted :=
  ⟨(BookRun.run_refines symbol ops).1,(BookRun.run_refines symbol ops).2,
    (BookRun.run_accepted symbol ops).1,(BookRun.run_accepted symbol ops).2⟩

end ArbCore

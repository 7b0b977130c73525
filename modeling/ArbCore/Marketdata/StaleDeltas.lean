import ArbCore.Marketdata.AdapterWiring
import ArbCore.Marketdata.WorkerPhases

/-! # How far a stale delta can roll the book back

The tolerance compares sequence numbers by their absolute difference. A delta
that the book has passed by more than the tolerated gap is rejected, a closer one
is applied and takes the sequence number back with it.
-/
namespace ArbCore
open LastWrite

/-- The message is the delta of an update that carries a sequence number. -/
def SequencedDelta (msg : SymbolMessage) : Prop :=
  ∃ update sym d, update.sequence.isSome = true ∧
    mapAdapterUpdateToMessage update = .ok (sym,.delta d) ∧ msg = .delta d

theorem sequencedDelta_cases {msg : SymbolMessage} (h : SequencedDelta msg) :
    ∃ d s, msg = .delta d ∧ d.prevSequence = some (s - 1) ∧ d.sequence = some s := by
  obtain ⟨update,sym,d,hsome,hmap,rfl⟩ := h
  obtain ⟨s,hs⟩ := Option.isSome_iff_exists.mp hsome
  obtain ⟨hprev,hseq⟩ := mapAdapterUpdateToMessage_delta hmap
  exact ⟨d,s,rfl,by rw [hprev, hs]; rfl,hseq.trans hs⟩

theorem sequenceGap_stale {m s : ℕ} (h : s ≤ m) : OrderBook.sequenceGap m (s - 1) = m - (s - 1) := by
  unfold OrderBook.sequenceGap
  split <;> omega

namespace SymbolWorker
variable {cfg : SymbolWorkerConfig} {w : SymbolWorker}

/-- No delta takes the sequence number back by more than the tolerated gap. -/
theorem lastSeq_receive {m : ℕ} (hphase : w.snapshotApplied = true)
    (hm : w.book.inner.lastSeq = some m) {msg : SymbolMessage} (hmsg : SequencedDelta msg)
    {env : WorkerEnv} (hsync : ∀ o ∈ w.outcome cfg msg env, o.isSync = false) :
    ∃ m', (w.receive cfg msg env).book.inner.lastSeq = some m' ∧
      m ≤ m' + cfg.maxAcceptableSequenceGap := by
  obtain ⟨d,s,rfl,hprev,hseq⟩ := sequencedDelta_cases hmsg
  rcases (w.receive_move cfg (.delta d) env).of_applied hphase with
    ⟨hgap,-,hbook⟩ | ⟨-,-,hbook⟩ | ⟨snap,-,-,hout,-⟩
  · rw [hbook]
    refine ⟨s,hseq,?_⟩
    have hle := (withinGap_some hm hprev).mp hgap
    by_cases hs : s ≤ m
    · rw [sequenceGap_stale hs] at hle
      omega
    · omega
  · rw [hbook]
    exact ⟨m,hm,Nat.le_add_right _ _⟩
  · rw [hout] at hsync
    exact absurd (hsync _ (List.mem_cons_of_mem _ List.mem_cons_self)) (by simp [WorkerLog.isSync])

theorem lastSeq_foldl {m : ℕ} (hphase : w.snapshotApplied = true) (hm : w.book.inner.lastSeq = some m)
    {inputs : List (SymbolMessage × WorkerEnv)} (hinputs : ∀ i ∈ inputs, SequencedDelta i.1)
    (hsync : ∀ o ∈ w.logOf cfg inputs, o.isSync = false) :
    ∃ m', (inputs.foldl (fun w i => w.receive cfg i.1 i.2) w).book.inner.lastSeq = some m' ∧
      m ≤ m' + inputs.length * cfg.maxAcceptableSequenceGap := by
  induction inputs generalizing w m with
  | nil => exact ⟨m,hm,Nat.le_add_right _ _⟩
  | cons i inputs ih =>
    obtain ⟨hi,hrest⟩ := List.forall_mem_cons.mp hinputs
    obtain ⟨hout,hlog⟩ := List.forall_mem_append.mp hsync
    obtain ⟨m₁,hm₁,hle₁⟩ := lastSeq_receive hphase hm hi hout
    have hphase₁ := (w.receive_move cfg i.1 i.2).snapshotApplied hphase
    obtain ⟨m₂,hm₂,hle₂⟩ := ih hphase₁ hm₁ hrest hlog
    refine ⟨m₂,hm₂,?_⟩
    rw [List.length_cons, Nat.succ_mul]
    omega

/-- A stale delta more than the tolerated gap behind leaves the contents, unless a
fetched snapshot replaces the book. A closer one overwrites its levels, so that between
snapshots each delta lowers the sequence number by at most the tolerated gap. -/
theorem stale_deltas (hphase : w.snapshotApplied = true) {m : ℕ}
    (hm : w.book.inner.lastSeq = some m) :
    (∀ (update : OrderbookUpdate) (s : ℕ) (sym : String) (d : OrderbookDelta) (env : WorkerEnv),
      update.sequence = some s → mapAdapterUpdateToMessage update = .ok (sym,.delta d) → s ≤ m →
        (cfg.maxAcceptableSequenceGap < m - (s - 1) →
          (w.receive cfg (.delta d) env).book.inner = w.book.inner ∨
          ∃ snap, fetchSnapshotFor env.provider = some snap ∧
            (w.receive cfg (.delta d) env).book = (w.book.applySnapshot snap env.now).2 ∧
            (w.receive cfg (.delta d) env).book.RebuiltFrom snap []) ∧
        (m - (s - 1) ≤ cfg.maxAcceptableSequenceGap →
          (w.receive cfg (.delta d) env).book.inner = (w.book.updateLevels d env.now).inner ∧
          (∀ side p, ((w.receive cfg (.delta d) env).book.inner.side side)[p]? =
            overwrite (fun p => (w.book.inner.side side)[p]?) ((d.levels side).map Level.write) p) ∧
          (w.receive cfg (.delta d) env).book.inner.lastSeq = some s)) ∧
    (∀ (inputs : List (SymbolMessage × WorkerEnv)), (∀ i ∈ inputs, SequencedDelta i.1) →
      (∀ o ∈ w.logOf cfg inputs, o.isSync = false) →
      ∃ m', (inputs.foldl (fun w i => w.receive cfg i.1 i.2) w).book.inner.lastSeq = some m' ∧
        m ≤ m' + inputs.length * cfg.maxAcceptableSequenceGap) := by
  refine ⟨?_,fun inputs => lastSeq_foldl hphase hm⟩
  intro update s sym d env hs hmap hstale
  obtain ⟨hprev,hseq⟩ := mapAdapterUpdateToMessage_delta hmap
  rw [hs] at hprev hseq
  have hcheck : w.book.withinGap d cfg.maxAcceptableSequenceGap = true ↔
      m - (s - 1) ≤ cfg.maxAcceptableSequenceGap := by
    rw [withinGap_some hm hprev, sequenceGap_stale hstale]
  rcases (w.receive_move cfg (.delta d) env).of_applied hphase with
    ⟨hgap,-,hbook⟩ | ⟨hgap,-,hbook⟩ | ⟨snap,hgap,hfetch,-,hbook⟩
  · rw [hbook]
    refine ⟨fun hfar => absurd (hcheck.mp hgap) (not_le.mpr hfar),fun _ => ⟨rfl,fun side p => ?_,hseq⟩⟩
    exact (congrArg (·[p]?) (side_updateLevels w.book d env.now side)).trans (getElem?_applyLevels _ _ p)
  · rw [hbook]
    exact ⟨fun _ => .inl rfl,fun hclose => absurd (hgap.symm.trans (hcheck.mpr hclose)) Bool.false_ne_true⟩
  · rw [hbook]
    exact ⟨fun _ => .inr ⟨snap,hfetch,rfl,.applySnapshot _ _ _⟩,
      fun hclose => absurd (hgap.symm.trans (hcheck.mpr hclose)) Bool.false_ne_true⟩

def atFive : SymbolWorker :=
  perSymbolWorker ⟨5000,1000⟩ "BTCUSDT" ⟨none,0⟩ [(.snapshot ⟨"BTCUSDT",[⟨100,1⟩],[],some 5,none⟩,⟨none,1⟩)]

theorem stale_deltas_atFive :
    (atFive.receive ⟨5000,1000⟩ (.delta ⟨"BTCUSDT",[⟨100,0⟩],[],some 2,some 3,none⟩)
      ⟨none,2⟩).book.inner.lastSeq = some 3 :=
  ((stale_deltas (w := atFive) rfl rfl).1
    ⟨"BTCUSDT",[⟨100,0⟩],[],some 3,false⟩ 3 "BTCUSDT" _ ⟨none,2⟩ rfl rfl (by decide)).2 (by decide) |>.2.2

/-- Event 3 arrives after state 5: the sequence number goes back. -/
theorem atFive_rolls_back :
    mapAdapterUpdateToMessage ⟨"BTCUSDT",[⟨100,0⟩],[],some 3,false⟩ =
      .ok ("BTCUSDT",.delta ⟨"BTCUSDT",[⟨100,0⟩],[],some 2,some 3,none⟩) ∧
    atFive.snapshotApplied = true ∧ atFive.book.inner.lastSeq = some 5 ∧
    (atFive.receive ⟨5000,1000⟩ (.delta ⟨"BTCUSDT",[⟨100,0⟩],[],some 2,some 3,none⟩)
      ⟨none,2⟩).book.inner.lastSeq ≠ atFive.book.inner.lastSeq ∧
    fetchSnapshotFor (⟨none,2⟩ : WorkerEnv).provider = none :=
  ⟨rfl,rfl,rfl,by decide,rfl⟩

end SymbolWorker

end ArbCore

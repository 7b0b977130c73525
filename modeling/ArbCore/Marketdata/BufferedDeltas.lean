import ArbCore.Marketdata.WorkerPhases

/-! # What becomes of the buffered deltas

Deltas that arrive before the first snapshot are buffered, and the snapshot
discards them. The book is then the one a replay of the later ones would give
only when there are no later ones.
-/
namespace ArbCore
open LastWrite

/-- Deltas with consecutive sequences, the first of which follows `a`. -/
def Consecutive (a : ℕ) : List OrderbookDelta → Prop
  | [] => True
  | d :: ds => d.prevSequence = some a ∧ d.sequence = some (a + 1) ∧ Consecutive (a + 1) ds

theorem Consecutive.sequence_le {a : ℕ} {ds : List OrderbookDelta} (h : Consecutive a ds)
    {d : OrderbookDelta} (hd : d ∈ ds) : ∃ i, d.sequence = some i ∧ i ≤ a + ds.length := by
  induction ds generalizing a with
  | nil => cases hd
  | cons d' ds ih =>
    obtain ⟨-,hseq,hrest⟩ := h
    rcases List.mem_cons.mp hd with rfl | hd
    · exact ⟨a + 1,hseq,by simp⟩
    · obtain ⟨i,hi,hle⟩ := ih hrest hd
      exact ⟨i,hi,hle.trans (by simp only [List.length_cons]; omega)⟩

def laterThan (sequence : ℕ) (ds : List OrderbookDelta) : List OrderbookDelta :=
  ds.filter fun d => d.sequence.any fun i => sequence < i

theorem laterThan_eq_nil {a L : ℕ} {ds : List OrderbookDelta} (h : Consecutive a ds)
    (hL : a + ds.length ≤ L) : laterThan L ds = [] := by
  refine List.filter_eq_nil_iff.mpr fun d hd => ?_
  obtain ⟨i,hi,hle⟩ := h.sequence_le hd
  simpa [hi] using hle.trans hL

/-- The book that the buffer is kept for: the snapshot with its later deltas, and
the larger of the two sequence numbers. -/
def Replayed (b : OrderBook) (s : OrderbookSnapshot) (L : ℕ) (ds : List OrderbookDelta)
    (last : ℕ) : Prop :=
  (∀ side p, (b.inner.side side)[p]? = overwrite (fun _ => none) (writesOf s (laterThan L ds) side) p) ∧
  b.inner.lastSeq = some (max L last)

theorem SymbolWorker.foldl_buffered {cfg : SymbolWorkerConfig} {w : SymbolWorker}
    (hphase : w.snapshotApplied = false) {deltas : List (OrderbookDelta × WorkerEnv)}
    (hroom : w.buffered.length + deltas.length ≤ cfg.maxBufferedDeltas) :
    (deltas.map fun i => (SymbolMessage.delta i.1,i.2)).foldl (fun w i => w.receive cfg i.1 i.2) w =
      ⟨w.book,w.buffered ++ deltas.map Prod.fst,false⟩ := by
  induction deltas generalizing w with
  | nil =>
    obtain ⟨book,buffered,snapshotApplied⟩ := w
    cases hphase
    simp
  | cons i deltas ih =>
    simp only [List.length_cons] at hroom
    have hreceive : w.receive cfg (.delta i.1) i.2 = ⟨w.book,w.buffered ++ [i.1],false⟩ := by
      have hfits : ¬ w.buffered.length ≥ cfg.maxBufferedDeltas := by omega
      simp only [receive, hphase, hfits, ↓reduceIte]
    have hrest : (w.buffered ++ [i.1]).length + deltas.length ≤ cfg.maxBufferedDeltas := by
      rw [List.length_append, List.length_singleton]
      omega
    rw [List.map_cons, List.foldl_cons, hreceive, ih (w := ⟨w.book,w.buffered ++ [i.1],false⟩) rfl hrest]
    simp

/-- The first snapshot discards the deltas buffered before it. Its book is the one
of a replay exactly when the snapshot is at least as new as the last of them. -/
theorem first_snapshot_drops_buffer {cfg : SymbolWorkerConfig} (symbol : String) {first : WorkerEnv}
    (hfirst : fetchSnapshotFor first.provider = none) {deltas : List (OrderbookDelta × WorkerEnv)}
    (hroom : deltas.length ≤ cfg.maxBufferedDeltas) {a : ℕ}
    (hseq : Consecutive a (deltas.map Prod.fst)) {s : OrderbookSnapshot} {L : ℕ}
    (hs : s.sequence = some L) (env : WorkerEnv) :
    (perSymbolWorker cfg symbol first (deltas.map fun i => (.delta i.1,i.2))).buffered =
      deltas.map Prod.fst ∧
    (perSymbolWorker cfg symbol first
      (deltas.map (fun i => (.delta i.1,i.2)) ++ [(.snapshot s,env)])).buffered = [] ∧
    (perSymbolWorker cfg symbol first
      (deltas.map (fun i => (.delta i.1,i.2)) ++ [(.snapshot s,env)])).book.RebuiltFrom s [] ∧
    (Replayed (perSymbolWorker cfg symbol first
      (deltas.map (fun i => (.delta i.1,i.2)) ++ [(.snapshot s,env)])).book s L
      (deltas.map Prod.fst) (a + deltas.length) ↔ a + deltas.length ≤ L) := by
  have hstart : SymbolWorker.start symbol first = ⟨OrderBook.new symbol,[],false⟩ := by
    simp only [SymbolWorker.start, hfirst]
  have hbuffer : perSymbolWorker cfg symbol first (deltas.map fun i => (.delta i.1,i.2)) =
      ⟨OrderBook.new symbol,deltas.map Prod.fst,false⟩ := by
    rw [perSymbolWorker, hstart, SymbolWorker.foldl_buffered rfl (by simpa using hroom)]
    rfl
  have hlast : perSymbolWorker cfg symbol first
      (deltas.map (fun i => (.delta i.1,i.2)) ++ [(.snapshot s,env)]) =
      ⟨((OrderBook.new symbol).applySnapshot s env.now).2,[],true⟩ := by
    rw [perSymbolWorker, List.foldl_concat, ← perSymbolWorker, hbuffer]
    rfl
  have hrebuilt := OrderBook.RebuiltFrom.applySnapshot (OrderBook.new symbol) s env.now
  rw [hbuffer, hlast]
  refine ⟨rfl,rfl,hrebuilt,fun h => ?_,fun h => ⟨?_,?_⟩⟩
  · have hmax : some L = some (max L (a + deltas.length)) := hs.symm.trans h.2
    exact max_eq_left_iff.mp (Option.some.inj hmax).symm
  · rw [laterThan_eq_nil hseq (by simpa using h)]
    exact hrebuilt.side
  · rw [max_eq_left h]
    exact hs

theorem first_snapshot_drops_buffer_contained :
    Replayed (perSymbolWorker ⟨8,1000⟩ "BTCUSDT" ⟨none,0⟩
      [(.delta ⟨"BTCUSDT",[⟨100,1⟩],[],some 0,some 1,none⟩,⟨none,1⟩),
        (.snapshot ⟨"BTCUSDT",[⟨100,1⟩],[],some 1,none⟩,⟨none,2⟩)]).book
      ⟨"BTCUSDT",[⟨100,1⟩],[],some 1,none⟩ 1 [⟨"BTCUSDT",[⟨100,1⟩],[],some 0,some 1,none⟩] 1 :=
  (@first_snapshot_drops_buffer ⟨8,1000⟩ "BTCUSDT" ⟨none,0⟩ rfl
    [(⟨"BTCUSDT",[⟨100,1⟩],[],some 0,some 1,none⟩,⟨none,1⟩)] (by decide) 0 ⟨rfl,rfl,trivial⟩
    ⟨"BTCUSDT",[⟨100,1⟩],[],some 1,none⟩ 1 rfl ⟨none,2⟩).2.2.2.mpr le_rfl

theorem buffered_delta_lost :
    fetchSnapshotFor (⟨none,0⟩ : WorkerEnv).provider = none ∧
    Consecutive 0 [⟨"BTCUSDT",[⟨100,1⟩],[],some 0,some 1,none⟩] ∧
    ¬ Replayed (perSymbolWorker ⟨8,1000⟩ "BTCUSDT" ⟨none,0⟩
      [(.delta ⟨"BTCUSDT",[⟨100,1⟩],[],some 0,some 1,none⟩,⟨none,1⟩),
        (.snapshot ⟨"BTCUSDT",[],[],some 0,none⟩,⟨none,2⟩)]).book
      ⟨"BTCUSDT",[],[],some 0,none⟩ 0 [⟨"BTCUSDT",[⟨100,1⟩],[],some 0,some 1,none⟩] 1 :=
  ⟨rfl,⟨rfl,rfl,trivial⟩,fun h => nomatch h.2⟩

end ArbCore

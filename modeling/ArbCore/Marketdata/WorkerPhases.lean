import ArbCore.Marketdata.Manager

/-! # The two phases of a worker

A logged worker records what each iteration of its loop did. The log determines
the state: until a snapshot is applied the book is empty and the buffer holds the
deltas since the last overflow, and from then on the book is the last applied
snapshot with the deltas accepted after it.
-/
namespace ArbCore
open LastWrite

/-- The entries that a snapshot and the deltas after it write to a side, in order. -/
def writesOf (s : OrderbookSnapshot) (ds : List OrderbookDelta) (side : Side) :
    List (Decimal × Option Decimal) :=
  (((s.levels side).filter fun l => 0 < l.size) ++ ds.flatMap fun d => d.levels side).map Level.write

/-- The last write for each price decides, whatever the book held before the snapshot. -/
structure OrderBook.RebuiltFrom (b : OrderBook) (s : OrderbookSnapshot) (ds : List OrderbookDelta) :
    Prop where
  side : ∀ side p, (b.inner.side side)[p]? = overwrite (fun _ => none) (writesOf s ds side) p
  lastSeq : b.inner.lastSeq = (ds.map OrderbookDelta.sequence).getLastD s.sequence

namespace OrderBook.RebuiltFrom
variable {b b' : OrderBook} {s : OrderbookSnapshot} {ds : List OrderbookDelta}

theorem applySnapshot (b : OrderBook) (s : OrderbookSnapshot) (now : Instant) :
    (b.applySnapshot s now).2.RebuiltFrom s [] := by
  refine ⟨fun side p => ?_,rfl⟩
  rw [side_applySnapshot, getElem?_insertLevels_empty, writesOf, List.flatMap_nil, List.append_nil]

theorem congr (h : b.RebuiltFrom s ds) (hinner : b'.inner = b.inner) : b'.RebuiltFrom s ds :=
  ⟨hinner ▸ h.side,hinner ▸ h.lastSeq⟩

theorem updateLevels (h : b.RebuiltFrom s ds) (d : OrderbookDelta) (now : Instant) :
    (b.updateLevels d now).RebuiltFrom s (ds ++ [d]) := by
  refine ⟨fun side p => ?_,?_⟩
  · have hwrites : writesOf s (ds ++ [d]) side = writesOf s ds side ++ (d.levels side).map Level.write := by
      simp [writesOf]
    rw [side_updateLevels, getElem?_applyLevels, hwrites, overwrite_append, funext (h.side side)]
  · rw [List.map_append, List.map_singleton, List.getLastD_concat]
    rfl

end OrderBook.RebuiltFrom

inductive WorkerLog where
  | buffered (delta : OrderbookDelta)
  | overflowed (delta : OrderbookDelta)
  | accepted (delta : OrderbookDelta)
  | rejected (delta : OrderbookDelta)
  | synced (snap : OrderbookSnapshot)

namespace WorkerLog

def delta? : WorkerLog → Option OrderbookDelta
  | .buffered d | .overflowed d | .accepted d | .rejected d => some d
  | .synced _ => none

def accepted? : WorkerLog → Option OrderbookDelta
  | .accepted d => some d
  | _ => none

def isOverflow : WorkerLog → Bool
  | .overflowed _ => true
  | _ => false

def isSync : WorkerLog → Bool
  | .synced _ => true
  | _ => false

def sinceOverflow (log : List WorkerLog) : List OrderbookDelta :=
  (log.rtakeWhile fun o => !o.isOverflow).filterMap delta?

theorem sinceOverflow_overflowed (log : List WorkerLog) (d : OrderbookDelta) :
    sinceOverflow (log ++ [.overflowed d]) = [] := by
  simp [sinceOverflow, isOverflow]

theorem sinceOverflow_buffered (log : List WorkerLog) (d : OrderbookDelta) :
    sinceOverflow (log ++ [.buffered d]) = sinceOverflow log ++ [d] := by
  simp [sinceOverflow, isOverflow, delta?]

/-- The book holds the last snapshot of the log and the deltas accepted after it. -/
def Rebuilds (log : List WorkerLog) (b : OrderBook) : Prop :=
  ∃ before snap after, log = before ++ .synced snap :: after ∧ (∀ o ∈ after, o.isSync = false) ∧
    b.RebuiltFrom snap (after.filterMap accepted?)

variable {log : List WorkerLog} {b : OrderBook}

theorem Rebuilds.synced (log : List WorkerLog) (b : OrderBook) (s : OrderbookSnapshot) (now : Instant) :
    Rebuilds (log ++ [.synced s]) (b.applySnapshot s now).2 :=
  ⟨log,s,[],rfl,by simp,.applySnapshot b s now⟩

theorem Rebuilds.accepted (h : Rebuilds log b) (d : OrderbookDelta) (now : Instant) :
    Rebuilds (log ++ [.accepted d]) { b.updateLevels d now with resyncRequired := false } := by
  obtain ⟨before,snap,after,rfl,hafter,hb⟩ := h
  refine ⟨before,snap,after ++ [.accepted d],by simp,?_,?_⟩
  · simpa [or_imp, forall_and, isSync] using hafter
  · rw [List.filterMap_append]
    exact (hb.updateLevels d now).congr rfl

theorem Rebuilds.rejected (h : Rebuilds log b) (d : OrderbookDelta) :
    Rebuilds (log ++ [.rejected d]) { b with resyncRequired := true } := by
  obtain ⟨before,snap,after,rfl,hafter,hb⟩ := h
  refine ⟨before,snap,after ++ [.rejected d],by simp,?_,?_⟩
  · simpa [or_imp, forall_and, isSync] using hafter
  · rw [List.filterMap_append]
    change OrderBook.RebuiltFrom _ snap (after.filterMap accepted? ++ [])
    rw [List.append_nil]
    exact hb.congr rfl

end WorkerLog

def SymbolMessage.delta? : SymbolMessage → Option OrderbookDelta
  | .snapshot _ => none
  | .delta d => some d

namespace SymbolWorker
variable {cfg : SymbolWorkerConfig} {w : SymbolWorker} {env : WorkerEnv}

def outcome (cfg : SymbolWorkerConfig) (w : SymbolWorker) (msg : SymbolMessage) (env : WorkerEnv) :
    List WorkerLog :=
  let fetched := (fetchSnapshotFor env.provider).toList.map .synced
  match msg with
  | .snapshot snap => [.synced snap]
  | .delta delta =>
    if w.snapshotApplied = false then
      if w.buffered.length ≥ cfg.maxBufferedDeltas then .overflowed delta :: fetched
      else [.buffered delta]
    else if w.book.withinGap delta cfg.maxAcceptableSequenceGap then [.accepted delta]
    else .rejected delta :: fetched

/-- Everything an iteration can do: what it logs and the state it leaves. -/
inductive Move (cfg : SymbolWorkerConfig) (w : SymbolWorker) (env : WorkerEnv) :
    SymbolMessage → List WorkerLog → SymbolWorker → Prop
  | pushed (s : OrderbookSnapshot) :
      Move cfg w env (.snapshot s) [.synced s] ⟨(w.book.applySnapshot s env.now).2,[],true⟩
  | buffered {d : OrderbookDelta} (hphase : w.snapshotApplied = false)
      (hroom : w.buffered.length < cfg.maxBufferedDeltas) :
      Move cfg w env (.delta d) [.buffered d] ⟨w.book,w.buffered ++ [d],false⟩
  | overflowed {d : OrderbookDelta} (hphase : w.snapshotApplied = false)
      (hfetch : fetchSnapshotFor env.provider = none) :
      Move cfg w env (.delta d) [.overflowed d] ⟨w.book,[],false⟩
  | resynced {d : OrderbookDelta} {s : OrderbookSnapshot} (hphase : w.snapshotApplied = false)
      (hfetch : fetchSnapshotFor env.provider = some s) :
      Move cfg w env (.delta d) [.overflowed d,.synced s] ⟨(w.book.applySnapshot s env.now).2,[],true⟩
  | accepted {d : OrderbookDelta} (hphase : w.snapshotApplied = true)
      (hgap : w.book.withinGap d cfg.maxAcceptableSequenceGap = true) :
      Move cfg w env (.delta d) [.accepted d]
        ⟨{ w.book.updateLevels d env.now with resyncRequired := false },w.buffered,true⟩
  | rejected {d : OrderbookDelta} (hphase : w.snapshotApplied = true)
      (hgap : w.book.withinGap d cfg.maxAcceptableSequenceGap = false)
      (hfetch : fetchSnapshotFor env.provider = none) :
      Move cfg w env (.delta d) [.rejected d] ⟨{ w.book with resyncRequired := true },w.buffered,true⟩
  | replaced {d : OrderbookDelta} {s : OrderbookSnapshot} (hphase : w.snapshotApplied = true)
      (hgap : w.book.withinGap d cfg.maxAcceptableSequenceGap = false)
      (hfetch : fetchSnapshotFor env.provider = some s) :
      Move cfg w env (.delta d) [.rejected d,.synced s]
        ⟨(w.book.applySnapshot s env.now).2,w.buffered,true⟩

theorem receive_move (cfg : SymbolWorkerConfig) (w : SymbolWorker) (msg : SymbolMessage)
    (env : WorkerEnv) : Move cfg w env msg (w.outcome cfg msg env) (w.receive cfg msg env) := by
  cases msg with
  | snapshot s => exact .pushed s
  | delta d =>
    simp only [outcome, receive]
    cases hphase : w.snapshotApplied with
    | false =>
      simp only [↓reduceIte]
      split
      · cases hfetch : fetchSnapshotFor env.provider with
        | none => exact .overflowed hphase hfetch
        | some s => exact .resynced hphase hfetch
      · rename_i hfull
        exact .buffered hphase (not_le.mp hfull)
    | true =>
      simp only [Bool.true_eq_false, ↓reduceIte]
      cases hgap : w.book.withinGap d cfg.maxAcceptableSequenceGap with
      | true =>
        rw [applyDeltaWithGapTolerance_accepted hgap]
        exact .accepted hphase hgap
      | false =>
        rw [applyDeltaWithGapTolerance_rejected hgap]
        cases hfetch : fetchSnapshotFor env.provider with
        | none => exact .rejected hphase hgap hfetch
        | some s => exact .replaced hphase hgap hfetch

theorem Move.deltas {msg : SymbolMessage} {out : List WorkerLog} {t : SymbolWorker}
    (h : Move cfg w env msg out t) : out.filterMap WorkerLog.delta? = msg.delta?.toList := by
  cases h <;> rfl

theorem Move.of_applied {d : OrderbookDelta} {out : List WorkerLog} {t : SymbolWorker}
    (h : Move cfg w env (.delta d) out t) (hw : w.snapshotApplied = true) :
    (w.book.withinGap d cfg.maxAcceptableSequenceGap = true ∧ out = [.accepted d] ∧
      t.book = { w.book.updateLevels d env.now with resyncRequired := false }) ∨
    (w.book.withinGap d cfg.maxAcceptableSequenceGap = false ∧ out = [.rejected d] ∧
      t.book = { w.book with resyncRequired := true }) ∨
    ∃ s, w.book.withinGap d cfg.maxAcceptableSequenceGap = false ∧
      fetchSnapshotFor env.provider = some s ∧ out = [.rejected d,.synced s] ∧
      t.book = (w.book.applySnapshot s env.now).2 := by
  cases h with
  | buffered hphase _ => exact absurd (hw.symm.trans hphase) Bool.true_eq_false_eq_False
  | overflowed hphase _ => exact absurd (hw.symm.trans hphase) Bool.true_eq_false_eq_False
  | resynced hphase _ => exact absurd (hw.symm.trans hphase) Bool.true_eq_false_eq_False
  | accepted _ hgap => exact .inl ⟨hgap,rfl,rfl⟩
  | rejected _ hgap _ => exact .inr (.inl ⟨hgap,rfl,rfl⟩)
  | replaced _ hgap hfetch => exact .inr (.inr ⟨_,hgap,hfetch,rfl,rfl⟩)

theorem Move.snapshotApplied {msg : SymbolMessage} {out : List WorkerLog} {t : SymbolWorker}
    (h : Move cfg w env msg out t) (hw : w.snapshotApplied = true) : t.snapshotApplied = true := by
  cases h with
  | buffered hphase _ => exact absurd (hw.symm.trans hphase) Bool.true_eq_false_eq_False
  | overflowed hphase _ => exact absurd (hw.symm.trans hphase) Bool.true_eq_false_eq_False
  | _ => rfl

def logOf (cfg : SymbolWorkerConfig) : SymbolWorker → List (SymbolMessage × WorkerEnv) → List WorkerLog
  | _, [] => []
  | w, i :: inputs => w.outcome cfg i.1 i.2 ++ logOf cfg (w.receive cfg i.1 i.2) inputs

end SymbolWorker

structure LoggedWorker where
  worker : SymbolWorker
  log : List WorkerLog

namespace LoggedWorker
variable {cfg : SymbolWorkerConfig}

def start (symbol : String) (env : WorkerEnv) : LoggedWorker :=
  ⟨.start symbol env,(fetchSnapshotFor env.provider).toList.map .synced⟩

def receive (cfg : SymbolWorkerConfig) (r : LoggedWorker) (i : SymbolMessage × WorkerEnv) :
    LoggedWorker :=
  ⟨r.worker.receive cfg i.1 i.2,r.log ++ r.worker.outcome cfg i.1 i.2⟩

def run (cfg : SymbolWorkerConfig) (symbol : String) (first : WorkerEnv)
    (inputs : List (SymbolMessage × WorkerEnv)) : LoggedWorker :=
  inputs.foldl (receive cfg) (start symbol first)

theorem foldl_worker (cfg : SymbolWorkerConfig) (r : LoggedWorker)
    (inputs : List (SymbolMessage × WorkerEnv)) :
    (inputs.foldl (receive cfg) r).worker =
      inputs.foldl (fun w i => w.receive cfg i.1 i.2) r.worker := by
  induction inputs generalizing r with
  | nil => rfl
  | cons i inputs ih => exact ih (r.receive cfg i)

theorem run_deltas (cfg : SymbolWorkerConfig) (symbol : String) (first : WorkerEnv)
    (inputs : List (SymbolMessage × WorkerEnv)) :
    (run cfg symbol first inputs).log.filterMap WorkerLog.delta? =
      inputs.filterMap fun i => i.1.delta? := by
  have hstart : (start symbol first).log.filterMap WorkerLog.delta? = [] := by
    unfold start
    cases fetchSnapshotFor first.provider <;> rfl
  induction inputs using List.reverseRecOn with
  | nil => exact hstart
  | append_singleton inputs i ih =>
    have hmove := (run cfg symbol first inputs).worker.receive_move cfg i.1 i.2
    rw [run, List.foldl_concat, receive, List.filterMap_append, List.filterMap_append]
    refine congrArg₂ (· ++ ·) ih (hmove.deltas.trans ?_)
    cases hi : i.1.delta? <;> simp [hi]

/-- The state that the log allows. -/
structure InPhase (cfg : SymbolWorkerConfig) (r : LoggedWorker) : Prop where
  capped : r.worker.buffered.length ≤ cfg.maxBufferedDeltas
  waiting : r.worker.snapshotApplied = false →
    (∀ side, r.worker.book.inner.side side = ∅) ∧ r.worker.book.inner.lastSeq = none ∧
      r.worker.buffered = WorkerLog.sinceOverflow r.log
  synced : r.worker.snapshotApplied = true →
    r.worker.buffered = [] ∧ WorkerLog.Rebuilds r.log r.worker.book

theorem InPhase.of_synced {w : SymbolWorker} {log : List WorkerLog} (hphase : w.snapshotApplied = true)
    (hbuffered : w.buffered = []) (hbook : WorkerLog.Rebuilds log w.book) :
    InPhase cfg ⟨w,log⟩ where
  capped := by simp [hbuffered]
  waiting := fun h => absurd (hphase.symm.trans h) Bool.true_eq_false_eq_False
  synced := fun _ => ⟨hbuffered,hbook⟩

theorem inPhase_start (cfg : SymbolWorkerConfig) (symbol : String) (first : WorkerEnv) :
    (start symbol first).InPhase cfg := by
  unfold start SymbolWorker.start
  cases fetchSnapshotFor first.provider with
  | none =>
    refine ⟨Nat.zero_le _,fun _ => ⟨fun side => ?_,rfl,rfl⟩,fun h => nomatch h⟩
    cases side <;> rfl
  | some s => exact .of_synced rfl rfl (.synced [] _ s _)

theorem InPhase.move {w t : SymbolWorker} {log out : List WorkerLog} {msg : SymbolMessage}
    {env : WorkerEnv} (h : InPhase cfg ⟨w,log⟩) (hmove : w.Move cfg env msg out t) :
    InPhase cfg ⟨t,log ++ out⟩ := by
  cases hmove with
  | pushed s => exact .of_synced rfl rfl (.synced log _ s _)
  | @buffered d hphase hroom =>
    obtain ⟨hempty,hseq,hbuffered⟩ := h.waiting hphase
    refine ⟨by simpa using hroom,fun _ => ⟨hempty,hseq,?_⟩,fun h => nomatch h⟩
    change w.buffered ++ [d] = _
    rw [WorkerLog.sinceOverflow_buffered]
    exact congrArg (· ++ [d]) hbuffered
  | overflowed hphase hfetch =>
    obtain ⟨hempty,hseq,-⟩ := h.waiting hphase
    exact ⟨Nat.zero_le _,fun _ => ⟨hempty,hseq,(WorkerLog.sinceOverflow_overflowed log _).symm⟩,
      fun h => nomatch h⟩
  | @resynced d s hphase hfetch =>
    refine .of_synced rfl rfl ?_
    rw [List.append_cons]
    exact .synced _ _ s _
  | @accepted d hphase hgap =>
    obtain ⟨hbuffered,hbook⟩ := h.synced hphase
    exact .of_synced rfl hbuffered (hbook.accepted d _)
  | @rejected d hphase hgap hfetch =>
    obtain ⟨hbuffered,hbook⟩ := h.synced hphase
    exact .of_synced rfl hbuffered (hbook.rejected d)
  | @replaced d s hphase hgap hfetch =>
    obtain ⟨hbuffered,-⟩ := h.synced hphase
    refine .of_synced rfl hbuffered ?_
    rw [List.append_cons]
    exact .synced _ _ s _

theorem inPhase_run (cfg : SymbolWorkerConfig) (symbol : String) (first : WorkerEnv)
    (inputs : List (SymbolMessage × WorkerEnv)) : (run cfg symbol first inputs).InPhase cfg :=
  List.foldlRecOn inputs _ (inPhase_start cfg symbol first) fun r h i _ =>
    h.move (r.worker.receive_move cfg i.1 i.2)

end LoggedWorker

theorem SymbolWorker.snapshotApplied_foldl {cfg : SymbolWorkerConfig} {w : SymbolWorker}
    (h : w.snapshotApplied = true) (inputs : List (SymbolMessage × WorkerEnv)) :
    (inputs.foldl (fun w i => w.receive cfg i.1 i.2) w).snapshotApplied = true := by
  induction inputs generalizing w with
  | nil => exact h
  | cons i inputs ih => exact ih ((w.receive_move cfg i.1 i.2).snapshotApplied h)

/-- In every run the logged worker is the worker, its log lists all deltas that
arrived, the state is the one its log allows, and the second phase is for good. -/
theorem worker_phases (cfg : SymbolWorkerConfig) (symbol : String) (first : WorkerEnv)
    (inputs more : List (SymbolMessage × WorkerEnv)) :
    (LoggedWorker.run cfg symbol first inputs).worker = perSymbolWorker cfg symbol first inputs ∧
    (LoggedWorker.run cfg symbol first inputs).log.filterMap WorkerLog.delta? =
      inputs.filterMap (fun i => i.1.delta?) ∧
    (LoggedWorker.run cfg symbol first inputs).InPhase cfg ∧
    ((perSymbolWorker cfg symbol first inputs).snapshotApplied = true →
      (perSymbolWorker cfg symbol first (inputs ++ more)).snapshotApplied = true) := by
  refine ⟨LoggedWorker.foldl_worker cfg _ inputs,LoggedWorker.run_deltas cfg symbol first inputs,
    LoggedWorker.inPhase_run cfg symbol first inputs,fun h => ?_⟩
  rw [perSymbolWorker, List.foldl_append]
  exact SymbolWorker.snapshotApplied_foldl h more

end ArbCore

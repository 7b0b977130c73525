import ArbCore.Orderbook.PositiveSizes

/-! # Snapshot copies and their round trips

A copy lists every stored level once, the best price first. Applied as a snapshot it
restores a book exactly when all sizes stored there are positive, since the snapshot
loop drops the others. Hence a copy taken after a snapshot is a normal form.
-/
namespace ArbCore
open LastWrite

/-- The first price stands before the second on this side: bids fall and asks rise. -/
def Side.Better : Side → Decimal → Decimal → Prop
  | .bid, p, q => q < p
  | .ask, p, q => p < q

theorem Side.Better.ne {side : Side} {p q : Decimal} (h : side.Better p q) : p ≠ q := by
  cases side with
  | bid => exact ne_of_gt h
  | ask => exact ne_of_lt h

structure OrderBook.SameContents (b b' : OrderBook) : Prop where
  bids : b.inner.bids = b'.inner.bids
  asks : b.inner.asks = b'.inner.asks
  lastSeq : b.inner.lastSeq = b'.inner.lastSeq

/-- Whatever book the copy is applied to, it becomes this one. -/
def OrderBook.RoundTrips (b : OrderBook) : Prop :=
  ∀ (other : OrderBook) (now now' : Instant),
    (other.applySnapshot (b.snapshotCopy now) now').2.SameContents b

section Copy
variable (b : OrderBook) (now : Instant) (side : Side)

theorem snapshotCopy_sorted :
    ((b.snapshotCopy now).levels side).Pairwise fun k l => side.Better k.price l.price := by
  cases side with
  | bid => exact List.pairwise_map.mpr (List.pairwise_reverse.mpr (toList_rises _))
  | ask => exact List.pairwise_map.mpr (toList_rises _)

theorem mem_snapshotCopy {l : Level} :
    l ∈ (b.snapshotCopy now).levels side ↔ (b.inner.side side)[l.price]? = some l.size := by
  rw [← Std.ExtTreeMap.mem_toList_iff_getElem?_eq_some]
  have hentry : ∀ e : Decimal × Decimal, (⟨e.1,e.2⟩ : Level) = l ↔ e = (l.price,l.size) := by
    refine fun e => ⟨?_,?_⟩
    · rintro rfl
      rfl
    · rintro rfl
      rfl
  cases side <;> simp [OrderBook.snapshotCopy, OrderbookSnapshot.levels, BookInner.side, hentry]

theorem getElem?_insertLevels_snapshotCopy (p : Decimal) :
    (insertLevels ∅ ((b.snapshotCopy now).levels side))[p]? =
      (b.inner.side side)[p]?.filter fun size => 0 < size := by
  have hkept : ∀ l ∈ ((b.snapshotCopy now).levels side).filter (fun l => 0 < l.size),
      (b.inner.side side)[l.price]? = some l.size ∧ 0 < l.size := by
    intro l hl
    obtain ⟨hcopied,hpos⟩ := List.mem_filter.mp hl
    exact ⟨(mem_snapshotCopy b now side).mp hcopied,of_decide_eq_true hpos⟩
  have hpositives : overwrite (fun _ => none)
      ((((b.snapshotCopy now).levels side).filter fun l => 0 < l.size).map Level.write) =
        fun p => (b.inner.side side)[p]?.filter fun size => 0 < size := by
    refine overwrite_eq_of_agree (fun w hw => ?_) fun k hk => ?_
    · obtain ⟨l,hl,rfl⟩ := List.mem_map.mp hw
      obtain ⟨hstored,hpos⟩ := hkept l hl
      rw [Level.write, if_neg hpos.ne', hstored, Option.filter_some, if_pos (decide_eq_true hpos)]
    · cases hstored : (b.inner.side side)[k]? with
      | none => rfl
      | some size =>
        rw [Option.filter_some, if_neg fun hpos => ?_]
        have hcopied : (⟨k,size⟩ : Level) ∈ (b.snapshotCopy now).levels side :=
          (mem_snapshotCopy b now side).mpr hstored
        exact hk _ (List.mem_map_of_mem (List.mem_filter.mpr ⟨hcopied,hpos⟩)) rfl
  rw [getElem?_insertLevels_empty, hpositives]

theorem side_snapshotCopy_eq_iff :
    insertLevels ∅ ((b.snapshotCopy now).levels side) = b.inner.side side ↔
      ∀ price size : Decimal, (b.inner.side side)[price]? = some size → 0 < size := by
  constructor
  · intro h price size hstored
    rw [← h, getElem?_insertLevels_snapshotCopy] at hstored
    exact of_decide_eq_true (Option.filter_eq_some_iff.mp hstored).2
  · intro hpos
    refine Std.ExtTreeMap.ext_getElem? fun price => ?_
    rw [getElem?_insertLevels_snapshotCopy]
    cases hstored : (b.inner.side side)[price]? with
    | none => rfl
    | some size => rw [Option.filter_some, if_pos (decide_eq_true (hpos price size hstored))]

end Copy

section RoundTrip
variable {b : OrderBook}

/-- Exactly the books whose sizes are all positive are restored by their copies. -/
theorem roundTrips_iff : b.RoundTrips ↔ b.PositiveSizes := by
  constructor
  · intro h side
    obtain ⟨hbids,hasks,-⟩ := h b 0 0
    refine (side_snapshotCopy_eq_iff b 0 side).mp ?_
    cases side with
    | bid => exact hbids
    | ask => exact hasks
  · intro hpos other now now'
    exact ⟨(side_snapshotCopy_eq_iff b now .bid).mpr (hpos .bid),
      (side_snapshotCopy_eq_iff b now .ask).mpr (hpos .ask),rfl⟩

theorem snapshotCopy_congr {b' : OrderBook} (h : b.SameContents b') (now now' : Instant) :
    (b.snapshotCopy now).bids = (b'.snapshotCopy now').bids ∧
      (b.snapshotCopy now).asks = (b'.snapshotCopy now').asks ∧
      (b.snapshotCopy now).sequence = (b'.snapshotCopy now').sequence := by
  obtain ⟨hbids,hasks,hlastSeq⟩ := h
  simp only [OrderBook.snapshotCopy, hbids, hasks, hlastSeq, and_self]

end RoundTrip

section Runs
variable (symbol : String) (ops : List BookOp)

theorem stored_ne_zero {side : Side} {price size : Decimal}
    (h : ((BookRun.run symbol ops).book.inner.side side)[price]? = some size) : size ≠ 0 := by
  rw [(BookRun.run_refines symbol ops).1] at h
  obtain ⟨l,-,hsize⟩ := Option.bind_eq_some_iff.mp h
  split_ifs at hsize with hzero
  exact Option.some.inj hsize ▸ hzero

theorem not_storesNegative {b : OrderBook} {op : BookOp}
    (h : ∀ side, ∀ l ∈ op.entries side, 0 ≤ l.size) : ¬ StoresNegative b op := by
  have hlast : ∀ {d : OrderbookDelta}, (∀ side, ∀ l ∈ d.levels side, 0 ≤ l.size) → ¬ d.EndsNegative := by
    rintro d hd ⟨side,price,l,hfind,hneg⟩
    have hmem := List.mem_reverse.mp (List.mem_of_find?_eq_some hfind)
    exact absurd hneg (hd side l hmem).not_gt
  cases op with
  | applySnapshot s now => exact id
  | applyDelta d now => exact fun hstores => hlast h hstores.2
  | applyDeltaWithGapTolerance d maxGap now => exact fun hstores => hlast h hstores.2

end Runs

/-- Copies restore every book of a run on sizes that are not negative, and every book of a
run that has come to hold no negative size. After a snapshot, whatever it lists, the
copy is a normal form. -/
theorem snapshotCopy_roundTrip (symbol : String) (ops : List BookOp) :
    ((∀ op ∈ ops, ∀ side, ∀ l ∈ op.entries side, 0 ≤ l.size) →
      (BookRun.run symbol ops).book.RoundTrips) ∧
    ((∀ side (price size : Decimal),
        ((BookRun.run symbol ops).book.inner.side side)[price]? = some size → 0 ≤ size) →
      (BookRun.run symbol ops).book.RoundTrips) ∧
    ∀ (b b' : OrderBook) (s : OrderbookSnapshot) (t₀ t₁ t₂ t₃ : Instant),
      let copy := (b.applySnapshot s t₀).2.snapshotCopy t₁
      let again := (b'.applySnapshot copy t₂).2.snapshotCopy t₃
      again.bids = copy.bids ∧ again.asks = copy.asks ∧ again.sequence = copy.sequence := by
  refine ⟨fun hsizes => roundTrips_iff.mpr ?_,fun hsizes => roundTrips_iff.mpr ?_,?_⟩
  · refine (positiveSizes_iff symbol ops).mpr (fun pre op post hops => ?_) ops (List.prefix_refl ops)
    exact not_storesNegative (hsizes op (hops ▸ List.mem_append_right _ List.mem_cons_self))
  · intro side price size hstored
    exact lt_of_le_of_ne (hsizes side price size hstored) (stored_ne_zero symbol ops hstored).symm
  · intro b b' s t₀ t₁ t₂ t₃
    have hrestored := roundTrips_iff.mpr (OrderBook.PositiveSizes.applySnapshot b s t₀) b' t₁ t₂
    exact snapshotCopy_congr hrestored t₃ t₁

theorem snapshotCopy_roundTrip_twoMessages :
    (BookRun.run "BTCUSDT" [.applySnapshot ⟨"BTCUSDT",[⟨99,1⟩,⟨100,2⟩],[],some 5,none⟩ 0,
      .applyDelta ⟨"BTCUSDT",[⟨100,0⟩],[⟨101,3⟩],some 5,some 6,none⟩ 1]).book.RoundTrips := by
  refine (snapshotCopy_roundTrip _ _).1 fun op hop side l hl => ?_
  simp only [List.mem_cons, List.not_mem_nil, or_false] at hop
  rcases hop with rfl | rfl
  · exact (of_decide_eq_true (List.mem_filter.mp hl).2 : 0 < l.size).le
  · cases side with
    | bid => exact (List.mem_singleton.mp hl) ▸ le_rfl
    | ask => exact (List.mem_singleton.mp hl) ▸ (by norm_num : (0 : Decimal) ≤ 3)

end ArbCore

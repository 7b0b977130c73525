import ArbCore.Marketdata.TriView
import ArbCore.Orderbook.SnapshotCopy

/-! # One order of levels in all views

The best quotes, the top levels and the sides of a triangle's view are each read from
the trees by code of their own. All of them are prefixes of what a copy lists.
-/
namespace ArbCore

namespace OrderBook

def best (b : OrderBook) : Side → Option Level
  | .bid => b.bestBid
  | .ask => b.bestAsk

/-- The copy lists every stored level once and the better price first, and the other
views of the book are the first levels of the copy. -/
structure ViewsAgree (b : OrderBook) : Prop where
  once : ∀ now side l, ((b.snapshotCopy now).levels side).count l =
    if (b.inner.side side)[l.price]? = some l.size then 1 else 0
  sorted : ∀ now side, ((b.snapshotCopy now).levels side).Pairwise fun k l => side.Better k.price l.price
  topN : ∀ now side n, b.topN side n = ((b.snapshotCopy now).levels side).take n
  best : ∀ now side, b.best side = ((b.snapshotCopy now).levels side).head?
  empty : ∀ side, b.best side = none ↔ ∀ price : Decimal, (b.inner.side side)[price]? = none

end OrderBook

def Level.quote (l : Level) : Decimal × Decimal := (l.price,l.size)

/-- Each side of the view lists the top levels of its book. -/
structure TriView.Shows (view : TriView) (ab bc ac : OrderBook) (n : ℕ) : Prop where
  bidsAb : view.bidsAb = (ab.topN .bid n).map Level.quote
  asksAb : view.asksAb = (ab.topN .ask n).map Level.quote
  bidsBc : view.bidsBc = (bc.topN .bid n).map Level.quote
  asksBc : view.asksBc = (bc.topN .ask n).map Level.quote
  bidsAc : view.bidsAc = (ac.topN .bid n).map Level.quote
  asksAc : view.asksAc = (ac.topN .ask n).map Level.quote

section Views
variable (b : OrderBook) (now : Instant) (side : Side)

theorem count_snapshotCopy (l : Level) : ((b.snapshotCopy now).levels side).count l =
    if (b.inner.side side)[l.price]? = some l.size then 1 else 0 := by
  have hnodup : ((b.snapshotCopy now).levels side).Nodup :=
    (snapshotCopy_sorted b now side).imp fun h heq => h.ne (congrArg Level.price heq)
  split
  · rename_i hstored
    exact List.count_eq_one_of_mem hnodup ((mem_snapshotCopy b now side).mpr hstored)
  · rename_i hstored
    exact List.count_eq_zero.mpr fun hmem => hstored ((mem_snapshotCopy b now side).mp hmem)

theorem topN_eq_take (n : ℕ) : b.topN side n = ((b.snapshotCopy now).levels side).take n := by
  cases side <;> exact List.map_take

theorem best_eq_head? : b.best side = ((b.snapshotCopy now).levels side).head? := by
  cases side <;> exact List.head?_map.symm

theorem best_eq_none_iff : b.best side = none ↔ ∀ price : Decimal, (b.inner.side side)[price]? = none := by
  rw [best_eq_head? b 0, List.head?_eq_none_iff, List.eq_nil_iff_forall_not_mem]
  simp only [mem_snapshotCopy]
  constructor
  · intro h price
    exact Option.eq_none_iff_forall_ne_some.mpr fun size => h ⟨price,size⟩
  · intro h l hstored
    cases (h l.price).symm.trans hstored

theorem views_agree : b.ViewsAgree where
  once now side l := count_snapshotCopy b now side l
  sorted now side := snapshotCopy_sorted b now side
  topN now side n := topN_eq_take b now side n
  best now side := best_eq_head? b now side
  empty side := best_eq_none_iff b side

theorem takeTop_eq (n : ℕ) :
    takeTop ((b.snapshotCopy now).levels side) n = (b.topN side n).map Level.quote := by
  rw [topN_eq_take b now]
  rfl

end Views

/-- The views of every book of a run agree, and the view that is built from the copies of
three such books shows the top levels of each. -/
theorem book_views_agree :
    (∀ symbol ops, (BookRun.run symbol ops).book.ViewsAgree) ∧
    ∀ (symAb symBc symAc : String) (opsAb opsBc opsAc : List BookOp) (nowAb nowBc nowAc : Instant)
      (n : ℕ),
      let ab := (BookRun.run symAb opsAb).book
      let bc := (BookRun.run symBc opsBc).book
      let ac := (BookRun.run symAc opsAc).book
      (buildTriviewFromSnapshots symAb (ab.snapshotCopy nowAb) symBc (bc.snapshotCopy nowBc)
        symAc (ac.snapshotCopy nowAc) n).Shows ab bc ac n := by
  refine ⟨fun symbol ops => views_agree _,?_⟩
  intro symAb symBc symAc opsAb opsBc opsAc nowAb nowBc nowAc n ab bc ac
  exact ⟨takeTop_eq ab nowAb .bid n,takeTop_eq ab nowAb .ask n,takeTop_eq bc nowBc .bid n,
    takeTop_eq bc nowBc .ask n,takeTop_eq ac nowAc .bid n,takeTop_eq ac nowAc .ask n⟩

end ArbCore

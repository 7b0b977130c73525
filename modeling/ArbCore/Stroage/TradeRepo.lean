import ArbCore.Strategy.Engine

/-! # The table of trade fills

Rows are only ever inserted. A query orders them by the moments that the callers' clock
gave them, and what it answers is settled up to the order of rows of the same moment.
-/
namespace ArbCore

structure FillRow where
  id : String
  fill : TradeFill
  createdAt : ℕ
deriving DecidableEq

/-- The rows of `trade_fills`, oldest insertion first. -/
structure TradeRepo where
  rows : List FillRow

namespace TradeRepo
variable {repo : TradeRepo} {planId : String} {answer : List FillRow}

/-- `id` is what `Uuid::new_v4()` returns and `createdAt` what `Utc::now()` does. -/
def insertFill (repo : TradeRepo) (planId : String) (legIdx : ℕ) (symbol side : String) (qty price : Decimal)
    (status exchange : String) (id : String) (createdAt : ℕ) : TradeRepo :=
  let notional := qty * price
  ⟨repo.rows ++ [⟨id,⟨planId,legIdx,symbol,side,qty,price,notional,status,exchange⟩,createdAt⟩]⟩

/-- What `list_fills_for_plan` may answer: `WHERE plan_id = $1 ORDER BY created_at ASC`. -/
def ListFillsForPlan (repo : TradeRepo) (planId : String) (answer : List FillRow) : Prop :=
  answer.Perm (repo.rows.filter fun row => row.fill.planId = planId) ∧
    answer.Pairwise fun a b => a.createdAt ≤ b.createdAt

/-- The calls of `insert_fill` that the handling of reports makes for these rows, one after
the other. -/
def insertFills (repo : TradeRepo) (ids : ℕ → String) (clock : ℕ → ℕ) (fills : List TradeFill) : TradeRepo :=
  fills.zipIdx.foldl (fun repo x => repo.insertFill x.1.planId x.1.legIdx x.1.symbol x.1.side x.1.qty x.1.price
    x.1.status x.1.exchange (ids x.2) (clock x.2)) repo

def rowOf (ids : ℕ → String) (clock : ℕ → ℕ) (x : TradeFill × ℕ) : FillRow := ⟨ids x.2,x.1,clock x.2⟩

theorem rows_insertFills (repo : TradeRepo) (ids : ℕ → String) (clock : ℕ → ℕ) {fills : List TradeFill}
    (hnotional : ∀ fill ∈ fills, fill.notional = fill.qty * fill.price) :
    (repo.insertFills ids clock fills).rows = repo.rows ++ fills.zipIdx.map (rowOf ids clock) := by
  have hfold : ∀ (xs : List (TradeFill × ℕ)) (repo : TradeRepo), (∀ x ∈ xs, x.1.notional = x.1.qty * x.1.price) →
      (xs.foldl (fun repo x => repo.insertFill x.1.planId x.1.legIdx x.1.symbol x.1.side x.1.qty x.1.price
        x.1.status x.1.exchange (ids x.2) (clock x.2)) repo).rows = repo.rows ++ xs.map (rowOf ids clock) := by
    intro xs
    induction xs with
    | nil => simp
    | cons x xs ih =>
      intro repo hxs
      obtain ⟨hx,hxs⟩ := List.forall_mem_cons.mp hxs
      have hrow : repo.insertFill x.1.planId x.1.legIdx x.1.symbol x.1.side x.1.qty x.1.price x.1.status
          x.1.exchange (ids x.2) (clock x.2) = ⟨repo.rows ++ [rowOf ids clock x]⟩ := by
        simp only [insertFill, rowOf, ← hx]
      rw [List.foldl_cons, hrow, ih _ hxs, List.map_cons, List.append_assoc]
      rfl
  exact hfold _ repo fun x hx => hnotional x.1 (List.fst_mem_of_mem_zipIdx hx)

theorem fills_of_new_plan {repo : TradeRepo} {planId : String} (hold : ∀ row ∈ repo.rows, row.fill.planId ≠ planId)
    (ids : ℕ → String) (clock : ℕ → ℕ) {fills : List TradeFill}
    (hnotional : ∀ fill ∈ fills, fill.notional = fill.qty * fill.price) :
    ((repo.insertFills ids clock fills).rows.filter fun row => row.fill.planId = planId).map FillRow.fill =
      fills.filter fun fill => fill.planId = planId := by
  rw [rows_insertFills repo ids clock hnotional, List.filter_append,
    List.filter_eq_nil_iff.mpr fun row hrow => by simpa using hold row hrow, List.nil_append, List.filter_map,
    List.map_map]
  have hfst : (fills.zipIdx.filter fun x => x.1.planId = planId).map Prod.fst =
      (fills.zipIdx.map Prod.fst).filter fun fill => fill.planId = planId := by
    rw [List.filter_map]
    rfl
  rw [List.zipIdx_map_fst] at hfst
  exact hfst

theorem insertFills_increasing {repo : TradeRepo} (hrepo : repo.rows.Pairwise fun a b => a.createdAt < b.createdAt)
    (ids : ℕ → String) {clock : ℕ → ℕ} (hclock : StrictMono clock) (hold : ∀ row ∈ repo.rows, row.createdAt < clock 0)
    {fills : List TradeFill} (hnotional : ∀ fill ∈ fills, fill.notional = fill.qty * fill.price) :
    (repo.insertFills ids clock fills).rows.Pairwise fun a b => a.createdAt < b.createdAt := by
  rw [rows_insertFills repo ids clock hnotional, List.pairwise_append]
  refine ⟨hrepo,?_,fun a ha b hb => ?_⟩
  · refine List.pairwise_map.mpr (List.Pairwise.imp (fun h => hclock h) ?_)
    have hidx : (fills.zipIdx.map Prod.snd).Pairwise (· < ·) := by
      rw [List.zipIdx_map_snd]
      exact List.pairwise_lt_range'
    exact List.pairwise_map.mp hidx
  · obtain ⟨x,-,rfl⟩ := List.mem_map.mp hb
    exact (hold a ha).trans_le (hclock.monotone (Nat.zero_le _))

/-- The answer is settled when no two rows are of the same moment. -/
theorem ListFillsForPlan.eq_filter (h : repo.ListFillsForPlan planId answer)
    (hclock : repo.rows.Pairwise fun a b => a.createdAt < b.createdAt) :
    answer = repo.rows.filter fun row => row.fill.planId = planId := by
  obtain ⟨hperm,hsorted⟩ := h
  have hfilter := hclock.filter fun row => decide (row.fill.planId = planId)
  refine hperm.eq_of_pairwise (fun a b ha hb hab hba => ?_) hsorted (hfilter.imp le_of_lt)
  have hinj := (List.pairwise_map.mpr hfilter).nodup
  exact List.inj_on_of_nodup_map hinj (hperm.subset ha) hb (le_antisymm hab hba)

end TradeRepo

end ArbCore

import ArbCore.Library.ConversionChain
import Mathlib.Algebra.Group.Pi.Lemmas

/-! # Balances

An order takes from the balance of the asset it pays with and adds to that of the asset it
pays out. Orders that pass an amount on along a path of assets move it from the first
asset to the last one, and leave no trace on those between.
-/
namespace ArbCore.ConversionChain

structure Placed (A F : Type*) where
  source : A
  target : A
  hop : Hop F
  qty : F

section Change
variable {A F : Type*} [DecidableEq A] [Field F]

namespace Placed

def change (o : Placed A F) : A → F :=
  Pi.single o.target (o.hop.delivers o.qty) - Pi.single o.source (o.hop.spends o.qty)

theorem change_of_qty_zero {o : Placed A F} (h : o.qty = 0) : o.change = 0 := by
  have hspends : o.hop.spends 0 = 0 := by cases hb : o.hop.buy <;> simp [Hop.spends, hb]
  have hdelivers : o.hop.delivers 0 = 0 := by cases hb : o.hop.buy <;> simp [Hop.delivers, Hop.gross, hb]
  rw [change, h, hspends, hdelivers, Pi.single_zero, Pi.single_zero, sub_zero]

theorem change_sub (o : Placed A F) (q c : F) :
    change { o with qty := q - c } = change { o with qty := q } - change { o with qty := c } := by
  simp only [change, Hop.delivers_sub, Hop.spends_sub]
  rw [Pi.single_sub, Pi.single_sub]
  exact sub_sub_sub_comm _ _ _ _

end Placed

/-- Each order pays with the asset that the one before paid out. -/
def Path : A → List (Placed A F) → A → Prop
  | x, [], y => x = y
  | x, o :: os, y => o.source = x ∧ Path o.target os y

/-- Orders for what these fall short of the orders that the chain would place for an amount. -/
def cuts (a : F) (os : List (Placed A F)) : List (Placed A F) :=
  List.zipWith (fun o x => { o with qty := x.2 - o.qty }) os (orders (os.map Placed.hop) a)

/-- Together with what they fall short of, orders along a path move the amount from its start
to its end. -/
theorem changes_add_cuts {x y : A} {a : F} {os : List (Placed A F)} (hpath : Path x os y)
    (hprice : ∀ o ∈ os, o.hop.price ≠ 0) :
    (os.map Placed.change).sum + ((cuts a os).map Placed.change).sum =
      Pi.single y (walk (os.map Placed.hop) a) - Pi.single x a := by
  induction os generalizing x a with
  | nil =>
    cases hpath
    simp [cuts, orders, walk]
  | cons o os ih =>
    obtain ⟨rfl,hpath⟩ := hpath
    obtain ⟨ho,hos⟩ := List.forall_mem_cons.mp hprice
    have hwhole : o.change + Placed.change { o with qty := o.hop.qty a - o.qty } =
        Pi.single o.target (o.hop.delivers (o.hop.qty a)) - Pi.single o.source a := by
      rw [Placed.change_sub o (o.hop.qty a) o.qty, add_sub_cancel]
      simp only [Placed.change, Hop.spends_qty ho]
    have hcuts : cuts a (o :: os) =
        { o with qty := o.hop.qty a - o.qty } :: cuts (o.hop.delivers (o.hop.qty a)) os := rfl
    rw [hcuts, List.map_cons, List.map_cons, List.sum_cons, List.sum_cons, add_add_add_comm, hwhole, ih hpath hos,
      List.map_cons, walk, sub_add_sub_cancel']

/-- An asset that only the first order pays with and only the last one pays out sees the
difference between the two. -/
theorem changes_apply_of_ends {x : A} {first last : Placed A F} {os : List (Placed A F)} (hfirst : first.source = x)
    (hlast : last.target = x) (hnot : first.target ≠ x ∧ last.source ≠ x)
    (hos : ∀ o ∈ os, o.source ≠ x ∧ o.target ≠ x) :
    ((first :: (os ++ [last])).map Placed.change).sum x = last.hop.delivers last.qty - first.hop.spends first.qty := by
  have hbetween : ((os.map Placed.change).sum : A → F) x = 0 := by
    induction os with
    | nil => rfl
    | cons o os ih =>
      obtain ⟨ho,hos⟩ := List.forall_mem_cons.mp hos
      rw [List.map_cons, List.sum_cons, Pi.add_apply, ih hos, add_zero]
      simp [Placed.change, ho.1.symm, ho.2.symm]
  simp only [List.map_cons, List.map_append, List.map_nil, List.sum_cons, List.sum_append, List.sum_nil,
    Pi.add_apply, hbetween]
  subst hfirst
  simp [Placed.change, hlast, hnot.1.symm, hnot.2.symm]
  ring

end Change

end ArbCore.ConversionChain

import Mathlib.Algebra.Order.Field.Basic
import Mathlib.Algebra.BigOperators.Group.List.Basic
import Mathlib.Tactic.FieldSimp
import Mathlib.Tactic.Linarith
import Mathlib.Tactic.Ring

/-! # Chains of conversions

A hop converts an amount of one currency into another by one market order, which
buys the base with the amount or sells the amount as base, and pays a
proportional fee from what it delivers. A chain feeds each hop with what the
previous one delivered.
-/
namespace ArbCore.ConversionChain

structure Hop (F : Type*) where
  buy : Bool
  price : F
  fee : F

section Field
variable {F : Type*} [Field F]

namespace Hop

def qty (h : Hop F) (amount : F) : F := if h.buy then amount / h.price else amount

/-- What an order for a quantity of base takes in. -/
def spends (h : Hop F) (q : F) : F := if h.buy then q * h.price else q

/-- What an order for a quantity of base pays out, before and after the fee. -/
def gross (h : Hop F) (q : F) : F := if h.buy then q else q * h.price
def delivers (h : Hop F) (q : F) : F := h.gross q * (1 - h.fee)

def rate (h : Hop F) : F := if h.buy then 1 / h.price else h.price
def netRate (h : Hop F) : F := h.rate * (1 - h.fee)

theorem spends_qty {h : Hop F} (hp : h.price ≠ 0) (a : F) : h.spends (h.qty a) = a := by
  cases hb : h.buy <;> simp [spends, qty, hb, hp]

theorem spends_sub (h : Hop F) (q c : F) : h.spends (q - c) = h.spends q - h.spends c := by
  cases hb : h.buy <;> simp [spends, hb, sub_mul]

theorem delivers_sub (h : Hop F) (q c : F) : h.delivers (q - c) = h.delivers q - h.delivers c := by
  cases hb : h.buy <;> simp [delivers, gross, hb, sub_mul]

theorem delivers_qty (h : Hop F) (a : F) : h.delivers (h.qty a) = a * h.netRate := by
  cases hb : h.buy
  · simp [delivers, gross, qty, netRate, rate, hb, mul_assoc]
  · simp [delivers, gross, qty, netRate, rate, hb, div_eq_mul_inv, mul_assoc]

end Hop

def walk : List (Hop F) → F → F
  | [], a => a
  | h :: hs, a => walk hs (h.delivers (h.qty a))

/-- Orders, each a hop with a quantity, that pass an amount on: every one takes in exactly
what the one before delivered. -/
def PassesOn : F → List (Hop F × F) → F → Prop
  | a, [], out => a = out
  | a, (h,q) :: rest, out => h.spends q = a ∧ PassesOn (h.delivers q) rest out

def orders : List (Hop F) → F → List (Hop F × F)
  | [], _ => []
  | h :: hs, a => (h,h.qty a) :: orders hs (h.delivers (h.qty a))

theorem passesOn_orders {hs : List (Hop F)} (hprice : ∀ h ∈ hs, h.price ≠ 0) (a : F) :
    PassesOn a (orders hs a) (walk hs a) := by
  induction hs generalizing a with
  | nil => rfl
  | cons h hs ih =>
    exact ⟨Hop.spends_qty (hprice h List.mem_cons_self) a,
      ih (fun k hk => hprice k (List.mem_cons_of_mem _ hk)) _⟩

theorem walk_eq (hs : List (Hop F)) (a : F) : walk hs a = a * (hs.map Hop.netRate).prod := by
  induction hs generalizing a with
  | nil => simp [walk]
  | cons h hs ih => rw [walk, ih, Hop.delivers_qty, List.map_cons, List.prod_cons, mul_assoc]

end Field

section Ordered
variable {F : Type*} [Field F] [LinearOrder F] [IsStrictOrderedRing F]

namespace Hop

theorem rate_pos {h : Hop F} (hp : 0 < h.price) : 0 < h.rate := by
  cases hb : h.buy <;> simp [rate, hb, hp]

theorem qty_pos {h : Hop F} (hp : 0 < h.price) {a : F} (ha : 0 < a) : 0 < h.qty a := by
  cases hb : h.buy <;> simp [qty, hb, hp, ha]

theorem qty_nonneg {h : Hop F} (hp : 0 < h.price) {a : F} (ha : 0 ≤ a) : 0 ≤ h.qty a := by
  cases hb : h.buy
  · simpa [qty, hb] using ha
  · simpa [qty, hb] using div_nonneg ha hp.le

theorem qty_le_iff {h : Hop F} (hp : 0 < h.price) {a q : F} : h.qty a ≤ q ↔ a ≤ h.spends q := by
  cases hb : h.buy
  · simp [qty, spends, hb]
  · simpa [qty, spends, hb] using div_le_iff₀ hp

theorem delivers_nonneg {h : Hop F} (hp : 0 < h.price) (hf : h.fee ≤ 1) {q : F} (hq : 0 ≤ q) :
    0 ≤ h.delivers q := by
  have hfee : 0 ≤ 1 - h.fee := sub_nonneg.mpr hf
  apply mul_nonneg _ hfee
  cases hb : h.buy
  · simpa [gross, hb] using mul_nonneg hq hp.le
  · simpa [gross, hb] using hq

end Hop

end Ordered

end ArbCore.ConversionChain

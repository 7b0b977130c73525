import Mathlib.Algebra.Order.Field.Basic
import Mathlib.Algebra.Order.BigOperators.Group.List
import Mathlib.Algebra.BigOperators.Ring.List
import Mathlib.Order.Bounds.Basic
import Mathlib.Tactic.FieldSimp
import Mathlib.Tactic.Linarith
import Mathlib.Tactic.Ring

/-! # Filling an amount greedily from priced levels

A level has a price and a size. The greedy fill takes from each level in turn as
much as it holds or as is still wanted. Where the prices rise along the list no
other choice of amounts with the same total is worth less, and where they fall
none is worth more.
-/
namespace ArbCore.GreedyFill

def supply {F : Type*} [AddMonoid F] (ls : List (F × F)) : F := (ls.map Prod.snd).sum

/-- Where the prices differ, any choice of amounts is a function of the price. -/
theorem exists_map_eq {P A : Type*} [Zero A] {ls : List (P × A)} {xs : List A}
    (hprices : ls.Pairwise fun k l => k.1 ≠ l.1) (hlen : xs.length = ls.length) :
    ∃ x : P → A, (ls.map fun l => x l.1) = xs := by
  classical
  induction ls generalizing xs with
  | nil => exact ⟨fun _ => 0,(List.length_eq_zero_iff.mp hlen).symm⟩
  | cons l ls ih =>
    obtain ⟨y,ys,rfl⟩ := List.exists_cons_of_length_eq_add_one hlen
    obtain ⟨hhead,htail⟩ := List.pairwise_cons.mp hprices
    obtain ⟨x,hx⟩ := ih htail (Nat.succ_injective hlen)
    refine ⟨Function.update x l.1 y,?_⟩
    rw [List.map_cons, Function.update_self, ← hx]
    congr 1
    exact List.map_congr_left fun k hk => Function.update_of_ne (hhead k hk).symm _ _

section Worth
variable {F : Type*} [CommRing F]

def worth : List (F × F) → List F → F
  | l :: ls, x :: xs => l.1 * x + worth ls xs
  | _, _ => 0

/-- The same levels with every price negated, which turns falling prices into rising ones. -/
def negated (ls : List (F × F)) : List (F × F) := ls.map fun l => (-l.1,l.2)

@[simp] theorem supply_nil : supply ([] : List (F × F)) = 0 := rfl

@[simp] theorem supply_cons (l : F × F) (ls : List (F × F)) : supply (l :: ls) = l.2 + supply ls := by
  simp [supply]

@[simp] theorem supply_negated (ls : List (F × F)) : supply (negated ls) = supply ls := by
  simp only [supply, negated, List.map_map, Function.comp_def]

theorem mem_negated {ls : List (F × F)} {l : F × F} : l ∈ negated ls ↔ (-l.1,l.2) ∈ ls := by
  simp only [negated, List.mem_map]
  constructor
  · rintro ⟨k,hk,rfl⟩
    simpa using hk
  · exact fun hl => ⟨_,hl,by simp⟩

@[simp] theorem worth_negated (ls : List (F × F)) (xs : List F) :
    worth (negated ls) xs = -worth ls xs := by
  induction ls generalizing xs with
  | nil => cases xs <;> simp [negated, worth]
  | cons l ls ih =>
    cases xs with
    | nil => simp [negated, worth]
    | cons x xs =>
      have hrest := ih xs
      simp only [negated, List.map_cons, worth] at hrest ⊢
      rw [hrest]
      ring

theorem worth_map_mul (ls : List (F × F)) (xs : List F) (c : F) :
    worth ls (xs.map (· * c)) = worth ls xs * c := by
  induction ls generalizing xs with
  | nil => cases xs <;> simp [worth]
  | cons l ls ih =>
    cases xs with
    | nil => simp [worth]
    | cons x xs =>
      simp only [List.map_cons, worth, ih]
      ring

theorem worth_map (ls : List (F × F)) (x : F → F) :
    worth ls (ls.map fun l => x l.1) = (ls.map fun l => l.1 * x l.1).sum := by
  induction ls with
  | nil => rfl
  | cons l ls ih => simp only [List.map_cons, worth, ih, List.sum_cons]

end Worth

section Takes
variable {F : Type*} [CommRing F] [LinearOrder F]

def takes : List (F × F) → F → List F
  | [], _ => []
  | l :: ls, t => min l.2 t :: takes ls (t - min l.2 t)

/-- The levels that the fill reaches before nothing more is wanted. -/
def touched : List (F × F) → F → List (F × F)
  | [], _ => []
  | l :: ls, t => if t ≤ 0 then [] else l :: touched ls (t - min l.2 t)

def Within (ls : List (F × F)) (xs : List F) : Prop :=
  List.Forall₂ (fun l x => 0 ≤ x ∧ x ≤ l.2) ls xs

@[simp] theorem takes_negated (ls : List (F × F)) (t : F) : takes (negated ls) t = takes ls t := by
  induction ls generalizing t with
  | nil => rfl
  | cons l ls ih => exact congrArg (_ :: ·) (ih _)

theorem touched_negated (ls : List (F × F)) (t : F) :
    touched (negated ls) t = negated (touched ls t) := by
  induction ls generalizing t with
  | nil => rfl
  | cons l ls ih =>
    have hrest := ih (t - min l.2 t)
    simp only [negated, List.map_cons, touched] at hrest ⊢
    rw [hrest]
    split <;> rfl

theorem within_negated {ls : List (F × F)} {xs : List F} : Within (negated ls) xs ↔ Within ls xs := by
  simp only [Within, negated, List.forall₂_map_left_iff]

theorem pairwise_negated {ls : List (F × F)} [IsStrictOrderedRing F]
    (h : ls.Pairwise fun k l => l.1 ≤ k.1) : (negated ls).Pairwise fun k l => k.1 ≤ l.1 :=
  List.pairwise_map.mpr (h.imp fun hkl => neg_le_neg hkl)

theorem sizes_negated {ls : List (F × F)} (h : ∀ l ∈ ls, 0 ≤ l.2) : ∀ l ∈ negated ls, 0 ≤ l.2 :=
  fun l hl => h (-l.1,l.2) (mem_negated.mp hl)

theorem takes_zero {ls : List (F × F)} (hsizes : ∀ l ∈ ls, 0 ≤ l.2) :
    takes ls 0 = ls.map fun _ => 0 := by
  induction ls with
  | nil => rfl
  | cons l ls ih =>
    obtain ⟨hl,hls⟩ := List.forall_mem_cons.mp hsizes
    rw [takes, min_eq_right hl, sub_zero, ih hls]
    rfl

theorem sum_takes_zero {ls : List (F × F)} (hsizes : ∀ l ∈ ls, 0 ≤ l.2) : (takes ls 0).sum = 0 := by
  rw [takes_zero hsizes]
  simp

theorem worth_takes_zero {ls : List (F × F)} (hsizes : ∀ l ∈ ls, 0 ≤ l.2) :
    worth ls (takes ls 0) = 0 := by
  rw [takes_zero hsizes, worth_map ls fun _ => 0]
  simp

theorem touched_sublist (ls : List (F × F)) (t : F) : (touched ls t).Sublist ls := by
  induction ls generalizing t with
  | nil => exact .slnil
  | cons l ls ih =>
    rw [touched]
    split
    · exact List.nil_sublist _
    · exact (ih _).cons_cons l

end Takes

section Ordered
variable {F : Type*} [Field F] [LinearOrder F] [IsStrictOrderedRing F] {ls : List (F × F)} {xs : List F} {t u p c : F}

theorem Within.sum_nonneg (h : Within ls xs) : 0 ≤ xs.sum := by
  induction h with
  | nil => simp
  | cons hx _ ih =>
    rw [List.sum_cons]
    exact add_nonneg hx.1 ih

theorem Within.map_mul (h : Within ls xs) (hc : 0 ≤ c) (hc1 : c ≤ 1) : Within ls (xs.map (· * c)) := by
  rw [Within, List.forall₂_map_right_iff]
  refine List.Forall₂.imp (fun l x hx => ?_) h
  exact ⟨mul_nonneg hx.1 hc,(mul_le_of_le_one_right hx.1 hc1).trans hx.2⟩

theorem rest_nonneg (s t : F) : 0 ≤ t - min s t := sub_nonneg.mpr (min_le_right s t)

theorem takes_within (hsizes : ∀ l ∈ ls, 0 ≤ l.2) (ht : 0 ≤ t) : Within ls (takes ls t) := by
  induction ls generalizing t with
  | nil => exact .nil
  | cons l ls ih =>
    obtain ⟨hl,hls⟩ := List.forall_mem_cons.mp hsizes
    exact .cons ⟨le_min hl ht,min_le_left _ _⟩ (ih hls (rest_nonneg _ _))

theorem sum_takes (hsizes : ∀ l ∈ ls, 0 ≤ l.2) (ht : 0 ≤ t) : (takes ls t).sum = min (supply ls) t := by
  induction ls generalizing t with
  | nil => simpa [takes] using ht
  | cons l ls ih =>
    have hls := (List.forall_mem_cons.mp hsizes).2
    have hrest := ih hls (rest_nonneg l.2 t)
    have hsupply : 0 ≤ supply ls := List.sum_nonneg (List.forall_mem_map.mpr hls)
    rw [takes, List.sum_cons, hrest, supply_cons]
    rcases le_total l.2 t with hl | hl
    · rw [min_eq_left hl, ← min_add_add_left, add_sub_cancel]
    · rw [min_eq_right hl, sub_self, min_eq_right hsupply, min_eq_right (by linarith), add_zero]

theorem sum_takes_of_le (hsizes : ∀ l ∈ ls, 0 ≤ l.2) (ht : 0 ≤ t) (hle : t ≤ supply ls) :
    (takes ls t).sum = t := by
  rw [sum_takes hsizes ht, min_eq_right hle]

/-- Where the prices rise, the greedy fill of a part of an amount and a price below
all levels for what it leaves out are together worth no more than any fill. -/
theorem worth_takes_add_le (hsorted : ls.Pairwise fun k l => k.1 ≤ l.1) (hp : ∀ l ∈ ls, p ≤ l.1)
    (hxs : Within ls xs) (hu : 0 ≤ u) (hle : u ≤ xs.sum) :
    p * (xs.sum - u) + worth ls (takes ls u) ≤ worth ls xs := by
  induction hxs generalizing p u with
  | nil =>
    have hzero : u = 0 := le_antisymm hle hu
    simp [worth, hzero]
  | @cons l x ls xs hx hxs ih =>
    rw [List.sum_cons] at hle ⊢
    obtain ⟨hhead,htail⟩ := List.pairwise_cons.mp hsorted
    have hrest : u - min l.2 u ≤ xs.sum := by
      rcases le_total l.2 u with hl | hl
      · rw [min_eq_left hl]
        linarith [hx.2]
      · rw [min_eq_right hl, sub_self]
        exact Within.sum_nonneg hxs
    have hworth := ih htail hhead (rest_nonneg l.2 u) hrest
    have hleft : p * (x + xs.sum - u) ≤ l.1 * (x + xs.sum - u) :=
      mul_le_mul_of_nonneg_right (hp l List.mem_cons_self) (sub_nonneg.mpr hle)
    simp only [takes, worth]
    calc p * (x + xs.sum - u) + (l.1 * min l.2 u + worth ls (takes ls (u - min l.2 u)))
        ≤ l.1 * x + (l.1 * (xs.sum - (u - min l.2 u)) + worth ls (takes ls (u - min l.2 u))) := by
          linarith
      _ ≤ l.1 * x + worth ls xs := by linarith

theorem worth_takes_le (hsorted : ls.Pairwise fun k l => k.1 ≤ l.1) (hxs : Within ls xs) :
    worth ls (takes ls xs.sum) ≤ worth ls xs := by
  cases ls with
  | nil => simp [worth]
  | cons l ls =>
    have hfirst : ∀ k ∈ l :: ls, l.1 ≤ k.1 :=
      List.forall_mem_cons.mpr ⟨le_rfl,(List.pairwise_cons.mp hsorted).1⟩
    have h := worth_takes_add_le hsorted hfirst hxs (Within.sum_nonneg hxs) le_rfl
    rwa [sub_self, mul_zero, zero_add] at h

/-- The average price of a greedy fill rises with its amount where the prices rise. -/
theorem worth_div_le (hsizes : ∀ l ∈ ls, 0 ≤ l.2) (hsorted : ls.Pairwise fun k l => k.1 ≤ l.1)
    (ht : 0 < t) (htu : t ≤ u) (hu : u ≤ supply ls) :
    worth ls (takes ls t) / t ≤ worth ls (takes ls u) / u := by
  have hupos : 0 < u := ht.trans_le htu
  have hscaled : ((takes ls u).map (· * (t / u))).sum = t := by
    rw [List.sum_map_mul_right, List.map_id', sum_takes_of_le hsizes hupos.le hu]
    field_simp
  have hwithin : Within ls ((takes ls u).map (· * (t / u))) :=
    (takes_within hsizes hupos.le).map_mul (by positivity) ((div_le_one hupos).mpr htu)
  have hle := worth_takes_le hsorted hwithin
  rw [hscaled, worth_map_mul] at hle
  rw [div_le_div_iff₀ ht hupos]
  calc worth ls (takes ls t) * u ≤ worth ls (takes ls u) * (t / u) * u :=
        mul_le_mul_of_nonneg_right hle hupos.le
    _ = worth ls (takes ls u) * t := by field_simp

theorem mul_sum_le_worth (hsizes : ∀ l ∈ ls, 0 ≤ l.2) (ht : 0 ≤ t)
    (hc : ∀ l ∈ touched ls t, c ≤ l.1) : c * (takes ls t).sum ≤ worth ls (takes ls t) := by
  induction ls generalizing t with
  | nil => simp [takes, worth]
  | cons l ls ih =>
    rcases ht.eq_or_lt with hzero | hpos
    · rw [← hzero, sum_takes_zero hsizes, worth_takes_zero hsizes, mul_zero]
    · rw [touched, if_neg hpos.not_ge] at hc
      obtain ⟨hcl,hcls⟩ := List.forall_mem_cons.mp hc
      obtain ⟨hl,hls⟩ := List.forall_mem_cons.mp hsizes
      have hhead : c * min l.2 t ≤ l.1 * min l.2 t :=
        mul_le_mul_of_nonneg_right hcl (le_min hl hpos.le)
      rw [takes, List.sum_cons, worth, mul_add]
      exact add_le_add hhead (ih hls (rest_nonneg _ _) hcls)

theorem le_average (hsizes : ∀ l ∈ ls, 0 ≤ l.2) (ht : 0 < t) (hle : t ≤ supply ls)
    (hc : ∀ l ∈ touched ls t, c ≤ l.1) : c ≤ worth ls (takes ls t) / t := by
  have h := mul_sum_le_worth hsizes ht.le hc
  rw [sum_takes_of_le hsizes ht.le hle] at h
  exact (le_div_iff₀ ht).mpr h

/-! The same for prices that fall along the list. -/

theorem le_worth_takes (hsorted : ls.Pairwise fun k l => l.1 ≤ k.1) (hxs : Within ls xs) :
    worth ls xs ≤ worth ls (takes ls xs.sum) := by
  have h := worth_takes_le (pairwise_negated hsorted) (within_negated.mpr hxs)
  rwa [takes_negated, worth_negated, worth_negated, neg_le_neg_iff] at h

theorem le_worth_div (hsizes : ∀ l ∈ ls, 0 ≤ l.2) (hsorted : ls.Pairwise fun k l => l.1 ≤ k.1)
    (ht : 0 < t) (htu : t ≤ u) (hu : u ≤ supply ls) :
    worth ls (takes ls u) / u ≤ worth ls (takes ls t) / t := by
  have h := worth_div_le (sizes_negated hsizes) (pairwise_negated hsorted) ht htu
    (by rwa [supply_negated])
  rwa [takes_negated, takes_negated, worth_negated, worth_negated, neg_div, neg_div,
    neg_le_neg_iff] at h

theorem average_le (hsizes : ∀ l ∈ ls, 0 ≤ l.2) (ht : 0 < t) (hle : t ≤ supply ls)
    (hc : ∀ l ∈ touched ls t, l.1 ≤ c) : worth ls (takes ls t) / t ≤ c := by
  have hbound : ∀ l ∈ touched (negated ls) t, -c ≤ l.1 := by
    intro l hl
    rw [touched_negated, mem_negated] at hl
    exact neg_le.mpr (hc _ hl)
  have h := le_average (sizes_negated hsizes) ht (by rwa [supply_negated]) hbound
  rwa [takes_negated, worth_negated, neg_div, neg_le_neg_iff] at h

end Ordered

end ArbCore.GreedyFill

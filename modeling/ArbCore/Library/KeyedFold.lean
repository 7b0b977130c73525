import Mathlib.Data.List.AList
import Mathlib.Tactic.Common

/-! # Folds over keyed operations

Operations that each act on one key of a store can be folded key by key. A fold does
not depend on the order of its operations when any two of them commute, be it only on
states and operations that keep an invariant.
-/
namespace ArbCore.KeyedFold
variable {α β : Type*} {f : β → α → β} {Inv : β → Prop} {Ok : α → Prop}

/-- The order does not matter to operations that commute under an invariant they keep. -/
theorem foldl_perm (hinv : ∀ b a, Inv b → Ok a → Inv (f b a))
    (hcomm : ∀ b a a', Inv b → Ok a → Ok a' → f (f b a) a' = f (f b a') a) {l l' : List α}
    (h : l.Perm l') (hl : ∀ a ∈ l, Ok a) {b : β} (hb : Inv b) : l.foldl f b = l'.foldl f b := by
  induction h generalizing b with
  | nil => rfl
  | cons a _ ih =>
    obtain ⟨ha,hl⟩ := List.forall_mem_cons.mp hl
    exact ih hl (hinv b a hb ha)
  | swap a a' l =>
    obtain ⟨ha',hrest⟩ := List.forall_mem_cons.mp hl
    have ha := (List.forall_mem_cons.mp hrest).1
    simp only [List.foldl_cons, hcomm b a' a hb ha' ha]
  | trans hfirst _ ih ih' => exact (ih hl hb).trans (ih' (fun a ha => hl a (hfirst.mem_iff.mpr ha)) hb)

section Keyed
variable {κ V M : Type*} [DecidableEq κ] (key : α → κ) (get : M → κ → V) (step : M → α → M) (g : V → α → V)

/-- The value at a key after a fold comes from the operations on that key. -/
theorem get_foldl (hget : ∀ m a k, get (step m a) k = if key a = k then g (get m k) a else get m k)
    (l : List α) (m : M) (k : κ) :
    get (l.foldl step m) k = (l.filter fun a => key a = k).foldl g (get m k) := by
  induction l generalizing m with
  | nil => rfl
  | cons a l ih =>
    rw [List.foldl_cons, ih, hget]
    by_cases hk : key a = k
    · simp [hk]
    · simp [hk]

end Keyed

section AssociationList
variable {κ V : Type*} [DecidableEq κ]

theorem dlookup_kreplace (k : κ) (v : V) (l : List (Sigma fun _ : κ => V)) (k' : κ) :
    (l.kreplace k v).dlookup k' = if k = k' then (l.dlookup k).map fun _ => v else l.dlookup k' := by
  induction l with
  | nil => simp [List.kreplace]
  | cons e l ih =>
    obtain ⟨a,w⟩ := e
    have hskip : ∀ (k' : κ) (u : V) (l : List (Sigma fun _ : κ => V)), a ≠ k' →
        List.dlookup k' (⟨a,u⟩ :: l) = l.dlookup k' := fun k' u l h => List.dlookup_cons_ne l ⟨a,u⟩ h.symm
    by_cases hk : k = a
    · subst hk
      have hcons : List.kreplace k v (⟨k,w⟩ :: l) = ⟨k,v⟩ :: l := List.lookmap_cons_some _ _ (if_pos rfl)
      rw [hcons]
      split_ifs with hk'
      · subst hk'
        simp
      · rw [hskip k' v l hk', hskip k' w l hk']
    · have hcons : List.kreplace k v (⟨a,w⟩ :: l) = ⟨a,w⟩ :: List.kreplace k v l :=
        List.lookmap_cons_none _ _ (if_neg hk)
      rw [hcons]
      by_cases hk' : a = k'
      · subst hk'
        simp [hk]
      · rw [hskip k' w _ hk', ih, hskip k w l (Ne.symm hk), hskip k' w l hk']

theorem lookup_replace (m : AList fun _ : κ => V) (k : κ) (v : V) (k' : κ) :
    (m.replace k v).lookup k' = if k = k' then (m.lookup k).map fun _ => v else m.lookup k' :=
  dlookup_kreplace k v m.entries k'

end AssociationList

end ArbCore.KeyedFold

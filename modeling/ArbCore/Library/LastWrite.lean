import Mathlib.Data.List.Basic
import Mathlib.Order.Defs.LinearOrder
import Mathlib.Tactic.Common

/-! # Keyed writes: the last one wins

A write stores a value under a key or deletes the key. The abstract store is a
partial function, and a log of writes acts on it by its last write to each key.
An ordered tree map that inserts and erases entry by entry refines this.
-/
namespace ArbCore.LastWrite
section Abstract
variable {K V : Type*} [DecidableEq K]

/-- The last write of a log to a key: `some (some v)` stores, `some none` deletes. -/
def lastWrite (log : List (K × Option V)) (k : K) : Option (Option V) :=
  (log.reverse.find? (fun w => w.1 = k)).map Prod.snd

def overwrite (m : K → Option V) (log : List (K × Option V)) : K → Option V :=
  fun k => (lastWrite log k).getD (m k)

theorem lastWrite_append (log log' : List (K × Option V)) (k : K) :
    lastWrite (log ++ log') k = (lastWrite log' k).or (lastWrite log k) := by
  simp only [lastWrite, List.reverse_append, List.find?_append]
  cases log'.reverse.find? (fun w => w.1 = k) <;> rfl

theorem overwrite_append (m : K → Option V) (log log' : List (K × Option V)) :
    overwrite m (log ++ log') = overwrite (overwrite m log) log' := by
  funext k
  simp only [overwrite, lastWrite_append]
  cases lastWrite log' k <;> rfl

theorem overwrite_singleton (m : K → Option V) (w : K × Option V) :
    overwrite m [w] = Function.update m w.1 w.2 := by
  funext k
  by_cases h : k = w.1
  · subst h
    simp [overwrite, lastWrite]
  · simp [overwrite, lastWrite, h, Ne.symm h]

theorem overwrite_cons (m : K → Option V) (w : K × Option V) (log : List (K × Option V)) :
    overwrite m (w :: log) = overwrite (Function.update m w.1 w.2) log := by
  rw [← List.singleton_append, overwrite_append, overwrite_singleton]

theorem lastWrite_mem {log : List (K × Option V)} {k : K} {w : Option V}
    (h : lastWrite log k = some w) : (k,w) ∈ log := by
  obtain ⟨⟨k',w'⟩,hfind,rfl⟩ := Option.map_eq_some_iff.mp h
  have hk : k' = k := by simpa using List.find?_some hfind
  subst hk
  exact List.mem_reverse.mp (List.mem_of_find?_eq_some hfind)

theorem lastWrite_eq_none {log : List (K × Option V)} {k : K} (h : lastWrite log k = none) :
    ∀ w ∈ log, w.1 ≠ k := by
  have hfind := List.find?_eq_none.mp (Option.map_eq_none_iff.mp h)
  intro w hw hk
  exact hfind w (List.mem_reverse.mpr hw) (by simpa using hk)

/-- A log that writes only values of `f`, over a store that agrees with `f` on
every key it leaves alone, ends in `f`. -/
theorem overwrite_eq_of_agree {m f : K → Option V} {log : List (K × Option V)}
    (hlog : ∀ w ∈ log, w.2 = f w.1) (hrest : ∀ k, (∀ w ∈ log, w.1 ≠ k) → m k = f k) :
    overwrite m log = f := by
  funext k
  cases hk : lastWrite log k with
  | none => simpa [overwrite, hk] using hrest k (lastWrite_eq_none hk)
  | some w => simpa [overwrite, hk] using hlog (k,w) (lastWrite_mem hk)

/-- Replaying a whole log over the store that one of its prefixes left changes nothing. -/
theorem overwrite_replay (m : K → Option V) (log log' : List (K × Option V)) :
    overwrite (overwrite m log) (log ++ log') = overwrite m (log ++ log') := by
  funext k
  cases hk : lastWrite (log ++ log') k with
  | some w => simp [overwrite, hk]
  | none =>
    have hnone := Option.or_eq_none_iff.mp (lastWrite_append log log' k ▸ hk)
    simp [overwrite, hk, hnone.2]

theorem overwrite_forall {P : K → V → Prop} {m : K → Option V} {log : List (K × Option V)}
    (hm : ∀ k v, m k = some v → P k v) (hlog : ∀ k v, (k,some v) ∈ log → P k v) {k : K} {v : V}
    (h : overwrite m log k = some v) : P k v := by
  induction log generalizing m with
  | nil => exact hm k v h
  | cons w log ih =>
    rw [overwrite_cons] at h
    refine ih ?_ (fun k v hv => hlog k v (List.mem_cons_of_mem _ hv)) h
    intro k' v' hk
    by_cases hkw : k' = w.1
    · subst hkw
      rw [Function.update_self] at hk
      exact hlog w.1 v' (hk ▸ List.mem_cons_self)
    · rw [Function.update_of_ne hkw] at hk
      exact hm k' v' hk

/-- Over a store whose values have the property, the log decides by its last writes. -/
theorem overwrite_forall_iff {P : K → V → Prop} {m : K → Option V} {log : List (K × Option V)}
    (hm : ∀ k v, m k = some v → P k v) :
    (∀ k v, overwrite m log k = some v → P k v) ↔ ∀ k v, lastWrite log k = some (some v) → P k v := by
  constructor
  · intro h k v hk
    exact h k v (by rw [overwrite, hk, Option.getD_some])
  · intro h k v hk
    rw [overwrite] at hk
    cases hlast : lastWrite log k with
    | none => exact hm k v (by rwa [hlast] at hk)
    | some w =>
      rw [hlast, Option.getD_some] at hk
      exact h k v (hk ▸ hlast)

end Abstract

section Tree
variable {K V : Type*} [LinearOrder K]

def write (m : Std.ExtTreeMap K V) (w : K × Option V) : Std.ExtTreeMap K V :=
  match w.2 with
  | some v => m.insert w.1 v
  | none => m.erase w.1

theorem getElem?_write (m : Std.ExtTreeMap K V) (w : K × Option V) (k : K) :
    (write m w)[k]? = Function.update (fun k => m[k]?) w.1 w.2 k := by
  rcases w with ⟨key,value⟩
  by_cases h : k = key
  · subst h
    cases value <;> simp [write]
  · cases value <;> simp [write, Function.update_of_ne h, Std.ExtTreeMap.getElem?_insert,
      Std.ExtTreeMap.getElem?_erase, Ne.symm h]

theorem getElem?_foldl_write (m : Std.ExtTreeMap K V) (log : List (K × Option V)) (k : K) :
    (log.foldl write m)[k]? = overwrite (fun k => m[k]?) log k := by
  induction log generalizing m with
  | nil => rfl
  | cons w log ih =>
    rw [List.foldl_cons, ih, overwrite_cons]
    congr 1
    funext k'
    exact getElem?_write m w k'

end Tree

end ArbCore.LastWrite

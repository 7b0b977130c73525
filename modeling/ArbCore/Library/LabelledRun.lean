import Mathlib.Order.Basic

/-! # Runs of a labelled step function

A system is a step function from a state and an event to the next state, `none`
where the event is not enabled. The run of a list of events threads the state
through all of them. Invariants are proved for one step and carried to every
run by the rules below.
-/
namespace ArbCore.LabelledRun
variable {S E : Type*}

/-- The state after a list of events, or `none` when one of them is not enabled. -/
def run (step : S → E → Option S) : S → List E → Option S
  | s, [] => some s
  | s, e :: es => (step s e).bind fun t => run step t es

variable {step : S → E → Option S}

theorem run_cons (s : S) (e : E) (es : List E) :
    run step s (e :: es) = (step s e).bind fun t => run step t es := rfl

theorem run_cons_eq_some {s u : S} {e : E} {es : List E} :
    run step s (e :: es) = some u ↔ ∃ t, step s e = some t ∧ run step t es = some u := by
  rw [run_cons, Option.bind_eq_some_iff]

theorem run_append_eq_some {s u : S} {es fs : List E} :
    run step s (es ++ fs) = some u ↔ ∃ t, run step s es = some t ∧ run step t fs = some u := by
  induction es generalizing s with
  | nil => simp [run]
  | cons e es ih =>
    rw [List.cons_append, run_cons_eq_some]
    constructor
    · rintro ⟨v,hv,hrest⟩
      obtain ⟨t,ht,hu⟩ := ih.mp hrest
      exact ⟨t,run_cons_eq_some.mpr ⟨v,hv,ht⟩,hu⟩
    · rintro ⟨t,ht,hu⟩
      obtain ⟨v,hv,hrest⟩ := run_cons_eq_some.mp ht
      exact ⟨v,hv,ih.mpr ⟨t,hrest,hu⟩⟩

theorem run_append {s t u : S} {es fs : List E} (h : run step s es = some t) (hu : run step t fs = some u) :
    run step s (es ++ fs) = some u :=
  run_append_eq_some.mpr ⟨t,h,hu⟩

/-- Some run whose events all satisfy `P` leads from one state to the other. -/
def Reaches (step : S → E → Option S) (P : E → Prop) (s u : S) : Prop :=
  ∃ es, (∀ e ∈ es, P e) ∧ run step s es = some u

namespace Reaches
variable {P : E → Prop} {s t u : S}

theorem refl (s : S) : Reaches step P s s := ⟨[],by simp,rfl⟩

theorem head {e : E} (he : P e) (h : step s e = some t) (hu : Reaches step P t u) :
    Reaches step P s u := by
  obtain ⟨es,hes,hrun⟩ := hu
  exact ⟨e :: es,List.forall_mem_cons.mpr ⟨he,hes⟩,run_cons_eq_some.mpr ⟨t,h,hrun⟩⟩

theorem trans (h : Reaches step P s t) (hu : Reaches step P t u) : Reaches step P s u := by
  obtain ⟨es,hes,hrun⟩ := h
  induction es generalizing s with
  | nil =>
    cases hrun
    exact hu
  | cons e es ih =>
    obtain ⟨v,hv,hrest⟩ := run_cons_eq_some.mp hrun
    obtain ⟨he,hes⟩ := List.forall_mem_cons.mp hes
    exact head he hv (ih hes hrest)

theorem invariant {Inv : S → Prop} (hstep : ∀ e s t, P e → Inv s → step s e = some t → Inv t)
    (hs : Inv s) (h : Reaches step P s u) : Inv u := by
  obtain ⟨es,hes,hrun⟩ := h
  induction es generalizing s with
  | nil =>
    cases hrun
    exact hs
  | cons e es ih =>
    obtain ⟨v,hv,hrest⟩ := run_cons_eq_some.mp hrun
    obtain ⟨he,hes⟩ := List.forall_mem_cons.mp hes
    exact ih (hstep e s v he hs hv) hes hrest

end Reaches

theorem run_invariant {Inv : S → Prop} (hstep : ∀ s e t, Inv s → step s e = some t → Inv t)
    {es : List E} {s u : S} (hs : Inv s) (h : run step s es = some u) : Inv u := by
  have hreaches : Reaches step (fun _ => True) s u := ⟨es,fun _ _ => trivial,h⟩
  exact hreaches.invariant (fun e s t _ hinv ht => hstep s e t hinv ht) hs

/-- Every step of the run meets a condition on the state before it and its event. -/
def AllSteps (step : S → E → Option S) (P : S → E → Prop) : S → List E → Prop
  | _, [] => True
  | s, e :: es => P s e ∧ ∀ t, step s e = some t → AllSteps step P t es

theorem AllSteps.intro {P : S → E → Prop} {s t : S} {e : E} {es : List E} (he : P s e)
    (ht : step s e = some t) (hes : AllSteps step P t es) : AllSteps step P s (e :: es) := by
  refine ⟨he,fun t' ht' => ?_⟩
  cases ht.symm.trans ht'
  exact hes

theorem AllSteps.cons {P : S → E → Prop} {s t : S} {e : E} {es : List E}
    (h : AllSteps step P s (e :: es)) (ht : step s e = some t) : P s e ∧ AllSteps step P t es :=
  ⟨h.1,h.2 t ht⟩

theorem allSteps_of_forall {P : S → E → Prop} {es : List E} (h : ∀ e ∈ es, ∀ s, P s e) (s : S) :
    AllSteps step P s es := by
  induction es generalizing s with
  | nil => trivial
  | cons e es ih =>
    obtain ⟨he,hes⟩ := List.forall_mem_cons.mp h
    exact ⟨he s,fun t _ => ih hes t⟩

theorem allSteps_append {P : S → E → Prop} {s t : S} {es fs : List E} (ht : run step s es = some t) :
    AllSteps step P s (es ++ fs) ↔ AllSteps step P s es ∧ AllSteps step P t fs := by
  induction es generalizing s with
  | nil =>
    cases ht
    exact (and_iff_right trivial).symm
  | cons e es ih =>
    obtain ⟨v,hv,hrest⟩ := run_cons_eq_some.mp ht
    constructor
    · intro h
      obtain ⟨he,hall⟩ := h.cons hv
      obtain ⟨hes,hfs⟩ := (ih hrest).mp hall
      exact ⟨.intro he hv hes,hfs⟩
    · rintro ⟨h,hfs⟩
      obtain ⟨he,hes⟩ := h.cons hv
      exact .intro he hv ((ih hrest).mpr ⟨hes,hfs⟩)

instance decidableAllSteps {P : S → E → Prop} [∀ s e, Decidable (P s e)] :
    ∀ s es, Decidable (AllSteps step P s es)
  | _, [] => isTrue trivial
  | s, e :: es =>
    if he : P s e then
      match ht : step s e with
      | none => isTrue ⟨he,fun t ht' => absurd (ht.symm.trans ht') (Option.some_ne_none t).symm⟩
      | some t =>
        match @decidableAllSteps P _ t es with
        | isTrue hes => isTrue (.intro he ht hes)
        | isFalse hes => isFalse fun hall => hes (hall.2 t ht)
    else isFalse fun hall => he hall.1

/-- A property kept by every step that meets the condition holds after a run
all of whose steps meet it. -/
theorem run_invariant_of_allSteps {Inv : S → Prop} {P : S → E → Prop}
    (hstep : ∀ s e t, Inv s → P s e → step s e = some t → Inv t)
    {es : List E} {s u : S} (hs : Inv s) (hP : AllSteps step P s es)
    (h : run step s es = some u) : Inv u := by
  induction es generalizing s with
  | nil =>
    cases h
    exact hs
  | cons e es ih =>
    obtain ⟨t,ht,hu⟩ := run_cons_eq_some.mp h
    obtain ⟨hPe,hPes⟩ := hP.cons ht
    exact ih (hstep s e t hs hPe ht) hPes hu

section Measure
variable {P : E → Prop} [DecidablePred P] {μ : S → ℕ}

/-- A measure that no step raises bounds the number of the steps that lower it. -/
theorem run_countP_add_le (hlower : ∀ s e t, P e → step s e = some t → μ t < μ s)
    (hkeep : ∀ s e t, step s e = some t → μ t ≤ μ s) {es : List E} {s u : S} (h : run step s es = some u) :
    es.countP P + μ u ≤ μ s := by
  induction es generalizing s with
  | nil =>
    cases h
    simp
  | cons e es ih =>
    obtain ⟨t,ht,hu⟩ := run_cons_eq_some.mp h
    have hrest : es.countP P + μ u ≤ μ t := ih hu
    by_cases he : P e
    · have hlt : μ t < μ s := hlower s e t he ht
      rw [List.countP_cons_of_pos (by simpa using he)]
      omega
    · rw [List.countP_cons_of_neg (by simpa using he)]
      exact Nat.le_trans hrest (hkeep s e t ht)

end Measure

section Simulation
variable {T F : Type*} {step' : T → F → Option T}

/-- A system follows a run when it takes a step for every event that has a label and
none for the others, and the relation between the two states is kept. -/
theorem run_simulates {R : S → T → Prop} {P : E → Prop} (label : E → Option F)
    (hlabel : ∀ s e t f b, P e → R s b → step s e = some t → label e = some f →
      ∃ c, step' b f = some c ∧ R t c)
    (hsilent : ∀ s e t b, P e → R s b → step s e = some t → label e = none → R t b)
    {es : List E} {s u : S} {b : T} (hP : ∀ e ∈ es, P e) (hR : R s b) (h : run step s es = some u) :
    ∃ c, run step' b (es.filterMap label) = some c ∧ R u c := by
  induction es generalizing s b with
  | nil =>
    cases h
    exact ⟨b,rfl,hR⟩
  | cons e es ih =>
    obtain ⟨t,ht,hu⟩ := run_cons_eq_some.mp h
    obtain ⟨hPe,hPes⟩ := List.forall_mem_cons.mp hP
    cases hf : label e with
    | some f =>
      obtain ⟨c,hc,hRc⟩ := hlabel s e t f b hPe hR ht hf
      obtain ⟨d,hd,hRd⟩ := ih hPes hRc hu
      refine ⟨d,?_,hRd⟩
      rw [List.filterMap_cons_some hf]
      exact run_cons_eq_some.mpr ⟨c,hc,hd⟩
    | none =>
      rw [List.filterMap_cons_none hf]
      exact ih hPes (hsilent s e t b hPe hR ht hf) hu

end Simulation

theorem exists_step_of_not_allSteps {P : S → E → Prop} {es : List E} {s u : S}
    (hP : ¬ AllSteps step P s es) (h : run step s es = some u) :
    ∃ before e after t v, es = before ++ e :: after ∧ run step s before = some t ∧ ¬ P t e ∧
      step t e = some v ∧ run step v after = some u := by
  induction es generalizing s with
  | nil => exact absurd trivial hP
  | cons e es ih =>
    obtain ⟨t,ht,hu⟩ := run_cons_eq_some.mp h
    by_cases hPe : P s e
    · have hrest : ¬ AllSteps step P t es := fun hall => hP (.intro hPe ht hall)
      obtain ⟨before,e',after,w,v,rfl,hw,hn,hv,hafter⟩ := ih hrest hu
      exact ⟨e :: before,e',after,w,v,rfl,run_cons_eq_some.mpr ⟨t,ht,hw⟩,hn,hv,hafter⟩
    · exact ⟨[],e,es,s,t,rfl,rfl,hPe,ht,hu⟩

section Raise
variable {α : Type*} [Preorder α] {Inv : S → Prop} {P : S → E → Prop} {f : S → α}

/-- A quantity that the good steps keep and the bad ones raise tells at the end of a
run whether there was a bad one. -/
theorem allSteps_iff_eq (hinv : ∀ s e t, Inv s → step s e = some t → Inv t)
    (hkeep : ∀ s e t, Inv s → step s e = some t → P s e → f t = f s)
    (hraise : ∀ s e t, Inv s → step s e = some t → ¬ P s e → f s < f t)
    {es : List E} {s u : S} (hs : Inv s) (h : run step s es = some u) :
    AllSteps step P s es ↔ f u = f s := by
  have hle : ∀ {es s u}, Inv s → run step s es = some u → f s ≤ f u := by
    intro es s u hs h
    refine (@run_invariant _ _ step (fun t => Inv t ∧ f s ≤ f t) (fun t e v ht hv => ?_)
      _ _ _ ⟨hs,le_rfl⟩ h).2
    refine ⟨hinv t e v ht.1 hv,ht.2.trans ?_⟩
    by_cases he : P t e
    · exact (hkeep t e v ht.1 hv he).ge
    · exact (hraise t e v ht.1 hv he).le
  constructor
  · intro hall
    exact (@run_invariant_of_allSteps _ _ step (fun t => Inv t ∧ f t = f s) P
      (fun t e v ht he hv => ⟨hinv t e v ht.1 hv,(hkeep t e v ht.1 hv he).trans ht.2⟩)
      _ _ _ ⟨hs,rfl⟩ hall h).2
  · intro heq
    by_contra hall
    obtain ⟨before,e,after,t,v,-,hbefore,he,hv,hafter⟩ := exists_step_of_not_allSteps hall h
    have ht : Inv t := run_invariant (fun s e t => hinv s e t) hs hbefore
    have hlt : f s < f u := ((hle hs hbefore).trans_lt (hraise t e v ht hv he)).trans_le
      (hle (hinv t e v ht hv) hafter)
    exact hlt.ne heq.symm

end Raise

section States

/-- Every state of the run has the property, the first one and the last one included. -/
def AllStates (step : S → E → Option S) (Q : S → Prop) : S → List E → Prop
  | s, [] => Q s
  | s, e :: es => Q s ∧ ∀ t, step s e = some t → AllStates step Q t es

variable {Q Good Lost Final : S → Prop} {P : S → E → Prop} {Ok : E → Prop}

theorem AllStates.head {s : S} {es : List E} (h : AllStates step Q s es) : Q s := by
  cases es with
  | nil => exact h
  | cons e es => exact h.1

theorem allStates_cons {s t : S} {e : E} (ht : step s e = some t) (es : List E) :
    AllStates step Q s (e :: es) ↔ Q s ∧ AllStates step Q t es := by
  refine and_congr_right fun _ => ⟨fun h => h t ht,fun h t' ht' => ?_⟩
  cases ht.symm.trans ht'
  exact h

theorem allSteps_cons {s t : S} {e : E} (ht : step s e = some t) (es : List E) :
    AllSteps step P s (e :: es) ↔ P s e ∧ AllSteps step P t es :=
  ⟨fun h => h.cons ht,fun h => .intro h.1 ht h.2⟩

theorem not_allStates_of_lost
    (hlost : ∀ s e t, Ok e → Lost s → step s e = some t → Lost t ∨ ¬ Q t)
    (hfinal : ∀ s, Lost s → ¬ Final s) {es : List E} {s u : S} (hok : ∀ e ∈ es, Ok e) (hs : Lost s)
    (h : run step s es = some u) (hu : Final u) : ¬ AllStates step Q s es := by
  induction es generalizing s with
  | nil =>
    cases h
    exact absurd hu (hfinal _ hs)
  | cons e es ih =>
    obtain ⟨t,ht,htu⟩ := run_cons_eq_some.mp h
    obtain ⟨he,hes⟩ := List.forall_mem_cons.mp hok
    rw [allStates_cons ht]
    rcases hlost s e t he hs ht with hlost | hviolates
    · exact fun hall => ih hes hlost htu hall.2
    · exact fun hall => hviolates hall.2.head

/-- Good states have the property, good steps lead to good states, and any other step
loses the run: then the property holds in every state exactly if every step is good. -/
theorem allStates_iff_allSteps (hgood : ∀ s, Good s → Q s)
    (hkeep : ∀ s e t, Ok e → Good s → step s e = some t → P s e → Good t)
    (hlose : ∀ s e t, Ok e → Good s → step s e = some t → ¬ P s e → Lost t)
    (hlost : ∀ s e t, Ok e → Lost s → step s e = some t → Lost t ∨ ¬ Q t)
    (hfinal : ∀ s, Lost s → ¬ Final s) {es : List E} {s u : S} (hok : ∀ e ∈ es, Ok e) (hs : Good s)
    (h : run step s es = some u) (hu : Final u) :
    AllStates step Q s es ↔ AllSteps step P s es := by
  induction es generalizing s with
  | nil => exact iff_of_true (hgood s hs) trivial
  | cons e es ih =>
    obtain ⟨t,ht,htu⟩ := run_cons_eq_some.mp h
    obtain ⟨he,hes⟩ := List.forall_mem_cons.mp hok
    rw [allStates_cons ht, allSteps_cons ht, and_iff_right (hgood s hs)]
    by_cases hP : P s e
    · rw [and_iff_right hP]
      exact ih hes (hkeep s e t he hs ht hP) htu
    · have hnot := not_allStates_of_lost hlost hfinal hes (hlose s e t he hs ht hP) htu hu
      exact iff_of_false hnot fun hall => hP hall.1

end States

end ArbCore.LabelledRun

import ArbCore.Library.Attribution
import ArbCore.Strategy.ArbitrageFree

/-! # Which view a plan was found in

The detector handles one view after the other, and each of the two directions gives at most
one plan. So the plans sent stand for views in the order in which these were received,
at most two for each of them.
-/
namespace ArbCore

namespace Engine
variable {cfg : StrategyConfig} {storage : Bool} {views : List TriView} {e t : Engine} {ev : EngineEvent}

/-- After these views: what the detector holds comes from the last of them, and what was sent
is attributed to all of them. -/
structure Traced (cfg : StrategyConfig) (views : List TriView) (e : Engine) : Prop where
  current : Sourced cfg {view | views.getLast? = some view} { e with execTx := [] }
  sent : Attributed (Submittable cfg) 2 views e.execTx (e.detector.left 2)

theorem traced_new (cfg : StrategyConfig) : Traced cfg [] new :=
  ⟨⟨nofun,nofun,nofun,nofun⟩,Attributed.nil (Nat.zero_le 2)⟩

theorem DetectorMove.forget {i : DetectorInput} (h : DetectorMove cfg e i t) :
    ∃ sent, t.execTx = e.execTx ++ sent ∧ DetectorMove cfg { e with execTx := [] } i { t with execTx := sent } := by
  have hnone : e.execTx = e.execTx ++ [] := (List.append_nil _).symm
  cases h with
  | detected hphase hops => exact ⟨[],hnone,.detected hphase hops⟩
  | detectPanicked hphase hops => exact ⟨[],hnone,.detectPanicked hphase hops⟩
  | viewDone hphase => exact ⟨[],hnone,.viewDone hphase⟩
  | counted hphase => exact ⟨[],hnone,.counted hphase⟩
  | takenUp hphase => exact ⟨[],hnone,.takenUp hphase⟩
  | registered hphase => exact ⟨[],hnone,.registered hphase⟩
  | @sent plan _ hphase hok => exact ⟨[plan],rfl,.sent hphase hok⟩
  | unsent hphase hok => exact ⟨[],hnone,.unsent hphase hok⟩
  | submitted hphase => exact ⟨[],hnone,.submitted hphase⟩
  | unregistered hphase => exact ⟨[],hnone,.unregistered hphase⟩
  | rejected hphase => exact ⟨[],hnone,.rejected hphase⟩

theorem Traced.detectorMove (he : e.Traced cfg views) {i : DetectorInput} (h : DetectorMove cfg e i t) :
    t.Traced cfg views := by
  obtain ⟨sent,hsent,hforget⟩ := h.forget
  obtain ⟨hview,hrest,honHand,hnew⟩ := sourced_detectorMove he.current hforget
  refine ⟨⟨hview,hrest,honHand,nofun⟩,?_⟩
  obtain ⟨sent',hsent',hleft⟩ := @detectorMove_left cfg 2 e t i (fun _ _ _ hops => length_detect_le hops) h
  cases List.append_cancel_left (hsent.symm.trans hsent')
  rw [hsent]
  exact (he.sent.mono hleft).append hnew

theorem Traced.step (he : e.Traced cfg views) (hev : ∀ view, ev ≠ .view view)
    (h : e.step cfg storage ev = some t) : t.Traced cfg views := by
  rcases step_cases h with ⟨view,rfl,-⟩ | ⟨-,rfl⟩ | ⟨i,-,hmove⟩ | ⟨hdetector,hsent,-⟩
  · exact absurd rfl (hev view)
  · exact ⟨⟨nofun,nofun,nofun,nofun⟩,he.sent.mono (Nat.zero_le _)⟩
  · exact he.detectorMove hmove
  · refine ⟨⟨hdetector ▸ he.current.view,hdetector ▸ he.current.rest,hdetector ▸ he.current.onHand,nofun⟩,?_⟩
    rw [hdetector, hsent]
    exact he.sent

theorem Traced.view (he : e.Traced cfg views) {view : TriView} (h : e.step cfg storage (.view view) = some t) :
    t.Traced cfg (views ++ [view]) := by
  cases step_move h with
  | view _ =>
    refine ⟨⟨fun view' hphase => ?_,nofun,nofun,nofun⟩,he.sent.input view⟩
    cases hphase
    exact List.getLast?_concat

end Engine

end ArbCore

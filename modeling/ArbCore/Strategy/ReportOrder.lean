import ArbCore.Strategy.Reports

/-! # The order of reports

The reports on a plan add up its fills, and a plan is checked for completion when a
fill comes in. Fills only grow, so whichever filling report comes last sees all of
them, and a report that ends the plan anyway does so at any time.
-/
namespace ArbCore
open DecimalArithmetic

/-- The exact sum, cut off at the bounds of a decimal. -/
def clampedAdd (a b : Decimal) : Decimal := max (-decimalMax) (min decimalMax (a + b))

section Clamping
variable {a b c : Decimal}

theorem clampedAdd_le (a b : Decimal) : clampedAdd a b ≤ decimalMax :=
  max_le (by norm_num [decimalMax]) (min_le_left _ _)

theorem le_clampedAdd (a b : Decimal) : -decimalMax ≤ clampedAdd a b := le_max_left _ _

theorem clampedAdd_eq (ha : -decimalMax ≤ a) (hb : 0 ≤ b) : clampedAdd a b = min decimalMax (a + b) := by
  refine max_eq_right (le_min (by norm_num [decimalMax]) ?_)
  exact ha.trans (le_add_of_nonneg_right hb)

theorem clampedAdd_zero (ha : -decimalMax ≤ a) (ha' : a ≤ decimalMax) : clampedAdd a 0 = a := by
  rw [clampedAdd_eq ha le_rfl, add_zero, min_eq_right ha']

theorem self_le_clampedAdd (ha : -decimalMax ≤ a) (ha' : a ≤ decimalMax) (hb : 0 ≤ b) :
    a ≤ clampedAdd a b := by
  rw [clampedAdd_eq ha hb]
  exact le_min ha' (le_add_of_nonneg_right hb)

theorem clampedAdd_right_comm (ha : -decimalMax ≤ a) (hb : 0 ≤ b) (hc : 0 ≤ c) :
    clampedAdd (clampedAdd a b) c = clampedAdd (clampedAdd a c) b := by
  have hsum : ∀ {b c : Decimal}, 0 ≤ b → 0 ≤ c →
      clampedAdd (clampedAdd a b) c = min decimalMax (a + b + c) := by
    intro b c hb hc
    rw [clampedAdd_eq (le_clampedAdd a b) hc, clampedAdd_eq ha hb, ← min_add_add_right,
      ← min_assoc, min_eq_left (le_add_of_nonneg_right hc)]
  rw [hsum hb hc, hsum hc hb, add_right_comm]

end Clamping

section Modify
variable {α : Type*} {f g : α → α} {l : List α}

theorem modify_congr {i : ℕ} (h : ∀ a ∈ l[i]?, f a = g a) : l.modify i f = l.modify i g := by
  refine List.ext_getElem? fun j => ?_
  rw [List.getElem?_modify, List.getElem?_modify]
  cases hj : l[j]? with
  | none => rfl
  | some a =>
    split_ifs with hij
    · simp [h a (hij ▸ hj)]
    · rfl

theorem forall_mem_modify {P : α → Prop} (hf : ∀ a, P (f a)) (hl : ∀ a ∈ l, P a) (i : ℕ) :
    ∀ a ∈ l.modify i f, P a := by
  intro a ha
  obtain ⟨j,hj⟩ := List.mem_iff_getElem?.mp ha
  rw [List.getElem?_modify] at hj
  obtain ⟨b,hb,rfl⟩ := Option.map_eq_some_iff.mp hj
  split_ifs
  · exact hf b
  · exact hl b (List.mem_of_getElem? hb)

theorem forall₂_modify {R : α → α → Prop} (hrefl : ∀ a, R a a) (hf : ∀ a ∈ l, R a (f a)) (i : ℕ) :
    List.Forall₂ R l (l.modify i f) := by
  refine List.forall₂_iff_get.mpr ⟨(List.length_modify f l i).symm,fun j hj hj' => ?_⟩
  simp only [List.get_eq_getElem, List.getElem_modify]
  split_ifs
  · exact hf _ (List.getElem_mem hj)
  · exact hrefl _

end Modify

/-- No fill is negative, and a report of a new order or of an error fills nothing. -/
structure ExecutionReport.Regular (report : ExecutionReport) : Prop where
  nonneg : 0 ≤ report.filledQty
  idle : (report.status = .new ∨ ∃ message, report.status = .error message) → report.filledQty = 0

namespace InFlightPlan
variable {p q : InFlightPlan} {i j : ℕ} {x y : Decimal} {report report' : ExecutionReport}

def addExactly (p : InFlightPlan) (idx : ℕ) (qty : Decimal) : InFlightPlan :=
  { p with filled := p.filled.modify idx fun filled => clampedAdd filled qty }

def reactExactly (p : InFlightPlan) (report : ExecutionReport) : Option InFlightPlan :=
  let p := p.addExactly report.legIdx.toNat report.filledQty
  if (report.consequence p).2 then none else some p

/-- The monitor adds the fill of the report without rounding. -/
def AddsExactly (p : InFlightPlan) (report : ExecutionReport) : Prop :=
  ∀ filled ∈ p.filled[report.legIdx.toNat]?,
    saturatingAdd filled report.filledQty = clampedAdd filled report.filledQty

instance (p : InFlightPlan) (report : ExecutionReport) : Decidable (p.AddsExactly report) :=
  inferInstanceAs (Decidable (∀ _ ∈ _, _))

theorem AddsExactly.react_eq (h : p.AddsExactly report) : p.react report = p.reactExactly report := by
  have hadd : p.addFill report.legIdx.toNat report.filledQty =
      p.addExactly report.legIdx.toNat report.filledQty := by
    rw [addFill, addExactly, modify_congr h]
  rw [react, reactExactly, hadd]

def AllAddExactly : Option InFlightPlan → List ExecutionReport → Prop
  | some p, r :: reports => p.AddsExactly r ∧ AllAddExactly (p.react r) reports
  | _, _ => True

instance decidableAllAddExactly : ∀ o reports, Decidable (AllAddExactly o reports)
  | some p, r :: reports =>
    haveI := decidableAllAddExactly (p.react r) reports
    inferInstanceAs (Decidable (_ ∧ _))
  | some _, [] | none, _ :: _ | none, [] => isTrue trivial

theorem foldl_react_eq {o : Option InFlightPlan} {reports : List ExecutionReport}
    (h : AllAddExactly o reports) :
    reports.foldl (fun o r => o.bind (·.react r)) o = reports.foldl (fun o r => o.bind (·.reactExactly r)) o := by
  induction reports generalizing o with
  | nil => rfl
  | cons r reports ih =>
    cases o with
    | none =>
      have hnone : AllAddExactly none reports := by cases reports <;> trivial
      exact ih hnone
    | some p =>
      obtain ⟨hr,hreports⟩ := h
      rw [List.foldl_cons, List.foldl_cons, Option.bind_some, Option.bind_some, ← hr.react_eq]
      exact ih hreports

def Representable (p : InFlightPlan) : Prop :=
  ∀ filled ∈ p.filled, -decimalMax ≤ filled ∧ filled ≤ decimalMax

theorem Representable.addExactly (h : p.Representable) (i : ℕ) (x : Decimal) : (p.addExactly i x).Representable :=
  forall_mem_modify (fun filled => ⟨le_clampedAdd filled x,clampedAdd_le filled x⟩) h i

theorem addExactly_zero (h : p.Representable) (i : ℕ) : p.addExactly i 0 = p := by
  have hsame : ∀ filled ∈ p.filled[i]?, clampedAdd filled 0 = id filled := fun filled hf => by
    obtain ⟨hlo,hhi⟩ := h filled (List.mem_of_getElem? hf)
    exact clampedAdd_zero hlo hhi
  rw [addExactly, modify_congr hsame, List.modify_id]

theorem addExactly_right_comm (h : p.Representable) (hx : 0 ≤ x) (hy : 0 ≤ y) :
    (p.addExactly i x).addExactly j y = (p.addExactly j y).addExactly i x := by
  have hfilled : ((p.addExactly i x).addExactly j y).filled = ((p.addExactly j y).addExactly i x).filled := by
    by_cases hij : i = j
    · subst hij
      simp only [addExactly, List.modify_modify_eq]
      exact modify_congr fun filled hf => clampedAdd_right_comm (h filled (List.mem_of_getElem? hf)).1 hx hy
    · exact List.modify_modify_ne _ _ _ hij
  exact congrArg (fun filled => { p with filled := filled }) hfilled

theorem zip_all_mono {fills fills' : List Decimal} (h : List.Forall₂ (· ≤ ·) fills fills')
    (legs : List OrderLeg) (hall : (fills.zip legs).all (fun x => x.2.qty ≤ x.1) = true) :
    (fills'.zip legs).all (fun x => x.2.qty ≤ x.1) = true := by
  induction h generalizing legs with
  | nil => exact hall
  | cons hle _ ih =>
    cases legs with
    | nil => rfl
    | cons leg legs =>
      simp only [List.zip_cons_cons, List.all_cons, Bool.and_eq_true, decide_eq_true_eq] at hall ⊢
      exact ⟨hall.1.trans hle,ih legs hall.2⟩

theorem allLegged_addExactly (h : p.Representable) (hx : 0 ≤ x) (i : ℕ) (hall : p.allLegged = true) :
    (p.addExactly i x).allLegged = true := by
  refine zip_all_mono (forall₂_modify le_refl (fun filled hf => ?_) i) p.plan.legs hall
  exact self_le_clampedAdd (h filled hf).1 (h filled hf).2 hx

theorem Representable.reactExactly (h : p.Representable) (hq : p.reactExactly report = some q) : q.Representable := by
  unfold InFlightPlan.reactExactly at hq
  dsimp only at hq
  split_ifs at hq
  exact Option.some.inj hq ▸ h.addExactly _ _

/-- The plan after a filling report: it is over when all legs are filled. -/
def settle (p : InFlightPlan) : Option InFlightPlan := if p.allLegged then none else some p

/-- The three kinds of reports: one ends any plan, one leaves it as it is, one fills a
leg and checks for completion. -/
theorem reactExactly_cases (hreport : report.Regular) :
    (∀ p : InFlightPlan, p.reactExactly report = none) ∨
    (∀ p : InFlightPlan, p.Representable → p.reactExactly report = some p) ∨
    (∀ p : InFlightPlan, p.reactExactly report = (p.addExactly report.legIdx.toNat report.filledQty).settle) := by
  cases hstatus : report.status with
  | filled =>
    refine .inr (.inr fun p => ?_)
    simp only [InFlightPlan.reactExactly, ExecutionReport.consequence, hstatus, settle]
  | new =>
    refine .inr (.inl fun p hp => ?_)
    rw [InFlightPlan.reactExactly, hreport.idle (.inl hstatus), addExactly_zero hp]
    simp only [ExecutionReport.consequence, hstatus, Bool.false_eq_true, ↓reduceIte]
  | error message =>
    refine .inr (.inl fun p hp => ?_)
    rw [InFlightPlan.reactExactly, hreport.idle (.inr ⟨message,hstatus⟩), addExactly_zero hp]
    simp only [ExecutionReport.consequence, hstatus, Bool.false_eq_true, ↓reduceIte]
  | partiallyFilled =>
    refine .inl fun p => ?_
    simp only [InFlightPlan.reactExactly, ExecutionReport.consequence, hstatus, ↓reduceIte]
  | cancelled =>
    refine .inl fun p => ?_
    simp only [InFlightPlan.reactExactly, ExecutionReport.consequence, hstatus, ↓reduceIte]
  | rejected =>
    refine .inl fun p => ?_
    simp only [InFlightPlan.reactExactly, ExecutionReport.consequence, hstatus, ↓reduceIte]

theorem bind_of_ends (hends : ∀ p : InFlightPlan, p.reactExactly report = none) (o : Option InFlightPlan) :
    o.bind (·.reactExactly report) = none := by
  cases o with
  | none => rfl
  | some p => exact hends p

theorem bind_of_keeps (hkeeps : ∀ p : InFlightPlan, p.Representable → p.reactExactly report = some p)
    {o : Option InFlightPlan} (ho : ∀ p, o = some p → p.Representable) : o.bind (·.reactExactly report) = o := by
  cases o with
  | none => rfl
  | some p => exact hkeeps p (ho p rfl)

/-- Of two fills it is the later one that sees both, in either order. -/
theorem settle_bind_settle (h : p.Representable) (i : ℕ) (x : Decimal) (j : ℕ) (hy : 0 ≤ y) :
    (p.addExactly i x).settle.bind (fun q => (q.addExactly j y).settle) =
      ((p.addExactly i x).addExactly j y).settle := by
  by_cases hall : (p.addExactly i x).allLegged = true
  · have hlast := allLegged_addExactly (h.addExactly i x) hy j hall
    rw [settle, if_pos hall, settle, if_pos hlast]
    rfl
  · rw [settle, if_neg hall]
    rfl

theorem reactExactly_comm (h : p.Representable) (hreport : report.Regular) (hreport' : report'.Regular) :
    (p.reactExactly report).bind (·.reactExactly report') = (p.reactExactly report').bind (·.reactExactly report) := by
  rcases reactExactly_cases hreport with hends | hkeeps | hfills
  · rw [hends p, bind_of_ends hends]
    rfl
  · rw [hkeeps p h, bind_of_keeps hkeeps fun q hq => h.reactExactly hq]
    rfl
  · rcases reactExactly_cases hreport' with hends | hkeeps | hfills'
    · rw [hends p, bind_of_ends hends]
      rfl
    · rw [hkeeps p h, bind_of_keeps hkeeps fun q hq => h.reactExactly hq]
      rfl
    · simp only [hfills, hfills']
      rw [settle_bind_settle h _ _ _ hreport'.nonneg, settle_bind_settle h _ _ _ hreport.nonneg,
        addExactly_right_comm h hreport.nonneg hreport'.nonneg]

theorem foldl_reactExactly_perm {o : Option InFlightPlan} (ho : ∀ p, o = some p → p.Representable)
    {reports reports' : List ExecutionReport} (hperm : reports.Perm reports')
    (hregular : ∀ r ∈ reports, r.Regular) :
    reports.foldl (fun o r => o.bind (·.reactExactly r)) o =
      reports'.foldl (fun o r => o.bind (·.reactExactly r)) o := by
  refine @KeyedFold.foldl_perm _ _ _ (fun o : Option InFlightPlan => ∀ p, o = some p → p.Representable)
    ExecutionReport.Regular (fun o r ho _ q hq => ?_) (fun o r r' ho hr hr' => ?_) _ _ hperm hregular o ho
  · obtain ⟨p,hp,hq⟩ := Option.bind_eq_some_iff.mp hq
    exact (ho p hp).reactExactly hq
  · cases o with
    | none => rfl
    | some p => exact reactExactly_comm (ho p rfl) hr hr'

end InFlightPlan

theorem keys_perm_of_lookup_eq {V : Type} {m m' : HashMap V} (h : ∀ id, m.lookup id = m'.lookup id) :
    m.keys.Perm m'.keys := by
  refine (List.perm_ext_iff_of_nodup m.keys_nodup m'.keys_nodup).mpr fun id => ?_
  rw [← AList.mem_keys, ← AList.mem_keys, ← AList.lookup_isSome, ← AList.lookup_isSome, h id]

/-- No sum of a fill that handling the reports forms is rounded. -/
def Engine.AddsExactly (e : Engine) (reports : List ExecutionReport) : Prop :=
  ∀ id, InFlightPlan.AllAddExactly (e.inflight.lookup id) (reports.filter fun r => r.planId = id)

/-- Handling a list of reports in another order ends with the same plans in flight, the
same fills and the same count of executed plans, whatever storage does in each of them,
as long as no sum of fills is rounded in either order. -/
theorem report_order_irrelevant (storage : Bool) {e : Engine}
    (hfills : ∀ id p, e.inflight.lookup id = some p → p.Representable)
    {reports reports' : List (ExecutionReport × Bool)}
    (hperm : (reports.map Prod.fst).Perm (reports'.map Prod.fst)) (hregular : ∀ r ∈ reports, r.1.Regular)
    (hexact : e.AddsExactly (reports.map Prod.fst)) (hexact' : e.AddsExactly (reports'.map Prod.fst)) :
    (∀ id, (e.handleExecReports storage reports).inflight.lookup id =
      (e.handleExecReports storage reports').inflight.lookup id) ∧
    (e.handleExecReports storage reports).inflight.keys.Perm
      (e.handleExecReports storage reports').inflight.keys ∧
    (e.handleExecReports storage reports).metrics.plansExecuted =
      (e.handleExecReports storage reports').metrics.plansExecuted := by
  have hlookup : ∀ id, (e.handleExecReports storage reports).inflight.lookup id =
      (e.handleExecReports storage reports').inflight.lookup id := by
    intro id
    rw [Engine.lookup_handleExecReports, Engine.lookup_handleExecReports,
      InFlightPlan.foldl_react_eq (hexact id), InFlightPlan.foldl_react_eq (hexact' id)]
    refine InFlightPlan.foldl_reactExactly_perm (hfills id) (hperm.filter _) fun r hr => ?_
    obtain ⟨x,hx,rfl⟩ := List.mem_map.mp (List.mem_of_mem_filter hr)
    exact hregular x hx
  have hkeys := keys_perm_of_lookup_eq hlookup
  refine ⟨hlookup,hkeys,?_⟩
  have hplans := e.plans_handleExecReports storage reports
  have hplans' := e.plans_handleExecReports storage reports'
  rw [← hplans', hkeys.length_eq] at hplans
  exact Nat.add_left_cancel hplans

section Unit
variable {k : ℕ} {id : String} {p : InFlightPlan} {reports : List ExecutionReport}

/-- A sum of two multiples of a decimal unit that fits in that unit is not rounded. -/
theorem saturatingAdd_of_unit (hk : k ≤ 28) {n m : ℕ} (hsum : n + m ≤ 2 ^ 96 - 1) :
    saturatingAdd (n / 10 ^ k) (m / 10 ^ k) = (n + m : ℕ) / 10 ^ k ∧
      clampedAdd (n / 10 ^ k) (m / 10 ^ k) = (n + m : ℕ) / 10 ^ k := by
  have hadd : (n : Decimal) / 10 ^ k + m / 10 ^ k = (n + m : ℕ) / 10 ^ k := by
    push_cast
    ring
  have hfit : rustDecimal.fit (((n + m : ℕ) : Decimal) / 10 ^ k) = some (((n + m : ℕ) : Decimal) / 10 ^ k) := by
    have hself := @fitDecimal_eq_self _ 28 k (n + m : ℕ) hk hsum
    rwa [Int.cast_natCast] at hself
  have hnonneg : (0 : Decimal) ≤ m / 10 ^ k := by positivity
  constructor
  · rcases eq_or_ne ((n : Decimal) / 10 ^ k) 0 with hn | hn
    · rw [saturatingAdd, if_pos hn, ← hadd, hn, zero_add]
    · rcases eq_or_ne ((m : Decimal) / 10 ^ k) 0 with hm | hm
      · rw [saturatingAdd, if_neg hn, if_pos hm, ← hadd, hm, add_zero]
      · rw [saturatingAdd, if_neg hn, if_neg hm, hadd, hfit]
  · have hmax : ((n + m : ℕ) : Decimal) ≤ decimalMax :=
      (Nat.cast_le.mpr hsum).trans (by norm_num [decimalMax])
    have hlow : -decimalMax ≤ (n : Decimal) / 10 ^ k :=
      (neg_nonpos.mpr (by norm_num [decimalMax])).trans (by positivity)
    rw [clampedAdd_eq hlow hnonneg, hadd, min_eq_right]
    exact (div_le_self (Nat.cast_nonneg _) (one_le_pow₀ (by norm_num))).trans hmax

theorem allAddExactly_of_unit (hk : k ≤ 28) (hid : ∀ r ∈ reports, r.planId = id)
    (hreports : ∀ r ∈ reports, ∃ m : ℕ, r.filledQty = m / 10 ^ k)
    (hp : ∀ (i : ℕ) (filled : Decimal), p.filled[i]? = some filled → (∃ n : ℕ, filled = n / 10 ^ k) ∧
      (filled + fillsOf id reports i) * 10 ^ k ≤ 2 ^ 96 - 1) : InFlightPlan.AllAddExactly (some p) reports := by
  induction reports generalizing p with
  | nil => trivial
  | cons r reports ih =>
    obtain ⟨⟨m,hm⟩,hreports⟩ := List.forall_mem_cons.mp hreports
    obtain ⟨hrid,hid⟩ := List.forall_mem_cons.mp hid
    have hrest : ∀ i, 0 ≤ fillsOf id reports i := by
      intro i
      refine List.sum_nonneg fun x hx => ?_
      obtain ⟨r',hr',rfl⟩ := List.mem_map.mp hx
      obtain ⟨m',hm'⟩ := hreports r' hr'
      rw [ExecutionReport.fillOf, hm']
      split_ifs <;> positivity
    have hsum : ∀ i, fillsOf id (r :: reports) i = r.fillOf id i + fillsOf id reports i := fun i => List.sum_cons
    have hmeets : ∀ filled, p.filled[r.legIdx.toNat]? = some filled →
        saturatingAdd filled r.filledQty = clampedAdd filled r.filledQty ∧
          saturatingAdd filled r.filledQty = filled + r.filledQty ∧
          ∃ n : ℕ, filled + r.filledQty = n / 10 ^ k := by
      intro filled hfilled
      obtain ⟨⟨n,rfl⟩,hle⟩ := hp _ _ hfilled
      rw [hsum, ExecutionReport.fillOf, if_pos ⟨hrid,rfl⟩, hm] at hle
      have hbound : n + m ≤ 2 ^ 96 - 1 := by
        have hcast : ((n + m : ℕ) : Decimal) ≤ ((2 ^ 96 - 1 : ℕ) : Decimal) := by
          have := hrest r.legIdx.toNat
          refine le_trans ?_ (hle.trans (by norm_num))
          have hpow : (0 : Decimal) < 10 ^ k := by positivity
          calc ((n + m : ℕ) : Decimal) = ((n : Decimal) / 10 ^ k + m / 10 ^ k) * 10 ^ k := by
                push_cast
                field_simp
            _ ≤ _ := mul_le_mul_of_nonneg_right (by linarith) hpow.le
        exact Nat.cast_le.mp hcast
      obtain ⟨hsat,hclamp⟩ := saturatingAdd_of_unit hk hbound
      rw [hm]
      refine ⟨hsat.trans hclamp.symm,hsat.trans ?_,n + m,?_⟩ <;>
      · push_cast
        ring
    refine ⟨fun filled hfilled => (hmeets filled hfilled).1,?_⟩
    cases hreact : p.react r with
    | none => cases reports <;> trivial
    | some q =>
      refine ih hid hreports fun i filled hfilled => ?_
      have hq := (InFlightPlan.react_eq_some.mp hreact).2
      subst hq
      simp only [InFlightPlan.addFill, List.getElem?_modify] at hfilled
      obtain ⟨old,hold,rfl⟩ := Option.map_eq_some_iff.mp hfilled
      obtain ⟨hunit,hle⟩ := hp i old hold
      rw [hsum, ExecutionReport.fillOf] at hle
      split_ifs with hi
      · subst hi
        rw [if_pos ⟨hrid,rfl⟩, ← add_assoc] at hle
        obtain ⟨-,hsat,hsumUnit⟩ := hmeets old hold
        rw [hsat]
        exact ⟨hsumUnit,hle⟩
      · rw [if_neg fun h => hi h.2, zero_add] at hle
        exact ⟨hunit,hle⟩

theorem fillsOf_filter (id : String) (reports : List ExecutionReport) (i : ℕ) :
    fillsOf id (reports.filter fun r => r.planId = id) i = fillsOf id reports i := by
  induction reports with
  | nil => rfl
  | cons r reports ih =>
    have hsum : ∀ l, fillsOf id (r :: l) i = r.fillOf id i + fillsOf id l i := fun l => List.sum_cons
    by_cases hr : r.planId = id
    · rw [List.filter_cons_of_pos (by simpa using hr), hsum, hsum, ih]
    · rw [List.filter_cons_of_neg (by simpa using hr), hsum, ih, ExecutionReport.fillOf,
        if_neg fun h => hr h.1, zero_add]

theorem Engine.addsExactly_of_unit (hk : k ≤ 28) {e : Engine}
    (hreports : ∀ r ∈ reports, ∃ m : ℕ, r.filledQty = m / 10 ^ k)
    (hfills : ∀ id p, e.inflight.lookup id = some p → ∀ (i : ℕ) (filled : Decimal), p.filled[i]? = some filled →
      (∃ n : ℕ, filled = n / 10 ^ k) ∧ (filled + fillsOf id reports i) * 10 ^ k ≤ 2 ^ 96 - 1) :
    e.AddsExactly reports := by
  intro id
  cases hlookup : e.inflight.lookup id with
  | none => cases reports.filter fun r => r.planId = id <;> trivial
  | some p =>
    refine @allAddExactly_of_unit k id p _ hk (fun r hr => of_decide_eq_true (List.mem_filter.mp hr).2)
      (fun r hr => hreports r (List.mem_of_mem_filter hr)) fun i filled hfilled => ?_
    rw [fillsOf_filter]
    exact hfills id p hlookup i filled hfilled

end Unit

def inFlightOf (qty : Decimal) : Engine :=
  { Engine.new with
    inflight := AList.insert "p1" ⟨⟨"p1","USDT",1,1,[⟨"BTCUSDT",true,1,qty,true,0⟩]⟩,[0],0,1500⟩ ∅ }

theorem inFlightOf_lookup {qty : Decimal} {id : String} {p : InFlightPlan}
    (h : (inFlightOf qty).inflight.lookup id = some p) :
    id = "p1" ∧ p = ⟨⟨"p1","USDT",1,1,[⟨"BTCUSDT",true,1,qty,true,0⟩]⟩,[0],0,1500⟩ := by
  have hid : id = "p1" := by
    by_contra hne
    rw [inFlightOf, AList.lookup_insert_ne hne] at h
    cases h
  subst hid
  rw [inFlightOf, AList.lookup_insert] at h
  exact ⟨rfl,(Option.some.inj h).symm⟩

theorem inFlightOf_representable {qty : Decimal} {id : String} {p : InFlightPlan}
    (h : (inFlightOf qty).inflight.lookup id = some p) : p.Representable := by
  obtain ⟨-,rfl⟩ := inFlightOf_lookup h
  intro filled hfilled
  cases List.mem_singleton.mp hfilled
  norm_num [decimalMax]

def filledBy (qty : Decimal) : ExecutionReport := ⟨"p1",0,qty,0,.filled⟩

theorem report_order_irrelevant_halves :
    ((inFlightOf 2).handleExecReports true [(filledBy (1/2),true),(filledBy (3/2),true)]).metrics.plansExecuted =
      ((inFlightOf 2).handleExecReports true [(filledBy (3/2),false),(filledBy (1/2),true)]).metrics.plansExecuted := by
  have hfills : ∀ reports : List ExecutionReport, fillsOf "p1" reports 0 = 2 → (∀ r ∈ reports, ∃ m : ℕ,
      r.filledQty = m / 10 ^ 1) → (inFlightOf 2).AddsExactly reports := by
    intro reports htotal hreports
    refine Engine.addsExactly_of_unit (by norm_num) hreports fun id p hp i filled hfilled => ?_
    obtain ⟨rfl,rfl⟩ := inFlightOf_lookup hp
    obtain ⟨hi,rfl⟩ := List.getElem?_eq_some_iff.mp hfilled
    cases Nat.lt_one_iff.mp hi
    exact ⟨⟨0,by norm_num⟩,by simp [htotal]; norm_num⟩
  have hhalf : ∃ m : ℕ, (filledBy (1/2)).filledQty = m / 10 ^ 1 := ⟨5,by norm_num [filledBy]⟩
  have hrest : ∃ m : ℕ, (filledBy (3/2)).filledQty = m / 10 ^ 1 := ⟨15,by norm_num [filledBy]⟩
  refine (@report_order_irrelevant true (inFlightOf 2) (fun _ _ => inFlightOf_representable)
    [(filledBy (1/2),true),(filledBy (3/2),true)] [(filledBy (3/2),false),(filledBy (1/2),true)]
    (List.Perm.swap _ _ []) ?_ (hfills _ (by decide +kernel) ?_) (hfills _ (by decide +kernel) ?_)).2.2
  · simp only [List.forall_mem_cons, List.not_mem_nil, false_implies, implies_true, and_true]
    exact ⟨⟨by norm_num [filledBy],by simp [filledBy]⟩,⟨by norm_num [filledBy],by simp [filledBy]⟩⟩
  · exact List.forall_mem_cons.mpr ⟨hhalf,List.forall_mem_singleton.mpr hrest⟩
  · exact List.forall_mem_cons.mpr ⟨hrest,List.forall_mem_singleton.mpr hhalf⟩

/-- Nine and a unit of the last place of nine, which fills of a third of it make up only
when they come before the nine. -/
def ninePlus : Decimal := 9 + 1 / 10 ^ 27

def crumb : Decimal := 3 / 10 ^ 28

theorem report_order_matters :
    (∀ id p, (inFlightOf ninePlus).inflight.lookup id = some p → p.Representable) ∧
    [filledBy 9,filledBy crumb,filledBy crumb].Perm [filledBy crumb,filledBy crumb,filledBy 9] ∧
    (∀ r ∈ [filledBy 9,filledBy crumb,filledBy crumb], r.Regular) ∧
    ((inFlightOf ninePlus).handleExecReports false
      [(filledBy 9,true),(filledBy crumb,true),(filledBy crumb,true)]).metrics.plansExecuted = 0 ∧
    ((inFlightOf ninePlus).handleExecReports false
      [(filledBy crumb,true),(filledBy crumb,true),(filledBy 9,true)]).metrics.plansExecuted = 1 := by
  refine ⟨fun _ _ => inFlightOf_representable,by decide +kernel,?_,by decide +kernel,by decide +kernel⟩
  simp only [List.forall_mem_cons, List.not_mem_nil, false_implies, implies_true, and_true]
  exact ⟨⟨by norm_num [filledBy],by simp [filledBy]⟩,⟨by norm_num [filledBy, crumb],by simp [filledBy]⟩,
    ⟨by norm_num [filledBy, crumb],by simp [filledBy]⟩⟩

end ArbCore

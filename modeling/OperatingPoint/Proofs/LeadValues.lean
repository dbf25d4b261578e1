import OperatingPoint.Proofs.CutSteps

/-!
# The values of the lead

In exact arithmetic a stepper keeps to its way.  Wherever it stands, the next attempt is made
between the last accepted point and the end, and no further from that point than the longest step.
So the accepted values go from the start towards the end and never back.

What comes of the attempts does not matter for this: `Place.Leads` says only where each of them is
made.
-/

set_option autoImplicit false

namespace OperatingPoint

open Step

variable {δ α K : Type} [Scalar α] {n : Nat} [Field K] [LinearOrder K] [IsStrictOrderedRing K]

namespace Stepper

variable {s : Stepper α}

/-! ## Along the way -/

/-- A stepper with finite numbers, whose steps have no negative length. -/
structure Proceeds (s : Stepper α) : Prop where
  start : Scalar.isFinite s.lead.start = true
  stop : Scalar.isFinite s.stop = true
  initialStep : Scalar.isFinite s.lead.initialStep = true
  maxStep : Scalar.isFinite s.lead.maxStep = true
  growthFactor : Scalar.isFinite s.lead.growthFactor = true
  maxStep_nonneg : 0 ≤ s.lead.maxStep
  growthFactor_nonneg : 0 ≤ s.lead.growthFactor

/-- The second value is the first one, or lies beyond it in the direction of the way. -/
def Onwards (s : Stepper α) (u v : α) : Prop := if s.lead.start ≤ s.stop then u ≤ v else v ≤ u

/-- A way on the line of numbers: with its direction `d`, its end `q`, the longest step `m` and the
growth `g` of a step. -/
structure Way (line : Scalar.Line K α) (s : Stepper α) (d q m g : K) : Prop where
  direction : s.direction = line.of d
  unit : d = 1 ∨ d = -1
  stop : s.stop = line.of q
  maxStep : s.lead.maxStep = line.of m
  growthFactor : s.lead.growthFactor = line.of g
  maxStep_nonneg : 0 ≤ m
  growthFactor_nonneg : 0 ≤ g
  onwards_iff : ∀ {u v : K}, s.Onwards (line.of u) (line.of v) ↔ d * u ≤ d * v

/-- A place that is not beyond the end, with a step that is not too long. -/
def Place.Lies (line : Scalar.Line K α) (d q m : K) (p : Place α) : Prop :=
  ∃ v h, p = ⟨line.of v, line.of h⟩ ∧ d * v ≤ d * q ∧ 0 ≤ h ∧ h ≤ m

theorem Proceeds.way (line : Scalar.Line K α) (proceeds : s.Proceeds) :
    ∃ d q m g, s.Way line d q m g ∧ s.firstPlace.Lies line d q m := by
  obtain ⟨v, start⟩ := line.finite_iff.1 proceeds.start
  obtain ⟨q, stop⟩ := line.finite_iff.1 proceeds.stop
  obtain ⟨i, initial⟩ := line.finite_iff.1 proceeds.initialStep
  obtain ⟨m, max⟩ := line.finite_iff.1 proceeds.maxStep
  obtain ⟨g, growth⟩ := line.finite_iff.1 proceeds.growthFactor
  have m_nonneg : 0 ≤ m := by
    have nonneg := proceeds.maxStep_nonneg
    rwa [max, ← line.zero, line.le_iff] at nonneg
  have g_nonneg : 0 ≤ g := by
    have nonneg := proceeds.growthFactor_nonneg
    rwa [growth, ← line.zero, line.le_iff] at nonneg
  have first : s.firstPlace = ⟨line.of v, line.of (min |i| m)⟩ := by
    rw [firstPlace, start, initial, max, ← line.abs, line.min]
  have nonneg : 0 ≤ min |i| m := le_min (abs_nonneg i) m_nonneg
  by_cases up : v ≤ q
  · have ascends : s.lead.start ≤ s.stop := by rwa [start, stop, line.le_iff]
    refine ⟨1, q, m, g, ⟨?_, .inl rfl, stop, max, growth, m_nonneg, g_nonneg, ?_⟩, v, _, first,
      ?_, nonneg, min_le_right ..⟩
    · rw [direction, if_pos ascends, line.one]
    · intro u w
      rw [Onwards, if_pos ascends, line.le_iff, one_mul, one_mul]
    · rwa [one_mul, one_mul]
  · have descends : ¬ s.lead.start ≤ s.stop := by rwa [start, stop, line.le_iff]
    refine ⟨-1, q, m, g, ⟨?_, .inr rfl, stop, max, growth, m_nonneg, g_nonneg, ?_⟩, v, _, first,
      ?_, nonneg, min_le_right ..⟩
    · rw [direction, if_neg descends, line.neg, line.one]
    · intro u w
      rw [Onwards, if_neg descends, line.le_iff, neg_one_mul, neg_one_mul, neg_le_neg_iff]
    · rw [neg_one_mul, neg_one_mul, neg_le_neg_iff]
      exact (not_le.1 up).le

section

variable {line : Scalar.Line K α} {d q m g : K} {p : Place α}

/-- The next value from a place, whatever the step from there on. -/
theorem Way.next (way : s.Way line d q m g) (lies : p.Lies line d q m) :
    let ahead := s.next p.value p.step
    s.Onwards p.value ahead ∧ s.Onwards ahead s.stop ∧
      Scalar.abs (ahead - p.value) ≤ s.lead.maxStep ∧
      ∀ {h : K}, 0 ≤ h → h ≤ m → (⟨ahead, line.of h⟩ : Place α).Lies line d q m := by
  obtain ⟨v, h, rfl, before, nonneg, short⟩ := lies
  have far : 0 ≤ d * (q - v) := by rwa [mul_sub, sub_nonneg]
  set gone := min h (d * (q - v)) with gone_eq
  have gone_nonneg : 0 ≤ gone := le_min nonneg far
  have gone_le : gone ≤ d * (q - v) := min_le_right ..
  have ahead : d * (v + d * gone) = d * v + gone := by
    rcases way.unit with rfl | rfl <;> ring
  have length : |v + d * gone - v| = gone := by
    rw [add_sub_cancel_left]
    rcases way.unit with rfl | rfl
    · rw [one_mul, abs_of_nonneg gone_nonneg]
    · rw [neg_one_mul, abs_neg, abs_of_nonneg gone_nonneg]
  have inside : d * (v + d * gone) ≤ d * q := by
    rw [ahead]
    rw [mul_sub] at gone_le
    linarith
  dsimp only
  rw [next_of way.direction way.unit way.stop, ← gone_eq, way.stop, way.maxStep, ← line.sub,
    ← line.abs, length, line.le_iff, way.onwards_iff, way.onwards_iff]
  refine ⟨?_, inside, (min_le_left ..).trans short, ?_⟩
  · rw [ahead]
    linarith
  · intro h' nonneg' short'
    exact ⟨_, h', rfl, inside, nonneg', short'⟩

/-- A place is followed by such a place, whatever comes of the attempt between them. -/
theorem Way.after [DirectSolver α] [Device δ α] (way : s.Way line d q m g)
    (lies : p.Lies line d q m) {a : s.Attempt δ n} (here : a.value = s.next p.value p.step) :
    (p.after a).Lies line d q m := by
  have ⟨_, _, _, ahead⟩ := way.next lies
  obtain ⟨v, h, rfl, before, nonneg, short⟩ := lies
  rw [Place.after]
  split
  · rw [here, way.growthFactor, way.maxStep, ← line.mul, line.min]
    exact ahead (le_min (mul_nonneg nonneg way.growthFactor_nonneg) way.maxStep_nonneg)
      (min_le_right ..)
  · exact ⟨v, h * (1 / 2), by rw [← line.half, ← line.mul], before, by linarith, by linarith⟩

end

/-! ## Where attempts are made -/

variable [DirectSolver α] [Device δ α] {e e' : Engine δ α n}

/-- The lead values of those attempts that have found a solution. -/
def acceptedValues (trace : List (s.Attempt δ n)) : List α :=
  (trace.filter Attempt.converged).map Attempt.value

theorem acceptedValues_cons_of_pos {a : s.Attempt δ n} (converged : a.converged = true)
    (rest : List (s.Attempt δ n)) :
    acceptedValues (a :: rest) = a.value :: acceptedValues rest := by
  rw [acceptedValues, List.filter_cons_of_pos converged]
  rfl

theorem acceptedValues_cons_of_neg {a : s.Attempt δ n} (unsolved : ¬ a.converged = true)
    (rest : List (s.Attempt δ n)) : acceptedValues (a :: rest) = acceptedValues rest := by
  rw [acceptedValues, List.filter_cons_of_neg unsolved]
  rfl

/-- Attempts that are made one after the other from a place. -/
def Place.Leads : Place α → List (s.Attempt δ n) → Prop
  | _, [] => True
  | p, a :: rest => a.value = s.next p.value p.step ∧ (p.after a).Leads rest

theorem Course.leads {attempts : Nat} {step : α} {x : Vector α n} {report : ContinuationReport α}
    {trace : List (s.Attempt δ n)}
    {result : EStateM.Result Stop (Engine δ α n) (ContinuationReport α)}
    (h : s.Course attempts step x report e trace result) :
    (⟨report.value, step⟩ : Place α).Leads trace := by
  induction h with
  | usedUp => trivial
  | stopped here => exact ⟨by rw [here], trivial⟩
  | arrived here => exact ⟨by rw [here], trivial⟩
  | givenUp here => exact ⟨by rw [here], trivial⟩
  | onward here solved converged short course ih =>
    refine ⟨by rw [here], ?_⟩
    rw [Place.after, if_pos ((Attempt.converged_of_ok solved).trans converged)]
    exact ih
  | back here solved unconverged large course ih =>
    refine ⟨by rw [here], ?_⟩
    rw [Place.after, if_neg]
    · exact ih
    · rw [Attempt.converged_of_ok solved, unconverged]
      exact Bool.false_ne_true

section

variable {line : Scalar.Line K α} {d q m g : K} {p : Place α} {trace : List (s.Attempt δ n)}

/-- Places stay on the way from one attempt to the next. -/
theorem Place.Leads.lies (way : s.Way line d q m g) (lies : p.Lies line d q m)
    {before after : List (s.Attempt δ n)} (leads : p.Leads (before ++ after)) :
    (before.foldl Place.after p).Lies line d q m ∧ (before.foldl Place.after p).Leads after := by
  induction before generalizing p with
  | nil => exact ⟨lies, leads⟩
  | cons a before ih => exact ih (way.after lies leads.1) leads.2

theorem Place.Leads.finite (way : s.Way line d q m g) (lies : p.Lies line d q m)
    (leads : p.Leads trace) {a : s.Attempt δ n} (made : a ∈ trace) : ∃ v, a.value = line.of v := by
  obtain ⟨before, after, rfl⟩ := List.append_of_mem made
  have ⟨there, here, _⟩ := leads.lies way lies
  obtain ⟨-, -, -, ahead⟩ := way.next there
  obtain ⟨v, h, place, -⟩ := ahead le_rfl way.maxStep_nonneg
  exact ⟨v, here.trans (congrArg Place.value place)⟩

/-- The accepted values go along the way.  Those of the attempts after the first are beyond its
value, so that it is enough to look at two of them in a row. -/
theorem Place.Leads.ascends (way : s.Way line d q m g) (lies : p.Lies line d q m)
    (leads : p.Leads trace) : ∃ values : List K,
      p.value :: acceptedValues trace ++ [s.stop] = values.map line.of ∧
        values.Pairwise fun u v ↦ d * u ≤ d * v := by
  induction trace generalizing p with
  | nil =>
    obtain ⟨v, h, rfl, before, -, -⟩ := lies
    exact ⟨[v, q], by rw [way.stop]; rfl, List.pairwise_pair.2 before⟩
  | cons a rest ih =>
    have ih := ih (way.after lies leads.1) leads.2
    by_cases found : a.converged = true
    · rw [Place.after, if_pos found] at ih
      obtain ⟨values, same, ordered⟩ := ih
      obtain ⟨onwards, -⟩ := way.next lies
      obtain ⟨v, h, rfl, -⟩ := lies
      rw [← leads.1] at onwards
      cases values with
      | nil => cases same
      | cons w values =>
        have head : a.value = line.of w := (List.cons.inj same).1
        rw [head, way.onwards_iff] at onwards
        refine ⟨v :: w :: values, ?_, List.pairwise_cons.2 ⟨?_, ordered⟩⟩
        · rw [acceptedValues_cons_of_pos found, List.map_cons, ← same]
          rfl
        · intro u later
          rcases List.mem_cons.1 later with rfl | later
          · exact onwards
          · exact onwards.trans ((List.pairwise_cons.1 ordered).1 u later)
    · rw [Place.after, if_neg found] at ih
      rw [acceptedValues_cons_of_neg found]
      exact ih

end

/-! ## How runs end -/

/-- Attempts come to the end of the way if one of them finds a solution there.  Each of them is
reported as an accepted or as a rejected one. -/
theorem Course.counts {attempts : Nat} {step : α} {x : Vector α n} {report : ContinuationReport α}
    {trace : List (s.Attempt δ n)}
    {result : EStateM.Result Stop (Engine δ α n) (ContinuationReport α)}
    (h : s.Course attempts step x report e trace result) :
    trace.length ≤ attempts ∧
      ((∃ report' e', result = .ok report' e' ∧ report'.finished = true) ↔
        ∃ a ∈ trace, a.arrives = true) ∧
      ∀ report' e', result = .ok report' e' → report.accepted ≤ report'.accepted ∧
        report'.accepted + report'.rejected =
          report.accepted + report.rejected + trace.length := by
  induction h with
  | usedUp =>
    refine ⟨le_rfl, ?_, ?_⟩
    · simp [ContinuationReport.finished]
    · rintro _ _ ⟨⟩
      exact ⟨le_rfl, rfl⟩
  | stopped here solved =>
    refine ⟨Nat.succ_le_succ (Nat.zero_le _), ?_, ?_⟩
    · simp [Attempt.arrives, Attempt.converged_of_error solved]
    · rintro _ _ ⟨⟩
  | arrived here solved converged there =>
    refine ⟨Nat.succ_le_succ (Nat.zero_le _), ?_, ?_⟩
    · simp [ContinuationReport.finished, Attempt.arrives, Attempt.converged_of_ok solved,
        converged, there]
    · rintro _ _ ⟨⟩
      exact ⟨Nat.le_succ _, by simp [accepted]; omega⟩
  | onward here solved converged short course ih =>
    obtain ⟨length, finished, counted⟩ := ih
    refine ⟨Nat.succ_le_succ length, finished.trans ?_, ?_⟩
    · simp [Attempt.arrives, short]
    · intro report' e' ended
      obtain ⟨more, sum⟩ := counted report' e' ended
      simp only [accepted, List.length_cons] at more sum ⊢
      omega
  | givenUp here solved unconverged small =>
    refine ⟨Nat.succ_le_succ (Nat.zero_le _), ?_, ?_⟩
    · simp [ContinuationReport.finished, Attempt.arrives, Attempt.converged_of_ok solved,
        unconverged]
    · rintro _ _ ⟨⟩
      exact ⟨le_rfl, rfl⟩
  | back here solved unconverged large course ih =>
    obtain ⟨length, finished, counted⟩ := ih
    refine ⟨Nat.succ_le_succ length, finished.trans ?_, ?_⟩
    · simp [Attempt.arrives, Attempt.converged_of_ok solved, unconverged]
    · intro report' e' ended
      obtain ⟨more, sum⟩ := counted report' e' ended
      simp only [rejected, List.length_cons] at more sum ⊢
      omega

theorem Opening.leads {first : s.Attempt δ n} {rest : List (s.Attempt δ n)}
    {result : EStateM.Result Stop (Engine δ α n) (ContinuationReport α)}
    (h : s.Opening e (first :: rest) result) :
    first.value = s.lead.start ∧ s.firstPlace.Leads rest ∧
      (rest ≠ [] → first.converged = true) := by
  cases h with
  | stopped here => exact ⟨by rw [here], trivial, absurd rfl⟩
  | unsolved here => exact ⟨by rw [here], trivial, absurd rfl⟩
  | arrived here => exact ⟨by rw [here], trivial, absurd rfl⟩
  | onward here solved converged short course =>
    exact ⟨by rw [here], course.leads, fun _ ↦ (Attempt.converged_of_ok solved).trans converged⟩

theorem Opening.counts {first : s.Attempt δ n} {rest : List (s.Attempt δ n)}
    {result : EStateM.Result Stop (Engine δ α n) (ContinuationReport α)}
    (h : s.Opening e (first :: rest) result) :
    rest.length ≤ s.lead.maxSteps ∧
      ((∃ report e', result = .ok report e' ∧ report.finished = true) ↔
        ∃ a ∈ first :: rest, a.arrives = true) ∧
      ∀ report e', result = .ok report e' → first.converged = true →
        1 ≤ report.accepted ∧ report.accepted - 1 + report.rejected = rest.length := by
  cases h with
  | stopped here solved =>
    refine ⟨Nat.zero_le _, ?_, ?_⟩
    · simp [Attempt.arrives, Attempt.converged_of_error solved]
    · rintro _ _ ⟨⟩
  | unsolved here solved unconverged =>
    refine ⟨Nat.zero_le _, ?_, ?_⟩
    · simp [ContinuationReport.finished, Attempt.arrives, Attempt.converged_of_ok solved,
        unconverged]
    · intro _ _ _ converged
      rw [Attempt.converged_of_ok solved, unconverged] at converged
      cases converged
  | arrived here solved converged there =>
    refine ⟨Nat.zero_le _, ?_, ?_⟩
    · simp [ContinuationReport.finished, Attempt.arrives, Attempt.converged_of_ok solved,
        converged, there]
    · rintro _ _ ⟨⟩ -
      exact ⟨le_rfl, rfl⟩
  | onward here solved converged short course =>
    obtain ⟨length, finished, counted⟩ := course.counts
    refine ⟨length, finished.trans ?_, ?_⟩
    · simp [Attempt.arrives, short]
    · intro report e' ended _
      obtain ⟨more, sum⟩ := counted report e' ended
      dsimp only at more sum
      omega

/-- In exact arithmetic every value after the start is attempted between the last accepted value
and the end, at most the longest step from the former.  The accepted values go from the start
towards the end.  A run makes one attempt at the start and as many as it may after it, and it is
finished if one of them has found a solution at the end. -/
theorem lead_values_of_run (line : Scalar.Line K α) (proceeds : s.Proceeds) (e : Engine δ α n) :
    ∃ first rest, s.attempts e = first :: rest ∧ first.value = s.lead.start ∧
      (∀ before a after, rest = before ++ a :: after →
        ∃ v, lastAccepted (first :: before) = some v ∧
          s.Onwards v a.value ∧ s.Onwards a.value s.stop ∧
            Scalar.abs (a.value - v) ≤ s.lead.maxStep) ∧
      (s.lead.start :: acceptedValues (first :: rest) ++ [s.stop]).Pairwise s.Onwards ∧
      rest.length ≤ s.lead.maxSteps ∧
      ((∃ report e', s.run e = .ok report e' ∧ report.finished = true) ↔
        ∃ a ∈ first :: rest, a.converged = true ∧ a.value = s.stop) ∧
      ∀ report e', s.run e = .ok report e' → first.converged = true →
        1 ≤ report.accepted ∧ report.accepted - 1 + report.rejected = rest.length := by
  have opening := s.opening e
  generalize s.attempts e = trace at opening
  cases trace with
  | nil => cases opening
  | cons first rest =>
    obtain ⟨d, q, m, g, way, lies⟩ := proceeds.way line
    have ⟨start, leads, found⟩ := opening.leads
    have ⟨length, finished, counted⟩ := opening.counts
    have at_start : s.Onwards s.lead.start s.lead.start := by
      obtain ⟨v, start⟩ := line.finite_iff.1 proceeds.start
      rw [start, way.onwards_iff]
    refine ⟨first, rest, rfl, start, ?_, ?_, length, finished.trans ?_, counted⟩
    · rintro before a after rfl
      have ⟨there, here, _⟩ := leads.lies way lies
      have ⟨beyond, short, near, _⟩ := way.next there
      refine ⟨_, lastAccepted_cons (found (by simp)) s.firstPlace.step before, ?_⟩
      rw [start, here]
      exact ⟨beyond, short, near⟩
    · obtain ⟨values, same, ordered⟩ := leads.ascends way lies
      have ascends : (s.lead.start :: acceptedValues rest ++ [s.stop]).Pairwise s.Onwards := by
        rw [show s.lead.start :: acceptedValues rest ++ [s.stop] = _ from same, List.pairwise_map]
        exact ordered.imp way.onwards_iff.2
      by_cases converged : first.converged = true
      · rw [acceptedValues_cons_of_pos converged, start]
        refine List.pairwise_cons.2 ⟨fun v later ↦ ?_, ascends⟩
        rcases List.mem_cons.1 later with rfl | later
        · exact at_start
        · exact (List.pairwise_cons.1 ascends).1 v later
      · rw [acceptedValues_cons_of_neg converged]
        exact ascends
    · refine exists_congr fun a ↦ and_congr_right fun made ↦ ?_
      have finite : ∃ v, a.value = line.of v := by
        rcases List.mem_cons.1 made with rfl | made
        · rw [start]
          exact line.finite_iff.1 proceeds.start
        · exact leads.finite way lies made
      obtain ⟨v, finite⟩ := finite
      rw [Attempt.arrives, Bool.and_eq_true, finite, way.stop, line.beq_iff]
      exact and_congr_right fun _ ↦ ⟨congrArg line.of, fun same ↦ line.beq_iff.1 (by
        rw [same, line.beq_iff])⟩

/-- A conductance that gets halfway to zero, and tries three times to get there. -/
theorem lead_values_of_run_fadingConductance :
    acceptedValues (fadingConductance.attempts carryingCurrent) = [1, 0.5] ∧
      (fadingConductance.lead.start :: [1, 0.5] ++ [fadingConductance.stop]).Pairwise
        fadingConductance.Onwards ∧
      (fadingConductance.attempts carryingCurrent).length = fadingConductance.lead.maxSteps + 1 ∧
      ∀ report e', fadingConductance.run carryingCurrent = .ok report e' →
        report.finished = false := by
  have values : acceptedValues (fadingConductance.attempts carryingCurrent) = [1, 0.5] := by
    decide +kernel
  have length : (fadingConductance.attempts carryingCurrent).length = 5 := by decide +kernel
  have proceeds : fadingConductance.Proceeds :=
    ⟨rfl, rfl, rfl, rfl, rfl, by decide +kernel, by decide +kernel⟩
  obtain ⟨first, rest, row, -, -, ordered, -, finished, -⟩ :=
    lead_values_of_run ExtendedRat.line proceeds carryingCurrent
  rw [← row, values] at ordered
  refine ⟨values, ordered, length, fun report e' ran ↦ Bool.eq_false_iff.2 fun there ↦ ?_⟩
  obtain ⟨a, made, converged, at_stop⟩ := finished.1 ⟨report, e', ran, there⟩
  rw [← row] at made
  have listed : a.value ∈ acceptedValues (fadingConductance.attempts carryingCurrent) :=
    List.mem_map_of_mem (List.mem_filter.2 ⟨made, converged⟩)
  rw [values, at_stop, List.mem_cons, List.mem_singleton] at listed
  exact absurd listed (by decide +kernel)

end Stepper

end OperatingPoint

import Mathlib.Data.List.DropRight
import Mathlib.Data.Nat.Cast.Defs
import OperatingPoint.Proofs.ExactScalars
import OperatingPoint.Proofs.SteadyAcceptance

/-!
# Stagnation

A transient that gets no further is given up after a number of iterations in a row whose rates are
about one.  The battery counts them in the last of its tests.  A check that comes to this test
*counts*: it is not put off for the devices, and it is not the initial one.

After checks that have left the matter open the count is the length of the run of stagnating checks
at the end of those that count, `open_tallies`.  A check that is put off is passed over, whatever
its rate is: it neither belongs to the run nor breaks it.  So stagnation is seen in a row of checks
only as far as none of them was put off.
-/

set_option autoImplicit false

namespace OperatingPoint

variable {α : Type}

/-- What the last of the tests may come to. -/
def Status.isAboutStagnation : Status → Bool
  | .unconverged | .failed .stalled | .converged .nearConvergence => true
  | _ => false

namespace Battery

/-- A check of a battery: what it is shown, and the answer to a request for the Newton direction. -/
structure Check (α : Type) where
  snap : Snapshot α
  direction : Except Stop (Option (Array α))

def Check.use (k : Check α) : Use α := .check k.snap k.direction

variable [Scalar α]

section
variable (c : Communicator α) (o : NewtonOptions α)

/-- The devices are given more time. -/
def PutOff (snap : Snapshot α) : Prop :=
  o.checkDeviceConvergence = true ∧ snap.devicesConverged = false ∧ snap.iteration < o.maxSteps

instance (snap : Snapshot α) : Decidable (PutOff o snap) := inferInstanceAs (Decidable (_ ∧ _))

/-- The check of an iterate comes to the test for stagnation, unless it is decided before. -/
def Counts (snap : Snapshot α) : Prop := ¬PutOff o snap ∧ 0 < snap.iteration

instance (snap : Snapshot α) : Decidable (Counts o snap) := inferInstanceAs (Decidable (_ ∧ _))

/-- A rate that is about one. -/
def Stagnates (rate : α) : Prop := Scalar.abs (rate - 1) < o.stagnationTolerance

instance (rate : α) : Decidable (Stagnates o rate) := inferInstanceAs (Decidable (_ < _))

/-- Iterates with their rates, where a residual was recorded before the first of them or was not. -/
def ratedFrom : Option (Array α) → List (Snapshot α) → List (Snapshot α × α)
  | _, [] => []
  | before, snap :: rest =>
    (snap, c.rate snap.residual before) :: ratedFrom (some snap.residual) rest

/-- Iterates with their rates since a reset. -/
def rated (snaps : List (Snapshot α)) : List (Snapshot α × α) := ratedFrom c none snaps

/-- The iterates, with their rates, whose checks count. -/
def counted (snaps : List (Snapshot α)) : List (Snapshot α × α) :=
  (rated c snaps).filter fun p ↦ Counts o p.1

/-- The run of stagnating iterates at the end of those whose checks count. -/
def stagnation (snaps : List (Snapshot α)) : List (Snapshot α × α) :=
  (counted c o snaps).rtakeWhile fun p ↦ Stagnates o p.2

/-! ## Lists of rated iterates -/

theorem ratedFrom_append (before : Option (Array α)) (snaps : List (Snapshot α))
    (snap : Snapshot α) :
    ratedFrom c before (snaps ++ [snap]) = ratedFrom c before snaps ++
      [(snap, c.rate snap.residual ((snaps.map Snapshot.residual).getLast?.or before))] := by
  induction snaps generalizing before with
  | nil => rfl
  | cons head rest ih =>
    rw [List.cons_append, ratedFrom, ih, ratedFrom, List.map_cons, List.getLast?_cons,
      List.cons_append]
    cases (rest.map Snapshot.residual).getLast? <;> rfl

theorem rated_append (snaps : List (Snapshot α)) (snap : Snapshot α) :
    rated c (snaps ++ [snap]) = rated c snaps ++
      [(snap, c.rate snap.residual (snaps.map Snapshot.residual).getLast?)] := by
  rw [rated, ratedFrom_append, Option.or_none]
  rfl

theorem map_fst_rated (snaps : List (Snapshot α)) : (rated c snaps).map Prod.fst = snaps := by
  induction snaps using List.reverseRecOn with
  | nil => rfl
  | append_singleton snaps snap ih => rw [rated_append, List.map_append, ih]; rfl

variable {c o} {snaps : List (Snapshot α)} {snap : Snapshot α}

theorem stagnation_of_not_counts (passed : ¬Counts o snap) :
    stagnation c o (snaps ++ [snap]) = stagnation c o snaps := by
  have none : decide (Counts o snap) = false := decide_eq_false passed
  simp [stagnation, counted, rated_append, none]

theorem length_stagnation_of_counts (counts : Counts o snap) :
    (stagnation c o (snaps ++ [snap])).length =
      if Stagnates o (c.rate snap.residual (snaps.map Snapshot.residual).getLast?) then
        (stagnation c o snaps).length + 1
      else 0 := by
  have one : decide (Counts o snap) = true := decide_eq_true counts
  simp only [stagnation, counted, rated_append, List.filter_append, List.filter_cons, one, if_true,
    List.filter_nil, List.rtakeWhile_concat, decide_eq_true_eq]
  split <;> simp

/-- In a run of some length, all of the last so many stagnate that count at all. -/
theorem stagnates_of_filter {β : Type} {q s : β → Bool} {l : List β} {k : Nat}
    (long : k ≤ ((l.filter q).rtakeWhile s).length) :
    ∀ p ∈ l.rtake k, q p = true → s p = true := by
  induction l using List.reverseRecOn generalizing k with
  | nil => simp
  | append_singleton l x ih =>
    cases k with
    | zero => simp
    | succ k =>
      rw [List.rtake_concat_succ]
      rw [List.filter_append] at long
      intro p found counts
      cases there : q x with
      | false =>
        rw [List.filter_cons_of_neg (by simp [there]), List.filter_nil, List.append_nil] at long
        obtain old | new := List.mem_append.1 found
        · exact ih (Nat.le_of_succ_le long) p old counts
        · rw [List.mem_singleton.1 new, there] at counts
          cases counts
      | true =>
        rw [List.filter_cons_of_pos there, List.filter_nil, List.rtakeWhile_concat] at long
        split at long
        · rename_i stagnates
          rw [List.length_append, List.length_singleton] at long
          obtain old | new := List.mem_append.1 found
          · exact ih (Nat.le_of_succ_le_succ long) p old counts
          · rw [List.mem_singleton.1 new]
            exact stagnates
        · cases long

/-- Where the iterations increase, none of the last so many is the initial one if so many count. -/
theorem positive_of_increasing (increasing : (snaps.map Snapshot.iteration).Pairwise (· < ·))
    {k : Nat} (enough : k ≤ (counted c o snaps).length) :
    ∀ p ∈ (rated c snaps).rtake k, 0 < p.1.iteration := by
  have iterations : (rated c snaps).map (fun p ↦ p.1.iteration) = snaps.map Snapshot.iteration := by
    conv_rhs => rw [← map_fst_rated c snaps, List.map_map]
    rfl
  unfold counted at enough
  rw [← iterations] at increasing
  generalize rated c snaps = l at increasing enough
  cases l with
  | nil => simp
  | cons head rest =>
    rw [List.map_cons, List.pairwise_cons, List.forall_mem_map] at increasing
    have later : ∀ p ∈ rest, 0 < p.1.iteration :=
      fun p there ↦ Nat.zero_lt_of_lt (increasing.1 p there)
    obtain first | positive := Nat.eq_zero_or_pos head.1.iteration
    · -- The initial check does not count, so that those that do are among the others.
      have passed : ¬Counts o head.1 := fun counts ↦ by rw [Counts, first] at counts; omega
      rw [List.filter_cons_of_neg (by simpa using passed)] at enough
      have short : k ≤ rest.length := enough.trans (List.length_filter_le _ _)
      intro p found
      rw [List.rtake, List.length_cons, Nat.succ_sub short, List.drop_succ_cons] at found
      exact later p (List.mem_of_mem_drop found)
    · intro p found
      obtain rfl | there := List.mem_cons.1 (List.mem_of_mem_drop found)
      · exact positive
      · exact later p there

end

/-! ## One check -/

variable {b : Battery α} {snap : Snapshot α} {direction : Except Stop (Option (Array α))}
  {iteration : Nat} {w : α} {residuals : List (Array α)}

/-- What the last tests do in a transient that they leave open or find stagnating, before the end of
its budget. -/
theorem conclude_counts (transient : b.transient = true)
    (last : (b.conclude iteration).2.isAboutStagnation = true)
    (early : (b.conclude iteration).2 = .converged .nearConvergence →
      iteration < b.options.maxSteps) :
    (iteration = 0 →
      (b.conclude iteration).1.stagnant = b.stagnant ∧ (b.conclude iteration).2 = .unconverged) ∧
    (0 < iteration → (b.conclude iteration).1.stagnant = b.recount ∧
      ((b.conclude iteration).2 = .unconverged ↔ b.recount < b.options.stagnationSteps)) := by
  have run := conclude_run b iteration
  generalize b.conclude iteration = p at run last early
  cases run with
  | near _ spent => exact absurd (early rfl) (Nat.not_lt.2 spent)
  | late => cases last
  | small =>
    rw [if_pos transient] at last
    cases last
  | spent => cases last
  | grown => cases last
  | stagnated _ later _ long =>
    refine ⟨fun first ↦ absurd first (Nat.ne_of_gt later), fun _ ↦ ⟨rfl, ?_⟩⟩
    refine iff_of_false ?_ (Nat.not_lt.2 long)
    dsimp only
    split <;> exact nofun
  | counted _ later _ short =>
    exact ⟨fun first ↦ absurd first (Nat.ne_of_gt later), fun _ ↦ ⟨rfl, iff_of_true rfl short⟩⟩
  | uncounted either =>
    have first : iteration = 0 := either.resolve_left fun steady ↦ by
      rw [transient] at steady
      cases steady
    exact ⟨fun _ ↦ ⟨rfl, rfl⟩, fun later ↦ absurd first (Nat.ne_of_gt later)⟩

theorem judge_counts (transient : b.transient = true) (later : 0 < iteration)
    (last : (b.judge iteration w).2.isAboutStagnation = true)
    (early : (b.judge iteration w).2 = .converged .nearConvergence →
      iteration < b.options.maxSteps) :
    (b.judge iteration w).1.stagnant = b.recount ∧
      ((b.judge iteration w).2 = .unconverged ↔ b.recount < b.options.stagnationSteps) := by
  unfold judge at last early ⊢
  dsimp only at last early ⊢
  split at last
  · cases last
  · rename_i large
    rw [if_neg large] at early ⊢
    exact (conclude_counts (b := b.weighed w) transient last early).2 later

/-- What a check does to the count if the last of the tests leaves the matter open, or finds
stagnation before the end of the budget. -/
theorem check_counts (transient : b.transient = true) {status : Status}
    (checked : (b.check snap direction).2 = .ok status) (last : status.isAboutStagnation = true)
    (early : status = .converged .nearConvergence → snap.iteration < b.options.maxSteps) :
    b.records snap = true ∧
    (¬Counts b.options snap →
      (b.check snap direction).1.stagnant = b.stagnant ∧ status = .unconverged) ∧
    (Counts b.options snap →
      (b.check snap direction).1.stagnant = (b.record snap.residual).recount ∧
        (status = .unconverged ↔
          (b.record snap.residual).recount < b.options.stagnationSteps)) := by
  have due {b' : Battery α} (screen : b.screen snap = (b', none)) : ¬PutOff b.options snap := by
    refine fun off ↦ ?_
    obtain ⟨_, _, decided, -⟩ := screen_of_not_eligible (b := b)
      fun eligible ↦ eligible.devices off
    rw [decided] at screen
    cases screen
  have judged {b' : Battery α} {w : α} (screen : b.screen snap = (b', none))
      (later : snap.iteration ≠ 0) (told : (b'.judge snap.iteration w).2 = status) :
      b.records snap = true ∧
      (¬Counts b.options snap →
        (b'.judge snap.iteration w).1.stagnant = b.stagnant ∧ status = .unconverged) ∧
      (Counts b.options snap →
        (b'.judge snap.iteration w).1.stagnant = (b.record snap.residual).recount ∧
          (status = .unconverged ↔
            (b.record snap.residual).recount < b.options.stagnationSteps)) := by
    have off := due screen
    obtain ⟨recorded, rfl⟩ := recorded_of_screen screen
    subst told
    have later := Nat.pos_of_ne_zero later
    exact ⟨recorded, fun passed ↦ absurd ⟨off, later⟩ passed,
      fun _ ↦ judge_counts (b := b.record snap.residual) transient later last early⟩
  have run := check_run b snap direction
  generalize b.check snap direction = p at run checked
  cases run with
  | screened screen =>
    have run := screen_run b snap
    rw [screen] at run
    cases checked
    cases run with
    | notFinite => cases last
    | inner => cases last
    | devices finite inner off =>
      have recorded : b.records snap = true := by rw [records_of_sees finite, inner]; rfl
      exact ⟨recorded, fun _ ↦ ⟨rfl, rfl⟩, fun counts ↦ absurd off counts.1⟩
    | rounding => cases last
  | initial screen first =>
    obtain ⟨recorded, rfl⟩ := recorded_of_screen screen
    cases checked
    rw [first] at early
    have undecided := (conclude_counts (b := b.record snap.residual) transient last early).1 rfl
    exact ⟨recorded, fun _ ↦ undecided, fun counts ↦ absurd first (Nat.ne_of_gt counts.2)⟩
  | judged screen later => exact judged screen later (Except.ok.inj checked)
  | judgedDirection screen later => exact judged screen later (Except.ok.inj checked)
  | unweighed => cases checked
  | stopped => cases checked
  | still =>
    cases checked
    cases last
  | unweighedDirection => cases checked

/-! ## Checks in a row -/

/-- Checks in a row that have all left the matter open. -/
inductive Open (b : Battery α) : List (Check α) → Prop
  | nil : Open b []
  | snoc {checks : List (Check α)} {k : Check α} (earlier : Open b checks)
    (undecided : ((b.after (checks.map Check.use)).check k.snap k.direction).2 = .ok .unconverged) :
    Open b (checks ++ [k])

/-- The iterates that some checks were of. -/
def snaps (checks : List (Check α)) : List (Snapshot α) := checks.map Check.snap

/-- What the battery has counted and remembers, after checks that have left the matter open. -/
structure Tallies (b : Battery α) (c : Communicator α) (o : NewtonOptions α)
    (seen : List (Snapshot α)) : Prop where
  remembers : b.Remembers (seen.map Snapshot.residual)
  stagnant : b.stagnant = (stagnation c o seen).length

theorem recount_eq {seen : List (Snapshot α)} (h : b.Tallies b.communicator b.options seen)
    (counts : Counts b.options snap) :
    (b.record snap.residual).recount =
      (stagnation b.communicator b.options (seen ++ [snap])).length := by
  rw [length_stagnation_of_counts counts, ← h.stagnant]
  unfold recount Stagnates
  rw [record_rate h.remembers]
  rfl

theorem open_tallies (fresh : b.Tallies b.communicator b.options [])
    (transient : b.transient = true) {checks : List (Check α)} (h : b.Open checks) :
    (b.after (checks.map Check.use)).Tallies b.communicator b.options (snaps checks) := by
  induction h with
  | nil => exact fresh
  | @snoc checks k earlier undecided ih =>
    have alike := b.after_alike (checks.map Check.use)
    rw [snaps, List.map_append, List.map_append]
    rw [List.map_singleton, List.map_singleton, after_append]
    generalize b.after (checks.map Check.use) = b' at ih undecided alike ⊢
    rw [← alike.communicator, ← alike.options] at ih ⊢
    obtain ⟨recorded, passed, counted⟩ := check_counts (alike.transient.trans transient) undecided
      rfl nofun
    refine ⟨?_, ?_⟩
    · have remembers := perform_remembers ih.remembers (.check k.snap k.direction)
      rw [logged_of_records recorded] at remembers
      rw [List.map_append]
      exact remembers
    · by_cases counts : Counts b'.options k.snap
      · exact (counted counts).1.trans (recount_eq ih counts)
      · rw [stagnation_of_not_counts counts]
        exact (passed counts).1.trans ih.stagnant

/-- **Stagnation is in a row of the checks that count.**  Let checks of a transient since a reset
have left the matter open, and let another check before the end of the budget find it stalled, or
near convergence.  Then the checks that count end in a run of as many with a rate about one as the
options ask for.  Where the iterations increase, each of the last so many checks had such a rate or
was put off for the devices.  A check that counts and leaves the matter open ends no such run. -/
theorem stagnation_in_a_row (c : Communicator α) (o : NewtonOptions α) (codes : CodeTable)
    (uses : List (Use α)) (checks : List (Check α)) (k : Check α)
    (undecided : ((new c o codes true).after uses).reset.Open checks) :
    let b := ((new c o codes true).after uses).reset.after (checks.map Check.use)
    let answer := (b.check k.snap k.direction).2
    let seen := snaps (checks ++ [k])
    (k.snap.iteration < o.maxSteps →
      answer = .ok (.failed .stalled) ∨ answer = .ok (.converged .nearConvergence) →
        o.stagnationSteps ≤ (stagnation c o seen).length ∧
        ((seen.map Snapshot.iteration).Pairwise (· < ·) →
          ∀ p ∈ (rated c seen).rtake o.stagnationSteps, ¬PutOff o p.1 → Stagnates o p.2)) ∧
    (answer = .ok .unconverged → Counts o k.snap →
      (stagnation c o seen).length < o.stagnationSteps) := by
  have afresh : ((new c o codes true).after uses).reset = new c o codes true := by
    have alike := (new c o codes true).after_alike uses
    rw [reset, alike.communicator, alike.options, alike.codes, alike.transient]
    rfl
  rw [afresh] at undecided ⊢
  intro b answer seen
  have tallies : b.Tallies c o (snaps checks) :=
    open_tallies (b := new c o codes true) ⟨remembers_new c o codes true, rfl⟩ rfl undecided
  have alike : (new c o codes true).Alike b := (new c o codes true).after_alike _
  have communicator : b.communicator = c := alike.communicator
  have options : b.options = o := alike.options
  have long (counts : Counts o k.snap) :
      (b.record k.snap.residual).recount = (stagnation c o seen).length := by
    have same := recount_eq (b := b)
      (by rwa [communicator, options]) (by rwa [options])
    rw [communicator, options] at same
    rw [same, show seen = snaps checks ++ [k.snap] from List.map_append]
  refine ⟨fun early stagnates ↦ ?_, fun unfinished counts ↦ ?_⟩
  · obtain ⟨status, told, last, decided⟩ : ∃ status, answer = .ok status ∧
        status.isAboutStagnation = true ∧ status ≠ .unconverged := by
      obtain told | told := stagnates
      · exact ⟨_, told, rfl, nofun⟩
      · exact ⟨_, told, rfl, nofun⟩
    obtain ⟨-, passed, tallied⟩ := check_counts alike.transient told last
      fun _ ↦ by rwa [options]
    rw [options] at passed tallied
    have counts : Counts o k.snap := by_contra fun none ↦ decided (passed none).2
    have enough : o.stagnationSteps ≤ (stagnation c o seen).length := by
      rw [← long counts]
      exact Nat.le_of_not_lt fun short ↦ decided ((tallied counts).2.2 short)
    refine ⟨enough, fun increasing p found off ↦ ?_⟩
    have suffix : (stagnation c o seen).length ≤ (counted c o seen).length :=
      (List.rtakeWhile_suffix _ _).length_le
    have later := positive_of_increasing (c := c) (o := o) increasing (enough.trans suffix) p found
    have found' := stagnates_of_filter enough p found (decide_eq_true ⟨off, later⟩)
    exact of_decide_eq_true found'
  · obtain ⟨-, -, tallied⟩ := check_counts alike.transient unfinished rfl nofun
    rw [options] at tallied
    rw [← long counts]
    exact (tallied counts).2.1 rfl

/-! ## A transient of exact numbers -/

/-- A transient that waits for its devices and is given up after two stagnating iterations. -/
def impatient : NewtonOptions ExtendedRat :=
  { NewtonOptions.standard with stagnationSteps := 2, checkDeviceConvergence := true }

/-- The check of a large step of one unknown. -/
def stride (iteration : Nat) (residual : ExtendedRat) (devicesConverged : Bool) :
    Check ExtendedRat where
  snap := {
    iteration := iteration
    x := #[(10 * iteration + 10 : Nat)]
    previousIterate := #[(10 * iteration : Nat)]
    previousPoint := #[0]
    residual := #[residual]
    devicesConverged := devicesConverged
    innerSolveFailed := false }
  direction := .ok none

/-- Two iterations get no further, and the one between them, which is put off, halves the residual.
That is found to be stagnation, though the last two checks in a row are not both stagnating. -/
theorem stagnation_in_a_row_impatient :
    let checks := [stride 0 1 true, stride 1 1 true, stride 2 0.5 false]
    let k := stride 3 0.5 true
    let b := ((new .serial impatient {} true).after [(stride 0 7 true).use]).reset
    let seen := snaps (checks ++ [k])
    b.Open checks ∧
      ((b.after (checks.map Check.use)).check k.snap k.direction).2 = .ok (.failed .stalled) ∧
      2 ≤ (stagnation .serial impatient seen).length ∧
      (∀ p ∈ (rated .serial seen).rtake 2, ¬PutOff impatient p.1 → Stagnates impatient p.2) ∧
      ¬∀ p ∈ (rated .serial seen).rtake 2, Stagnates impatient p.2 := by
  intro checks k b seen
  have undecided : b.Open checks :=
    .snoc (.snoc (.snoc .nil (by decide +kernel)) (by decide +kernel)) (by decide +kernel)
  have stalled : ((b.after (checks.map Check.use)).check k.snap k.direction).2 =
      .ok (.failed .stalled) := by decide +kernel
  obtain ⟨long, row⟩ := (stagnation_in_a_row .serial impatient {} _ checks k undecided).1
    (by decide +kernel) (.inl stalled)
  exact ⟨undecided, stalled, long, row (by decide +kernel), by decide +kernel⟩

end Battery

end OperatingPoint

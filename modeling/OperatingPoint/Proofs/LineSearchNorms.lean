import OperatingPoint.Proofs.Attempts
import OperatingPoint.Proofs.IterationParts
import OperatingPoint.Proofs.LineSearches
import OperatingPoint.Proofs.MeasuredResiduals

/-!
# The norms that a line search compares

A line search turns a trial down if the norm of the residual there is not enough below the norm at
the iterate.  That of a trial is taken on the way.  That of the iterate was taken when its residual
was loaded, and the Jacobian of the iteration has been loaded since: by then a seed may have been
used up, and conductances may have been given to other unknowns.

So the trials are all compared with one number, and they are all measured by one function, but the
number need not be a value of that function.  `Engine.Searches` says which functions the two are,
and the last theorem says of any bench when they are the same.
-/

set_option autoImplicit false

namespace OperatingPoint

open Step

variable {δ α : Type} [Scalar α] [Device δ α] {n : Nat}

/-! ## What is measured -/

namespace PureDevice

/-- The 2-norm of the residual at `x` with `previous` the solution of the previous point, under an
overlay. -/
def twoNorm (P : PureDevice δ α) (c : Communicator α) (v : P.View) (o : Overlay α)
    (previous x : Vector α n) : Except Stop α :=
  (P.overlaid v o previous x).map fun f ↦ c.norm2 f.toArray

/-- No parameter changes anything that a load depends on. -/
def Fixed (P : PureDevice δ α) : Prop :=
  ∀ (d : δ) (name : String) (value : α), P.view (Device.setParameter d name value).2 = P.view d

variable {P : PureDevice δ α} {layer d : δ}

theorem Fixed.told (fixed : P.Fixed) (entries : List (String × α)) (d : δ) :
    P.view (Device.told d entries) = P.view d := by
  induction entries generalizing d with
  | nil => rfl
  | cons entry rest ih =>
    unfold Device.told at ih ⊢
    rw [List.foldl_cons, ih]
    split
    · rfl
    · exact fixed d entry.1 entry.2

theorem Fixed.tell (fixed : P.Fixed) (o : Overlay α) (d : δ) : P.view (o.tell d) = P.view d := by
  unfold Overlay.tell
  split
  · exact fixed.told _ d
  · rfl

/-- Where no parameter matters, a pure device layer has one view for good. -/
theorem Fixed.view (fixed : P.Fixed) (reached : Device.Reaches layer d) :
    P.view d = P.view layer := by
  induction reached with
  | refl => rfl
  | residual _ _ _ _ ih => exact (P.residual_view ..).trans ih
  | jacobian _ _ _ _ ih => exact (P.jacobian_view ..).trans ih
  | parameter _ name value ih => exact (fixed _ name value).trans ih
  | accept _ x ih => exact (P.accept_view _ x).trans ih
  | abandon _ ih => exact (P.abandon_view _).trans ih

end PureDevice

variable [DirectSolver α]

namespace Rig

variable {P : PureDevice δ α} {c : Communicator α} {layer : δ} {v : P.View} {o before : Overlay α}
  {previous : Vector α n} {r : Rig δ α n}

theorem Traced.weaken {apace apace' spent spent' : Prop} (h : r.Traced P c layer apace spent)
    (keeps : apace' → apace) (uses : spent' → spent) : r.Traced P c layer apace' spent' where
  rest := h.rest
  communicator := h.communicator
  holds := h.holds
  used now := h.used (uses now)
  residual valid := by
    obtain ⟨d, before, reached, shows, same, used⟩ := h.residual valid
    exact ⟨d, before, reached, shows, fun now ↦ same (keeps now), fun now ↦ used (uses now)⟩

/-- A rig at which a load of the residual is one under an overlay and a view, now and as often as it
is repeated. -/
structure Tuned (P : PureDevice δ α) (c : Communicator α) (v : P.View) (o : Overlay α)
    (previous : Vector α n) (r : Rig δ α n) : Prop where
  communicator : r.store.communicator = c
  previous : r.store.previous = previous
  used : r.track.overlay.pends = false
  view : P.view (r.track.overlay.tell r.store.device) = v
  overlaid : P.overlaid (n := n) v r.track.overlay.told = P.overlaid v o

/-- Where norms have been taken, the parameters are obeyed and no seed is left. -/
theorem Shows.tuned (h : r.Shows P c v before) (communicator : r.store.communicator = c) :
    r.Tuned P c (P.view (r.track.overlay.tell r.store.device)) r.track.overlay
      r.store.previous where
  communicator := communicator
  previous := rfl
  used := h.used
  view := rfl
  overlaid := PureDevice.overlaid_told h.obeys

theorem computeResidual_tuned (settles : P.Settles) (h : r.Tuned P c v o previous)
    (invalid : r.isValid .residual = false) :
    Ends computeResidual r
      (fun ok r' ↦ r'.Tuned P c v o previous ∧ r'.track.x = r.track.x ∧
        (ok = true → r'.MeasuredBy P c v o) ∧ (ok = false → r'.track.iterate.measured = .failed))
      (fun _ _ ↦ True) := by
  refine (computeResidual_sees P invalid).mono ?_ fun _ _ _ ↦ trivial
  intro ok r' sees
  have told := sees.still h.used
  have view : P.view r'.store.device = v := sees.view.trans h.view
  refine ⟨⟨sees.communicator.trans h.communicator, sees.previous.trans h.previous, ?_, ?_, ?_⟩,
    sees.x, fun good ↦ ?_, sees.failed⟩
  · rw [told, Overlay.told_pends]
    exact h.used
  · rw [Overlay.tell_congr sees.parameters sees.forwarding, settles.tell sees.view]
    exact view
  · rw [told, Overlay.told_told]
    exact h.overlaid
  · obtain ⟨f, overlaid, measured⟩ := sees.measured good
    rw [h.view, h.overlaid] at overlaid
    rw [h.communicator] at measured
    exact ⟨f, overlaid, measured⟩

end Rig

namespace Engine

variable {P : PureDevice δ α} {c : Communicator α} {layer : δ} {v : P.View} {o : Overlay α}
  {previous : Vector α n} {apace spent : Prop} {start e e' e₁ : Engine δ α n}
  {base d : Vector α n} {old : α}

/-- The 2-norm of the residual at the iterate, if it has been taken. -/
def norm? (e : Engine δ α n) : Option α := e.iterate.measured.norms?.map ResidualNorms.two

theorem norm_of_measuredBy (h : e.rig.MeasuredBy P c v o) :
    ∃ norm, e.norm? = some norm ∧
      P.twoNorm c v o e.rig.store.previous e.iterate.x = .ok norm := by
  obtain ⟨f, overlaid, measured⟩ := h
  have measured : e.iterate.measured = .norms (c.normsOf f.toArray) := measured
  have overlaid : P.overlaid v o e.rig.store.previous e.iterate.x = .ok f := overlaid
  refine ⟨c.norm2 f.toArray, ?_, ?_⟩
  · rw [norm?, measured]
    rfl
  · rw [PureDevice.twoNorm, overlaid]
    rfl

/-! ## Trials -/

/-- An engine at a trial, with what has been measured there. -/
structure Measures (P : PureDevice δ α) (c : Communicator α) (v : P.View) (o : Overlay α)
    (previous x : Vector α n) (ok : Bool) (e : Engine δ α n) : Prop where
  tuned : e.rig.Tuned P c v o previous
  x : e.iterate.x = x
  measured : ok = true → e.rig.MeasuredBy P c v o
  failed : ok = false → e.norm? = none

theorem trial_measures (settles : P.Settles) (h : e.rig.Tuned P c v o previous) {step : α}
    {ok : Bool} (run : onRig Rig.computeResidual (e.movedAlong base d step) = .ok ok e') :
    e'.Measures P c v o previous (addScaled base step d) ok := by
  have moved : (e.movedAlong base d step).rig.Tuned P c v o previous :=
    ⟨h.communicator, h.previous, h.used, h.view, h.overlaid⟩
  have stale : (e.movedAlong base d step).rig.isValid .residual = false :=
    Bool.eq_false_iff.2 (Iterate.not_isValid_of_stale (q := .residual) rfl)
  obtain ⟨tuned, x, measured, failed⟩ :=
    (Rig.computeResidual_tuned settles moved stale).ok (onRig_eq_ok.1 run).1
  refine ⟨tuned, x, measured, fun bad ↦ ?_⟩
  rw [norm?, show e'.iterate.measured = .failed from failed bad]
  rfl

theorem Tries.measures (settles : P.Settles) (h : e.rig.Tuned P c v o previous) {k : Nat}
    {ok : Bool} (tries : e.Tries base d old k ok e') :
    e'.Measures P c v o previous (addScaled base (halved α k) d) ok := by
  induction tries with
  | first run => exact trial_measures settles h run
  | next _ _ run ih => exact trial_measures settles ih.tuned run

/-! ## An iteration -/

/-- An iteration up to the direction that it is going to follow, or to the verdict that there is
none. -/
def aim : Step (Engine δ α n) (Except Verdict (Vector α n)) := do
  let reuse := (← get).keepsFactors
  if !reuse then
    if !(← onRig Rig.computeJacobian) then return .error .nanFail
  if !(← onRig Rig.computeResidual) then return .error .nanFail
  usableDirection reuse

/-- The rest of an iteration. -/
def go : Except Verdict (Vector α n) → Step (Engine δ α n) Status
  | .error verdict => finish (.failed verdict)
  | .ok d => follow d

theorem iterateOnce_eq_aim : (iterateOnce : Step (Engine δ α n) Status) = aim >>= go := by
  -- Whichever way the Jacobian has been seen to, the residual comes next.
  have evaluated (reuse : Bool) : (do
      if !(← onRig Rig.computeResidual) then return ← finish (.failed .nanFail)
      match ← usableDirection reuse with
      | .error verdict => finish (.failed verdict)
      | .ok d => follow d : Step (Engine δ α n) Status) = (do
      if !(← onRig Rig.computeResidual) then return .error .nanFail
      usableDirection reuse : Step (Engine δ α n) (Except Verdict (Vector α n))) >>= go := by
    rw [bind_assoc]
    refine bind_congr fun loaded ↦ ?_
    cases loaded with
    | false => rfl
    | true => exact bind_congr fun answer ↦ by cases answer <;> rfl
  unfold iterateOnce aim
  rw [bind_assoc]
  refine bind_congr fun e ↦ ?_
  cases e.keepsFactors with
  | true => exact evaluated true
  | false =>
    show (onRig Rig.computeJacobian >>= _ : Step _ _) = (onRig Rig.computeJacobian >>= _) >>= _
    rw [bind_assoc]
    refine bind_congr fun loaded ↦ ?_
    cases loaded with
    | false => rfl
    | true => exact evaluated false

/-- A direction is looked for without a move, and it is found where the residual is there. -/
theorem aim_keeps {I : Rig δ α n → Prop} {Q : Stop → Prop} (keeps : Rig.Keeps I Q) (h : I e.rig) :
    Ends aim e
      (fun answer e' ↦ I e'.rig ∧ ∀ d, answer = .ok d → e'.rig.isValid .residual = true)
      (fun _ _ ↦ True) := by
  have evaluated (reuse : Bool) {r : Rig δ α n} (kept : I r) :
      Ends (do
        if !(← onRig Rig.computeResidual) then return .error .nanFail
        usableDirection reuse : Step (Engine δ α n) (Except Verdict (Vector α n)))
        { e with rig := r }
        (fun answer e' ↦ I e'.rig ∧ ∀ d, answer = .ok d → e'.rig.isValid .residual = true)
        (fun _ _ ↦ True) := by
    unfold usableDirection
    simp only [ends_bind, ends_onRig, ends_ite, ends_get, ends_pure, ends_orFault]
    refine ((keeps.residual kept).and (Rig.computeResidual_stays (keeps.rest kept))).mono ?_
      fun _ _ _ ↦ trivial
    rintro ok r ⟨kept, -, -, -, good, -⟩
    refine ⟨fun _ ↦ ⟨kept, fun _ aimed ↦ (by cases aimed)⟩, fun loaded ↦ ?_⟩
    rw [Bool.not_eq_true, Bool.not_eq_false'] at loaded
    refine ((keeps.preserves_newton reuse r kept).and
      (Rig.computeNewton_stays (keeps.rest kept) reuse)).mono ?_ fun _ _ _ ↦ trivial
    rintro _ r' ⟨kept', stays, -⟩
    have valid := (stays.residual (good loaded)).1
    exact ⟨fun _ ↦ ⟨fun _ _ ↦ ⟨kept', fun _ _ ↦ valid⟩, fun _ _ ↦ trivial⟩,
      fun _ ↦ ⟨fun _ ↦ ⟨kept', fun _ _ ↦ valid⟩, fun _ ↦ ⟨kept', fun _ _ ↦ valid⟩⟩⟩
  unfold aim
  rw [ends_bind, ends_get]
  cases e.keepsFactors with
  | true => exact evaluated true h
  | false =>
    show Ends (onRig Rig.computeJacobian >>= _) e _ _
    rw [ends_bind, ends_onRig]
    refine (keeps.jacobian h).mono ?_ fun _ _ _ ↦ trivial
    intro ok r kept
    cases ok with
    | false => exact ⟨kept, fun _ aimed ↦ (by cases aimed)⟩
    | true => exact evaluated false kept

/-- What holds where the first trial is made, and a Newton driver keeps, holds after the search. -/
theorem lineSearch_from {I : Rig δ α n → Prop} {Q : Stop → Prop} (keeps : Rig.Keeps I Q)
    (h : I (e.movedAlong base d 1).rig) (rest : e.rig.AtRest) :
    Ends (lineSearch base d old) e (fun _ e' ↦ I e'.rig ∧ e'.Sighted) (fun _ _ ↦ True) := by
  unfold lineSearch
  simp only [ends_bind, ends_get, ends_modifyTrack]
  have loaded : Ends (onRig Rig.computeResidual) (e.movedAlong base d 1) (fun _ e' ↦ I e'.rig)
      (fun _ _ ↦ True) :=
    ends_onRig.2 ((keeps.residual h).mono (fun _ _ kept ↦ kept) fun _ _ _ ↦ trivial)
  refine (loaded.and (trial_keeps Rig.keeps_rest rest base d 1)).mono ?_ fun _ _ _ ↦ trivial
  rintro _ e₁ ⟨kept, searched, -⟩
  split
  · exact ⟨kept, searched.sighted⟩
  · exact (backtrack_keeps keeps kept searched.sighted _ _ _ _ _).mono
      (fun _ _ searched ↦ ⟨searched.keeps, searched.sighted⟩) fun _ _ _ ↦ trivial

theorem follow_from {I : Rig δ α n → Prop} {Q : Stop → Prop} (keeps : Rig.Keeps I Q)
    (h : I (e.movedAlong e.iterate.x d 1).rig) (rest : e.rig.AtRest) :
    Ends (follow d) e (fun _ e' ↦ I e'.rig) (fun _ _ ↦ True) := by
  unfold follow
  simp only [ends_bind, ends_get]
  refine (lineSearch_from keeps h rest).mono ?_ fun _ _ _ ↦ trivial
  rintro _ e₁ ⟨kept, sighted⟩
  rw [ends_modifyNewton]
  split
  · rename_i norms measured
    have valid : e₁.rig.isValid .residual = true := by
      refine sighted ?_
      rw [show e₁.iterate.measured.norms? = some norms from measured]
      rfl
    rw [ends_ite, ends_finish, ends_bind]
    refine ⟨fun _ ↦ kept, fun _ ↦ ?_⟩
    exact (classify_keeps (e := { e₁ with
      newton := { e₁.newton with iteration := e₁.newton.iteration + 1 } }) keeps kept valid _).mono
        (fun _ _ classified ↦ classified.keeps) fun _ _ _ ↦ trivial
  · exact kept

/-- After an iteration that leaves a solve undecided, the residual is that of a trial. -/
theorem iterateOnce_traced (settles : P.Settles) (h : e.rig.Traced P c layer False False) :
    Ends iterateOnce e
      (fun status e' ↦ status.isDecided = false → e'.rig.Traced P c layer True True)
      (fun _ _ ↦ True) := by
  rw [iterateOnce_eq_aim, ends_bind]
  refine (aim_keeps (Rig.keeps_traced settles) h).mono ?_ fun _ _ _ ↦ trivial
  rintro answer e₁ ⟨traced, valid⟩
  cases answer with
  | error verdict => exact nofun
  | ok d =>
    obtain ⟨_, _, _, shows, -⟩ := traced.residual (valid d rfl)
    have moved : (e₁.movedAlong e₁.iterate.x d 1).rig.Traced P c layer True True :=
      .of_stale (traced.rest.move _) traced.communicator traced.holds (fun _ ↦ shows.used) nofun
    exact (follow_from (Rig.keeps_traced settles) moved traced.rest).mono
      (fun _ _ kept _ ↦ kept) fun _ _ _ ↦ trivial

/-- What is known where a solve stands.  The device layer keeps apace in it, unless there was a
residual from before, and no seed is left after an iteration. -/
theorem traced_of_start (settles : P.Settles) (h : start.rig.Traced P c layer False False)
    (stands : e = start ∨ ∃ i, start.Attains i e) :
    e.rig.Traced P c layer
      (start.rig.isValid .residual = false ∨ ∃ i, start.Attains (i + 1) e)
      (∃ i, start.Attains (i + 1) e) := by
  by_cases later : ∃ i, start.Attains (i + 1) e
  · obtain ⟨i, attains⟩ := later
    cases attains with
    | iterated earlier run undecided =>
      have traced := (iterateOnce_traced settles
        (earlier.keeps (Rig.keeps_traced settles) h).1).ok run undecided
      exact traced.weaken (fun _ ↦ trivial) fun _ ↦ trivial
  · cases stale : start.rig.isValid .residual with
    | true =>
      have traced : e.rig.Traced P c layer False False := by
        obtain rfl | ⟨i, attains⟩ := stands
        · exact h
        · exact (attains.keeps (Rig.keeps_traced settles) h).1
      exact traced.weaken (fun known ↦ later (known.resolve_left nofun)) later
    | false =>
      have h' : start.rig.Traced P c layer True False :=
        ⟨h.rest, h.communicator, h.holds, False.elim, fun valid ↦ by
          rw [stale] at valid
          cases valid⟩
      have traced : e.rig.Traced P c layer True False := by
        obtain rfl | ⟨i, attains⟩ := stands
        · exact h'
        · exact (attains.keeps (Rig.keeps_traced settles) h').1
      exact traced.weaken (fun _ ↦ trivial) later

/-- A line search along `d`: what the norm at the iterate is the norm of, and what the trials are
compared with it by.  The former was taken under the overlay `before`, when the view was `v`; the
latter are all measured under the overlay at hand, at the view `v'`. -/
structure Searches (P : PureDevice δ α) (c : Communicator α) (v : P.View) (before : Overlay α)
    (v' : P.View) (d : Vector α n) (old : α) (e : Engine δ α n) : Prop where
  noted : e.norm? = some old
  measured : P.twoNorm c v before e.rig.store.previous e.iterate.x = .ok old
  kin : before.Kin e.rig.track.overlay
  tried : ∀ {k : Nat} {ok : Bool} {e' : Engine δ α n}, e.Tries e.iterate.x d old k ok e' →
    e'.iterate.x = addScaled e.iterate.x (halved α k) d ∧
    (ok = true → ∃ norm, e'.norm? = some norm ∧
      P.twoNorm c v' e.rig.track.overlay e.rig.store.previous e'.iterate.x = .ok norm) ∧
    (ok = false → e'.norm? = none)
  ends : Ends (lineSearch e.iterate.x d old) e (e.SearchEnds e.iterate.x d old) (fun _ _ ↦ True)

/-- What a line search from a measured residual compares. -/
theorem searches_of_shows (settles : P.Settles) {before : Overlay α}
    (shows : e.rig.Shows P c v before) (communicator : e.rig.store.communicator = c)
    (d : Vector α n) : ∃ old,
      e.Searches P c v before (P.view (e.rig.track.overlay.tell e.rig.store.device)) d old := by
  obtain ⟨old, noted, measured⟩ := norm_of_measuredBy shows.measured
  refine ⟨old, noted, measured, shows.kin, fun {k ok e'} tries ↦ ?_, lineSearch_tries ..⟩
  have measures := tries.measures settles (shows.tuned communicator)
  refine ⟨measures.x, fun good ↦ ?_, measures.failed⟩
  obtain ⟨norm, noted, measured⟩ := norm_of_measuredBy (measures.measured good)
  rw [measures.tuned.previous] at measured
  exact ⟨norm, noted, measured⟩

end Engine

/-! ## All iterations on a bench -/

/-- A circuit of two unknowns with the equations `x₀ = 3` and `x₁ = 1`. -/
def Circuit.apart : Circuit where
  unknowns := 2
  terms := [{ row := 0, kind := .lin }, { row := 0, kind := .const, scale := -3.0 },
    { row := 1, kind := .lin, column := 1 }, { row := 1, kind := .const, scale := -1.0 }]
  recording := false

/-- A seed on the first of two unknowns. -/
def Seed.onFirst : Seed := { partition := ⟨IndexSet.below 1, 2, by decide⟩ }

namespace Bench

/-- Where Newton's iteration is set to work on a bench: at a track, as a command to it finds it,
and, when a parameter is stepped, at each of the attempts. -/
inductive Starts (b : Bench δ α n) : Engine δ α n → Prop
  | command {k : Nat} {t : Track α n} (live : b.Live k t) : Starts b (b.engine t)
  | attempt {k : Nat} {t : Track α n} (live : b.Live k t) (s : Stepper α)
      {a : s.Attempt δ n} (mem : a ∈ s.attempts (b.engine t)) : Starts b (s.ready a.value a.before)

theorem Traced.start {P : PureDevice δ α} {c : Communicator α} {layer : δ} {b : Bench δ α n}
    {e : Engine δ α n} (settles : P.Settles) (h : b.Traced P c layer) (starts : b.Starts e) :
    e.rig.Traced P c layer False False := by
  have keeps : Rig.KeepsCommands (Rig.Traced (n := n) P c layer False False) :=
    Rig.keepsCommands_traced settles
  cases starts with
  | command live => exact h.track _ _ live
  | @attempt k t live s a mem =>
    have forwarding : (Stepper.forwarding (b.engine t)).rig.Traced P c layer False False :=
      keeps.shift (h.track k t live) (t.setForwarding_shifts true)
    exact Stepper.attempts_keep keeps.toKeepsSteps forwarding a mem

/-- **What a line search compares.**  Let the loads of a device layer be pure, and being told
parameters twice the same as once.  On every bench, in every iteration that comes to a direction,
all trials are compared with one number, the norm of the residual at the iterate as it was loaded
last.  The trials are measured under the overlay that the Jacobian of the iteration has left.  The
number is a norm under the overlay before that, which may differ in two things: a seed may have been
waiting then, and other unknowns may have been taken for floating.  Where neither is so and the
device layer has heard nothing new since, one function is compared with itself.

No seed is waiting where there is none, or after the first iteration of a solve.  Nothing is taken
for floating where there are no conductances.  And the device layer has heard nothing new if its
parameters do not matter, or the residual has been loaded in this solve. -/
theorem line_search_norms_of_history {P : PureDevice δ α} (settles : P.Settles) (device : δ)
    (c : Communicator α) (linear : LinearOptions α) (newton : Newton α)
    (history : List (Request α n)) {start e e₁ : Engine δ α n} {d : Vector α n}
    (starts : ((empty device c linear newton n).run history).Starts start)
    (stands : e = start ∨ ∃ i, start.Attains i e) (aimed : Engine.aim e = .ok (.ok d) e₁) :
    let o := e₁.rig.track.overlay
    Engine.iterateOnce e = Engine.follow d e₁ ∧
    ∃ v before v' old, e₁.Searches P c v before v' d old ∧
      (v = v' → before.pends = false → before.floating? = o.floating? →
        P.overlaid (n := n) v before = P.overlaid v' o) ∧
      ((∀ s, o.strategy ≠ some (.seed s)) → before.pends = false) ∧
      (o.floating? = none → before.floating? = none) ∧
      (∀ i, start.Attains (i + 1) e → before.pends = false ∧ v = v') ∧
      (start.rig.isValid .residual = false → v = v') ∧
      (P.Fixed → v = v') := by
  intro o
  have traced := Engine.traced_of_start settles
    ((run_traced settles device c linear newton history).start settles starts) stands
  obtain ⟨traced₁, valid⟩ := (Engine.aim_keeps (Rig.keeps_traced settles) traced).ok aimed
  obtain ⟨layer, before, reached, shows, apace, spent⟩ := traced₁.residual (valid d rfl)
  obtain ⟨old, searches⟩ := Engine.searches_of_shows settles shows traced₁.communicator d
  have same (known : start.rig.isValid .residual = false ∨ ∃ i, start.Attains (i + 1) e) :
      P.view layer = P.view (o.tell e₁.rig.store.device) :=
    (apace known).1.symm.trans (apace known).2.symm
  refine ⟨?_, P.view layer, before, _, old, searches, fun view used floating ↦ ?_,
    shows.kin.pends_of_unseeded, shows.kin.floating?_eq_none,
    fun i attains ↦ ⟨spent ⟨i, attains⟩, same (.inr ⟨i, attains⟩)⟩, fun stale ↦ same (.inl stale),
    fun fixed ↦ ?_⟩
  · rw [Engine.iterateOnce_eq_aim]
    exact bind_of_ok aimed
  · rw [view]
    exact (PureDevice.overlaid_congr shows.kin floating.symm (shows.used.trans used.symm)).symm
  · exact (fixed.view reached).trans ((fixed.tell ..).trans (fixed.view traced₁.holds)).symm

-- What is said of the bench is not to be compared by carrying out the history.
seal Ends in
/-- A seed that is waiting: the norm at the iterate leaves its row out, and for that number a whole
step is turned down. -/
theorem line_search_norms_of_history_seeded :
    let newton : Newton Float :=
      { battery := .new .serial { NewtonOptions.standard with lineSearch := .backtrack } {} false }
    let b := run (empty Circuit.apart .serial .standard newton 2)
      [⟨_, .add #[1.0, 0.0]⟩, ⟨_, .attach 0 (.seed .onFirst)⟩]
    ∃ t e d e₁ v before v', b.Live 0 t ∧ (b.engine t).Attains 0 e ∧
      Engine.aim e = .ok (.ok d) e₁ ∧ e₁.Searches Circuit.pure .serial v before v' d 1.0 ∧ v = v' ∧
      ∃ e', e₁.Tries e₁.iterate.x d 1.0 0 true e' ∧ e'.norm? = some 2.0 ∧
        Newton.accepts 1 1.0 e'.iterate.measured = false := by
  intro newton b
  let d : Vector Float 2 := #v[-0.0, 1.0]
  have there : b.tracks[0]?.join.any (fun t ↦ !(b.engine t).rig.isValid .residual &&
      ((b.engine t).reached? 0).any fun e ↦ decide (Ends Engine.aim e
        (fun answer e₁ ↦ answer.toOption = some d ∧ e₁.norm? = some 1.0 ∧
          Ends (Engine.onRig Rig.computeResidual) (e₁.movedAlong e₁.iterate.x d 1)
            (fun ok e' ↦ ok = true ∧ e'.norm? = some 2.0 ∧
              Newton.accepts 1 1.0 e'.iterate.measured = false)
            fun _ _ ↦ False)
        fun _ _ ↦ False)) = true := by
    decide +kernel
  obtain ⟨t, live, seen⟩ := exists_live there
  rw [Bool.and_eq_true, Bool.not_eq_true'] at seen
  obtain ⟨stale, seen⟩ := seen
  obtain ⟨e, begun, aims⟩ := (Option.any_eq_true _ _).1 seen
  obtain ⟨answer, e₁, aims, found, one, tries⟩ := (of_decide_eq_true aims).exists_ok
  obtain ⟨ok, e', tried, rfl, two, rejected⟩ := tries.exists_ok
  cases answer with
  | error => cases found
  | ok d =>
    cases found
    have attains : (b.engine t).Attains 0 e := Engine.attains_iff.2 begun
    obtain ⟨-, v, before, v', old, searches, -, -, -, -, same, -⟩ :=
      line_search_norms_of_history Circuit.pure_settles Circuit.apart .serial .standard newton
        [⟨_, .add #[1.0, 0.0]⟩, ⟨_, .attach 0 (.seed .onFirst)⟩] (.command live)
        (.inr ⟨0, attains⟩) aims
    obtain rfl := Option.some.inj (searches.noted.symm.trans one)
    exact ⟨t, e, d, e₁, v, before, v', live, attains, aims, searches, same stale, e',
      .first tried, two, rejected⟩

end Bench

end OperatingPoint

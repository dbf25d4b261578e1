import OperatingPoint.Proofs.Captures
import OperatingPoint.Proofs.CarriedRun

/-!
# The captures of a history

`Bench.captures` takes down the captures of a history of a bench, and they are all that the device
layer is handed: `Bench.recorded_run`.  In a run of a stepper they are the points of those attempts
that have found a solution, unless an earlier one has been at the same generation; every attempt
that has ended without a solution is given up.

A run that accepts a point and does not stop leaves its track at the last capture.  It may have
tried other points after that, but then it has gone back.
-/

set_option autoImplicit false

namespace OperatingPoint

open Step

variable {δ α : Type} [Scalar α] [DirectSolver α] [Device δ α] {n : Nat}

/-! ## The attempts of a stepper -/

namespace Stepper

variable {s : Stepper α} {e e' : Engine (Journal δ α) α n} {a : s.Attempt (Journal δ α) n} {k : Nat}
  {log : CaptureLog α}

omit [DirectSolver α] [Device δ α] in
theorem setAll_forwarding (s : Stepper α) (value : α) (t : Track α n) :
    (s.setAll value t).overlay.forwarding = t.overlay.forwarding := by
  have set : ∀ (t : Track α n) (name : String) (value : α),
      (t.setParameter name value).overlay.forwarding = t.overlay.forwarding := by
    intro t name value
    rcases t.setParameter_overlay name value with same | ⟨same, -⟩
    · rw [same]
    · rw [same]
  have along : ∀ (paths : List (ParameterPath α)) (t : Track α n),
      (paths.foldl (fun t path ↦ t.setParameter path.name (path.at (s.fraction value)))
        t).overlay.forwarding = t.overlay.forwarding := by
    intro paths
    induction paths with
    | nil => exact fun _ ↦ rfl
    | cons path rest ih => exact fun t ↦ (ih _).trans (set _ _ _)
  exact (along _ _).trans (set _ _ _)

/-- The captures of an attempt: its point, if it has found a solution. -/
def Attempt.captures (k : Nat) (a : s.Attempt δ n) : CaptureLog α :=
  if a.converged then a.left.rig.captures k else []

/-- The captures of some attempts. -/
def captures (k : Nat) : List (s.Attempt δ n) → CaptureLog α
  | [] => []
  | a :: trace => captures k trace ++ a.captures k

/-- The values that an attempt has set are those that are in force when it ends, and it forwards
them.  What its outcome says of the residual, it says of the one at its point. -/
structure Attempt.InForce (a : s.Attempt δ n) : Prop where
  forwarding : a.left.rig.track.overlay.forwarding = true
  parameters : a.left.rig.track.overlay.parameters =
    (s.setAll a.value a.before.rig.track).overlay.parameters
  judged : ∀ outcome, a.outcome? = some outcome → a.left.Judged outcome.status

/-- What the Newton solve of an attempt leaves. -/
structure Attempt.Solves (a : s.Attempt (Journal δ α) n) : Prop extends a.InForce where
  silent : a.before.rig.Silent a.left.rig
  abandoned : a.left.rig.journal.abandoned = a.before.rig.journal.abandoned

theorem Attempt.solves (a : s.Attempt (Journal δ α) n) (rest : a.before.rig.AtRest)
    (forwarding : a.before.rig.track.overlay.forwarding = true) : a.Solves := by
  let r := a.before.rig
  have ready : r.Silent (s.ready a.value a.before).rig := .shift rest (s.setAll_shifts _ _)
  have keeps := ((Rig.keepsQuiet_silent r).toKeeps.and
    (Rig.keeps_lasts (Journal.lasts_abandoned r.journal.abandoned))).and
      (Rig.keeps_frames (s.ready a.value a.before).rig)
  have solved := Engine.solve_keeps (e := s.ready a.value a.before) keeps
    ⟨⟨ready, ready.rest, rfl⟩, ready.rest, .refl _⟩
  have kept : (r.Silent a.left.rig ∧ a.left.rig.AtRest ∧
      a.left.rig.journal.abandoned = r.journal.abandoned) ∧
      a.left.rig.AtRest ∧ (s.ready a.value a.before).rig.Frames a.left.rig :=
    (solved.mono (fun _ _ solved ↦ solved.arrives.keeps) fun _ _ halted ↦ halted.2.keeps).after
  refine ⟨⟨?_, kept.2.2.overlay.parameters, fun outcome known ↦ ?_⟩, kept.1.1, kept.1.2.2⟩
  · rw [kept.2.2.overlay.forwarding]
    exact (s.setAll_forwarding _ _).trans forwarding
  · cases run : a.solve with
    | ok outcome' e' =>
      rw [a.outcome?_of_ok run] at known
      obtain rfl := Option.some.inj known
      rw [a.left_of_ok run]
      exact (solved.ok run).arrives.judged
    | error stop e' =>
      rw [a.outcome?_of_error run] at known
      cases known

/-- From an engine to another by some attempts: the log is right if it is continued by their
captures, and each of them that has ended without a solution has been given up. -/
structure Hands (k : Nat) (log : CaptureLog α) (e : Engine (Journal δ α) α n)
    (trace : List (s.Attempt (Journal δ α) n)) (e' : Engine (Journal δ α) α n) : Prop where
  recorded : e'.rig.Recorded k (captures k trace ++ log)
  forwarding : e'.rig.track.overlay.forwarding = true
  abandoned : e'.rig.journal.abandoned =
    e.rig.journal.abandoned + trace.countP Attempt.unconverged
  inForce : ∀ a ∈ trace, a.InForce

namespace Hands

variable {trace : List (s.Attempt (Journal δ α) n)} {e₁ : Engine (Journal δ α) α n}

theorem cons (first : Hands k log e [a] e₁) (rest : Hands k (captures k [a] ++ log) e₁ trace e') :
    Hands k log e (a :: trace) e' where
  recorded := by
    have recorded := rest.recorded
    rwa [← List.append_assoc] at recorded
  forwarding := rest.forwarding
  abandoned := by
    rw [rest.abandoned, first.abandoned, List.countP_singleton, List.countP_cons]
    omega
  inForce := List.forall_mem_cons.2 ⟨first.inForce a (.head _), rest.inForce⟩

/-- A change of the track that hands nothing over. -/
theorem change (h : Hands k log e trace e₁) {t : Track α n}
    (silent : e₁.rig.Silent { e₁.rig with track := t })
    (forwarding : t.overlay.forwarding = e₁.rig.track.overlay.forwarding) :
    Hands k log e trace { e₁ with rig := { e₁.rig with track := t } } :=
  ⟨h.recorded.silent silent, forwarding.trans h.forwarding, h.abandoned, h.inForce⟩

theorem wentBack (h : Hands k log e trace e₁) (value : α) (x : Vector α n) :
    Hands k log e trace (s.wentBack value x e₁) := by
  have moved : e₁.rig.Silent (e₁.rig.put e₁.rig.store (e₁.rig.track.iterate.setX x)
      e₁.rig.track.overlay) := .move h.recorded.rest x
  exact h.change (moved.trans (.shift moved.rest (s.setAll_shifts value _)))
    (s.setAll_forwarding value _)

end Hands

theorem Attempt.captures_failed {outcome : Outcome α} (solved : a.solve = .ok outcome e')
    (unconverged : outcome.converged = false) : Stepper.captures k [a] = [] := by
  rw [Stepper.captures, Stepper.captures, Attempt.captures, a.converged_of_ok solved, unconverged]
  rfl

section

variable {outcome : Outcome α} {stop : Stop} (here : a.before = e) (recorded : e.rig.Recorded k log)
  (forwarding : e.rig.track.overlay.forwarding = true)
include here recorded forwarding

theorem Attempt.hands_stopped (solved : a.solve = .error stop e') : Hands k log e [a] e' := by
  subst here
  obtain ⟨inForce, silent, abandoned⟩ := a.solves recorded.rest forwarding
  have on := inForce.forwarding
  rw [a.left_of_error solved] at silent abandoned on
  have none : Stepper.captures k [a] = [] := by
    rw [Stepper.captures, Stepper.captures, Attempt.captures, a.converged_of_error solved]
    rfl
  refine ⟨?_, on, ?_, List.forall_mem_singleton.2 inForce⟩
  · rw [none]
    exact recorded.silent silent
  · rw [abandoned, List.countP_singleton, a.unconverged_of_error solved]
    rfl

theorem Attempt.hands_succeeded (solved : a.solve = .ok outcome e')
    (converged : outcome.converged = true) : Hands k log e [a] e'.succeeded := by
  subst here
  obtain ⟨inForce, silent, abandoned⟩ := a.solves recorded.rest forwarding
  have on := inForce.forwarding
  rw [a.left_of_ok solved] at silent abandoned on
  have own : Stepper.captures k [a] = e'.rig.captures k := by
    rw [Stepper.captures, Stepper.captures, Attempt.captures, a.converged_of_ok solved, converged,
      a.left_of_ok solved]
    rfl
  refine ⟨?_, ?_, ?_, List.forall_mem_singleton.2 inForce⟩
  · rw [own]
    exact (recorded.silent silent).handedOver
  · exact Rig.handedOver_keeps (P := fun r ↦ r.track.overlay.forwarding = true) on on
  · rw [List.countP_singleton, a.unconverged_of_ok solved, converged, ← abandoned]
    exact Rig.handedOver_keeps (P := fun r ↦ r.journal.abandoned = e'.rig.journal.abandoned) rfl rfl

theorem Attempt.hands_failed (solved : a.solve = .ok outcome e')
    (unconverged : outcome.converged = false) : Hands k log e [a] e'.failed := by
  subst here
  obtain ⟨inForce, silent, abandoned⟩ := a.solves recorded.rest forwarding
  have on := inForce.forwarding
  rw [a.left_of_ok solved] at silent abandoned on
  refine ⟨?_, on, ?_, List.forall_mem_singleton.2 inForce⟩
  · rw [a.captures_failed solved unconverged]
    exact (recorded.silent silent).silent (.tell silent.rest _ rfl)
  · rw [List.countP_singleton, a.unconverged_of_ok solved, unconverged, ← abandoned]
    show (Device.Request.abandon :: e'.rig.journal.requests).countP _ = _
    rw [List.countP_cons]
    rfl

end

/-- The point of an engine is the one of the last capture. -/
def AtLast (k : Nat) (log : CaptureLog α) (e : Engine (Journal δ α) α n) : Prop :=
  (log.last k).map Capture.point = some e.iterate.x.toArray

omit [Device δ α] in
theorem wentBack_x {σ : Type} (s : Stepper α) (value : α) (x : Vector α n) (e : Engine σ α n) :
    (s.wentBack value x e).iterate.x = x :=
  (s.setAll_shifts value (e.rig.track.setX x)).x

theorem Hands.atLast {trace : List (s.Attempt (Journal δ α) n)}
    (h : Hands k log e trace e'.succeeded) : AtLast k (captures k trace ++ log) e'.succeeded :=
  h.recorded.point (Rig.handedOver_captured e'.rig)

/-- Attempts from the last accepted solution on.  If they do not stop they end at the last
capture. -/
theorem Course.hands {attempts : Nat} {step : α} {x : Vector α n} {report : ContinuationReport α}
    {trace : List (s.Attempt (Journal δ α) n)}
    {result : EStateM.Result Stop (Engine (Journal δ α) α n) (ContinuationReport α)}
    (course : s.Course attempts step x report e trace result) (recorded : e.rig.Recorded k log)
    (forwarding : e.rig.track.overlay.forwarding = true) (here : e.iterate.x = x)
    (last : AtLast k log e) :
    Hands k log e trace (Step.left result) ∧ ∀ report' e', result = .ok report' e' →
      AtLast k (captures k trace ++ log) e' := by
  induction course generalizing log with
  | usedUp =>
    refine ⟨⟨recorded, forwarding, rfl, List.forall_mem_nil _⟩, fun report' e' same ↦ ?_⟩
    cases same
    exact last
  | stopped own solved =>
    exact ⟨Attempt.hands_stopped (own ▸ rfl) recorded forwarding solved,
      fun _ _ same ↦ by cases same⟩
  | arrived own solved converged there =>
    have hands := Attempt.hands_succeeded (own ▸ rfl) recorded forwarding solved converged
    refine ⟨hands, fun report' e' same ↦ ?_⟩
    cases same
    exact hands.atLast
  | onward own solved converged short course ih =>
    have hands := Attempt.hands_succeeded (own ▸ rfl) recorded forwarding solved converged
    obtain ⟨rest, ends⟩ := ih hands.recorded hands.forwarding rfl hands.atLast
    refine ⟨hands.cons rest, fun report' e' same ↦ ?_⟩
    have atLast := ends report' e' same
    rwa [← List.append_assoc] at atLast
  | givenUp own solved unconverged small =>
    have hands := Attempt.hands_failed (own ▸ rfl) recorded forwarding solved unconverged
    refine ⟨hands.wentBack _ _, fun report' e' same ↦ ?_⟩
    cases same
    rw [AtLast, Attempt.captures_failed solved unconverged, wentBack_x, ← here]
    exact last
  | @back _ _ x report _ _ e' _ _ a own solved unconverged large course ih =>
    have hands := (Attempt.hands_failed (own ▸ rfl) recorded forwarding solved unconverged).wentBack
      report.value x
    have atLast : AtLast k (captures k [a] ++ log) (s.wentBack report.value x e'.failed) := by
      rw [AtLast, Attempt.captures_failed solved unconverged, wentBack_x, ← here]
      exact last
    obtain ⟨rest, ends⟩ := ih hands.recorded hands.forwarding (wentBack_x ..) atLast
    refine ⟨hands.cons rest, fun report' e' same ↦ ?_⟩
    have atLast := ends report' e' same
    rwa [← List.append_assoc] at atLast

/-- A whole run.  If it accepts a point and does not stop, it ends at the last capture. -/
theorem run_hands (s : Stepper α) (e : Engine (Journal δ α) α n) (recorded : e.rig.Recorded k log) :
    Hands k log (forwarding e) (s.attempts e) (Step.left (s.run e)) ∧
      ∀ report e', s.run e = .ok report e' → 0 < report.accepted →
        AtLast k (captures k (s.attempts e) ++ log) e' := by
  have started : (forwarding e).rig.Recorded k log :=
    recorded.silent (.shift recorded.rest (e.rig.track.setForwarding_shifts true))
  have on : (forwarding e).rig.track.overlay.forwarding = true := by
    show (e.rig.track.setForwarding true).overlay.forwarding = true
    rw [Track.setForwarding_overlay]
  have opening := s.opening e
  generalize s.attempts e = trace, s.run e = result at opening ⊢
  cases opening with
  | stopped own solved =>
    exact ⟨Attempt.hands_stopped (own ▸ rfl) started on solved, fun _ _ same ↦ by cases same⟩
  | unsolved own solved unconverged =>
    refine ⟨Attempt.hands_failed (own ▸ rfl) started on solved unconverged,
      fun report e' same some ↦ ?_⟩
    cases same
    cases some
  | arrived own solved converged there =>
    have hands := Attempt.hands_succeeded (own ▸ rfl) started on solved converged
    refine ⟨hands, fun report e' same _ ↦ ?_⟩
    cases same
    exact hands.atLast
  | onward own solved converged short course =>
    have hands := Attempt.hands_succeeded (own ▸ rfl) started on solved converged
    obtain ⟨rest, ends⟩ := course.hands hands.recorded hands.forwarding rfl hands.atLast
    refine ⟨hands.cons rest, fun report e' same _ ↦ ?_⟩
    have atLast := ends report e' same
    rwa [← List.append_assoc] at atLast

/-- Where attempts come to the end of the way, the point has been handed over. -/
theorem Course.captured {e e' : Engine δ α n} {attempts : Nat} {step : α} {x : Vector α n}
    {report report' : ContinuationReport α} {trace : List (s.Attempt δ n)}
    (course : s.Course attempts step x report e trace (.ok report' e'))
    (finished : report'.finished = true) :
    e'.rig.track.captured = some e'.rig.track.iterate.generation := by
  generalize same : EStateM.Result.ok report' e' = result at course
  induction course with
  | usedUp => cases same; cases finished
  | stopped => cases same
  | @arrived _ _ _ _ _ _ left =>
    cases same
    exact Rig.handedOver_captured left.rig
  | onward _ _ _ _ _ ih => exact ih same
  | givenUp => cases same; cases finished
  | back _ _ _ _ _ ih => exact ih same

/-- Where a run comes to the end of its way, the point has been handed over. -/
theorem run_captured {e e' : Engine δ α n} {report : ContinuationReport α}
    (run : s.run e = .ok report e') (finished : report.finished = true) :
    e'.rig.track.captured = some e'.rig.track.iterate.generation := by
  have opening := s.opening e
  rw [run] at opening
  generalize s.attempts e = trace at opening
  cases opening with
  | unsolved => cases finished
  | @arrived _ _ left => exact Rig.handedOver_captured left.rig
  | onward _ _ _ _ course => exact course.captured finished

end Stepper

/-! ## Benches -/

omit [Device δ α] in
theorem Rig.track_of_captures {r : Rig δ α n} {k : Nat} :
    ∀ entry ∈ r.captures k, entry.1 = k := by
  intro entry mem
  obtain ⟨c, -, same⟩ := List.mem_map.1 mem
  exact same ▸ rfl

theorem Stepper.track_of_captures {s : Stepper α} {k : Nat} (trace : List (s.Attempt δ n)) :
    ∀ entry ∈ captures k trace, entry.1 = k := by
  induction trace with
  | nil => exact List.forall_mem_nil _
  | cons a trace ih =>
    rw [captures, List.forall_mem_append]
    refine ⟨ih, ?_⟩
    unfold Attempt.captures
    split
    · exact Rig.track_of_captures
    · exact List.forall_mem_nil _

namespace Bench

/-- The captures that a command comes to. -/
def capturesOf {β : Type} (b : Bench δ α n) : Command α n β → CaptureLog α
  | .succeed k => b.tracks[k]?.join.elim [] fun t ↦ Rig.captures k ⟨b.store, t⟩
  | .step k s => b.tracks[k]?.join.elim [] fun t ↦ Stepper.captures k (s.attempts (b.engine t))
  | _ => []

/-- The captures of a history. -/
def captures (b : Bench δ α n) : List (Request α n) → CaptureLog α
  | [] => []
  | request :: rest => captures (Step.after (perform request.2) b) rest ++ b.capturesOf request.2

/-- A bench whose log is right. -/
structure Recorded (log : CaptureLog α) (b : Bench (Journal δ α) α n) : Prop where
  rest : b.AtRest
  increasing : log.Increasing
  accepted : b.store.device.accepted = log.points
  born : ∀ entry ∈ log, entry.1 < b.tracks.size
  tracks : ∀ k t, b.Live k t → Rig.Recorded k log ⟨b.store, t⟩

namespace Recorded

variable {b : Bench (Journal δ α) α n} {log : CaptureLog α} {k : Nat} {t : Track α n}

omit [Device δ α] in
/-- A track does something, and its own captures continue the log. -/
theorem withEngine (h : b.Recorded log) (live : b.Live k t) (own : CaptureLog α)
    (track : ∀ entry ∈ own, entry.1 = k) {e : Engine (Journal δ α) α n}
    (recorded : e.rig.Recorded k (own ++ log)) : (b.withEngine k e).Recorded (own ++ log) where
  rest := h.rest.withEngine recorded.rest
  increasing := recorded.increasing
  accepted := recorded.accepted
  born := by
    have size : (b.withEngine k e).tracks.size = b.tracks.size := Array.size_setIfInBounds
    rw [size, List.forall_mem_append]
    refine ⟨fun entry mem ↦ ?_, h.born⟩
    rw [track entry mem]
    exact live.lt
  tracks k' t' live' := by
    rcases live_replace live' with ⟨rfl, same⟩ | ⟨other, old⟩
    · cases same
      exact recorded
    · exact (h.tracks k' t' old).spared recorded.rest.paired recorded.increasing recorded.accepted
        (CaptureLog.last_append_other track other)

omit [Device δ α] in
/-- A track comes up that has captured nothing. -/
theorem push (h : b.Recorded log) {s : Store (Journal δ α) α n} (paired : s.Paired)
    (device : s.device = b.store.device) (rests : t.iterate.Rests) (captured : t.captured = none) :
    Recorded log { b with store := s, tracks := b.tracks.push (some t) } where
  rest := h.rest.push paired rests
  increasing := h.increasing
  accepted := device ▸ h.accepted
  born entry mem := by
    rw [Array.size_push]
    exact Nat.lt_succ_of_lt (h.born entry mem)
  tracks k' t' live := by
    have accepted : s.device.accepted = log.points := device ▸ h.accepted
    rcases live_push live with ⟨rfl, rfl⟩ | old
    · refine .of_none ⟨paired, rests⟩ h.increasing accepted captured ?_
      exact CaptureLog.last_eq_none fun entry mem ↦ Nat.ne_of_lt (h.born entry mem)
    · exact (h.tracks k' t' old).spared paired h.increasing accepted rfl

end Recorded

variable {b : Bench (Journal δ α) α n} {log : CaptureLog α} {k : Nat} {t : Track α n}

theorem hosts_recorded (log : CaptureLog α) :
    Hosts (fun _ ↦ True) Rig.KeepsQuiet (Recorded (δ := δ) (n := n) log) where
  track h k t _ live := ⟨_, .refl (h.rest.rig live), Rig.keepsQuiet_silent _, fun e silent ↦
    h.withEngine live [] (List.forall_mem_nil _) ((h.tracks k t live).silent silent)⟩
  beside h _ _ := ⟨⟨h.rest.paired, h.rest.tracks⟩, h.increasing, h.accepted, h.born, h.tracks⟩
  add h x overlay _ := h.push h.rest.paired rfl (.of_fresh rfl) rfl
  copy {b} h {k t} live := h.push (Store.Paired.transfer (s := b.store.register.2) h.rest.paired _)
    rfl ⟨(h.rest.tracks k t live).residual, (h.rest.tracks k t live).jacobian⟩ rfl
  retire {b} h {k t} live := by
    have rest := h.rest.retire k t.iterate.id
    refine ⟨rest, h.increasing, h.accepted, fun entry mem ↦ ?_, fun k' t' live ↦ ?_⟩
    · exact Array.size_setIfInBounds.symm ▸ h.born entry mem
    · exact (h.tracks k' t' (live_of_retired live).2).spared rest.paired h.increasing h.accepted rfl
  setPrevious h x := ⟨⟨.setPrevious x, h.rest.tracks⟩, h.increasing, h.accepted, h.born,
    fun k t live ↦ (h.tracks k t live).spared (.setPrevious x) h.increasing h.accepted rfl⟩

omit [Device δ α] in
theorem join_of_live (live : b.Live k t) : b.tracks[k]?.join = some t :=
  Option.join_eq_some_iff.2 live

omit [Device δ α] in
theorem join_of_dead (dead : ∀ t, ¬ b.Live k t) : b.tracks[k]?.join = none :=
  Option.eq_none_iff_forall_ne_some.2 fun t live ↦ dead t (Option.join_eq_some_iff.1 live)

/-- After a command the log is right if it is continued by the captures that the command came to. -/
theorem recorded_perform {β : Type} (h : b.Recorded log) (c : Command α n β) :
    Ends (perform c) b (fun _ b' ↦ b'.Recorded (b.capturesOf c ++ log))
      (fun _ b' ↦ b'.Recorded (b.capturesOf c ++ log)) := by
  cases c with
  | succeed k =>
    rw [capturesOf]
    refine ends_onRig (fun t live ↦ ?_) fun dead ↦ ?_
    · rw [join_of_live live, ends_of_ok (Rig.succeed_eq _)]
      exact h.withEngine live _ Rig.track_of_captures (h.tracks k t live).handedOver
    · rw [join_of_dead dead]
      exact h
  | step k s =>
    rw [capturesOf]
    refine ends_onEngine (fun t live ↦ ?_) fun dead ↦ ?_
    · rw [join_of_live live]
      have hands := (Stepper.run_hands s (b.engine t) (h.tracks k t live)).1
      exact .of_left (P := fun e ↦ (b.withEngine k e).Recorded _)
        (h.withEngine live _ (Stepper.track_of_captures _) hands.recorded)
    · rw [join_of_dead dead]
      exact h
  | _ => exact (hosts_recorded log).preserves_quiet id _ (fun _ _ ↦ trivial) rfl b h

/-- The log of a history is right where the history leads. -/
theorem recorded_run (h : b.Recorded log) (history : List (Request α n)) :
    (b.run history).Recorded (b.captures history ++ log) := by
  induction history generalizing b log with
  | nil => exact h
  | cons request rest ih =>
    rw [captures, List.append_assoc]
    exact ih (recorded_perform h request.2).after

/-- The captures of two histories in a row. -/
theorem captures_append (b : Bench δ α n) (first later : List (Request α n)) :
    b.captures (first ++ later) = (b.run first).captures later ++ b.captures first := by
  induction first generalizing b with
  | nil => exact (List.append_nil _).symm
  | cons request rest ih =>
    rw [List.cons_append, captures, ih, captures, List.append_assoc]
    rfl

omit [Device δ α] in
theorem recorded_empty (device : Journal δ α) (fresh : device.accepted = [])
    (communicator : Communicator α) (linear : LinearOptions α) (newton : Newton α) :
    (empty device communicator linear newton n).Recorded [] where
  rest := empty_rests device communicator linear newton
  increasing := .nil
  accepted := fresh
  born := List.forall_mem_nil _
  tracks k t live := by cases live

/-- What the device layer is told in the course of a run of a stepper: the points at which an
attempt has found a solution, unless they have been handed over already, with the values of that
attempt in force; and that a point is given up, for each attempt that has ended without a
solution. -/
structure Tells (k : Nat) (s : Stepper α) (t : Track α n) (b b' : Bench (Journal δ α) α n) :
    Prop where
  inForce : ∀ a ∈ s.attempts (b.engine t), a.InForce
  accepted : b'.store.device.accepted =
    (Stepper.captures k (s.attempts (b.engine t))).points ++ b.store.device.accepted
  abandoned : b'.store.device.abandoned =
    b.store.device.abandoned + (s.attempts (b.engine t)).countP Stepper.Attempt.unconverged

/-- A run of a stepper on a bench.  If it accepts a point and does not stop, the track ends at its
last capture. -/
theorem step_tells (h : b.Recorded log) (live : b.Live k t) (s : Stepper α) :
    Ends (perform (.step k s)) b
      (fun report b' ↦ Tells k s t b b' ∧ (0 < report.accepted → ∃ t', b'.Live k t' ∧
        ((b.capturesOf (.step k s) ++ log).last k).map Capture.point = some t'.x.toArray))
      (fun _ b' ↦ Tells k s t b b') := by
  refine ends_onEngine (fun t' live' ↦ ?_) fun dead ↦ absurd live (dead t)
  obtain rfl := live.unique live'
  obtain ⟨hands, atLast⟩ := Stepper.run_hands s (b.engine t') (h.tracks k t' live)
  rw [capturesOf, join_of_live live]
  have tells : ∀ {e : Engine (Journal δ α) α n}, Stepper.Hands k log
      (Stepper.forwarding (b.engine t')) (s.attempts (b.engine t')) e →
      Tells k s t' b (b.withEngine k e) := by
    intro e hands
    refine ⟨hands.inForce, hands.recorded.accepted.trans ?_, hands.abandoned⟩
    rw [h.accepted]
    exact List.map_append
  refine .of_result (R := fun result ↦ s.run (b.engine t') = result) rfl (fun report e run ↦ ?_)
    fun stop e run ↦ ?_
  · rw [run] at hands
    exact ⟨tells hands, fun some ↦ ⟨_, live_withEngine live e, atLast report e run some⟩⟩
  · rw [run] at hands
    exact tells hands

end Bench

end OperatingPoint

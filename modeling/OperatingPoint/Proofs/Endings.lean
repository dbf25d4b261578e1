import OperatingPoint.Step

/-!
# How a step ends

A step comes to its end with an answer, or it stops; either way it leaves a state.  `Step.Ends`
says of a step at a state what holds in each of the two cases.  There is one equivalence for each
way to build a step, so that a claim about a step is taken apart along its text, and `Ends.mono`
and `Ends.and` put claims about the same step together.

Since a state is left however a step ends, the state after a step is a function, `Step.after`; and
`Step.value` is what is handed back.
-/

set_option autoImplicit false

namespace OperatingPoint

namespace Step

variable {σ τ β γ : Type}

/-- A step at `s` either comes to its end, and then `done` holds of the answer and the state, or it
stops, and then `stopped` holds of why and of the state. -/
def Ends (act : Step σ β) (s : σ) (done : β → σ → Prop) (stopped : Stop → σ → Prop) : Prop :=
  match act s with
  | .ok b t => done b t
  | .error e t => stopped e t

/-- The state that a step leaves, however it ends. -/
def after (act : Step σ β) (s : σ) : σ :=
  match act s with
  | .ok _ t => t
  | .error _ t => t

/-- What a step hands back, without the state. -/
def value (act : Step σ β) (s : σ) : Except Stop β :=
  match act s with
  | .ok b _ => .ok b
  | .error e _ => .error e

variable {s : σ} {done done' : β → σ → Prop} {stopped stopped' : Stop → σ → Prop}

instance Ends.instDecidable {act : Step σ β} [∀ b t, Decidable (done b t)]
    [∀ e t, Decidable (stopped e t)] : Decidable (Ends act s done stopped) :=
  show Decidable (match act s with | .ok b t => done b t | .error e t => stopped e t) from
    match act s with
    | .ok b t => inferInstanceAs (Decidable (done b t))
    | .error e t => inferInstanceAs (Decidable (stopped e t))

theorem Ends.ok {act : Step σ β} (h : Ends act s done stopped) {b : β} {t : σ}
    (hr : act s = .ok b t) : done b t := by
  rw [Ends, hr] at h
  exact h

theorem Ends.error {act : Step σ β} (h : Ends act s done stopped) {e : Stop} {t : σ}
    (hr : act s = .error e t) : stopped e t := by
  rw [Ends, hr] at h
  exact h

/-- How a step ends is said for the case that it comes to its end and for the case that it stops. -/
theorem Ends.intro {act : Step σ β} (hd : ∀ b t, act s = .ok b t → done b t)
    (hs : ∀ e t, act s = .error e t → stopped e t) : Ends act s done stopped := by
  unfold Ends
  cases hr : act s with
  | ok b t => exact hd b t hr
  | error e t => exact hs e t hr

theorem Ends.mono {act : Step σ β} (h : Ends act s done stopped)
    (hd : ∀ b t, done b t → done' b t) (hs : ∀ e t, stopped e t → stopped' e t) :
    Ends act s done' stopped' :=
  .intro (fun b t hr ↦ hd b t (h.ok hr)) fun e t hr ↦ hs e t (h.error hr)

/-- A step that does not end stops. -/
theorem Ends.exists {act : Step σ β} (h : Ends act s (fun _ _ ↦ False) stopped) :
    ∃ e t, act s = .error e t ∧ stopped e t := by
  cases hr : act s with
  | ok b t => exact (h.ok hr).elim
  | error e t => exact ⟨e, t, rfl, h.error hr⟩

/-- A step that does not stop comes to its end. -/
theorem Ends.exists_ok {act : Step σ β} (h : Ends act s done (fun _ _ ↦ False)) :
    ∃ b t, act s = .ok b t ∧ done b t := by
  cases hr : act s with
  | ok b t => exact ⟨b, t, rfl, h.ok hr⟩
  | error e t => exact (h.error hr).elim

theorem Ends.congr {act : Step σ β} (hd : ∀ b t, done b t ↔ done' b t) :
    Ends act s done stopped ↔ Ends act s done' stopped :=
  ⟨fun h ↦ h.mono (fun b t ↦ (hd b t).1) fun _ _ hs ↦ hs,
    fun h ↦ h.mono (fun b t ↦ (hd b t).2) fun _ _ hs ↦ hs⟩

/-- What is said of the end and of the stop in two ways holds together. -/
theorem Ends.and {act : Step σ β} (h : Ends act s done stopped) (h' : Ends act s done' stopped') :
    Ends act s (fun b t ↦ done b t ∧ done' b t) (fun e t ↦ stopped e t ∧ stopped' e t) :=
  .intro (fun _ _ hr ↦ ⟨h.ok hr, h'.ok hr⟩) fun _ _ hr ↦ ⟨h.error hr, h'.error hr⟩

/-- What follows from what is known of the end. -/
theorem Ends.mp {act : Step σ β} (h : Ends act s done stopped)
    (h' : Ends act s (fun b t ↦ done b t → done' b t) (fun e t ↦ stopped e t → stopped' e t)) :
    Ends act s done' stopped' :=
  (h.and h').mono (fun _ _ both ↦ both.2 both.1) fun _ _ both ↦ both.2 both.1

theorem Ends.trivial (act : Step σ β) (s : σ) : Ends act s (fun _ _ ↦ True) (fun _ _ ↦ True) :=
  .intro (fun _ _ _ ↦ True.intro) fun _ _ _ ↦ True.intro

/-- What is said of the end for each of many reasons holds for all of them. -/
theorem Ends.forall {ι : Sort _} {act : Step σ β} {done : ι → β → σ → Prop}
    {stopped : ι → Stop → σ → Prop} (h : ∀ i, Ends act s (done i) (stopped i)) :
    Ends act s (fun b t ↦ ∀ i, done i b t) (fun e t ↦ ∀ i, stopped i e t) :=
  .intro (fun _ _ hr i ↦ (h i).ok hr) fun _ _ hr i ↦ (h i).error hr

/-- What holds of the state in both cases holds of the state that is left. -/
theorem Ends.after {act : Step σ β} {left : σ → Prop}
    (h : Ends act s (fun _ t ↦ left t) (fun _ t ↦ left t)) : left (after act s) := by
  unfold Step.after
  cases hr : act s with
  | ok b t => exact h.ok hr
  | error e t => exact h.error hr

/-- What holds of the state in each of the two cases holds of what is left and handed back. -/
theorem Ends.isOk_after {act : Step σ β} (left : Bool → σ → Prop)
    (h : Ends act s (fun _ t ↦ left true t) (fun _ t ↦ left false t)) :
    left (value act s).isOk (Step.after act s) := by
  unfold value Step.after
  cases hr : act s with
  | ok b t => exact h.ok hr
  | error e t => exact h.error hr

theorem value_eq_ok_iff {act : Step σ β} {b : β} :
    value act s = .ok b ↔ Ends act s (fun b' _ ↦ b' = b) (fun _ _ ↦ False) := by
  unfold value Ends
  cases act s with
  | ok b' t => simp
  | error e t => simp

theorem ends_of_ok {act : Step σ β} {b : β} {t : σ} (hr : act s = .ok b t) :
    Ends act s done stopped ↔ done b t := by
  rw [Ends, hr]

theorem ends_of_error {act : Step σ β} {e : Stop} {t : σ} (hr : act s = .error e t) :
    Ends act s done stopped ↔ stopped e t := by
  rw [Ends, hr]

/-- A description of results describes how a step ends. -/
theorem Ends.of_result {act : Step σ β} {R : EStateM.Result Stop σ β → Prop}
    (h : R (act s)) (hd : ∀ b t, R (.ok b t) → done b t)
    (hs : ∀ e t, R (.error e t) → stopped e t) : Ends act s done stopped :=
  .intro (fun b t hr ↦ hd b t (hr ▸ h)) fun e t hr ↦ hs e t (hr ▸ h)

theorem Ends.result {act : Step σ β} {R : EStateM.Result Stop σ β → Prop}
    (h : Ends act s (fun b t ↦ R (.ok b t)) (fun e t ↦ R (.error e t))) : R (act s) := by
  cases hr : act s with
  | ok b t => exact h.ok hr
  | error e t => exact h.error hr

/-! ## One step after another -/

theorem get_bind {next : σ → Step σ β} : (get >>= next) s = next s s := rfl

theorem bind_of_ok {act : Step σ γ} {next : γ → Step σ β} {c : γ} {t : σ} (h : act s = .ok c t) :
    (act >>= next) s = next c t := by
  show EStateM.bind act next s = next c t
  rw [EStateM.bind, h]

theorem bind_of_error {act : Step σ γ} {next : γ → Step σ β} {e : Stop} {t : σ}
    (h : act s = .error e t) : (act >>= next) s = .error e t := by
  show EStateM.bind act next s = .error e t
  rw [EStateM.bind, h]

/-- Steps that come to the same do so before another step. -/
theorem bind_congr_at {act act' : Step σ γ} {next : γ → Step σ β} {t : σ} (h : act s = act' t) :
    (act >>= next) s = (act' >>= next) t := by
  show EStateM.bind act next s = EStateM.bind act' next t
  rw [EStateM.bind, EStateM.bind, h]

/-! ## One equivalence for each way to build a step -/

@[simp] theorem ends_pure {b : β} : Ends (pure b : Step σ β) s done stopped ↔ done b s := Iff.rfl

@[simp] theorem ends_bind {act : Step σ γ} {next : γ → Step σ β} :
    Ends (act >>= next) s done stopped ↔
      Ends act s (fun c t ↦ Ends (next c) t done stopped) stopped := by
  unfold Ends
  show (match (EStateM.bind act next) s with
    | .ok b t => done b t
    | .error e t => stopped e t) ↔ _
  unfold EStateM.bind
  cases act s <;> rfl

@[simp] theorem ends_map {act : Step σ γ} {f : γ → β} :
    Ends (f <$> act) s done stopped ↔ Ends act s (fun c t ↦ done (f c) t) stopped := by
  unfold Ends
  show (match (EStateM.map f act) s with
    | .ok b t => done b t
    | .error e t => stopped e t) ↔ _
  unfold EStateM.map
  cases act s <;> rfl

@[simp] theorem ends_get {done : σ → σ → Prop} :
    Ends (get : Step σ σ) s done stopped ↔ done s s := Iff.rfl

@[simp] theorem ends_set {t : σ} {done : PUnit → σ → Prop} :
    Ends (set t : Step σ PUnit) s done stopped ↔ done ⟨⟩ t := Iff.rfl

@[simp] theorem ends_modify {f : σ → σ} {done : PUnit → σ → Prop} :
    Ends (modify f : Step σ PUnit) s done stopped ↔ done ⟨⟩ (f s) := Iff.rfl

@[simp] theorem ends_modifyGet {f : σ → β × σ} :
    Ends (modifyGet f : Step σ β) s done stopped ↔ done (f s).1 (f s).2 := Iff.rfl

@[simp] theorem ends_throw {e : Stop} :
    Ends (throw e : Step σ β) s done stopped ↔ stopped e s := Iff.rfl

@[simp] theorem ends_fault {cause : Fault} :
    Ends (fault cause : Step σ β) s done stopped ↔ stopped (.fault cause) s := Iff.rfl

theorem ends_lift {r : Except Stop β} :
    Ends (lift r : Step σ β) s done stopped ↔
      (∀ b, r = .ok b → done b s) ∧ ∀ e, r = .error e → stopped e s := by
  cases r with
  | ok b => simp [lift]
  | error e => simp [lift]

theorem ends_orFault {r : Except Fault β} :
    Ends (orFault r : Step σ β) s done stopped ↔
      (∀ b, r = .ok b → done b s) ∧ ∀ cause, r = .error cause → stopped (.fault cause) s := by
  cases r with
  | ok b => simp [orFault]
  | error cause => simp [orFault]

@[simp] theorem ends_lift_ok {b : β} :
    Ends (lift (.ok b) : Step σ β) s done stopped ↔ done b s := Iff.rfl

@[simp] theorem ends_lift_error {e : Stop} :
    Ends (lift (.error e) : Step σ β) s done stopped ↔ stopped e s := Iff.rfl

@[simp] theorem ends_orFault_ok {b : β} :
    Ends (orFault (.ok b) : Step σ β) s done stopped ↔ done b s := Iff.rfl

@[simp] theorem ends_orFault_error {cause : Fault} :
    Ends (orFault (.error cause) : Step σ β) s done stopped ↔ stopped (.fault cause) s := Iff.rfl

@[simp] theorem ends_attempt {act : Step σ γ} {done : Except Stop γ → σ → Prop} :
    Ends (attempt act) s done stopped ↔
      Ends act s (fun c t ↦ done (.ok c) t) (fun e t ↦ done (.error e) t) := by
  unfold Ends attempt
  cases act s <;> rfl

@[simp] theorem ends_zoom {part : σ → τ} {put : σ → τ → σ} {act : Step τ β} :
    Ends (zoom part put act) s done stopped ↔
      Ends act (part s) (fun b t ↦ done b (put s t)) (fun e t ↦ stopped e (put s t)) := by
  unfold Ends zoom
  cases act (part s) <;> rfl

@[simp] theorem ends_ite {c : Prop} [Decidable c] {act act' : Step σ β} :
    Ends (if c then act else act') s done stopped ↔
      (c → Ends act s done stopped) ∧ (¬ c → Ends act' s done stopped) := by
  split <;> simp [*]

@[simp] theorem ends_dite {c : Prop} [Decidable c] {act : c → Step σ β} {act' : ¬ c → Step σ β} :
    Ends (if h : c then act h else act' h) s done stopped ↔
      (∀ h, Ends (act h) s done stopped) ∧ ∀ h, Ends (act' h) s done stopped := by
  split <;> simp [*]

/-! ## What a step keeps -/

/-- A step that keeps a property of states, however it ends. -/
def Preserves (act : Step σ β) (I : σ → Prop) : Prop :=
  ∀ s, I s → Ends act s (fun _ t ↦ I t) (fun _ t ↦ I t)

namespace Preserves

variable {I : σ → Prop}

theorem pure (b : β) : Preserves (pure b : Step σ β) I := fun _ h ↦ h

theorem get : Preserves (get : Step σ σ) I := fun _ h ↦ h

theorem modify {f : σ → σ} (h : ∀ s, I s → I (f s)) : Preserves (modify f : Step σ PUnit) I := h

theorem throw (e : Stop) : Preserves (throw e : Step σ β) I := fun _ h ↦ h

theorem lift (r : Except Stop β) : Preserves (lift r : Step σ β) I := fun _ h ↦
  ends_lift.2 ⟨fun _ _ ↦ h, fun _ _ ↦ h⟩

theorem orFault (r : Except Fault β) : Preserves (orFault r : Step σ β) I := fun _ h ↦
  ends_orFault.2 ⟨fun _ _ ↦ h, fun _ _ ↦ h⟩

theorem bind {act : Step σ γ} {next : γ → Step σ β} (h : Preserves act I)
    (h' : ∀ c, Preserves (next c) I) : Preserves (act >>= next) I := fun s hs ↦
  ends_bind.2 ((h s hs).mono (fun c t ht ↦ h' c t ht) fun _ _ ht ↦ ht)

theorem ite {c : Prop} [Decidable c] {act act' : Step σ β} (h : Preserves act I)
    (h' : Preserves act' I) : Preserves (if c then act else act') I := by
  split
  · exact h
  · exact h'

theorem attempt {act : Step σ β} (h : Preserves act I) : Preserves (attempt act) I := fun s hs ↦
  ends_attempt.2 (h s hs)

theorem zoom {part : σ → τ} {put : σ → τ → σ} {act : Step τ β} {J : τ → Prop}
    (h : Preserves act J) (enter : ∀ s, I s → J (part s))
    (leave : ∀ s t, I s → J t → I (put s t)) : Preserves (zoom part put act) I := fun s hs ↦
  ends_zoom.2 ((h _ (enter s hs)).mono (fun _ t ht ↦ leave s t hs ht)
    fun _ t ht ↦ leave s t hs ht)

end Preserves

end Step

/-! ## Results -/

theorem bind_eq_ok {ε β γ : Type} {x : Except ε β} {f : β → Except ε γ} {c : γ} :
    (x >>= f) = .ok c ↔ ∃ b, x = .ok b ∧ f b = .ok c := by
  cases x with
  | ok b => exact ⟨fun h ↦ ⟨b, rfl, h⟩, fun ⟨b', same, h⟩ ↦ by cases same; exact h⟩
  | error e => exact ⟨nofun, fun ⟨_, same, _⟩ ↦ by cases same⟩

theorem map_eq_ok {ε β γ : Type} {x : Except ε β} {f : β → γ} {c : γ} :
    x.map f = .ok c ↔ ∃ b, x = .ok b ∧ f b = c := by
  cases x with
  | ok b =>
    exact ⟨fun h ↦ ⟨b, rfl, Except.ok.inj h⟩, fun ⟨_, same, h⟩ ↦ by cases same; exact congrArg _ h⟩
  | error e => exact ⟨nofun, fun ⟨_, same, _⟩ ↦ by cases same⟩

/-- A result that is there, and of which `p` holds. -/
def Yields {ε β : Type} (r : Except ε β) (p : β → Prop) : Prop :=
  match r with
  | .ok b => p b
  | .error _ => False

instance Yields.instDecidable {ε β : Type} {r : Except ε β} {p : β → Prop}
    [∀ b, Decidable (p b)] : Decidable (Yields r p) :=
  match r with
  | .ok b => inferInstanceAs (Decidable (p b))
  | .error _ => inferInstanceAs (Decidable False)

theorem Yields.exists {ε β : Type} {r : Except ε β} {p : β → Prop} (h : Yields r p) :
    ∃ b, r = .ok b ∧ p b := by
  cases r with
  | ok b => exact ⟨b, rfl, h⟩
  | error e => exact h.elim

/-- If a result is an error, then `Q` holds of it. -/
def StopsOnly {ε : Type} (Q : ε → Prop) {β : Type} (r : Except ε β) : Prop :=
  ∀ e, r = .error e → Q e

namespace StopsOnly

variable {ε β γ : Type} {Q : ε → Prop}

theorem ok (b : β) : StopsOnly Q (.ok b) := by
  intro e h
  cases h

theorem error {e : ε} (h : Q e) : StopsOnly Q (.error e : Except ε β) := by
  intro e' same
  cases same
  exact h

theorem bind {x : Except ε β} {f : β → Except ε γ} (hx : StopsOnly Q x)
    (hf : ∀ b, x = .ok b → StopsOnly Q (f b)) : StopsOnly Q (x >>= f) := by
  cases x with
  | ok b => exact hf b rfl
  | error e =>
    intro e' h
    cases h
    exact hx e rfl

theorem map {x : Except ε β} (hx : StopsOnly Q x) (f : β → γ) : StopsOnly Q (x.map f) := by
  cases x with
  | ok b => exact ok (f b)
  | error e => exact error (hx e rfl)

theorem foldlM {f : γ → β → Except ε γ} {l : List β} (h : ∀ b ∈ l, ∀ c, StopsOnly Q (f c b))
    (c : γ) : StopsOnly Q (l.foldlM f c) := by
  induction l generalizing c with
  | nil => exact ok c
  | cons b rest ih =>
    rw [List.forall_mem_cons] at h
    rw [List.foldlM_cons]
    exact bind (h.1 c) fun c' _ ↦ ih h.2 c'

theorem mapM {f : β → Except ε γ} {l : List β} (h : ∀ b ∈ l, StopsOnly Q (f b)) :
    StopsOnly Q (l.mapM f) := by
  induction l with
  | nil => exact ok []
  | cons b rest ih =>
    rw [List.forall_mem_cons] at h
    rw [List.mapM_cons]
    exact bind h.1 fun _ _ ↦ bind (ih h.2) fun _ _ ↦ ok _

/-- A fault is a stop for that fault. -/
theorem ofFault {Q : Stop → Prop} {x : Except Fault β}
    (h : StopsOnly (fun cause ↦ Q (.fault cause)) x) : StopsOnly Q (Stop.ofFault x) := by
  cases x with
  | ok b => exact ok b
  | error cause => exact error (h cause rfl)

end StopsOnly

/-! ## What a step keeps, and why it stops -/

namespace Step

variable {σ β γ : Type}

/-- A step that keeps a property of states, however it ends, and stops for no other reason than
those of `Q`. -/
def Guards (act : Step σ β) (I : σ → Prop) (Q : Stop → Prop) : Prop :=
  ∀ s, I s → Ends act s (fun _ t ↦ I t) (fun e t ↦ Q e ∧ I t)

namespace Guards

variable {I : σ → Prop} {Q : Stop → Prop}

theorem preserves {act : Step σ β} (h : Guards act I Q) : Preserves act I :=
  fun s hs ↦ (h s hs).mono (fun _ _ kept ↦ kept) fun _ _ kept ↦ kept.2

theorem pure (b : β) : Guards (pure b : Step σ β) I Q := fun _ h ↦ h

theorem get : Guards (get : Step σ σ) I Q := fun _ h ↦ h

theorem set {t : σ} (h : I t) : Guards (set t : Step σ PUnit) I Q := fun _ _ ↦ h

theorem throw {e : Stop} (h : Q e) : Guards (throw e : Step σ β) I Q := fun _ hs ↦ ⟨h, hs⟩

theorem orFault {r : Except Fault β} (h : StopsOnly (fun cause ↦ Q (.fault cause)) r) :
    Guards (orFault r : Step σ β) I Q :=
  fun _ hs ↦ ends_orFault.2 ⟨fun _ _ ↦ hs, fun cause same ↦ ⟨h cause same, hs⟩⟩

theorem bind {act : Step σ γ} {next : γ → Step σ β} (h : Guards act I Q)
    (h' : ∀ c, Guards (next c) I Q) : Guards (act >>= next) I Q := fun s hs ↦
  ends_bind.2 ((h s hs).mono (fun c t ht ↦ h' c t ht) fun _ _ stopped ↦ stopped)

theorem ite {c : Prop} [Decidable c] {act act' : Step σ β} (h : Guards act I Q)
    (h' : Guards act' I Q) : Guards (if c then act else act') I Q := by
  split
  · exact h
  · exact h'

end Guards

end Step

end OperatingPoint

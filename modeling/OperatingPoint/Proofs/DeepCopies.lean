import OperatingPoint.Circuit
import OperatingPoint.Proofs.Actions
import OperatingPoint.Proofs.LoadOrder
import OperatingPoint.Proofs.RenamedBenches

/-!
# Deep copies of a track

A deep copy takes over everything that a track owns, under an identity of its own.  Whoever goes on
with the copy, and not with the track, sees what the track would have seen: the bench with the copy
is in step with a bench on which the track was never copied, the identity and the number of the
track being handed on to the copy and those that come later moving up by one.

The track itself may stay on the bench or go: it owns nothing any more, and its going changes
nothing.
-/

set_option autoImplicit false

namespace OperatingPoint

open Step

/-! ## A number that is handed on -/

/-- The numbers from `new` on move up by one, and `new` is what `old` becomes. -/
def handOn (old new i : Nat) : Nat :=
  if i = old then new else if i < new then i else i + 1

/-- What a number has come from. -/
def takeBack (old new j : Nat) : Nat :=
  if j = new then old else if j < new then j else j - 1

section

variable {old new : Nat}

theorem handOn_old (old new : Nat) : handOn old new old = new := if_pos rfl

theorem handOn_of_lt {i : Nat} (other : i ≠ old) (less : i < new) : handOn old new i = i := by
  unfold handOn
  rw [if_neg other, if_pos less]

/-- Nothing becomes the number that was handed on. -/
theorem handOn_ne (less : old < new) (i : Nat) : handOn old new i ≠ old := by
  unfold handOn
  grind

theorem makesWay_handOn (less : old < new) : MakesWay (handOn old new) new where
  injective {i j} same := by
    unfold handOn at same
    grind
  beyond i beyond := by
    unfold handOn
    grind

theorem handOn_takeBack (less : old < new) {j : Nat} (other : j ≠ old) :
    handOn old new (takeBack old new j) = j := by
  unfold handOn takeBack
  grind

/-- Where the numbers up to `new` are the only ones, they are what the others were. -/
theorem map_handOn (x : Option Nat) (known : ∀ i, x = some i → i < new) :
    x.map (handOn old new) = if x = some old then some new else x := by
  cases x with
  | none => rfl
  | some i =>
    rcases Nat.decEq i old with other | rfl
    · rw [if_neg (fun same ↦ other (Option.some.inj same))]
      exact congrArg some (handOn_of_lt other (known i rfl))
    · rw [if_pos rfl]
      exact congrArg some (handOn_old i new)

end

variable {δ α : Type} [Scalar α] [DirectSolver α] {n : Nat} {β : Type} {ρ σ : Nat → Nat}

/-! ## The store -/

/-- Owners are the same if every quantity has the same. -/
theorem Owners.eq_of_of {o o' : Owners} (same : ∀ q, o.of q = o'.of q) : o = o' := by
  cases o
  cases o'
  congr
  · exact same .residual
  · exact same .jacobian
  · exact same .newton
  · exact same .gradient
  · exact same .auxState

namespace Store

omit [Scalar α] in
/-- What is handed over in a copy: everything else stays as it was. -/
theorem transfer_register (s : Store δ α n) (id : OwnerId)
    (owners : ∀ q i, s.owners.of q = some i → i ≤ s.lastId)
    (factors : ∀ i, s.factorOwner = some i → i ≤ s.lastId) :
    s.register.2.transfer id s.register.1 = s.rename (handOn id (s.lastId + 1)) := by
  have moved : s.owners.putAll (s.ownedBy id) (some (s.lastId + 1)) =
      s.owners.map (handOn id (s.lastId + 1)) := by
    refine Owners.eq_of_of fun q ↦ ?_
    rw [Owners.of_putAll, Owners.of_map,
      map_handOn _ fun i owned ↦ Nat.lt_succ_of_le (owners q i owned)]
    simp only [Store.Spares.mem_ownedBy]
  have factors : s.factorOwner.map (handOn id (s.lastId + 1)) = _ :=
    map_handOn _ fun i owned ↦ Nat.lt_succ_of_le (factors i owned)
  unfold Store.rename
  rw [← moved, factors]
  rfl

omit [Scalar α] in
/-- Under other identities, one that is none of them releases nothing. -/
theorem release_rename (s : Store δ α n) {id : OwnerId} (unused : ∀ i, ρ i ≠ id) :
    (s.rename ρ).release id = s.rename ρ := by
  have unowned : ∀ x : Option Nat, x.map ρ ≠ some id := by
    rintro (_ | i) same
    · cases same
    · exact unused i (Option.some.inj same)
  have nothing : (s.rename ρ).ownedBy id = [] := by
    refine List.filter_eq_nil_iff.2 fun q _ owned ↦ unowned (s.owners.of q) ?_
    rw [← Owners.of_map]
    exact beq_iff_eq.1 owned
  have factors : (if (s.rename ρ).factorOwner = some id then none else (s.rename ρ).factorOwner) =
      (s.rename ρ).factorOwner := if_neg (unowned s.factorOwner)
  unfold Store.release
  rw [nothing, factors]
  rfl

end Store

/-! ## The bench -/

namespace Bench

omit [DirectSolver α] in
/-- What a command answers does not depend on the number of the track that it is for. -/
theorem Command.renumberAnswer_renumber (c : Command α n β) (τ σ : Nat → Nat) :
    (c.renumber τ).renumberAnswer σ = c.renumberAnswer σ := by
  cases c <;> rfl

/-- The bench with another note of what a track handed over. -/
def withNote (b : Bench δ α n) (k : Nat) (t : Track α n) (note : Option Nat) : Bench δ α n :=
  b.replace k (some { t with captured := note })

/-- The bench with a copy of a track. -/
def copied (b : Bench δ α n) (t : Track α n) : Bench δ α n :=
  { b with
    store := (t.deepClone b.store).2
    tracks := b.tracks.push (some (t.deepClone b.store).1) }

section

variable {b : Bench δ α n} {k : Nat} {t : Track α n}

theorem Known.store_copied (h : b.Known) (t : Track α n) :
    (b.copied t).store = b.store.rename (handOn t.iterate.id (b.store.lastId + 1)) :=
  b.store.transfer_register t.iterate.id h.registered.owners h.factors

theorem Known.id_lt (h : b.Known) (live : b.Live k t) : t.iterate.id < b.store.lastId + 1 :=
  Nat.lt_succ_of_le (h.registered.known k t live)

theorem Known.renamed_store (h : b.Known) (live : b.Live k t) :
    b.store.Renamed (handOn t.iterate.id (b.store.lastId + 1)) (b.copied t).store :=
  ⟨h.store_copied t, makesWay_handOn (h.id_lt live)⟩

/-- Replacing the note by itself changes nothing. -/
theorem withNote_captured (live : b.Live k t) : b.withNote k t t.captured = b := by
  have same : b.tracks.setIfInBounds k (some t) = b.tracks := by
    refine Array.ext_getElem? fun i ↦ ?_
    rw [Array.getElem?_setIfInBounds]
    split
    · rename_i here
      rw [if_pos live.lt, ← here]
      exact live.symm
    · rfl
  exact congrArg (fun tracks ↦ { b with tracks := tracks }) same

variable [Device δ α]

theorem perform_deepClone (live : b.Live k t) :
    perform (.deepClone k) b = .ok b.tracks.size (b.copied t) := by
  show (track k >>= fun t ↦ put t.deepClone) b = _
  rw [bind_of_ok (track_of_live live)]
  rfl

/-- A bench with a copy of a track is in step with the bench without it. -/
theorem Known.renamed_copied (h : b.Known) (live : b.Live k t) {note : Option Nat}
    (fits : (∀ g ∈ note, g < t.iterate.generation) ∨ Device.IgnoresAccepted δ) :
    Renamed (handOn t.iterate.id (b.store.lastId + 1)) (handOn k b.tracks.size)
      (b.withNote k t note) (b.copied t) where
  store := h.renamed_store live
  newton := rfl
  held := rfl
  size := by
    show (b.tracks.push _).size = (b.tracks.setIfInBounds _ _).size + 1
    rw [Array.size_push, Array.size_setIfInBounds]
  way := by
    show MakesWay _ (b.tracks.setIfInBounds _ _).size
    rw [Array.size_setIfInBounds]
    exact makesWay_handOn live.lt
  live {k₁ t₁} live₁ := by
    rcases live_replace live₁ with ⟨rfl, same⟩ | ⟨other, old⟩
    · cases same
      refine ⟨(t.deepClone b.store).1, ?_, h.renamed_store live, ?_, ?_⟩
      · rw [handOn_old]
        exact live_push_self ..
      · show _ = Track.under _ (handOn t.iterate.id _ t.iterate.id) none
        rw [handOn_old]
        rfl
      · rcases fits with past | ignored
        · exact .past past fun _ noted ↦ by cases noted
        · exact .ignored ignored
    · refine ⟨t₁, ?_, h.renamed_store live, ?_, .same rfl⟩
      · rw [handOn_of_lt other old.lt]
        exact live_push_of_live old ..
      · show t₁ = t₁.under (handOn t.iterate.id _ t₁.iterate.id) t₁.captured
        rw [handOn_of_lt (h.registered.ne live old other) (h.id_lt old)]
        rfl
  back {k₁ t₁'} live₁' := by
    rcases Nat.decEq k₁ k with other | rfl
    · rcases Nat.lt_or_ge k₁ b.tracks.size with less | beyond
      · rw [handOn_of_lt other less] at live₁'
        rcases live_push live₁' with ⟨rfl, _⟩ | old
        · exact absurd less (Nat.lt_irrefl _)
        · exact ⟨_, live_replace_of_ne old other _⟩
      · rw [(makesWay_handOn live.lt).beyond k₁ beyond] at live₁'
        rcases live_push live₁' with ⟨last, _⟩ | old
        · exact absurd (last ▸ Nat.lt_succ_of_le beyond) (Nat.lt_irrefl _)
        · exact absurd old.lt (Nat.not_lt_of_le (Nat.le_succ_of_le beyond))
    · exact ⟨_, Array.getElem?_setIfInBounds_self_of_lt live.lt⟩

end

/-! ## Without the original -/

variable [Device δ α]

/-- Whether a command is for another track, or for none, or lets the track go. -/
def Command.leavesAlone (k : Nat) : Command α n β → Bool
  | .retire _ => true
  | c => c.track? ≠ some k

omit [DirectSolver α] in
theorem Command.eq_retire {request : Request α n} {k : Nat}
    (leaves : request.2.leavesAlone k = true) (mine : request.2.track? = some k) :
    request = ⟨Unit, .retire k⟩ := by
  obtain ⟨β, c⟩ := request
  cases c with
  | retire j =>
    cases mine
    rfl
  | _ => exact absurd mine (of_decide_eq_true leaves)

/-- What a history comes to where a track was never copied: commands for the track, which can only
be to let it go, are left out, and the others are for the tracks as they are numbered there. -/
def uncopied (k size : Nat) (history : List (Request α n)) : List (Request α n) :=
  renumberAll (takeBack k size) (history.filter fun request ↦ request.2.track? ≠ some k)

/-- The bench with the copy, and in step with it the one where nothing was copied, after the
original was left alone for a while or let go. -/
structure Parted (k size : Nat) (id : OwnerId) (ρ : Nat → Nat) (b b' : Bench δ α n) : Prop where
  renamed : b.Renamed ρ (handOn k size) b'
  known : b'.Known
  below : k < b'.tracks.size
  /-- If the original is still there, it goes by its identity. -/
  original : ∀ t', b'.Live k t' → t'.iterate.id = id

namespace Parted

variable {k size : Nat} {id : OwnerId} {b b' : Bench δ α n}

/-- Whatever the commands were that led from one bench with the copy to the next. -/
theorem of_since (h : Parted k size id ρ b b') {On : Nat → Prop} {b₁ b₁' : Bench δ α n}
    (renamed : b₁.Renamed ρ (handOn k size) b₁') (since : Since On b' b₁') :
    Parted k size id ρ b₁ b₁' where
  renamed := renamed
  known := since.known
  below := Nat.lt_of_lt_of_le h.below since.size
  original t₁' live := by
    obtain ⟨t', live', same, _⟩ := since.track h.below live
    exact same.trans (h.original t' live')

/-- Letting the original go changes nothing. -/
theorem withoutOriginal (h : Parted k size id ρ b b') (less : k < size) (unused : ∀ i, ρ i ≠ id) :
    Ends (perform (.retire k)) b' (fun _ b'' ↦ b.Renamed ρ (handOn k size) b'')
      (fun _ b'' ↦ b.Renamed ρ (handOn k size) b'') := by
  simp only [perform, ends_bind, ends_modify]
  refine ends_track (fun t' live ↦ ?_) fun _ ↦ h.renamed
  have nothing : b'.store.release t'.iterate.id = b'.store := by
    rw [h.original t' live, h.renamed.store.same, Store.release_rename _ unused]
  rw [nothing]
  have size : (b'.replace k none).tracks.size = b'.tracks.size := Array.size_setIfInBounds
  refine ⟨h.renamed.store, h.renamed.newton, h.renamed.held, size.trans h.renamed.size,
    h.renamed.way, fun {k₁ _} live₁ ↦ ?_, fun live₁ ↦ h.renamed.back (live_of_retired live₁).2⟩
  obtain ⟨t₁', live₁', renamed⟩ := h.renamed.live live₁
  exact ⟨t₁', live_replace_of_ne live₁' (handOn_ne less k₁) none, renamed⟩

/-- A command to another track than the original. -/
theorem alike (h : Parted k size id ρ b b') (less : k < size) (c : Command α n β)
    (other : c.track? ≠ some k) :
    Alike (Renamed ρ (handOn k size)) (fun a a' ↦ c.renumberAnswer (handOn k size) a = a')
      (perform (c.renumber (takeBack k size)) b) (perform c b') := by
  have matched := matches_perform (c.renumber (takeBack k size)) b b' h.renamed
  rw [c.renumber_renumber fun j same ↦ handOn_takeBack less fun mine ↦ other (mine ▸ same)]
    at matched
  simp only [c.renumberAnswer_renumber] at matched
  exact matched

theorem run (h : Parted k size id ρ b b') (less : k < size) (unused : ∀ i, ρ i ≠ id)
    {history : List (Request α n)}
    (alone : ∀ request ∈ history, request.2.leavesAlone k = true) :
    Parted k size id ρ (b.run (uncopied k size history)) (b'.run history) := by
  induction history generalizing b b' with
  | nil => exact h
  | cons request rest ih =>
    rw [List.forall_mem_cons] at alone
    have since := ((hosts_since (fun _ ↦ True) b').preserves_perform request.2
      (fun _ _ ↦ trivial) b' (.refl h.known)).after
    by_cases mine : request.2.track? = some k
    · have left : uncopied k size (request :: rest) = uncopied k size rest :=
        congrArg (renumberAll _) (List.filter_cons_of_neg (by simpa using mine))
      cases Command.eq_retire alone.1 mine
      rw [left]
      exact ih (h.of_since (h.withoutOriginal less unused).after since) alone.2
    · have kept : uncopied k size (request :: rest) =
          ⟨request.1, request.2.renumber (takeBack k size)⟩ :: uncopied k size rest :=
        congrArg (renumberAll _) (List.filter_cons_of_pos (by simpa using mine))
      rw [kept]
      exact ih (h.of_since (h.alike less request.2 mine).after since) alone.2

end Parted

/-- **A deep copy is transparent.**  Whatever the history of a bench, and whichever of its tracks is
copied: copying succeeds, asks the device layer for nothing, and changes nothing in the store but
the owner, so that factors that were the track's are the copy's.

From then on the bench with the copy, where the track is left alone or let go while the copy and the
other tracks do anything, is in step with the bench where the track was not copied and does itself
what the copy does: the stores are the same up to identities, with all that they hold and with the
device layer, which may be one that writes down how it is called, and so are the tracks; and every
command answers the same, up to the numbers of new tracks.  As the copy has handed nothing over yet,
the track may have any note of what it has handed over that is not about its solution; if the device
layer does nothing with accepted points, it may have any.

The copy owns the Jacobian only if the track did, or once a command for the copy has loaded one. -/
theorem deepClone_transparent (device : δ) (communicator : Communicator α)
    (linear : LinearOptions α) (newton : Newton α) (history : List (Request α n)) :
    let b := run (empty device communicator linear newton n) history
    ∀ k t, b.Live k t →
      let size := b.tracks.size
      let id := b.store.lastId + 1
      let ρ := handOn t.iterate.id id
      let σ := handOn k size
      (perform (.deepClone k) b = .ok size (b.copied t) ∧
        (b.copied t).store = b.store.rename ρ ∧
        (b.copied t).store.factorsCurrentFor id = b.store.factorsCurrentFor t.iterate.id) ∧
      (∀ note, (∀ g ∈ note, g < t.iterate.generation) ∨ Device.IgnoresAccepted δ →
        ∀ later : List (Request α n),
          (∀ request ∈ later, request.2.leavesAlone k = true) →
          let alone := (b.withNote k t note).run (uncopied k size later)
          let beside := (b.copied t).run later
          alone.Renamed ρ σ beside ∧ beside.store = alone.store.rename ρ ∧
          ∀ (β : Type) (c : Command α n β), c.track? ≠ some k →
            Step.value (perform c) beside =
              (Step.value (perform (c.renumber (takeBack k size))) alone).map
                (c.renumberAnswer σ)) ∧
      ∀ (later : List (Request α n)) (copy : Track α n), ((b.copied t).run later).Live size copy →
        copy.iterate.id = id ∧ (((b.copied t).run later).store.owners.of .jacobian = some id →
          b.store.owners.of .jacobian = some t.iterate.id ∨
            (b.copied t).LoadsFor size later) := by
  intro b k t live size id ρ σ
  have known : b.Known := run_known device communicator linear newton history
  have lives : (b.copied t).Live size (t.deepClone b.store).1 := live_push_self ..
  have less : k < size := live.lt
  refine ⟨⟨perform_deepClone live, known.store_copied t, ?_⟩, ?_, ?_⟩
  · have factors := (known.renamed_store live).factorsCurrentFor t.iterate.id
    rwa [handOn_old] at factors
  · intro note fits later left alone beside
    have unused := handOn_ne (known.id_lt live)
    have parted : Parted k size t.iterate.id ρ alone beside := by
      refine Parted.run ⟨known.renamed_copied live fits, known.copy live, ?_, ?_⟩ less unused left
      · exact Nat.lt_trans less lives.lt
      · intro t' live'
        cases (live_push_of_live live _ _).symm.trans live'
        rfl
    exact ⟨parted.renamed, parted.renamed.store.same, fun β c other ↦
      (parted.alike less c other).value⟩
  · intro later copy there
    obtain ⟨t', live', same, owned⟩ := (known.copy live).loaded_of_owned later lives.lt there
    cases lives.symm.trans live'
    refine ⟨same, fun owns ↦ (owned owns).imp_left fun before ↦ ?_⟩
    exact known.registered.owner_of_copy before

/-- The first of two tracks goes once it is copied.  The copy moves and reuses the factors there, as
the track would have done.  A copy of the other track owns the Jacobian once it has loaded it. -/
theorem deepClone_transparent_bare :
    let history : List (Request Float 1) := [⟨_, .add #[1.0]⟩, ⟨_, .add #[2.0]⟩,
      ⟨_, .computeJacobian 0⟩, ⟨_, .computeNewton 0 false⟩]
    let newton : Newton Float := { battery := .new .serial .standard {} false }
    let b : Bench (Logged Circuit Float) Float 1 :=
      run (empty ⟨Circuit.bare, []⟩ .serial .standard newton 1) history
    (∃ t, b.Live 0 t ∧
      let beside := (b.copied t).run [⟨_, .retire 0⟩, ⟨_, .setX 2 #[2.0]⟩, ⟨_, .computeResidual 2⟩,
        ⟨_, .computeNewton 2 true⟩]
      let alone := b.run [⟨_, .setX 0 #[2.0]⟩, ⟨_, .computeResidual 0⟩, ⟨_, .computeNewton 0 true⟩]
      (b.copied t).store.factorsCurrentFor 3 = true ∧
      beside.store.owners.of .newton = some 3 ∧
      beside.store.jacobianLoads = 1 ∧
      beside.store.device.calls = alone.store.device.calls ∧
      Step.value (perform (.direction 2)) beside = Step.value (perform (.direction 0)) alone) ∧
    ∃ t, b.Live 1 t ∧ b.store.owners.of .jacobian ≠ some t.iterate.id ∧
      let beside := (b.copied t).run [⟨_, .computeJacobian 2⟩]
      beside.store.owners.of .jacobian = some 3 ∧
      b.store.jacobianLoads < beside.store.jacobianLoads := by
  intro history newton b
  have size : b.tracks.size = 2 := by decide +kernel
  have lastId : b.store.lastId + 1 = 3 := by decide +kernel
  have first : (b.tracks[0]?.join.any fun t ↦
      let beside := (b.copied t).run [⟨_, .retire 0⟩, ⟨_, .setX 2 #[2.0]⟩, ⟨_, .computeResidual 2⟩,
        ⟨_, .computeNewton 2 true⟩]
      t.captured.isNone && (b.copied t).store.factorsCurrentFor 3 &&
        decide (beside.store.owners.of .newton = some 3 ∧ beside.store.jacobianLoads = 1)) =
      true := by
    decide +kernel
  have second : (b.tracks[1]?.join.any fun t ↦ b.store.owners.of .jacobian != some t.iterate.id &&
      (((b.copied t).run [⟨_, .computeJacobian 2⟩]).store.owners.of .jacobian == some 3 &&
        ((b.copied t).run [⟨_, .computeJacobian 2⟩]).tracks[2]?.join.isSome)) = true := by
    decide +kernel
  have transparent := deepClone_transparent (⟨Circuit.bare, []⟩ : Logged Circuit Float) .serial
    .standard newton history
  rw [show run (empty _ _ _ newton _) history = b from rfl] at transparent
  clear_value b
  obtain ⟨t, live, facts⟩ := exists_live first
  rw [Bool.and_eq_true, Bool.and_eq_true, Option.isNone_iff_eq_none, decide_eq_true_iff] at facts
  obtain ⟨⟨note, factors⟩, direction, once⟩ := facts
  obtain ⟨t', live', facts'⟩ := exists_live second
  rw [Bool.and_eq_true, Bool.and_eq_true, bne_iff_ne, beq_iff_eq] at facts'
  obtain ⟨foreign, owned, there⟩ := facts'
  obtain ⟨copy, there⟩ := Option.isSome_iff_exists.1 there
  obtain ⟨-, -, loads⟩ := transparent 1 t' live'
  rw [size, lastId] at loads
  obtain ⟨-, transparent, -⟩ := transparent 0 t live
  obtain ⟨-, stores, answers⟩ := transparent t.captured (.inl (by rw [note]; intro _ h; cases h))
    [⟨_, .retire 0⟩, ⟨_, .setX 2 #[2.0]⟩, ⟨_, .computeResidual 2⟩, ⟨_, .computeNewton 2 true⟩]
    (by decide)
  have answers := answers _ (.direction 2) (by decide)
  rw [size, withNote_captured live] at stores answers
  refine ⟨⟨t, live, factors, direction, once, congrArg (fun s ↦ s.device.calls) stores, ?_⟩, ?_⟩
  · exact answers.trans (Except.map_id ▸ rfl)
  · refine ⟨t', live', foreign, owned, ?_⟩
    obtain ⟨-, loads⟩ := loads _ copy (Option.join_eq_some_iff.1 there)
    rcases loads owned with before | ⟨before, request, after, same, -, loaded⟩
    · exact absurd before foreign
    · cases before with
      | nil =>
        cases same
        exact loaded
      | cons first rest =>
        cases rest <;> cases same

end Bench

end OperatingPoint

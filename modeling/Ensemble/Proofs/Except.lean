/-!
# Results of a chain of checks

What it means that a chain of steps gives a value: every step does
(`Except.bind_eq_ok_iff`). A loop is refused at the first item that is refused
(`List.foldlM_eq_error_iff`). A loop that collects entries gives a value exactly if there is room for
them all (`List.foldlM_eq_ok_iff_perm`).
-/

namespace Except

variable {ε δ α β : Type}

theorem ok_bind {a : α} {f : α → Except ε β} : (.ok a >>= f) = f a := rfl

theorem bind_eq_ok_iff {x : Except ε α} {f : α → Except ε β} {b : β} :
    x >>= f = .ok b ↔ ∃ a, x = .ok a ∧ f a = .ok b := by
  cases x with
  | error e =>
    constructor
    · intro h; cases h
    · rintro ⟨a, h, -⟩; cases h
  | ok a =>
    constructor
    · intro h; exact ⟨a, rfl, h⟩
    · rintro ⟨a', h, hb⟩; cases h; exact hb

theorem map_bind {γ : Type} {x : Except ε α} {f : α → Except ε β} {g : β → γ} :
    (x >>= f).map g = x >>= fun a => (f a).map g := by
  cases x <;> rfl

theorem map_eq_ok_iff {x : Except ε α} {f : α → β} {b : β} :
    x.map f = .ok b ↔ ∃ a, x = .ok a ∧ f a = b := by
  cases x <;> simp [Except.map]

theorem mapError_eq_ok_iff {x : Except ε α} {f : ε → δ} {a : α} :
    x.mapError f = .ok a ↔ x = .ok a := by
  cases x with
  | error e =>
    constructor
    · intro h; cases h
    · intro h; cases h
  | ok b =>
    constructor
    · intro h; cases h; rfl
    · intro h; cases h; rfl

theorem eq_ok_of_isOk {x : Except ε α} {a : α} (hx : x.isOk) (h : ∀ b, x = .ok b → b = a) :
    x = .ok a := by
  cases x with
  | error e => cases hx
  | ok b => rw [h b rfl]

end Except

/-! ### Loops -/

section Loop

variable {ε T ι : Type} {f : T → ι → Except ε T}

/-- A loop that is followed at every step is followed to its end, or to its refusal. -/
theorem List.foldlM_eq_map {U : Type} {g : U → ι → Except ε U} {image : T → U}
    (step : ∀ t x, g (image t) x = (f t x).map image) {xs : List ι} {t : T} :
    xs.foldlM g (image t) = (xs.foldlM f t).map image := by
  induction xs generalizing t with
  | nil => rfl
  | cons x xs ih =>
    rw [List.foldlM_cons, List.foldlM_cons, step]
    cases f t x with
    | error e => rfl
    | ok t₁ => exact ih

/-- What a loop is refused for is its first item that is refused. -/
theorem List.foldlM_eq_error_iff {xs : List ι} {t : T} {e : ε} : xs.foldlM f t = .error e ↔
    ∃ before x after t₁, xs = before ++ x :: after ∧ before.foldlM f t = .ok t₁ ∧
      f t₁ x = .error e := by
  constructor
  · intro h
    induction xs generalizing t with
    | nil => cases h
    | cons x xs ih =>
      rw [List.foldlM_cons] at h
      cases hx : f t x with
      | error e' =>
        rw [hx] at h
        cases h
        exact ⟨[], x, xs, t, rfl, rfl, hx⟩
      | ok t₁ =>
        rw [hx] at h
        obtain ⟨before, y, after, t₂, rfl, hbefore, hy⟩ := ih h
        refine ⟨x :: before, y, after, t₂, rfl, ?_, hy⟩
        rw [List.foldlM_cons, hx]
        exact hbefore
  · rintro ⟨before, x, after, t₁, rfl, hbefore, hx⟩
    rw [List.foldlM_append, hbefore, Except.ok_bind, List.foldlM_cons, hx]
    rfl

end Loop

/-! ### Loops that collect -/

section Collect

variable {ε T ι E : Type} {entries : T → List E} {f : T → ι → Except ε T} {P : ι → Prop}
  {g : ι → List E}

/-- A loop that adds the entries of each of its items, and refuses an item for which there is no
room, gives what holds all entries, if there is room for them together. -/
theorem List.foldlM_eq_ok_iff_perm (inj : ∀ a b, (entries a).Perm (entries b) → a = b)
    (sub : ∀ t es es', (entries t).Perm (es ++ es') → ∃ t', (entries t').Perm es')
    (step : ∀ t x t', f t x = .ok t' ↔ P x ∧ (entries t').Perm (g x ++ entries t))
    {xs : List ι} {t t' : T} : xs.foldlM f t = .ok t' ↔
      (∀ x ∈ xs, P x) ∧ (entries t').Perm (xs.flatMap g ++ entries t) := by
  induction xs generalizing t with
  | nil =>
    constructor
    · intro h
      cases h
      simp
    · rintro ⟨-, h⟩
      rw [inj _ _ h]
      rfl
  | cons x xs ih =>
    have hcomm : ∀ u, ((x :: xs).flatMap g ++ u).Perm (xs.flatMap g ++ (g x ++ u)) := by
      intro u
      rw [List.flatMap_cons, ← List.append_assoc]
      exact List.perm_append_comm.append_right u
    rw [List.foldlM_cons, Except.bind_eq_ok_iff]
    constructor
    · rintro ⟨t₁, hx, hxs⟩
      obtain ⟨hP, hperm⟩ := (step t x t₁).mp hx
      obtain ⟨hPs, hperms⟩ := ih.mp hxs
      refine ⟨by simpa using ⟨hP, hPs⟩, hperms.trans ?_⟩
      exact (hperm.append_left _).trans (hcomm _).symm
    · rintro ⟨hP, hperm⟩
      obtain ⟨t₁, ht₁⟩ := sub t' _ _ (hperm.trans (hcomm _))
      refine ⟨t₁, (step t x t₁).mpr ⟨hP x (by simp), ht₁⟩, ih.mpr ⟨fun y hy => hP y (by simp [hy]), ?_⟩⟩
      exact (hperm.trans (hcomm _)).trans (ht₁.symm.append_left _)

end Collect

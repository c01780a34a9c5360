import Ensemble.Proofs.Except
import Ensemble.Table
import Mathlib.Data.List.Induction
import Mathlib.Data.List.Nodup

/-!
# Tables by their look-ups

What a table holds is what its look-ups find: `Table.contains_iff` and `Table.mem_keys_iff` say it of
keys, `Table.ext_get?` of whole tables. Entries under keys of their own make up the same table in
any order (`Table.ofList_eq_of_perm`).
-/

namespace Ensemble.Table

variable {κ α : Type} [Ord κ]

/-! ### Keys -/

theorem nodup_keys [Std.TransOrd κ] (t : Table κ α) : t.keys.Nodup := by
  refine List.pairwise_map.mpr (t.sorted.imp fun {a b} hlt => ?_)
  intro he
  rw [he] at hlt
  simp at hlt

theorem nodup_toList [Std.TransOrd κ] (t : Table κ α) : t.toList.Nodup :=
  List.Nodup.of_map _ t.nodup_keys

theorem mem_keys_of_mem {t : Table κ α} {e : κ × α} (h : e ∈ t.toList) : e.1 ∈ t.keys :=
  List.mem_map_of_mem h

theorem eq_of_toList {s t : Table κ α} (h : s.toList = t.toList) : s = t := by
  cases s; cases t; cases h; rfl

/-- A table is its entries, in whatever order they are given. -/
theorem eq_of_perm [Std.TransOrd κ] {s t : Table κ α} (h : s.toList.Perm t.toList) : s = t := by
  refine eq_of_toList (h.eq_of_pairwise (fun a b _ _ hab hba => ?_) s.sorted t.sorted)
  rw [Std.OrientedOrd.eq_swap, hba] at hab
  cases hab

variable [Std.TransOrd κ] [DecidableEq κ]

theorem mem_keys_iff {t : Table κ α} {k : κ} : k ∈ t.keys ↔ ∃ v, t.get? k = some v := by
  simp only [keys, List.mem_map, get?_eq_some_iff]
  constructor
  · rintro ⟨e, he, rfl⟩; exact ⟨e.2, he⟩
  · rintro ⟨v, hv⟩; exact ⟨(k, v), hv, rfl⟩

theorem contains_iff {t : Table κ α} {k : κ} : t.contains k ↔ k ∈ t.keys := by
  rw [mem_keys_iff, contains, Option.isSome_iff_exists]

theorem mem_values_iff {t : Table κ α} {v : α} : v ∈ t.values ↔ ∃ k, t.get? k = some v := by
  simp only [values, List.mem_map, get?_eq_some_iff]
  constructor
  · rintro ⟨e, he, rfl⟩; exact ⟨e.1, he⟩
  · rintro ⟨k, hk⟩; exact ⟨(k, v), hk, rfl⟩

theorem get?_filter_eq_some_iff {t : Table κ α} {p : κ → α → Bool} {k : κ} {v : α} :
    (t.filter p).get? k = some v ↔ t.get? k = some v ∧ p k v := by
  rw [get?_eq_some_iff, get?_eq_some_iff, filter, List.mem_filter]

/-! ### Whole tables -/

theorem ext_get? {s t : Table κ α} (h : ∀ k, s.get? k = t.get? k) : s = t := by
  refine eq_of_perm ((List.perm_ext_iff_of_nodup s.nodup_toList t.nodup_toList).mpr ?_)
  rintro ⟨k, v⟩
  rw [← get?_eq_some_iff, ← get?_eq_some_iff, h]

variable [Std.LawfulEqOrd κ]

omit [Std.TransOrd κ] [DecidableEq κ] in
theorem perm_insertEntry {k : κ} {v : α} {es : List (κ × α)} (h : k ∉ es.map (·.1)) :
    (insertEntry k v es).Perm ((k, v) :: es) := by
  induction es with
  | nil => rfl
  | cons e es ih =>
    rw [List.map_cons, List.mem_cons, not_or] at h
    unfold insertEntry
    split
    · rfl
    · rename_i heq
      exact absurd (Std.LawfulEqCmp.eq_of_compare heq) h.1
    · exact ((ih h.2).cons e).trans (.swap _ _ _)

theorem get?_foldl_insert {es : List (κ × α)} (h : (es.map (·.1)).Nodup) (t : Table κ α) (k : κ)
    (v : α) : (es.foldl (fun t e => t.insert e.1 e.2) t).get? k = some v ↔
      (k, v) ∈ es ∨ (k ∉ es.map (·.1) ∧ t.get? k = some v) := by
  induction es generalizing t with
  | nil => simp
  | cons e es ih =>
    rw [List.map_cons, List.nodup_cons] at h
    rw [List.foldl_cons, ih h.2, get?_insert]
    by_cases hk : e.1 = k
    · subst hk
      have hcons : (e.1, v) = e ↔ e.2 = v := by
        constructor
        · intro he; rw [← he]
        · rintro rfl; rfl
      simp [hcons, h.1, or_comm]
    · have hne : (k, v) ≠ e := by rintro rfl; exact hk rfl
      have hk' : ¬ k = e.1 := fun h => hk h.symm
      simp [hk, hne, hk']

theorem get?_ofList {es : List (κ × α)} (h : (es.map (·.1)).Nodup) (k : κ) (v : α) :
    (ofList es).get? k = some v ↔ (k, v) ∈ es := by
  rw [ofList, get?_foldl_insert h]
  simp

theorem mem_keys_insert_iff {t : Table κ α} {k k' : κ} {v : α} :
    k ∈ (t.insert k' v).keys ↔ k = k' ∨ k ∈ t.keys := by
  rw [mem_keys_iff, mem_keys_iff]
  simp only [get?_insert]
  by_cases hk : k' = k
  · exact iff_of_true ⟨v, by rw [if_pos hk]⟩ (Or.inl hk.symm)
  · simp [hk, Ne.symm hk]

omit [DecidableEq κ] in
theorem ofList_concat (es : List (κ × α)) (e : κ × α) :
    ofList (es ++ [e]) = (ofList es).insert e.1 e.2 := List.foldl_append

/-- What the second of two lists holds under a key counts, else what the first one does. -/
theorem get?_ofList_append (es ds : List (κ × α)) (k : κ) :
    (ofList (es ++ ds)).get? k = ((ofList ds).get? k).or ((ofList es).get? k) := by
  induction ds using List.reverseRecOn with
  | nil => simp [ofList]
  | append_singleton ds d ih =>
    rw [← List.append_assoc, ofList_concat, ofList_concat, get?_insert, get?_insert, ih]
    split <;> rfl

theorem mem_keys_ofList_iff {es : List (κ × α)} {k : κ} :
    k ∈ (ofList es).keys ↔ k ∈ es.map (·.1) := by
  induction es using List.reverseRecOn with
  | nil => exact Iff.rfl
  | append_singleton es e ih =>
    rw [ofList_concat, mem_keys_insert_iff, ih, List.map_append, List.mem_append, or_comm]
    simp

omit [DecidableEq κ] in
theorem nodup_distinct (ks : List κ) : (distinct ks).Nodup := nodup_keys _

theorem mem_distinct_iff {ks : List κ} {k : κ} : k ∈ distinct ks ↔ k ∈ ks := by
  rw [distinct, mem_keys_ofList_iff, List.map_map]
  simp

omit [DecidableEq κ] in
theorem mem_of_mem_ofList {es : List (κ × α)} {e : κ × α} (h : e ∈ (ofList es).toList) :
    e ∈ es := by
  induction es using List.reverseRecOn with
  | nil => cases h
  | append_singleton es e' ih =>
    rw [ofList_concat] at h
    rcases mem_insertEntry h with rfl | h
    · simp
    · exact List.mem_append_left _ (ih h)

theorem perm_toList_ofList {es : List (κ × α)} (h : (es.map (·.1)).Nodup) :
    (ofList es).toList.Perm es := by
  refine (List.perm_ext_iff_of_nodup (nodup_toList _) (.of_map _ h)).mpr ?_
  rintro ⟨k, v⟩
  rw [← get?_eq_some_iff, get?_ofList h]

/-- The entries of a table make it up in any order. -/
theorem ofList_eq_of_perm {es : List (κ × α)} {t : Table κ α} (h : es.Perm t.toList) :
    ofList es = t := by
  have hnodup : (es.map (·.1)).Nodup := (h.map _).nodup_iff.mpr t.nodup_keys
  exact eq_of_perm ((perm_toList_ofList hnodup).trans h)

/-- The entries of two tables that have no key in common, told apart by their keys. -/
theorem filter_ofList_append {s t : Table κ α} {p : κ → Bool} (hs : ∀ k ∈ s.keys, p k = true)
    (ht : ∀ k ∈ t.keys, p k = false) :
    (ofList (s.toList ++ t.toList)).filter (fun k _ => p k) = s ∧
      (ofList (s.toList ++ t.toList)).filter (fun k _ => !p k) = t := by
  have hnodup : ((s.toList ++ t.toList).map (·.1)).Nodup := by
    rw [List.map_append]
    refine s.nodup_keys.append t.nodup_keys fun k hk hk' => ?_
    have hp := ht k hk'
    rw [hs k hk] at hp
    cases hp
  have hperm := perm_toList_ofList hnodup
  have hs' : ∀ e ∈ s.toList, p e.1 = true := fun e he => hs _ (mem_keys_of_mem he)
  have ht' : ∀ e ∈ t.toList, p e.1 = false := fun e he => ht _ (mem_keys_of_mem he)
  have hfirst : (s.toList ++ t.toList).filter (fun e => p e.1) = s.toList := by
    rw [List.filter_append, List.filter_eq_self.mpr hs', List.filter_eq_nil_iff.mpr fun e he => ?_,
      List.append_nil]
    simp [ht' e he]
  have hsecond : (s.toList ++ t.toList).filter (fun e => !p e.1) = t.toList := by
    rw [List.filter_append, List.filter_eq_nil_iff.mpr fun e he => ?_, List.nil_append,
      List.filter_eq_self.mpr fun e he => ?_]
    · simp [ht' e he]
    · simp [hs' e he]
  exact ⟨eq_of_perm ((hperm.filter _).trans (.of_eq hfirst)),
    eq_of_perm ((hperm.filter _).trans (.of_eq hsecond))⟩

omit [DecidableEq κ] in
theorem perm_cons_iff {t t' : Table κ α} {k : κ} {v : α} :
    t'.toList.Perm ((k, v) :: t.toList) ↔ k ∉ t.keys ∧ t' = t.insert k v := by
  constructor
  · intro h
    have hnodup := (h.map Prod.fst).nodup_iff.mp t'.nodup_keys
    rw [List.map_cons, List.nodup_cons] at hnodup
    exact ⟨hnodup.1, eq_of_perm (h.trans (perm_insertEntry hnodup.1).symm)⟩
  · rintro ⟨hk, rfl⟩
    exact perm_insertEntry hk

omit [DecidableEq κ] in
/-- An entry under a new key joins those that satisfy `p` if it does so too. -/
theorem filter_insert {t : Table κ α} {k : κ} {v : α} {p : κ → α → Bool} (hk : k ∉ t.keys) :
    (t.insert k v).filter p = if p k v then (t.filter p).insert k v else t.filter p := by
  have hperm : ((t.insert k v).filter p).toList.Perm
      (((k, v) :: t.toList).filter fun e => p e.1 e.2) :=
    (perm_insertEntry hk).filter _
  have hk' : k ∉ (t.filter p).keys := fun h => hk ((List.filter_sublist.map _).subset h)
  rw [List.filter_cons] at hperm
  split at hperm
  · rename_i hp
    rw [if_pos hp]
    exact (perm_cons_iff.mp hperm).2
  · rename_i hp
    rw [if_neg hp]
    exact eq_of_perm hperm

/-- Entries under keys of their own have a table. -/
theorem exists_perm_of_append {t : Table κ α} {es es' : List (κ × α)}
    (h : t.toList.Perm (es ++ es')) : ∃ t' : Table κ α, t'.toList.Perm es' := by
  have hnodup := (h.map Prod.fst).nodup_iff.mp t.nodup_keys
  rw [List.map_append] at hnodup
  exact ⟨ofList es', perm_toList_ofList hnodup.of_append_right⟩

/-- A loop that puts entries under new keys into a table, or refuses them. -/
theorem foldlM_eq_ok_iff_perm {ε ι : Type} {f : Table κ α → ι → Except ε (Table κ α)} {P : ι → Prop}
    {g : ι → List (κ × α)}
    (step : ∀ t x t', f t x = .ok t' ↔ P x ∧ t'.toList.Perm (g x ++ t.toList)) {xs : List ι}
    {t t' : Table κ α} : xs.foldlM f t = .ok t' ↔
      (∀ x ∈ xs, P x) ∧ t'.toList.Perm (xs.flatMap g ++ t.toList) :=
  List.foldlM_eq_ok_iff_perm (fun _ _ => eq_of_perm) (fun _ _ _ => exists_perm_of_append) step

/-! ### New values under the same keys -/

omit [Std.TransOrd κ] [Std.LawfulEqOrd κ] [DecidableEq κ] in
/-- The table with the same keys and the images of the values. -/
def mapValues {β : Type} (f : α → β) (t : Table κ α) : Table κ β :=
  ⟨t.toList.map fun e => (e.1, f e.2), List.pairwise_map.mpr t.sorted⟩

omit [Std.LawfulEqOrd κ] in
theorem get?_mapValues {β : Type} (f : α → β) (t : Table κ α) (k : κ) :
    (t.mapValues f).get? k = (t.get? k).map f := by
  apply Option.ext
  intro w
  rw [get?_eq_some_iff, Option.map_eq_some_iff]
  simp only [mapValues, List.mem_map, Prod.mk.injEq, get?_eq_some_iff]
  constructor
  · rintro ⟨⟨k', v⟩, hv, rfl, rfl⟩; exact ⟨v, hv, rfl⟩
  · rintro ⟨v, hv, rfl⟩; exact ⟨(k, v), hv, rfl, rfl⟩

omit [Ord κ] [Std.TransOrd κ] [Std.LawfulEqOrd κ] [DecidableEq κ] in
theorem mapEntriesM_cons_eq_ok_iff {β ε : Type} {f : κ → α → Except ε β} {k : κ} {v : α} {w : β}
    {es : List (κ × α)} {fs : List (κ × β)} (hkeys : fs.map (·.1) = es.map (·.1))
    (hcons : ((k, w) :: fs).map (·.1) = ((k, v) :: es).map (·.1)) :
    mapEntriesM f ((k, v) :: es) = .ok ⟨(k, w) :: fs, hcons⟩ ↔
      f k v = .ok w ∧ mapEntriesM f es = .ok ⟨fs, hkeys⟩ := by
  rw [mapEntriesM, Except.bind_eq_ok_iff]
  constructor
  · rintro ⟨w', hw, hrest⟩
    obtain ⟨⟨fs', hfs'⟩, hes, hpure⟩ := Except.bind_eq_ok_iff.mp hrest
    have heq := congrArg Subtype.val (Except.ok.inj hpure)
    simp only [List.cons.injEq, Prod.mk.injEq, true_and] at heq
    obtain ⟨rfl, rfl⟩ := heq
    exact ⟨hw, hes⟩
  · rintro ⟨hw, hes⟩
    exact ⟨w, hw, by rw [hes]; rfl⟩

omit [Ord κ] [Std.TransOrd κ] [Std.LawfulEqOrd κ] [DecidableEq κ] in
theorem mapEntriesM_eq_ok_iff {β ε : Type} {f : κ → α → Except ε β} {es : List (κ × α)}
    (h : (es.map (·.1)).Nodup) {fs : { fs : List (κ × β) // fs.map (·.1) = es.map (·.1) }} :
    mapEntriesM f es = .ok fs ↔
      ∀ k v w, (k, v) ∈ es → (k, w) ∈ fs.1 → f k v = .ok w := by
  induction es with
  | nil =>
    obtain ⟨fs, hfs⟩ := fs
    obtain rfl : fs = [] := by simpa using hfs
    constructor
    · intro _ k v w hv
      cases hv
    · intro _
      rfl
  | cons e es ih =>
    obtain ⟨k, v⟩ := e
    obtain ⟨fs, hfs⟩ := fs
    cases fs with
    | nil => cases hfs
    | cons e fs =>
      obtain ⟨k', w⟩ := e
      obtain ⟨hk, hkeys⟩ := List.cons.inj hfs
      obtain rfl : k' = k := hk
      rw [List.map_cons, List.nodup_cons] at h
      have hnot : ∀ {β : Type} {es' : List (κ × β)}, es'.map (·.1) = es.map (·.1) →
          ∀ x, (k', x) ∉ es' := by
        intro β es' hes' x hx
        exact h.1 (hes' ▸ List.mem_map_of_mem hx)
      rw [mapEntriesM_cons_eq_ok_iff hkeys hfs, ih h.2]
      constructor
      · rintro ⟨hw, hes⟩ k₁ v₁ w₁ hv hw₁
        rcases List.mem_cons.mp hv with hv | hv <;> rcases List.mem_cons.mp hw₁ with hw₁ | hw₁
        · cases hv; cases hw₁; exact hw
        · cases hv; exact absurd hw₁ (hnot hkeys _)
        · cases hw₁; exact absurd hv (hnot rfl _)
        · exact hes k₁ v₁ w₁ hv hw₁
      · intro hall
        refine ⟨hall k' v w (by simp) (by simp), fun k₁ v₁ w₁ hv hw₁ => ?_⟩
        exact hall k₁ v₁ w₁ (by simp [hv]) (by simp [hw₁])

omit [DecidableEq κ] [Std.LawfulEqOrd κ] in
theorem mapM_eq_ok_iff {β ε : Type} {f : κ → α → Except ε β} {t : Table κ α}
    {t' : { t' : Table κ β // t'.keys = t.keys }} : t.mapM f = .ok t' ↔
      ∀ k v w, (k, v) ∈ t.toList → (k, w) ∈ t'.1.toList → f k v = .ok w := by
  obtain ⟨t', ht'⟩ := t'
  have hentries := @mapEntriesM_eq_ok_iff κ α β ε f t.toList t.nodup_keys ⟨t'.toList, ht'⟩
  rw [← hentries, mapM, Except.bind_eq_ok_iff]
  constructor
  · rintro ⟨⟨fs, hfs⟩, hes, hpure⟩
    have heq := congrArg (fun s => s.1.toList) (Except.ok.inj hpure)
    rw [hes]
    simp only at heq
    subst heq
    rfl
  · intro hes
    exact ⟨_, hes, rfl⟩

end Ensemble.Table

/-!
# Tables in key order

A `Table κ α` holds at most one value per key and lists its entries by rising key, so a finite map
has one representation. Main statements: `Table.get?_insert`, `Table.get?_erase` and
`Table.get?_eq_some_iff` (a look-up finds exactly what is listed).
-/

namespace Ensemble

/-- A finite map, listed by strictly rising key. -/
structure Table (κ α : Type) [Ord κ] where
  /-- The entries by rising key. -/
  toList : List (κ × α)
  sorted : toList.Pairwise fun a b => compare a.1 b.1 = .lt

namespace Table

variable {κ α : Type} [Ord κ]

instance [DecidableEq κ] [DecidableEq α] : DecidableEq (Table κ α) := fun s t =>
  decidable_of_iff (s.toList = t.toList) (by cases s; cases t; simp)

/-! ## Entries -/

/-- Puts an entry before the first larger key, in place of one with an equal key. -/
def insertEntry (k : κ) (v : α) : List (κ × α) → List (κ × α)
  | [] => [(k, v)]
  | e :: es => match compare k e.1 with
    | .lt => (k, v) :: e :: es
    | .eq => (k, v) :: es
    | .gt => e :: insertEntry k v es

theorem mem_insertEntry {k : κ} {v : α} {e : κ × α} {es : List (κ × α)}
    (h : e ∈ insertEntry k v es) : e = (k, v) ∨ e ∈ es := by
  induction es with
  | nil => simpa [insertEntry] using h
  | cons d ds ih => unfold insertEntry at h; split at h <;> grind

theorem sorted_insertEntry [Std.TransOrd κ] [Std.LawfulEqOrd κ] (k : κ) (v : α)
    {es : List (κ × α)} (h : es.Pairwise fun a b => compare a.1 b.1 = .lt) :
    (insertEntry k v es).Pairwise fun a b => compare a.1 b.1 = .lt := by
  induction es with
  | nil => simp [insertEntry]
  | cons d ds ih =>
    obtain ⟨hd, hds⟩ := List.pairwise_cons.mp h
    unfold insertEntry
    split
    · rename_i hk
      refine List.pairwise_cons.mpr ⟨fun e he => ?_, h⟩
      rcases List.mem_cons.mp he with rfl | he
      · exact hk
      · exact Std.TransCmp.lt_trans hk (hd e he)
    · rename_i hk
      refine List.pairwise_cons.mpr ⟨fun e he => ?_, hds⟩
      rw [Std.LawfulEqCmp.eq_of_compare hk]
      exact hd e he
    · rename_i hk
      refine List.pairwise_cons.mpr ⟨fun e he => ?_, ih hds⟩
      rcases mem_insertEntry he with rfl | he
      · exact Std.OrientedCmp.lt_of_gt hk
      · exact hd e he

/-! ## Tables -/

/-- The table without entries. -/
def empty : Table κ α := ⟨[], .nil⟩

instance : EmptyCollection (Table κ α) := ⟨empty⟩

instance : Inhabited (Table κ α) := ⟨empty⟩

def keys (t : Table κ α) : List κ := t.toList.map (·.1)

def values (t : Table κ α) : List α := t.toList.map (·.2)

def size (t : Table κ α) : Nat := t.toList.length

def isEmpty (t : Table κ α) : Bool := t.toList.isEmpty

/-- The value of the entry with a given key. -/
def lookup [DecidableEq κ] (k : κ) : List (κ × α) → Option α
  | [] => none
  | e :: es => if e.1 = k then some e.2 else lookup k es

def get? [DecidableEq κ] (t : Table κ α) (k : κ) : Option α := lookup k t.toList

def contains [DecidableEq κ] (t : Table κ α) (k : κ) : Bool := (t.get? k).isSome

/-- The entries that satisfy `p`. -/
def filter (p : κ → α → Bool) (t : Table κ α) : Table κ α :=
  ⟨t.toList.filter fun e => p e.1 e.2, t.sorted.filter _⟩

def erase [DecidableEq κ] (t : Table κ α) (k : κ) : Table κ α :=
  t.filter fun k' _ => decide (k' ≠ k)

variable [Std.TransOrd κ] [Std.LawfulEqOrd κ]

/-- Sets the value of a key, replacing an earlier one. -/
def insert (t : Table κ α) (k : κ) (v : α) : Table κ α :=
  ⟨insertEntry k v t.toList, sorted_insertEntry k v t.sorted⟩

/-- Inserts the pairs in turn, so the last value given for a key stays. -/
def ofList (es : List (κ × α)) : Table κ α := es.foldl (fun t e => t.insert e.1 e.2) empty

/-- The keys in a list, each once and by rising key. -/
def distinct (ks : List κ) : List κ := (ofList (ks.map fun k => (k, ()))).keys

/-! ## New values under the same keys -/

/-- Gives every key a new value, unless one is refused; the first refusal counts. -/
def mapEntriesM {β ε : Type} (f : κ → α → Except ε β) :
    (es : List (κ × α)) → Except ε { fs : List (κ × β) // fs.map (·.1) = es.map (·.1) }
  | [] => pure ⟨[], rfl⟩
  | (k, v) :: es => do
    let w ← f k v
    let ⟨fs, h⟩ ← mapEntriesM f es
    pure ⟨(k, w) :: fs, by simp [h]⟩

/-- The table with the same keys and new values, unless one is refused. -/
def mapM {β ε : Type} (f : κ → α → Except ε β) (t : Table κ α) :
    Except ε { t' : Table κ β // t'.keys = t.keys } := do
  let ⟨fs, h⟩ ← mapEntriesM f t.toList
  have sorted : (fs.map (·.1)).Pairwise fun a b => compare a b = .lt := by
    rw [h]
    exact List.pairwise_map.mpr t.sorted
  pure ⟨⟨fs, List.pairwise_map.mp sorted⟩, h⟩

/-! ## Look-ups -/

variable [DecidableEq κ]

omit [Std.TransOrd κ] in
theorem lookup_insertEntry (k k' : κ) (v : α) (es : List (κ × α)) :
    lookup k' (insertEntry k v es) = if k = k' then some v else lookup k' es := by
  induction es with
  | nil => simp [insertEntry, lookup]
  | cons d ds ih =>
    unfold insertEntry
    split
    · simp [lookup]
    · rename_i hk
      have hk := Std.LawfulEqCmp.eq_of_compare hk
      simp only [lookup, ← hk]
      split <;> rfl
    · rename_i hk
      have hne : d.1 ≠ k := by
        rintro rfl
        simp at hk
      simp only [lookup, ih]
      grind

theorem get?_insert (t : Table κ α) (k k' : κ) (v : α) :
    (t.insert k v).get? k' = if k = k' then some v else t.get? k' :=
  lookup_insertEntry k k' v t.toList

omit [Std.TransOrd κ] [Std.LawfulEqOrd κ] in
@[simp] theorem get?_empty (k : κ) : (empty : Table κ α).get? k = none := rfl

omit [Std.TransOrd κ] [Std.LawfulEqOrd κ] in
theorem get?_erase (t : Table κ α) (k k' : κ) :
    (t.erase k).get? k' = if k = k' then none else t.get? k' := by
  simp only [get?, erase, filter]
  induction t.toList with
  | nil => simp [lookup]
  | cons d ds ih => grind [lookup]

omit [Std.LawfulEqOrd κ] in
theorem lookup_eq_some_iff {k : κ} {v : α} {es : List (κ × α)}
    (h : es.Pairwise fun a b => compare a.1 b.1 = .lt) : lookup k es = some v ↔ (k, v) ∈ es := by
  induction es with
  | nil => simp [lookup]
  | cons d ds ih =>
    obtain ⟨hd, hds⟩ := List.pairwise_cons.mp h
    have hne : (d.1, v) ∉ ds := fun hm => by simpa using hd _ hm
    by_cases hk : d.1 = k
    · subst hk
      simp only [lookup, if_pos, List.mem_cons, hne, or_false]
      grind
    · simp only [lookup, if_neg hk, ih hds, List.mem_cons]
      grind

omit [Std.LawfulEqOrd κ] in
theorem get?_eq_some_iff {t : Table κ α} {k : κ} {v : α} : t.get? k = some v ↔ (k, v) ∈ t.toList :=
  lookup_eq_some_iff t.sorted

end Table

end Ensemble

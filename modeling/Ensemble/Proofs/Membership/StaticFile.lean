import Ensemble.Proofs.Membership.ReadingBack
import Ensemble.Proofs.Membership.Writing
import Mathlib.Data.List.Perm.Subperm

/-!
# What a rewritten static file is read as

A static file that is made to name a dynamic file is read as the entries that stay and the one that
names the file exactly if each entry that stays has a plain key and no blank without an escape at an
end of its value (`ofText_entryLines_iff`, `pointStatic_readsBack_iff`). That other entries never come
back, not even by chance, is a matter of counting, in three steps: there are not enough backslashes for
a key that holds one, or a line feed (`plain_of_ofText_entryLines`); so each entry is a line, and no
line may be lost (`perm_of_ofText_entryLines`); and no line gives a key longer than its own
(`length_fst_readEntry_le`).
-/

/-- Where nothing exceeds its bound and the sum reaches the sum of the bounds, each reaches its own. -/
theorem List.eq_of_sum_le {ι : Type} {l : List ι} {f g : ι → Nat} (h : ∀ i ∈ l, f i ≤ g i)
    (hsum : (l.map g).sum ≤ (l.map f).sum) : ∀ i ∈ l, f i = g i := by
  intro i hi
  refine Nat.le_antisymm (h i hi) (Nat.le_of_not_lt fun hlt => ?_)
  exact Nat.not_lt.mpr hsum (List.sum_lt_sum f g h ⟨i, hi, hlt⟩)

namespace Ensemble

open Text Properties Script Disk

/-! ### Lines of entries -/

variable {es : List (String × String)} {e : String × String}

/-- What is written for an entry, up to the line feed. -/
def writtenLine (e : String × String) : List Char := line e.1.toList (escape e.2.toList)

theorem toList_join_entryLines (es : List (String × String)) :
    (String.join (es.map fun e => entryLine e.1 e.2)).toList =
      (es.map writtenLine).flatMap fun l => l ++ ['\n'] := by
  rw [String.toList_join, List.flatMap_map, List.flatMap_map]
  simp only [toList_entryLine]
  rfl

/-- What that line is read as. -/
def readEntry (e : String × String) : String × String := readLine (trimStart (writtenLine e))

theorem trimStart_writtenLine (e : String × String) :
    trimStart (writtenLine e) = line (trimStart e.1.toList) (escape e.2.toList) :=
  trimStart_append_cons (by decide) _ _

theorem continued?_writtenLine (e : String × String) :
    continued? (trimStart (writtenLine e)) = none := by
  rw [trimStart_writtenLine]
  exact continued?_line (continued?_escape _)

theorem isLine_writtenLine (h : '\n' ∉ e.1.toList) : IsLine (writtenLine e) := by
  have hvalue : ∀ c, c = '\n' ∨ c = '\r' → c ∉ '=' :: escape e.2.toList := by
    intro c hc hmem
    rcases List.mem_cons.mp hmem with rfl | hmem
    · rcases hc with hc | hc <;> exact absurd hc (by decide)
    · exact not_mem_escape hc _ hmem
  constructor
  · intro hmem
    rcases List.mem_append.mp hmem with hmem | hmem
    · exact h hmem
    · exact hvalue _ (Or.inl rfl) hmem
  · intro hlast
    rw [writtenLine, line, List.getLast?_append_of_ne_nil _ (by simp)] at hlast
    exact hvalue _ (Or.inr rfl) (List.mem_of_getLast? hlast)

/-! ### Backslashes -/

/-- The controls that may stand within a line. -/
def isInnerControl (c : Char) : Bool := isControl c && c != '\n'

theorem countP_isControl (cs : List Char) :
    cs.countP isControl = cs.countP isInnerControl + cs.count '\n' := by
  induction cs with
  | nil => rfl
  | cons c cs ih =>
    rw [List.countP_cons, List.countP_cons, List.count_cons, ih]
    by_cases hc : c = '\n'
    · subst hc
      simp [isInnerControl, isControl]
      omega
    · simp [isInnerControl, hc]
      omega

theorem costOf_isControl (cs : List Char) :
    costOf isControl cs = worth isInnerControl cs + (cs.count '\n' + cs.count '\\') := by
  rw [costOf, worth, countP_isControl]
  omega

theorem worth_flatten_lines (cs : List Char) :
    worth isControl (lines cs).flatten ≤ worth isInnerControl cs := by
  have hn : (lines cs).flatten.count '\n' = 0 := List.count_eq_zero.mpr (not_mem_flatten_lines cs)
  have hinner := worth_le_of_sublist isInnerControl (flatten_lines_sublist cs)
  rw [worth, countP_isControl, hn]
  exact hinner

theorem worth_writtenLine (e : String × String) : worth isInnerControl (writtenLine e) =
    worth isInnerControl e.1.toList + costOf isControl e.2.toList := by
  have hescape := @worth_escape isInnerControl (fun c hc => by rw [isInnerControl, hc, Bool.false_and])
    e.2.toList
  have heq : worth isInnerControl ['='] = 0 := by decide
  rw [writtenLine, line, worth_append, worth_cons, hescape, heq, Nat.zero_add]

theorem worth_join_entryLines (es : List (String × String)) :
    worth isInnerControl (String.join (es.map fun e => entryLine e.1 e.2)).toList =
      (es.map fun e => worth isInnerControl e.1.toList + costOf isControl e.2.toList).sum := by
  rw [toList_join_entryLines]
  induction es with
  | nil => rfl
  | cons e es ih =>
    have hend : worth isInnerControl ['\n'] = 0 := by decide
    simp only [List.map_cons, List.flatMap_cons, List.sum_cons, worth_append, worth_writtenLine, hend,
      ih, Nat.add_zero]

/-- Keys of lines that are read back hold no backslashes and no line feeds. -/
theorem plain_of_ofText_entryLines (hes : (es.map Prod.fst).Nodup)
    (h : ofText (String.join (es.map fun e => entryLine e.1 e.2)) = .ok (Table.ofList es)) :
    ∀ e ∈ es, '\\' ∉ e.1.toList ∧ '\n' ∉ e.1.toList := by
  have hcost := costOfEntries_ofText isControl h
  have hperm : costOfEntries isControl (Table.ofList es).toList = costOfEntries isControl es :=
    ((Table.perm_toList_ofList hes).map _).sum_eq
  have hworth := Nat.le_trans hcost (worth_flatten_lines _)
  rw [hperm, worth_join_entryLines] at hworth
  have hle : ∀ e ∈ es, worth isInnerControl e.1.toList + costOf isControl e.2.toList ≤
      costOf isControl e.1.toList + costOf isControl e.2.toList := by
    intro e _
    rw [costOf_isControl e.1.toList]
    omega
  intro e he
  have heq := List.eq_of_sum_le hle hworth e he
  rw [costOf_isControl e.1.toList] at heq
  have hn : e.1.toList.count '\n' = 0 := by omega
  have hb : e.1.toList.count '\\' = 0 := by omega
  exact ⟨List.count_eq_zero.mp hb, List.count_eq_zero.mp hn⟩

/-! ### Lines that are read -/

theorem ofText_entryLines_eq_ok {props : Properties} (hkeys : ∀ e ∈ es, '\n' ∉ e.1.toList)
    (h : ofText (String.join (es.map fun e => entryLine e.1 e.2)) = .ok props) :
    ∃ ls, ls = (es.map fun e => trimStart (writtenLine e)).filter (fun l => !isIdle l) ∧
      (∀ l ∈ ls, (splitKey (trim l)).1 ≠ []) ∧ props = Table.ofList (ls.map readLine) := by
  have hlines : lines (String.join (es.map fun e => entryLine e.1 e.2)).toList =
      es.map writtenLine := by
    rw [toList_join_entryLines, lines_flatMap]
    exact List.forall_mem_map.mpr fun e he => isLine_writtenLine (hkeys e he)
  have hlogical : (logicalLines (String.join (es.map fun e => entryLine e.1 e.2)).toList).map Prod.snd =
      (es.map fun e => trimStart (writtenLine e)).filter (fun l => !isIdle l) := by
    rw [logicalLines, hlines, map_snd_joinLines, List.map_map]
    · rfl
    · exact List.forall_mem_map.mpr fun e _ => continued?_writtenLine e
  exact ⟨_, hlogical, ofText_eq_ok_iff.mp h⟩

/-- No line is lost where all entries are read back. -/
theorem perm_of_ofText_entryLines (hes : (es.map Prod.fst).Nodup)
    (hkeys : ∀ e ∈ es, '\n' ∉ e.1.toList)
    (h : ofText (String.join (es.map fun e => entryLine e.1 e.2)) = .ok (Table.ofList es)) :
    (∀ e ∈ es, isIdle (trimStart (writtenLine e)) = false ∧
      (splitKey (trim (trimStart (writtenLine e)))).1 ≠ []) ∧
      (es.map readEntry).Perm es := by
  obtain ⟨ls, hls, hkey, hread⟩ := ofText_entryLines_eq_ok hkeys h
  have hsubset : es ⊆ ls.map readLine := by
    intro e he
    refine Table.mem_of_mem_ofList (?_ : e ∈ (Table.ofList (ls.map readLine)).toList)
    rw [← hread]
    exact (Table.perm_toList_ofList hes).mem_iff.mpr he
  have hsubperm := List.subperm_of_subset (List.Nodup.of_map _ hes) hsubset
  have hfilter : ls.length ≤ es.length := by
    rw [hls]
    simpa using List.length_filter_le (fun l => !isIdle l) (es.map fun e => trimStart (writtenLine e))
  have hlength : ls.length = es.length := by
    have hle := hsubperm.length_le
    rw [List.length_map] at hle
    omega
  have hkept : ls = es.map fun e => trimStart (writtenLine e) := by
    rw [hls]
    refine List.filter_sublist.eq_of_length ?_
    rw [← hls, hlength, List.length_map]
  have hperm := (hsubperm.perm_of_length_le (by simp [hlength])).symm
  rw [hkept] at hls hkey hperm
  rw [List.map_map] at hperm
  have hidle := List.filter_eq_self.mp hls.symm
  refine ⟨fun e he => ?_, hperm⟩
  have hmem : trimStart (writtenLine e) ∈ es.map fun e => trimStart (writtenLine e) :=
    List.mem_map_of_mem he
  exact ⟨by simpa using hidle _ hmem, hkey _ hmem⟩

/-! ### Keys that are read -/

/-- A character that goes on with a key. -/
def isKeyChar (c : Char) : Bool := !isBlank c && c != '=' && c != ':'

theorem splitKey_line_of_not_mem {key : List Char} (h : '\\' ∉ key) (value : List Char) :
    (splitKey (line key value)).1 = key.takeWhile isKeyChar := by
  induction key with
  | nil => rfl
  | cons c key ih =>
    rw [List.mem_cons, not_or] at h
    obtain ⟨hc, hkey⟩ := h
    change (splitKey (c :: line key value)).1 = _
    rw [splitKey_cons_of_ne (Ne.symm hc)]
    split
    · rename_i hsep
      rw [List.takeWhile_cons_of_neg]
      rcases hsep with rfl | rfl <;> decide
    · rename_i hsep
      rw [not_or] at hsep
      split
      · rename_i hblank
        rw [List.takeWhile_cons_of_neg]
        simp [isKeyChar, hblank]
      · rename_i hblank
        rw [List.takeWhile_cons_of_pos, ← ih hkey]
        simp [isKeyChar, hblank, hsep]

theorem fst_readEntry (h : '\\' ∉ e.1.toList) : (readEntry e).1 =
    String.ofList ((trimStart e.1.toList).takeWhile isKeyChar) := by
  have hslash : '\\' ∉ trimStart e.1.toList := fun hmem => h ((trimStart_suffix _).subset hmem)
  rw [readEntry, trimStart_writtenLine, readLine, line,
    trim_append_cons (isBlank_head?_trimStart _) (by decide)]
  exact congrArg String.ofList (splitKey_line_of_not_mem hslash _)

/-- A line gives no key longer than its own, and its own only if that goes on to its end. -/
theorem length_fst_readEntry_le (h : '\\' ∉ e.1.toList) :
    (readEntry e).1.toList.length ≤ e.1.toList.length ∧
      ((readEntry e).1.toList.length = e.1.toList.length →
        ∀ c ∈ e.1.toList, isKeyChar c) := by
  have htake := List.takeWhile_prefix (l := trimStart e.1.toList) isKeyChar
  have hstart := trimStart_suffix e.1.toList
  rw [fst_readEntry h, String.toList_ofList]
  refine ⟨Nat.le_trans htake.length_le hstart.length_le, fun hlength => ?_⟩
  have hstart' : trimStart e.1.toList = e.1.toList := hstart.eq_of_length_le (hlength ▸ htake.length_le)
  have htake' := htake.eq_of_length (by rw [hlength, hstart'])
  rw [hstart'] at htake'
  rw [← htake']
  exact fun c hc => List.all_eq_true.mp List.all_takeWhile c hc

/-- A line that gives a key as long as its own has a plain key. -/
theorem isPlainKey_of_length (h : '\\' ∉ e.1.toList)
    (hidle : isIdle (trimStart (writtenLine e)) = false)
    (hne : (splitKey (trim (trimStart (writtenLine e)))).1 ≠ [])
    (hlength : (readEntry e).1.toList.length = e.1.toList.length) : IsPlainKey e.1.toList := by
  have hchars : ∀ c ∈ e.1.toList, isBlank c = false ∧ c ≠ '=' ∧ c ≠ ':' ∧ c ≠ '\\' := by
    intro c hc
    have hchar := (length_fst_readEntry_le h).2 hlength c hc
    simp only [isKeyChar, Bool.and_eq_true, Bool.not_eq_true', bne_iff_ne, and_assoc] at hchar
    exact ⟨hchar.1, hchar.2.1, hchar.2.2, ne_of_mem_of_not_mem hc h⟩
  have hstart : trimStart e.1.toList = e.1.toList :=
    trimStart_eq_self fun c hc => (hchars c (List.mem_of_head? hc)).1
  refine ⟨fun hnil => hne (List.eq_nil_of_length_eq_zero ?_), hchars, fun c hc => ?_⟩
  · rw [readEntry, readLine, String.toList_ofList, hnil] at hlength
    exact hlength
  · obtain ⟨cs, hcs⟩ := List.head?_eq_some_iff.mp hc
    rw [trimStart_writtenLine, hstart, hcs] at hidle
    simpa [line, isIdle] using hidle

theorem readEntry_of_isPlainKey (h : IsPlainKey e.1.toList) : readEntry e = bareEntry e := by
  have hstart := (isClosedLine_line h (continued?_escape e.2.toList)).trimStart_eq
  have hentry := (entry_eq_ok_iff.mp (entry_of_isPlainKey h 0 (escape e.2.toList))).2
  rw [readEntry, writtenLine, hstart, ← hentry, String.ofList_toList, unescape_trim_escape, bareEntry]

/-- **Entries are read back** as they are written, a line each, exactly if each has a plain key and no
blank without an escape at an end of its value. -/
theorem ofText_entryLines_iff (hes : (es.map Prod.fst).Nodup) :
    ofText (String.join (es.map fun e => entryLine e.1 e.2)) = .ok (Table.ofList es) ↔
      ∀ e ∈ es, IsPlainKey e.1.toList ∧ IsTrimmed (escape e.2.toList) := by
  refine ⟨fun h e he => ?_, ofText_entryLines⟩
  have hplain := plain_of_ofText_entryLines hes h
  obtain ⟨hread, hperm⟩ := perm_of_ofText_entryLines hes (fun e he => (hplain e he).2) h
  have hsum : (es.map fun e => (readEntry e).1.toList.length).sum =
      (es.map fun e => e.1.toList.length).sum := by
    have hlengths := (hperm.map fun e => e.1.toList.length).sum_nat
    simpa only [List.map_map, Function.comp_def] using hlengths
  have hle : ∀ e ∈ es, (readEntry e).1.toList.length ≤ e.1.toList.length := fun e he =>
    (length_fst_readEntry_le (hplain e he).1).1
  have hkey : IsPlainKey e.1.toList :=
    isPlainKey_of_length (hplain e he).1 (hread e he).1 (hread e he).2
      (List.eq_of_sum_le hle hsum.ge e he)
  refine ⟨hkey, isTrimmed_escape_iff.mpr ?_⟩
  -- the entry that is read has the key of `e`, and stands among the entries: it is `e`
  have hmem : readEntry e ∈ es := hperm.mem_iff.mp (List.mem_map_of_mem he)
  have hself := List.inj_on_of_nodup_map hes hmem he (by rw [readEntry_of_isPlainKey hkey, bareEntry])
  rw [readEntry_of_isPlainKey hkey] at hself
  exact bareEntry_eq_self_iff.mp hself

/-! ### Main results -/

theorem nodup_staticEntries (props : Properties) (dynamicFile : Path) (eraseClientPort : Bool) :
    ((staticEntries props dynamicFile eraseClientPort).map Prod.fst).Nodup := by
  have hkept : ((props.toList.filter fun e => staysInStatic eraseClientPort e.1).map Prod.fst).Nodup :=
    props.nodup_keys.sublist (List.filter_sublist.map _)
  rw [staticEntries, List.map_append]
  refine hkept.append (List.nodup_singleton _) fun key hkey hdynamic => ?_
  obtain ⟨e, he, rfl⟩ := List.mem_map.mp hkey
  have hstays := (List.mem_filter.mp he).2
  rw [List.map_singleton, List.mem_singleton] at hdynamic
  rw [hdynamic] at hstays
  simp [staysInStatic] at hstays

theorem ofText_staticText_iff {props : Properties} {dynamicFile : Path} {eraseClientPort : Bool}
    (hfile : IsTrimmed dynamicFile.display.toList) :
    ofText (staticText props dynamicFile eraseClientPort) =
        .ok (pointedEntries props dynamicFile eraseClientPort) ↔
      props.HasPlainEntries eraseClientPort := by
  rw [staticText_eq, ← ofList_staticEntries, ofText_entryLines_iff (nodup_staticEntries _ _ _)]
  exact forall_staticEntries_iff (isTrimmed_escape_of_isTrimmed hfile)

variable {d d' : Disk} {staticFile dynamicFile named : Path} {eraseClientPort : Bool}
  {props : Properties}

/-- **The rewrite of a static file** keeps every other setting exactly if each setting that stays has a
plain key and no blank without an escape at an end of its value. -/
theorem pointStatic_readsBack_iff
    (hpoint : (pointStatic staticFile dynamicFile eraseClientPort).run.Leaves d (.ok ()) d')
    (hread : ((Properties.ofFile staticFile).run.run d).value = .ok props)
    (hnamed : d.canonical dynamicFile = .ok named) (hfile : IsTrimmed named.display.toList) :
    ((Properties.ofFile staticFile).run.run d').value =
        .ok (pointedEntries props named eraseClientPort) ↔
      props.HasPlainEntries eraseClientPort := by
  obtain ⟨-, -, l, text, hleads, htext, hprops⟩ :=
    Properties.ofFile_leaves_iff.mp (Properties.ofFile_leaves_of_value hread)
  obtain ⟨before, name, directory, hends, hfollow, rfl, -⟩ := hleads.exists_name
  rw [← String.toList_ofList (l := name)] at hends
  obtain ⟨named', text', props', hnamed', hshort, -, htext', hprops', hreplaced⟩ :=
    exists_of_pointStatic_leaves hpoint hends hfollow
  obtain rfl := Except.ok.inj (hnamed.symm.trans hnamed')
  obtain rfl := Option.some.inj (htext.symm.trans htext')
  obtain rfl := Except.ok.inj (hprops.symm.trans hprops')
  rw [Properties.value_ofFile_of_text hshort (hreplaced.sameTree.leadsTo_iff.mpr hleads)
    (text?_of_file? hreplaced.file?_self)]
  exact ofText_staticText_iff hfile

/-- A static file beside an empty dynamic file. -/
def staticDisk (text : String) : Disk where
  nodes := .ofList [(["d"], .file 0 "".toUTF8), (["zoo.cfg"], .file 1 text.toUTF8)]
  here := []
  nextId := 2

theorem staticDisk_leaves {text : String} {eraseClientPort : Bool}
    (h : ((pointStatic ⟨"zoo.cfg"⟩ ⟨"d"⟩ eraseClientPort).run.run (staticDisk text)).value.isOk) :
    ∃ d', (pointStatic ⟨"zoo.cfg"⟩ ⟨"d"⟩ eraseClientPort).run.Leaves (staticDisk text) (.ok ()) d' := by
  cases hvalue : ((pointStatic ⟨"zoo.cfg"⟩ ⟨"d"⟩ eraseClientPort).run.run (staticDisk text)).value with
  | error e =>
    rw [hvalue] at h
    cases h
  | ok u => exact ⟨_, leaves_of_value hvalue⟩

/-- A static file with a client port and a membership. -/
def portText : String := "dataDir=/data\nclientPort=2181\nserver.1=a:3888\nversion=1\n"

/-- The membership and the client port go, the data directory stays. -/
theorem pointStatic_readsBack_iff_port : ∃ d',
    (pointStatic ⟨"zoo.cfg"⟩ ⟨"d"⟩ true).run.Leaves (staticDisk portText) (.ok ()) d' ∧
      ((Properties.ofFile ⟨"zoo.cfg"⟩).run.run d').value =
        .ok (.ofList [("dataDir", "/data"), ("dynamicConfigFile", "/d")]) := by
  obtain ⟨d', hd'⟩ := @staticDisk_leaves portText true (by decide +kernel)
  have hread : ((Properties.ofFile ⟨"zoo.cfg"⟩).run.run (staticDisk portText)).value =
      .ok (.ofList [("dataDir", "/data"), ("clientPort", "2181"), ("server.1", "a:3888"),
        ("version", "1")]) := by rfl
  have hnamed : (staticDisk portText).canonical ⟨"d"⟩ = .ok ⟨"/d"⟩ := by rfl
  have hback := (pointStatic_readsBack_iff hd' hread hnamed (by decide)).mpr (by decide)
  exact ⟨d', hd', hback⟩

/-- A static file with a separator in a key. -/
def oddText : String := "odd\\=key=value\n"

/-- An escaped separator in a key ends the key once the file is rewritten. -/
theorem not_forall_pointStatic_readsBack : ¬ ∀ (staticFile dynamicFile named : Path)
    (eraseClientPort : Bool) (d d' : Disk) (props : Properties),
    (pointStatic staticFile dynamicFile eraseClientPort).run.Leaves d (.ok ()) d' →
    ((Properties.ofFile staticFile).run.run d).value = .ok props →
    d.canonical dynamicFile = .ok named → IsTrimmed named.display.toList →
    ((Properties.ofFile staticFile).run.run d').value =
      .ok (pointedEntries props named eraseClientPort) := by
  intro h
  have hlost : ((Properties.ofFile ⟨"zoo.cfg"⟩).run.run
      ((pointStatic ⟨"zoo.cfg"⟩ ⟨"d"⟩ false).run.run (staticDisk oddText)).disk).value.toOption.any
        (fun props => props.contains "odd=key") = false := by
    decide +kernel
  obtain ⟨d', hd'⟩ := @staticDisk_leaves oddText false (by decide +kernel)
  have hkept := h _ _ ⟨"/d"⟩ _ _ _ (.ofList [("odd=key", "value")]) hd' (by rfl) (by rfl) (by decide)
  rw [hd'.2, hkept] at hlost
  revert hlost
  decide

end Ensemble

-- Text of records: each record is a line, and each line has fields with a separator between them.
-- Reading such a text splits it at the ends of the lines and at the separators.
import Mathlib

namespace Delimited

variable {α : Type*} [DecidableEq α]

/-- Lines that each have an end behind them. -/
def terminate (eol : α) (lines : List (List α)) : List α := lines.flatMap (· ++ [eol])

/-- The lines of a text. What stands behind the last end is none. -/
def lines (eol : α) (text : List α) : List (List α) := (text.splitOn eol).dropLast

/-- The text of records with a separator between the fields. -/
def write (sep eol : α) (records : List (List (List α))) : List α :=
  terminate eol (records.map [sep].intercalate)

def read (sep eol : α) (text : List α) : List (List (List α)) :=
  (lines eol text).map (List.splitOn sep)

variable {sep eol : α} {text : List α}

/-! ## What is split -/

theorem not_mem_of_mem_splitOn (x : α) {l : List α} (h : l ∈ text.splitOn x) : x ∉ l := by
  induction text generalizing l with
  | nil =>
    rw [List.splitOn_nil, List.mem_singleton] at h
    simp [h]
  | cons c text ih =>
    rw [List.splitOn_cons_eq_if_modifyHead] at h
    obtain ⟨first, rest, hsplit⟩ := List.exists_cons_of_ne_nil (List.splitOn_ne_nil x text)
    rw [hsplit] at h ih
    by_cases hc : c = x
    · rw [if_pos (by simp [hc])] at h
      rcases List.mem_cons.mp h with rfl | h
      · exact List.not_mem_nil
      · exact ih h
    · rw [if_neg (by simp [hc]), List.modifyHead_cons] at h
      rcases List.mem_cons.mp h with rfl | h
      · rw [List.mem_cons, not_or]
        exact ⟨Ne.symm hc, ih (List.mem_cons_self ..)⟩
      · exact ih (List.mem_cons_of_mem _ h)

/-- What stands before a text without a separator in it stands before its first part. -/
theorem splitOn_append_of_not_mem {x : α} {title : List α} (h : x ∉ title) (text : List α) :
    (title ++ text).splitOn x = (text.splitOn x).modifyHead (title ++ ·) := by
  induction title with
  | nil =>
    obtain ⟨first, rest, hsplit⟩ := List.exists_cons_of_ne_nil (List.splitOn_ne_nil x text)
    rw [List.nil_append, hsplit]
    rfl
  | cons c title ih =>
    rw [List.mem_cons, not_or] at h
    rw [List.cons_append, List.splitOn_cons_eq_if_modifyHead, if_neg (by simpa using Ne.symm h.1),
      ih h.2, List.modifyHead_modifyHead]
    rfl

omit [DecidableEq α] in
theorem mem_intercalate {s l : List α} {ls : List (List α)} (h : l ∈ ls) {c : α} (hc : c ∈ l) :
    c ∈ s.intercalate ls := by
  induction ls with
  | nil => cases h
  | cons first ls ih =>
    cases ls with
    | nil =>
      obtain rfl := List.mem_singleton.mp h
      simpa using hc
    | cons second ls =>
      rw [List.intercalate_cons_cons]
      rcases List.mem_cons.mp h with rfl | h
      · simp [hc]
      · simp [ih h]

/-- A line with an end in it is read as more than one. -/
theorem lines_terminate (ls : List (List α)) :
    lines eol (terminate eol ls) = ls.flatMap (List.splitOn eol) := by
  induction ls with
  | nil => rfl
  | cons first ls ih =>
    rw [terminate, List.flatMap_cons, ← terminate, List.append_assoc, List.singleton_append, lines,
      List.splitOn_append_cons_self, List.dropLast_append_of_ne_nil (List.splitOn_ne_nil _ _),
      ← lines, ih, List.flatMap_cons]

/-- Lines without an end in them are read as they were written. -/
theorem flatMap_splitOn {ls : List (List α)} (h : ∀ l ∈ ls, eol ∉ l) :
    ls.flatMap (List.splitOn eol) = ls := by
  induction ls with
  | nil => rfl
  | cons first ls ih =>
    rw [List.flatMap_cons, List.splitOn_eq_singleton (h first (List.mem_cons_self ..)),
      ih fun l hl => h l (List.mem_cons_of_mem _ hl), List.singleton_append]

theorem not_mem_of_mem_lines {l : List α} (h : l ∈ lines eol text) : eol ∉ l :=
  not_mem_of_mem_splitOn eol (List.dropLast_subset _ h)

/-! ## What is read -/

/-- No field that is read has a separator or an end of a line in it. -/
theorem not_mem_of_mem_read {record : List (List α)} (hr : record ∈ read sep eol text)
    {field : List α} (hf : field ∈ record) : sep ∉ field ∧ eol ∉ field := by
  obtain ⟨l, hl, rfl⟩ := List.mem_map.mp hr
  refine ⟨not_mem_of_mem_splitOn sep hf, ?_⟩
  intro hc
  have hin := mem_intercalate (s := [sep]) hf hc
  rw [List.intercalate_splitOn] at hin
  exact not_mem_of_mem_lines hl hin

omit [DecidableEq α] in
theorem not_mem_intercalate {record : List (List α)} (hne : sep ≠ eol)
    (h : ∀ field ∈ record, eol ∉ field) : eol ∉ [sep].intercalate record := by
  induction record with
  | nil => simp
  | cons first record ih =>
    have hfirst := h first (List.mem_cons_self ..)
    cases record with
    | nil => simpa using hfirst
    | cons second record =>
      have hrest := ih fun field hf => h field (List.mem_cons_of_mem _ hf)
      rw [List.intercalate_cons_cons]
      simp [hfirst, hrest, hne.symm]

/-- Records are read as they were written if and only if no field has a separator or an end of a
line in it. -/
theorem read_write_iff (hne : sep ≠ eol) {records : List (List (List α))}
    (hfields : ∀ record ∈ records, record ≠ []) :
    read sep eol (write sep eol records) = records ↔
      ∀ record ∈ records, ∀ field ∈ record, sep ∉ field ∧ eol ∉ field := by
  constructor
  · intro h record hr field hf
    rw [← h] at hr
    exact not_mem_of_mem_read hr hf
  · intro h
    have hlines : ∀ l ∈ records.map [sep].intercalate, eol ∉ l := by
      intro l hl
      obtain ⟨record, hr, rfl⟩ := List.mem_map.mp hl
      exact not_mem_intercalate hne fun field hf => (h record hr field hf).2
    rw [read, write, lines_terminate, flatMap_splitOn hlines, List.map_map]
    nth_rewrite 2 [← List.map_id records]
    apply List.map_congr_left
    intro record hr
    exact List.splitOn_intercalate sep (fun field hf => (h record hr field hf).1)
      (hfields record hr)

/-! ## Cells -/

/-- A cell without the blanks around it. -/
def trim (blank : α) (cell : List α) : List α :=
  (cell.dropWhile (· = blank)).rdropWhile (· = blank)

/-- No blank stands at an end. -/
def Trimmed (blank : α) (cell : List α) : Prop :=
  cell.head? ≠ some blank ∧ cell.getLast? ≠ some blank

variable {blank : α} {cell : List α}

theorem trimmed_trim (blank : α) (cell : List α) : Trimmed blank (trim blank cell) := by
  constructor
  · intro hhead
    have hdrop := List.head?_dropWhile_not (· = blank) cell
    obtain ⟨rest, hrest⟩ := List.rdropWhile_prefix (· = blank) (cell.dropWhile (· = blank))
    have hfirst : (cell.dropWhile (· = blank)).head? = some blank := by
      rw [← hrest, List.head?_append, ← trim, hhead, Option.some_or]
    rw [hfirst] at hdrop
    simp at hdrop
  · intro hlast
    obtain ⟨hne, heq⟩ := List.mem_getLast?_eq_getLast hlast
    have hnot := List.rdropWhile_last_not (· = blank) _ hne
    apply hnot
    rw [decide_eq_true_eq]
    exact heq.symm

theorem trim_eq_self (h : Trimmed blank cell) : trim blank cell = cell := by
  have hdrop : cell.dropWhile (· = blank) = cell := by
    rw [List.dropWhile_eq_self_iff]
    intro hpos hblank
    apply h.1
    rw [List.head?_eq_getElem?, List.getElem?_eq_getElem hpos]
    simpa using hblank
  rw [trim, hdrop, List.rdropWhile_eq_self_iff]
  intro hne hblank
  apply h.2
  rw [List.getLast?_eq_getLast_of_ne_nil hne]
  simpa using hblank

theorem trim_padded (blank : α) (cell : List α) :
    trim blank (blank :: (cell ++ [blank])) = trim blank cell := by
  unfold trim
  rw [List.dropWhile_cons_of_pos (by simp), List.dropWhile_append]
  split_ifs with h
  · rw [List.isEmpty_iff.mp h]
    simp
  · rw [List.rdropWhile_concat_pos _ _ _ (by simp)]

theorem mem_of_mem_trim {x : α} (h : x ∈ trim blank cell) : x ∈ cell :=
  List.dropWhile_subset _ ((List.rdropWhile_prefix _ _).subset h)

end Delimited

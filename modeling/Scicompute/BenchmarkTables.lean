-- The tables of a benchmark report (src/benchmark/benchmark_runner.cpp): `export_csv` puts commas
-- between the fields of a result, and `export_markdown` bars and blanks. Neither escapes a name.
import Scicompute.BenchmarkRuns
import Scicompute.Delimited
import Scicompute.StreamFormat

open Delimited

namespace sci.benchmark

variable {K : Type*} [Div K] [OfNat K 1000]

/-- What a number is written with separates no fields. -/
theorem plain_of_numeric {c : Char} (h : StreamFormat.Numeric c) : c ∉ [',', '|', ' ', '\n'] := by
  intro hc
  simp only [List.mem_cons, List.not_mem_nil, or_false] at hc
  rcases hc with rfl | rfl | rfl | rfl <;> simp [StreamFormat.Numeric] at h

/-- How a stream writes numbers, by default and after `std::scientific`: with digits, signs, points
and letters. -/
structure Format (K : Type*) where
  general : K → List Char
  scientific : K → List Char
  plain_general : ∀ x, ∀ c ∈ general x, c ∉ [',', '|', ' ', '\n']
  plain_scientific : ∀ x, ∀ c ∈ scientific x, c ∉ [',', '|', ' ', '\n']

/-- The stream of a file, with the precision that it begins with. -/
def streamFormat : Format ℚ where
  general := StreamFormat.general
  scientific := StreamFormat.scientific
  plain_general x c hc := plain_of_numeric (StreamFormat.numeric_general x c hc)
  plain_scientific x c hc := plain_of_numeric (StreamFormat.numeric_scientific x c hc)

variable (f : Format K)

/-! ## CSV -/

def csv_line (r : Result K) : List Char :=
  r.name ++ (",".toList ++ (f.general (r.mean / 1000) ++ (",".toList ++
    (f.general (r.stddev / 1000) ++ (",".toList ++ (f.general (r.min / 1000) ++ (",".toList ++
    (f.general (r.max / 1000) ++ (",".toList ++ (f.general r.items_per_second ++
    "\n".toList))))))))))

/-- `BenchmarkRunner::export_csv` -/
def export_csv (cases : List (Result K)) : List Char :=
  "name,mean_us,stddev_us,min_us,max_us,items_per_second\n".toList ++ cases.flatMap (csv_line f)

def csv_header : List (List Char) :=
  ["name".toList, "mean_us".toList, "stddev_us".toList, "min_us".toList, "max_us".toList,
    "items_per_second".toList]

def csv_fields (r : Result K) : List (List Char) :=
  [r.name, f.general (r.mean / 1000), f.general (r.stddev / 1000), f.general (r.min / 1000),
    f.general (r.max / 1000), f.general r.items_per_second]

theorem export_csv_eq (cases : List (Result K)) :
    export_csv f cases = write ',' '\n' (csv_header :: cases.map (csv_fields f)) := by
  unfold export_csv write terminate
  rw [List.map_cons, List.flatMap_cons, List.map_map, List.flatMap_map]
  congr 1
  apply List.flatMap_congr
  intro r _
  simp [csv_line, csv_fields, List.intercalate_cons_cons]

/-- The table is read as it was written if and only if no name has a comma or a new line in it. -/
theorem read_export_csv_iff (cases : List (Result K)) :
    read ',' '\n' (export_csv f cases) = csv_header :: cases.map (csv_fields f) ↔
      ∀ r ∈ cases, ',' ∉ r.name ∧ '\n' ∉ r.name := by
  rw [export_csv_eq, read_write_iff (by decide)]
  · have hplain : ∀ x, ',' ∉ f.general x ∧ '\n' ∉ f.general x := fun x =>
      ⟨fun hc => f.plain_general x _ hc (by decide), fun hc => f.plain_general x _ hc (by decide)⟩
    have hheader : ∀ field ∈ csv_header, ',' ∉ field ∧ '\n' ∉ field := by decide
    simp only [List.forall_mem_cons, List.forall_mem_map]
    rw [and_iff_right hheader]
    apply forall₂_congr
    intro r _
    simp [csv_fields, hplain]
  · intro record hr
    rcases List.mem_cons.mp hr with rfl | hr
    · decide
    · obtain ⟨r, -, rfl⟩ := List.mem_map.mp hr
      exact List.cons_ne_nil _ _

/-! ## Markdown -/

/-- A line of the loop, with the format that the stream has before it. -/
def markdown_line (number : K → List Char) (r : Result K) : List Char :=
  "| ".toList ++ (r.name ++ (" | ".toList ++ (number (r.mean / 1000) ++ (" | ".toList ++
    (number (r.stddev / 1000) ++ (" | ".toList ++ (number (r.min / 1000) ++ (" | ".toList ++
    (number (r.max / 1000) ++ (" | ".toList ++ (f.scientific r.items_per_second ++
    " |\n".toList)))))))))))

/-- The loop over the results. The first line sets `std::scientific`, which stays set. -/
def markdown_lines : List (Result K) → List Char
  | [] => []
  | r :: rest => markdown_line f f.general r ++ rest.flatMap (markdown_line f f.scientific)

/-- `BenchmarkRunner::export_markdown` -/
def export_markdown (hostname build_type : List Char) (cases : List (Result K)) : List Char :=
  "# Benchmark Results\n\n".toList ++ (("**Host:** ".toList ++ (hostname ++ "\n".toList)) ++
    (("**Build:** ".toList ++ (build_type ++ "\n\n".toList)) ++
    ("| Benchmark | Mean (us) | StdDev (us) | Min (us) | Max (us) | Items/s |\n".toList ++
    ("|-----------|-----------|-------------|----------|----------|---------|\n".toList ++
    markdown_lines f cases))))

/-- The cells between the bars of a line. -/
def cells (line : List Char) : List (List Char) := ((line.splitOn '|').tail.dropLast).map (trim ' ')

/-- The tables of a text: its lines that begin with a bar. -/
def readTables (text : List Char) : List (List (List Char)) :=
  ((lines '\n' text).filter (·.head? = some '|')).map cells

def markdown_header : List (List Char) :=
  ["Benchmark".toList, "Mean (us)".toList, "StdDev (us)".toList, "Min (us)".toList,
    "Max (us)".toList, "Items/s".toList]

def markdown_rule : List (List Char) :=
  ["-----------".toList, "-----------".toList, "-------------".toList, "----------".toList,
    "----------".toList, "---------".toList]

def markdown_fields (number : K → List Char) (r : Result K) : List (List Char) :=
  [r.name, number (r.mean / 1000), number (r.stddev / 1000), number (r.min / 1000),
    number (r.max / 1000), f.scientific r.items_per_second]

def markdown_rows : List (Result K) → List (List (List Char))
  | [] => []
  | r :: rest => markdown_fields f f.general r :: rest.map (markdown_fields f f.scientific)

/-! ## What is read of a line -/

def tableOf (line : List Char) : List (List (List Char)) :=
  ((line.splitOn '\n').filter (·.head? = some '|')).map cells

theorem readTables_terminate (ls : List (List Char)) :
    readTables (terminate '\n' ls) = ls.flatMap tableOf := by
  unfold readTables
  rw [lines_terminate, List.filter_flatMap, List.map_flatMap]
  rfl

/-- A cell that is read has no bar and no end of a line in it, and no blanks around it. -/
theorem cell_of_mem_readTables {text : List Char} {row : List (List Char)}
    (hr : row ∈ readTables text) {cell : List Char} (hc : cell ∈ row) :
    '|' ∉ cell ∧ '\n' ∉ cell ∧ Trimmed ' ' cell := by
  obtain ⟨line, hline, rfl⟩ := List.mem_map.mp hr
  obtain ⟨padded, hpadded, rfl⟩ := List.mem_map.mp hc
  have hsplit : padded ∈ line.splitOn '|' :=
    List.tail_subset _ (List.dropLast_subset _ hpadded)
  refine ⟨?_, ?_, trimmed_trim ' ' padded⟩
  · intro hbar
    exact not_mem_of_mem_splitOn '|' hsplit (mem_of_mem_trim hbar)
  · intro hend
    have hin := mem_intercalate (s := ['|']) hsplit (mem_of_mem_trim hend)
    rw [List.intercalate_splitOn] at hin
    exact not_mem_of_mem_lines (List.mem_of_mem_filter hline) hin

/-- A line of cells between bars and blanks. -/
def barred (row : List (List Char)) : List Char :=
  ['|'].intercalate ([] :: (row.map (fun cell => ' ' :: (cell ++ [' '])) ++ [[]]))

theorem cells_barred {row : List (List Char)} (h : ∀ cell ∈ row, '|' ∉ cell) :
    cells (barred row) = row.map (trim ' ') := by
  have hbars : ∀ l ∈ [] :: (row.map (fun cell => ' ' :: (cell ++ [' '])) ++ [[]]), '|' ∉ l := by
    intro l hl
    rw [List.mem_cons, List.mem_append, List.mem_map, List.mem_singleton] at hl
    rcases hl with rfl | ⟨cell, hcell, rfl⟩ | rfl
    · exact List.not_mem_nil
    · simp [h cell hcell]
    · exact List.not_mem_nil
  unfold cells barred
  rw [List.splitOn_intercalate '|' hbars (List.cons_ne_nil _ _), List.tail_cons,
    List.dropLast_concat, List.map_map]
  apply List.map_congr_left
  intro cell _
  exact trim_padded ' ' cell

/-- A line whose cells have no bar and no end of a line in them. -/
theorem tableOf_barred {row : List (List Char)} (hne : row ≠ [])
    (h : ∀ cell ∈ row, '|' ∉ cell ∧ '\n' ∉ cell) : tableOf (barred row) = [row.map (trim ' ')] := by
  have hend : '\n' ∉ barred row := by
    apply not_mem_intercalate (by decide)
    intro l hl
    rw [List.mem_cons, List.mem_append, List.mem_map, List.mem_singleton] at hl
    rcases hl with rfl | ⟨cell, hcell, rfl⟩ | rfl
    · exact List.not_mem_nil
    · simp [(h cell hcell).2]
    · exact List.not_mem_nil
  have hhead : (barred row).head? = some '|' := by
    obtain ⟨first, rest, rfl⟩ := List.exists_cons_of_ne_nil hne
    simp [barred, List.intercalate_cons_cons]
  have hfilter : [barred row].filter (·.head? = some '|') = [barred row] := by
    rw [List.filter_eq_self]
    intro line hline
    rw [List.mem_singleton.mp hline]
    exact decide_eq_true hhead
  unfold tableOf
  rw [List.splitOn_eq_singleton hend, hfilter, List.map_singleton,
    cells_barred fun cell hcell => (h cell hcell).1]

/-- No line of the text but the first begins with a bar. -/
def NoTable (text : List Char) : Prop := ∀ line ∈ (text.splitOn '\n').tail, line.head? ≠ some '|'

theorem tableOf_title {title : List Char} (hhead : title.head? ≠ some '|') (hne : title ≠ [])
    (hend : '\n' ∉ title) (text : List Char) : tableOf (title ++ text) = [] ↔ NoTable text := by
  obtain ⟨first, rest, hsplit⟩ := List.exists_cons_of_ne_nil (List.splitOn_ne_nil '\n' text)
  have hfirst : (title ++ first).head? ≠ some '|' := by
    rw [List.head?_append_of_ne_nil _ hne]
    exact hhead
  unfold tableOf NoTable
  rw [splitOn_append_of_not_mem hend, hsplit, List.modifyHead_cons, List.map_eq_nil_iff,
    List.filter_eq_nil_iff, List.forall_mem_cons, List.tail_cons]
  simp only [decide_eq_true_eq]
  exact and_iff_right hfirst

/-! ## What is read of the table -/

theorem markdown_line_eq (number : K → List Char) (r : Result K) :
    markdown_line f number r = barred (markdown_fields f number r) ++ ['\n'] := by
  simp [markdown_line, barred, markdown_fields, List.intercalate_cons_cons]

theorem markdown_lines_eq (cases : List (Result K)) :
    markdown_lines f cases = terminate '\n' ((markdown_rows f cases).map barred) := by
  cases cases with
  | nil => rfl
  | cons r rest =>
    rw [markdown_lines, markdown_rows, terminate, List.map_cons, List.flatMap_cons,
      markdown_line_eq, List.map_map, List.flatMap_map]
    congr 1
    apply List.flatMap_congr
    intro r _
    exact markdown_line_eq f f.scientific r

theorem export_markdown_eq (hostname build_type : List Char) (cases : List (Result K)) :
    export_markdown f hostname build_type cases = terminate '\n'
      (["# Benchmark Results".toList, [], "**Host:** ".toList ++ hostname,
        "**Build:** ".toList ++ build_type, [], barred markdown_header,
        "|-----------|-----------|-------------|----------|----------|---------|".toList] ++
        (markdown_rows f cases).map barred) := by
  unfold export_markdown
  rw [markdown_lines_eq]
  simp [terminate, barred, markdown_header, List.intercalate_cons_cons]

theorem mem_markdown_rows {cases : List (Result K)} {row : List (List Char)}
    (h : row ∈ markdown_rows f cases) : ∃ r ∈ cases, row = markdown_fields f f.general r ∨
      row = markdown_fields f f.scientific r := by
  cases cases with
  | nil => cases h
  | cons first rest =>
    rcases List.mem_cons.mp h with rfl | h
    · exact ⟨first, List.mem_cons_self .., Or.inl rfl⟩
    · obtain ⟨r, hr, rfl⟩ := List.mem_map.mp h
      exact ⟨r, List.mem_cons_of_mem _ hr, Or.inr rfl⟩

theorem exists_name_mem_markdown_rows {cases : List (Result K)} {r : Result K} (h : r ∈ cases) :
    ∃ row ∈ markdown_rows f cases, r.name ∈ row := by
  cases cases with
  | nil => cases h
  | cons first rest =>
    rcases List.mem_cons.mp h with rfl | h
    · exact ⟨_, List.mem_cons_self .., List.mem_cons_self ..⟩
    · exact ⟨_, List.mem_cons_of_mem _ (List.mem_map_of_mem h), List.mem_cons_self ..⟩

theorem trimmed_of_not_mem {cell : List Char} (h : ' ' ∉ cell) : Trimmed ' ' cell :=
  ⟨fun hc => h (List.mem_of_head? hc), fun hc => h (List.mem_of_getLast? hc)⟩

/-- The cells of a line are plain if its name is. -/
theorem plain_fields {r : Result K} (h : '|' ∉ r.name ∧ '\n' ∉ r.name ∧ Trimmed ' ' r.name)
    {row : List (List Char)}
    (hrow : row = markdown_fields f f.general r ∨ row = markdown_fields f f.scientific r) :
    ∀ cell ∈ row, '|' ∉ cell ∧ '\n' ∉ cell ∧ Trimmed ' ' cell := by
  have hplain {cell : List Char} (hcell : ∀ c ∈ cell, c ∉ [',', '|', ' ', '\n']) :
      '|' ∉ cell ∧ '\n' ∉ cell ∧ Trimmed ' ' cell :=
    ⟨fun hc => hcell _ hc (by decide), fun hc => hcell _ hc (by decide),
      trimmed_of_not_mem fun hc => hcell _ hc (by decide)⟩
  have hgeneral := fun x => hplain (f.plain_general x)
  have hscientific := fun x => hplain (f.plain_scientific x)
  rcases hrow with rfl | rfl
  · simp only [markdown_fields, List.forall_mem_cons]
    exact ⟨h, hgeneral _, hgeneral _, hgeneral _, hgeneral _, hscientific _, by simp⟩
  · simp only [markdown_fields, List.forall_mem_cons]
    exact ⟨h, hscientific _, hscientific _, hscientific _, hscientific _, hscientific _, by simp⟩

/-- Plain rows are read as they were written. -/
theorem flatMap_tableOf {rows : List (List (List Char))} (hne : ∀ row ∈ rows, row ≠ [])
    (h : ∀ row ∈ rows, ∀ cell ∈ row, '|' ∉ cell ∧ '\n' ∉ cell ∧ Trimmed ' ' cell) :
    (rows.map barred).flatMap tableOf = rows := by
  induction rows with
  | nil => rfl
  | cons row rows ih =>
    rw [List.forall_mem_cons] at hne h
    have htrim : row.map (trim ' ') = row := by
      nth_rewrite 2 [← List.map_id row]
      apply List.map_congr_left
      intro cell hcell
      exact trim_eq_self (h.1 cell hcell).2.2
    rw [List.map_cons, List.flatMap_cons, ih hne.2 h.2, tableOf_barred hne.1, htrim,
      List.singleton_append]
    intro cell hcell
    exact ⟨(h.1 cell hcell).1, (h.1 cell hcell).2.1⟩

/-- The tables of the text are the header, the rule and the rows if and only if names have no bar,
no new line and no blanks around them, and the host name and the build type begin no line with a
bar. -/
theorem read_export_markdown_iff (hostname build_type : List Char) (cases : List (Result K)) :
    readTables (export_markdown f hostname build_type cases) =
        markdown_header :: markdown_rule :: markdown_rows f cases ↔
      (∀ r ∈ cases, '|' ∉ r.name ∧ '\n' ∉ r.name ∧ Trimmed ' ' r.name) ∧
        NoTable hostname ∧ NoTable build_type := by
  have hread (hnames : ∀ r ∈ cases, '|' ∉ r.name ∧ '\n' ∉ r.name ∧ Trimmed ' ' r.name) :
      readTables (export_markdown f hostname build_type cases) =
        tableOf ("**Host:** ".toList ++ hostname) ++
          (tableOf ("**Build:** ".toList ++ build_type) ++
            (markdown_header :: markdown_rule :: markdown_rows f cases)) := by
    have htitle : tableOf "# Benchmark Results".toList = [] := by decide
    have hempty : tableOf [] = [] := by decide
    have hheader : tableOf (barred markdown_header) = [markdown_header] := by decide
    have hrule : tableOf
        "|-----------|-----------|-------------|----------|----------|---------|".toList =
          [markdown_rule] := by decide
    have hrows : ((markdown_rows f cases).map barred).flatMap tableOf = markdown_rows f cases := by
      apply flatMap_tableOf
      · intro row hrow
        obtain ⟨r, -, rfl | rfl⟩ := mem_markdown_rows f hrow
        · exact List.cons_ne_nil _ _
        · exact List.cons_ne_nil _ _
      · intro row hrow
        obtain ⟨r, hr, hfields⟩ := mem_markdown_rows f hrow
        exact plain_fields f (hnames r hr) hfields
    rw [export_markdown_eq, readTables_terminate, List.flatMap_append, hrows]
    simp only [List.flatMap_cons, List.flatMap_nil, htitle, hempty, hheader, hrule]
    simp
  have hhost : tableOf ("**Host:** ".toList ++ hostname) = [] ↔ NoTable hostname :=
    tableOf_title (by decide) (by decide) (by decide) hostname
  have hbuild : tableOf ("**Build:** ".toList ++ build_type) = [] ↔ NoTable build_type :=
    tableOf_title (by decide) (by decide) (by decide) build_type
  constructor
  · intro h
    have hnames : ∀ r ∈ cases, '|' ∉ r.name ∧ '\n' ∉ r.name ∧ Trimmed ' ' r.name := by
      intro r hr
      obtain ⟨row, hrow, hname⟩ := exists_name_mem_markdown_rows f hr
      have hmem : row ∈ readTables (export_markdown f hostname build_type cases) := by
        rw [h]
        exact List.mem_cons_of_mem _ (List.mem_cons_of_mem _ hrow)
      exact cell_of_mem_readTables hmem hname
    refine ⟨hnames, ?_⟩
    rw [hread hnames, ← List.append_assoc, List.append_left_eq_self, List.append_eq_nil_iff,
      hhost, hbuild] at h
    exact h
  · rintro ⟨hnames, hhost', hbuild'⟩
    rw [hread hnames, hhost.mpr hhost', hbuild.mpr hbuild', List.nil_append, List.nil_append]

/-- When the exported tables are read as they were written. -/
theorem tables_are_read_iff (hostname build_type : List Char) (cases : List (Result K)) :
    (read ',' '\n' (export_csv f cases) = csv_header :: cases.map (csv_fields f) ↔
      ∀ r ∈ cases, ',' ∉ r.name ∧ '\n' ∉ r.name) ∧
    (readTables (export_markdown f hostname build_type cases) =
        markdown_header :: markdown_rule :: markdown_rows f cases ↔
      (∀ r ∈ cases, '|' ∉ r.name ∧ '\n' ∉ r.name ∧ Trimmed ' ' r.name) ∧
        NoTable hostname ∧ NoTable build_type) :=
  ⟨read_export_csv_iff f cases, read_export_markdown_iff f hostname build_type cases⟩

/-- The results of two cases, of two samples each. A name may have a blank inside. -/
def measured : List (Result ℚ) :=
  [⟨"gemm 64".toList, "items".toList, 64, 6401, 6401, 2, 64 * 10 ^ 9 / 6401, 0, 6401,
      1414 / 1000, 6400, 6402, [6400, 6402]⟩,
    ⟨"softmax-1024".toList, "items".toList, 1024, 512, 512, 2, 2 * 10 ^ 9, 0, 512, 0, 512, 512,
      [512, 512]⟩]

example : export_csv streamFormat measured = ("name,mean_us,stddev_us,min_us,max_us," ++
    "items_per_second\ngemm 64,6.401,0.001414,6.4,6.402,9.99844e+06\n" ++
    "softmax-1024,0.512,0,0.512,0.512,2e+09\n").toList := by decide +kernel

theorem two_results_are_read :
    read ',' '\n' (export_csv streamFormat measured) =
      csv_header :: measured.map (csv_fields streamFormat) ∧
    readTables (export_markdown streamFormat "node-7".toList "Release".toList measured) =
      markdown_header :: markdown_rule :: markdown_rows streamFormat measured := by
  have hread := tables_are_read_iff streamFormat "node-7".toList "Release".toList measured
  refine ⟨hread.1.mpr (by decide), hread.2.mpr ?_⟩
  unfold Trimmed NoTable
  decide

end sci.benchmark

-- The JSON text of a benchmark report (src/benchmark/benchmark_runner.cpp). Strings are lists of
-- characters, and a number is the text that the stream writes for it. `export_json` puts the
-- strings between quotation marks as they are, and the time stamp of `ctime` ends with a new line.
import Scicompute.Json

open Json

namespace sci

/-! ## Time stamps -/

/-- `struct tm`, as `localtime` gives it. -/
structure Tm where
  tm_sec : Nat
  tm_min : Nat
  tm_hour : Nat
  tm_mday : Nat
  tm_mon : Fin 12
  tm_year : Int
  tm_wday : Fin 7

def wday_name : Fin 7 → List Char :=
  ![['S', 'u', 'n'], ['M', 'o', 'n'], ['T', 'u', 'e'], ['W', 'e', 'd'], ['T', 'h', 'u'],
    ['F', 'r', 'i'], ['S', 'a', 't']]

def mon_name : Fin 12 → List Char :=
  ![['J', 'a', 'n'], ['F', 'e', 'b'], ['M', 'a', 'r'], ['A', 'p', 'r'], ['M', 'a', 'y'],
    ['J', 'u', 'n'], ['J', 'u', 'l'], ['A', 'u', 'g'], ['S', 'e', 'p'], ['O', 'c', 't'],
    ['N', 'o', 'v'], ['D', 'e', 'c']]

/-- `%.2d` -/
def twoDigits (n : Nat) : List Char := (Nat.toDigits 10 n).leftpad 2 '0'

/-- `%d` -/
def decimal (n : Int) : List Char :=
  (if n < 0 then ['-'] else []) ++ Nat.toDigits 10 n.natAbs

/-- The text of `asctime` without its new line: `"%.3s %.3s%3d %.2d:%.2d:%.2d %d"`. -/
def date (t : Tm) : List Char :=
  wday_name t.tm_wday ++ [' '] ++ mon_name t.tm_mon ++ (Nat.toDigits 10 t.tm_mday).leftpad 3 ' ' ++
    [' '] ++ twoDigits t.tm_hour ++ [':'] ++ twoDigits t.tm_min ++ [':'] ++ twoDigits t.tm_sec ++
    [' '] ++ decimal (1900 + t.tm_year)

/-- `std::ctime`, for a time that is `t` in local time. -/
def ctime (t : Tm) : List Char := date t ++ ['\n']

/-! ## Reports -/

/-- The fields of `BenchmarkCase::Result` that are exported. -/
structure BenchmarkCase.Result where
  name : List Char
  mean : List Char
  stddev : List Char
  min : List Char
  max : List Char
  items_per_second : List Char

structure BenchmarkReport where
  timestamp : List Char
  hostname : List Char
  build_type : List Char
  cases : List BenchmarkCase.Result

namespace BenchmarkReport

/-- `BenchmarkRunner::collect_system_info`. No host name is there when `gethostname` fails. -/
def collect_system_info (report_ : BenchmarkReport) (now : Tm) (hostname : Option (List Char))
    (debug : Bool) : BenchmarkReport :=
  { report_ with
    timestamp := ctime now
    hostname := hostname.getD report_.hostname
    build_type := if debug then "Debug".toList else "Release".toList }

/-- The members of one result, without the braces. -/
def export_result (r : BenchmarkCase.Result) : List Char :=
  "\n      \"name\": \"".toList ++ (r.name ++
  ("\",\n      \"mean_ns\": ".toList ++ (r.mean ++
  (",\n      \"stddev_ns\": ".toList ++ (r.stddev ++
  (",\n      \"min_ns\": ".toList ++ (r.min ++
  (",\n      \"max_ns\": ".toList ++ (r.max ++
  (",\n      \"items_per_second\": ".toList ++ (r.items_per_second ++ "\n    ".toList)))))))))))

/-- The loop over the results. A comma stands behind all but the last. -/
def export_results : List BenchmarkCase.Result → List Char
  | [] => []
  | r :: rest =>
    "    \x7b".toList ++ (export_result r ++ ("\x7d".toList ++
      ((if rest ≠ [] then ",".toList else []) ++ ("\n".toList ++ export_results rest))))

/-- `BenchmarkRunner::export_json` -/
def export_json (report_ : BenchmarkReport) : List Char :=
  "\x7b\n".toList ++
  ("  \"timestamp\": \"".toList ++ (report_.timestamp ++
  ("\",\n  \"hostname\": \"".toList ++ (report_.hostname ++
  ("\",\n  \"build_type\": \"".toList ++ (report_.build_type ++
  ("\",\n  \"results\": [\n".toList ++ (export_results report_.cases ++
  ("  ]\n".toList ++ "\x7d\n".toList)))))))))

/-- The object has the name of the result. -/
def HasName (r : BenchmarkCase.Result) (v : Value) : Prop :=
  ∃ ms, v = .object ms ∧ ("name".toList, Value.string r.name) ∈ ms

/-- The text is a document with the strings of the report, and one object for each result, in order.
-/
def Exported (report_ : BenchmarkReport) : Prop :=
  ∃ ms vs, Document report_.export_json (.object ms) ∧
    ("timestamp".toList, Value.string report_.timestamp) ∈ ms ∧
    ("hostname".toList, Value.string report_.hostname) ∈ ms ∧
    ("results".toList, Value.array vs) ∈ ms ∧ List.Forall₂ HasName report_.cases vs

/-! ## The time stamp of `ctime` -/

theorem plain_digits (n : Nat) : Plain (Nat.toDigits 10 n) := by
  intro c hc
  have hdigit := Nat.isDigit_of_mem_toDigits (by decide) (by decide) hc
  rw [Char.isDigit_iff_toNat] at hdigit
  refine ⟨?_, ?_, ?_⟩
  · rintro rfl
    exact absurd hdigit (by decide)
  · rintro rfl
    exact absurd hdigit (by decide)
  · exact le_trans (by decide) hdigit.1

theorem plain_leftpad {s : List Char} {c : Char} {n : Nat} (hs : Plain s) (hc : Unescaped c) :
    Plain (s.leftpad n c) := by
  unfold List.leftpad
  rw [plain_append]
  exact ⟨fun d hd => List.eq_of_mem_replicate hd ▸ hc, hs⟩

theorem plain_date (t : Tm) : Plain (date t) := by
  have hwday : ∀ i, Plain (wday_name i) := by decide
  have hmon : ∀ i, Plain (mon_name i) := by decide
  have htwo : ∀ n, Plain (twoDigits n) :=
    fun n => plain_leftpad (plain_digits n) (by decide)
  have hday : Plain ((Nat.toDigits 10 t.tm_mday).leftpad 3 ' ') :=
    plain_leftpad (plain_digits t.tm_mday) (by decide)
  have hyear : Plain (decimal (1900 + t.tm_year)) := by
    unfold decimal
    rw [plain_append]
    refine ⟨?_, plain_digits _⟩
    split_ifs <;> decide
  have hblank : Plain [' '] := by decide
  have hcolon : Plain [':'] := by decide
  simp only [date, plain_append, hwday, hmon, htwo, hday, hyear, hblank, hcolon, and_self]

/-- The new line of the time stamp stands in a string of the text. -/
theorem not_document (report_ : BenchmarkReport) (now : Tm) (hostname : Option (List Char))
    (debug : Bool) (v : Value) :
    ¬ Document (report_.collect_system_info now hostname debug).export_json v := by
  obtain ⟨rest, hrest⟩ : ∃ rest, (report_.collect_system_info now hostname debug).export_json =
      "\x7b\n".toList ++ ("  \"timestamp\": \"".toList ++ (date now ++ '\n' :: rest)) := by
    simp only [export_json, collect_system_info, ctime, List.append_assoc]
    exact ⟨_, rfl⟩
  have hkey : Plain "timestamp".toList := by decide
  rw [hrest]
  simp only [String.reduceToList, List.cons_append, List.nil_append] at hkey ⊢
  exact not_document_of_control rfl rfl rfl rfl hkey (plain_date now) (by decide) v

/-! ## Reports of plain strings -/

/-- Every string stands for itself, and every number has the text of a number. -/
structure PlainResult (r : BenchmarkCase.Result) : Prop where
  name : Plain r.name
  mean : IsNumber r.mean
  stddev : IsNumber r.stddev
  min : IsNumber r.min
  max : IsNumber r.max
  items_per_second : IsNumber r.items_per_second

structure PlainReport (report_ : BenchmarkReport) : Prop where
  timestamp : Plain report_.timestamp
  hostname : Plain report_.hostname
  build_type : Plain report_.build_type
  cases : ∀ r ∈ report_.cases, PlainResult r

/-- The members that a result decodes to. -/
def resultMembers (r : BenchmarkCase.Result) : List (List Char × Value) :=
  [("name".toList, .string r.name), ("mean_ns".toList, .number r.mean),
    ("stddev_ns".toList, .number r.stddev), ("min_ns".toList, .number r.min),
    ("max_ns".toList, .number r.max), ("items_per_second".toList, .number r.items_per_second)]

theorem members_result {r : BenchmarkCase.Result} (h : PlainResult r) (rest : List Char) :
    Members (export_result r ++ '\x7d' :: rest) (resultMembers r) rest := by
  unfold export_result resultMembers
  simp only [String.reduceToList, List.append_assoc, List.cons_append, List.nil_append]
  refine .cons_of_plain (by decide) rfl rfl (h.name.parses _) rfl ?_
  refine .cons_of_plain (by decide) rfl rfl (h.mean.parses _) rfl ?_
  refine .cons_of_plain (by decide) rfl rfl (h.stddev.parses _) rfl ?_
  refine .cons_of_plain (by decide) rfl rfl (h.min.parses _) rfl ?_
  refine .cons_of_plain (by decide) rfl rfl (h.max.parses _) rfl ?_
  exact .last_of_plain (by decide) rfl rfl (h.items_per_second.parses _) rfl

theorem parses_result {r : BenchmarkCase.Result} (h : PlainResult r) (rest : List Char) :
    Parses (skipWs ("    \x7b".toList ++ (export_result r ++ ("\x7d".toList ++ rest))))
      (.object (resultMembers r)) rest :=
  .object (members_result h rest)

theorem export_results_cons (r : BenchmarkCase.Result) (results : List BenchmarkCase.Result) :
    export_results (r :: results) = "    \x7b".toList ++ (export_result r ++ ("\x7d".toList ++
      ((if results ≠ [] then ",".toList else []) ++ ("\n".toList ++ export_results results)))) :=
  rfl

/-- The loop writes the elements of an array. -/
theorem elements_results {results : List BenchmarkCase.Result} (h : ∀ r ∈ results, PlainResult r)
    (hne : results ≠ []) (rest : List Char) :
    Elements (export_results results ++ ("  ]".toList ++ rest))
      (results.map fun r => .object (resultMembers r)) rest := by
  induction results with
  | nil => exact absurd rfl hne
  | cons r results ih =>
    have hr := h r (List.mem_cons_self ..)
    rw [export_results_cons, List.map_cons]
    simp only [List.append_assoc]
    cases results with
    | nil => exact .last (parses_result hr _) rfl
    | cons r' results =>
      have hrest := ih (fun x hx => h x (List.mem_cons_of_mem _ hx)) (List.cons_ne_nil _ _)
      exact .cons (parses_result hr _) rfl (hrest.congr rfl)

theorem parses_results {results : List BenchmarkCase.Result} (h : ∀ r ∈ results, PlainResult r)
    (rest : List Char) :
    Parses ('[' :: ("\n".toList ++ (export_results results ++ ("  ]".toList ++ rest))))
      (.array (results.map fun r => .object (resultMembers r))) rest := by
  cases results with
  | nil => exact .empty_array rfl
  | cons r results =>
    exact .array ((elements_results h (List.cons_ne_nil _ _) rest).congr rfl)

/-- The members that a report decodes to. -/
def reportMembers (report_ : BenchmarkReport) : List (List Char × Value) :=
  [("timestamp".toList, .string report_.timestamp), ("hostname".toList, .string report_.hostname),
    ("build_type".toList, .string report_.build_type),
    ("results".toList, .array (report_.cases.map fun r => .object (resultMembers r)))]

theorem document_of_plain {report_ : BenchmarkReport} (h : PlainReport report_) :
    Document report_.export_json (.object report_.reportMembers) := by
  refine ⟨['\n'], ?_, rfl⟩
  have hresults := parses_results h.cases ['\n', '\x7d', '\n']
  unfold export_json reportMembers
  simp only [String.reduceToList, List.cons_append, List.nil_append] at hresults ⊢
  refine .object ?_
  refine .cons_of_plain (by decide) rfl rfl (h.timestamp.parses _) rfl ?_
  refine .cons_of_plain (by decide) rfl rfl (h.hostname.parses _) rfl ?_
  refine .cons_of_plain (by decide) rfl rfl (h.build_type.parses _) rfl ?_
  exact .last_of_plain (by decide) rfl rfl hresults rfl

/-- A report of plain strings and numbers is exported as it is. -/
theorem plain_reports_are_exported {report_ : BenchmarkReport} (h : PlainReport report_) :
    report_.Exported := by
  refine ⟨report_.reportMembers, report_.cases.map fun r => .object (resultMembers r),
    document_of_plain h, ?_, ?_, ?_, ?_⟩
  · simp [reportMembers]
  · simp [reportMembers]
  · simp [reportMembers]
  · rw [List.forall₂_map_right_iff, List.forall₂_same]
    exact fun r _ => ⟨_, rfl, List.mem_cons_self ..⟩

/-! ## Reports with the time stamp of `ctime` -/

/-- No report that `collect_system_info` has filled in is exported as it is. -/
theorem reports_with_a_ctime_are_not_exported (report_ : BenchmarkReport) (now : Tm)
    (hostname : Option (List Char)) (debug : Bool) :
    ¬ (report_.collect_system_info now hostname debug).Exported := by
  rintro ⟨ms, vs, hdocument, -⟩
  exact not_document report_ now hostname debug _ hdocument

/-- A report without results, at the start of 1970. -/
theorem epoch_is_not_exported :
    ¬ (collect_system_info ⟨[], [], [], []⟩ ⟨0, 0, 0, 1, 0, 70, 4⟩ (some ['h'])
      false).Exported := by
  rintro ⟨ms, vs, hdocument, -⟩
  exact not_document _ _ _ _ _ hdocument

end BenchmarkReport

end sci

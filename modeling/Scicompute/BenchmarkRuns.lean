-- Benchmark runs (src/benchmark/benchmark_runner.cpp): `BenchmarkCase::run` calls what it measures
-- and takes times, and `BenchmarkRunner::run` appends the results of the cases that its filter
-- keeps to the report. What the callbacks and the clock change is the world `ω`, and times are
-- exact numbers.
import Scicompute.BenchmarkRanges
import Scicompute.Statistics

open Word Statistics

namespace sci.benchmark

variable {ω K : Type*}

/-- `BenchmarkCase::Result` -/
structure Result (K : Type*) where
  name : List Char
  unit : List Char
  num_items : Nat
  cpu_time_ns : K
  real_time_ns : K
  iterations : Nat
  items_per_second : K
  bytes_per_second : K
  mean : K
  stddev : K
  min : K
  max : K
  samples : List K

/-- A `BenchmarkCase` with all that its runs read. A callback may be missing. -/
structure MeasuredCase (ω : Type*) extends BenchmarkCase where
  name_ : List Char
  unit_ : List Char
  min_iters_ : Nat
  max_iters_ : Nat
  min_time_ms_ : Nat
  setup_ : Option (ω → ω)
  run_ : Option (Nat → ω → ω)
  teardown_ : Option (ω → ω)

/-! ## Statistics -/

section Numbers

variable [Field K] [LinearOrder K]

def mean (values : List K) : K :=
  if values = [] then 0 else values.foldl (· + ·) 0 / values.length

def stddev (sqrt : K → K) (values : List K) : K :=
  if values.length < 2 then 0
  else
    let m := mean values
    let sum_sq := values.foldl (fun sum_sq v => sum_sq + (v - m) * (v - m)) 0
    sqrt (sum_sq / (values.length - 1 : Nat))

/-- The conversion of `p * sorted.size()` to `size_t` has a result for numbers above -1 and below
`2^64`. -/
def percentile [FloorSemiring K] (values : List K) (p : K) : Option K :=
  if values = [] then some 0
  else
    let sorted := sorted values
    let x := p * sorted.length
    if -1 < x ∧ x < wordSize then
      let idx := ⌊x⌋₊
      let idx := if sorted.length ≤ idx then sorted.length - 1 else idx
      sorted[idx]?
    else none

/-! ## One case -/

/-- The clock, and the square root. -/
structure Platform (ω K : Type*) [Field K] [LinearOrder K] where
  now : ω → K × ω
  sqrt : K → K
  sqrt_nonneg : ∀ x, 0 ≤ x → 0 ≤ sqrt x
  sqrt_mul_self : ∀ x, 0 ≤ x → sqrt x * sqrt x = x

namespace MeasuredCase

variable (c : MeasuredCase ω) (platform : Platform ω K)

/-- `if (run_) run_(1);` -/
def call (w : ω) : ω := (c.run_.map fun run => run 1 w).getD w

def call_setup (w : ω) : ω := (c.setup_.map fun setup => setup w).getD w

def call_teardown (w : ω) : ω := (c.teardown_.map fun teardown => teardown w).getD w

/-- The final loop, with `n` rounds to go. -/
def measure : Nat → List K → ω → List K × ω
  | 0, times, w => (times, w)
  | n + 1, times, w =>
    let (t_start, w) := platform.now w
    let w := c.call w
    let (t_end, w) := platform.now w
    measure n (times ++ [t_end - t_start]) w

/-- The rounds of the final loop, after a loop of `min_iters_` rounds that took `elapsed`
nanoseconds. -/
def rounds (elapsed : K) : Nat :=
  let target_time : K := c.min_time_ms_ * 1000000
  if elapsed < target_time ∧ c.min_iters_ < c.max_iters_ then
    Nat.min (mul c.min_iters_ 2) c.max_iters_
  else c.min_iters_

/-- The results of `iters` rounds. -/
def summarize (num_items iters : Nat) (times : List K) : Result K :=
  let cpu_time_ns := if times = [] then 0 else benchmark.mean times
  { name := c.name_
    unit := c.unit_
    num_items := num_items
    cpu_time_ns := cpu_time_ns
    real_time_ns := cpu_time_ns
    iterations := iters
    items_per_second := num_items / (cpu_time_ns / 1000000000)
    bytes_per_second := 0
    mean := cpu_time_ns
    stddev := benchmark.stddev platform.sqrt times
    min := times.min?.getD 0
    max := times.max?.getD 0
    samples := times }

def run_once (num_items : Nat) (w : ω) : Result K × ω :=
  let w := c.call_setup w
  let w := c.call w
  let (start_time, w) := platform.now w
  let w := c.call^[c.min_iters_] w
  let (end_time, w) := platform.now w
  let iters := c.rounds (end_time - start_time)
  let (times, w) := c.measure platform iters [] w
  (c.summarize platform num_items iters times, c.call_teardown w)

/-- The loop over the sizes. -/
def runRange : List Nat → List (Result K) → ω → List (Result K) × ω
  | [], results_, w => (results_, w)
  | n :: range, results_, w =>
    let (result, w) := c.run_once platform n w
    runRange range (results_ ++ [result]) w

/-- The sizes that are measured. -/
def sizes : List Nat := if c.range_ = [] then [1] else c.range_

/-- `BenchmarkCase::run` -/
def run (w : ω) : List (Result K) × ω :=
  if c.range_ = [] then
    let (result, w) := c.run_once platform 1 w
    ([result], w)
  else c.runRange platform c.range_ [] w

end MeasuredCase

/-! ## The runner -/

/-- The cases are shared, and stand here for the addresses of their objects. -/
structure BenchmarkRunner (K : Type*) where
  filter_ : List Char
  cases_ : List Nat
  report_ : List (Result K)

/-- `filter_.empty() || name.find(filter_) != std::string::npos` -/
def Passes (filter name : List Char) : Prop := filter = [] ∨ filter <:+: name

instance (filter name : List Char) : Decidable (Passes filter name) :=
  inferInstanceAs (Decidable (_ ∨ _))

namespace BenchmarkRunner

/-- The runner and its world. -/
structure Session (ω K : Type*) where
  runner : BenchmarkRunner K
  world : ω

inductive Call
  | set_filter (filter : List Char)
  | add_case (case_ptr : Nat)
  | run
deriving DecidableEq

variable (heap : Nat → MeasuredCase ω) (platform : Platform ω K)

def filter_cases (b : BenchmarkRunner K) : BenchmarkRunner K :=
  if b.filter_ = [] then b
  else { b with cases_ := b.cases_.filter fun p => b.filter_ <:+: (heap p).name_ }

/-- One round of the loop over the cases. -/
def runCase (s : Session ω K) (p : Nat) : Session ω K :=
  let (results, w) := (heap p).run platform s.world
  { runner := { s.runner with report_ := s.runner.report_ ++ results }, world := w }

def step (s : Session ω K) : Call → Session ω K
  | .set_filter filter => { s with runner := { s.runner with filter_ := filter } }
  | .add_case p => { s with runner := { s.runner with cases_ := s.runner.cases_ ++ [p] } }
  | .run =>
    let runner := s.runner.filter_cases heap
    runner.cases_.foldl (runCase heap platform) { s with runner := runner }

def start (w : ω) : Session ω K := ⟨⟨[], [], []⟩, w⟩

/-- What a new runner and the world are after these calls. -/
def after (w : ω) (calls : List Call) : Session ω K :=
  calls.foldl (step heap platform) (start w)

end BenchmarkRunner

/-! ## What a run calls -/

namespace MeasuredCase

section Calls

variable (c : MeasuredCase ω) (platform : Platform ω K)

/-- `count` counts the calls of what is measured, and nothing else changes it. -/
structure Counts (count : ω → Nat) : Prop where
  run : ∃ f, c.run_ = some f ∧ ∀ w, count (f 1 w) = count w + 1
  setup : ∀ f, c.setup_ = some f → ∀ w, count (f w) = count w
  teardown : ∀ f, c.teardown_ = some f → ∀ w, count (f w) = count w
  now : ∀ w, count (platform.now w).2 = count w

variable {platform c} {count : ω → Nat}

theorem Counts.call (h : c.Counts platform count) (w : ω) : count (c.call w) = count w + 1 := by
  obtain ⟨f, hf, hcount⟩ := h.run
  rw [MeasuredCase.call, hf, Option.map_some, Option.getD_some, hcount]

theorem Counts.iterate (h : c.Counts platform count) (n : Nat) (w : ω) :
    count (c.call^[n] w) = count w + n := by
  induction n with
  | zero => rfl
  | succ n ih => rw [Function.iterate_succ_apply', h.call, ih, Nat.add_assoc]

theorem Counts.call_setup (h : c.Counts platform count) (w : ω) :
    count (c.call_setup w) = count w := by
  unfold MeasuredCase.call_setup
  cases hsetup : c.setup_ with
  | none => rfl
  | some f => exact h.setup f hsetup w

theorem Counts.call_teardown (h : c.Counts platform count) (w : ω) :
    count (c.call_teardown w) = count w := by
  unfold MeasuredCase.call_teardown
  cases hteardown : c.teardown_ with
  | none => rfl
  | some f => exact h.teardown f hteardown w

theorem Counts.measure (h : c.Counts platform count) (n : Nat) (times : List K) (w : ω) :
    count (c.measure platform n times w).2 = count w + n := by
  induction n generalizing times w with
  | zero => rfl
  | succ n ih =>
    unfold MeasuredCase.measure
    rw [ih, h.now, h.call, h.now]
    omega

theorem length_measure (n : Nat) (times : List K) (w : ω) :
    (c.measure platform n times w).1.length = times.length + n := by
  induction n generalizing times w with
  | zero => rfl
  | succ n ih =>
    unfold measure
    rw [ih, List.length_append, List.length_singleton]
    omega

theorem rounds_eq (elapsed : K) : c.rounds elapsed = c.min_iters_ ∨ c.min_iters_ < c.max_iters_ ∧
    c.rounds elapsed = Nat.min (mul c.min_iters_ 2) c.max_iters_ := by
  unfold rounds
  dsimp only
  split_ifs with h
  · exact Or.inr ⟨h.2, rfl⟩
  · exact Or.inl rfl

theorem Counts.run_once (h : c.Counts platform count) (n : Nat) (w : ω) :
    count (c.run_once platform n w).2 =
      count w + (1 + c.min_iters_ + (c.run_once platform n w).1.iterations) := by
  have hiterations : (c.run_once platform n w).1.iterations = c.rounds _ := rfl
  rw [hiterations]
  unfold MeasuredCase.run_once
  rw [h.call_teardown, h.measure, h.now, h.iterate, h.now, h.call, h.call_setup]
  omega

end Calls

end MeasuredCase

end Numbers

/-! ## What a result records -/

section Records

variable [Field K] [LinearOrder K] [IsStrictOrderedRing K]

theorem mean_eq (values : List K) : mean values = values.sum / values.length := by
  unfold mean
  split_ifs with h
  · simp [h]
  · rw [← List.sum_eq_foldl]

/-- The bounds of the samples are samples, with the mean between them, and `stddev` is the root of
the sum of the squared distances from the mean over one less than their number. -/
structure Summary (r : Result K) : Prop where
  iterations : r.samples.length = r.iterations
  bounds : r.samples ≠ [] → r.min ∈ r.samples ∧ r.max ∈ r.samples
  between : ∀ x ∈ r.samples, r.min ≤ x ∧ x ≤ r.max
  mean : r.samples ≠ [] → r.min ≤ r.mean ∧ r.mean ≤ r.max
  stddev_nonneg : 0 ≤ r.stddev
  stddev : r.stddev * r.stddev * (r.samples.length - 1 : Nat) = squares r.mean r.samples
  stddev_zero : r.stddev = 0 ↔ ∀ x ∈ r.samples, x = r.mean

/-- Fewer than two numbers are equal to their mean. -/
theorem eq_mean_of_short {values : List K} (h : values.length < 2) :
    ∀ x ∈ values, x = mean values := by
  intro x hx
  obtain ⟨y, rfl⟩ : ∃ y, values = [y] :=
    List.length_eq_one_iff.mp (by have := List.length_pos_of_mem hx; omega)
  rw [List.mem_singleton.mp hx, mean_eq]
  simp

variable (platform : Platform ω K)

theorem stddev_spec (values : List K) : 0 ≤ stddev platform.sqrt values ∧
    stddev platform.sqrt values * stddev platform.sqrt values * (values.length - 1 : Nat) =
      squares (mean values) values ∧
    (stddev platform.sqrt values = 0 ↔ ∀ x ∈ values, x = mean values) := by
  have hequal : squares (mean values) values = 0 ↔ ∀ x ∈ values, x = mean values :=
    squares_eq_zero_iff
  unfold stddev
  split_ifs with h
  · have hshort := eq_mean_of_short h
    rw [hequal.mpr hshort]
    simpa using hshort
  · have hpos : (0 : K) < (values.length - 1 : Nat) := Nat.cast_pos.mpr (by omega)
    have hsum : values.foldl (fun sum_sq v => sum_sq + (v - mean values) * (v - mean values)) 0 =
        squares (mean values) values := by
      rw [squares, List.sum_eq_foldl, List.foldl_map]
    have hnonneg := div_nonneg (squares_nonneg (mean values) values) hpos.le
    have hroot := platform.sqrt_mul_self _ hnonneg
    simp only [hsum]
    refine ⟨platform.sqrt_nonneg _ hnonneg, ?_, ?_⟩
    · rw [hroot, div_mul_cancel₀ _ hpos.ne']
    · rw [← hequal, ← mul_self_eq_zero, hroot, div_eq_zero_iff, or_iff_left hpos.ne']

namespace MeasuredCase

variable (c : MeasuredCase ω)

omit [Field K] [IsStrictOrderedRing K] in
theorem exists_bounds {times : List K} (hne : times ≠ []) : ∃ a b, times.min? = some a ∧
    times.max? = some b ∧ a ∈ times ∧ b ∈ times ∧ ∀ x ∈ times, a ≤ x ∧ x ≤ b := by
  obtain ⟨a, ha⟩ := Option.isSome_iff_exists.mp (List.isSome_min?_of_ne_nil hne)
  obtain ⟨b, hb⟩ := Option.isSome_iff_exists.mp (List.isSome_max?_of_ne_nil hne)
  obtain ⟨hmem, hle⟩ := List.min?_eq_some_iff.mp ha
  obtain ⟨hmem', hle'⟩ := List.max?_eq_some_iff.mp hb
  exact ⟨a, b, ha, hb, hmem, hmem', fun x hx => ⟨hle x hx, hle' x hx⟩⟩

theorem summary_summarize (num_items : Nat) (times : List K) :
    Summary (c.summarize platform num_items times.length times) := by
  obtain ⟨hnonneg, hsquares, hzero⟩ := stddev_spec platform times
  have hmean : (c.summarize platform num_items times.length times).mean = mean times := by
    unfold summarize
    simp only [ite_eq_right_iff]
    rintro rfl
    rfl
  by_cases hne : times = []
  · subst hne
    refine ⟨rfl, fun h => absurd rfl h, ?_, fun h => absurd rfl h, hnonneg, ?_, ?_⟩
    · intro x hx
      cases hx
    · rw [hmean]
      exact hsquares
    · rw [hmean]
      exact hzero
  · obtain ⟨a, b, ha, hb, hmem, hmem', hbetween⟩ := exists_bounds hne
    have hmin : (c.summarize platform num_items times.length times).min = a := by
      rw [summarize, ha, Option.getD_some]
    have hmax : (c.summarize platform num_items times.length times).max = b := by
      rw [summarize, hb, Option.getD_some]
    refine ⟨rfl, ?_, ?_, ?_, hnonneg, ?_, ?_⟩
    · intro _
      rw [hmin, hmax]
      exact ⟨hmem, hmem'⟩
    · intro x hx
      rw [hmin, hmax]
      exact hbetween x hx
    · intro _
      rw [hmin, hmax, hmean, mean_eq]
      exact ⟨le_mean hne fun x hx => (hbetween x hx).1, mean_le hne fun x hx => (hbetween x hx).2⟩
    · rw [hmean]
      exact hsquares
    · rw [hmean]
      exact hzero

/-- What the result of one run for `n` items records. The loop that is measured has the rounds of
the loop before it, or as many as twice that, but no more than `max_iters_`. -/
structure Records (n : Nat) (r : Result K) : Prop where
  name : r.name = c.name_
  unit : r.unit = c.unit_
  num_items : r.num_items = n
  rounds : r.iterations = c.min_iters_ ∨ c.min_iters_ < c.max_iters_ ∧
    r.iterations = Nat.min (mul c.min_iters_ 2) c.max_iters_
  summary : Summary r

variable {platform c}

theorem records_run_once (n : Nat) (w : ω) : c.Records n (c.run_once platform n w).1 := by
  have hsummary : Summary (c.run_once platform n w).1 := by
    obtain ⟨iters, w', hresult⟩ : ∃ iters w', (c.run_once platform n w).1 =
        c.summarize platform n iters (c.measure platform iters [] w').1 := ⟨_, _, rfl⟩
    rw [hresult]
    have h := summary_summarize platform c n (c.measure platform iters [] w').1
    rw [length_measure, List.length_nil, Nat.zero_add] at h
    exact h
  exact ⟨rfl, rfl, rfl, rounds_eq _, hsummary⟩

end MeasuredCase

/-! ## What a report records -/

variable (heap : Nat → MeasuredCase ω) (platform : Platform ω K)

/-- The cases and sizes of some runs, and what their results record. Each result stands for one call
of the warm-up, `min_iters_` calls of the first loop and one call for each sample. -/
structure Reported (w w' : ω) (entries : List (Nat × Nat)) (results : List (Result K)) : Prop where
  records : List.Forall₂ (fun e r => (heap e.1).Records e.2 r) entries results
  calls : ∀ count, (∀ p, (heap p).Counts platform count) → count w' = count w +
    (List.zipWith (fun e r => 1 + (heap e.1).min_iters_ + r.iterations) entries results).sum

variable {heap platform} {w w₁ w₂ : ω} {entries entries' : List (Nat × Nat)}
  {results results' : List (Result K)}

omit [IsStrictOrderedRing K] in
theorem Reported.nil : Reported heap platform w w [] [] := ⟨.nil, fun _ _ => rfl⟩

omit [IsStrictOrderedRing K] in
theorem Reported.append (h : Reported heap platform w w₁ entries results)
    (h' : Reported heap platform w₁ w₂ entries' results') :
    Reported heap platform w w₂ (entries ++ entries') (results ++ results') := by
  constructor
  · exact List.rel_append h.records h'.records
  · intro count hcount
    rw [h'.calls count hcount, h.calls count hcount, List.zipWith_append h.records.length_eq,
      List.sum_append, Nat.add_assoc]

theorem reported_run_once (p n : Nat) (w : ω) :
    Reported heap platform w ((heap p).run_once platform n w).2 [(p, n)]
      [((heap p).run_once platform n w).1] := by
  refine ⟨.cons ((heap p).records_run_once n w) .nil, ?_⟩
  intro count hcount
  rw [(hcount p).run_once]
  rfl

/-- The sizes of a case, under its address. -/
def entriesOf (heap : Nat → MeasuredCase ω) (p : Nat) : List (Nat × Nat) :=
  (heap p).sizes.map (p, ·)

theorem exists_runRange (p : Nat) (range : List Nat) (results : List (Result K)) (w : ω) :
    ∃ results' w', (heap p).runRange platform range results w = (results ++ results', w') ∧
      Reported heap platform w w' (range.map (p, ·)) results' := by
  induction range generalizing results w with
  | nil => exact ⟨[], w, by rw [List.append_nil]; rfl, .nil⟩
  | cons n range ih =>
    obtain ⟨results', w', hrun, hreported⟩ :=
      ih (results ++ [((heap p).run_once platform n w).1]) ((heap p).run_once platform n w).2
    refine ⟨((heap p).run_once platform n w).1 :: results', w', ?_, ?_⟩
    · rw [List.append_assoc] at hrun
      exact hrun
    · exact (reported_run_once p n w).append hreported

theorem reported_run (p : Nat) (w : ω) :
    Reported heap platform w ((heap p).run platform w).2 (entriesOf heap p)
      ((heap p).run platform w).1 := by
  unfold MeasuredCase.run entriesOf MeasuredCase.sizes
  split_ifs
  · exact reported_run_once p 1 w
  · obtain ⟨results', w', hrun, hreported⟩ :=
      exists_runRange p (heap p).range_ ([] : List (Result K)) w
    rw [hrun]
    exact hreported

/-! ## The runs of a runner -/

namespace BenchmarkRunner

/-- The loop over the cases appends what they report. -/
theorem exists_runCases (heap : Nat → MeasuredCase ω) (platform : Platform ω K) (cases : List Nat)
    (s : Session ω K) : ∃ results,
    (cases.foldl (runCase heap platform) s).runner =
      { s.runner with report_ := s.runner.report_ ++ results } ∧
    Reported heap platform s.world (cases.foldl (runCase heap platform) s).world
      (cases.flatMap (entriesOf heap)) results := by
  induction cases generalizing s with
  | nil => exact ⟨[], by rw [List.append_nil]; rfl, .nil⟩
  | cons p cases ih =>
    obtain ⟨results, hrunner, hreported⟩ := ih (runCase heap platform s p)
    refine ⟨((heap p).run platform s.world).1 ++ results, ?_, ?_⟩
    · rw [List.foldl_cons, hrunner, ← List.append_assoc]
      rfl
    · exact (reported_run p s.world).append hreported

/-- An added case passes the filter that is set at each later run. -/
def survives (heap : Nat → MeasuredCase ω) (p : Nat) : List Char → List Call → Bool
  | _, [] => true
  | _, .set_filter filter :: calls => survives heap p filter calls
  | filter, .add_case _ :: calls => survives heap p filter calls
  | filter, .run :: calls => decide (Passes filter (heap p).name_) && survives heap p filter calls

/-- The cases that were added and survive, in the order of the calls. -/
def survivors (heap : Nat → MeasuredCase ω) : List Char → List Call → List Nat
  | _, [] => []
  | _, .set_filter filter :: calls => survivors heap filter calls
  | filter, .add_case p :: calls =>
    (if survives heap p filter calls then [p] else []) ++ survivors heap filter calls
  | filter, .run :: calls => survivors heap filter calls

/-- The cases and sizes of the runs among the calls, in order. -/
def measured (heap : Nat → MeasuredCase ω) (calls : List Call) : List (Nat × Nat) :=
  (List.range calls.length).flatMap fun i =>
    if calls[i]? = some .run then
      (survivors heap [] (calls.take (i + 1))).flatMap (entriesOf heap)
    else []

omit [Field K] [LinearOrder K] [IsStrictOrderedRing K] in
theorem filter_cases_eq (b : BenchmarkRunner K) : b.filter_cases heap =
    { b with cases_ := b.cases_.filter fun p => Passes b.filter_ (heap p).name_ } := by
  unfold filter_cases
  split_ifs with h
  · have hall : ∀ p ∈ b.cases_, decide (Passes b.filter_ (heap p).name_) = true :=
      fun p _ => decide_eq_true (Or.inl h)
    rw [List.filter_eq_self.mpr hall]
  · simp only [Passes, h, false_or]

theorem exists_step_run (heap : Nat → MeasuredCase ω) (platform : Platform ω K)
    (s : Session ω K) : ∃ results,
    (step heap platform s .run).runner =
      { filter_ := s.runner.filter_
        cases_ := s.runner.cases_.filter fun p => Passes s.runner.filter_ (heap p).name_
        report_ := s.runner.report_ ++ results } ∧
    Reported heap platform s.world (step heap platform s .run).world
      ((step heap platform s .run).runner.cases_.flatMap (entriesOf heap)) results := by
  obtain ⟨results, hrunner, hreported⟩ := exists_runCases heap platform
    (s.runner.filter_cases heap).cases_ { s with runner := s.runner.filter_cases heap }
  have hstep : (step heap platform s .run).runner =
      { s.runner.filter_cases heap with
        report_ := (s.runner.filter_cases heap).report_ ++ results } := hrunner
  refine ⟨results, ?_, ?_⟩
  · rw [hstep, filter_cases_eq]
  · rw [hstep]
    exact hreported

theorem cases_foldl_step (calls : List Call) (s : Session ω K) :
    (calls.foldl (step heap platform) s).runner.cases_ =
      s.runner.cases_.filter (survives heap · s.runner.filter_ calls) ++
        survivors heap s.runner.filter_ calls := by
  induction calls generalizing s with
  | nil => simp [survives, survivors]
  | cons call calls ih =>
    rw [List.foldl_cons, ih]
    cases call with
    | set_filter filter => rfl
    | add_case p =>
      simp only [step, List.filter_append, List.append_assoc, survivors]
      congr 2
      by_cases h : survives heap p s.runner.filter_ calls <;> simp [h]
    | run =>
      obtain ⟨results, hrunner, -⟩ := exists_step_run heap platform s
      simp only [hrunner, List.filter_filter, survivors, survives, Bool.and_comm]

theorem measured_append (calls : List Call) (call : Call) : measured heap (calls ++ [call]) =
    measured heap calls ++ if call = .run then
      (survivors heap [] (calls ++ [call])).flatMap (entriesOf heap) else [] := by
  unfold measured
  rw [List.length_append, List.length_singleton, List.range_succ, List.flatMap_append,
    List.flatMap_singleton]
  congr 1
  · apply List.flatMap_congr
    intro i hi
    have hlt : i < calls.length := List.mem_range.mp hi
    rw [List.getElem?_append_left hlt, List.take_append_of_le_length hlt]
  · simp only [List.getElem?_concat_length, Option.some.injEq]
    rw [List.take_of_length_le (by simp)]

/-- The world is the number of calls, and so is the time. -/
noncomputable def callClock : Platform Nat ℝ :=
  ⟨fun w => (w, w), Real.sqrt, fun x _ => Real.sqrt_nonneg x, fun _ hx => Real.mul_self_sqrt hx⟩

/-- Case 0 is `gemm` and all others are `fft`. -/
def gemmAndFft (p : Nat) : MeasuredCase Nat :=
  { range_ := [], name_ := if p = 0 then ['g', 'e', 'm', 'm'] else ['f', 'f', 't'], unit_ := []
    min_iters_ := 2, max_iters_ := 5, min_time_ms_ := 0
    setup_ := none, run_ := some fun _ w => w + 1, teardown_ := none }

/-- Both cases are run, and then only the one that passes the filter. -/
def filteredRuns : List Call :=
  [.add_case 0, .add_case 1, .run, .set_filter ['e', 'm'], .run]

end BenchmarkRunner

end Records

/-! ## Percentiles -/

section Percentiles

variable [Field K] [LinearOrder K] [IsStrictOrderedRing K] [FloorSemiring K] {values : List K}
  {p q : K}

omit [IsStrictOrderedRing K] in
/-- The index that `percentile` looks at. -/
theorem percentile_eq (hne : values ≠ []) (h : percentile values p = some q) : ∃ i,
    i = min ⌊p * values.length⌋₊ (values.length - 1) ∧
    ∃ hi : i < (sorted values).length, q = (sorted values)[i] := by
  have hlength := length_sorted values
  have hpos := List.length_pos_iff.mpr hne
  unfold percentile at h
  rw [if_neg hne] at h
  dsimp only at h
  split_ifs at h with hrange hidx
  · rw [hlength] at h hidx
    obtain ⟨hi, hq⟩ := List.getElem?_eq_some_iff.mp h
    exact ⟨_, by omega, hi, hq.symm⟩
  · rw [hlength] at h hidx
    obtain ⟨hi, hq⟩ := List.getElem?_eq_some_iff.mp h
    exact ⟨_, by omega, hi, hq.symm⟩

theorem exists_percentile (hne : values ≠ []) (hp : 0 ≤ p) (hlt : p * values.length < wordSize) :
    ∃ q, percentile values p = some q := by
  have hlength := length_sorted values
  have hpos := List.length_pos_iff.mpr hne
  have hlow : -1 < p * values.length :=
    neg_one_lt_zero.trans_le (mul_nonneg hp (Nat.cast_nonneg _))
  unfold percentile
  rw [if_neg hne]
  simp only [hlength, hlow, hlt, and_self, if_true]
  split_ifs
  all_goals exact ⟨_, List.getElem?_eq_getElem (by omega)⟩

omit [IsStrictOrderedRing K] in
theorem percentile_perm {values' : List K} (h : values.Perm values') (p : K) :
    percentile values' p = percentile values p := by
  unfold percentile
  rw [sorted_congr h]
  by_cases hne : values = []
  · subst hne
    rw [List.nil_perm.mp h]
  · have hne' : values' ≠ [] := by
      rintro rfl
      exact hne (List.perm_nil.mp h)
    rw [if_neg hne, if_neg hne']

end Percentiles

end sci.benchmark

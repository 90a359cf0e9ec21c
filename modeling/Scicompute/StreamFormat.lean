-- What an output stream of the precision 6 writes for a number: six significant digits by default,
-- and six digits behind the point after `std::scientific`. A number that is halfway between two of
-- them is rounded to the even one.
import Mathlib

namespace StreamFormat

def digits (n : Nat) : List Char := Nat.toDigits 10 n

/-- The digits of `n`, with zeros in front if there are fewer than `k`. -/
def padded (k n : Nat) : List Char := (digits n).leftpad k '0'

/-- `x * 10 ^ k` -/
def scaled (x : ℚ) (k : Int) : ℚ :=
  if 0 ≤ k then x * (10 ^ k.toNat : Nat) else x / (10 ^ (-k).toNat : Nat)

/-- The nearest natural number of a positive one. -/
def nearest (x : ℚ) : Nat :=
  let n := x.floor.toNat
  let rest := x - n
  if rest < 1 / 2 ∨ rest = 1 / 2 ∧ n % 2 = 0 then n else n + 1

/-- The exponent of the first digit of a positive number. -/
def exponent (x : ℚ) : Int :=
  let e : Int := (digits x.num.natAbs).length - (digits x.den).length
  if scaled 1 e ≤ x then e else e - 1

/-- The first `p` digits of a number, rounded, and the exponent of the first one. -/
def significand (p : Nat) (x : ℚ) : Nat × Int :=
  if x = 0 then (0, 0)
  else
    let e := exponent |x|
    let m := nearest (scaled |x| (p - 1 - e))
    if m = 10 ^ p then (10 ^ (p - 1), e + 1) else (m, e)

def sign (x : ℚ) : List Char := if x < 0 then ['-'] else []

/-- The digits behind the point, with the point if there are any. -/
def fraction (ds : List Char) : List Char := if ds = [] then [] else '.' :: ds

def exponentText (e : Int) : List Char := ['e', if e < 0 then '-' else '+'] ++ padded 2 e.natAbs

/-- The first digit, the others behind the point, and the exponent. -/
def withExponent (ds : List Char) (e : Int) : List Char :=
  ds.take 1 ++ fraction (ds.drop 1) ++ exponentText e

def scientific (x : ℚ) : List Char :=
  let s := significand 7 x
  sign x ++ withExponent (padded 7 s.1) s.2

/-- Zeros at the end of the digits behind the point are left out. -/
def stripped (ds : List Char) : List Char := ds.rdropWhile (· = '0')

def general (x : ℚ) : List Char :=
  let s := significand 6 x
  let ds := padded 6 s.1
  if s.2 < -4 ∨ 6 ≤ s.2 then sign x ++ withExponent (ds.take 1 ++ stripped (ds.drop 1)) s.2
  else if s.2 < 0 then
    sign x ++ '0' :: fraction (List.replicate (-s.2 - 1).toNat '0' ++ stripped ds)
  else
    let k := s.2.toNat + 1
    sign x ++ ds.take k ++ fraction (stripped (ds.drop k))

example : general (6401 / 1000) = "6.401".toList := by decide +kernel

example : general 1234567 = "1.23457e+06".toList := by decide +kernel

example : scientific (-1 / 3) = "-3.333333e-01".toList := by decide +kernel

/-! ## The characters of a number -/

def Numeric (c : Char) : Prop := c.isDigit = true ∨ c ∈ ['+', '-', '.', 'e']

variable {ds : List Char}

theorem numeric_padded (k n : Nat) : ∀ c ∈ padded k n, Numeric c := by
  intro c hc
  unfold padded List.leftpad at hc
  rcases List.mem_append.mp hc with hc | hc
  · rw [List.eq_of_mem_replicate hc]
    exact Or.inl (by decide)
  · exact Or.inl (Nat.isDigit_of_mem_toDigits (by decide) (by decide) hc)

theorem numeric_sign (x : ℚ) : ∀ c ∈ sign x, Numeric c := by
  unfold sign
  split_ifs
  · simp [Numeric]
  · simp

theorem numeric_fraction (h : ∀ c ∈ ds, Numeric c) : ∀ c ∈ fraction ds, Numeric c := by
  unfold fraction
  split_ifs
  · simp
  · exact List.forall_mem_cons.mpr ⟨Or.inr (by decide), h⟩

theorem numeric_stripped (h : ∀ c ∈ ds, Numeric c) : ∀ c ∈ stripped ds, Numeric c := fun c hc =>
  h c ((List.rdropWhile_prefix _ _).subset hc)

theorem numeric_withExponent (h : ∀ c ∈ ds, Numeric c) (e : Int) :
    ∀ c ∈ withExponent ds e, Numeric c := by
  unfold withExponent exponentText
  rw [List.forall_mem_append, List.forall_mem_append, List.forall_mem_append]
  refine ⟨⟨fun c hc => h c (List.mem_of_mem_take hc), ?_⟩, ?_, numeric_padded 2 _⟩
  · exact numeric_fraction fun c hc => h c (List.mem_of_mem_drop hc)
  · split_ifs <;> simp [Numeric]

theorem numeric_scientific (x : ℚ) : ∀ c ∈ scientific x, Numeric c := by
  unfold scientific
  rw [List.forall_mem_append]
  exact ⟨numeric_sign x, numeric_withExponent (numeric_padded 7 _) _⟩

theorem numeric_general (x : ℚ) : ∀ c ∈ general x, Numeric c := by
  have hds := numeric_padded 6 (significand 6 x).1
  have hzero : Numeric '0' := Or.inl (by decide)
  unfold general
  simp only
  split_ifs
  · rw [List.forall_mem_append]
    refine ⟨numeric_sign x, numeric_withExponent ?_ _⟩
    rw [List.forall_mem_append]
    exact ⟨fun c hc => hds c (List.mem_of_mem_take hc),
      numeric_stripped fun c hc => hds c (List.mem_of_mem_drop hc)⟩
  · rw [List.forall_mem_append, List.forall_mem_cons]
    refine ⟨numeric_sign x, hzero, numeric_fraction ?_⟩
    rw [List.forall_mem_append]
    exact ⟨fun c hc => List.eq_of_mem_replicate hc ▸ hzero, numeric_stripped hds⟩
  · rw [List.forall_mem_append, List.forall_mem_append]
    exact ⟨⟨numeric_sign x, fun c hc => hds c (List.mem_of_mem_take hc)⟩,
      numeric_fraction (numeric_stripped fun c hc => hds c (List.mem_of_mem_drop hc))⟩

end StreamFormat

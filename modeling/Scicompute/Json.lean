-- The grammar of JSON texts (RFC 8259), with the values that they stand for. Each relation takes
-- the characters that are left and gives the value of a part and the characters behind it. A number
-- is kept as its text.
import Mathlib

namespace Json

/-! ## Characters -/

def isWs (c : Char) : Bool := c = ' ' || c = '\t' || c = '\n' || c = '\r'

def skipWs (l : List Char) : List Char := l.dropWhile isWs

/-- A character that stands for itself in a string. The control characters do not. -/
def Unescaped (c : Char) : Prop := c ≠ '\x22' ∧ c ≠ '\x5c' ∧ 0x20 ≤ c.toNat

instance : DecidablePred Unescaped := fun c =>
  inferInstanceAs (Decidable (c ≠ '\x22' ∧ c ≠ '\x5c' ∧ 0x20 ≤ c.toNat))

def hexDigit (c : Char) : Option Nat :=
  if c.isDigit then some (c.toNat - '0'.toNat)
  else if 'a' ≤ c ∧ c ≤ 'f' then some (c.toNat - 'a'.toNat + 10)
  else if 'A' ≤ c ∧ c ≤ 'F' then some (c.toNat - 'A'.toNat + 10)
  else none

/-- The number of four hexadecimal digits. -/
def hex4 (a b c d : Char) : Option Nat := do
  let a ← hexDigit a
  let b ← hexDigit b
  let c ← hexDigit c
  let d ← hexDigit d
  return ((a * 16 + b) * 16 + c) * 16 + d

/-- The escapes of one character. -/
def escapes : List (Char × Char) :=
  [('\x22', '\x22'), ('\x5c', '\x5c'), ('/', '/'), ('b', '\x08'), ('f', '\x0c'), ('n', '\n'),
    ('r', '\r'), ('t', '\t')]

/-- What follows a backslash. A character above `\uFFFF` is a pair of surrogates. -/
inductive Escape : List Char → Char → List Char → Prop
  | single {x c : Char} {r : List Char} : (x, c) ∈ escapes → Escape (x :: r) c r
  | unicode {a b c d : Char} {n : Nat} {r : List Char} : hex4 a b c d = some n →
      ¬ (0xD800 ≤ n ∧ n < 0xE000) → Escape ('u' :: a :: b :: c :: d :: r) (Char.ofNat n) r
  | pair {a b c d a' b' c' d' : Char} {n k : Nat} {r : List Char} : hex4 a b c d = some n →
      0xD800 ≤ n → n < 0xDC00 → hex4 a' b' c' d' = some k → 0xDC00 ≤ k → k < 0xE000 →
      Escape ('u' :: a :: b :: c :: d :: '\x5c' :: 'u' :: a' :: b' :: c' :: d' :: r)
        (Char.ofNat (0x10000 + (n - 0xD800) * 0x400 + (k - 0xDC00))) r

/-- The characters of a string, up to its closing quotation mark. -/
inductive Chars : List Char → List Char → List Char → Prop
  | close {r : List Char} : Chars ('\x22' :: r) [] r
  | plain {c : Char} {l s r : List Char} : Unescaped c → Chars l s r → Chars (c :: l) (c :: s) r
  | escape {c : Char} {l l' s r : List Char} : Escape l c l' → Chars l' s r →
      Chars ('\x5c' :: l) (c :: s) r

def IsDigits (l : List Char) : Prop := l ≠ [] ∧ ∀ c ∈ l, c.isDigit = true

/-- A whole number has no leading zero. -/
def IsInt (l : List Char) : Prop := IsDigits l ∧ (l.head? = some '0' → l = ['0'])

def IsFraction (l : List Char) : Prop := l = [] ∨ ∃ d, l = '.' :: d ∧ IsDigits d

def IsExponent (l : List Char) : Prop :=
  l = [] ∨ ∃ e sign d, l = e :: (sign ++ d) ∧ (e = 'e' ∨ e = 'E') ∧
    (sign = [] ∨ sign = ['+'] ∨ sign = ['-']) ∧ IsDigits d

def IsNumber (l : List Char) : Prop :=
  ∃ sign int frac exp, l = sign ++ (int ++ (frac ++ exp)) ∧ (sign = [] ∨ sign = ['-']) ∧
    IsInt int ∧ IsFraction frac ∧ IsExponent exp

/-! ## Values -/

inductive Value
  | null
  | bool (b : Bool)
  | number (text : List Char)
  | string (s : List Char)
  | array (elements : List Value)
  | object (members : List (List Char × Value))

mutual

/-- A value that starts at the first character. -/
inductive Parses : List Char → Value → List Char → Prop
  | null {r : List Char} : Parses ('n' :: 'u' :: 'l' :: 'l' :: r) .null r
  | «true» {r : List Char} : Parses ('t' :: 'r' :: 'u' :: 'e' :: r) (.bool true) r
  | «false» {r : List Char} : Parses ('f' :: 'a' :: 'l' :: 's' :: 'e' :: r) (.bool false) r
  | number {t r : List Char} : IsNumber t → Parses (t ++ r) (.number t) r
  | string {l s r : List Char} : Chars l s r → Parses ('\x22' :: l) (.string s) r
  | empty_array {l r : List Char} : skipWs l = ']' :: r → Parses ('[' :: l) (.array []) r
  | array {l r : List Char} {vs : List Value} : Elements l vs r → Parses ('[' :: l) (.array vs) r
  | empty_object {l r : List Char} : skipWs l = '\x7d' :: r → Parses ('\x7b' :: l) (.object []) r
  | object {l r : List Char} {ms : List (List Char × Value)} : Members l ms r →
      Parses ('\x7b' :: l) (.object ms) r

/-- The elements of an array, up to its closing bracket. -/
inductive Elements : List Char → List Value → List Char → Prop
  | last {l l' r : List Char} {v : Value} : Parses (skipWs l) v l' → skipWs l' = ']' :: r →
      Elements l [v] r
  | cons {l l' l'' r : List Char} {v : Value} {vs : List Value} : Parses (skipWs l) v l' →
      skipWs l' = ',' :: l'' → Elements l'' vs r → Elements l (v :: vs) r

/-- The members of an object, up to its closing brace. -/
inductive Members : List Char → List (List Char × Value) → List Char → Prop
  | last {l l₁ k l₂ l₃ l₄ r : List Char} {v : Value} : skipWs l = '\x22' :: l₁ → Chars l₁ k l₂ →
      skipWs l₂ = ':' :: l₃ → Parses (skipWs l₃) v l₄ → skipWs l₄ = '\x7d' :: r →
      Members l [(k, v)] r
  | cons {l l₁ k l₂ l₃ l₄ l₅ r : List Char} {v : Value} {ms : List (List Char × Value)} :
      skipWs l = '\x22' :: l₁ → Chars l₁ k l₂ → skipWs l₂ = ':' :: l₃ → Parses (skipWs l₃) v l₄ →
      skipWs l₄ = ',' :: l₅ → Members l₅ ms r → Members l ((k, v) :: ms) r

end

/-- The text is a JSON document with this value. -/
def Document (l : List Char) (v : Value) : Prop := ∃ r, Parses (skipWs l) v r ∧ skipWs r = []

/-! ## Strings of plain characters -/

/-- Every character stands for itself. -/
def Plain (s : List Char) : Prop := ∀ c ∈ s, Unescaped c

instance : DecidablePred Plain := fun s => List.decidableBAll Unescaped s

@[simp] theorem plain_append {s t : List Char} : Plain (s ++ t) ↔ Plain s ∧ Plain t :=
  List.forall_mem_append

@[simp] theorem plain_cons {c : Char} {s : List Char} : Plain (c :: s) ↔ Unescaped c ∧ Plain s :=
  List.forall_mem_cons

namespace Chars

variable {c : Char} {s k l r : List Char}

theorem plain_append (hs : Plain s) (h : Chars l k r) : Chars (s ++ l) (s ++ k) r := by
  induction s with
  | nil => exact h
  | cons c s ih =>
    obtain ⟨hc, hs⟩ := plain_cons.mp hs
    exact .plain hc (ih hs)

/-- A string of plain characters up to its closing mark. -/
theorem of_plain (hs : Plain s) (r : List Char) : Chars (s ++ '\x22' :: r) s r := by
  have h := plain_append hs (.close (r := r))
  rwa [List.append_nil] at h

theorem uncons (hc : Unescaped c) (h : Chars (c :: l) k r) : ∃ k', k = c :: k' ∧ Chars l k' r := by
  obtain ⟨hquote, hslash, -⟩ := hc
  cases h with
  | close => exact absurd rfl hquote
  | plain _ h => exact ⟨_, rfl, h⟩
  | escape _ _ => exact absurd rfl hslash

/-- The plain characters come first. -/
theorem of_append (hs : Plain s) (h : Chars (s ++ l) k r) : ∃ k', k = s ++ k' ∧ Chars l k' r := by
  induction s generalizing k with
  | nil => exact ⟨k, rfl, h⟩
  | cons c s ih =>
    obtain ⟨hc, hs⟩ := plain_cons.mp hs
    obtain ⟨k₁, rfl, h₁⟩ := uncons hc h
    obtain ⟨k₂, rfl, h₂⟩ := ih hs h₁
    exact ⟨k₂, rfl, h₂⟩

/-- A string ends at its first quotation mark. -/
theorem eq_of_plain (hs : Plain s) (h : Chars (s ++ '\x22' :: l) k r) : k = s ∧ r = l := by
  obtain ⟨k', rfl, h'⟩ := of_append hs h
  cases h' with
  | close => exact ⟨List.append_nil s, rfl⟩
  | plain hc _ => exact absurd rfl hc.1

/-- No string has a control character in it. -/
theorem not_of_control (hs : Plain s) (hc : c.toNat < 0x20) : ¬ Chars (s ++ c :: l) k r := by
  intro h
  obtain ⟨k', -, h'⟩ := of_append hs h
  cases h' with
  | close => exact absurd hc (by decide)
  | plain hplain _ => exact Nat.not_lt.mpr hplain.2.2 hc
  | escape _ _ => exact absurd hc (by decide)

end Chars

/-! ## Documents -/

theorem IsNumber.head {t : List Char} (h : IsNumber t) :
    ∃ c t', t = c :: t' ∧ (c = '-' ∨ c.isDigit = true) := by
  obtain ⟨sign, int, frac, exp, rfl, hsign, ⟨⟨hne, hdigits⟩, -⟩, -, -⟩ := h
  rcases hsign with rfl | rfl
  · obtain ⟨c, d, rfl⟩ := List.exists_cons_of_ne_nil hne
    exact ⟨c, _, rfl, Or.inr (hdigits c (List.mem_cons_self ..))⟩
  · exact ⟨'-', _, rfl, Or.inl rfl⟩

/-- What starts with a quotation mark is a string. -/
theorem Parses.string_of_quote {i l r : List Char} {v : Value} (h : Parses i v r)
    (hi : i = '\x22' :: l) : ∃ s, Chars l s r := by
  cases h with
  | string h =>
    cases hi
    exact ⟨_, h⟩
  | number ht =>
    obtain ⟨c, t', rfl, hc⟩ := ht.head
    rw [List.cons_append, List.cons.injEq] at hi
    rw [hi.1] at hc
    exact absurd hc (by decide)
  | _ => cases hi

/-- What starts with a brace is an object. -/
theorem Parses.object_of_brace {i l r : List Char} {v : Value} (h : Parses i v r)
    (hi : i = '\x7b' :: l) : skipWs l = '\x7d' :: r ∨ ∃ ms, Members l ms r := by
  cases h with
  | empty_object h =>
    cases hi
    exact Or.inl h
  | object h =>
    cases hi
    exact Or.inr ⟨_, h⟩
  | number ht =>
    obtain ⟨c, t', rfl, hc⟩ := ht.head
    rw [List.cons_append, List.cons.injEq] at hi
    rw [hi.1] at hc
    exact absurd hc (by decide)
  | _ => cases hi

/-- The first member of an object. -/
theorem Members.first {l r : List Char} {ms : List (List Char × Value)} (h : Members l ms r) :
    ∃ l₁ k l₂ l₃ l₄ v, skipWs l = '\x22' :: l₁ ∧ Chars l₁ k l₂ ∧ skipWs l₂ = ':' :: l₃ ∧
      Parses (skipWs l₃) v l₄ := by
  cases h with
  | last h1 h2 h3 h4 _ => exact ⟨_, _, _, _, _, _, h1, h2, h3, h4⟩
  | cons h1 h2 h3 h4 _ _ => exact ⟨_, _, _, _, _, _, h1, h2, h3, h4⟩

/-- An object whose first member is a string with a control character is no document. -/
theorem not_document_of_control {c : Char} {l l₀ l₁ l₂ key s rest : List Char}
    (hbrace : skipWs l = '\x7b' :: l₀) (hquote : skipWs l₀ = '\x22' :: (key ++ '\x22' :: l₁))
    (hcolon : skipWs l₁ = ':' :: l₂) (hvalue : skipWs l₂ = '\x22' :: (s ++ c :: rest))
    (hkey : Plain key) (hs : Plain s) (hc : c.toNat < 0x20) (v : Value) : ¬ Document l v := by
  rintro ⟨r, hparses, -⟩
  rcases hparses.object_of_brace hbrace with hempty | ⟨ms, hms⟩
  · rw [hquote] at hempty
    cases hempty
  · obtain ⟨i₁, k, i₂, i₃, i₄, w, h1, h2, h3, h4⟩ := hms.first
    rw [hquote] at h1
    cases h1
    obtain ⟨rfl, rfl⟩ := Chars.eq_of_plain hkey h2
    rw [hcolon] at h3
    cases h3
    obtain ⟨k', hchars⟩ := h4.string_of_quote hvalue
    exact Chars.not_of_control hs hc hchars

theorem IsNumber.skipWs_append {t : List Char} (h : IsNumber t) (r : List Char) :
    skipWs (t ++ r) = t ++ r := by
  obtain ⟨c, t', rfl, hc⟩ := h.head
  have hws : isWs c = false := by
    rcases hc with rfl | hc
    · rfl
    · simp only [isWs, Bool.or_eq_false_iff, decide_eq_false_iff_not]
      refine ⟨⟨⟨?_, ?_⟩, ?_⟩, ?_⟩ <;>
      · rintro rfl
        exact absurd hc (by decide)
  rw [List.cons_append, skipWs, List.dropWhile_cons, hws]
  rfl

/-- A number behind a blank. -/
theorem IsNumber.parses {t : List Char} (h : IsNumber t) (r : List Char) :
    Parses (skipWs (' ' :: (t ++ r))) (.number t) r := by
  have hskip : skipWs (' ' :: (t ++ r)) = t ++ r := h.skipWs_append r
  rw [hskip]
  exact .number h

/-- A string of plain characters behind a blank. -/
theorem Plain.parses {s : List Char} (h : Plain s) (r : List Char) :
    Parses (skipWs (' ' :: '\x22' :: (s ++ '\x22' :: r))) (.string s) r :=
  .string (Chars.of_plain h r)

/-- The white space before the first element does not matter. -/
theorem Elements.congr {l l' r : List Char} {vs : List Value} (h : Elements l vs r)
    (hl : skipWs l' = skipWs l) : Elements l' vs r := by
  cases h with
  | last h1 h2 => exact .last (hl ▸ h1) h2
  | cons h1 h2 h3 => exact .cons (hl ▸ h1) h2 h3

namespace Members

variable {l l₁ l₂ l₃ l₄ key r : List Char} {v : Value} {ms : List (List Char × Value)}

theorem cons_of_plain (hkey : Plain key) (hl : skipWs l = '\x22' :: (key ++ '\x22' :: l₁))
    (hcolon : skipWs l₁ = ':' :: l₂) (hv : Parses (skipWs l₂) v l₃)
    (hcomma : skipWs l₃ = ',' :: l₄) (hms : Members l₄ ms r) : Members l ((key, v) :: ms) r :=
  .cons hl (Chars.of_plain hkey l₁) hcolon hv hcomma hms

theorem last_of_plain (hkey : Plain key) (hl : skipWs l = '\x22' :: (key ++ '\x22' :: l₁))
    (hcolon : skipWs l₁ = ':' :: l₂) (hv : Parses (skipWs l₂) v l₃)
    (hbrace : skipWs l₃ = '\x7d' :: r) : Members l [(key, v)] r :=
  .last hl (Chars.of_plain hkey l₁) hcolon hv hbrace

end Members

end Json

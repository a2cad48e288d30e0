import PhpRuntime.Text.SprintfIntegers
import Mathlib.Data.List.TakeWhile
import Mathlib.Logic.Relation

/-!
# The bounds of `sprintf`

What the appending functions write is in the buffer, and the parser reads the format up to its
terminator, with one exception: a quote that ends the format takes the terminator as its padding,
and the loop of modifiers goes on behind it.
-/

set_option autoImplicit false

namespace PhpRuntime.Text.Sprintf

open PhpRuntime.Lib

variable {ζ : Type} {conv : Conversions ζ} {args : List ζ} {formatOffset : ℤ} {b : PrintBuffer}
  {rest : List UInt8} {p : Printing}

/-! ## Appending -/

def PrintBuffer.Sound (b : PrintBuffer) : Prop := b.bytes.length < b.size ∧ b.size ≤ INT_MAX

def Stop.Allowed (e : Stop) : Prop := ¬ e.Faulty

theorem allowed_fatal (message : String) : (Stop.fatal message).Allowed := not_false

theorem growTo_ends (reqSize : ℤ) {size : ℤ} {turns : ℕ} (hpos : 0 < size) (hmax : size ≤ INT_MAX)
    (hturns : INT_MAX < size * 2 ^ turns) :
    Ends (growTo reqSize turns size) (fun size' => reqSize ≤ size' ∧ size' ≤ INT_MAX)
      Stop.Allowed := by
  induction turns generalizing size with
  | zero =>
    rw [pow_zero, mul_one] at hturns
    omega
  | succ turns ih =>
    rw [growTo]
    refine Ends.ite (fun _ => ?_) fun hle => ⟨by omega, hmax⟩
    refine Ends.ite (fun _ => allowed_fatal _) fun hhalf => ?_
    refine ih (by omega) (by rw [INT_MAX] at hhalf ⊢; omega) ?_
    rw [pow_succ'] at hturns
    rwa [mul_assoc]

theorem mWidth_eq (add : List UInt8) (expprec : Bool) {minWidth maxWidth : ℤ} (hmin : 0 ≤ minWidth)
    (hmax : 0 ≤ maxWidth) :
    max minWidth (if expprec then min maxWidth add.length else add.length) =
      (fieldLength (copied add maxWidth expprec) minWidth : ℤ) := by
  rw [← length_copied add expprec hmax]
  unfold fieldLength
  omega

/-- Every write of `php_sprintf_appendstring` is in the buffer. -/
theorem appendString_ends {add : List UInt8} {minWidth maxWidth : ℤ} {padding : UInt8}
    {alignment : Alignment} {neg expprec alwaysSign : Bool} (hb : b.Sound) (hmin : 0 ≤ minWidth)
    (hmax : 0 ≤ maxWidth) :
    Ends (appendString b add minWidth maxWidth padding alignment neg expprec alwaysSign)
      PrintBuffer.Sound Stop.Allowed := by
  obtain ⟨hlt, hle⟩ := hb
  have hwidth := mWidth_eq add expprec hmin hmax
  have hturns : INT_MAX < b.size * 2 ^ 32 := by
    rw [INT_MAX]
    omega
  by_cases hfits : INT_MAX - b.bytes.length - 1 <
      (fieldLength (copied add maxWidth expprec) minWidth : ℤ)
  · unfold appendString
    simp only [hwidth]
    rw [if_pos hfits]
    exact allowed_fatal _
  · have hgrow := growTo_ends (b.bytes.length +
      (fieldLength (copied add maxWidth expprec) minWidth : ℤ) + 1) (by omega) hle hturns
    cases hsize : growTo (b.bytes.length +
        (fieldLength (copied add maxWidth expprec) minWidth : ℤ) + 1) 32 b.size with
    | error e =>
      unfold appendString
      simp only [hwidth]
      rw [if_neg hfits, hsize, error_bind]
      exact hgrow.of_error hsize
    | ok size =>
      obtain ⟨hreq, hint⟩ := hgrow.of_ok hsize
      rw [appendString_eq hmin hmax (by omega) hsize hreq]
      refine ⟨?_, hint⟩
      simp only [List.length_append, length_field]
      omega

/-- So is the write of `php_sprintf_appendchar`. -/
theorem appendChar_ends (hb : b.Sound) (add : UInt8) :
    Ends (appendChar b add) PrintBuffer.Sound Stop.Allowed := by
  obtain ⟨hlt, hle⟩ := hb
  rw [INT_MAX] at hle
  unfold appendChar
  refine Ends.ite (fun hfull => ?_) fun hroom => ?_
  · dsimp only
    refine Ends.ite (fun _ => not_false) fun hnonneg => ?_
    have hdouble : toInt (b.size * 2) = b.size * 2 := by
      have hmax := toInt_le (b.size * 2)
      rw [toInt, INT_MAX] at hmax
      rw [toInt] at hnonneg ⊢
      rw [Int.bmod_def] at hnonneg hmax ⊢
      split at hnonneg <;> split <;> omega
    have hmax := toInt_le (b.size * 2)
    rw [hdouble] at hmax ⊢
    rw [write_eq (by simp only [List.length_singleton]; omega)]
    refine ⟨?_, hmax⟩
    simp only [List.length_append, List.length_singleton]
    omega
  · rw [write_eq (by simp only [List.length_singleton]; omega)]
    refine ⟨?_, by rw [INT_MAX]; exact hle⟩
    simp only [List.length_append, List.length_singleton]
    omega

/-- What a specifier that is accepted asks for. -/
structure Specifier.Sound (s : Specifier) : Prop where
  width : 0 ≤ s.width
  precision : 0 ≤ s.precision
  argnum : ∀ n, s.argnum = some n → 0 < n

theorem append2n_ends {number width : ℤ} {padding : UInt8} {alignment : Alignment} {k : ℕ}
    {chartable : List UInt8} {expprec : Bool} (hb : b.Sound) (hwidth : 0 ≤ width) (hk : 0 < k) :
    Ends (append2n b number width padding alignment k chartable expprec) PrintBuffer.Sound
      Stop.Allowed := by
  unfold append2n
  rw [bitsLoop_digits (toUnsignedLong_lt number) hk, ok_bind]
  exact appendString_ends hb hwidth (Int.le_refl 0)

theorem appendDouble_ends {number : Double} {width precision : ℤ} {padding fmt : UInt8}
    {alignment : Alignment} {adjust alwaysSign : Bool} (hb : b.Sound) (hwidth : 0 ≤ width) :
    Ends (appendDouble b number width padding alignment precision adjust fmt alwaysSign)
      PrintBuffer.Sound Stop.Allowed := by
  cases number with
  | nan => exact appendString_ends hb (by decide) (Int.le_refl 0)
  | inf negative => exact appendString_ends hb (by decide) (Int.le_refl 0)
  | finite text => exact appendString_ends hb hwidth (Int.le_refl 0)

theorem convert_ends {s : Specifier} {type : UInt8} {arg : ζ} (hb : b.Sound) (hs : s.Sound) :
    Ends (convert conv b s type arg) PrintBuffer.Sound Stop.Allowed := by
  have hle := Int.le_refl 0
  unfold convert
  refine Ends.ite (fun _ => appendString_ends hb hs.width hs.precision) fun _ => ?_
  refine Ends.ite (fun _ => appendString_ends hb hs.width hle) fun _ => ?_
  refine Ends.ite (fun _ => appendString_ends hb hs.width hle) fun _ => ?_
  refine Ends.ite (fun _ => appendDouble_ends hb hs.width) fun _ => ?_
  refine Ends.ite (fun _ => appendChar_ends hb _) fun _ => ?_
  refine Ends.ite (fun _ => append2n_ends hb hs.width (by decide)) fun _ => ?_
  refine Ends.ite (fun _ => append2n_ends hb hs.width (by decide)) fun _ => ?_
  refine Ends.ite (fun _ => append2n_ends hb hs.width (by decide)) fun _ => ?_
  refine Ends.ite (fun _ => append2n_ends hb hs.width (by decide)) fun _ => ?_
  exact Ends.ite (fun _ => appendChar_ends hb _) fun _ => hb

/-! ## The format -/

/-- A text of modifiers: a quote stands with its padding. -/
inductive ModifierText : List UInt8 → Prop where
  | nil : ModifierText []
  | plain {c : UInt8} {rest : List UInt8} (hc : c ∈ [32, 48, 45, 43]) (h : ModifierText rest) :
      ModifierText (c :: rest)
  | quote {c : UInt8} {rest : List UInt8} (h : ModifierText rest) : ModifierText (39 :: c :: rest)

/-- Modifiers that end with a quote without its padding. -/
def CutModifiers (rest : List UInt8) : Prop := ∃ text, rest = text ++ [39] ∧ ModifierText text

def ArgnumText (text : List UInt8) : Prop :=
  ∃ digits, text = digits ++ [36] ∧ (∀ c ∈ digits, isdigit c = true) ∧ 0 < digitsValue digits ∧
    digitsValue digits < INT_MAX

/-- A specifier, behind its percent sign, that the end of the format cuts off right behind the
quote of its padding. -/
def CutSpecifier (rest : List UInt8) : Prop :=
  CutModifiers rest ∨ ∃ argnum modifiers, rest = argnum ++ modifiers ∧ ArgnumText argnum ∧
    CutModifiers modifiers

theorem cutModifiers_cons {c : UInt8} (hc : c ∈ [32, 48, 45, 43]) :
    CutModifiers (c :: rest) ↔ CutModifiers rest := by
  constructor
  · rintro ⟨text, heq, htext⟩
    cases htext with
    | nil =>
      obtain ⟨rfl, -⟩ := List.cons.inj heq
      exact absurd hc (by decide)
    | plain _ h => exact ⟨_, (List.cons.inj heq).2, h⟩
    | quote h =>
      obtain ⟨rfl, -⟩ := List.cons.inj heq
      exact absurd hc (by decide)
  · rintro ⟨text, rfl, htext⟩
    exact ⟨c :: text, rfl, ModifierText.plain hc htext⟩

theorem cutModifiers_quote {c : UInt8} : CutModifiers (39 :: c :: rest) ↔ CutModifiers rest := by
  constructor
  · rintro ⟨text, heq, htext⟩
    cases htext with
    | nil => cases (List.cons.inj heq).2
    | plain hc _ =>
      obtain ⟨rfl, -⟩ := List.cons.inj heq
      exact absurd hc (by decide)
    | quote h =>
      obtain ⟨-, heq⟩ := List.cons.inj heq
      exact ⟨_, (List.cons.inj heq).2, h⟩
  · rintro ⟨text, rfl, htext⟩
    exact ⟨39 :: c :: text, rfl, ModifierText.quote htext⟩

theorem cutModifiers_single : CutModifiers [39] := ⟨[], rfl, ModifierText.nil⟩

theorem not_cutModifiers_nil : ¬ CutModifiers [] := by
  rintro ⟨text, heq, -⟩
  exact absurd heq (by simp)

theorem not_cutModifiers_of_head {c : UInt8} (hc : c ∉ [32, 48, 45, 43]) (hquote : c ≠ 39) :
    ¬ CutModifiers (c :: rest) := by
  rintro ⟨text, heq, htext⟩
  cases htext with
  | nil => exact hquote (List.cons.inj heq).1
  | plain h _ => exact hc ((List.cons.inj heq).1 ▸ h)
  | quote _ => exact hquote (List.cons.inj heq).1

def overrun : Stop := .undefined .outsideString

theorem overrun_faulty : overrun.Faulty := trivial

theorem modifiersLoop_spec {turns : ℕ} (hturns : rest.length + 1 < turns) (m : Modifiers) :
    (CutModifiers rest ∧ modifiersLoop turns (some rest) m = .error overrun) ∨
    (¬ CutModifiers rest ∧ ∃ m' left, modifiersLoop turns (some rest) m = .ok (m', some left) ∧
      left.length ≤ rest.length) := by
  induction turns generalizing rest m with
  | zero => omega
  | succ turns ih =>
    rw [modifiersLoop, Cursor.read_some, ok_bind]
    cases rest with
    | nil => exact Or.inr ⟨not_cutModifiers_nil, m, [], rfl, Nat.le_refl 0⟩
    | cons c rest =>
      rw [List.length_cons] at hturns ⊢
      rw [List.headD_cons, Cursor.next_cons]
      have hstep (m' : Modifiers) (hc : c ∈ [32, 48, 45, 43]) :
          (CutModifiers (c :: rest) ∧ modifiersLoop turns (some rest) m' = .error overrun) ∨
          (¬ CutModifiers (c :: rest) ∧ ∃ m'' left,
            modifiersLoop turns (some rest) m' = .ok (m'', some left) ∧
              left.length ≤ rest.length + 1) := by
        rw [cutModifiers_cons hc]
        refine (ih (by omega) m').imp_right fun ⟨hcut, m'', left, heq, hle⟩ => ?_
        exact ⟨hcut, m'', left, heq, by omega⟩
      by_cases h1 : c = 32 ∨ c = 48
      · rw [if_pos h1]
        exact hstep _ (by rcases h1 with rfl | rfl <;> decide)
      rw [if_neg h1]
      by_cases h2 : c = 45
      · rw [if_pos h2]
        exact hstep _ (by rw [h2]; decide)
      rw [if_neg h2]
      by_cases h3 : c = 43
      · rw [if_pos h3]
        exact hstep _ (by rw [h3]; decide)
      rw [if_neg h3]
      by_cases h4 : c = 39
      · rw [if_pos h4, h4]
        cases rest with
        | nil =>
          -- the terminator is the padding, and the next turn reads behind it
          refine Or.inl ⟨cutModifiers_single, ?_⟩
          rw [Cursor.read_some, ok_bind, Cursor.next_nil]
          cases turns with
          | zero => omega
          | succ turns => rfl
        | cons d rest =>
          rw [List.length_cons] at hturns ⊢
          rw [Cursor.read_some, ok_bind, Cursor.next_cons, cutModifiers_quote]
          refine (ih (by omega) _).imp_right fun ⟨hcut, m'', left, heq, hle⟩ => ?_
          exact ⟨hcut, m'', left, heq, by omega⟩
      · rw [if_neg h4]
        refine Or.inr ⟨not_cutModifiers_of_head ?_ h4, m, c :: rest, rfl, by simp⟩
        simp only [List.mem_cons, List.not_mem_nil, or_false, not_or] at h1 ⊢
        exact ⟨h1.1, h1.2, h2, h3⟩

/-! ## The parts of a specifier -/

def Within (rest : List UInt8) (inpos : Cursor) : Prop :=
  ∃ left, inpos = some left ∧ left.length ≤ rest.length

theorem getNumber_spec (rest : List UInt8) :
    ∃ num left, getNumber (some rest) = .ok (num, some left) ∧ left.length ≤ rest.length := by
  refine ⟨_, _, rfl, ?_⟩
  rw [List.length_drop]
  omega

theorem parseWidth_ends (rest : List UInt8) :
    Ends (parseWidth (some rest)) (fun r => 0 ≤ r.1 ∧ Within rest r.2) Stop.Allowed := by
  obtain ⟨num, left, heq, hle⟩ := getNumber_spec rest
  rw [parseWidth, Cursor.read_some, ok_bind]
  refine Ends.ite (fun _ => ?_) fun _ => ⟨Int.le_refl 0, rest, rfl, Nat.le_refl _⟩
  rw [heq, ok_bind]
  exact Ends.ite (fun _ => not_false) fun hneg => ⟨Int.not_lt.mp hneg, left, rfl, hle⟩

theorem parsePrecision_ends (rest : List UInt8) :
    Ends (parsePrecision (some rest)) (fun r => 0 ≤ r.1 ∧ Within rest r.2.2) Stop.Allowed := by
  rw [parsePrecision, Cursor.read_some, ok_bind]
  refine Ends.ite (fun hdot => ?_) fun _ => ⟨Int.le_refl 0, rest, rfl, Nat.le_refl _⟩
  cases rest with
  | nil => exact absurd hdot (by decide)
  | cons c rest =>
    obtain ⟨num, left, heq, hle⟩ := getNumber_spec rest
    have hlen : rest.length ≤ (c :: rest).length := Nat.le_succ _
    simp only [Cursor.next_cons, Cursor.read_some, ok_bind]
    refine Ends.ite (fun _ => ?_) fun _ => ⟨Int.le_refl 0, rest, rfl, hlen⟩
    rw [heq, ok_bind]
    exact Ends.ite (fun _ => not_false) fun hneg => ⟨Int.not_lt.mp hneg, left, rfl, hle.trans hlen⟩

theorem isspace_of_isdigit {c : UInt8} (hc : isdigit c = true) :
    isspace c = false ∧ c ≠ 45 ∧ c ≠ 43 := by
  rw [isdigit_iff] at hc
  refine ⟨?_, ?_, ?_⟩
  · rw [isspace, decide_eq_false_iff_not]
    simp only [← UInt8.toNat_inj, UInt8.le_iff_toNat_le, UInt8.reduceToNat]
    omega
  · rintro rfl
    exact absurd hc.1 (by decide)
  · rintro rfl
    exact absurd hc.1 (by decide)

theorem strtol_digits {digits : List UInt8} (hdigits : ∀ c ∈ digits, isdigit c = true) :
    strtol (digits ++ 36 :: rest) = (min LONG_MAX (digitsValue digits : ℕ), digits.length) := by
  have htake : (digits ++ 36 :: rest).takeWhile isdigit = digits := by
    rw [List.takeWhile_append_of_pos hdigits, List.takeWhile_cons_of_neg (by decide),
      List.append_nil]
  have hspaces : (digits ++ 36 :: rest).takeWhile isspace = [] ∧
      (digits ++ 36 :: rest).headD 0 ≠ 45 ∧ (digits ++ 36 :: rest).headD 0 ≠ 43 := by
    cases digits with
    | nil =>
      rw [List.nil_append, List.headD_cons]
      exact ⟨rfl, by decide, by decide⟩
    | cons c digits =>
      obtain ⟨hspace, h45, h43⟩ := isspace_of_isdigit (hdigits c List.mem_cons_self)
      refine ⟨?_, h45, h43⟩
      rw [List.cons_append, List.takeWhile_cons, hspace]
      rfl
  obtain ⟨hblanks, h45, h43⟩ := hspaces
  unfold strtol
  simp only [hblanks, List.length_nil, List.drop_zero, h45, h43, or_self, if_false, htake]
  split
  · next hnil =>
    subst hnil
    rfl
  · rw [LONG_MAX, max_eq_right (by omega)]
    simp

theorem dropWhile_cutModifiers (h : CutModifiers rest) :
    (rest.dropWhile isdigit).headD 0 ≠ 36 := by
  obtain ⟨text, rfl, htext⟩ := h
  induction htext with
  | nil => decide
  | @plain c rest hc _ ih =>
    rw [List.cons_append, List.dropWhile_cons]
    split
    · exact ih
    · rw [List.headD_cons]
      rintro rfl
      exact absurd hc (by decide)
  | quote h =>
    rw [List.cons_append, List.dropWhile_cons_of_neg (by decide), List.headD_cons]
    decide

theorem dropWhile_digits (rest : List UInt8) {digits : List UInt8}
    (hdigits : ∀ c ∈ digits, isdigit c = true) :
    (digits ++ 36 :: rest).dropWhile isdigit = 36 :: rest := by
  rw [List.dropWhile_append_of_pos hdigits, List.dropWhile_cons_of_neg (by decide)]

theorem cutSpecifier_dollar {digits : List UInt8} (hdigits : ∀ c ∈ digits, isdigit c = true) :
    CutSpecifier (digits ++ 36 :: rest) ↔
      (0 < digitsValue digits ∧ (digitsValue digits : ℤ) < INT_MAX) ∧ CutModifiers rest := by
  constructor
  · rintro (h | ⟨argnum, modifiers, heq, ⟨digits', rfl, hdigits', hpos, hlt⟩, hcut⟩)
    · exact absurd (by rw [dropWhile_digits _ hdigits]; rfl) (dropWhile_cutModifiers h)
    · rw [List.append_assoc, List.singleton_append] at heq
      have hrest := dropWhile_digits modifiers hdigits'
      rw [← heq, dropWhile_digits _ hdigits] at hrest
      have hsame : rest = modifiers := (List.cons.inj hrest).2
      rw [hsame] at heq ⊢
      rw [List.append_cancel_right heq]
      exact ⟨⟨hpos, hlt⟩, hcut⟩
  · rintro ⟨⟨hpos, hlt⟩, hcut⟩
    exact Or.inr ⟨digits ++ [36], rest, by simp, ⟨digits, rfl, hdigits, hpos, hlt⟩, hcut⟩

theorem cutSpecifier_plain (h : (rest.dropWhile isdigit).headD 0 ≠ 36) :
    CutSpecifier rest ↔ CutModifiers rest := by
  refine ⟨fun hcut => ?_, Or.inl⟩
  rcases hcut with hcut | ⟨argnum, modifiers, rfl, ⟨digits, rfl, hdigits, -, -⟩, -⟩
  · exact hcut
  · rw [List.append_assoc, List.singleton_append, dropWhile_digits _ hdigits] at h
    exact absurd rfl h

theorem parseArgnum_spec (rest : List UInt8) :
    (¬ CutSpecifier rest ∧ ∃ e, parseArgnum (some rest) = .error e ∧ e.Allowed) ∨
    ∃ argnum left, parseArgnum (some rest) = .ok (argnum, some left) ∧
      left.length ≤ rest.length ∧ (∀ n, argnum = some n → 0 < n) ∧
        (CutSpecifier rest ↔ CutModifiers left) := by
  have hskip : Cursor.skipDigits (some rest) = .ok (some (rest.dropWhile isdigit)) := rfl
  rw [parseArgnum, hskip, ok_bind, Cursor.read_some, ok_bind]
  by_cases hdollar : (rest.dropWhile isdigit).headD 0 = 36
  · rw [if_pos hdollar]
    obtain ⟨digits, left, rfl, hdigits⟩ : ∃ digits left, rest = digits ++ 36 :: left ∧
        ∀ c ∈ digits, isdigit c = true := by
      cases hdrop : rest.dropWhile isdigit with
      | nil =>
        rw [hdrop] at hdollar
        exact absurd hdollar (by decide)
      | cons c left =>
        rw [hdrop, List.headD_cons] at hdollar
        refine ⟨rest.takeWhile isdigit, left, ?_, fun c hc => List.mem_takeWhile_imp hc⟩
        rw [← hdollar, ← hdrop, List.takeWhile_append_dropWhile]
    have hnumber : getNumber (some (digits ++ 36 :: left)) =
        .ok (if INT_MAX ≤ min LONG_MAX (digitsValue digits : ℤ) ∨
            min LONG_MAX (digitsValue digits : ℤ) < 0 then -1
          else min LONG_MAX (digitsValue digits : ℤ), some (36 :: left)) := by
      rw [getNumber, strtol_digits hdigits]
      simp only [List.drop_left]
    rw [hnumber, ok_bind, cutSpecifier_dollar hdigits]
    dsimp only
    rw [LONG_MAX, INT_MAX]
    by_cases hvalid : 0 < digitsValue digits ∧ (digitsValue digits : ℤ) < 2147483647
    · rw [if_neg (by omega), if_neg (by omega), Cursor.next_cons]
      refine Or.inr ⟨_, left, rfl, ?_, fun n hn => ?_, and_iff_right hvalid⟩
      · rw [List.length_append, List.length_cons]
        omega
      · rw [← Option.some.inj hn]
        omega
    · rw [if_pos]
      · exact Or.inl ⟨fun h => hvalid h.1, _, rfl, not_false⟩
      · split <;> omega
  · rw [if_neg hdollar]
    have hnone (n : ℤ) (hn : none = some n) : 0 < n := by cases hn
    exact Or.inr ⟨none, rest, rfl, Nat.le_refl _, hnone, cutSpecifier_plain hdollar⟩

theorem beginsModifiers_digit {c : UInt8} (hc : isdigit c = true) :
    beginsModifiers c = true ∧ c ≠ 37 := by
  rw [isdigit_iff] at hc
  rw [beginsModifiers, decide_eq_true_iff]
  simp only [Ne, ← UInt8.toNat_inj, UInt8.lt_iff_toNat_lt, UInt8.le_iff_toNat_le,
    UInt8.reduceToNat]
  omega

theorem beginsModifiers_of_cut (h : CutSpecifier rest) :
    beginsModifiers (rest.headD 0) = true ∧ rest.headD 0 ≠ 37 := by
  have hmods {rest : List UInt8} (h : CutModifiers rest) :
      beginsModifiers (rest.headD 0) = true ∧ rest.headD 0 ≠ 37 := by
    obtain ⟨text, rfl, htext⟩ := h
    cases htext with
    | nil => decide
    | plain hc _ =>
      rw [List.cons_append, List.headD_cons]
      simp only [List.mem_cons, List.not_mem_nil, or_false] at hc
      rcases hc with rfl | rfl | rfl | rfl <;> decide
    | quote _ =>
      rw [List.cons_append, List.headD_cons]
      decide
  rcases h with h | ⟨argnum, modifiers, rfl, ⟨digits, rfl, hdigits, hpos, -⟩, -⟩
  · exact hmods h
  · cases digits with
    | nil => exact absurd hpos (by decide)
    | cons c digits => exact beginsModifiers_digit (hdigits c List.mem_cons_self)

theorem parseSpecifier_spec (rest : List UInt8) :
    (CutSpecifier rest ∧ parseSpecifier (some rest) = .error overrun) ∨
    (¬ CutSpecifier rest ∧ Ends (parseSpecifier (some rest))
      (fun r => r.1.Sound ∧ Within rest r.2) Stop.Allowed) := by
  rw [parseSpecifier, Cursor.read_some, ok_bind]
  by_cases hbegin : beginsModifiers (rest.headD 0) = true
  · rw [if_pos hbegin]
    rcases parseArgnum_spec rest with ⟨hcut, e, heq, he⟩ | ⟨argnum, left, heq, hle, hpos, hiff⟩
    · rw [heq, error_bind]
      exact Or.inr ⟨hcut, he⟩
    · rw [heq, ok_bind, hiff]
      dsimp only
      have hturns : left.length + 1 < Cursor.turns (some left) := Nat.lt_succ_self _
      rcases modifiersLoop_spec hturns ⟨32, .right, false⟩ with
        ⟨hcut, hloop⟩ | ⟨hcut, m, left₁, hloop, hle₁⟩
      · rw [hloop, error_bind]
        exact Or.inl ⟨hcut, rfl⟩
      · rw [hloop, ok_bind]
        refine Or.inr ⟨hcut, ?_⟩
        refine (parseWidth_ends left₁).bind fun r ⟨hwidth, left₂, hinpos, hle₂⟩ => ?_
        rw [hinpos]
        refine (parsePrecision_ends left₂).bind fun r' ⟨hprecision, left₃, hinpos', hle₃⟩ => ?_
        exact ⟨⟨hwidth, hprecision, hpos⟩, left₃, hinpos', by omega⟩
  · rw [if_neg hbegin]
    refine Or.inr ⟨fun hcut => hbegin (beginsModifiers_of_cut hcut).1, ?_⟩
    have hnone (n : ℤ) (hn : none = some n) : 0 < n := by cases hn
    exact ⟨⟨Int.le_refl 0, Int.le_refl 0, hnone⟩, rest, rfl, Nat.le_refl _⟩

/-! ## A turn -/

/-- The format ends right behind the quote of a padding. -/
def CutAt (inpos : Cursor) : Prop := ∃ rest, inpos = some (37 :: rest) ∧ CutSpecifier rest

theorem argAt_returns (args : List ζ) {argnum : ℤ} (hpos : 0 ≤ argnum) (hlt : argnum < args.length) :
    Returns (argAt args argnum) fun _ => True := by
  have hget : argnum.toNat < args.length := by omega
  rw [argAt, if_neg (by omega), List.getElem?_eq_getElem hget]
  exact Returns.ok trivial

/-- What a turn leaves behind: the format has been read further. -/
def Advanced (rest : List UInt8) (p : Printing) : Prop :=
  p.b.Sound ∧ 1 ≤ p.currarg ∧ (p.inpos.getD []).length ≤ rest.length

theorem length_next (inpos : Cursor) :
    (inpos.next.getD []).length ≤ (inpos.getD []).length - 1 := by
  cases inpos with
  | none => exact Nat.zero_le _
  | some rest =>
    cases rest with
    | nil => exact Nat.zero_le _
    | cons c rest => exact Nat.le_refl _

theorem printSpecifier_spec (hb : p.b.Sound) (hcurr : 1 ≤ p.currarg) (hoffset : 0 ≤ formatOffset)
    (hinpos : p.inpos = some rest) :
    (CutSpecifier rest ∧ printSpecifier conv args formatOffset p = .error overrun) ∨
    (¬ CutSpecifier rest ∧ Ends (printSpecifier conv args formatOffset p) (Advanced rest)
      Stop.Allowed) := by
  rw [printSpecifier, hinpos]
  rcases parseSpecifier_spec rest with ⟨hcut, heq⟩ | ⟨hcut, hends⟩
  · rw [heq]
    exact Or.inl ⟨hcut, rfl⟩
  · refine Or.inr ⟨hcut, hends.bind ?_⟩
    rintro ⟨s, inpos⟩ ⟨hs, left, hleft, hle⟩
    dsimp only at hleft hs ⊢
    subst hleft
    have hargnum : 1 ≤ s.argnum.getD p.currarg := by
      cases hn : s.argnum with
      | none => exact hcurr
      | some n => exact hs.argnum n hn
    refine Ends.ite (fun _ => not_false) fun henough => ?_
    rw [Cursor.read_some, ok_bind]
    obtain ⟨arg, harg, -⟩ := argAt_returns args
      (show 0 ≤ s.argnum.getD p.currarg + formatOffset by omega) (by omega)
    rw [harg, ok_bind]
    obtain ⟨left', hleft', hle'⟩ : ∃ left', (if left.headD 0 = 108 then Cursor.next (some left)
        else some left) = some left' ∧ left'.length ≤ left.length := by
      split
      · next hl =>
        cases left with
        | nil => exact absurd hl (by decide)
        | cons c left => exact ⟨left, rfl, Nat.le_succ _⟩
      · exact ⟨left, rfl, Nat.le_refl _⟩
    rw [hleft', Cursor.read_some, ok_bind]
    refine (convert_ends hb hs).bind fun b' hb' => ?_
    have hnext := length_next (some left')
    rw [Option.getD_some] at hnext
    refine ⟨hb', ?_, by dsimp only; omega⟩
    dsimp only
    split
    · exact hcurr
    · omega

theorem printTurn_spec (conv : Conversions ζ) (args : List ζ) (hb : p.b.Sound) (hcurr : 1 ≤ p.currarg) (hoffset : 0 ≤ formatOffset)
    {c : UInt8} (hinpos : p.inpos = some (c :: rest)) :
    (CutAt p.inpos ∧ printTurn conv args formatOffset p = .error overrun) ∨
    (¬ CutAt p.inpos ∧ Ends (printTurn conv args formatOffset p) (Advanced rest)
      Stop.Allowed) := by
  have hcut : CutAt p.inpos ↔ c = 37 ∧ CutSpecifier rest := by
    rw [hinpos]
    constructor
    · rintro ⟨rest', heq, hcut⟩
      obtain ⟨rfl, rfl⟩ := List.cons.inj (Option.some.inj heq)
      exact ⟨rfl, hcut⟩
    · rintro ⟨rfl, hcut⟩
      exact ⟨rest, rfl, hcut⟩
  rw [hcut, printTurn, hinpos, Cursor.read_some, ok_bind, List.headD_cons, Cursor.next_cons]
  by_cases hpercent : c = 37
  · rw [if_neg (not_not.mpr hpercent), and_iff_right hpercent, Cursor.read_some, ok_bind]
    by_cases hliteral : rest.headD 0 = 37
    · rw [if_pos hliteral]
      refine Or.inr ⟨fun h => (beginsModifiers_of_cut h).2 hliteral, ?_⟩
      refine (appendChar_ends hb 37).bind fun b' hb' => ?_
      have hnext := length_next (some rest)
      exact ⟨hb', hcurr, hnext.trans (Nat.sub_le _ _)⟩
    · rw [if_neg hliteral]
      exact printSpecifier_spec hb hcurr hoffset rfl
  · rw [if_pos hpercent]
    refine Or.inr ⟨fun h => hpercent h.1, ?_⟩
    exact (appendChar_ends hb c).bind fun b' hb' => ⟨hb', hcurr, Nat.le_refl _⟩

/-! ## Runs -/

def Turn (conv : Conversions ζ) (args : List ζ) (formatOffset : ℤ) (p p' : Printing) : Prop :=
  p.inpos.Inside ∧ printTurn conv args formatOffset p = .ok p'

def Printing.Sound (p : Printing) : Prop := p.b.Sound ∧ 1 ≤ p.currarg

theorem inside_iff {inpos : Cursor} : inpos.Inside ↔ ∃ c rest, inpos = some (c :: rest) := by
  unfold Cursor.Inside
  cases inpos with
  | none => simp
  | some rest => cases rest <;> simp

theorem not_cutAt_of_not_inside {inpos : Cursor} (h : ¬ inpos.Inside) : ¬ CutAt inpos := by
  rintro ⟨rest, heq, -⟩
  exact h (inside_iff.mpr ⟨37, rest, heq⟩)

theorem Turn.sound {p' : Printing} (hoffset : 0 ≤ formatOffset)
    (h : Turn conv args formatOffset p p') (hp : p.Sound) : p'.Sound := by
  obtain ⟨c, rest, hinpos⟩ := inside_iff.mp h.1
  rcases printTurn_spec conv args hp.1 hp.2 hoffset hinpos with
    ⟨-, heq⟩ | ⟨-, hends⟩
  · rw [h.2] at heq
    cases heq
  · obtain ⟨hb, hcurr, -⟩ := hends.of_ok h.2
    exact ⟨hb, hcurr⟩

theorem sound_of_turns {p' : Printing} (hoffset : 0 ≤ formatOffset)
    (h : Relation.ReflTransGen (Turn conv args formatOffset) p p') (hp : p.Sound) : p'.Sound := by
  induction h with
  | refl => exact hp
  | tail _ hturn ih => exact hturn.sound hoffset ih

theorem printLoop_spec (conv : Conversions ζ) (args : List ζ) {turns : ℕ} (hoffset : 0 ≤ formatOffset) (hp : p.Sound)
    (hturns : (p.inpos.getD []).length < turns) :
    ((∃ p', Relation.ReflTransGen (Turn conv args formatOffset) p p' ∧ CutAt p'.inpos) ∧
      printLoop conv args formatOffset turns p = .error overrun) ∨
    ((∀ p', Relation.ReflTransGen (Turn conv args formatOffset) p p' → ¬ CutAt p'.inpos) ∧
      Ends (printLoop conv args formatOffset turns p) Printing.Sound Stop.Allowed) := by
  induction turns generalizing p with
  | zero => omega
  | succ turns ih =>
    rw [printLoop]
    by_cases hinside : p.inpos.Inside
    · rw [if_pos hinside]
      obtain ⟨c, rest, hinpos⟩ := inside_iff.mp hinside
      rw [hinpos, Option.getD_some, List.length_cons] at hturns
      rcases printTurn_spec conv args hp.1 hp.2 hoffset hinpos with
        ⟨hcut, heq⟩ | ⟨hcut, hends⟩
      · rw [heq, error_bind]
        exact Or.inl ⟨⟨p, .refl, hcut⟩, rfl⟩
      · cases hturn : printTurn conv args formatOffset p with
        | error e =>
          refine Or.inr ⟨fun p' hp' => ?_, hends.of_error hturn⟩
          cases hp'.cases_head with
          | inl hsame => exact hsame ▸ hcut
          | inr hnext =>
            obtain ⟨p₁, h₁, -⟩ := hnext
            rw [h₁.2] at hturn
            cases hturn
        | ok p₁ =>
          obtain ⟨hb, hcurr, hle⟩ := hends.of_ok hturn
          have hstep : Turn conv args formatOffset p p₁ := ⟨hinside, hturn⟩
          rw [ok_bind]
          refine (ih ⟨hb, hcurr⟩ (by omega)).imp ?_ ?_
          · rintro ⟨⟨p', hp', hcut'⟩, heq⟩
            exact ⟨⟨p', .head hstep hp', hcut'⟩, heq⟩
          · rintro ⟨hall, hloop⟩
            refine ⟨fun p' hp' => ?_, hloop⟩
            cases hp'.cases_head with
            | inl hsame => exact hsame ▸ hcut
            | inr hnext =>
              obtain ⟨p₂, h₂, hrest⟩ := hnext
              rw [h₂.2, Except.ok.injEq] at hturn
              exact hall p' (hturn ▸ hrest)
    · rw [if_neg hinside]
      refine Or.inr ⟨fun p' hp' => ?_, hp⟩
      cases hp'.cases_head with
      | inl hsame => exact hsame ▸ not_cutAt_of_not_inside hinside
      | inr hnext =>
        obtain ⟨p₁, h₁, -⟩ := hnext
        exact absurd h₁.1 hinside

def Reached (conv : Conversions ζ) (args : List ζ) (formatOffset : ℕ) (format : ζ)
    (p : Printing) : Prop :=
  Relation.ReflTransGen (Turn conv args formatOffset)
    ⟨some (conv.toString format), 1, PrintBuffer.new⟩ p

def Overruns (conv : Conversions ζ) (args : List ζ) (useArray : Bool) (formatOffset : ℕ) : Prop :=
  ∃ args' offset format p, printArguments conv args useArray formatOffset = some (args', offset) ∧
    args'[offset]? = some format ∧ Reached conv args' offset format p ∧ CutAt p.inpos

theorem sound_new : PrintBuffer.new.Sound := ⟨by decide, by decide⟩

theorem sound_start (format : ζ) :
    Printing.Sound ⟨some (conv.toString format), 1, PrintBuffer.new⟩ :=
  ⟨sound_new, Int.le_refl 1⟩

theorem Reached.sound {format : ζ} {formatOffset : ℕ}
    (h : Reached conv args formatOffset format p) : p.Sound :=
  sound_of_turns (Int.natCast_nonneg _) h (sound_start format)

theorem printArguments_spec {useArray : Bool} {formatOffset offset : ℕ} {args' : List ζ}
    (h : printArguments conv args useArray formatOffset = some (args', offset)) :
    offset < args'.length := by
  unfold printArguments at h
  split at h
  · split at h
    · cases h
      exact Nat.succ_pos _
    · cases h
  · split at h
    · cases h
    · next henough =>
      cases h
      omega

theorem formattedPrint_spec (conv : Conversions ζ) {formatOffset : ℕ} {format : ζ}
    (hformat : args[formatOffset]? = some format) :
    ((∃ p, Reached conv args formatOffset format p ∧ CutAt p.inpos) ∧
      formattedPrint conv args formatOffset = .error overrun) ∨
    ((∀ p, Reached conv args formatOffset format p → ¬ CutAt p.inpos) ∧
      Ends (formattedPrint conv args formatOffset) (fun _ => True) Stop.Allowed) := by
  have harg : argAt args (formatOffset : ℤ) = .ok format := by
    rw [argAt, if_neg (by omega), Int.toNat_natCast, hformat]
  rw [formattedPrint, harg, ok_bind]
  rcases printLoop_spec conv args (Int.natCast_nonneg formatOffset) (sound_start format)
    (Nat.lt_succ_self (conv.toString format).length) with
    ⟨hcut, heq⟩ | ⟨hcut, hends⟩
  · dsimp only
    rw [heq]
    exact Or.inl ⟨hcut, rfl⟩
  · refine Or.inr ⟨hcut, hends.bind fun p hp => ?_⟩
    have hroom := hp.1.1
    rw [write_eq (by simp only [List.length_singleton]; omega)]
    exact trivial

def texts : Conversions (List UInt8) := ⟨id, fun _ => 0, fun _ => .nan, fun _ => []⟩

end PhpRuntime.Text.Sprintf

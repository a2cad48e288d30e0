import Mathlib.Tactic.SplitIfs
import PhpRuntime.Text.Slashes

/-!
# Escaping and decoding

The decoders give back what was escaped. An encoded character is read in one turn of a decoder,
which writes one byte, so the writer stays behind the reader, and `*len` ends as the number of
bytes written.
-/

set_option autoImplicit false

namespace PhpRuntime.Text

open Lib

variable {str written rest x : List UInt8} {c b : UInt8} {source target fin l : ℕ} {len nlen : ℤ}

/-- The decoder leaves the bytes, and their number. -/
structure Restores (decoded : Decoded) (x : List UInt8) : Prop where
  len : decoded.len = some (x.length : ℤ)
  str : decoded.str.take x.length = x

/-! ## `php_stripslashes` -/

theorem stripslashesLoop_plain (hc : str.getD source 0 = c) (hne : c ≠ 92) (l : ℕ)
    (len : Option ℤ) :
    stripslashesLoop str target source (l + 1) len =
      stripslashesLoop (str.set target c) (target + 1) (source + 1) l len := by
  cases l with
  | zero =>
    rw [Nat.zero_add, stripslashesLoop, stripslashesLoop, hc, if_neg hne]
  | succ l => rw [stripslashesLoop, hc, if_neg hne]

theorem stripslashesLoop_escape (hslash : str.getD source 0 = 92)
    (hc : str.getD (source + 1) 0 = b) (l : ℕ) (len : Option ℤ) :
    stripslashesLoop str target source (l + 2) len =
      stripslashesLoop (str.set target (if b = 48 then 0 else b)) (target + 1) (source + 2) l
        (len.map (· - 1)) := by
  rw [stripslashesLoop, if_pos hslash, hc]
  split_ifs <;> rfl

theorem stripslashesLoop_char (h : InPlace str target source written (addslashesChar c ++ rest))
    (l : ℕ) (len : ℤ) :
    stripslashesLoop str target source ((addslashesChar c).length + l) (some len) =
      stripslashesLoop (str.set target c) (target + 1) (source + (addslashesChar c).length) l
        (some (len - ((addslashesChar c).length - 1 : ℕ))) := by
  have hhead := h.getD 0 0
  have hnext := h.getD 1 0
  rw [Nat.add_zero] at hhead
  rw [addslashesChar] at hhead hnext ⊢
  split_ifs at hhead hnext ⊢ with h0 hquote
  · subst h0
    exact (Nat.add_comm 2 l) ▸ stripslashesLoop_escape hhead hnext l (some len)
  · have hzero : c ≠ 48 := by
      rintro rfl
      exact absurd hquote (by decide)
    have hsecond : str.getD (source + 1) 0 = c := hnext
    have hturn : stripslashesLoop str target source (l + 2) (some len) = _ :=
      stripslashesLoop_escape hhead hsecond l (some len)
    rw [if_neg hzero] at hturn
    exact (Nat.add_comm 2 l) ▸ hturn
  · have hslash : c ≠ 92 := fun hslash => hquote (.inr (.inr hslash))
    have hturn : stripslashesLoop str target source (l + 1) (some len) = _ :=
      stripslashesLoop_plain hhead hslash l (some len)
    rw [List.length_singleton, Nat.add_comm, hturn]
    simp

theorem addslashesChar_ne_nil (c : UInt8) : addslashesChar c ≠ [] := by
  rw [addslashesChar]
  split_ifs <;> exact List.cons_ne_nil _ _

theorem stripslashesLoop_escaped (x : List UInt8)
    (h : InPlace str target source written (x.flatMap addslashesChar ++ rest)) (len : ℤ) :
    ∃ str', stripslashesLoop str target source (x.flatMap addslashesChar).length (some len) =
        (str', target + x.length, source + (x.flatMap addslashesChar).length,
          some (len - ((x.flatMap addslashesChar).length - x.length : ℕ))) ∧
      str'.take (target + x.length) = written ++ x ∧
      x.length ≤ (x.flatMap addslashesChar).length := by
  induction x generalizing str target source written len with
  | nil =>
    refine ⟨str, ?_, ?_, Nat.le_refl _⟩
    · rw [List.flatMap_nil, List.length_nil, stripslashesLoop]
      simp
    · rw [List.length_nil, Nat.add_zero, h.take, List.append_nil]
  | cons c x ih =>
    rw [List.flatMap_cons, List.append_assoc] at h
    have hne := addslashesChar_ne_nil c
    have hpos := List.length_pos_iff.mpr hne
    obtain ⟨str', hloop, htake, hle⟩ := ih (h.put hne c) (len - ((addslashesChar c).length - 1 : ℕ))
    have hlength : ((c :: x).flatMap addslashesChar).length =
        (addslashesChar c).length + (x.flatMap addslashesChar).length := by
      rw [List.flatMap_cons, List.length_append]
    refine ⟨str', ?_, ?_, ?_⟩
    · rw [hlength, stripslashesLoop_char h, hloop, List.length_cons]
      simp only [Prod.mk.injEq, Option.some.injEq, true_and]
      omega
    · rw [List.append_assoc, List.singleton_append] at htake
      rw [← htake, List.length_cons]
      congr 1
      omega
    · rw [hlength, List.length_cons]
      omega

theorem addslashes_snd (x : List UInt8) (hx : ((addslashes x).1.length : ℤ) ≤ INT_MAX) :
    (addslashes x).2 = ((addslashes x).1.length : ℤ) := by
  rw [addslashes] at hx ⊢
  rw [toInt_eq (Int.natCast_nonneg _) hx]

/-- **`php_stripslashes` undoes `php_addslashes`.** -/
theorem stripslashes_addslashes (x : List UInt8) (hx : ((addslashes x).1.length : ℤ) ≤ INT_MAX) :
    Restores (stripslashes ((addslashes x).1 ++ [0]) (some (addslashes x).2)) x := by
  obtain ⟨str', hloop, htake, hle⟩ := stripslashesLoop_escaped x
    (InPlace.start (x.flatMap addslashesChar ++ [0])) ((x.flatMap addslashesChar).length : ℤ)
  have hnlen : (((x.flatMap addslashesChar).length : ℤ) -
      ((x.flatMap addslashesChar).length - x.length : ℕ)) = x.length := by omega
  rw [addslashes_snd x hx, addslashes, stripslashes]
  simp only [Int.toNat_natCast, hloop, Nat.zero_add, hnlen]
  rw [Nat.zero_add, List.nil_append] at htake
  refine ⟨rfl, ?_⟩
  change (if _ then _ else _ : List UInt8).take _ = _
  split_ifs
  · rwa [List.take_set_of_le (Nat.le_refl _)]
  · exact htake

/-! ## The length that `php_stripcslashes` stores -/

theorem length_octalNumtmp (str : List UInt8) (room : ℕ) (h : source ≤ fin) :
    source + (octalNumtmp str fin room source).length ≤ fin := by
  induction room generalizing source with
  | zero => exact h
  | succ room ih =>
    rw [octalNumtmp]
    split_ifs with hdigit
    · have hnext : source + 1 ≤ fin := hdigit.1
      have hrest := ih hnext
      rw [List.length_cons]
      omega
    · exact h

theorem stripcslashesEscape_less (str : List UInt8) (h : source < fin) :
    source ≤ (stripcslashesEscape str source fin).2.1 ∧
      (stripcslashesEscape str source fin).2.1 < fin ∧
      (stripcslashesEscape str source fin).2.2 =
        (stripcslashesEscape str source fin).2.1 + 1 - (source : ℤ) := by
  have hdigits := length_octalNumtmp str 3 (Nat.le_of_lt h)
  rw [stripcslashesEscape]
  cases letterEscapes.lookup (str.getD source 0) with
  | some b =>
    dsimp only
    omega
  | none =>
    dsimp only
    split_ifs with hx hxx hoctal <;> dsimp only <;> omega

theorem stripcslashesLoop_nlen (turns : ℕ) (str : List UInt8) (source target : ℕ) (nlen : ℤ)
    (hturns : fin ≤ source + turns) (hsource : source ≤ fin)
    (hnlen : nlen = target + (fin - source : ℕ)) :
    (stripcslashesLoop fin turns str source target nlen).2.2 =
      (stripcslashesLoop fin turns str source target nlen).2.1 := by
  induction turns generalizing str source target nlen with
  | zero =>
    rw [stripcslashesLoop, hnlen]
    dsimp only
    omega
  | succ turns ih =>
    rw [stripcslashesLoop]
    split_ifs with hlt hslash
    · have hless := stripcslashesEscape_less str hslash.2
      generalize stripcslashesEscape str (source + 1) fin = e at hless ⊢
      obtain ⟨c, source', less⟩ := e
      dsimp only at hless ⊢
      exact ih _ _ _ _ (by omega) (by omega) (by omega)
    · exact ih _ _ _ _ (by omega) (by omega) (by omega)
    · rw [hnlen]
      dsimp only
      omega

/-- **The length that is stored is the number of bytes written.** -/
theorem stripcslashes_len (y : List UInt8) :
    (stripcslashes (y ++ [0]) y.length).len =
      some ((stripcslashes (y ++ [0]) y.length).written : ℤ) := by
  rw [stripcslashes]
  exact congrArg some (stripcslashesLoop_nlen _ _ _ _ _ (by omega) (Nat.zero_le _) (by omega))

/-! ## `php_stripcslashes` -/

/-- The bytes that a decoder reads as an escape of their own. -/
def escapeBytes : List UInt8 :=
  [48, 49, 50, 51, 52, 53, 54, 55, 97, 98, 102, 110, 114, 116, 118, 120]

theorem octalChar_octalDigits (c : UInt8) : octalChar (octalDigits c) = c := by
  have h : ∀ n < 256, octalChar (octalDigits (UInt8.ofNat n)) = UInt8.ofNat n := by decide +kernel
  have hc := h c.toNat c.toNat_lt
  rwa [UInt8.ofNat_toNat] at hc

/-- What an octal digit is for the decoder. -/
structure OctalDigit (d : UInt8) : Prop where
  range : 48 ≤ d ∧ d ≤ 55
  noLetter : letterEscapes.lookup d = none
  noHex : d ≠ 120

theorem octalDigit_ofNat {k : ℕ} (hk : k < 8) : OctalDigit (UInt8.ofNat (48 + k)) := by
  have h : ∀ k < 8, (48 ≤ UInt8.ofNat (48 + k) ∧ UInt8.ofNat (48 + k) ≤ 55) ∧
      letterEscapes.lookup (UInt8.ofNat (48 + k)) = none ∧ UInt8.ofNat (48 + k) ≠ 120 := by
    decide
  obtain ⟨hrange, hletter, hhex⟩ := h k hk
  exact ⟨hrange, hletter, hhex⟩

theorem octalDigits_digit {d : UInt8} (h : d ∈ octalDigits c) : OctalDigit d := by
  have hc := c.toNat_lt
  rw [octalDigits] at h
  simp only [List.mem_cons, List.not_mem_nil, or_false] at h
  obtain rfl | rfl | rfl := h <;> exact octalDigit_ofNat (by omega)

theorem octalNumtmp_digits {d e f : UInt8}
    (h : InPlace str target source written (d :: e :: f :: rest)) (hd : OctalDigit d)
    (he : OctalDigit e) (hf : OctalDigit f) (hfin : source + 3 ≤ fin) :
    octalNumtmp str fin 3 source = [d, e, f] := by
  have hfirst : str.getD source 0 = d := h.getD 0 0
  have hsecond : str.getD (source + 1) 0 = e := h.getD 1 0
  have hthird : str.getD (source + 1 + 1) 0 = f := h.getD 2 0
  rw [octalNumtmp, hfirst, if_pos ⟨by omega, hd.range⟩, octalNumtmp, hsecond,
    if_pos ⟨by omega, he.range⟩, octalNumtmp, hthird, if_pos ⟨by omega, hf.range⟩, octalNumtmp]

theorem stripcslashesEscape_letter (hc : str.getD source 0 = c)
    (hb : letterEscapes.lookup c = some b) (fin : ℕ) :
    stripcslashesEscape str source fin = (b, source, 1) := by
  rw [stripcslashesEscape, hc, hb]

theorem stripcslashesEscape_octal (h : InPlace str target source written (octalDigits c ++ rest))
    (hfin : source + 3 ≤ fin) : stripcslashesEscape str source fin = (c, source + 2, 3) := by
  obtain ⟨d, e, f, hdigits⟩ : ∃ d e f, octalDigits c = [d, e, f] := ⟨_, _, _, rfl⟩
  have hdigit : ∀ i ∈ [d, e, f], OctalDigit i := fun i hi =>
    octalDigits_digit (c := c) (by rwa [hdigits])
  have hchar := octalChar_octalDigits c
  rw [hdigits] at h hchar
  have hd := hdigit d (by simp)
  have hnumtmp := octalNumtmp_digits h hd (hdigit e (by simp)) (hdigit f (by simp)) hfin
  have hfirst : str.getD source 0 = d := h.getD 0 0
  rw [stripcslashesEscape, hfirst, hd.noLetter, hnumtmp]
  dsimp only
  rw [if_neg fun hno => hd.noHex hno.1, if_pos (by simp), hchar]
  rfl

theorem stripcslashesEscape_self (hc : str.getD source 0 = c)
    (hself : c ∉ escapeBytes) (hslash : c ≠ 92) (fin : ℕ) :
    stripcslashesEscape str source fin = (c, source, 1) := by
  have hletter : letterEscapes.lookup c = none := by
    rw [List.lookup_eq_none_iff]
    intro p hp
    simp only [letterEscapes, escapeBytes, List.mem_cons, List.not_mem_nil, or_false] at hp hself
    grind
  have hhex : c ≠ 120 := by
    rintro rfl
    exact hself (by decide)
  have hoctal : ¬ (48 ≤ c ∧ c ≤ 55) := by
    intro hrange
    have h : ∀ n < 256, 48 ≤ UInt8.ofNat n → UInt8.ofNat n ≤ 55 → UInt8.ofNat n ∈ escapeBytes := by
      decide +kernel
    have hmem := h c.toNat c.toNat_lt
    rw [UInt8.ofNat_toNat] at hmem
    exact hself (hmem hrange.1 hrange.2)
  have hnumtmp : octalNumtmp str fin 3 source = [] := by
    rw [octalNumtmp, hc, if_neg fun hno => hoctal hno.2]
  rw [stripcslashesEscape, hc, hletter, hnumtmp]
  dsimp only
  rw [if_neg fun hno => hhex hno.1, if_neg (by simp)]

theorem controlLetters_decoded (h : controlLetters.lookup c = some b) :
    letterEscapes.lookup b = some c := by
  have hall : ∀ n < 256, (controlLetters.lookup (UInt8.ofNat n)).all
      (letterEscapes.lookup · == some (UInt8.ofNat n)) = true := by
    decide +kernel
  have hc := hall c.toNat c.toNat_lt
  rw [UInt8.ofNat_toNat, h, Option.all_some, beq_iff_eq] at hc
  exact hc

/-- A mask of which the escapes can be told apart. -/
structure Reversible (flags : CharMask) : Prop where
  slash : flags 92 = true
  plain : ∀ c ∈ escapeBytes, flags c = false

variable {flags : CharMask}

/-- What `php_addcslashes` writes: the character alone, or a backslash and what the switch of the
decoder reads as the character. -/
theorem addcslashesChar_cases (hflags : Reversible flags) (c : UInt8) :
    (addcslashesChar flags c = [c] ∧ c ≠ 92) ∨
      ∃ body, addcslashesChar flags c = 92 :: body ∧ body ≠ [] ∧
        ∀ {str written rest source target fin},
          InPlace str target source written (body ++ rest) → source + body.length ≤ fin →
          stripcslashesEscape str source fin =
            (c, source + (body.length - 1), (body.length : ℤ)) := by
  rw [addcslashesChar]
  split_ifs with hflag hcontrol
  · cases hletter : controlLetters.lookup c with
    | some b =>
      refine .inr ⟨[b], rfl, List.cons_ne_nil _ _, fun h _ => ?_⟩
      exact stripcslashesEscape_letter (h.getD 0 0) (controlLetters_decoded hletter) _
    | none => exact .inr ⟨octalDigits c, rfl, List.cons_ne_nil _ _, stripcslashesEscape_octal⟩
  · refine .inr ⟨[c], rfl, List.cons_ne_nil _ _, fun h _ => ?_⟩
    by_cases hslash : c = 92
    · exact stripcslashesEscape_letter (h.getD 0 0) (by rw [hslash]; rfl) _
    · have hself : c ∉ escapeBytes := by
        intro hmem
        rw [hflags.plain c hmem] at hflag
        cases hflag
      exact stripcslashesEscape_self (h.getD 0 0) hself hslash _
  · refine .inl ⟨rfl, ?_⟩
    rintro rfl
    exact hflag hflags.slash

theorem addcslashesChar_ne_nil (hflags : Reversible flags) (c : UInt8) :
    addcslashesChar flags c ≠ [] := by
  obtain ⟨hchar, -⟩ | ⟨body, hchar, -, -⟩ := addcslashesChar_cases hflags c <;> rw [hchar] <;>
    exact List.cons_ne_nil _ _

theorem stripcslashesLoop_char (hflags : Reversible flags)
    (h : InPlace str target source written (addcslashesChar flags c ++ rest))
    (hfin : source + (addcslashesChar flags c).length ≤ fin) (turns : ℕ) (nlen : ℤ) :
    stripcslashesLoop fin (turns + 1) str source target nlen =
      stripcslashesLoop fin turns (str.set target c) (source + (addcslashesChar flags c).length)
        (target + 1) (nlen - ((addcslashesChar flags c).length - 1 : ℕ)) := by
  have hhead := h.getD 0 0
  rw [Nat.add_zero] at hhead
  obtain ⟨hchar, hne⟩ | ⟨body, hchar, hbody, hescape⟩ := addcslashesChar_cases hflags c
  · rw [hchar] at hhead hfin ⊢
    have hfirst : str.getD source 0 = c := hhead
    rw [List.length_singleton] at hfin ⊢
    rw [stripcslashesLoop, if_pos (by omega), hfirst, if_neg fun hno => hne hno.1]
    simp
  · rw [hchar] at h hhead hfin ⊢
    have hfirst : str.getD source 0 = 92 := hhead
    have hpos := List.length_pos_iff.mpr hbody
    rw [List.length_cons] at hfin ⊢
    have hslash : InPlace str target source written ([92] ++ (body ++ rest)) := h
    have hbehind : InPlace str target (source + 1) written (body ++ rest) := hslash.skip
    rw [stripcslashesLoop, if_pos (by omega), hfirst, if_pos ⟨rfl, by omega⟩,
      hescape hbehind (by omega)]
    dsimp only
    congr 1
    omega

theorem stripcslashesLoop_escaped (hflags : Reversible flags) (x : List UInt8) (turns : ℕ)
    (h : InPlace str target source written (x.flatMap (addcslashesChar flags) ++ rest))
    (hturns : x.length ≤ turns)
    (hfin : source + (x.flatMap (addcslashesChar flags)).length = fin) (nlen : ℤ) :
    ∃ str' nlen', stripcslashesLoop fin turns str source target nlen =
        (str', target + x.length, nlen') ∧ str'.take (target + x.length) = written ++ x := by
  induction x generalizing str source target written turns nlen with
  | nil =>
    rw [List.flatMap_nil, List.length_nil, Nat.add_zero] at hfin
    refine ⟨str, nlen, ?_, ?_⟩
    · cases turns with
      | zero => rfl
      | succ turns => rw [stripcslashesLoop, if_neg (by omega)]; rfl
    · rw [List.length_nil, Nat.add_zero, h.take, List.append_nil]
  | cons c x ih =>
    rw [List.flatMap_cons, List.length_append] at hfin
    rw [List.flatMap_cons, List.append_assoc] at h
    rw [List.length_cons] at hturns
    obtain ⟨turns, rfl⟩ : ∃ n, turns = n + 1 := ⟨turns - 1, by omega⟩
    obtain ⟨str', nlen', hloop, htake⟩ := ih turns (h.put (addcslashesChar_ne_nil hflags c) c)
      (by omega) (by omega) (nlen - ((addcslashesChar flags c).length - 1 : ℕ))
    refine ⟨str', nlen', ?_, ?_⟩
    · rw [stripcslashesLoop_char hflags h (by omega), hloop, List.length_cons]
      congr 2
      omega
    · rw [List.append_assoc, List.singleton_append] at htake
      rw [← htake, List.length_cons]
      congr 1
      omega

theorem length_addcslashes (hflags : Reversible flags) (x : List UInt8) :
    x.length ≤ (x.flatMap (addcslashesChar flags)).length := by
  induction x with
  | nil => exact Nat.le_refl _
  | cons c x ih =>
    have hpos := List.length_pos_iff.mpr (addcslashesChar_ne_nil hflags c)
    rw [List.flatMap_cons, List.length_append, List.length_cons]
    omega

theorem addcslashes_snd {x what : List UInt8}
    (hx : ((addcslashes x what).1.length : ℤ) ≤ INT_MAX) :
    (addcslashes x what).2 = ((addcslashes x what).1.length : ℤ) := by
  rw [addcslashes] at hx ⊢
  rw [toInt_eq (Int.natCast_nonneg _) hx]

theorem stripcslashes_addcslashes {x what : List UInt8} (hflags : Reversible (charmask what).1)
    (hx : ((addcslashes x what).1.length : ℤ) ≤ INT_MAX) :
    Restores (stripcslashes ((addcslashes x what).1 ++ [0]) (addcslashes x what).2) x := by
  have hlen := stripcslashes_len (addcslashes x what).1
  obtain ⟨str', nlen', hloop, htake⟩ := stripcslashesLoop_escaped hflags x
    (x.flatMap (addcslashesChar (charmask what).1)).length
    (InPlace.start (x.flatMap (addcslashesChar (charmask what).1) ++ [0]))
    (length_addcslashes hflags x) (Nat.zero_add _)
    ((x.flatMap (addcslashesChar (charmask what).1)).length : ℤ)
  rw [addcslashes_snd hx]
  rw [addcslashes, stripcslashes] at hlen ⊢
  simp only [Int.toNat_natCast, hloop, Nat.zero_add] at hlen ⊢
  rw [Nat.zero_add, List.nil_append] at htake
  refine ⟨hlen, ?_⟩
  change (if _ then _ else _ : List UInt8).take _ = _
  split_ifs
  · rwa [List.take_set_of_le (Nat.le_refl _)]
  · exact htake

/-! ## Lists with ranges -/

/-- One turn of `php_charmask`: a range, a dot that is skipped, or a byte. -/
theorem charmaskLoop_cases (turns : ℕ) (left : Option UInt8) (d : UInt8) (rest : List UInt8)
    (mask : CharMask) :
    (∃ e, rest = 46 :: 46 :: e :: rest.drop 3 ∧ d ≤ e ∧
      charmaskLoop (turns + 1) left (d :: rest) mask =
        charmaskLoop turns (some e) (rest.drop 3) (mask.setRange d e)) ∨
      (d = 46 ∧ (charmaskLoop (turns + 1) left (d :: rest) mask).1 =
        (charmaskLoop turns (some d) rest mask).1) ∨
      charmaskLoop (turns + 1) left (d :: rest) mask =
        charmaskLoop turns (some d) rest (mask.setRange d d) := by
  rw [charmaskLoop.eq_def]
  dsimp only
  by_cases hrange : 3 < (d :: rest).length ∧ (d :: rest).getD 1 0 = 46 ∧
      (d :: rest).getD 2 0 = 46 ∧ d ≤ (d :: rest).getD 3 0
  · rw [if_pos hrange]
    obtain ⟨hlen, h1, h2, hle⟩ := hrange
    match rest, hlen with
    | a :: b :: e :: rest, _ =>
      have ha : a = 46 := h1
      have hb : b = 46 := h2
      refine .inl ⟨e, ?_, hle, rfl⟩
      rw [ha, hb]
      rfl
  · rw [if_neg hrange]
    by_cases hdots : 1 < (d :: rest).length ∧ d = 46 ∧ (d :: rest).getD 1 0 = 46
    · rw [if_pos hdots]
      exact .inr (.inl ⟨hdots.2.1, rfl⟩)
    · rw [if_neg hdots]
      exact .inr (.inr rfl)

theorem setRange_of_mem {d e : UInt8} (mask : CharMask) (hd : d ≤ c) (he : c ≤ e) :
    mask.setRange d e c = true := by
  unfold CharMask.setRange
  rw [decide_eq_true hd, decide_eq_true he]
  rfl

theorem setRange_of_true {mask : CharMask} (h : mask c = true) (d e : UInt8) :
    mask.setRange d e c = true := by
  unfold CharMask.setRange
  rw [h, Bool.or_true]

theorem charmaskLoop_mono (turns : ℕ) (left : Option UInt8) (input : List UInt8) (mask : CharMask)
    (h : mask c = true) : (charmaskLoop turns left input mask).1 c = true := by
  induction turns generalizing left input mask with
  | zero => exact h
  | succ turns ih =>
    cases input with
    | nil => exact h
    | cons d rest =>
      obtain ⟨e, -, -, hturn⟩ | ⟨-, hturn⟩ | hturn := charmaskLoop_cases turns left d rest mask
      · rw [hturn]
        exact ih _ _ _ (setRange_of_true h d e)
      · rw [hturn]
        exact ih _ _ _ h
      · rw [hturn]
        exact ih _ _ _ (setRange_of_true h d d)

theorem charmaskLoop_mem (turns : ℕ) (left : Option UInt8) (input : List UInt8) (mask : CharMask)
    (hturns : input.length ≤ turns) (hc : c ∈ input) (hdot : c ≠ 46) :
    (charmaskLoop turns left input mask).1 c = true := by
  induction turns generalizing left input mask with
  | zero =>
    rw [List.eq_nil_of_length_eq_zero (Nat.le_zero.mp hturns)] at hc
    cases hc
  | succ turns ih =>
    cases input with
    | nil => cases hc
    | cons d rest =>
      rw [List.length_cons] at hturns
      rw [List.mem_cons] at hc
      obtain ⟨e, hrest, hle, hturn⟩ | ⟨hd, hturn⟩ | hturn :=
        charmaskLoop_cases turns left d rest mask
      · -- the ends of the range are in it, and what is between them are dots
        rw [hturn]
        rw [hrest] at hc
        simp only [List.mem_cons] at hc
        obtain hc | hc | hc | hc | hc := hc
        · exact charmaskLoop_mono _ _ _ _ (setRange_of_mem _ (by rw [hc]; exact UInt8.le_refl _)
            (by rwa [hc]))
        · exact absurd hc hdot
        · exact absurd hc hdot
        · exact charmaskLoop_mono _ _ _ _ (setRange_of_mem _ (by rwa [hc])
            (by rw [hc]; exact UInt8.le_refl _))
        · refine ih _ _ _ ?_ hc
          rw [List.length_drop]
          omega
      · rw [hturn]
        exact ih _ _ _ (Nat.le_of_succ_le_succ hturns)
          (hc.resolve_left fun hno => hdot (hno.trans hd))
      · rw [hturn]
        obtain hc | hc := hc
        · exact charmaskLoop_mono _ _ _ _ (setRange_of_mem _ (by rw [hc]; exact UInt8.le_refl _)
            (by rw [hc]; exact UInt8.le_refl _))
        · exact ih _ _ _ (Nat.le_of_succ_le_succ hturns) hc

end PhpRuntime.Text

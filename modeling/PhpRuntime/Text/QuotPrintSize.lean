import PhpRuntime.Text.QuotPrint

/-!
# The buffer of `php_quot_print_decode` is large enough

The first loop takes two off the size for a `=` and passes the byte behind it; every other byte
counts one. What the second loop makes of a `=` and the bytes behind it is one byte at most,
and none of these bytes but the first is a `=`.
-/

set_option autoImplicit false

namespace PhpRuntime.Text

open PhpRuntime.Lib.Chunked (hexValue)

/-- The number of times that the first loop takes two off the size. -/
def sizePairs : ℕ → List UInt8 → ℕ
  | i + 2, p1 =>
    if p1.headD 0 = 0 then 0
    else if p1.headD 0 = 61 then sizePairs i (p1.drop 2) + 1
    else sizePairs (i + 1) (p1.drop 1)
  | _, _ => 0

alias sizePairs_step := sizePairs.eq_1

theorem sizePairs_le (i : ℕ) (p1 : List UInt8) : 2 * sizePairs i p1 ≤ i := by
  induction i, p1 using sizePairs.induct with
  | case1 i p1 h0 =>
    rw [sizePairs_step, if_pos h0]
    omega
  | case2 i p1 h0 heq ih =>
    rw [sizePairs_step, if_neg h0, if_pos heq]
    omega
  | case3 i p1 h0 heq ih =>
    rw [sizePairs_step, if_neg h0, if_neg heq]
    omega
  | case4 i p1 h =>
    match i, h with
    | 0, _ => exact Nat.le_refl _
    | 1, _ => exact Nat.zero_le _
    | i + 2, h => exact (h i rfl).elim

theorem quotPrintSizeLoop_eq {i bufSize : ℕ} {p1 : List UInt8} (hle : i ≤ bufSize)
    (hlt : bufSize < 2 ^ 64) :
    quotPrintSizeLoop i p1 bufSize = bufSize - 2 * sizePairs i p1 := by
  induction i, p1, bufSize using quotPrintSizeLoop.induct with
  | case1 i p1 bufSize h0 =>
    rw [quotPrintSizeLoop, sizePairs_step, if_pos h0, if_pos h0]
    rfl
  | case2 i p1 bufSize h0 heq ih =>
    have hsub : sizeSub bufSize 2 = bufSize - 2 := by
      unfold sizeSub
      omega
    rw [hsub] at ih
    rw [quotPrintSizeLoop, sizePairs_step, if_neg h0, if_neg h0, if_pos heq, if_pos heq, hsub,
      ih (by omega) (by omega)]
    omega
  | case3 i p1 bufSize h0 heq ih =>
    rw [quotPrintSizeLoop, sizePairs_step, if_neg h0, if_neg h0, if_neg heq, if_neg heq,
      ih (by omega) hlt]
  | case4 i p1 bufSize h =>
    match i, h with
    | 0, _ => rfl
    | 1, _ => rfl
    | i + 2, h => exact (h i rfl).elim

/-! ## What the bytes that are left count -/

/-- What `i` bytes at `p1` count in the size. -/
def sizeLeft (i : ℕ) (p1 : List UInt8) : ℕ := i - 2 * sizePairs i p1

theorem sizeLeft_single {i : ℕ} {p1 : List UInt8} (h0 : p1.headD 0 ≠ 0) (heq : p1.headD 0 ≠ 61) :
    sizeLeft (i + 1) p1 = sizeLeft i (p1.drop 1) + 1 := by
  have hle := sizePairs_le i (p1.drop 1)
  unfold sizeLeft
  cases i with
  | zero => rfl
  | succ i =>
    rw [sizePairs_step, if_neg h0, if_neg heq]
    omega

theorem sizeLeft_pair {i : ℕ} {p1 : List UInt8} (heq : p1.headD 0 = 61) :
    sizeLeft (i + 2) p1 = sizeLeft i (p1.drop 2) := by
  have h0 : p1.headD 0 ≠ 0 := by
    rw [heq]
    decide
  unfold sizeLeft
  rw [sizePairs_step, if_neg h0, if_pos heq]
  omega

theorem ne_of_hexvalTbl {c : UInt8} (h : hexvalTbl c ≠ 64) : c ≠ 0 ∧ c ≠ 61 := by
  constructor
  · rintro rfl
    exact h (by decide)
  · rintro rfl
    exact h (by decide)

theorem headD_drop (s : List UInt8) (k : ℕ) : (s.drop k).headD 0 = s.getD k 0 := by
  rw [List.headD_eq_head?_getD, List.head?_drop, ← List.getD_eq_getElem?_getD]

theorem skipBlanks_sizeLeft {i i' hNbl : ℕ} {p1 p1' : List UInt8}
    (h : skipBlanks i p1 hNbl = some (i', p1')) :
    sizeLeft (i' - 1) (p1'.drop 1) ≤ sizeLeft (i - 1) (p1.drop 1) := by
  induction i generalizing p1 hNbl with
  | zero => cases h
  | succ i ih =>
    rw [skipBlanks] at h
    split at h
    · cases h
      exact Nat.le_refl _
    next hblank =>
    split at h
    · cases h
    next hnext =>
    rw [not_or] at hnext
    obtain ⟨k, rfl⟩ : ∃ k, i = k + 1 := ⟨i - 1, by omega⟩
    have hchar := ne_of_hexvalTbl hnext.2
    rw [← headD_drop] at hchar
    have hsingle := sizeLeft_single (i := k) hchar.1 hchar.2
    have hrest := ih h
    simp only [Nat.add_sub_cancel] at hrest ⊢
    omega

theorem softBreak_sizeLeft {i i' hNbl : ℕ} {p1 p1' : List UInt8} (heq : p1.headD 0 = 61)
    (h : skipBlanks (i - 1) (p1.drop 1) hNbl = some (i', p1')) :
    sizeLeft (i' - 1) (p1'.drop 1) ≤ sizeLeft i p1 := by
  have hpos := skipBlanks_le h
  obtain ⟨k, rfl⟩ : ∃ k, i = k + 2 := ⟨i - 2, by omega⟩
  have hle := skipBlanks_sizeLeft h
  rw [List.drop_drop] at hle
  rw [sizeLeft_pair heq]
  exact hle

theorem quotPrintDecodeLoop_length (us : UInt8) (i : ℕ) (p1 p2 : List UInt8) :
    (quotPrintDecodeLoop us i p1 p2).written.length ≤ p2.length + sizeLeft i p1 := by
  fun_induction quotPrintDecodeLoop us i p1 p2 with
  | case1 | case2 | case3 | case5 | case8 => exact Nat.le_add_right _ _
  | case4 i p1 p2 hend heq hend' hNbl hdigit hdigit' ih =>
    rw [not_or] at hdigit'
    obtain ⟨k, rfl⟩ : ∃ k, i = k + 3 := ⟨i - 3, by omega⟩
    have hchar : (p1.drop 2).headD 0 ≠ 0 ∧ (p1.drop 2).headD 0 ≠ 61 := by
      rw [headD_drop]
      exact ne_of_hexvalTbl (by omega)
    have hpair : sizeLeft (k + 3) p1 = sizeLeft (k + 1) (p1.drop 2) := sizeLeft_pair heq
    have hsingle : sizeLeft (k + 1) (p1.drop 2) = sizeLeft k (p1.drop 3) + 1 := by
      rw [sizeLeft_single hchar.1 hchar.2, List.drop_drop]
    rw [List.length_append, List.length_singleton] at ih
    simp only [Nat.add_sub_cancel] at ih ⊢
    omega
  | case6 i p1 p2 hend heq hend' hNbl hdigit hbreak i' p1' hskip hcrlf ih =>
    -- the line feed behind the carriage return counts one and is passed
    have hleft := softBreak_sizeLeft heq hskip
    obtain ⟨-, hi', hlf⟩ := hcrlf
    obtain ⟨k, rfl⟩ : ∃ k, i' = k + 2 := ⟨i' - 2, by omega⟩
    rw [← headD_drop] at hlf
    have hsingle : sizeLeft (k + 1) (p1'.drop 1) = sizeLeft k (p1'.drop 2) + 1 := by
      rw [sizeLeft_single (by rw [hlf]; decide) (by rw [hlf]; decide), List.drop_drop]
    have hk : k + 2 - 1 = k + 1 := rfl
    rw [hk] at hleft
    simp only [Nat.add_sub_cancel] at ih ⊢
    omega
  | case7 i p1 p2 hend heq hend' hNbl hdigit hbreak i' p1' hskip hcrlf ih =>
    have hleft := softBreak_sizeLeft heq hskip
    omega
  | case9 i p1 p2 hend heq ih =>
    rw [not_or] at hend
    obtain ⟨k, rfl⟩ : ∃ k, i = k + 1 := ⟨i - 1, by omega⟩
    have hsingle := sizeLeft_single (i := k) hend.2 heq
    rw [List.length_append, List.length_singleton] at ih
    simp only [Nat.add_sub_cancel] at ih ⊢
    omega

/-- The size of the buffer is the length without two bytes for each `=` that the first loop
meets, and the second loop writes no more bytes, whatever the string is. -/
theorem quotPrintBufSize_ge (str : List UInt8) (replaceUsByWs : UInt8)
    (hlen : str.length < 2 ^ 64) :
    quotPrintBufSize str + 2 * sizePairs (quotPrintCount str) str = str.length ∧
      (quotPrintDecodeLoop replaceUsByWs (quotPrintCount str) str []).written.length ≤
        quotPrintBufSize str := by
  have hcount : quotPrintCount str ≤ str.length := Nat.mod_le _ _
  have hpairs := sizePairs_le (quotPrintCount str) str
  have hsize : quotPrintBufSize str = str.length - 2 * sizePairs (quotPrintCount str) str :=
    quotPrintSizeLoop_eq hcount hlen
  have hwritten : (quotPrintDecodeLoop replaceUsByWs (quotPrintCount str) str []).written.length ≤
      0 + sizeLeft (quotPrintCount str) str := quotPrintDecodeLoop_length _ _ _ _
  unfold sizeLeft at hwritten
  constructor <;> omega

/-- A digit that is missing at the end of the string. -/
theorem quotPrintBufSize_ge_truncated :
    quotPrintBufSize [97, 61, 52] + 2 * sizePairs (quotPrintCount [97, 61, 52]) [97, 61, 52] = 3 ∧
      (quotPrintDecodeLoop 0 (quotPrintCount [97, 61, 52]) [97, 61, 52] []).written.length ≤
        quotPrintBufSize [97, 61, 52] :=
  quotPrintBufSize_ge [97, 61, 52] 0 (by decide)

end PhpRuntime.Text

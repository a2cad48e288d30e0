import Mathlib.Data.List.TakeWhile
import PhpRuntime.Lib.Positional
import PhpRuntime.Text.CInt

/-!
# Numbers in other bases

Reading a numeral in a base from 2 to 36 as a `long`, or as a `double` when it is too large for
one, and writing the numeral of a `long`.
-/

set_option autoImplicit false

namespace PhpRuntime.Text

open PhpRuntime.Lib

/-- The value of a `long` expression. -/
def longValue (x : ℤ) : Except Undefined ℤ :=
  if -LONG_MAX - 1 ≤ x ∧ x ≤ LONG_MAX then .ok x else .error .overflow

theorem longValue_eq {x : ℤ} (hlow : 0 ≤ x) (hhigh : x ≤ LONG_MAX) : longValue x = .ok x := by
  rw [longValue, if_pos]
  exact ⟨by rw [LONG_MAX]; omega, hhigh⟩

/-- The operations on `double` values. -/
structure DoubleOps (δ : Type) where
  ofLong : ℤ → δ
  add : δ → δ → δ
  mul : δ → δ → δ

/-- The values that are converted. -/
inductive Number (δ : Type) where
  | long (n : ℤ)
  | double (d : δ)
  | string (bytes : List UInt8)

variable {δ : Type}

/-! ## Reading -/

def digitOf (c : UInt8) : Option ℕ :=
  let c := c.toNat
  if 48 ≤ c ∧ c ≤ 57 then some (c - 48)
  else if 65 ≤ c ∧ c ≤ 90 then some (c - 55)
  else if 97 ≤ c ∧ c ≤ 122 then some (c - 87)
  else none

/-- `num`, `fnum` and `mode`, which is whether the number is a `double` by now. -/
structure Conversion (δ : Type) where
  num : ℤ
  fnum : δ
  float : Bool

/-- A turn of the loop of `_php_math_basetozval`. -/
def basetozvalStep (d : DoubleOps δ) (base : ℤ) (st : Conversion δ) (byte : UInt8) :
    Except Undefined (Conversion δ) :=
  let cutoff := Int.tdiv LONG_MAX base
  let cutlim := Int.tmod LONG_MAX base
  match digitOf byte with
  | none => .ok st
  | some c =>
    if base ≤ c then .ok st
    else if st.float then
      .ok { st with fnum := d.add (d.mul st.fnum (d.ofLong base)) (d.ofLong c) }
    else if st.num < cutoff ∨ st.num = cutoff ∧ c ≤ cutlim then do
      let product ← longValue (st.num * base)
      let num ← longValue (product + c)
      .ok { st with num := num }
    else
      .ok { st with
        fnum := d.add (d.mul (d.ofLong st.num) (d.ofLong base)) (d.ofLong c)
        float := true }

/-- `_php_math_basetozval`, with `none` for `FAILURE` -/
def basetozval (d : DoubleOps δ) (arg : Number δ) (base : ℤ) :
    Except Undefined (Option (Number δ)) :=
  match arg with
  | .string s =>
    if base < 2 ∨ 36 < base then .ok none
    else do
      let st ← s.foldlM (basetozvalStep d base) ⟨0, d.ofLong 0, false⟩
      .ok (some (if st.float then .double st.fnum else .long st.num))
  | _ => .ok none

/-! ## Writing -/

/-- `digits[n]` -/
def digitChar (n : ℕ) : UInt8 := UInt8.ofNat (if n < 10 then n + 48 else n + 87)

/-- The loop of `_php_math_longtobase`, when there is room for so many digits in `buf`. -/
def longtobaseLoop (base : ℕ) : ℕ → ℕ → List UInt8 → List UInt8
  | 0, _, ptr => ptr
  | room + 1, value, ptr =>
    if value / base = 0 then digitChar (value % base) :: ptr
    else longtobaseLoop base room (value / base) (digitChar (value % base) :: ptr)

/-- `_php_math_longtobase`. There are 64 bytes in `buf` in front of the `NUL`. -/
def longtobase (arg : Number δ) (base : ℤ) : List UInt8 :=
  match arg with
  | .long n =>
    if base < 2 ∨ 36 < base then [] else longtobaseLoop base.toNat 64 (n % 2 ^ 64).toNat []
  | _ => []

/-! ## The value of a numeral -/

/-- The digits of a text in a base. All other bytes are ignored. -/
def validDigits (base : ℕ) (s : List UInt8) : List ℕ :=
  (s.filterMap digitOf).filter fun c => c < base

def denoted (base : ℕ) (s : List UInt8) : ℕ := Positional.value base (validDigits base s)

variable {base : ℕ} {s : List UInt8} {c : UInt8} {d : DoubleOps δ}

theorem value_cons (base : ℕ) (l : List ℕ) (v n : ℕ) :
    (n :: l).foldl (fun v d => v * base + d) v = l.foldl (fun v d => v * base + d) (v * base + n) :=
  rfl

theorem cutoff_iff {n c : ℕ} (hbase : 2 ≤ base) (hc : c < base) :
    ((n : ℤ) < Int.tdiv LONG_MAX base ∨
      (n : ℤ) = Int.tdiv LONG_MAX base ∧ (c : ℤ) ≤ Int.tmod LONG_MAX base) ↔
      ((n * base + c : ℕ) : ℤ) ≤ LONG_MAX := by
  obtain ⟨m, hm⟩ : ∃ m : ℕ, LONG_MAX = m := ⟨9223372036854775807, rfl⟩
  have hdiv : Int.tdiv LONG_MAX base = ((m / base : ℕ) : ℤ) := by rw [hm, tdiv_cast]
  have hmod : Int.tmod LONG_MAX base = ((m % base : ℕ) : ℤ) := by
    rw [hm, Int.tmod_eq_emod_of_nonneg (Int.natCast_nonneg m), Int.natCast_emod]
  rw [hdiv, hmod, hm, Int.ofNat_lt, Int.ofNat_inj, Int.ofNat_le, Int.ofNat_le]
  have hsplit := Nat.div_add_mod m base
  have hlt : m % base < base := Nat.mod_lt _ (by omega)
  generalize m / base = q at hsplit ⊢
  generalize m % base = r at hsplit hlt ⊢
  rw [← hsplit, Nat.mul_comm base q]
  constructor
  · rintro (h | ⟨rfl, h⟩)
    · have hmul : (n + 1) * base ≤ q * base := Nat.mul_le_mul_right base h
      rw [Nat.add_mul, Nat.one_mul] at hmul
      omega
    · omega
  · intro h
    by_contra hno
    rcases Nat.lt_trichotomy n q with hlt' | rfl | hgt
    · exact hno (Or.inl hlt')
    · exact hno (Or.inr ⟨rfl, by omega⟩)
    · have hmul : (q + 1) * base ≤ n * base := Nat.mul_le_mul_right base hgt
      rw [Nat.add_mul, Nat.one_mul] at hmul
      omega

theorem validDigits_cons_none (h : digitOf c = none) :
    validDigits base (c :: s) = validDigits base s := by
  rw [validDigits, List.filterMap_cons_none h, validDigits]

theorem validDigits_cons_some {n : ℕ} (h : digitOf c = some n) :
    validDigits base (c :: s) =
      if n < base then n :: validDigits base s else validDigits base s := by
  rw [validDigits, List.filterMap_cons_some h, List.filter_cons, validDigits]
  simp only [decide_eq_true_eq]

theorem basetozval_float (d : DoubleOps δ) (base : ℤ) (s : List UInt8) (st : Conversion δ)
    (h : st.float = true) :
    ∃ st', s.foldlM (basetozvalStep d base) st = .ok st' ∧ st'.float = true := by
  induction s generalizing st with
  | nil => exact ⟨st, rfl, h⟩
  | cons c s ih =>
    have hstep : ∃ st', basetozvalStep d base st c = .ok st' ∧ st'.float = true := by
      rw [basetozvalStep]
      cases digitOf c with
      | none => exact ⟨st, rfl, h⟩
      | some n =>
        dsimp only
        split_ifs
        · exact ⟨st, rfl, h⟩
        · exact ⟨_, rfl, h⟩
    obtain ⟨st', hok, hfloat⟩ := hstep
    obtain ⟨st'', hok', hfloat'⟩ := ih st' hfloat
    refine ⟨st'', ?_, hfloat'⟩
    rw [List.foldlM_cons, hok]
    exact hok'

/-- **The loop.** A number that fits is read, and one that does not becomes a `double`. -/
theorem basetozval_loop (d : DoubleOps δ) (hbase : 2 ≤ base) (s : List UInt8) (n : ℕ) (f : δ)
    (hn : (n : ℤ) ≤ LONG_MAX) :
    ∃ st, s.foldlM (basetozvalStep d base) ⟨n, f, false⟩ = .ok st ∧
      st.float = decide
        (LONG_MAX < (((validDigits base s).foldl (fun v d => v * base + d) n : ℕ) : ℤ)) ∧
      (st.float = false →
        st.num = (((validDigits base s).foldl (fun v d => v * base + d) n : ℕ) : ℤ)) := by
  induction s generalizing n with
  | nil => exact ⟨_, rfl, (decide_eq_false (not_lt.mpr hn)).symm, fun _ => rfl⟩
  | cons c s ih =>
    rw [List.foldlM_cons, basetozvalStep]
    cases hc : digitOf c with
    | none =>
      rw [validDigits_cons_none hc]
      exact ih n hn
    | some k =>
      rw [validDigits_cons_some hc]
      dsimp only
      by_cases hk : k < base
      · have hk' : ¬ (base : ℤ) ≤ (k : ℤ) := by omega
        rw [if_pos hk, if_neg hk', if_neg Bool.false_ne_true, value_cons]
        have hiff := cutoff_iff (n := n) hbase hk
        by_cases hfit : ((n * base + k : ℕ) : ℤ) ≤ LONG_MAX
        · have hsum : (n : ℤ) * base + k = ((n * base + k : ℕ) : ℤ) := by push_cast; ring
          have hproduct : (n : ℤ) * base ≤ LONG_MAX := by
            have hcast : (n : ℤ) * base = ((n * base : ℕ) : ℤ) := by push_cast; ring
            omega
          have hpos : 0 ≤ (n : ℤ) * base := by positivity
          rw [if_pos (hiff.mpr hfit), longValue_eq hpos hproduct, ok_bind, hsum,
            longValue_eq (Int.natCast_nonneg _) hfit, ok_bind]
          exact ih _ hfit
        · rw [if_neg (mt hiff.mp hfit)]
          obtain ⟨st, hok, hfloat⟩ := basetozval_float d base s
            ⟨n, d.add (d.mul (d.ofLong n) (d.ofLong base)) (d.ofLong k), true⟩ rfl
          refine ⟨st, hok, ?_, fun hno => absurd (hfloat.symm.trans hno) nofun⟩
          have hle : n * base + k ≤
              (validDigits base s).foldl (fun v d => v * base + d) (n * base + k) :=
            Positional.le_foldl (by omega) _ _
          rw [hfloat]
          exact (decide_eq_true (by omega)).symm
      · have hk' : (base : ℤ) ≤ (k : ℤ) := by omega
        rw [if_neg hk, if_pos hk']
        exact ih n hn

theorem digitOf_digitChar : ∀ n < 36, digitOf (digitChar n) = some n := by decide

theorem foldl_longtobaseLoop (hbase : 2 ≤ base) (h36 : base ≤ 36) (room n : ℕ)
    (ptr : List UInt8) (hroom : room ≠ 0) (hn : n < base ^ room) :
    (validDigits base (longtobaseLoop base room n ptr)).foldl (fun v d => v * base + d) 0 =
      (validDigits base ptr).foldl (fun v d => v * base + d) n := by
  induction room generalizing n ptr with
  | zero => exact absurd rfl hroom
  | succ room ih =>
    have hdigit : n % base < base := Nat.mod_lt _ (by omega)
    have hcons : validDigits base (digitChar (n % base) :: ptr) =
        n % base :: validDigits base ptr := by
      rw [validDigits_cons_some (digitOf_digitChar _ (by omega)), if_pos hdigit]
    have hsplit : n / base * base + n % base = n := by
      rw [Nat.mul_comm]
      exact Nat.div_add_mod n base
    rw [longtobaseLoop]
    split_ifs with hq
    · rw [hq, Nat.zero_mul, Nat.zero_add] at hsplit
      rw [hcons, value_cons, Nat.zero_mul, Nat.zero_add, hsplit]
    · have hlt : n / base < base ^ room := by
        rw [pow_succ] at hn
        exact Nat.div_lt_of_lt_mul (by rwa [Nat.mul_comm])
      have hroom' : room ≠ 0 := by
        rintro rfl
        rw [pow_zero] at hlt
        exact hq (Nat.lt_one_iff.mp hlt)
      rw [ih _ _ hroom' hlt, hcons, value_cons, hsplit]

/-- **Base conversion is exact up to the overflow point.** -/
theorem basetozval_exact (d : DoubleOps δ) (hbase : 2 ≤ base) (h36 : base ≤ 36) :
    (∀ s : List UInt8,
      ((denoted base s : ℤ) ≤ LONG_MAX →
        basetozval d (.string s) base = .ok (some (.long (denoted base s)))) ∧
      (LONG_MAX < (denoted base s : ℤ) →
        ∃ f, basetozval d (.string s) base = .ok (some (.double f)))) ∧
    ∀ n : ℤ, 0 ≤ n → n ≤ LONG_MAX →
      basetozval d (.string (longtobase (.long n : Number δ) base)) base =
        .ok (some (.long n)) := by
  have hrange : ¬ ((base : ℤ) < 2 ∨ 36 < (base : ℤ)) := by omega
  have hread (s : List UInt8) : ((denoted base s : ℤ) ≤ LONG_MAX →
        basetozval d (.string s) base = .ok (some (.long (denoted base s)))) ∧
      (LONG_MAX < (denoted base s : ℤ) →
        ∃ f, basetozval d (.string s) base = .ok (some (.double f))) := by
    obtain ⟨st, hok, hfloat, hnum⟩ := basetozval_loop d hbase s 0 (d.ofLong 0)
      (by rw [LONG_MAX]; omega)
    have hvalue : (validDigits base s).foldl (fun v d => v * base + d) 0 = denoted base s := rfl
    rw [hvalue] at hfloat hnum
    have hrun : basetozval d (.string s) base =
        .ok (some (if st.float then .double st.fnum else .long st.num)) := by
      rw [basetozval, if_neg hrange]
      exact congrArg (· >>= _) hok
    constructor
    · intro hfit
      have hno : st.float = false := hfloat.trans (decide_eq_false (not_lt.mpr hfit))
      rw [hrun, hno, if_neg Bool.false_ne_true, hnum hno]
    · intro hbig
      have hyes : st.float = true := hfloat.trans (decide_eq_true hbig)
      rw [hrun, hyes, if_pos rfl]
      exact ⟨_, rfl⟩
  refine ⟨hread, fun n hlow hhigh => ?_⟩
  obtain ⟨k, rfl⟩ := Int.eq_ofNat_of_zero_le hlow
  have hk : k < 2 ^ 63 := by
    rw [LONG_MAX] at hhigh
    omega
  have hmod : ((k : ℤ) % 2 ^ 64).toNat = k := by omega
  have hpow : k < base ^ 64 := by
    have hle : 2 ^ 64 ≤ base ^ 64 := Nat.pow_le_pow_left hbase 64
    omega
  have htext : longtobase (.long k : Number δ) base = longtobaseLoop base 64 k [] := by
    rw [longtobase, if_neg hrange, hmod, Int.toNat_natCast]
  have hdenoted : denoted base (longtobase (.long k : Number δ) base) = k := by
    rw [htext]
    exact foldl_longtobaseLoop hbase h36 64 k [] (by omega) hpow
  have hlong := (hread (longtobase (.long k : Number δ) base)).1
  rw [hdenoted] at hlong
  exact hlong hhigh

/-- Arithmetic of integers in the place of the one of `double` values. -/
def intOps : DoubleOps ℤ := ⟨id, (· + ·), (· * ·)⟩

theorem basetozval_exact_hex :
    (∀ s : List UInt8,
      ((denoted 16 s : ℤ) ≤ LONG_MAX →
        basetozval intOps (.string s) (16 : ℕ) = .ok (some (.long (denoted 16 s)))) ∧
      (LONG_MAX < (denoted 16 s : ℤ) →
        ∃ f, basetozval intOps (.string s) (16 : ℕ) = .ok (some (.double f)))) ∧
    ∀ n : ℤ, 0 ≤ n → n ≤ LONG_MAX →
      basetozval intOps (.string (longtobase (.long n : Number ℤ) (16 : ℕ))) (16 : ℕ) =
        .ok (some (.long n)) :=
  basetozval_exact intOps (by decide) (by decide)

end PhpRuntime.Text

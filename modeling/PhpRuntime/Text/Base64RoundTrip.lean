import PhpRuntime.Text.Base64

/-!
# The base64 round trip

The encoder writes the standard text, and the decoder reads what a reader of standard texts reads,
also when there are other bytes in between.
-/

set_option autoImplicit false

namespace PhpRuntime.Text

open PhpRuntime.Lib (ok_bind)
open PhpRuntime.Lib.Base64

/-! ## Encoding -/

theorem and_0x03 (n : ℕ) : n &&& 0x03 = n % 4 := Nat.and_two_pow_sub_one_eq_mod n 2

theorem and_0x0f (n : ℕ) : n &&& 0x0f = n % 16 := Nat.and_two_pow_sub_one_eq_mod n 4

theorem and_0x3f (n : ℕ) : n &&& 0x3f = n % 64 := Nat.and_two_pow_sub_one_eq_mod n 6

alias base64EncodeBytes_cons := base64EncodeBytes.eq_1

theorem base64EncodeBytes_three (a b c : UInt8) (x : List UInt8) :
    base64EncodeBytes (a :: b :: c :: x) = group [a, b, c] ++ base64EncodeBytes x := by
  have ha := a.toNat_lt
  have hb := b.toNat_lt
  have hc := c.toNat_lt
  rw [base64EncodeBytes_cons, group]
  simp only [and_0x03, and_0x0f, and_0x3f, Nat.shiftRight_eq_div_pow,
    Nat.shiftLeft_eq, Nat.reducePow]
  rw [base64Char_eq _ (by omega), base64Char_eq _ (by omega), base64Char_eq _ (by omega),
    base64Char_eq _ (by omega)]
  rfl

theorem base64EncodeBytes_two (a b : UInt8) : base64EncodeBytes [a, b] = group [a, b] := by
  have ha := a.toNat_lt
  have hb := b.toNat_lt
  rw [base64EncodeBytes, group]
  simp only [and_0x03, and_0x0f, Nat.shiftRight_eq_div_pow, Nat.shiftLeft_eq,
    Nat.reducePow]
  rw [base64Char_eq _ (by omega), base64Char_eq _ (by omega), base64Char_eq _ (by omega)]

theorem base64EncodeBytes_one (a : UInt8) : base64EncodeBytes [a] = group [a] := by
  have ha := a.toNat_lt
  rw [base64EncodeBytes, group]
  simp only [and_0x03, Nat.shiftRight_eq_div_pow, Nat.shiftLeft_eq, Nat.reducePow]
  rw [base64Char_eq _ (by omega), base64Char_eq _ (by omega)]

/-- **The encoder writes the standard text.** -/
theorem base64EncodeBytes_eq (x : List UInt8) : base64EncodeBytes x = text none 0 x := by
  change _ = breakLines none 0 0 (groups x)
  induction x using groups.induct with
  | case1 a b c x ih =>
    rw [base64EncodeBytes_three, groups, breakLines, ih]
  | case2 a b => rw [base64EncodeBytes_two, groups, breakLines, breakLines, List.append_nil]
  | case3 a => rw [base64EncodeBytes_one, groups, breakLines, breakLines, List.append_nil]
  | case4 => rfl

theorem length_base64EncodeBytes (x : List UInt8) :
    (base64EncodeBytes x).length = 4 * ((x.length + 2) / 3) := by
  induction x using groups.induct with
  | case1 a b c x ih =>
    rw [base64EncodeBytes_three, List.length_append, ih]
    change 4 + _ = 4 * ((x.length + 3 + 2) / 3)
    omega
  | case2 a b => simp [base64EncodeBytes_two, group]
  | case3 a => simp [base64EncodeBytes_one, group]
  | case4 => rfl

theorem mem_group (x : List UInt8) : ∀ c ∈ group x, c = pad ∨ sextet c ≠ none := by
  have hsymbol {n : ℕ} (hn : n < 64) : symbol n = pad ∨ sextet (symbol n) ≠ none := by
    rw [sextet_symbol n hn]
    exact Or.inr nofun
  have hpad : True ∨ sextet pad ≠ none := Or.inl trivial
  unfold group
  split
  · rename_i a
    have ha := a.toNat_lt
    simp only [List.forall_mem_cons]
    exact ⟨hsymbol (by omega), hsymbol (by omega), hpad, hpad, nofun⟩
  · rename_i a b
    have ha := a.toNat_lt
    have hb := b.toNat_lt
    simp only [List.forall_mem_cons]
    exact ⟨hsymbol (by omega), hsymbol (by omega), hsymbol (by omega), hpad, nofun⟩
  · rename_i a b c
    have ha := a.toNat_lt
    have hb := b.toNat_lt
    have hc := c.toNat_lt
    simp only [List.forall_mem_cons]
    exact ⟨hsymbol (by omega), hsymbol (by omega), hsymbol (by omega), hsymbol (by omega), nofun⟩
  · exact nofun

theorem mem_base64EncodeBytes (x : List UInt8) :
    ∀ c ∈ base64EncodeBytes x, c = pad ∨ sextet c ≠ none := by
  induction x using groups.induct with
  | case1 a b c x ih =>
    intro c' hc'
    rw [base64EncodeBytes_three] at hc'
    exact (List.mem_append.mp hc').elim (mem_group _ c') (ih c')
  | case2 a b =>
    rw [base64EncodeBytes_two]
    exact mem_group _
  | case3 a =>
    rw [base64EncodeBytes_one]
    exact mem_group _
  | case4 => exact fun c hc => absurd hc List.not_mem_nil

/-! ## Decoding -/

variable {strict : Bool} {c : UInt8} {t y : List UInt8} {d : Decoding} {n v : ℕ}

/-- `n` bits with the value `v` are left over from before. -/
structure LeftOver (d : Decoding) (n v : ℕ) : Prop where
  bits : (d.i % 4 = 0 ∧ n = 0) ∨ (d.i % 4 = 1 ∧ n = 6) ∨ (d.i % 4 = 2 ∧ n = 4) ∨
    (d.i % 4 = 3 ∧ n = 2)
  value : v < 2 ^ n
  cell : n ≠ 0 → d.cell = v * 2 ^ (8 - n)

theorem LeftOver.put (h : LeftOver d n v) {m : ℕ} (hm : m < 64) :
    if n < 2 then (d.put m).result = d.result ∧ LeftOver (d.put m) (n + 6) (v * 64 + m)
    else (d.put m).result = d.result ++ [UInt8.ofNat ((v * 64 + m) / 2 ^ (n - 2))] ∧
      LeftOver (d.put m) (n - 2) ((v * 64 + m) % 2 ^ (n - 2)) := by
  obtain ⟨hbits, hv, hcell⟩ := h
  rcases hbits with ⟨hi, rfl⟩ | ⟨hi, rfl⟩ | ⟨hi, rfl⟩ | ⟨hi, rfl⟩
  · rw [if_pos (by decide), Decoding.put, hi]
    refine ⟨rfl, ⟨Or.inr (Or.inl ⟨?_, rfl⟩), ?_, fun _ => ?_⟩⟩
    · change (d.i + 1) % 4 = 1
      omega
    · rw [pow_zero] at hv
      omega
    · change (m <<< 2) % 256 = (v * 64 + m) * 2 ^ (8 - (0 + 6))
      rw [pow_zero] at hv
      rw [Nat.shiftLeft_eq]
      omega
  · have hd : d.cell = v * 4 := hcell (by decide)
    have hor := or_eq_add (a := v) (b := m / 16) (k := 2) (by omega)
    rw [if_neg (by decide), Decoding.put, hi]
    refine ⟨?_, ⟨Or.inr (Or.inr (Or.inl ⟨?_, rfl⟩)), ?_, fun _ => ?_⟩⟩
    · change d.result ++ [UInt8.ofNat (d.cell ||| m >>> 4)] = _
      rw [hd, Nat.shiftRight_eq_div_pow]
      rw [show v * 4 ||| m / 2 ^ 4 = v * 2 ^ 2 + m / 16 from hor]
      congr 3
      omega
    · change (d.i + 1) % 4 = 2
      omega
    · exact Nat.mod_lt _ (by decide)
    · change ((m &&& 0x0f) <<< 4) % 256 = (v * 64 + m) % 2 ^ (6 - 2) * 2 ^ (8 - (6 - 2))
      rw [and_0x0f, Nat.shiftLeft_eq]
      omega
  · have hd : d.cell = v * 16 := hcell (by decide)
    have hor := or_eq_add (a := v) (b := m / 4) (k := 4) (by omega)
    rw [if_neg (by decide), Decoding.put, hi]
    refine ⟨?_, ⟨Or.inr (Or.inr (Or.inr ⟨?_, rfl⟩)), ?_, fun _ => ?_⟩⟩
    · change d.result ++ [UInt8.ofNat (d.cell ||| m >>> 2)] = _
      rw [hd, Nat.shiftRight_eq_div_pow]
      rw [show v * 16 ||| m / 2 ^ 2 = v * 2 ^ 4 + m / 4 from hor]
      congr 3
      omega
    · change (d.i + 1) % 4 = 3
      omega
    · exact Nat.mod_lt _ (by decide)
    · change ((m &&& 0x03) <<< 6) % 256 = (v * 64 + m) % 2 ^ (4 - 2) * 2 ^ (8 - (4 - 2))
      rw [and_0x03, Nat.shiftLeft_eq]
      omega
  · have hd : d.cell = v * 64 := hcell (by decide)
    have hor := or_eq_add (a := v) (b := m) (k := 6) hm
    rw [if_neg (by decide), Decoding.put, hi]
    refine ⟨?_, ⟨Or.inl ⟨?_, rfl⟩, ?_, fun hno => absurd rfl hno⟩⟩
    · change d.result ++ [UInt8.ofNat (d.cell ||| m)] = _
      rw [hd, show v * 64 ||| m = v * 2 ^ 6 + m from hor]
      congr 3
      omega
    · change (d.i + 1) % 4 = 0
      omega
    · exact Nat.mod_lt _ (by decide)

theorem loop_behind (ht : ∀ c ∈ t, sextet c = none ∧ c ≠ 0 ∧ (strict = true → c = pad))
    (hi : d.i % 4 ≠ 1) :
    (base64DecodeLoop strict t t.length d).map (fun r => r.2.result) = some d.result := by
  induction t with
  | nil => rw [loop_nil]; rfl
  | cons c t ih =>
    obtain ⟨hc, h0, hs⟩ := ht c List.mem_cons_self
    have ih' := ih fun c' hc' => ht c' (List.mem_cons_of_mem _ hc')
    have hlen : (0 : ℤ) < ((c :: t).length : ℤ) := by
      rw [List.length_cons]
      omega
    have hrest : ((c :: t).length : ℤ) - 1 = t.length := by
      rw [List.length_cons]
      omega
    by_cases hp : c = pad
    · subst hp
      rw [loop_pad hlen, hrest, ih']
      cases strict with
      | false => exact Or.inr ⟨hi, Or.inl rfl⟩
      | true =>
        cases t with
        | nil => exact Or.inr ⟨hi, Or.inr rfl⟩
        | cons c' t =>
          exact Or.inl ((ht c' (List.mem_cons_of_mem _ List.mem_cons_self)).2.2 rfl)
    · have hfalse : strict = false := by
        cases strict with
        | false => rfl
        | true => exact absurd (hs rfl) hp
      rw [loop_skip hc h0 hp (Or.inl hfalse) hlen, hrest, ih']

/-- **The decoder reads what a reader of standard texts reads.** The strict one does so when there
are symbols and padding characters only. -/
theorem loop_read (h : LeftOver d n v) (hread : Lib.Base64.read n v t = some y)
    (ht : ∀ c ∈ t, c ≠ 0 ∧ (strict = true → c = pad ∨ sextet c ≠ none)) :
    (base64DecodeLoop strict t t.length d).map (fun r => r.2.result) = some (d.result ++ y) := by
  induction t generalizing n v d y with
  | nil =>
    rw [loop_nil]
    rw [Lib.Base64.read] at hread
    split_ifs at hread
    rw [← Option.some.inj hread, List.append_nil]
    rfl
  | cons c t ih =>
    obtain ⟨h0, hs⟩ := ht c List.mem_cons_self
    have ht' : ∀ c ∈ t, c ≠ 0 ∧ (strict = true → c = pad ∨ sextet c ≠ none) := fun c' hc' =>
      ht c' (List.mem_cons_of_mem _ hc')
    have hlen : (0 : ℤ) < ((c :: t).length : ℤ) := by
      rw [List.length_cons]
      omega
    have hrest : ((c :: t).length : ℤ) - 1 = t.length := by
      rw [List.length_cons]
      omega
    cases hc : sextet c with
    | some m =>
      have hput := h.put (sextet_lt hc)
      rw [loop_sextet hc hlen, hrest]
      simp only [Lib.Base64.read, hc] at hread
      by_cases hn : n < 2
      · rw [if_pos hn] at hput hread
        rw [ih hput.2 hread ht', hput.1]
      · rw [if_neg hn] at hput hread
        obtain ⟨y', hy', rfl⟩ := Option.map_eq_some_iff.mp hread
        rw [ih hput.2 hy' ht', hput.1, List.append_assoc, List.singleton_append]
    | none =>
      by_cases hp : c = pad
      · subst hp
        rw [read_pad] at hread
        split_ifs at hread with hrule
        obtain ⟨hn, hall⟩ := hrule
        have hi : d.i % 4 ≠ 1 := by
          have hbits := h.bits
          omega
        rw [← Option.some.inj hread, List.append_nil]
        refine loop_behind (fun c' hc' => ?_) hi
        rcases List.mem_cons.mp hc' with rfl | hin
        · exact ⟨sextet_pad, pad_ne_zero, fun _ => rfl⟩
        · have hnone := List.all_eq_true.mp hall c' hin
          rw [Option.isNone_iff_eq_none] at hnone
          exact ⟨hnone, (ht' c' hin).1, fun hstrict =>
            ((ht' c' hin).2 hstrict).resolve_right fun hno => hno hnone⟩
      · rw [read_of_skipped ⟨hc, hp⟩] at hread
        have hfalse : strict = false := by
          cases strict with
          | false => rfl
          | true => exact absurd hc ((hs rfl).resolve_left hp)
        rw [loop_skip hc h0 hp (Or.inl hfalse) hlen, hrest]
        exact ih h hread ht'

/-! ## The round trip -/

theorem read_filter (n v : ℕ) (t : List UInt8) :
    Lib.Base64.read n v (t.filter fun c => sextet c ≠ none ∨ c = pad ∨ c = 0) =
      Lib.Base64.read n v t := by
  induction t generalizing n v with
  | nil => rfl
  | cons c t ih =>
    cases hc : sextet c with
    | some m =>
      rw [List.filter_cons_of_pos (by simp [hc])]
      simp only [Lib.Base64.read, hc]
      simp only [ih]
    | none =>
      by_cases hp : c = pad
      · subst hp
        rw [List.filter_cons_of_pos (by simp), read_pad, read_pad, List.all_filter]
        have hkept : (fun a => !decide (sextet a ≠ none ∨ a = pad ∨ a = 0) ||
            (sextet a).isNone) = fun a => (sextet a).isNone := by
          funext a
          cases sextet a with
          | none => simp
          | some m => simp
        rw [hkept]
      · by_cases h0 : c = 0
        · rw [List.filter_cons_of_pos (by simp [h0]), read_of_skipped ⟨hc, hp⟩,
            read_of_skipped ⟨hc, hp⟩]
          exact ih n v
        · rw [List.filter_cons_of_neg (by simp [hc, hp, h0]), read_of_skipped ⟨hc, hp⟩]
          exact ih n v

/-- A text between whose bytes there may be other ones. -/
def Inserted (text t : List UInt8) : Prop :=
  (t.filter fun c => sextet c ≠ none ∨ c = pad ∨ c = 0) = text

/-- What is decoded is what was encoded. -/
structure RoundTrip (x : List UInt8) : Prop where
  exact : ∃ text n, base64Encode x = .ok (text, n) ∧
    ∀ strict, base64DecodeEx text n strict = .ok (some x)
  inserted : ∀ text n, base64Encode x = .ok (text, n) → ∀ t, (t.length : ℤ) ≤ INT_MAX →
    Inserted text t → base64DecodeEx t t.length false = .ok (some x)

theorem leftOver_start : LeftOver ⟨[], 0, 0⟩ 0 0 :=
  ⟨Or.inl ⟨rfl, rfl⟩, Nat.one_pos, fun h => absurd rfl h⟩

theorem sextet_zero_or {c : UInt8} (h : c = pad ∨ sextet c ≠ none) : c ≠ 0 := by
  rintro rfl
  exact h.elim (fun hp => pad_ne_zero hp.symm) fun hs => hs sextet_zero

theorem read_encoded (x : List UInt8) :
    Lib.Base64.read 0 0 (base64EncodeBytes x) = some x := by
  rw [base64EncodeBytes_eq]
  exact read_text 0 0 x nofun

theorem base64DecodeEx_of_read {x : List UInt8} (hread : Lib.Base64.read 0 0 t = some x)
    (ht : ∀ c ∈ t, c ≠ 0 ∧ (strict = true → c = pad ∨ sextet c ≠ none)) :
    base64DecodeEx t t.length strict = .ok (some x) := by
  rw [base64DecodeEx_eq, loop_read leftOver_start hread ht, List.nil_append]

theorem roundTrip_of_le {x : List UInt8} (h : ((4 * ((x.length + 2) / 3) : ℕ) : ℤ) ≤ INT_MAX) :
    RoundTrip x := by
  have hlen := length_base64EncodeBytes x
  have hencode : base64Encode x =
      .ok (base64EncodeBytes x, ((base64EncodeBytes x).length : ℤ)) := by
    rw [base64Encode, intValue_eq (by omega) (by rw [INT_MAX] at h ⊢; omega), ok_bind,
      toInt_eq (Int.natCast_nonneg _) (by rw [hlen]; exact h)]
  refine ⟨⟨_, _, hencode, fun strict => ?_⟩, fun text n hx t _ ht => ?_⟩
  · exact base64DecodeEx_of_read (read_encoded x) fun c hc =>
      ⟨sextet_zero_or (mem_base64EncodeBytes x c hc), fun _ => mem_base64EncodeBytes x c hc⟩
  · rw [hencode, Except.ok.injEq, Prod.mk.injEq] at hx
    obtain ⟨rfl, -⟩ := hx
    have hread := read_filter 0 0 t
    rw [show _ = base64EncodeBytes x from ht, read_encoded] at hread
    refine base64DecodeEx_of_read hread.symm fun c hc => ⟨?_, fun hno => by cases hno⟩
    rintro rfl
    have hin : (0 : UInt8) ∈ base64EncodeBytes x := by
      rw [← ht]
      exact List.mem_filter.mpr ⟨hc, by decide⟩
    exact sextet_zero_or (mem_base64EncodeBytes x 0 hin) rfl

theorem not_roundTrip_of_lt {x : List UInt8} (hx : (x.length : ℤ) ≤ INT_MAX)
    (h : INT_MAX < ((4 * ((x.length + 2) / 3) : ℕ) : ℤ)) : ¬ RoundTrip x := by
  rintro ⟨⟨text, n, hencode, hdecode⟩, -⟩
  rw [base64Encode] at hencode
  by_cases hsum : (x.length : ℤ) + 2 ≤ INT_MAX
  · rw [intValue_eq (by omega) hsum, ok_bind, Except.ok.injEq, Prod.mk.injEq] at hencode
    have hneg : n < 0 := by
      rw [← hencode.2, length_base64EncodeBytes, toInt]
      rw [INT_MAX] at h hx
      rw [Int.bmod_def]
      omega
    have hstrict := hdecode true
    rw [base64DecodeEx, if_pos hneg] at hstrict
    cases hstrict
  · rw [intValue_error (Int.not_le.mp hsum)] at hencode
    cases hencode

/-- **The round trip**, for every string of which the encoded text has a length that is an
`int`. -/
theorem base64_roundTrip_iff (x : List UInt8) (hx : (x.length : ℤ) ≤ INT_MAX) :
    RoundTrip x ↔ ((4 * ((x.length + 2) / 3) : ℕ) : ℤ) ≤ INT_MAX := by
  refine ⟨fun h => ?_, roundTrip_of_le⟩
  by_contra hno
  exact not_roundTrip_of_lt hx (Int.not_le.mp hno) h

theorem base64_roundTrip_iff_word :
    RoundTrip [80, 72, 80, 33] ↔ ((4 * (([80, 72, 80, 33].length + 2) / 3) : ℕ) : ℤ) ≤ INT_MAX :=
  base64_roundTrip_iff [80, 72, 80, 33] (by decide)

/-- A string of `INT_MAX` bytes. -/
theorem not_base64_roundTrip :
    ¬ ∀ x : List UInt8, (x.length : ℤ) ≤ INT_MAX → RoundTrip x := by
  intro h
  have hlen : ((List.replicate 2147483647 (0 : UInt8)).length : ℤ) = INT_MAX := by
    rw [List.length_replicate]
    rfl
  refine not_roundTrip_of_lt (Int.le_of_eq hlen) ?_ (h (List.replicate 2147483647 0) (Int.le_of_eq hlen))
  rw [List.length_replicate, INT_MAX]
  omega

end PhpRuntime.Text

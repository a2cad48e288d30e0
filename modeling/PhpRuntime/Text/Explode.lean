import PhpRuntime.Lib.Splitting
import PhpRuntime.Text.StrReplaceRuns

/-!
# `explode`

A positive limit is counted down, and the last piece is what is left. For a negative limit the
places of all pieces are put in a table that grows by 64 entries, and the lengths of the pieces are
differences of these places.
-/

set_option autoImplicit false

namespace PhpRuntime.Text

open PhpRuntime.Lib (ok_bind)
open Lib.Splitting

/-! ## The functions -/

/-- The `do` loop of `php_explode`: `p1` and `return_value`. The turns are counted from above. -/
def explodeLoop (str delim : List UInt8) :
    ℕ → ℕ → ℕ → ℤ → List (List UInt8) → Except Undefined (ℕ × List (List UInt8))
  | 0, _, _, _, _ => .error .endless
  | turns + 1, p1, p2, limit, value =>
    let value := value ++ [(str.drop p1).take (p2 - p1)]
    let p1 := p2 + delim.length
    match memnstr (str.drop p1) delim with
    | none => .ok (p1, value)
    | some i =>
      if 1 < limit - 1 then explodeLoop str delim turns p1 (p1 + i) (limit - 1) value
      else .ok (p1, value)

/-- `php_explode` -/
def explode (delim str : List UInt8) (limit : ℤ) : Except Undefined (List (List UInt8)) :=
  match memnstr str delim with
  | none => .ok [str]
  | some p2 => do
    let (p1, value) ← explodeLoop str delim (str.length + 1) 0 p2 limit []
    .ok (if p1 ≤ str.length then value ++ [str.drop p1] else value)

/-- `EXPLODE_ALLOC_STEP` -/
def EXPLODE_ALLOC_STEP : ℤ := 64

/-- The table `positions`, of which `found` entries are used. -/
structure Positions where
  allocated : ℤ
  found : ℤ
  entries : List ℕ

/-- `positions[found++] = p` -/
def Positions.push (t : Positions) (p : ℕ) : Except Undefined Positions :=
  if t.allocated ≤ t.found then .error .outsideBuffer
  else do
    let found ← intValue (t.found + 1)
    .ok { t with found := found, entries := t.entries ++ [p] }

/-- `if (found >= allocated)` there are more entries. -/
def Positions.grow (t : Positions) : Except Undefined Positions :=
  if t.allocated ≤ t.found then do
    let allocated ← intValue (t.found + EXPLODE_ALLOC_STEP)
    .ok { t with allocated := allocated }
  else .ok t

/-- The `do` loop of `php_explode_negative_limit`. -/
def positionsLoop (str delim : List UInt8) : ℕ → ℕ → Positions → Except Undefined Positions
  | 0, _, _ => .error .endless
  | turns + 1, p2, t => do
    let t ← t.grow
    let p1 := p2 + delim.length
    let t ← t.push p1
    match memnstr (str.drop p1) delim with
    | none => .ok t
    | some i => positionsLoop str delim turns (p1 + i) t

/-- `for (i = 0; i < to_return; i++)`, which reads `positions[i]` and `positions[i+1]`. -/
def copyPieces (str delim : List UInt8) : ℕ → List ℕ → Except Undefined (List (List UInt8))
  | 0, _ => .ok []
  | n + 1, a :: b :: rest => do
    let value ← copyPieces str delim n (b :: rest)
    .ok ((str.drop a).take (b - delim.length - a) :: value)
  | _ + 1, _ => .error .outsideBuffer

/-- `php_explode_negative_limit` -/
def explodeNegativeLimit (delim str : List UInt8) (limit : ℤ) :
    Except Undefined (List (List UInt8)) :=
  match memnstr str delim with
  | none => .ok []
  | some p2 => do
    let t ← Positions.push ⟨EXPLODE_ALLOC_STEP, 0, []⟩ 0
    let t ← positionsLoop str delim (str.length + 1) p2 t
    copyPieces str delim (limit + t.found).toNat t.entries

variable {str delim : List UInt8} {turns p1 p2 i : ℕ} {limit : ℤ} {value : List (List UInt8)}

/-! ## The search -/

/-- The first occurrence, and what it says about the pieces. -/
structure FirstFound (delim str : List UInt8) (i : ℕ) : Prop where
  inside : i + delim.length ≤ str.length
  found : delim <+: str.drop i
  pieces : pieces delim str = str.take i :: pieces delim (str.drop (i + delim.length))
  free : ¬ delim <:+: str.take i

theorem memnstr_cases (hd : delim ≠ []) (str : List UInt8) :
    (memnstr str delim = none ∧ pieces delim str = [str]) ∨
      ∃ i, memnstr str delim = some i ∧ FirstFound delim str i := by
  have hleft := memnstr_leftmost str hd
  cases hm : memnstr str delim with
  | none =>
    rw [hm] at hleft
    exact .inl ⟨rfl, pieces_of_none fun j => hleft j (Nat.zero_le _)⟩
  | some i =>
    rw [hm] at hleft
    obtain ⟨-, hpre, hbefore⟩ := hleft
    have hno : ∀ j < i, ¬ delim <+: str.drop j := fun j hj => hbefore j (Nat.zero_le _) hj
    have hpos := List.length_pos_iff.mpr hd
    have hle := hpre.length_le
    rw [List.length_drop] at hle
    exact .inr ⟨i, rfl, by omega, hpre, pieces_first hd hpre hno, not_infix_take hd hno⟩

/-! ## A positive limit -/

/-- At most `n` pieces that make up a text, of which the last one may have delimiters. -/
structure Exploded (delim str : List UInt8) (n : ℕ) (value : List (List UInt8)) : Prop where
  length : value.length = min n (pieces delim str).length
  joined : delim.intercalate value = str
  free : ∀ q ∈ value.dropLast, ¬ delim <:+: q

variable {n : ℕ}

theorem Exploded.rest (hn : 0 < n) (h : n = 1 ∨ pieces delim str = [str]) :
    Exploded delim str n [str] := by
  have hpos := List.length_pos_iff.mpr (pieces_ne_nil delim str)
  refine ⟨?_, List.intercalate_singleton, fun q hq => ?_⟩
  · obtain rfl | h := h
    · rw [List.length_singleton]
      omega
    · rw [h, List.length_singleton]
      omega
  · rw [List.dropLast_singleton] at hq
    cases hq

theorem Exploded.cons (h : Exploded delim (str.drop (i + delim.length)) n value) (hn : 0 < n)
    (hfound : FirstFound delim str i) : Exploded delim str (n + 1) (str.take i :: value) := by
  have hpos := List.length_pos_iff.mpr (pieces_ne_nil delim (str.drop (i + delim.length)))
  have hlength := h.length
  have hne : value ≠ [] := List.length_pos_iff.mp (by omega)
  refine ⟨?_, ?_, ?_⟩
  · rw [hfound.pieces, List.length_cons, List.length_cons]
    omega
  · rw [List.intercalate_cons_of_ne_nil hne, h.joined, List.append_assoc]
    obtain ⟨t, ht⟩ := hfound.found
    rw [← List.drop_drop, ← ht, List.drop_left, ht, List.take_append_drop]
  · rw [List.dropLast_cons_of_ne_nil hne]
    intro q hq
    rw [List.mem_cons] at hq
    obtain rfl | hq := hq
    · exact hfound.free
    · exact h.free q hq

theorem explodeLoop_eq (hd : delim ≠ []) (turns p1 i : ℕ) (limit : ℤ) (value : List (List UInt8))
    (hturns : str.length < p1 + turns) (hfound : FirstFound delim (str.drop p1) i)
    (hlimit : 2 ≤ limit) :
    ∃ q rest, explodeLoop str delim turns p1 (p1 + i) limit value = .ok (q, value ++ rest) ∧
      q ≤ str.length ∧ Exploded delim (str.drop p1) limit.toNat (rest ++ [str.drop q]) := by
  have hpos := List.length_pos_iff.mpr hd
  induction turns generalizing p1 i limit value with
  | zero =>
    have hinside := hfound.inside
    rw [List.length_drop] at hinside
    omega
  | succ turns ih =>
    have hinside := hfound.inside
    rw [List.length_drop] at hinside
    have hdrop : (str.drop p1).drop (i + delim.length) = str.drop (p1 + i + delim.length) := by
      rw [List.drop_drop, Nat.add_assoc]
    have hlimit' : limit.toNat = (limit - 1).toNat + 1 := by omega
    have hcons {value : List (List UInt8)}
        (h : Exploded delim (str.drop (p1 + i + delim.length)) (limit - 1).toNat value) :
        Exploded delim (str.drop p1) limit.toNat ((str.drop p1).take i :: value) := by
      rw [hlimit']
      rw [← hdrop] at h
      exact h.cons (by omega) hfound
    rw [explodeLoop, Nat.add_sub_cancel_left]
    obtain ⟨hm, hpieces⟩ | ⟨j, hm, hnext⟩ :=
      memnstr_cases hd (str.drop (p1 + i + delim.length))
    · rw [hm]
      exact ⟨_, _, rfl, by omega, hcons (Exploded.rest (by omega) (.inr hpieces))⟩
    · rw [hm]
      dsimp only
      by_cases hlast : 1 < limit - 1
      · rw [if_pos hlast]
        obtain ⟨q, rest, hloop, hq, hrest⟩ := ih (p1 + i + delim.length) j (limit - 1)
          (value ++ [(str.drop p1).take i]) (by omega) hnext (by omega)
        refine ⟨q, (str.drop p1).take i :: rest, ?_, hq, hcons hrest⟩
        rw [hloop, List.append_assoc, List.singleton_append]
      · rw [if_neg hlast]
        exact ⟨_, _, rfl, by omega, hcons (Exploded.rest (by omega) (.inl (by omega)))⟩

theorem explode_eq (hd : delim ≠ []) (str : List UInt8) (hlimit : 2 ≤ limit) :
    ∃ value, explode delim str limit = .ok value ∧ Exploded delim str limit.toNat value := by
  rw [explode]
  obtain ⟨hm, hpieces⟩ | ⟨i, hm, hfound⟩ := memnstr_cases hd str
  · rw [hm]
    exact ⟨_, rfl, Exploded.rest (by omega) (.inr hpieces)⟩
  · rw [hm]
    obtain ⟨q, rest, hloop, hq, hrest⟩ :=
      explodeLoop_eq hd (str.length + 1) 0 i limit [] (by omega) hfound hlimit
    rw [Nat.zero_add] at hloop
    dsimp only
    rw [hloop, ok_bind]
    dsimp only
    rw [if_pos hq]
    exact ⟨_, rfl, hrest⟩

/-! ## A negative limit -/

def mostPositions : ℤ := 2147483584

/-- The table grows by whole steps. -/
structure Positions.Grown (t : Positions) : Prop where
  step : EXPLODE_ALLOC_STEP ∣ t.allocated
  pos : 0 < t.found
  room : t.found ≤ t.allocated
  most : t.allocated ≤ mostPositions

theorem Positions.grow_push {t : Positions} (h : t.Grown) (hroom : t.found < mostPositions)
    (p : ℕ) : ∃ allocated, (t.grow >>= fun t => t.push p) =
        .ok ⟨allocated, t.found + 1, t.entries ++ [p]⟩ ∧
      Positions.Grown ⟨allocated, t.found + 1, t.entries ++ [p]⟩ := by
  obtain ⟨hstep, hpos, hle, hmost⟩ := h
  rw [EXPLODE_ALLOC_STEP] at hstep
  rw [mostPositions] at hroom hmost
  have hint : intValue (t.found + 1) = .ok (t.found + 1) :=
    intValue_eq (by omega) (by rw [INT_MAX]; omega)
  rw [Positions.grow]
  by_cases hfull : t.allocated ≤ t.found
  · have hmore : intValue (t.found + EXPLODE_ALLOC_STEP) = .ok (t.found + EXPLODE_ALLOC_STEP) :=
      intValue_eq (by rw [EXPLODE_ALLOC_STEP]; omega) (by rw [EXPLODE_ALLOC_STEP, INT_MAX]; omega)
    refine ⟨t.found + EXPLODE_ALLOC_STEP, ?_, ?_⟩
    · rw [if_pos hfull, hmore, ok_bind, ok_bind, Positions.push]
      dsimp only
      rw [if_neg (by rw [EXPLODE_ALLOC_STEP]; omega), hint, ok_bind]
    · refine ⟨?_, ?_, ?_, ?_⟩ <;> dsimp only [EXPLODE_ALLOC_STEP, mostPositions] <;> omega
  · refine ⟨t.allocated, ?_, ?_⟩
    · rw [if_neg hfull, ok_bind, Positions.push, if_neg hfull, hint, ok_bind]
    · refine ⟨?_, ?_, ?_, ?_⟩ <;> dsimp only [EXPLODE_ALLOC_STEP, mostPositions] <;> omega

theorem Positions.grow_error {t : Positions} (h : t.Grown) (hfull : mostPositions ≤ t.found) :
    t.grow = .error .overflow := by
  obtain ⟨-, -, -, hmost⟩ := h
  rw [Positions.grow, if_pos (Int.le_trans hmost hfull), intValue_error]
  · rfl
  · rw [mostPositions] at hfull
    rw [INT_MAX, EXPLODE_ALLOC_STEP]
    omega

theorem bind_bind_of_ok {ε α β γ : Type} {r : Except ε α} {f : α → Except ε β} {b : β}
    (h : (r >>= f) = .ok b) (k : β → Except ε γ) : (r >>= fun a => f a >>= k) = k b := by
  cases r with
  | error e => cases h
  | ok a =>
    rw [ok_bind] at h ⊢
    rw [h, ok_bind]

/-- **The table has the places where the pieces begin**, or gets too large. -/
theorem positionsLoop_eq (hd : delim ≠ []) (turns p1 i : ℕ) (t : Positions)
    (hturns : str.length < p1 + turns) (hfound : FirstFound delim (str.drop p1) i)
    (ht : t.Grown) :
    (t.found + (pieces delim (str.drop p1)).length ≤ mostPositions + 1 →
      ∃ allocated, positionsLoop str delim turns (p1 + i) t =
        .ok ⟨allocated, t.found + (pieces delim (str.drop p1)).length - 1,
          t.entries ++ (starts delim p1 (pieces delim (str.drop p1))).tail⟩) ∧
    (mostPositions + 1 < t.found + (pieces delim (str.drop p1)).length →
      positionsLoop str delim turns (p1 + i) t = .error .overflow) := by
  have hpos := List.length_pos_iff.mpr hd
  induction turns generalizing p1 i t with
  | zero =>
    have hinside := hfound.inside
    rw [List.length_drop] at hinside
    omega
  | succ turns ih =>
    have hinside := hfound.inside
    rw [List.length_drop] at hinside
    have hpieces := hfound.pieces
    rw [List.drop_drop, ← Nat.add_assoc] at hpieces
    have htake : ((str.drop p1).take i).length = i := by
      rw [List.length_take, List.length_drop]
      omega
    have hne := List.length_pos_iff.mpr (pieces_ne_nil delim (str.drop (p1 + i + delim.length)))
    have hstarts : (starts delim p1 (pieces delim (str.drop p1))).tail =
        (p1 + i + delim.length) ::
          (starts delim (p1 + i + delim.length)
            (pieces delim (str.drop (p1 + i + delim.length)))).tail := by
      rw [hpieces, starts, htake, List.tail_cons]
      cases hq : pieces delim (str.drop (p1 + i + delim.length)) with
      | nil => exact absurd hq (pieces_ne_nil _ _)
      | cons q qs => rfl
    have hlength : (pieces delim (str.drop p1)).length =
        (pieces delim (str.drop (p1 + i + delim.length))).length + 1 := by
      rw [hpieces, List.length_cons]
    rw [positionsLoop, hstarts, hlength]
    by_cases hroom : t.found < mostPositions
    · obtain ⟨allocated, hpush, hgrown⟩ := Positions.grow_push ht hroom (p1 + i + delim.length)
      rw [bind_bind_of_ok hpush]
      obtain ⟨hm, hlast⟩ | ⟨j, hm, hnext⟩ :=
        memnstr_cases hd (str.drop (p1 + i + delim.length))
      · rw [hm, hlast]
        dsimp only [List.length_singleton]
        refine ⟨fun _ => ⟨allocated, ?_⟩, fun hlt => ?_⟩
        · congr 2
          omega
        · omega
      · rw [hm]
        dsimp only
        obtain ⟨hok, herror⟩ := ih (p1 + i + delim.length) j _ (by omega) hnext hgrown
        dsimp only at hok herror
        refine ⟨fun hle => ?_, fun hlt => herror (by omega)⟩
        obtain ⟨allocated', hloop⟩ := hok (by omega)
        refine ⟨allocated', ?_⟩
        rw [hloop, List.append_assoc, List.singleton_append]
        congr 2
        omega
    · rw [Positions.grow_error ht (Int.not_lt.mp hroom)]
      refine ⟨fun hle => ?_, fun _ => rfl⟩
      omega

theorem copyPieces_starts (n p : ℕ) (qs : List (List UInt8)) (hn : n < qs.length)
    (hjoined : delim.intercalate qs = str.drop p) :
    copyPieces str delim n (starts delim p qs) = .ok (qs.take n) := by
  induction n generalizing p qs with
  | zero => rw [copyPieces.eq_def, List.take_zero]
  | succ n ih =>
    match qs, hn with
    | q :: q' :: qs, hn =>
      have hne : q' :: qs ≠ [] := List.cons_ne_nil _ _
      obtain ⟨hpiece, hrest⟩ := intercalate_pieces_first hne hjoined
      have hvalue := ih (p + q.length + delim.length) (q' :: qs) (Nat.lt_of_succ_lt_succ hn) hrest
      have hwidth : p + q.length + delim.length - delim.length - p = q.length := by omega
      rw [starts] at hvalue ⊢
      rw [starts, copyPieces, hvalue, ok_bind, hwidth, hpiece, List.take_succ_cons]

theorem positions_init :
    Positions.push ⟨EXPLODE_ALLOC_STEP, 0, []⟩ 0 = .ok ⟨EXPLODE_ALLOC_STEP, 1, [0]⟩ := rfl

theorem grown_init : Positions.Grown ⟨EXPLODE_ALLOC_STEP, 1, [0]⟩ := by
  refine ⟨Int.dvd_refl _, ?_, ?_, ?_⟩ <;> decide

theorem explodeNegativeLimit_eq (hd : delim ≠ []) (str : List UInt8) :
    ((pieces delim str).length ≤ mostPositions → ∀ n : ℕ, 0 < n →
      explodeNegativeLimit delim str (-n) =
        .ok ((pieces delim str).take ((pieces delim str).length - n))) ∧
    (mostPositions < (pieces delim str).length → ∀ n : ℕ, 0 < n →
      explodeNegativeLimit delim str (-n) = .error .overflow) := by
  have hpos := List.length_pos_iff.mpr (pieces_ne_nil delim str)
  obtain ⟨hm, hpieces⟩ | ⟨i, hm, hfound⟩ := memnstr_cases hd str
  · refine ⟨fun _ n hn => ?_, fun hlt => ?_⟩
    · rw [explodeNegativeLimit, hm, hpieces, List.length_singleton, show 1 - n = 0 by omega]
      rfl
    · rw [hpieces, List.length_singleton, mostPositions] at hlt
      omega
  · obtain ⟨hok, herror⟩ := positionsLoop_eq hd (str.length + 1) 0 i _ (by omega) hfound grown_init
    rw [List.drop_zero, Nat.zero_add] at hok herror
    refine ⟨fun hle n hn => ?_, fun hlt n hn => ?_⟩
    · obtain ⟨allocated, hloop⟩ := hok (by dsimp only; omega)
      have hentries : [0] ++ (starts delim 0 (pieces delim str)).tail =
          starts delim 0 (pieces delim str) := by
        rw [hfound.pieces, starts]
        rfl
      have hcount : ((-(n : ℤ)) + ((1 : ℤ) + (pieces delim str).length - 1)).toNat =
          (pieces delim str).length - n := by omega
      rw [explodeNegativeLimit, hm]
      dsimp only
      rw [positions_init, ok_bind, hloop, ok_bind, hentries, hcount]
      refine copyPieces_starts _ _ _ (by omega) ?_
      rw [intercalate_pieces hd, List.drop_zero]
    · rw [explodeNegativeLimit, hm]
      dsimp only
      rw [positions_init, ok_bind, herror (by dsimp only; omega)]
      rfl

/-! ## Both -/

/-- A positive limit gives so many pieces at most, which make up the string, and a negative one
leaves the last pieces out. -/
structure Explodes (delim str : List UInt8) : Prop where
  positive : ∀ limit : ℤ, 2 ≤ limit → limit ≤ LONG_MAX →
    ∃ value, explode delim str limit = .ok value ∧ Exploded delim str limit.toNat value
  negative : ∀ n : ℕ, 0 < n → (n : ℤ) ≤ LONG_MAX + 1 →
    explodeNegativeLimit delim str (-n) =
      .ok ((pieces delim str).take ((pieces delim str).length - n))

/-- **`explode` and joining**, exactly for the strings of which the places of the pieces are in a
table with a size that is an `int`. -/
theorem explodes_iff (hd : delim ≠ []) (str : List UInt8) :
    Explodes delim str ↔ (pieces delim str).length ≤ mostPositions := by
  constructor
  · intro h
    by_contra hno
    have herror := (explodeNegativeLimit_eq hd str).2 (Int.not_le.mp hno) 1 (by omega)
    rw [h.negative 1 (by omega) (by decide)] at herror
    cases herror
  · intro hle
    refine ⟨fun limit hlimit _ => explode_eq hd str hlimit, fun n hn _ => ?_⟩
    exact (explodeNegativeLimit_eq hd str).1 hle n hn

/-- `a,,b` at the comma. -/
theorem explodes_iff_comma :
    Explodes [44] [97, 44, 44, 98] ↔
      (pieces ([44] : List UInt8) [97, 44, 44, 98]).length ≤ mostPositions :=
  explodes_iff (List.cons_ne_nil 44 []) [97, 44, 44, 98]

/-- A string of `INT_MAX` commas. -/
theorem not_explodes :
    ¬ ∀ delim str : List UInt8, delim ≠ [] → str ≠ [] → (delim.length : ℤ) ≤ INT_MAX →
      (str.length : ℤ) ≤ INT_MAX → Explodes delim str := by
  intro h
  have hlen : (List.replicate 2147483647 (44 : UInt8)).length = 2147483647 := List.length_replicate
  have hne : List.replicate 2147483647 (44 : UInt8) ≠ [] :=
    List.length_pos_iff.mp (by rw [hlen]; omega)
  have hstr : ((List.replicate 2147483647 (44 : UInt8)).length : ℤ) ≤ INT_MAX := by
    rw [hlen]
    decide
  have hall := h [44] _ (List.cons_ne_nil _ _) hne (by decide) hstr
  have herror := (explodeNegativeLimit_eq (List.cons_ne_nil _ _)
    (List.replicate 2147483647 (44 : UInt8))).2
    (by rw [length_pieces_replicate, mostPositions]; omega) 1 (by omega)
  rw [hall.negative 1 (by omega) (by decide)] at herror
  cases herror

end PhpRuntime.Text

import Mathlib.Data.BitVec
import PhpRuntime.Filters.Base64Encode
import PhpRuntime.Lib.LowBits

/-!
# The filter `convert.base64-decode`

`php_conv_base64_decode_convert` packs the six bits of each character into bytes. The bits that
do not make a byte yet, or for whose byte there was no room, stay from one call to the next, and
so does the fact that padding was seen.
-/

set_option autoImplicit false

namespace PhpRuntime.Filters

open PhpRuntime.Lib PhpRuntime.Lib.Converter PhpRuntime.Lib.LowBits PhpConvErr

/-- `php_conv_base64_decode` -/
structure PhpConvBase64Decode where
  urem : BitVec 32
  urem_nbits : ℕ
  ustat : BitVec 32
  eos : Bool
  deriving DecidableEq, Repr

/-- `b64_tbl_dec` -/
def b64TblDec : List ℕ := [
  64, 64, 64, 64, 64, 64, 64, 64, 64, 64, 64, 64, 64, 64, 64, 64,
  64, 64, 64, 64, 64, 64, 64, 64, 64, 64, 64, 64, 64, 64, 64, 64,
  64, 64, 64, 64, 64, 64, 64, 64, 64, 64, 64, 62, 64, 64, 64, 63,
  52, 53, 54, 55, 56, 57, 58, 59, 60, 61, 64, 64, 64, 128, 64, 64,
  64, 0, 1, 2, 3, 4, 5, 6, 7, 8, 9, 10, 11, 12, 13, 14,
  15, 16, 17, 18, 19, 20, 21, 22, 23, 24, 25, 64, 64, 64, 64, 64,
  64, 26, 27, 28, 29, 30, 31, 32, 33, 34, 35, 36, 37, 38, 39, 40,
  41, 42, 43, 44, 45, 46, 47, 48, 49, 50, 51, 64, 64, 64, 64, 64,
  64, 64, 64, 64, 64, 64, 64, 64, 64, 64, 64, 64, 64, 64, 64, 64,
  64, 64, 64, 64, 64, 64, 64, 64, 64, 64, 64, 64, 64, 64, 64, 64,
  64, 64, 64, 64, 64, 64, 64, 64, 64, 64, 64, 64, 64, 64, 64, 64,
  64, 64, 64, 64, 64, 64, 64, 64, 64, 64, 64, 64, 64, 64, 64, 64,
  64, 64, 64, 64, 64, 64, 64, 64, 64, 64, 64, 64, 64, 64, 64, 64,
  64, 64, 64, 64, 64, 64, 64, 64, 64, 64, 64, 64, 64, 64, 64, 64,
  64, 64, 64, 64, 64, 64, 64, 64, 64, 64, 64, 64, 64, 64, 64, 64,
  64, 64, 64, 64, 64, 64, 64, 64, 64, 64, 64, 64, 64, 64, 64, 64]

/-- `b64_tbl_dec[(unsigned int)c]` -/
def b64Value (c : UInt8) : BitVec 32 := BitVec.ofNat 32 (b64TblDec.getD c.toNat 64)

/-- `php_conv_base64_decode_ctor` -/
def phpConvBase64DecodeCtor : PhpConvBase64Decode where
  urem := 0
  urem_nbits := 0
  ustat := 0
  eos := false

/-- `bmask` -/
def bmask (a : ℕ) : BitVec 32 := 0xffff#32 >>> (16 - a)

/-- `nbitsof_pack` -/
def nbitsofPack : ℕ := 8

/-- The variables of a call. `pack` is the byte in the making, of which `pack_bcnt` bits are
still missing. -/
structure Base64Decoding where
  urem : BitVec 32
  urem_nbits : ℕ
  ustat : BitVec 32
  eos : Bool
  pack : BitVec 32
  pack_bcnt : ℕ
  ps : List UInt8
  pd : List UInt8
  ocnt : ℕ
  deriving DecidableEq, Repr

/-- How a turn of the loop ends: the loop goes on, or it is left. -/
inductive DecodeFlow where
  | again (d : Base64Decoding)
  | leave (err : PhpConvErr) (d : Base64Decoding)

namespace Base64Decoding

def refill (d : Base64Decoding) : Base64Decoding :=
  if d.urem_nbits ≤ d.pack_bcnt then
    let pack_bcnt := d.pack_bcnt - d.urem_nbits
    { d with pack_bcnt := pack_bcnt, pack := d.pack ||| d.urem <<< pack_bcnt, urem_nbits := 0 }
  else
    let urem_nbits := d.urem_nbits - d.pack_bcnt
    { d with
      urem_nbits := urem_nbits
      pack := d.pack ||| d.urem >>> urem_nbits
      urem := d.urem &&& bmask urem_nbits
      pack_bcnt := 0 }

/-- The bits `i` of a character of the alphabet. -/
def packBits (d : Base64Decoding) (i : BitVec 32) : Base64Decoding :=
  if 6 ≤ d.pack_bcnt then
    let pack_bcnt := d.pack_bcnt - 6
    { d with pack_bcnt := pack_bcnt, pack := d.pack ||| i <<< pack_bcnt, urem := 0 }
  else
    let urem_nbits := 6 - d.pack_bcnt
    { d with
      urem_nbits := urem_nbits
      pack := d.pack ||| i >>> urem_nbits
      urem := i &&& bmask urem_nbits
      pack_bcnt := 0 }

def readChar (d : Base64Decoding) : DecodeFlow :=
  if 0 < d.pack_bcnt then
    match d.ps with
    | [] => .leave PHP_CONV_ERR_SUCCESS d
    | c :: ps =>
      let i := b64Value c
      let d := { d with ps := ps, ustat := d.ustat ||| i &&& 0x80 }
      if i &&& 0xc0 = 0 then
        if d.ustat ≠ 0 then .leave PHP_CONV_ERR_INVALID_SEQ d
        else .again (d.packBits i)
      else if d.ustat ≠ 0 then
        if d.pack_bcnt = 8 ∨ d.pack_bcnt = 2 then .leave PHP_CONV_ERR_INVALID_SEQ d
        else .again { d with eos := true }
      else .again d
  else .again d

def emit (d : Base64Decoding) : DecodeFlow :=
  if d.pack_bcnt = 0 ∧ d.ustat = 0 then
    if d.ocnt < 1 then .leave PHP_CONV_ERR_TOO_BIG d
    else .again { d with
      pd := d.pd ++ [UInt8.ofNat d.pack.toNat]
      ocnt := d.ocnt - 1
      pack := 0
      pack_bcnt := nbitsofPack }
  else .again d

def turn (d : Base64Decoding) : DecodeFlow :=
  match d.refill.readChar with
  | .leave err d => .leave err d
  | .again d => d.emit

def loop : ℕ → Base64Decoding → Option (PhpConvErr × Base64Decoding)
  | 0, _ => none
  | turns + 1, d =>
    match d.turn with
    | .leave err d => some (err, d)
    | .again d => d.loop turns

def keepBits (d : Base64Decoding) : Base64Decoding :=
  if d.pack_bcnt ≤ d.urem_nbits then
    { d with
      urem := d.urem ||| d.pack <<< (d.urem_nbits - d.pack_bcnt)
      urem_nbits := d.urem_nbits + (nbitsofPack - d.pack_bcnt) }
  else
    { d with
      urem := d.urem ||| d.pack >>> (d.pack_bcnt - d.urem_nbits)
      urem_nbits := d.urem_nbits + (nbitsofPack - d.pack_bcnt) }

end Base64Decoding

/-- A turn takes a character or writes a byte: so many turns are enough. -/
def decodeTurns (inst : PhpConvBase64Decode) (ps : List UInt8) : ℕ :=
  8 * ps.length + inst.urem_nbits + 1

/-- `php_conv_base64_decode_convert` -/
def phpConvBase64DecodeConvert (inst : PhpConvBase64Decode) (input : Option (List UInt8))
    (room : ℕ) : Option (ConvReply PhpConvBase64Decode) :=
  match input with
  | none =>
    if inst.eos ∨ inst.urem_nbits = 0 then some ⟨PHP_CONV_ERR_SUCCESS, inst, [], []⟩
    else some ⟨PHP_CONV_ERR_UNEXPECTED_EOS, inst, [], []⟩
  | some ps =>
    let d : Base64Decoding :=
      ⟨inst.urem, inst.urem_nbits, inst.ustat, inst.eos, 0, nbitsofPack, ps, [], room⟩
    (d.loop (decodeTurns inst ps)).map fun (err, d) =>
      let d := d.keepBits
      ⟨err, ⟨d.urem, d.urem_nbits, d.ustat, d.eos⟩, d.ps, d.pd⟩

/-! ## The table -/

set_option maxRecDepth 4000 in
theorem b64TblDec_eq : b64TblDec = (List.range 256).map fun n =>
    (Base64.sextet (UInt8.ofNat n)).getD (if n = 61 then 128 else 64) := rfl

theorem b64Value_eq (c : UInt8) : b64Value c = BitVec.ofNat 32
    ((Base64.sextet c).getD (if c = Base64.pad then 128 else 64)) := by
  have hpad : c.toNat = 61 ↔ c = Base64.pad := by rw [← UInt8.toNat_inj]; rfl
  rw [b64Value, b64TblDec_eq, List.getD_eq_getElem?_getD, List.getElem?_map,
    List.getElem?_range c.toNat_lt, Option.map_some, Option.getD_some, UInt8.ofNat_toNat]
  simp only [hpad]

theorem b64Value_of_sextet {c : UInt8} {n : ℕ} (h : Base64.sextet c = some n) :
    (b64Value c).toNat = n ∧ b64Value c &&& 0x80 = 0 ∧ b64Value c &&& 0xc0 = 0 := by
  have hbits : ∀ n < 64, (BitVec.ofNat 32 n).toNat = n ∧ BitVec.ofNat 32 n &&& 0x80 = 0 ∧
      BitVec.ofNat 32 n &&& 0xc0 = 0 := by decide
  rw [b64Value_eq, h]
  exact hbits n (Base64.sextet_lt h)

theorem b64Value_pad : b64Value Base64.pad = 128 := by decide

theorem b64Value_skipped {c : UInt8} (h : Base64.Skipped c) : b64Value c = 64 := by
  rw [b64Value_eq, h.1, if_neg h.2]
  rfl

theorem ofNat_eq_of_mod {a b : ℕ} (h : a % 2 ^ 8 = b % 2 ^ 8) : UInt8.ofNat a = UInt8.ofNat b := by
  rw [← UInt8.toNat_inj, UInt8.toNat_ofNat', UInt8.toNat_ofNat', h]

theorem ofNat_low (x : BitVec 32) : UInt8.ofNat (low 8 x) = UInt8.ofNat x.toNat :=
  ofNat_eq_of_mod (Nat.mod_mod _ _)

theorem toNat_and_bmask {x : BitVec 32} {k : ℕ} (hk : k ≤ 16) :
    (x &&& bmask k).toNat = LowBits.low k x := by
  refine LowBits.low_and_mask fun j _ => ?_
  have hlow : ∀ i < 32, (0xffff#32).getLsbD i = decide (i < 16) := by decide
  have hmask : ∀ i, (0xffff#32).getLsbD i = decide (i < 16) := by
    intro i
    by_cases hi : i < 32
    · exact hlow i hi
    · rw [BitVec.getLsbD_of_ge _ _ (by omega)]
      exact (decide_eq_false (by omega)).symm
  rw [bmask, BitVec.getLsbD_ushiftRight, hmask]
  exact decide_eq_decide.mpr (by omega)

/-! ## The loop

A byte in the making is begun, in part or full. `more` is what follows the input of the call,
and `owed` what has still to be written for it all. -/

namespace Base64Decoding

/-- Nothing of the next byte is packed yet. -/
structure Begun (more owed : List UInt8) (d : Base64Decoding) : Prop where
  ustat : d.ustat = 0
  pack : d.pack = 0
  pack_bcnt : d.pack_bcnt = 8
  urem_nbits : d.urem_nbits < 16
  text : Base64.readFrom d.urem_nbits (low d.urem_nbits d.urem) (d.ps ++ more) = some owed

/-- Bits of the byte are missing. What `urem` holds is packed already, so it may be or-ed to
the packed bits once more. -/
structure Missing (more owed : List UInt8) (d : Base64Decoding) : Prop where
  ustat : d.ustat = 0
  urem_nbits : d.urem_nbits = 0
  pos : 0 < d.pack_bcnt
  le : d.pack_bcnt ≤ 8
  free : low d.pack_bcnt d.pack = 0
  stale : low (8 - d.pack_bcnt) (d.urem ||| d.pack >>> d.pack_bcnt) =
    low (8 - d.pack_bcnt) (d.pack >>> d.pack_bcnt)
  text : Base64.read (8 - d.pack_bcnt) (low (8 - d.pack_bcnt) (d.pack >>> d.pack_bcnt))
    (d.ps ++ more) = some owed

/-- The byte is full, and `urem` holds the bits of the next one. -/
structure Complete (more owed : List UInt8) (d : Base64Decoding) : Prop where
  ustat : d.ustat = 0
  pack_bcnt : d.pack_bcnt = 0
  urem_nbits : d.urem_nbits < 8
  left : 0 < d.urem_nbits → d.urem.toNat < 2 ^ d.urem_nbits
  stale : d.urem_nbits = 0 → low 8 (d.urem ||| d.pack) = low 8 d.pack
  text : ∃ later, owed = UInt8.ofNat d.pack.toNat :: later ∧
    Base64.read d.urem_nbits (low d.urem_nbits d.urem) (d.ps ++ more) = some later

/-- The padding was seen. -/
structure Padded (more owed : List UInt8) (d : Base64Decoding) : Prop where
  ustat : d.ustat ≠ 0
  eos : d.eos = true
  bits : d.pack_bcnt = d.urem_nbits + 4 ∨ d.pack_bcnt = d.urem_nbits + 6
  le : d.pack_bcnt ≤ 8
  skipped : ∀ c ∈ d.ps ++ more, Base64.sextet c = none
  owed : owed = []

variable {d : Base64Decoding} {more owed : List UInt8}

theorem refill_frame (d : Base64Decoding) : d.refill.ps = d.ps ∧ d.refill.pd = d.pd ∧
    d.refill.ocnt = d.ocnt ∧ d.refill.ustat = d.ustat ∧ d.refill.eos = d.eos := by
  unfold refill
  split <;> exact ⟨rfl, rfl, rfl, rfl, rfl⟩

theorem Begun.refill (h : Begun more owed d) :
    Missing more owed d.refill ∨ Complete more owed d.refill := by
  have hframe := refill_frame d
  have htext := h.text
  have h16 := h.urem_nbits
  by_cases h8 : d.urem_nbits < 8
  · left
    have hr : d.refill = { d with
        pack_bcnt := 8 - d.urem_nbits, pack := d.urem <<< (8 - d.urem_nbits), urem_nbits := 0 } := by
      simp only [Base64Decoding.refill, h.pack_bcnt, h.pack, if_pos (Nat.le_of_lt h8),
        BitVec.ofNat_eq_ofNat, BitVec.zero_or]
    have hback : low (8 - (8 - d.urem_nbits)) ((d.urem <<< (8 - d.urem_nbits)) >>>
        (8 - d.urem_nbits)) = low (8 - (8 - d.urem_nbits)) d.urem := low_shift_back (by omega)
    rw [Base64.readFrom, if_pos h8] at htext
    rw [hr]
    refine ⟨h.ustat, rfl, ?_, ?_, low_shiftLeft le_rfl, low_or_of_eq hback.symm, ?_⟩
    · dsimp only
      omega
    · dsimp only
      omega
    · dsimp only
      rw [hback, show 8 - (8 - d.urem_nbits) = d.urem_nbits by omega]
      exact htext
  · right
    rw [Base64.readFrom, if_neg h8, Option.map_eq_some_iff] at htext
    obtain ⟨later, htext, rfl⟩ := htext
    by_cases heq : d.urem_nbits = 8
    · have hr : d.refill = { d with pack_bcnt := 0, pack := d.urem, urem_nbits := 0 } := by
        simp only [Base64Decoding.refill, h.pack_bcnt, h.pack, heq, le_refl, reduceIte,
          Nat.sub_self, BitVec.shiftLeft_zero, BitVec.ofNat_eq_ofNat, BitVec.zero_or]
      rw [heq] at htext ⊢
      rw [hr]
      refine ⟨h.ustat, rfl, ?_, fun h0 => ?_, fun _ => by simp, later, ?_, ?_⟩
      · exact Nat.zero_lt_succ 7
      · exact absurd h0 (Nat.lt_irrefl 0)
      · simp only [Nat.sub_self, Nat.pow_zero, Nat.div_one, ofNat_low]
      · simpa [Nat.mod_one] using htext
    · have hr : d.refill = { d with
          urem_nbits := d.urem_nbits - 8
          pack := d.urem >>> (d.urem_nbits - 8)
          urem := d.urem &&& bmask (d.urem_nbits - 8)
          pack_bcnt := 0 } := by
        simp only [Base64Decoding.refill, h.pack_bcnt, h.pack, BitVec.ofNat_eq_ofNat,
          BitVec.zero_or, if_neg (show ¬ d.urem_nbits ≤ 8 by omega)]
      have hmask := toNat_and_bmask (x := d.urem) (show d.urem_nbits - 8 ≤ 16 by omega)
      rw [hr]
      refine ⟨h.ustat, rfl, ?_, fun _ => ?_, fun h0 => ?_, later, ?_, ?_⟩
      · dsimp only
        omega
      · rw [hmask]
        exact low_lt _ _
      · dsimp only at h0
        omega
      · have hbyte : low d.urem_nbits d.urem / 2 ^ (d.urem_nbits - 8) =
            low 8 (d.urem >>> (d.urem_nbits - 8)) := by
          rw [low_shiftRight, show 8 + (d.urem_nbits - 8) = d.urem_nbits by omega]
        rw [hbyte, ofNat_low]
      · rw [low_low (by omega)] at htext
        have hlow : low (d.urem_nbits - 8) (d.urem &&& bmask (d.urem_nbits - 8)) =
            low (d.urem_nbits - 8) d.urem := by
          rw [low, hmask, Nat.mod_eq_of_lt (low_lt _ _)]
        dsimp only
        rw [hlow]
        exact htext

theorem Missing.refill (h : Missing more owed d) : Missing more owed d.refill := by
  have hle := h.le
  have hr : d.refill = { d with pack := d.pack ||| d.urem <<< d.pack_bcnt } := by
    simp only [Base64Decoding.refill, h.urem_nbits, Nat.zero_le, reduceIte, Nat.sub_zero]
  have hback : low (8 - d.pack_bcnt) ((d.urem <<< d.pack_bcnt) >>> d.pack_bcnt) =
      low (8 - d.pack_bcnt) d.urem := low_shift_back (by omega)
  have hsame : low (8 - d.pack_bcnt) ((d.pack ||| d.urem <<< d.pack_bcnt) >>> d.pack_bcnt) =
      low (8 - d.pack_bcnt) (d.pack >>> d.pack_bcnt) := by
    rw [BitVec.ushiftRight_or_distrib, low_or, hback, Nat.or_comm, ← low_or, h.stale]
  rw [hr]
  refine ⟨h.ustat, h.urem_nbits, h.pos, h.le, ?_, ?_, ?_⟩
  · rw [low_or, h.free, low_shiftLeft le_rfl]
    rfl
  · dsimp only
    rw [low_or, hsame, ← low_or, h.stale]
  · dsimp only
    rw [hsame]
    exact h.text

theorem Padded.refill (h : Padded more owed d) :
    Padded more owed d.refill ∧ d.refill.urem_nbits = 0 := by
  have hbits := h.bits
  have hr : d.refill = { d with
      pack_bcnt := d.pack_bcnt - d.urem_nbits
      pack := d.pack ||| d.urem <<< (d.pack_bcnt - d.urem_nbits)
      urem_nbits := 0 } := by
    rw [Base64Decoding.refill, if_pos (by omega)]
  have hle := h.le
  rw [hr]
  refine ⟨⟨h.ustat, h.eos, ?_, ?_, h.skipped, h.owed⟩, rfl⟩ <;> dsimp only <;> omega

theorem Missing.packBits {c : UInt8} {n : ℕ} {ps : List UInt8} (h : Missing more owed d)
    (hps : d.ps = c :: ps) (hc : Base64.sextet c = some n) :
    let d' := { d with ps := ps }.packBits (b64Value c)
    Missing more owed d' ∨ Complete more owed d' := by
  have hle := h.le
  have hpos := h.pos
  have hn := Base64.sextet_lt hc
  obtain ⟨hi, -, -⟩ := b64Value_of_sextet hc
  have htext := h.text
  rw [hps, List.cons_append, Base64.read_of_sextet (by omega) hc] at htext
  intro d'
  by_cases h6 : 6 ≤ d.pack_bcnt
  · have hr : d' = { d with
        ps := ps
        pack_bcnt := d.pack_bcnt - 6
        pack := d.pack ||| b64Value c <<< (d.pack_bcnt - 6)
        urem := 0 } := if_pos h6
    have happend := low_append (n := 8 - d.pack_bcnt) (k := d.pack_bcnt - 6) (m := 6) h.free
      (i := b64Value c) (by omega) (by omega) (by omega)
    rw [hi] at happend
    rw [← happend] at htext
    rw [hr]
    by_cases heq : d.pack_bcnt = 6
    · right
      rw [heq, Base64.readFrom, if_neg (by omega), Option.map_eq_some_iff] at htext
      obtain ⟨later, htext, rfl⟩ := htext
      refine ⟨h.ustat, by dsimp only; omega, ?_, fun h0 => ?_, fun _ => by simp, later, ?_, ?_⟩
      · dsimp only
        rw [h.urem_nbits]
        decide
      · dsimp only at h0
        rw [h.urem_nbits] at h0
        exact absurd h0 (Nat.lt_irrefl 0)
      · simp only [heq, Nat.sub_self, Nat.reduceSub, Nat.reduceAdd, Nat.pow_zero, Nat.div_one,
          BitVec.ushiftRight_zero, ofNat_low]
      · simpa [h.urem_nbits, Nat.mod_one] using htext
    · left
      have hbits : 8 - d.pack_bcnt + 6 = 8 - (d.pack_bcnt - 6) := by omega
      rw [Base64.readFrom, if_pos (by omega), hbits] at htext
      refine ⟨h.ustat, h.urem_nbits, by dsimp only; omega, by dsimp only; omega, ?_, by simp, htext⟩
      have hlow : low (d.pack_bcnt - 6) d.pack = 0 := by
        rw [← low_low (Nat.sub_le _ 6), h.free, Nat.zero_mod]
      rw [low_or, hlow, low_shiftLeft le_rfl]
      rfl
  · right
    have hr : d' = { d with
        ps := ps
        urem_nbits := 6 - d.pack_bcnt
        pack := d.pack ||| b64Value c >>> (6 - d.pack_bcnt)
        urem := b64Value c &&& bmask (6 - d.pack_bcnt)
        pack_bcnt := 0 } := if_neg h6
    have hfill := low_fill (n := 8 - d.pack_bcnt) (k := 6 - d.pack_bcnt) h.free
      (i := b64Value c) (by rw [show d.pack_bcnt + (6 - d.pack_bcnt) = 6 by omega]; omega)
    have hmask := toNat_and_bmask (x := b64Value c) (show 6 - d.pack_bcnt ≤ 16 by omega)
    rw [show 8 - d.pack_bcnt + d.pack_bcnt = 8 by omega, hi] at hfill
    rw [Base64.readFrom, if_neg (by omega), Option.map_eq_some_iff,
      show 8 - d.pack_bcnt + 6 - 8 = 6 - d.pack_bcnt by omega] at htext
    obtain ⟨later, htext, rfl⟩ := htext
    -- the six bits are the upper ones of this byte and the lower ones of the next
    have hsplit : 2 ^ 6 = 2 ^ d.pack_bcnt * 2 ^ (6 - d.pack_bcnt) := by
      rw [← Nat.pow_add]
      congr 1
      omega
    rw [hr]
    refine ⟨h.ustat, rfl, by dsimp only; omega, fun _ => ?_, fun h0 => ?_, later, ?_, ?_⟩
    · rw [hmask]
      exact low_lt _ _
    · dsimp only at h0
      omega
    · have hbyte : (low (8 - d.pack_bcnt) (d.pack >>> d.pack_bcnt) * 2 ^ 6 + n) /
          2 ^ (6 - d.pack_bcnt) = low 8 (d.pack ||| b64Value c >>> (6 - d.pack_bcnt)) := by
        rw [hfill, hsplit, ← Nat.mul_assoc, Nat.add_comm,
          Nat.add_mul_div_right _ _ (Nat.two_pow_pos _), Nat.add_comm]
      rw [hbyte, ofNat_low]
    · have hrest : low (6 - d.pack_bcnt) (b64Value c &&& bmask (6 - d.pack_bcnt)) =
          (low (8 - d.pack_bcnt) (d.pack >>> d.pack_bcnt) * 2 ^ 6 + n) % 2 ^ (6 - d.pack_bcnt) := by
        rw [low, hmask, Nat.mod_eq_of_lt (low_lt _ _), hsplit, ← Nat.mul_assoc,
          Nat.mul_add_mod', low, hi]
      rw [hrest]
      exact htext

def Head (more owed : List UInt8) (d : Base64Decoding) : Prop :=
  Begun more owed d ∨ Missing more owed d ∨ Padded more owed d

def Refilled (more owed : List UInt8) (d : Base64Decoding) : Prop :=
  Missing more owed d ∨ Complete more owed d ∨ Padded more owed d ∧ d.urem_nbits = 0

/-- What a turn makes smaller: the bits there are, and more for each character to come. -/
def todo (d : Base64Decoding) : ℕ := 8 * d.ps.length + (8 - d.pack_bcnt) + d.urem_nbits

theorem todo_refill (h : d.pack_bcnt ≤ 8) : d.refill.todo = d.todo := by
  unfold Base64Decoding.refill todo
  split <;> dsimp only <;> omega

theorem Head.refill (h : Head more owed d) :
    Refilled more owed d.refill ∧ d.refill.todo = d.todo := by
  rcases h with h | h | h
  · refine ⟨?_, todo_refill (by rw [h.pack_bcnt])⟩
    rcases h.refill with h | h
    · exact Or.inl h
    · exact Or.inr (Or.inl h)
  · exact ⟨Or.inl h.refill, todo_refill h.le⟩
  · exact ⟨Or.inr (Or.inr h.refill), todo_refill h.le⟩

/-- How reading the next character ends: at the end of the input, or with less to do. -/
def CharRead (more owed : List UInt8) (d : Base64Decoding) : DecodeFlow → Prop
  | .leave err d' => err = PHP_CONV_ERR_SUCCESS ∧ d' = d ∧ d.ps = [] ∧ 0 < d.pack_bcnt
  | .again d' => Refilled more owed d' ∧ d'.pd = d.pd ∧ d'.ocnt = d.ocnt ∧
    (d'.todo < d.todo ∨ d' = d ∧ Complete more owed d)

theorem todo_packBits (i : BitVec 32) (h : d.pack_bcnt ≤ 8) (h0 : d.urem_nbits = 0) :
    (d.packBits i).todo = d.todo + 6 := by
  unfold Base64Decoding.packBits todo
  split <;> dsimp only <;> omega

theorem packBits_frame (d : Base64Decoding) (i : BitVec 32) :
    (d.packBits i).pd = d.pd ∧ (d.packBits i).ocnt = d.ocnt := by
  unfold Base64Decoding.packBits
  split <;> exact ⟨rfl, rfl⟩

theorem Missing.readChar (h : Missing more owed d) : CharRead more owed d d.readChar := by
  have hpos := h.pos
  have hle := h.le
  unfold Base64Decoding.readChar
  rw [if_pos hpos]
  cases hps : d.ps with
  | nil => exact ⟨rfl, rfl, hps, hpos⟩
  | cons c ps =>
    have hless : ({ d with ps := ps } : Base64Decoding).todo + 8 = d.todo := by
      simp only [todo, hps, List.length_cons]
      omega
    have htext := h.text
    rw [hps, List.cons_append] at htext
    dsimp only
    cases hc : Base64.sextet c with
    | some n =>
      obtain ⟨-, h80, hc0⟩ := b64Value_of_sextet hc
      have hustat : d.ustat ||| b64Value c &&& 0x80 = d.ustat := by
        rw [h80, BitVec.ofNat_eq_ofNat, BitVec.or_zero]
      have htodo := todo_packBits (d := { d with ps := ps }) (b64Value c) hle h.urem_nbits
      obtain ⟨hpd, hocnt⟩ := packBits_frame { d with ps := ps } (b64Value c)
      rw [if_pos hc0, hustat, if_neg (by simp [h.ustat])]
      refine ⟨?_, hpd, hocnt, Or.inl (by omega)⟩
      rcases h.packBits hps hc with h | h
      · exact Or.inl h
      · exact Or.inr (Or.inl h)
    | none =>
      by_cases hpad : c = Base64.pad
      · rw [hpad, Base64.read_pad] at htext
        split_ifs at htext with hcond
        obtain ⟨hn, hall⟩ := hcond
        rw [hpad, b64Value_pad, h.ustat, if_neg (by decide), if_pos (by decide),
          if_neg (by omega)]
        refine ⟨Or.inr (Or.inr ⟨⟨by simp, rfl, ?_, hle, ?_, ?_⟩, h.urem_nbits⟩), rfl, rfl,
          Or.inl ?_⟩
        · dsimp only
          rw [h.urem_nbits]
          omega
        · intro c hc
          have := List.all_eq_true.mp hall c hc
          simpa using this
        · exact (Option.some.inj htext).symm
        · have htodo : ({ d with ps := ps } : Base64Decoding).todo < d.todo := by omega
          exact htodo
      · have hskip : Base64.Skipped c := ⟨hc, hpad⟩
        have hustat : d.ustat ||| b64Value c &&& 0x80 = d.ustat := by
          rw [b64Value_skipped hskip]
          simp
        rw [Base64.read_of_skipped hskip] at htext
        rw [hustat, b64Value_skipped hskip, if_neg (by decide), if_neg (by simp [h.ustat])]
        exact ⟨Or.inl ⟨h.ustat, h.urem_nbits, hpos, hle, h.free, h.stale, htext⟩, rfl, rfl,
          Or.inl (by omega)⟩

theorem Padded.readChar (h : Padded more owed d) (h0 : d.urem_nbits = 0) :
    CharRead more owed d d.readChar := by
  have hbits := h.bits
  have hle := h.le
  unfold Base64Decoding.readChar
  rw [if_pos (by omega)]
  cases hps : d.ps with
  | nil => exact ⟨rfl, rfl, hps, by omega⟩
  | cons c ps =>
    have hskipped := h.skipped
    rw [hps] at hskipped
    have hc := hskipped c (by simp)
    have hc0 : ¬ b64Value c &&& 0xc0 = 0 := by
      rw [b64Value_eq, hc]
      split <;> decide
    have hustat : d.ustat ||| b64Value c &&& 0x80 ≠ 0 := fun hz => h.ustat (by
      have hor := BitVec.or_eq_zero_iff.mp hz
      exact hor.1)
    dsimp only
    rw [if_neg hc0, if_pos hustat, if_neg (by omega)]
    refine ⟨Or.inr (Or.inr ⟨⟨hustat, rfl, hbits, hle, ?_, h.owed⟩, h0⟩), rfl, rfl, Or.inl ?_⟩
    · exact fun c hc => hskipped c (by simp only [List.cons_append]; exact List.mem_cons_of_mem _ hc)
    · simp only [todo, hps, List.length_cons]
      omega

theorem Refilled.readChar (h : Refilled more owed d) : CharRead more owed d d.readChar := by
  rcases h with h | h | ⟨h, h0⟩
  · exact h.readChar
  · rw [Base64Decoding.readChar, if_neg (by rw [h.pack_bcnt]; decide)]
    exact ⟨Or.inr (Or.inl h), rfl, rfl, Or.inr ⟨rfl, h⟩⟩
  · exact h.readChar h0

/-- How a turn ends: with less to do, at the end of the input, or without room for a byte. -/
def Turned (more owed : List UInt8) (d : Base64Decoding) : DecodeFlow → Prop
  | .again d' => d'.todo < d.todo ∧ ∃ later, Head more later d' ∧ d.pd ++ owed = d'.pd ++ later ∧
    d.pd.length + d.ocnt = d'.pd.length + d'.ocnt
  | .leave err d' => d'.pd = d.pd ∧ d'.ocnt = d.ocnt ∧ Refilled more owed d' ∧
    (err = PHP_CONV_ERR_SUCCESS ∧ d'.ps = [] ∧ 0 < d'.pack_bcnt ∨
      err = PHP_CONV_ERR_TOO_BIG ∧ d'.ocnt = 0 ∧ Complete more owed d')

theorem Complete.emit (h : Complete more owed d) :
    d.ocnt = 0 ∧ d.emit = .leave PHP_CONV_ERR_TOO_BIG d ∨
    ∃ d' later, d.emit = .again d' ∧ d'.todo + 8 = d.todo ∧ Begun more later d' ∧
      d.pd ++ owed = d'.pd ++ later ∧ d.pd.length + d.ocnt = d'.pd.length + d'.ocnt := by
  have hn := h.urem_nbits
  unfold Base64Decoding.emit
  rw [if_pos ⟨h.pack_bcnt, h.ustat⟩]
  by_cases hocnt : d.ocnt < 1
  · left
    rw [if_pos hocnt]
    exact ⟨by omega, rfl⟩
  · right
    obtain ⟨later, howed, htext⟩ := h.text
    rw [if_neg hocnt]
    refine ⟨_, later, rfl, ?_, ⟨h.ustat, rfl, rfl, ?_, ?_⟩, ?_, ?_⟩
    · simp only [todo, h.pack_bcnt, nbitsofPack]
      omega
    · dsimp only
      omega
    · rw [Base64.readFrom, if_pos hn]
      exact htext
    · rw [howed, List.append_assoc]
      rfl
    · simp only [List.length_append, List.length_cons, List.length_nil]
      omega

/-- **One turn.** -/
theorem Head.turn (h : Head more owed d) : Turned more owed d d.turn := by
  obtain ⟨href, htodo⟩ := h.refill
  obtain ⟨-, hpd, hocnt, -, -⟩ := refill_frame d
  have hread := href.readChar
  unfold Base64Decoding.turn
  cases hflow : d.refill.readChar with
  | leave err d' =>
    rw [hflow] at hread
    obtain ⟨hok, rfl, hps, hpos⟩ := hread
    exact ⟨hpd, hocnt, href, Or.inl ⟨hok, hps, hpos⟩⟩
  | again d' =>
    rw [hflow] at hread
    obtain ⟨href', hpd', hocnt', hless⟩ := hread
    have hpd'' := hpd'.trans hpd
    have hocnt'' := hocnt'.trans hocnt
    -- a turn that writes nothing has taken a character
    have hgoes : Head more owed d' → 0 < d'.pack_bcnt ∨ d'.ustat ≠ 0 →
        Turned more owed d d'.emit := by
      intro hhead hne
      have hemit : d'.emit = .again d' := by
        rw [Base64Decoding.emit, if_neg]
        rintro ⟨hb, hu⟩
        rcases hne with hne | hne
        · omega
        · exact hne hu
      rw [hemit]
      refine ⟨?_, owed, hhead, by rw [hpd''], by rw [hpd'', hocnt'']⟩
      rcases hless with hless | ⟨rfl, hc⟩
      · omega
      · rcases hne with hne | hne
        · rw [hc.pack_bcnt] at hne
          exact absurd hne (Nat.lt_irrefl 0)
        · exact absurd hc.ustat hne
    rcases href' with hm | hc | ⟨hp, h0⟩
    · exact hgoes (Or.inr (Or.inl hm)) (Or.inl hm.pos)
    · rcases hc.emit with ⟨hfull, hemit⟩ | ⟨d'', later, hemit, hdone, hb, htext, hroom⟩
      · dsimp only
        rw [hemit]
        exact ⟨hpd'', hocnt'', Or.inr (Or.inl hc), Or.inr ⟨rfl, hfull, hc⟩⟩
      · have hle : d'.todo ≤ d.todo := by
          rcases hless with hless | ⟨rfl, -⟩ <;> omega
        dsimp only
        rw [hemit]
        refine ⟨by omega, later, Or.inl hb, ?_, ?_⟩
        · rw [← hpd'', htext]
        · rw [← hpd'', ← hocnt'', hroom]
    · exact hgoes (Or.inr (Or.inr hp)) (Or.inr hp.ustat)

/-- How the loop ends. -/
structure Ended (more owed later : List UInt8) (d : Base64Decoding) (err : PhpConvErr)
    (d' : Base64Decoding) : Prop where
  text : d.pd ++ owed = d'.pd ++ later
  room : d.pd.length + d.ocnt = d'.pd.length + d'.ocnt
  rest : Refilled more later d'
  ends : err = PHP_CONV_ERR_SUCCESS ∧ d'.ps = [] ∧ 0 < d'.pack_bcnt ∨
    err = PHP_CONV_ERR_TOO_BIG ∧ d'.ocnt = 0 ∧ Complete more later d'

/-- **The loop** ends within as many turns as there is to do. -/
theorem Head.loop (turns : ℕ) (h : Head more owed d) (hturns : d.todo < turns) :
    ∃ err d' later, d.loop turns = some (err, d') ∧ Ended more owed later d err d' := by
  induction turns generalizing d owed with
  | zero => exact absurd hturns (Nat.not_lt_zero _)
  | succ turns ih =>
    have hturn := h.turn
    unfold Base64Decoding.loop
    cases hflow : d.turn with
    | leave err d' =>
      rw [hflow] at hturn
      obtain ⟨hpd, hocnt, hrest, hends⟩ := hturn
      exact ⟨err, d', owed, rfl, by rw [hpd], by rw [hpd, hocnt], hrest, hends⟩
    | again d' =>
      rw [hflow] at hturn
      obtain ⟨hless, later, hhead, htext, hroom⟩ := hturn
      obtain ⟨err, d'', later', hloop, hended⟩ := ih hhead (by omega)
      exact ⟨err, d'', later', hloop, htext.trans hended.text, hroom.trans hended.room,
        hended.rest, hended.ends⟩

end Base64Decoding

/-! ## Calls -/

namespace PhpConvBase64Decode

/-- What the converter owes in the course of a piece: the bits it keeps and the text to come
are read as `owed`, or the padding was seen and nothing but what is skipped is to come. -/
def Within (inst : PhpConvBase64Decode) (input owed : List UInt8) : Prop :=
  inst.ustat = 0 ∧ inst.urem_nbits < 16 ∧
      Base64.readFrom inst.urem_nbits (low inst.urem_nbits inst.urem) input = some owed ∨
    inst.ustat ≠ 0 ∧ inst.eos = true ∧ (inst.urem_nbits = 2 ∨ inst.urem_nbits = 4) ∧
      (∀ c ∈ input, Base64.sextet c = none) ∧ owed = []

/-- Between two pieces no byte is left to write. -/
def Between (inst : PhpConvBase64Decode) (input owed : List UInt8) : Prop :=
  inst.Within input owed ∧ inst.urem_nbits < 8

def kept (d : Base64Decoding) : PhpConvBase64Decode :=
  ⟨d.keepBits.urem, d.keepBits.urem_nbits, d.keepBits.ustat, d.keepBits.eos⟩

variable {d : Base64Decoding} {more owed : List UInt8} {inst : PhpConvBase64Decode}

theorem keepBits_frame (d : Base64Decoding) : d.keepBits.ps = d.ps ∧ d.keepBits.pd = d.pd := by
  unfold Base64Decoding.keepBits
  split <;> exact ⟨rfl, rfl⟩

theorem kept_of_missing (h : d.Missing more owed) :
    (kept d).Between (d.ps ++ more) owed := by
  have hpos := h.pos
  have hle := h.le
  have hk : d.keepBits = { d with
      urem := d.urem ||| d.pack >>> d.pack_bcnt
      urem_nbits := 8 - d.pack_bcnt } := by
    simp only [Base64Decoding.keepBits, h.urem_nbits, if_neg (Nat.not_le.mpr hpos), Nat.sub_zero,
      Nat.zero_add, nbitsofPack]
  simp only [Between, Within, kept, hk]
  refine ⟨Or.inl ⟨h.ustat, by omega, ?_⟩, by omega⟩
  rw [Base64.readFrom, if_pos (by omega), h.stale]
  exact h.text

theorem kept_of_padded (h : d.Padded more owed) (h0 : d.urem_nbits = 0) :
    (kept d).Between (d.ps ++ more) owed := by
  have hbits := h.bits
  have hk : d.keepBits.urem_nbits = 8 - d.pack_bcnt ∧ d.keepBits.ustat = d.ustat ∧
      d.keepBits.eos = d.eos := by
    unfold Base64Decoding.keepBits
    rw [if_neg (by omega)]
    exact ⟨by simp only [h0, nbitsofPack, Nat.zero_add], rfl, rfl⟩
  obtain ⟨hnbits, hustat, heos⟩ := hk
  simp only [Between, Within, kept, hnbits, hustat, heos]
  exact ⟨Or.inr ⟨h.ustat, h.eos, by omega, h.skipped, h.owed⟩, by omega⟩

theorem kept_of_complete (h : d.Complete more owed) : (kept d).Within (d.ps ++ more) owed := by
  have hn := h.urem_nbits
  have hk : d.keepBits = { d with
      urem := d.urem ||| d.pack <<< d.urem_nbits
      urem_nbits := d.urem_nbits + 8 } := by
    simp only [Base64Decoding.keepBits, h.pack_bcnt, Nat.zero_le, reduceIte, Nat.sub_zero,
      nbitsofPack]
  obtain ⟨later, howed, htext⟩ := h.text
  simp only [Within, kept, hk]
  refine Or.inl ⟨h.ustat, by omega, ?_⟩
  rw [Base64.readFrom, if_neg (by omega), Nat.add_sub_cancel, low_low (by omega)]
  by_cases h0 : d.urem_nbits = 0
  · have hstale := h.stale h0
    rw [h0, low_zero_width] at htext
    simp only [h0, Nat.zero_add, BitVec.shiftLeft_zero, low_zero_width, hstale, Nat.pow_zero,
      Nat.div_one, ofNat_low]
    rw [htext, howed]
    rfl
  · have hleft := h.left (by omega)
    have hstack := low_stack (y := d.pack) (n := 8) hleft (by omega)
    have hlow : low d.urem_nbits (d.urem ||| d.pack <<< d.urem_nbits) = low d.urem_nbits d.urem := by
      rw [low_or, low_shiftLeft le_rfl, Nat.or_zero]
    rw [Nat.add_comm, hstack, hlow, Nat.add_comm, Nat.add_mul_div_right _ _ (Nat.two_pow_pos _),
      Nat.div_eq_of_lt hleft, Nat.zero_add, ofNat_low, htext, howed]
    rfl

theorem Within.convert_some {ps : List UInt8} (room : ℕ) (h : inst.Within (ps ++ more) owed) :
    ∃ r later, phpConvBase64DecodeConvert inst (some ps) room = some r ∧
      owed = r.out ++ later ∧ r.out.length ≤ room ∧ r.state.Within (r.rest ++ more) later ∧
      r.Ends PHP_CONV_ERR_SUCCESS PHP_CONV_ERR_TOO_BIG room owed ∧
      (r.err = PHP_CONV_ERR_SUCCESS → r.state.Between more later) := by
  obtain ⟨d, hd⟩ : ∃ d : Base64Decoding, d =
      ⟨inst.urem, inst.urem_nbits, inst.ustat, inst.eos, 0, nbitsofPack, ps, [], room⟩ := ⟨_, rfl⟩
  have hhead : d.Head more owed := by
    rw [hd]
    rcases h with ⟨hustat, h16, htext⟩ | ⟨hustat, heos, hbits, hskipped, howed⟩
    · exact Or.inl ⟨hustat, rfl, rfl, h16, htext⟩
    · refine Or.inr (Or.inr ⟨hustat, heos, ?_, le_rfl, hskipped, howed⟩)
      simp only [nbitsofPack]
      omega
  have htodo : d.todo < decodeTurns inst ps := by
    rw [hd]
    simp only [Base64Decoding.todo, decodeTurns, nbitsofPack]
    omega
  obtain ⟨err, d', later, hloop, htext, hroom, hrest, hends⟩ := hhead.loop _ htodo
  rw [hd, List.nil_append] at htext
  rw [hd, List.length_nil, Nat.zero_add] at hroom
  refine ⟨⟨err, kept d', d'.ps, d'.pd⟩, later, ?_, htext, by dsimp only at hroom ⊢; omega, ?_⟩
  · obtain ⟨hps, hpd⟩ := keepBits_frame d'
    rw [phpConvBase64DecodeConvert, ← hd, hloop]
    simp only [Option.map_some, hps, hpd, kept]
  rcases hends with ⟨hok, hps, hpos⟩ | ⟨hfull, hocnt, hc⟩
  · have hbetween : (kept d').Between (d'.ps ++ more) later := by
      rcases hrest with hm | hc | ⟨hp, h0⟩
      · exact kept_of_missing hm
      · rw [hc.pack_bcnt] at hpos
        exact absurd hpos (Nat.lt_irrefl 0)
      · exact kept_of_padded hp h0
    refine ⟨hbetween.1, Or.inl hok, fun _ => ?_⟩
    rw [hps] at hbetween
    exact hbetween
  · refine ⟨kept_of_complete hc, Or.inr ⟨hfull, ?_⟩, fun hok => ?_⟩
    · obtain ⟨later', hlater, -⟩ := hc.text
      rw [htext, hlater]
      simp only [List.length_append, List.length_cons]
      dsimp only at hroom
      omega
    · have hne : PHP_CONV_ERR_TOO_BIG ≠ PHP_CONV_ERR_SUCCESS := by decide
      exact absurd (hfull.symm.trans hok) hne

theorem Between.convert_none (room : ℕ) (h : inst.Between [] owed) :
    ∃ r later, phpConvBase64DecodeConvert inst none room = some r ∧
      owed = r.out ++ later ∧ r.out.length ≤ room ∧ r.state.Between [] later ∧
      r.Ends PHP_CONV_ERR_SUCCESS PHP_CONV_ERR_TOO_BIG room owed ∧
      (r.err = PHP_CONV_ERR_SUCCESS → later = []) := by
  have hdone : (inst.eos = true ∨ inst.urem_nbits = 0) ∧ owed = [] := by
    rcases h with ⟨⟨-, -, htext⟩ | ⟨-, heos, -, -, howed⟩, h8⟩
    · rw [Base64.readFrom, if_pos h8, Base64.read] at htext
      split_ifs at htext with h0
      exact ⟨Or.inr h0, (Option.some.inj htext).symm⟩
    · exact ⟨Or.inl heos, howed⟩
  obtain ⟨hend, rfl⟩ := hdone
  refine ⟨⟨PHP_CONV_ERR_SUCCESS, inst, [], []⟩, [], ?_, rfl, Nat.zero_le _, h, Or.inl rfl,
    fun _ => rfl⟩
  rw [phpConvBase64DecodeConvert, if_pos hend]

theorem keeps : Keeps phpConvBase64DecodeConvert PHP_CONV_ERR_SUCCESS PHP_CONV_ERR_TOO_BIG
    Between Within :=
  ⟨And.left, fun room h => h.convert_some room, fun room h => h.convert_none room⟩

end PhpConvBase64Decode

/-- **Runs of the decoder.** A text that can be read is decoded as it is read, whatever the
pieces and the buffers. -/
theorem phpConvBase64DecodeCtor_converts {text x : List UInt8}
    (h : Base64.read 0 0 text = some x) :
    ConvConverts phpConvBase64DecodeConvert phpConvBase64DecodeCtor text x :=
  PhpConvBase64Decode.keeps.converts (by decide)
    ⟨Or.inl ⟨rfl, by decide, h⟩, by decide⟩

/-- **The two filters are inverse to one another**, whatever the pieces and the buffers on both
sides. -/
theorem base64_inverse (line_len : UInt32) (lbchars : Option (List UInt8))
    (hlen : lbchars ≠ none → 4 ≤ line_len.toNat) (x : List UInt8) :
    ConvConverts phpConvBase64EncodeConvert (phpConvBase64EncodeCtor line_len lbchars) x
        (Base64.text lbchars line_len.toNat x) ∧
      ((∀ b ∈ lbchars, ∀ c ∈ b, Base64.Skipped c) →
        ConvConverts phpConvBase64DecodeConvert phpConvBase64DecodeCtor
          (Base64.text lbchars line_len.toNat x) x) :=
  ⟨phpConvBase64EncodeCtor_converts line_len lbchars hlen x,
    fun hb => phpConvBase64DecodeCtor_converts (Base64.read_text _ _ x hb)⟩

/-- Lines of one group, broken by `\r\n`. -/
theorem base64_inverse_crlf :
    ConvConverts phpConvBase64EncodeConvert (phpConvBase64EncodeCtor 4 (some [13, 10]))
        [1, 2, 3, 4] (Base64.text (some [13, 10]) 4 [1, 2, 3, 4]) ∧
      ConvConverts phpConvBase64DecodeConvert phpConvBase64DecodeCtor
        (Base64.text (some [13, 10]) 4 [1, 2, 3, 4]) [1, 2, 3, 4] := by
  have h := base64_inverse 4 (some [13, 10]) (fun _ => by decide) [1, 2, 3, 4]
  refine ⟨h.1, h.2 ?_⟩
  intro b hb c hc
  cases hb
  rcases List.mem_cons.mp hc with rfl | hc
  · exact ⟨by decide, by decide⟩
  · rw [List.mem_singleton.mp hc]
    exact ⟨by decide, by decide⟩

end PhpRuntime.Filters

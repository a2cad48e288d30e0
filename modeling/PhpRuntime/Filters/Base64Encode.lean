import PhpRuntime.Lib.Base64
import PhpRuntime.Lib.Converter

/-!
# The filter `convert.base64-encode`

`php_conv_base64_encode_convert` writes a group of four characters for each three bytes, and a
line break before a group for which the line has no room. Up to two bytes and the columns left
on the line stay from one call to the next.
-/

set_option autoImplicit false

namespace PhpRuntime.Filters

open PhpRuntime.Lib PhpRuntime.Lib.Converter

/-- `php_conv_err_t` -/
inductive PhpConvErr where
  | PHP_CONV_ERR_SUCCESS
  | PHP_CONV_ERR_UNKNOWN
  | PHP_CONV_ERR_TOO_BIG
  | PHP_CONV_ERR_INVALID_SEQ
  | PHP_CONV_ERR_UNEXPECTED_EOS
  | PHP_CONV_ERR_EXISTS
  | PHP_CONV_ERR_MORE
  | PHP_CONV_ERR_ALLOC
  | PHP_CONV_ERR_NOT_FOUND
  deriving DecidableEq, Repr

open PhpConvErr

/-- What a call of one of the converters leaves. -/
abbrev ConvReply (inst : Type) := Reply inst PhpConvErr UInt8 UInt8

/-- The runs of a converter of this file, whose caller retries after `PHP_CONV_ERR_TOO_BIG`. -/
abbrev ConvConverts {inst : Type} (convert : Convert inst PhpConvErr UInt8 UInt8) :=
  Converts convert PHP_CONV_ERR_SUCCESS PHP_CONV_ERR_TOO_BIG

/-- `php_conv_base64_encode`. `erem` holds the first `erem_len` bytes of the array, and
`lbchars` comes with its length. -/
structure PhpConvBase64Encode where
  erem : List UInt8
  line_ccnt : UInt32
  line_len : UInt32
  lbchars : Option (List UInt8)
  deriving DecidableEq, Repr

/-- The characters of `b64_tbl_enc` once. -/
def base64Alphabet : List ℕ :=
  List.range' 65 26 ++ List.range' 97 26 ++ List.range' 48 10 ++ [43, 47]

/-- `b64_tbl_enc`, the alphabet four times over. -/
def b64TblEnc (i : UInt8) : UInt8 :=
  UInt8.ofNat
    ((base64Alphabet ++ base64Alphabet ++ base64Alphabet ++ base64Alphabet).getD i.toNat 0)

/-- `php_conv_base64_encode_ctor` -/
def phpConvBase64EncodeCtor (line_len : UInt32) (lbchars : Option (List UInt8)) :
    PhpConvBase64Encode where
  erem := []
  line_ccnt := line_len
  line_len := line_len
  lbchars := lbchars

/-- The variables of a call. `ps` is the input not taken yet, and `pd` the output written. -/
structure Base64Encoding where
  erem : List UInt8
  ps : List UInt8
  pd : List UInt8
  ocnt : ℕ
  line_ccnt : UInt32
  deriving DecidableEq, Repr

namespace PhpConvBase64Encode

/-- The line break before a group, if one is due, and `none` when there is no room for it. -/
def lineBreak (inst : PhpConvBase64Encode) (d : Base64Encoding) : Option Base64Encoding :=
  match inst.lbchars with
  | none => some d
  | some lbchars =>
    if d.line_ccnt < 4 then
      if d.ocnt < lbchars.length then none
      else some { d with
        pd := d.pd ++ lbchars
        ocnt := d.ocnt - lbchars.length
        line_ccnt := inst.line_len }
    else some d

/-- The line break and the four characters of a group. A call that finds no room for the line
break has changed nothing, so it does not matter that some of them return at once there. -/
def writeGroup (inst : PhpConvBase64Encode) (d : Base64Encoding) (chars : List UInt8) :
    PhpConvErr × Base64Encoding :=
  match inst.lineBreak d with
  | none => (PHP_CONV_ERR_TOO_BIG, d)
  | some d =>
    if d.ocnt < 4 then (PHP_CONV_ERR_TOO_BIG, d)
    else (PHP_CONV_ERR_SUCCESS, { d with
      pd := d.pd ++ chars
      ocnt := d.ocnt - 4
      line_ccnt := d.line_ccnt - 4 })

def chars (a b c : UInt8) : List UInt8 :=
  [b64TblEnc (a >>> 2), b64TblEnc (a <<< 4 ||| b >>> 4), b64TblEnc (b <<< 2 ||| c >>> 6),
    b64TblEnc c]

/-- `php_conv_base64_encode_flush` -/
def flush (inst : PhpConvBase64Encode) (room : ℕ) : ConvReply PhpConvBase64Encode :=
  let d : Base64Encoding := ⟨inst.erem, [], [], room, inst.line_ccnt⟩
  let (err, d) : PhpConvErr × Base64Encoding :=
    match inst.erem with
    | [] => (PHP_CONV_ERR_SUCCESS, d)
    | [a] =>
      let r := inst.writeGroup d [b64TblEnc (a >>> 2), b64TblEnc (a <<< 4), 61, 61]
      if r.1 = PHP_CONV_ERR_SUCCESS then (r.1, { r.2 with erem := [] }) else r
    | [a, b] =>
      let r := inst.writeGroup d
        [b64TblEnc (a >>> 2), b64TblEnc (a <<< 4 ||| b >>> 4), b64TblEnc (b <<< 2), 61]
      if r.1 = PHP_CONV_ERR_SUCCESS then (r.1, { r.2 with erem := [] }) else r
    -- should not happen
    | _ => (PHP_CONV_ERR_UNKNOWN, d)
  ⟨err, { inst with erem := d.erem, line_ccnt := d.line_ccnt }, d.ps, d.pd⟩

def consumeRemainder (inst : PhpConvBase64Encode) (d : Base64Encoding) :
    PhpConvErr × Base64Encoding :=
  match d.erem, d.ps with
  | [a], b :: c :: ps =>
    let r := inst.writeGroup d (chars a b c)
    if r.1 = PHP_CONV_ERR_SUCCESS then (r.1, { r.2 with erem := [], ps := ps }) else r
  | [a, b], c :: ps =>
    let r := inst.writeGroup d (chars a b c)
    if r.1 = PHP_CONV_ERR_SUCCESS then (r.1, { r.2 with erem := [], ps := ps }) else r
  | _, _ => (PHP_CONV_ERR_SUCCESS, d)

/-- The loop over the input from `ps` on. -/
def loop (inst : PhpConvBase64Encode) :
    List UInt8 → Base64Encoding → PhpConvErr × Base64Encoding
  | a :: b :: c :: ps, d =>
    let r := inst.writeGroup d (chars a b c)
    if r.1 = PHP_CONV_ERR_SUCCESS then inst.loop ps { r.2 with ps := ps } else r
  -- what is left over is kept for the next call
  | ps, d => (PHP_CONV_ERR_SUCCESS, { d with erem := d.erem ++ ps, ps := [] })

end PhpConvBase64Encode

/-- `php_conv_base64_encode_convert` -/
def phpConvBase64EncodeConvert (inst : PhpConvBase64Encode) (input : Option (List UInt8))
    (room : ℕ) : Option (ConvReply PhpConvBase64Encode) :=
  match input with
  | none => some (inst.flush room)
  | some ps =>
    let r := inst.consumeRemainder ⟨inst.erem, ps, [], room, inst.line_ccnt⟩
    let (err, d) := if r.1 = PHP_CONV_ERR_SUCCESS then inst.loop r.2.ps r.2 else r
    some ⟨err, { inst with erem := d.erem, line_ccnt := d.line_ccnt }, d.ps, d.pd⟩

/-! ## The characters of a group -/

set_option maxRecDepth 4000 in
theorem base64Alphabet_four :
    base64Alphabet ++ base64Alphabet ++ base64Alphabet ++ base64Alphabet =
      (List.range 256).map fun n => Base64.code (n % 64) := rfl

theorem b64TblEnc_eq (i : UInt8) : b64TblEnc i = Base64.symbol (i.toNat % 64) := by
  rw [b64TblEnc, base64Alphabet_four, List.getD_eq_getElem?_getD, List.getElem?_map,
    List.getElem?_range i.toNat_lt]
  rfl

theorem toNat_shiftLeft_or {a b k : UInt8} (hk : k.toNat < 8) (hb : b.toNat < 2 ^ k.toNat) :
    (a <<< k ||| b).toNat = a.toNat % 2 ^ (8 - k.toNat) * 2 ^ k.toNat + b.toNat := by
  have hshift : (a <<< k).toNat = (a.toNat % 2 ^ (8 - k.toNat)) <<< k.toNat := by
    rw [UInt8.toNat_shiftLeft, Nat.mod_eq_of_lt hk, Nat.shiftLeft_eq, Nat.shiftLeft_eq]
    conv_lhs =>
      rw [show 2 ^ 8 = 2 ^ (8 - k.toNat) * 2 ^ k.toNat by rw [← Nat.pow_add]; congr 1; omega]
    rw [Nat.mul_mod_mul_right]
  rw [UInt8.toNat_or, hshift, ← Nat.shiftLeft_add_eq_or_of_lt hb, Nat.shiftLeft_eq]

theorem b64TblEnc_first (a : UInt8) : b64TblEnc (a >>> 2) = Base64.symbol (a.toNat / 4) := by
  have ha := a.toNat_lt
  have h : (a >>> 2).toNat = a.toNat / 4 := by
    rw [UInt8.toNat_shiftRight, Nat.shiftRight_eq_div_pow]
    rfl
  rw [b64TblEnc_eq, h, Nat.mod_eq_of_lt (by omega)]

theorem b64TblEnc_second (a b : UInt8) :
    b64TblEnc (a <<< 4 ||| b >>> 4) = Base64.symbol (a.toNat % 4 * 16 + b.toNat / 16) := by
  have hb := b.toNat_lt
  have hlow : (b >>> 4).toNat = b.toNat / 16 := by
    rw [UInt8.toNat_shiftRight, Nat.shiftRight_eq_div_pow]
    rfl
  have h := toNat_shiftLeft_or (a := a) (b := b >>> 4) (k := 4) (by decide)
    (by rw [hlow, show UInt8.toNat 4 = 4 from rfl]; omega)
  rw [b64TblEnc_eq, h, hlow, show UInt8.toNat 4 = 4 from rfl]
  congr 1
  omega

theorem b64TblEnc_third (b c : UInt8) :
    b64TblEnc (b <<< 2 ||| c >>> 6) = Base64.symbol (b.toNat % 16 * 4 + c.toNat / 64) := by
  have hc := c.toNat_lt
  have hlow : (c >>> 6).toNat = c.toNat / 64 := by
    rw [UInt8.toNat_shiftRight, Nat.shiftRight_eq_div_pow]
    rfl
  have h := toNat_shiftLeft_or (a := b) (b := c >>> 6) (k := 2) (by decide)
    (by rw [hlow, show UInt8.toNat 2 = 2 from rfl]; omega)
  rw [b64TblEnc_eq, h, hlow, show UInt8.toNat 2 = 2 from rfl]
  congr 1
  omega

theorem chars_eq (a b c : UInt8) : PhpConvBase64Encode.chars a b c = Base64.group [a, b, c] := by
  rw [PhpConvBase64Encode.chars, b64TblEnc_first, b64TblEnc_second, b64TblEnc_third, b64TblEnc_eq,
    Base64.group]

theorem charsOne_eq (a : UInt8) :
    [b64TblEnc (a >>> 2), b64TblEnc (a <<< 4), 61, 61] = Base64.group [a] := by
  have h := b64TblEnc_second a 0
  rw [show a <<< 4 ||| (0 : UInt8) >>> 4 = a <<< 4 by simp] at h
  rw [b64TblEnc_first, h, Base64.group]
  rfl

theorem charsTwo_eq (a b : UInt8) :
    [b64TblEnc (a >>> 2), b64TblEnc (a <<< 4 ||| b >>> 4), b64TblEnc (b <<< 2), 61] =
      Base64.group [a, b] := by
  have h := b64TblEnc_third b 0
  rw [show b <<< 2 ||| (0 : UInt8) >>> 6 = b <<< 2 by simp] at h
  rw [b64TblEnc_first, b64TblEnc_second, h, Base64.group]
  rfl

/-! ## What a call owes -/

namespace PhpConvBase64Encode

/-- As `php_conv_open` makes it: a line that is broken has room for a group. -/
def Opened (inst : PhpConvBase64Encode) : Prop :=
  inst.lbchars ≠ none → 4 ≤ inst.line_len.toNat

/-- The text of these groups from some column on. -/
def textFrom (inst : PhpConvBase64Encode) (line_ccnt : UInt32) (gs : List (List UInt8)) :
    List UInt8 :=
  Base64.breakLines inst.lbchars inst.line_len.toNat line_ccnt.toNat gs

variable {inst : PhpConvBase64Encode} {d : Base64Encoding} {g : List UInt8}
  {gs : List (List UInt8)} {line_ccnt : UInt32}

theorem textFrom_break (g : List UInt8) (gs : List (List UInt8)) {lbchars : List UInt8}
    (ho : inst.Opened) (hlb : inst.lbchars = some lbchars)
    (hcnt : line_ccnt < 4) :
    inst.textFrom line_ccnt (g :: gs) = lbchars ++ inst.textFrom inst.line_len (g :: gs) := by
  have hlen : 4 ≤ inst.line_len.toNat := ho (by simp [hlb])
  have hcnt : line_ccnt.toNat < 4 := UInt32.lt_iff_toNat_lt.mp hcnt
  simp only [textFrom, hlb, Base64.breakLines, if_pos hcnt, if_neg (Nat.not_lt.mpr hlen),
    List.append_assoc]

theorem textFrom_cons (g : List UInt8) (gs : List (List UInt8))
    (h : inst.lbchars ≠ none → ¬ line_ccnt < 4) :
    inst.textFrom line_ccnt (g :: gs) = g ++ inst.textFrom (line_ccnt - 4) gs := by
  unfold textFrom
  cases hlb : inst.lbchars with
  | none =>
    -- without line breaks the column does not matter
    have hcol : ∀ (l m : ℕ) (gs : List (List UInt8)),
        Base64.breakLines none inst.line_len.toNat l gs =
          Base64.breakLines none inst.line_len.toNat m gs := by
      intro l m gs
      induction gs with
      | nil => rfl
      | cons g gs ih => rw [Base64.breakLines, Base64.breakLines, ih]
    rw [Base64.breakLines, hcol]
  | some lbchars =>
    have hcnt := h (by simp [hlb])
    have hsub : (line_ccnt - 4).toNat = line_ccnt.toNat - 4 :=
      UInt32.toNat_sub_of_le _ _ (UInt32.not_lt.mp hcnt)
    have hleft : ¬ line_ccnt.toNat < 4 := fun hlt => hcnt (UInt32.lt_iff_toNat_lt.mpr hlt)
    rw [Base64.breakLines, if_neg hleft, hsub]

/-- What `writeGroup` does when the groups `g :: gs` are owed: it writes `g`, or there is not
room for all that is owed and `g` stays owed. -/
structure GroupWritten (inst : PhpConvBase64Encode) (d : Base64Encoding) (g : List UInt8)
    (gs : List (List UInt8)) (r : PhpConvErr × Base64Encoding) : Prop where
  room : d.pd.length + d.ocnt = r.2.pd.length + r.2.ocnt
  erem : r.2.erem = d.erem
  ps : r.2.ps = d.ps
  text : r.1 = PHP_CONV_ERR_SUCCESS ∧
      d.pd ++ inst.textFrom d.line_ccnt (g :: gs) = r.2.pd ++ inst.textFrom r.2.line_ccnt gs ∨
    r.1 = PHP_CONV_ERR_TOO_BIG ∧
      d.pd ++ inst.textFrom d.line_ccnt (g :: gs) =
        r.2.pd ++ inst.textFrom r.2.line_ccnt (g :: gs) ∧
      d.ocnt < (inst.textFrom d.line_ccnt (g :: gs)).length

theorem groupWritten_chars (gs : List (List UInt8)) (hg : g.length = 4)
    (h : inst.lbchars ≠ none → ¬ d.line_ccnt < 4) :
    GroupWritten inst d g gs
      (if d.ocnt < 4 then (PHP_CONV_ERR_TOO_BIG, d)
      else (PHP_CONV_ERR_SUCCESS, { d with
        pd := d.pd ++ g
        ocnt := d.ocnt - 4
        line_ccnt := d.line_ccnt - 4 })) := by
  have htext := textFrom_cons g gs h
  split
  · rename_i hocnt
    refine ⟨rfl, rfl, rfl, Or.inr ⟨rfl, rfl, ?_⟩⟩
    rw [htext, List.length_append, hg]
    omega
  · rename_i hocnt
    refine ⟨?_, rfl, rfl, Or.inl ⟨rfl, ?_⟩⟩
    · simp only [List.length_append, hg]
      omega
    · rw [htext, List.append_assoc]

theorem writeGroup_spec (gs : List (List UInt8)) (ho : inst.Opened) (hg : g.length = 4) :
    GroupWritten inst d g gs (inst.writeGroup d g) := by
  unfold writeGroup lineBreak
  cases hlb : inst.lbchars with
  | none => exact groupWritten_chars gs hg fun h => absurd hlb h
  | some lbchars =>
    by_cases hcnt : d.line_ccnt < 4
    · have htext := textFrom_break g gs ho hlb hcnt
      dsimp only
      rw [if_pos hcnt]
      by_cases hocnt : d.ocnt < lbchars.length
      · rw [if_pos hocnt]
        refine ⟨rfl, rfl, rfl, Or.inr ⟨rfl, rfl, ?_⟩⟩
        rw [htext, List.length_append]
        omega
      · rw [if_neg hocnt]
        have hlen : ¬ inst.line_len < 4 := by
          rw [UInt32.lt_iff_toNat_lt]
          exact Nat.not_lt.mpr (ho (by simp [hlb]))
        obtain ⟨hroom, herem, hps, hwritten⟩ := groupWritten_chars
          (d := { d with
            pd := d.pd ++ lbchars
            ocnt := d.ocnt - lbchars.length
            line_ccnt := inst.line_len }) gs hg fun _ => hlen
        refine ⟨?_, herem, hps, ?_⟩
        · refine Eq.trans ?_ hroom
          simp only [List.length_append]
          omega
        · rw [htext, ← List.append_assoc, List.length_append]
          rcases hwritten with ⟨hok, hw⟩ | ⟨hfull, hw, hlt⟩
          · exact Or.inl ⟨hok, hw⟩
          · dsimp only at hlt
            exact Or.inr ⟨hfull, hw, by omega⟩
    · dsimp only
      rw [if_neg hcnt]
      exact groupWritten_chars gs hg fun _ => hcnt

/-! ## Calls -/

/-- The text still owed in the course of a call, when `more` follows its input. -/
def owed (inst : PhpConvBase64Encode) (d : Base64Encoding) (more : List UInt8) : List UInt8 :=
  inst.textFrom d.line_ccnt (Base64.groups (d.erem ++ (d.ps ++ more)))

/-- What each part of a call leaves as it is: what is written and owed together, and the size
of the buffer. -/
structure Advances (inst : PhpConvBase64Encode) (more : List UInt8) (d d' : Base64Encoding) :
    Prop where
  room : d.pd.length + d.ocnt = d'.pd.length + d'.ocnt
  text : d.pd ++ inst.owed d more = d'.pd ++ inst.owed d' more

variable {more ps : List UInt8} {d' d'' : Base64Encoding} {a b c : UInt8}

theorem Advances.trans (h : Advances inst more d d') (h' : Advances inst more d' d'') :
    Advances inst more d d'' :=
  ⟨h.room.trans h'.room, h.text.trans h'.text⟩

theorem Advances.lt_iff (h : Advances inst more d d') :
    d.ocnt < (inst.owed d more).length ↔ d'.ocnt < (inst.owed d' more).length := by
  have hroom := h.room
  have htext := congrArg List.length h.text
  simp only [List.length_append] at htext
  omega

/-- How a part of a call ends: with all done, or without room for what is owed. -/
structure PartDone (inst : PhpConvBase64Encode) (more : List UInt8) (d : Base64Encoding)
    (r : PhpConvErr × Base64Encoding) : Prop where
  advances : Advances inst more d r.2
  erem : r.2.erem.length ≤ 2
  ends : r.1 = PHP_CONV_ERR_SUCCESS ∨
    r.1 = PHP_CONV_ERR_TOO_BIG ∧ r.2.ocnt < (inst.owed r.2 more).length

theorem writeGroup_next (ho : inst.Opened) (he : d.erem.length ≤ 2)
    (hnext : d.erem ++ d.ps = a :: b :: c :: ps) (more : List UInt8) :
    let r := inst.writeGroup d (chars a b c)
    PartDone inst more d
        (if r.1 = PHP_CONV_ERR_SUCCESS then (r.1, { r.2 with erem := [], ps := ps }) else r) := by
  intro r
  have hgroups : Base64.groups (d.erem ++ (d.ps ++ more)) =
      Base64.group [a, b, c] :: Base64.groups (ps ++ more) := by
    rw [← List.append_assoc, hnext]
    rfl
  obtain ⟨hroom, herem, hps, htext⟩ : GroupWritten inst d _ (Base64.groups (ps ++ more)) r :=
    writeGroup_spec _ ho (by rfl : (chars a b c).length = 4)
  rw [chars_eq, ← hgroups] at htext
  rcases htext with ⟨hok, htext⟩ | ⟨hfull, htext, hlt⟩
  · rw [if_pos hok]
    exact ⟨⟨hroom, htext⟩, by simp, Or.inl hok⟩
  · rw [if_neg (by rw [hfull]; decide)]
    have hadv : Advances inst more d r.2 := ⟨hroom, by rw [owed, owed, herem, hps, htext]⟩
    exact ⟨hadv, by rw [herem]; exact he, Or.inr ⟨hfull, hadv.lt_iff.mp hlt⟩⟩

theorem consumeRemainder_spec (ho : inst.Opened) (he : d.erem.length ≤ 2) (more : List UInt8) :
    let r := inst.consumeRemainder d
    PartDone inst more d r ∧
      (r.1 = PHP_CONV_ERR_SUCCESS → r.2.erem = [] ∨ r.2.erem.length + r.2.ps.length ≤ 2) := by
  have hsame : PartDone inst more d (PHP_CONV_ERR_SUCCESS, d) :=
    ⟨⟨rfl, rfl⟩, he, Or.inl rfl⟩
  have hwritten : ∀ {r : PhpConvErr × Base64Encoding} {ps : List UInt8},
      (if r.1 = PHP_CONV_ERR_SUCCESS then (r.1, { r.2 with erem := [], ps := ps }) else r).1 =
          PHP_CONV_ERR_SUCCESS →
        (if r.1 = PHP_CONV_ERR_SUCCESS then (r.1, { r.2 with erem := [], ps := ps })
          else r).2.erem = [] := by
    intro r ps h
    split at h
    · rename_i hok
      rw [if_pos hok]
    · rename_i hok
      exact absurd h hok
  unfold consumeRemainder
  dsimp only
  split
  · rename_i a b c ps herem hps
    exact ⟨writeGroup_next ho he (by rw [herem, hps]; rfl) more, fun h => Or.inl (hwritten h)⟩
  · rename_i a b c ps herem hps
    exact ⟨writeGroup_next ho he (by rw [herem, hps]; rfl) more, fun h => Or.inl (hwritten h)⟩
  · rename_i hone htwo
    refine ⟨hsame, fun _ => ?_⟩
    cases herem : d.erem with
    | nil => exact Or.inl rfl
    | cons a e =>
      refine Or.inr ?_
      cases e with
      | nil =>
        cases hps : d.ps with
        | nil => simp
        | cons b ps =>
          cases ps with
          | nil => simp
          | cons c ps => exact absurd hps (hone a b c ps herem)
      | cons b e =>
        cases e with
        | nil =>
          cases hps : d.ps with
          | nil => simp
          | cons c ps => exact absurd hps (htwo a b c ps herem)
        | cons c e =>
          rw [herem] at he
          simp at he

theorem loop_spec (ho : inst.Opened) (hps : d.ps = ps) (he : d.erem.length ≤ 2)
    (hrem : d.erem = [] ∨ d.erem.length + ps.length ≤ 2) (more : List UInt8) :
    let r := inst.loop ps d
    PartDone inst more d r ∧ (r.1 = PHP_CONV_ERR_SUCCESS → r.2.ps = []) := by
  induction ps, d using loop.induct inst with
  | case1 a b c ps d r hok ih =>
    have herem : d.erem = [] := hrem.resolve_right (by simp only [List.length_cons]; omega)
    have hnext : d.erem ++ d.ps = a :: b :: c :: ps := by rw [herem, hps]; rfl
    have hkept : r.2.erem = [] :=
      (writeGroup_spec [] ho (by rfl : (chars a b c).length = 4)).erem.trans herem
    have hstep : PartDone inst more d _ := writeGroup_next ho he hnext more
    rw [if_pos hok, ← hkept] at hstep
    obtain ⟨hdone, hall⟩ := ih rfl hstep.erem (Or.inl hkept)
    rw [loop, if_pos hok]
    exact ⟨⟨hstep.advances.trans hdone.advances, hdone.erem, hdone.ends⟩, hall⟩
  | case2 a b c ps d r hok =>
    have herem : d.erem = [] := hrem.resolve_right (by simp only [List.length_cons]; omega)
    have hnext : d.erem ++ d.ps = a :: b :: c :: ps := by rw [herem, hps]; rfl
    have hstep : PartDone inst more d _ := writeGroup_next ho he hnext more
    rw [if_neg hok] at hstep
    rw [loop, if_neg hok]
    exact ⟨hstep, fun h => absurd h hok⟩
  | case3 ps d h =>
    have hlen : (d.erem ++ ps).length ≤ 2 := by
      rw [List.length_append]
      rcases hrem with he' | hle
      · rw [he', List.length_nil, Nat.zero_add]
        cases ps with
        | nil => simp
        | cons a ps =>
          cases ps with
          | nil => simp
          | cons b ps =>
            cases ps with
            | nil => simp
            | cons c ps => exact (h a b c ps rfl).elim
      · exact hle
    rw [loop.eq_2 inst ps d h]
    refine ⟨⟨⟨rfl, ?_⟩, hlen, Or.inl rfl⟩, fun _ => rfl⟩
    simp only [owed, hps, List.append_assoc, List.nil_append]

/-- What the converter owes between two calls: the text of what it keeps and what comes. -/
structure Owes (inst : PhpConvBase64Encode) (input text : List UInt8) : Prop where
  opened : inst.Opened
  erem : inst.erem.length ≤ 2
  text : text = inst.textFrom inst.line_ccnt (Base64.groups (inst.erem ++ input))

theorem Owes.of_partDone {room : ℕ} {text : List UInt8} {r : PhpConvErr × Base64Encoding}
    (ho : inst.Opened) (hd : d.pd = []) (hocnt : d.ocnt = room) (htext : text = inst.owed d more)
    (h : PartDone inst more d r) :
    let state := { inst with erem := r.2.erem, line_ccnt := r.2.line_ccnt }
    text = r.2.pd ++ inst.owed r.2 more ∧ r.2.pd.length ≤ room ∧
      state.Owes (r.2.ps ++ more) (inst.owed r.2 more) ∧
      (r.1 = PHP_CONV_ERR_SUCCESS ∨ r.1 = PHP_CONV_ERR_TOO_BIG ∧ room < text.length) := by
  have hroom := h.advances.room
  have hwhole := h.advances.text
  rw [hd, List.nil_append, ← htext] at hwhole
  rw [hd, hocnt, List.length_nil] at hroom
  refine ⟨hwhole, by omega, ⟨ho, h.erem, rfl⟩, ?_⟩
  rcases h.ends with hok | ⟨hfull, hlt⟩
  · exact Or.inl hok
  · refine Or.inr ⟨hfull, ?_⟩
    rw [htext, ← hocnt]
    exact h.advances.lt_iff.mpr hlt

theorem Owes.convert_some (room : ℕ) {text : List UInt8} (h : inst.Owes (ps ++ more) text) :
    ∃ r later, phpConvBase64EncodeConvert inst (some ps) room = some r ∧
      text = r.out ++ later ∧ r.out.length ≤ room ∧ r.state.Owes (r.rest ++ more) later ∧
      r.Ends PHP_CONV_ERR_SUCCESS PHP_CONV_ERR_TOO_BIG room text ∧
      (r.err = PHP_CONV_ERR_SUCCESS → r.state.Owes more later) := by
  obtain ⟨hrem, hkept⟩ := consumeRemainder_spec (d := ⟨inst.erem, ps, [], room, inst.line_ccnt⟩)
    h.opened h.erem more
  have hwhole : ∃ r, phpConvBase64EncodeConvert inst (some ps) room =
      some ⟨r.1, { inst with erem := r.2.erem, line_ccnt := r.2.line_ccnt }, r.2.ps, r.2.pd⟩ ∧
      PartDone inst more ⟨inst.erem, ps, [], room, inst.line_ccnt⟩ r ∧
      (r.1 = PHP_CONV_ERR_SUCCESS → r.2.ps = []) := by
    by_cases hok : (inst.consumeRemainder ⟨inst.erem, ps, [], room, inst.line_ccnt⟩).1 =
        PHP_CONV_ERR_SUCCESS
    · obtain ⟨hloop, hall⟩ := loop_spec h.opened rfl hrem.erem (hkept hok) more
      refine ⟨_, by rw [phpConvBase64EncodeConvert, if_pos hok],
        ⟨hrem.advances.trans hloop.advances, hloop.erem, hloop.ends⟩, hall⟩
    · exact ⟨_, by rw [phpConvBase64EncodeConvert, if_neg hok], hrem, fun hok' => absurd hok' hok⟩
  obtain ⟨r, hr, hdone, hall⟩ := hwhole
  obtain ⟨htext, hroom, hstate, hends⟩ := Owes.of_partDone h.opened rfl rfl h.text hdone
  refine ⟨_, _, hr, htext, hroom, hstate, hends, fun hok => ?_⟩
  rw [hall hok] at hstate
  exact hstate

theorem writeGroup_last (ho : inst.Opened) (he : d.erem.length ≤ 2) (hps : d.ps = [])
    (hgroups : Base64.groups d.erem = [g]) (hg : g.length = 4) :
    let r := inst.writeGroup d g
    let r' := if r.1 = PHP_CONV_ERR_SUCCESS then (r.1, { r.2 with erem := [] }) else r
    PartDone inst [] d r' ∧ r'.2.ps = [] ∧
      (r'.1 = PHP_CONV_ERR_SUCCESS → inst.owed r'.2 [] = []) := by
  intro r r'
  obtain ⟨hroom, herem, hkept, htext⟩ : GroupWritten inst d g [] r := writeGroup_spec _ ho hg
  have howed : inst.owed d [] = inst.textFrom d.line_ccnt [g] := by
    rw [owed, hps, List.append_nil, List.append_nil, hgroups]
  rw [← howed] at htext
  rcases htext with ⟨hok, htext⟩ | ⟨hfull, htext, hlt⟩
  · have hr' : r' = (r.1, { r.2 with erem := [] }) := if_pos hok
    have hempty : inst.owed r'.2 [] = [] := by
      rw [hr']
      simp only [owed, hkept, hps]
      rfl
    refine ⟨⟨⟨?_, ?_⟩, ?_, ?_⟩, ?_, fun _ => hempty⟩
    · rw [hr']
      exact hroom
    · rw [hempty, hr']
      exact htext
    · rw [hr']
      simp
    · rw [hr']
      exact Or.inl hok
    · rw [hr']
      exact hkept.trans hps
  · have hne : r.1 ≠ PHP_CONV_ERR_SUCCESS := by
      rw [hfull]
      decide
    have hr' : r' = r := if_neg hne
    have hadv : Advances inst [] d r.2 := by
      refine ⟨hroom, ?_⟩
      rw [htext, owed, herem, hkept, hps, List.append_nil, List.append_nil, hgroups]
    rw [hr']
    exact ⟨⟨hadv, by rw [herem]; exact he, Or.inr ⟨hfull, hadv.lt_iff.mp hlt⟩⟩,
      hkept.trans hps, fun h => absurd h hne⟩

theorem Owes.convert_none (room : ℕ) {text : List UInt8} (h : inst.Owes [] text) :
    ∃ r later, phpConvBase64EncodeConvert inst none room = some r ∧
      text = r.out ++ later ∧ r.out.length ≤ room ∧ r.state.Owes [] later ∧
      r.Ends PHP_CONV_ERR_SUCCESS PHP_CONV_ERR_TOO_BIG room text ∧
      (r.err = PHP_CONV_ERR_SUCCESS → later = []) := by
  have hwhole : ∃ r, phpConvBase64EncodeConvert inst none room =
      some ⟨r.1, { inst with erem := r.2.erem, line_ccnt := r.2.line_ccnt }, r.2.ps, r.2.pd⟩ ∧
      PartDone inst [] ⟨inst.erem, [], [], room, inst.line_ccnt⟩ r ∧ r.2.ps = [] ∧
      (r.1 = PHP_CONV_ERR_SUCCESS → inst.owed r.2 [] = []) := by
    unfold phpConvBase64EncodeConvert flush
    have he := h.erem
    cases herem : inst.erem with
    | nil =>
      exact ⟨(PHP_CONV_ERR_SUCCESS, ⟨[], [], [], room, inst.line_ccnt⟩), rfl,
        ⟨⟨rfl, rfl⟩, by simp, Or.inl rfl⟩, rfl, fun _ => rfl⟩
    | cons a e =>
      cases e with
      | nil =>
        refine ⟨_, rfl, ?_⟩
        rw [charsOne_eq]
        exact writeGroup_last h.opened (by simp) rfl rfl rfl
      | cons b e =>
        cases e with
        | nil =>
          refine ⟨_, rfl, ?_⟩
          rw [charsTwo_eq]
          exact writeGroup_last h.opened (by simp) rfl rfl rfl
        | cons c e =>
          rw [herem] at he
          simp at he
  obtain ⟨r, hr, hdone, hps, hall⟩ := hwhole
  obtain ⟨htext, hroom, hstate, hends⟩ := Owes.of_partDone h.opened rfl rfl h.text hdone
  rw [hps] at hstate
  exact ⟨_, _, hr, htext, hroom, hstate, hends, hall⟩

theorem keeps_owes : Keeps phpConvBase64EncodeConvert PHP_CONV_ERR_SUCCESS PHP_CONV_ERR_TOO_BIG
    Owes Owes :=
  ⟨id, fun room h => h.convert_some room, fun room h => h.convert_none room⟩

end PhpConvBase64Encode

/-- **Runs of the encoder.** Whatever the pieces and the buffers, the standard text comes out,
with a line break before each group that would overrun its line. -/
theorem phpConvBase64EncodeCtor_converts (line_len : UInt32) (lbchars : Option (List UInt8))
    (hlen : lbchars ≠ none → 4 ≤ line_len.toNat) (x : List UInt8) :
    ConvConverts phpConvBase64EncodeConvert (phpConvBase64EncodeCtor line_len lbchars) x
      (Base64.text lbchars line_len.toNat x) :=
  PhpConvBase64Encode.keeps_owes.converts (by decide) ⟨hlen, by simp [phpConvBase64EncodeCtor], rfl⟩

end PhpRuntime.Filters

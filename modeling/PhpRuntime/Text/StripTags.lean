import PhpRuntime.Text.CInt
import PhpRuntime.Text.StrReplace

/-!
# `php_strip_tags_ex`

A scanner with five states: outside of tags, in a tag, in PHP code, in a declaration and in a
comment. Outside of tags the characters are copied to the place that the text is read from, which
is why a copy of the text is scanned. With a list of allowed tags the current tag is kept in a
buffer of its own, that grows before a character is put to it.
-/

set_option autoImplicit false

namespace PhpRuntime.Text

open PhpRuntime.Lib

variable (allow : Option (List UInt8)) (allowTagSpaces : Bool) (before : UInt8) (len : ℕ)

/-! ## The buffer of a tag -/

/-- `PHP_TAG_BUF_SIZE` -/
def PHP_TAG_BUF_SIZE : ℕ := 1023

/-- `tbuf`: its allocation, and what has been put to it, up to `tp`. -/
structure TagBuffer where
  alloced : ℕ
  bytes : List UInt8
  deriving DecidableEq, Repr

/-- `tbuf = emalloc(PHP_TAG_BUF_SIZE + 1); tp = tbuf;` -/
def TagBuffer.new : TagBuffer := ⟨PHP_TAG_BUF_SIZE + 1, []⟩

/-- `if (tp - tbuf >= PHP_TAG_BUF_SIZE) tbuf = erealloc(tbuf, (tp - tbuf) + PHP_TAG_BUF_SIZE + 1);`
The rest of this branch moves `tp` to the new place. -/
def TagBuffer.grow (t : TagBuffer) : TagBuffer :=
  if PHP_TAG_BUF_SIZE ≤ t.bytes.length then
    { t with alloced := t.bytes.length + PHP_TAG_BUF_SIZE + 1 }
  else t

/-- `*(tp++) = c;` -/
def TagBuffer.put (t : TagBuffer) (c : UInt8) : Except Undefined TagBuffer :=
  if t.bytes.length < t.alloced then .ok { t with bytes := t.bytes ++ [c] }
  else .error .outsideBuffer

/-- Both, which the function does at each place where it keeps a character of a tag. -/
def TagBuffer.push (t : TagBuffer) (c : UInt8) : Except Undefined TagBuffer := t.grow.put c

/-- `*tp = '\0';` The character behind the tag is not kept. -/
def TagBuffer.terminate (t : TagBuffer) : Except Undefined TagBuffer :=
  if t.bytes.length < t.alloced then .ok t else .error .outsideBuffer

/-- `tp = tbuf;` -/
def TagBuffer.clear (t : TagBuffer) : TagBuffer := { t with bytes := [] }

/-- `strstr(s, t)` of two terminated strings, as a truth value. -/
def strstr (s t : List UInt8) : Bool :=
  t.takeWhile (· ≠ 0) <:+: s.takeWhile (· ≠ 0)

/-- The loop of `php_tag_find`: what is written to `norm`. `seen` is its `state`. -/
def normalizeTag : Bool → List UInt8 → Except Undefined (List UInt8)
  | _, [] => .error .outsideString
  | seen, t :: tag =>
    let c := tolower t
    if c = 60 then do
      let norm ← normalizeTag seen tag
      .ok (c :: norm)
    else if c = 62 then .ok []
    else if isspace c = false then do
      let norm ← normalizeTag true tag
      .ok (if c = 47 then norm else c :: norm)
    else if seen then .ok []
    else normalizeTag seen tag

/-- `php_tag_find`. `norm` has room for a character more than the tag has. -/
def phpTagFind (tag set : List UInt8) : Except Undefined Bool :=
  if tag.length = 0 then .ok false
  else do
    let norm ← normalizeTag false tag
    if tag.length + 1 < norm.length + 2 then .error .outsideBuffer
    else .ok (strstr set (norm ++ [62]))

/-! ## The scanner -/

/-- The variables of `php_strip_tags_ex`. `out` is what stands before `rp`. -/
structure Stripping where
  state : ℤ
  lc : UInt8
  br : ℤ
  depth : ℤ
  inQ : UInt8
  tag : TagBuffer
  out : List UInt8
  deriving DecidableEq, Repr

/-- `memcpy(rp, bytes, n); rp += n;` in the string that is stripped. -/
def Stripping.emit (s : Stripping) (bytes : List UInt8) : Except Undefined Stripping :=
  if s.out.length + bytes.length ≤ len then .ok { s with out := s.out ++ bytes }
  else .error .outsideBuffer

/-- `if (php_tag_find(tbuf, tp - tbuf, allow)) { memcpy(rp, tbuf, tp - tbuf); rp += tp - tbuf; }` -/
def Stripping.emitFound (s : Stripping) (found : Bool) (bytes : List UInt8) :
    Except Undefined Stripping :=
  if found then s.emit len bytes else .ok s

/-- `*(tp++) = c;` where there is a list of allowed tags. -/
def Stripping.keep (s : Stripping) (c : UInt8) : Except Undefined Stripping :=
  if allow.isSome then do
    let tag ← s.tag.push c
    .ok { s with tag := tag }
  else .ok s

/-- `reg_char` -/
def regChar (c : UInt8) (s : Stripping) : Except Undefined Stripping :=
  if s.state = 0 then s.emit len [c]
  else if s.state = 1 then s.keep allow c
  else .ok s

/-- `in_q = state = 0; tp = tbuf;` -/
def Stripping.leave (s : Stripping) : Stripping :=
  { s with inQ := 0, state := 0, tag := s.tag.clear }

/-- `'<'` -/
def openTag (c ahead : UInt8) (s : Stripping) : Except Undefined Stripping :=
  if s.inQ ≠ 0 then .ok s
  else if isspace ahead = true ∧ allowTagSpaces = false then regChar allow len c s
  else if s.state = 0 then Stripping.keep allow { s with lc := c, state := 1 } c
  else if s.state = 1 then .ok { s with depth := s.depth + 1 }
  else .ok s

/-- `'('` with `step` one, and `')'` with `step` minus one -/
def bracket (c : UInt8) (step : ℤ) (s : Stripping) : Except Undefined Stripping :=
  if s.state = 2 then
    if s.lc ≠ 34 ∧ s.lc ≠ 39 then .ok { s with lc := c, br := s.br + step } else .ok s
  else regChar allow len c s

/-- What follows the end of a tag where there is a list of allowed tags. -/
def finishTag (set : List UInt8) (c : UInt8) (s : Stripping) : Except Undefined Stripping := do
  let tag ← s.tag.push c
  let tag ← tag.terminate
  let found ← phpTagFind tag.bytes set
  let s ← s.emitFound len found tag.bytes
  .ok { s with tag := tag.clear }

/-- `'>'`. `behind` are the characters before this one, the last one first. -/
def closeTag (behind : List UInt8) (c : UInt8) (s : Stripping) : Except Undefined Stripping :=
  if s.depth ≠ 0 then .ok { s with depth := s.depth - 1 }
  else if s.inQ ≠ 0 then .ok s
  else if s.state = 1 then
    let s := { s with lc := c, inQ := 0, state := 0 }
    match allow with
    | some set => finishTag len set c s
    | none => .ok s
  else if s.state = 2 then
    if s.br = 0 ∧ s.lc ≠ 34 ∧ behind.headD before = 63 then .ok s.leave else .ok s
  else if s.state = 3 then .ok s.leave
  else if s.state = 4 then
    if 2 ≤ behind.length ∧ behind.getD 0 0 = 45 ∧ behind.getD 1 0 = 45 then .ok s.leave
    else .ok s
  else s.emit len [c]

/-- The second half of the case of quotes: `in_q` is the quote that is open. -/
def toggleQuote (behind : List UInt8) (c : UInt8) (s : Stripping) : Stripping :=
  if s.state ≠ 0 ∧ behind ≠ [] ∧ (s.state = 1 ∨ behind.headD before ≠ 92) ∧
      (s.inQ = 0 ∨ c = s.inQ) then
    { s with inQ := if s.inQ ≠ 0 then 0 else c }
  else s

/-- `'"'` and `'\''` -/
def quote (behind : List UInt8) (c : UInt8) (s : Stripping) : Except Undefined Stripping :=
  if s.state = 4 then .ok s
  else if s.state = 2 ∧ behind.headD before ≠ 92 then
    .ok (toggleQuote before behind c
      { s with lc := if s.lc = c then 0 else if s.lc ≠ 92 then c else s.lc })
  else do
    let s ← regChar allow len c s
    .ok (toggleQuote before behind c s)

/-- `'!'` -/
def exclamation (behind : List UInt8) (c : UInt8) (s : Stripping) : Except Undefined Stripping :=
  if s.state = 1 ∧ behind.headD before = 60 then .ok { s with state := 3, lc := c }
  else regChar allow len c s

/-- `'-'` -/
def dash (behind : List UInt8) (c : UInt8) (s : Stripping) : Except Undefined Stripping :=
  if s.state = 3 ∧ 2 ≤ behind.length ∧ behind.getD 0 0 = 45 ∧ behind.getD 1 0 = 33 then
    .ok { s with state := 4 }
  else regChar allow len c s

/-- `'l'` and `'L'`: with `xm` before it this is not PHP code. -/
def letterL (behind : List UInt8) (c : UInt8) (s : Stripping) : Except Undefined Stripping :=
  if s.state = 2 ∧ 2 < behind.length ∧ (behind.take 2).map tolower = [109, 120] then
    .ok { s with state := 1 }
  else regChar allow len c s

/-- `'E'` and `'e'`: a document type declaration is like a tag. -/
def letterE (behind : List UInt8) (c : UInt8) (s : Stripping) : Except Undefined Stripping :=
  if s.state = 3 ∧ 6 < behind.length ∧
      (behind.take 6).map tolower = [112, 121, 116, 99, 111, 100] then
    .ok { s with state := 1 }
  else letterL allow len behind c s

/-- `'?'`, that falls through to the letters. -/
def question (behind : List UInt8) (c : UInt8) (s : Stripping) : Except Undefined Stripping :=
  if s.state = 1 ∧ behind.headD before = 60 then .ok { s with br := 0, state := 2 }
  else letterE allow len behind c s

/-- The `switch`. `ahead` is the character behind this one. -/
def stripChar (behind : List UInt8) (c ahead : UInt8) (s : Stripping) :
    Except Undefined Stripping :=
  if c = 0 then .ok s
  else if c = 60 then openTag allow allowTagSpaces len c ahead s
  else if c = 40 then bracket allow len c 1 s
  else if c = 41 then bracket allow len c (-1) s
  else if c = 62 then closeTag allow before len behind c s
  else if c = 34 ∨ c = 39 then quote allow before len behind c s
  else if c = 33 then exclamation allow before len behind c s
  else if c = 45 then dash allow len behind c s
  else if c = 63 then question allow before len behind c s
  else if c = 69 ∨ c = 101 then letterE allow len behind c s
  else if c = 108 ∨ c = 76 then letterL allow len behind c s
  else regChar allow len c s

/-- The loop over the copy, which is terminated. -/
def stripLoop : List UInt8 → List UInt8 → Stripping → Except Undefined Stripping
  | _, [], s => .ok s
  | behind, c :: rest, s => do
    let s ← stripChar allow allowTagSpaces before len behind c (rest.headD 0) s
    stripLoop (c :: behind) rest s

/-- `php_strip_tags_ex`: the text that is left, and the state for the next call. `before` is what
stands in memory before the copy of the text. -/
def phpStripTagsEx (rbuf : List UInt8) (state : ℤ) : Except Undefined (List UInt8 × ℤ) := do
  let s ← stripLoop (allow.map strtolower) allowTagSpaces before rbuf.length [] rbuf
    ⟨state, 0, 0, 0, 0, TagBuffer.new, []⟩
  .ok (s.out, s.state)

/-! ## Bounds -/

/-- The buffer of a tag has at least its first size. -/
def TagBuffer.Sound (t : TagBuffer) : Prop := PHP_TAG_BUF_SIZE < t.alloced

/-- What is kept of `n` characters is not more than that. -/
def Bounded (n : ℕ) (s : Stripping) : Prop :=
  s.tag.Sound ∧ s.out.length + s.tag.bytes.length ≤ n

variable {n : ℕ} {s : Stripping} {behind : List UInt8} {c ahead : UInt8} {allow allowTagSpaces}
  {before len}

theorem Bounded.mono (h : Bounded n s) {m : ℕ} (hm : n ≤ m) : Bounded m s :=
  ⟨h.1, h.2.trans hm⟩

theorem TagBuffer.push_returns {t : TagBuffer} (h : t.Sound) (c : UInt8) :
    Returns (t.push c) fun t' =>
      t'.Sound ∧ t'.bytes = t.bytes ++ [c] ∧ t'.bytes.length < t'.alloced := by
  unfold TagBuffer.Sound at h
  unfold TagBuffer.push TagBuffer.grow
  split
  · next hfull =>
    rw [TagBuffer.put, if_pos (by simp only; omega)]
    refine Returns.ok ⟨?_, rfl, ?_⟩
    · simp only [TagBuffer.Sound]
      omega
    · simp only [List.length_append, List.length_singleton]
      have hsize : 0 < PHP_TAG_BUF_SIZE := by decide
      omega
  · next hroom =>
    rw [TagBuffer.put, if_pos (by omega)]
    refine Returns.ok ⟨h, rfl, ?_⟩
    simp only [List.length_append, List.length_singleton]
    omega

theorem emit_returns (bytes : List UInt8) (hlen : s.out.length + bytes.length ≤ len) :
    Returns (s.emit len bytes) (· = { s with out := s.out ++ bytes }) := by
  rw [Stripping.emit, if_pos hlen]
  exact Returns.ok rfl

theorem keep_returns (h : Bounded n s) (c : UInt8) :
    Returns (s.keep allow c) (Bounded (n + 1)) := by
  unfold Stripping.keep
  refine Returns.ite (fun _ => ?_) (fun _ => Returns.ok (h.mono (Nat.le_succ n)))
  refine (TagBuffer.push_returns h.1 c).bind fun t ⟨ht, hbytes, _⟩ => Returns.ok ⟨ht, ?_⟩
  have hle := h.2
  simp only [hbytes, List.length_append, List.length_singleton]
  omega

theorem emit_bounded (h : Bounded n s) (hn : n < len) (c : UInt8) :
    Returns (s.emit len [c]) (Bounded (n + 1)) := by
  have hle := h.2
  refine (emit_returns [c] ?_).mono ?_
  · rw [List.length_singleton]
    omega
  · rintro s' rfl
    refine ⟨h.1, ?_⟩
    simp only [List.length_append, List.length_singleton]
    omega

theorem regChar_returns (h : Bounded n s) (hn : n < len) (c : UInt8) :
    Returns (regChar allow len c s) (Bounded (n + 1)) := by
  unfold regChar
  refine Returns.ite (fun _ => emit_bounded h hn c) fun _ => ?_
  exact Returns.ite (fun _ => keep_returns h c) fun _ => Returns.ok (h.mono (Nat.le_succ n))

theorem leave_bounded (h : Bounded n s) : Bounded (n + 1) s.leave := by
  have hle := h.2
  refine ⟨h.1, ?_⟩
  simp only [Stripping.leave, TagBuffer.clear, List.length_nil]
  omega

theorem toggleQuote_bounded (h : Bounded n s) : Bounded n (toggleQuote before behind c s) := by
  unfold toggleQuote
  split
  · exact h
  · exact h

theorem normalizeTag_returns (seen : Bool) (tag : List UInt8) :
    Returns (normalizeTag seen (tag ++ [62])) (·.length ≤ tag.length) := by
  induction tag generalizing seen with
  | nil => exact Returns.ok (Nat.le_refl 0)
  | cons t tag ih =>
    rw [List.cons_append, normalizeTag]
    refine Returns.ite (fun _ => ?_) fun _ => ?_
    · refine (ih seen).bind fun norm hnorm => Returns.ok ?_
      exact Nat.succ_le_succ hnorm
    · refine Returns.ite (fun _ => Returns.ok (Nat.zero_le _)) fun _ => ?_
      refine Returns.ite (fun _ => ?_) fun _ => ?_
      · refine (ih true).bind fun norm hnorm => Returns.ok ?_
        simp only [List.length_cons]
        split
        · omega
        · simp only [List.length_cons]
          omega
      · refine Returns.ite (fun _ => Returns.ok (Nat.zero_le _)) fun _ => ?_
        exact (ih seen).mono fun norm hnorm => Nat.le_succ_of_le hnorm

theorem phpTagFind_returns (tag set : List UInt8) :
    Returns (phpTagFind (tag ++ [62]) set) fun _ => True := by
  unfold phpTagFind
  refine Returns.ite (fun _ => Returns.ok trivial) fun _ => ?_
  refine (normalizeTag_returns false tag).bind fun norm hnorm => ?_
  rw [if_neg (by simpa using hnorm)]
  exact Returns.ok trivial

theorem finishTag_returns (h : Bounded n s) (hn : n < len) (set : List UInt8) :
    Returns (finishTag len set 62 s) (Bounded (n + 1)) := by
  have hle := h.2
  unfold finishTag
  refine (TagBuffer.push_returns h.1 62).bind fun t ⟨ht, hbytes, hroom⟩ => ?_
  rw [TagBuffer.terminate, if_pos hroom, ok_bind, hbytes]
  refine (phpTagFind_returns s.tag.bytes set).bind fun found _ => ?_
  have hlength : (s.tag.bytes ++ [(62 : UInt8)]).length = s.tag.bytes.length + 1 := by simp
  have hout : Returns (s.emitFound len found (s.tag.bytes ++ [62]))
      fun s' => s'.out.length ≤ n + 1 := by
    refine Returns.ite (fun _ => ?_) fun _ => Returns.ok (by omega)
    refine (emit_returns _ (by omega)).mono ?_
    rintro s' rfl
    rw [List.length_append]
    omega
  refine hout.bind fun s' hs' => Returns.ok ?_
  exact ⟨ht, by simpa [TagBuffer.clear] using hs'⟩

theorem closeTag_returns (h : Bounded n s) (hn : n < len) :
    Returns (closeTag allow before len behind 62 s) (Bounded (n + 1)) := by
  have hsame : Returns (.ok s : Except Undefined Stripping) (Bounded (n + 1)) :=
    Returns.ok (h.mono (Nat.le_succ n))
  have hleave : Returns (.ok s.leave : Except Undefined Stripping) (Bounded (n + 1)) :=
    Returns.ok (leave_bounded h)
  unfold closeTag
  refine Returns.ite (fun _ => Returns.ok (h.mono (Nat.le_succ n))) fun _ => ?_
  refine Returns.ite (fun _ => hsame) fun _ => ?_
  refine Returns.ite (fun _ => ?_) fun _ => ?_
  · cases allow with
    | none => exact Returns.ok (h.mono (Nat.le_succ n))
    | some set =>
      refine finishTag_returns (s := { s with lc := 62, inQ := 0, state := 0 }) ?_ hn set
      exact h
  · refine Returns.ite (fun _ => Returns.ite (fun _ => hleave) fun _ => hsame) fun _ => ?_
    refine Returns.ite (fun _ => hleave) fun _ => ?_
    refine Returns.ite (fun _ => Returns.ite (fun _ => hleave) fun _ => hsame) fun _ => ?_
    exact emit_bounded h hn 62

theorem openTag_returns (h : Bounded n s) (hn : n < len) (c : UInt8) :
    Returns (openTag allow allowTagSpaces len c ahead s) (Bounded (n + 1)) := by
  have hsame := h.mono (Nat.le_succ n)
  unfold openTag
  refine Returns.ite (fun _ => Returns.ok hsame) fun _ => ?_
  refine Returns.ite (fun _ => regChar_returns h hn c) fun _ => ?_
  refine Returns.ite (fun _ => ?_) fun _ => ?_
  · exact keep_returns (s := { s with lc := c, state := 1 }) h c
  exact Returns.ite (fun _ => Returns.ok hsame) fun _ => Returns.ok hsame

theorem quote_returns (h : Bounded n s) (hn : n < len) (c : UInt8) :
    Returns (quote allow before len behind c s) (Bounded (n + 1)) := by
  have hsame := h.mono (Nat.le_succ n)
  unfold quote
  refine Returns.ite (fun _ => Returns.ok hsame) fun _ => ?_
  refine Returns.ite (fun _ => Returns.ok (toggleQuote_bounded hsame)) fun _ => ?_
  exact (regChar_returns h hn c).bind fun s' hs' => Returns.ok (toggleQuote_bounded hs')

theorem stripChar_returns (h : Bounded n s) (hn : n < len) (c : UInt8) :
    Returns (stripChar allow allowTagSpaces before len behind c ahead s) (Bounded (n + 1)) := by
  have hsame : Returns (.ok s : Except Undefined Stripping) (Bounded (n + 1)) :=
    Returns.ok (h.mono (Nat.le_succ n))
  have hreg : Returns (regChar allow len c s) (Bounded (n + 1)) := regChar_returns h hn c
  have hbracket (step : ℤ) : Returns (bracket allow len c step s) (Bounded (n + 1)) :=
    Returns.ite (fun _ => Returns.ite (fun _ => Returns.ok (h.mono (Nat.le_succ n)))
      fun _ => hsame) fun _ => hreg
  have hL : Returns (letterL allow len behind c s) (Bounded (n + 1)) :=
    Returns.ite (fun _ => Returns.ok (h.mono (Nat.le_succ n))) fun _ => hreg
  have hE : Returns (letterE allow len behind c s) (Bounded (n + 1)) :=
    Returns.ite (fun _ => Returns.ok (h.mono (Nat.le_succ n))) fun _ => hL
  unfold stripChar
  refine Returns.ite (fun _ => hsame) fun _ => ?_
  refine Returns.ite (fun _ => openTag_returns h hn c) fun _ => ?_
  refine Returns.ite (fun _ => hbracket 1) fun _ => ?_
  refine Returns.ite (fun _ => hbracket (-1)) fun _ => ?_
  refine Returns.ite (fun hc => hc ▸ closeTag_returns h hn) fun _ => ?_
  refine Returns.ite (fun _ => quote_returns h hn c) fun _ => ?_
  refine Returns.ite (fun _ => ?_) fun _ => ?_
  · exact Returns.ite (fun _ => Returns.ok (h.mono (Nat.le_succ n))) fun _ => hreg
  refine Returns.ite (fun _ => ?_) fun _ => ?_
  · exact Returns.ite (fun _ => Returns.ok (h.mono (Nat.le_succ n))) fun _ => hreg
  refine Returns.ite (fun _ => ?_) fun _ => ?_
  · exact Returns.ite (fun _ => Returns.ok (h.mono (Nat.le_succ n))) fun _ => hE
  exact Returns.ite (fun _ => hE) fun _ => Returns.ite (fun _ => hL) fun _ => hreg

theorem stripLoop_returns (rest : List UInt8) (h : Bounded n s) (hn : n + rest.length ≤ len) :
    Returns (stripLoop allow allowTagSpaces before len behind rest s) (Bounded len) := by
  induction rest generalizing n s behind with
  | nil => exact Returns.ok (h.mono hn)
  | cons c rest ih =>
    rw [List.length_cons] at hn
    rw [stripLoop]
    refine (stripChar_returns h (by omega) c).bind fun s' hs' => ?_
    exact ih hs' (by omega)

/-! ## Without allowed tags -/

/-- The states that the function leaves behind. Outside of tags no quote and no further tag is
open. -/
structure Quiet (s : Stripping) : Prop where
  nonneg : 0 ≤ s.state
  le_four : s.state ≤ 4
  inQ : s.state = 0 → s.inQ = 0
  depth : s.state = 0 → s.depth = 0

/-- The characters that are copied outside of tags. -/
def Plain (c ahead : UInt8) : Prop := c ≠ 0 ∧ (c = 60 → isspace ahead = true)

/-- Every `'<'` is followed by white space at once. -/
def Tame : List UInt8 → Prop
  | [] => True
  | c :: rest => Plain c (rest.headD 0) ∧ Tame rest

theorem plain_of_isspace (h : isspace c = true) : Plain c ahead := by
  refine ⟨?_, ?_⟩
  · rintro rfl
    exact absurd h (by decide)
  · rintro rfl
    exact absurd h (by decide)

theorem zero_le_four : (0 : ℤ) ≤ 4 := by decide

theorem quiet_leave (hdepth : s.depth = 0) : Quiet s.leave :=
  ⟨Int.le_refl 0, zero_le_four, fun _ => rfl, fun _ => hdepth⟩

theorem Quiet.of_state {s' : Stripping} (h : Quiet s) (hne : s.state ≠ 0)
    (heq : s'.state = s.state) : Quiet s' :=
  ⟨heq ▸ h.nonneg, heq ▸ h.le_four, fun h0 => absurd (heq ▸ h0) hne,
    fun h0 => absurd (heq ▸ h0) hne⟩

theorem quiet_of_state (k : ℤ) (hpos : 0 < k) (hle : k ≤ 4) (heq : s.state = k) : Quiet s := by
  have hne (h0 : s.state = 0) : False := by omega
  exact ⟨by omega, by omega, fun h0 => (hne h0).elim, fun h0 => (hne h0).elim⟩

theorem stripChar_plain (h : Quiet s) (h0 : s.state = 0) (hc : Plain c ahead)
    (hlen : s.out.length < len) :
    Returns (stripChar none false before len behind c ahead s)
      (· = { s with out := s.out ++ [c] }) := by
  have hstate {k : ℤ} {p : Prop} (hk : k ≠ 0) : ¬ (s.state = k ∧ p) :=
    fun hs => hk (hs.1 ▸ h0)
  have hemit : Returns (s.emit len [c]) (· = { s with out := s.out ++ [c] }) :=
    emit_returns [c] (by simpa using Nat.succ_le_of_lt hlen)
  have hreg : Returns (regChar none len c s) (· = { s with out := s.out ++ [c] }) := by
    rw [regChar, if_pos h0]
    exact hemit
  have hbracket (step : ℤ) :
      Returns (bracket none len c step s) (· = { s with out := s.out ++ [c] }) := by
    rw [bracket, if_neg (by omega)]
    exact hreg
  have hL : Returns (letterL none len behind c s) (· = { s with out := s.out ++ [c] }) := by
    rw [letterL, if_neg (hstate (by decide))]
    exact hreg
  have hE : Returns (letterE none len behind c s) (· = { s with out := s.out ++ [c] }) := by
    rw [letterE, if_neg (hstate (by decide))]
    exact hL
  unfold stripChar
  refine Returns.ite (fun hz => absurd hz hc.1) fun _ => ?_
  refine Returns.ite (fun hlt => ?_) fun _ => ?_
  · rw [openTag, if_neg (not_not.mpr (h.inQ h0)), if_pos ⟨hc.2 hlt, rfl⟩]
    exact hreg
  refine Returns.ite (fun _ => hbracket 1) fun _ => ?_
  refine Returns.ite (fun _ => hbracket (-1)) fun _ => ?_
  refine Returns.ite (fun _ => ?_) fun _ => ?_
  · rw [closeTag, if_neg (not_not.mpr (h.depth h0)), if_neg (not_not.mpr (h.inQ h0)),
      if_neg (by omega), if_neg (by omega), if_neg (by omega), if_neg (by omega)]
    exact hemit
  refine Returns.ite (fun _ => ?_) fun _ => ?_
  · rw [quote, if_neg (by omega), if_neg (hstate (by decide))]
    refine hreg.bind fun s' hs' => Returns.ok ?_
    rw [toggleQuote, if_neg]
    · exact hs'
    · rw [hs']
      exact fun hopen => hopen.1 h0
  refine Returns.ite (fun _ => ?_) fun _ => ?_
  · rw [exclamation, if_neg (hstate (by decide))]
    exact hreg
  refine Returns.ite (fun _ => ?_) fun _ => ?_
  · rw [dash, if_neg (hstate (by decide))]
    exact hreg
  refine Returns.ite (fun _ => ?_) fun _ => ?_
  · rw [question, if_neg (hstate (by decide))]
    exact hE
  exact Returns.ite (fun _ => hE) fun _ => Returns.ite (fun _ => hL) fun _ => hreg

/-- What is not copied leaves the text as it is. -/
def Dropped (s s' : Stripping) : Prop := Quiet s' ∧ s'.out = s.out

theorem stripChar_opened (h : Quiet s) (h0 : s.state = 0) (hc : ¬ Plain c ahead) :
    Returns (stripChar none false before len behind c ahead s) (Dropped s) := by
  unfold stripChar
  refine Returns.ite (fun _ => Returns.ok ⟨h, rfl⟩) fun hz => ?_
  have hlt : c = 60 ∧ isspace ahead ≠ true := by
    unfold Plain at hc
    tauto
  rw [if_pos hlt.1, openTag, if_neg (not_not.mpr (h.inQ h0)),
    if_neg (fun hspace => hlt.2 hspace.1), if_pos h0]
  exact Returns.ok ⟨quiet_of_state 1 (by decide) (by decide) rfl, rfl⟩

theorem stripChar_inside (h : Quiet s) (hne : s.state ≠ 0) :
    Returns (stripChar none false before len behind c ahead s) (Dropped s) := by
  have hsame : Returns (.ok s : Except Undefined Stripping) (Dropped s) := Returns.ok ⟨h, rfl⟩
  have hreg : Returns (regChar none len c s) (· = s) := by
    rw [regChar, if_neg hne]
    exact Returns.ite (fun _ => Returns.ok rfl) fun _ => Returns.ok rfl
  have hreg' : Returns (regChar none len c s) (Dropped s) :=
    hreg.mono fun s' hs' => by rw [hs']; exact ⟨h, rfl⟩
  have hset {s' : Stripping} (k : ℤ) (hpos : 0 < k) (hle : k ≤ 4) (heq : s'.state = k)
      (hout : s'.out = s.out) : Returns (.ok s' : Except Undefined Stripping) (Dropped s) :=
    Returns.ok ⟨quiet_of_state k hpos hle heq, hout⟩
  have hleave (hdepth : s.depth = 0) :
      Returns (.ok s.leave : Except Undefined Stripping) (Dropped s) :=
    Returns.ok ⟨quiet_leave hdepth, rfl⟩
  have htoggle {s' : Stripping} (hstate : s'.state = s.state) (hout : s'.out = s.out) :
      Returns (.ok (toggleQuote before behind c s') : Except Undefined Stripping)
        (Dropped s) := by
    unfold toggleQuote
    split
    · exact Returns.ok ⟨h.of_state hne hstate, hout⟩
    · exact Returns.ok ⟨h.of_state hne hstate, hout⟩
  have hbracket (step : ℤ) : Returns (bracket none len c step s) (Dropped s) :=
    Returns.ite (fun _ => Returns.ite (fun _ => Returns.ok ⟨h.of_state hne rfl, rfl⟩)
      fun _ => hsame) fun _ => hreg'
  have hL : Returns (letterL none len behind c s) (Dropped s) :=
    Returns.ite (fun _ => hset 1 (by decide) (by decide) rfl rfl) fun _ => hreg'
  have hE : Returns (letterE none len behind c s) (Dropped s) :=
    Returns.ite (fun _ => hset 1 (by decide) (by decide) rfl rfl) fun _ => hL
  unfold stripChar
  refine Returns.ite (fun _ => hsame) fun _ => ?_
  refine Returns.ite (fun _ => ?_) fun _ => ?_
  · unfold openTag
    refine Returns.ite (fun _ => hsame) fun _ => ?_
    refine Returns.ite (fun _ => hreg') fun _ => ?_
    rw [if_neg hne]
    exact Returns.ite (fun _ => Returns.ok ⟨h.of_state hne rfl, rfl⟩) fun _ => hsame
  refine Returns.ite (fun _ => hbracket 1) fun _ => ?_
  refine Returns.ite (fun _ => hbracket (-1)) fun _ => ?_
  refine Returns.ite (fun _ => ?_) fun _ => ?_
  · unfold closeTag
    refine Returns.ite (fun _ => Returns.ok ⟨h.of_state hne rfl, rfl⟩) fun hdepth => ?_
    rw [ne_eq, not_not] at hdepth
    refine Returns.ite (fun _ => hsame) fun _ => ?_
    refine Returns.ite (fun _ => ?_) fun h1 => ?_
    · exact Returns.ok ⟨⟨Int.le_refl 0, zero_le_four, fun _ => rfl, fun _ => hdepth⟩, rfl⟩
    refine Returns.ite (fun _ => ?_) fun h2 => ?_
    · exact Returns.ite (fun _ => hleave hdepth) fun _ => hsame
    refine Returns.ite (fun _ => hleave hdepth) fun h3 => ?_
    refine Returns.ite (fun _ => ?_) fun h4 => ?_
    · exact Returns.ite (fun _ => hleave hdepth) fun _ => hsame
    have hnonneg := h.nonneg
    have hle := h.le_four
    omega
  refine Returns.ite (fun _ => ?_) fun _ => ?_
  · unfold quote
    refine Returns.ite (fun _ => hsame) fun _ => ?_
    refine Returns.ite (fun _ => htoggle rfl rfl) fun _ => ?_
    refine hreg.bind fun s' hs' => ?_
    rw [hs']
    exact htoggle rfl rfl
  refine Returns.ite (fun _ => ?_) fun _ => ?_
  · exact Returns.ite (fun _ => hset 3 (by decide) (by decide) rfl rfl) fun _ => hreg'
  refine Returns.ite (fun _ => ?_) fun _ => ?_
  · exact Returns.ite (fun _ => hset 4 (by decide) (by decide) rfl rfl) fun _ => hreg'
  refine Returns.ite (fun _ => ?_) fun _ => ?_
  · exact Returns.ite (fun _ => hset 2 (by decide) (by decide) rfl rfl) fun _ => hE
  exact Returns.ite (fun _ => hE) fun _ => Returns.ite (fun _ => hL) fun _ => hreg'

theorem stripLoop_spec (rest : List UInt8) (h : Quiet s)
    (hlen : s.out.length + rest.length ≤ len) :
    Returns (stripLoop none false before len behind rest s) fun s' => ∃ kept,
      s'.out = s.out ++ kept ∧ kept.Sublist rest ∧ Tame kept ∧
        (s.state = 0 → isspace (rest.headD 0) = true → kept.headD 0 = rest.headD 0) := by
  induction rest generalizing s behind with
  | nil => exact Returns.ok ⟨[], by simp, List.Sublist.slnil, trivial, fun _ _ => rfl⟩
  | cons c rest ih =>
    rw [List.length_cons] at hlen
    rw [stripLoop]
    by_cases hkept : s.state = 0 ∧ Plain c (rest.headD 0)
    · obtain ⟨h0, hc⟩ := hkept
      refine (stripChar_plain h h0 hc (by omega)).bind ?_
      rintro s' rfl
      have hquiet : Quiet { s with out := s.out ++ [c] } :=
        ⟨h.nonneg, h.le_four, h.inQ, h.depth⟩
      refine (ih hquiet ?_).mono fun s' ⟨kept, hout, hsub, htame, hhead⟩ => ?_
      · simp only [List.length_append, List.length_singleton]
        omega
      · refine ⟨c :: kept, by simpa using hout, hsub.cons_cons c, ⟨⟨hc.1, fun hlt => ?_⟩, htame⟩,
          fun _ _ => rfl⟩
        rw [hhead h0 (hc.2 hlt)]
        exact hc.2 hlt
    · have hdropped : Returns (stripChar none false before len behind c (rest.headD 0) s)
          (Dropped s) := by
        by_cases h0 : s.state = 0
        · exact stripChar_opened h h0 fun hc => hkept ⟨h0, hc⟩
        · exact stripChar_inside h h0
      refine hdropped.bind fun s₁ ⟨h₁, hout₁⟩ => ?_
      refine (ih h₁ ?_).mono fun s' ⟨kept, hout, hsub, htame, _⟩ => ?_
      · rw [hout₁]
        omega
      · refine ⟨kept, by rw [hout, hout₁], hsub.cons c, htame, fun h0 hspace => ?_⟩
        exact absurd ⟨h0, plain_of_isspace hspace⟩ hkept

theorem stripLoop_tame (rest : List UInt8) (h : Quiet s) (h0 : s.state = 0) (htame : Tame rest)
    (hlen : s.out.length + rest.length ≤ len) :
    Returns (stripLoop none false before len behind rest s) (·.out = s.out ++ rest) := by
  induction rest generalizing s behind with
  | nil => exact Returns.ok (by simp)
  | cons c rest ih =>
    rw [List.length_cons] at hlen
    rw [stripLoop]
    refine (stripChar_plain h h0 htame.1 (by omega)).bind ?_
    rintro s' rfl
    have hquiet : Quiet { s with out := s.out ++ [c] } := ⟨h.nonneg, h.le_four, h.inQ, h.depth⟩
    refine (ih hquiet h0 htame.2 ?_).mono fun s' hs' => ?_
    · simp only [List.length_append, List.length_singleton]
      omega
    · simpa using hs'

theorem tame_iff (text : List UInt8) :
    Tame text ↔ ∀ (i : ℕ) (hi : i < text.length),
      text[i] ≠ 0 ∧ (text[i] = 60 → ∃ hnext : i + 1 < text.length, isspace text[i + 1] = true) := by
  induction text with
  | nil => simp [Tame]
  | cons c rest ih =>
    rw [Tame, ih]
    constructor
    · rintro ⟨hc, hrest⟩ i hi
      cases i with
      | zero =>
        refine ⟨hc.1, fun hlt => ?_⟩
        have hspace := hc.2 hlt
        cases rest with
        | nil => exact absurd hspace (by decide)
        | cons d rest => exact ⟨by simp, hspace⟩
      | succ i =>
        have hi' : i < rest.length := by simpa using hi
        refine ⟨(hrest i hi').1, fun hlt => ?_⟩
        obtain ⟨hnext, hspace⟩ := (hrest i hi').2 hlt
        exact ⟨by simpa using hnext, hspace⟩
    · intro hall
      refine ⟨⟨(hall 0 (by simp)).1, fun hlt => ?_⟩, fun i hi => ?_⟩
      · obtain ⟨hnext, hspace⟩ := (hall 0 (by simp)).2 hlt
        cases rest with
        | nil => simp at hnext
        | cons d rest => exact hspace
      · have hi' : i + 1 < (c :: rest).length := by simpa using hi
        refine ⟨(hall (i + 1) hi').1, fun hlt => ?_⟩
        obtain ⟨hnext, hspace⟩ := (hall (i + 1) hi').2 hlt
        exact ⟨by simpa using hnext, hspace⟩

theorem quiet_start : Quiet ⟨0, 0, 0, 0, 0, TagBuffer.new, []⟩ :=
  ⟨Int.le_refl 0, zero_le_four, fun _ => rfl, fun _ => rfl⟩

theorem bounded_start (state : ℤ) : Bounded 0 ⟨state, 0, 0, 0, 0, TagBuffer.new, []⟩ :=
  ⟨Nat.lt_succ_self _, Nat.le_refl 0⟩

/-- From outside of tags and without allowed tags, a part of the text is left in which every
`'<'` stands before white space, and which stays as it is when it is stripped again. From every
state and with every list, no write is outside of the tag's buffer or of the text's own. -/
theorem phpStripTagsEx_spec :
    (∀ (before : UInt8) (rbuf : List UInt8),
      Returns (phpStripTagsEx none false before rbuf 0) fun r =>
        r.1.Sublist rbuf ∧
        (∀ (i : ℕ) (hi : i < r.1.length), r.1[i] = 60 →
          ∃ hnext : i + 1 < r.1.length, isspace r.1[i + 1] = true) ∧
        ∀ before', Returns (phpStripTagsEx none false before' r.1 0) (·.1 = r.1)) ∧
    ∀ (allow : Option (List UInt8)) (allowTagSpaces : Bool) (before : UInt8) (rbuf : List UInt8)
        (state : ℤ),
      Returns (phpStripTagsEx allow allowTagSpaces before rbuf state) fun r =>
        r.1.length ≤ rbuf.length := by
  refine ⟨fun before rbuf => ?_, fun allow allowTagSpaces before rbuf state => ?_⟩
  · refine (stripLoop_spec rbuf quiet_start (by simp)).bind fun s ⟨kept, hout, hsub, htame, _⟩ => ?_
    have hkept : s.out = kept := hout
    refine Returns.ok ⟨hkept ▸ hsub, fun i hi => ?_, fun before' => ?_⟩
    · subst hkept
      exact ((tame_iff _).mp htame i hi).2
    · dsimp only
      rw [hkept]
      refine (stripLoop_tame kept quiet_start rfl htame (by simp)).bind fun s' hs' => ?_
      exact Returns.ok (by simpa using hs')
  · refine (stripLoop_returns rbuf (bounded_start state) (by simp)).bind fun s hs => ?_
    have hle := hs.2
    exact Returns.ok (by dsimp only; omega)

end PhpRuntime.Text

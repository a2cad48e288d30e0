import Mathlib.Data.List.TakeWhile
import PhpRuntime.Url.Parse

/-!
# Where the parser reads

`php_url_parse_ex` stays in the string and gives a port that fits, but for `file:///`, of which
it reads the byte behind the `NUL`, and for a port behind the host part, where the backward
search for a colon leaves the string at the front.
-/

set_option autoImplicit false

namespace PhpRuntime.Url

open PhpRuntime.Lib
open PhpRuntime.Text (Undefined isdigit isalnum isspace toupper)

variable {str : List UInt8} {s e p : ℕ} {ret : Url}

/-- `NULL`, or a structure the port of which is 0 or a port number. -/
def PortInRange (r : Option Url) : Prop :=
  ∀ url, r = some url → url.port = 0 ∨ 1 ≤ url.port ∧ url.port ≤ 65535

theorem portInRange_none : PortInRange none := by
  intro url h
  cases h

theorem portInRange_some (h : ret.port ≤ 65535) : PortInRange (some ret) := by
  intro url heq
  cases heq
  omega

/-! ## What the reads give -/

theorem returns_readAt {β : Type} {Q : β → Prop} {f : UInt8 → Except Undefined β} {i : ℕ}
    (hi : i ≤ str.length) (h : Returns (f (str.getD i 0)) Q) : Returns (readAt str i >>= f) Q := by
  rw [readAt_bind hi]
  exact h

theorem returns_memchr {β : Type} {Q : β → Prop} {f : Option ℕ → Except Undefined β} {c : UInt8}
    (hs : s ≤ e) (he : e ≤ str.length) (hnone : Returns (f none) Q)
    (hsome : ∀ p, s ≤ p → p < e → str[p]? = some c → Returns (f (some p)) Q) :
    Returns (memchr str s e c >>= f) Q := by
  rw [memchr_of_le hs he]
  change Returns (f (firstIn str c s e)) Q
  cases h : firstIn str c s e with
  | none => exact hnone
  | some p =>
    obtain ⟨hsp, hpe, hfound, -⟩ := firstIn_eq_some he h
    exact hsome p hsp hpe hfound

theorem returns_copyPart {β : Type} {Q : β → Prop} {f : List UInt8 → Except Undefined β}
    (hs : s ≤ e) (he : e ≤ str.length) (h : ∀ part, Returns (f part) Q) :
    Returns (copyPart str s e >>= f) Q := by
  rw [copyPart_of_le hs he]
  exact h _

/-! ## The path, the query and the fragment -/

/-- What the components behind the host do not change. -/
structure Keeps (ret url : Url) : Prop where
  host : url.host = ret.host
  port : url.port = ret.port

theorem Keeps.trans {a b c : Url} (hab : Keeps a b) (hbc : Keeps b c) : Keeps a c :=
  ⟨hbc.host.trans hab.host, hbc.port.trans hab.port⟩

theorem labelParse_returns (hp : p < str.length) :
    Returns (labelParse str p ret) fun url => Keeps ret url ∧ url.path = ret.path := by
  apply Returns.ite
  · exact fun _ => returns_copyPart hp (Nat.le_refl _) fun _ => Returns.ok ⟨⟨rfl, rfl⟩, rfl⟩
  · exact fun _ => Returns.ok ⟨⟨rfl, rfl⟩, rfl⟩

theorem setPath_returns (hs : s ≤ p) (hp : p ≤ str.length) :
    Returns (setPath str s p ret) fun url => Keeps ret url ∧ (p ≠ s → url.path ≠ none) := by
  apply Returns.ite
  · exact fun _ => returns_copyPart hs hp fun _ => Returns.ok ⟨⟨rfl, rfl⟩, fun _ => Option.some_ne_none _⟩
  · exact fun h => Returns.ok ⟨⟨rfl, rfl⟩, fun h' => absurd h' h⟩

theorem setQuery_returns (hp : p ≤ e) (he : e ≤ str.length) :
    Returns (setQuery str p e ret) fun url => Keeps ret url ∧ url.path = ret.path := by
  apply Returns.ite
  · exact fun _ => returns_copyPart hp he fun _ => Returns.ok ⟨⟨rfl, rfl⟩, rfl⟩
  · exact fun _ => Returns.ok ⟨⟨rfl, rfl⟩, rfl⟩

theorem nohost_returns (hs : s ≤ str.length) :
    Returns (nohost str s ret) fun url =>
      Keeps ret url ∧ (str[s]? = some 47 → url.path ≠ none) := by
  have ne_of_symbol : ∀ {c : UInt8} {p : ℕ}, str[p]? = some c → c ≠ 47 →
      str[s]? = some 47 → p ≠ s := by
    rintro c p hp hc hslash rfl
    exact hc (Option.some.inj (hp.symm.trans hslash))
  apply returns_memchr hs (Nat.le_refl _)
  · apply returns_memchr hs (Nat.le_refl _)
    · exact returns_copyPart hs (Nat.le_refl _) fun _ => Returns.ok ⟨⟨rfl, rfl⟩, fun _ => Option.some_ne_none _⟩
    · intro p hsp hp hfound
      apply (setPath_returns hsp (Nat.le_of_lt hp)).bind
      rintro a ⟨hkeeps, hpath⟩
      apply (labelParse_returns hp).mono
      rintro url ⟨hkeeps', hsame⟩
      refine ⟨hkeeps.trans hkeeps', fun hslash => ?_⟩
      rw [hsame]
      exact hpath (ne_of_symbol hfound (by decide) hslash)
  · intro p hsp hp hquestion
    dsimp only
    rw [strchr_of_le hs, ok_bind]
    cases hhash : firstIn str 35 s (stringEnd str s) with
    | none =>
      apply (setPath_returns hsp (Nat.le_of_lt hp)).bind
      rintro a ⟨hkeeps, hpath⟩
      apply (setQuery_returns hp (Nat.le_refl _)).mono
      rintro url ⟨hkeeps', hsame⟩
      refine ⟨hkeeps.trans hkeeps', fun hslash => ?_⟩
      rw [hsame]
      exact hpath (ne_of_symbol hquestion (by decide) hslash)
    | some pp =>
      obtain ⟨hspp, hpp, hfound, -⟩ := firstIn_eq_some (stringEnd_le hs) hhash
      replace hpp := Nat.lt_of_lt_of_le hpp (stringEnd_le hs)
      apply Returns.ite
      · intro _
        apply (setPath_returns hspp (Nat.le_of_lt hpp)).bind
        rintro a ⟨hkeeps, hpath⟩
        apply (labelParse_returns hpp).mono
        rintro url ⟨hkeeps', hsame⟩
        refine ⟨hkeeps.trans hkeeps', fun hslash => ?_⟩
        rw [hsame]
        exact hpath (ne_of_symbol hfound (by decide) hslash)
      · intro hle
        have hne : p ≠ pp := by
          rintro rfl
          exact absurd (Option.some.inj (hquestion.symm.trans hfound)) (by decide)
        apply (setPath_returns hsp (Nat.le_of_lt hp)).bind
        rintro a ⟨hkeeps, hpath⟩
        apply (setQuery_returns (by omega) (Nat.le_of_lt hpp)).bind
        rintro b ⟨hkeeps', hsame⟩
        apply (labelParse_returns hpp).mono
        rintro url ⟨hkeeps'', hsame'⟩
        refine ⟨(hkeeps.trans hkeeps').trans hkeeps'', fun hslash => ?_⟩
        rw [hsame', hsame]
        exact hpath (ne_of_symbol hquestion (by decide) hslash)

/-! ## The host -/

/-- Where the host part that begins at `s` ends. -/
def hostEndAt (str : List UInt8) (s : ℕ) : ℕ :=
  match firstIn str 47 s str.length with
  | some p => p
  | none =>
    match firstIn str 63 s str.length, firstIn str 35 s str.length with
    | some query, some fragment => if fragment < query then fragment else query
    | some query, none => query
    | none, some fragment => fragment
    | none, none => str.length

theorem hostEnd_eq (hs : s ≤ str.length) : hostEnd str s = .ok (hostEndAt str s) := by
  rw [hostEnd, hostEndAt, memchr_of_le hs (Nat.le_refl _), memchr_of_le hs (Nat.le_refl _),
    memchr_of_le hs (Nat.le_refl _)]
  cases firstIn str 47 s str.length with
  | some p => rfl
  | none =>
    cases firstIn str 63 s str.length with
    | none => cases firstIn str 35 s str.length <;> rfl
    | some query => cases firstIn str 35 s str.length <;> rfl

theorem hostEndAt_spec (hs : s ≤ str.length) :
    s ≤ hostEndAt str s ∧ hostEndAt str s ≤ str.length ∧
      str.getD (hostEndAt str s) 0 ∈ ([0, 35, 47, 63] : List UInt8) := by
  have found : ∀ {c : UInt8} {p : ℕ}, c ∈ ([0, 35, 47, 63] : List UInt8) →
      firstIn str c s str.length = some p →
      s ≤ p ∧ p ≤ str.length ∧ str.getD p 0 ∈ ([0, 35, 47, 63] : List UInt8) := by
    intro c p hc h
    obtain ⟨hsp, hp, heq, -⟩ := firstIn_eq_some (Nat.le_refl _) h
    refine ⟨hsp, Nat.le_of_lt hp, ?_⟩
    rw [List.getD_eq_getElem?_getD, heq]
    exact hc
  rw [hostEndAt]
  split
  · next h => exact found (by decide) h
  split
  · next hquery hfragment =>
    split
    · exact found (by decide) hfragment
    · exact found (by decide) hquery
  · next hquery _ => exact found (by decide) hquery
  · next hfragment => exact found (by decide) hfragment
  · refine ⟨hs, Nat.le_refl _, ?_⟩
    rw [List.getD_eq_getElem?_getD, List.getElem?_eq_none (Nat.le_refl _)]
    decide

theorem copyOver_returns {old : Option (List UInt8)} (hs : s ≤ e) (he : e ≤ str.length) :
    Returns (copyOver str s e old) fun _ => True := by
  apply Returns.ite
  · exact fun _ => returns_copyPart hs he fun _ => Returns.ok trivial
  · exact fun _ => Returns.ok trivial

theorem login_returns (hs : s ≤ e) (he : e ≤ str.length) :
    Returns (login str s e ret) fun r => s ≤ r.1 ∧ r.1 ≤ e ∧ r.2.port = ret.port ∧
      (0 < r.1 ∨ r.1 = s ∧ lastIn str 64 s e = none) := by
  rw [login, memrchr_of_le hs he]
  cases h : lastIn str 64 s e with
  | none => exact Returns.ok ⟨Nat.le_refl _, hs, rfl, Or.inr ⟨rfl, rfl⟩⟩
  | some p =>
    obtain ⟨hsp, hpe, -, -⟩ := lastIn_eq_some h
    have hp : p ≤ str.length := by omega
    apply returns_memchr hsp hp
    · exact returns_copyPart hsp hp fun _ =>
        Returns.ok ⟨by omega, hpe, rfl, Or.inl (Nat.succ_pos p)⟩
    · intro pp hspp hpp _
      apply (copyOver_returns hspp (by omega)).bind
      intro user _
      apply (copyOver_returns hpp hp).bind
      intro pass _
      exact Returns.ok ⟨by omega, hpe, rfl, Or.inl (Nat.succ_pos p)⟩

theorem portScan_returns (hp : p ≤ str.length)
    (h : 0 < s ∨ ∃ q, q ≤ p ∧ str.getD q 0 = 58) :
    Returns (portScan str s p) fun r => ∀ q, r = some q → s ≤ q ∧ q ≤ p := by
  induction p with
  | zero =>
    apply returns_readAt hp
    apply Returns.ite
    · exact fun _ => Returns.ok fun _ h => by cases h
    intro hs
    apply Returns.ite
    · exact fun _ => Returns.ok fun q h => by cases h; omega
    intro hne
    rcases h with hs' | ⟨q, hq, hfound⟩
    · exact absurd hs' hs
    · exact absurd (Nat.le_zero.mp hq ▸ hfound) hne
  | succ p ih =>
    apply returns_readAt hp
    apply Returns.ite
    · exact fun _ => Returns.ok fun _ h => by cases h
    intro hs
    apply Returns.ite
    · exact fun _ => Returns.ok fun q h => by cases h; omega
    intro hne
    have h' : 0 < s ∨ ∃ q, q ≤ p ∧ str.getD q 0 = 58 := by
      rcases h with hs' | ⟨q, hq, hfound⟩
      · exact Or.inl hs'
      rcases Nat.le_succ_iff.mp hq with hle | rfl
      · exact Or.inr ⟨q, hle, hfound⟩
      · exact absurd hfound hne
    exact (ih (by omega) h').mono fun r hr q hq => ⟨(hr q hq).1, by have := (hr q hq).2; omega⟩

theorem portScan_eq_error (hp : p ≤ str.length) (h : ∀ q, q ≤ p → str.getD q 0 ≠ 58) :
    portScan str 0 p = .error .outsideString := by
  induction p with
  | zero =>
    rw [portScan, readAt_bind hp, if_neg (Nat.lt_irrefl 0), if_neg (h 0 (Nat.le_refl 0))]
  | succ p ih =>
    rw [portScan, readAt_bind hp, if_neg (Nat.not_lt_zero _), if_neg (h (p + 1) (Nat.le_refl _))]
    exact ih (by omega) fun q hq => h q (by omega)

theorem isBracketed_eq (hs : s ≤ e) (he : e ≤ str.length) (hend : str.getD e 0 ≠ 91) :
    isBracketed str s e = .ok (decide (str.getD s 0 = 91 ∧ str.getD (e - 1) 0 = 93)) := by
  rw [isBracketed, readAt_bind (Nat.le_trans hs he), Bool.decide_and]
  split
  · next h =>
    have hpos : e ≠ 0 := by
      rintro rfl
      exact hend (Nat.le_zero.mp hs ▸ h)
    rw [if_neg hpos, readAt_bind (by omega), decide_eq_true h, Bool.true_and]
  · next h => rw [decide_eq_false h, Bool.false_and]

theorem finishHost_returns (hp : p ≤ str.length) (he : e ≤ str.length) (hport : ret.port ≤ 65535) :
    Returns (finishHost str s p e ret) PortInRange := by
  apply Returns.ite
  · exact fun _ => Returns.ok portInRange_none
  intro hsp
  apply returns_copyPart (by omega) hp
  intro host
  apply Returns.ite
  · exact fun _ => Returns.ok (portInRange_some hport)
  intro _
  obtain ⟨url, heq, hkeeps, -⟩ := @nohost_returns str e { ret with host := some host } he
  rw [heq]
  rw [← hkeeps.port] at hport
  exact Returns.ok (portInRange_some hport)

theorem portValue_returns (hp : p ≤ e) (he : e ≤ str.length) (h : e - p ≤ 5) :
    Returns (portValue str p e) fun r => ∀ port, r = some port → port ≤ 65535 := by
  rw [portValue, if_pos ⟨hp, he, h⟩]
  apply Returns.ite
  · intro hrange
    exact Returns.ok fun port heq => by cases heq; omega
  · exact fun _ => Returns.ok fun _ heq => by cases heq

/-- The port is copied only when it fits into `port_buf`. -/
theorem hostPort_returns (hp : p ≤ e) (he : e ≤ str.length) (hport : ret.port ≤ 65535) :
    Returns (hostPort str s p e ret) PortInRange := by
  have finish : ∀ {ret : Url}, ret.port ≤ 65535 →
      Returns (finishHost str s p e ret) PortInRange := finishHost_returns (by omega) he
  apply Returns.ite
  · exact fun _ => finish hport
  intro _
  apply Returns.ite
  · exact fun _ => Returns.ok portInRange_none
  intro hfits
  apply Returns.ite
  · intro hpos
    apply (portValue_returns (by omega) he (Nat.le_of_not_lt hfits)).bind
    rintro (_ | port) hrange
    · exact Returns.ok portInRange_none
    · exact finish (hrange port rfl)
  · exact fun _ => finish hport

/-- The host part at the beginning of the string has no login, no colon and no brackets. -/
structure ScanLeaves (str : List UInt8) : Prop where
  no_login : 64 ∉ str.take (hostEndAt str 0)
  no_colon : 58 ∉ str.take (hostEndAt str 0)
  no_brackets : ¬(str.getD 0 0 = 91 ∧ str.getD (hostEndAt str 0 - 1) 0 = 93)

theorem mem_take_iff {c : UInt8} : c ∈ str.take e ↔ ∃ q, q < e ∧ str[q]? = some c := by
  rw [List.mem_iff_getElem?]
  constructor
  · rintro ⟨q, hq⟩
    rw [List.getElem?_take] at hq
    split at hq
    · next h => exact ⟨q, h, hq⟩
    · cases hq
  · rintro ⟨q, h, hq⟩
    exact ⟨q, by rw [List.getElem?_take_of_lt h, hq]⟩

theorem getD_of_getElem? {c : UInt8} {q : ℕ} (h : str[q]? = some c) : str.getD q 0 = c := by
  rw [List.getD_eq_getElem?_getD, h]
  rfl

theorem getElem?_of_getD {c : UInt8} {q : ℕ} (h : str.getD q 0 = c) (hc : c ≠ 0) :
    str[q]? = some c := by
  rw [List.getD_eq_getElem?_getD] at h
  cases hq : str[q]? with
  | none => exact absurd (hq ▸ h).symm hc
  | some d => exact congrArg some ((hq ▸ h : (some d).getD 0 = c))

theorem lastIn_eq_none_iff {c : UInt8} : lastIn str c 0 e = none ↔ c ∉ str.take e := by
  rw [mem_take_iff]
  constructor
  · rintro h ⟨q, hq, heq⟩
    exact lastIn_eq_none h (Nat.zero_le q) hq heq
  · exact fun h => lastIn_of_forall fun q _ hq heq => h ⟨q, hq, heq⟩

theorem hostPart_returns (hs : s ≤ str.length) (hport : ret.port ≤ 65535)
    (h : 0 < s ∨ s = 0 ∧ ¬ScanLeaves str) : Returns (hostPart str s ret) PortInRange := by
  obtain ⟨hse, he, hstop⟩ := hostEndAt_spec hs
  rw [hostPart, hostEnd_eq hs]
  apply (@login_returns str s _ ret hse he).bind
  rintro ⟨t, ret'⟩ ⟨hst, hte, hret, ht⟩
  dsimp only at hst hte hret ht ⊢
  rw [← hret] at hport
  rw [isBracketed_eq hte he fun heq => absurd (heq ▸ hstop) (by decide)]
  apply Returns.ite
  · exact fun _ => finishHost_returns he he hport
  intro hbrackets
  have hscan : 0 < t ∨ ∃ q, q ≤ hostEndAt str s ∧ str.getD q 0 = 58 := by
    rcases ht with hpos | ⟨rfl, hlogin⟩
    · exact Or.inl hpos
    rcases h with hpos | ⟨rfl, hleaves⟩
    · exact Or.inl hpos
    by_cases hcolon : 58 ∈ str.take (hostEndAt str 0)
    · obtain ⟨q, hq, heq⟩ := mem_take_iff.mp hcolon
      exact Or.inr ⟨q, Nat.le_of_lt hq, getD_of_getElem? heq⟩
    · exact absurd ⟨lastIn_eq_none_iff.mp hlogin, hcolon, fun h => hbrackets (decide_eq_true h)⟩
        hleaves
  apply (portScan_returns he hscan).bind
  rintro (_ | p) hp
  · exact finishHost_returns he he hport
  · exact hostPort_returns (hp p rfl).2 he hport

theorem hostPart_eq_error (h : ScanLeaves str) :
    hostPart str 0 ret = .error .outsideString := by
  obtain ⟨-, he, hstop⟩ := hostEndAt_spec (Nat.zero_le str.length)
  have hlogin : login str 0 (hostEndAt str 0) ret = .ok (0, ret) := by
    rw [login, memrchr_of_le (Nat.zero_le _) he, lastIn_eq_none_iff.mpr h.no_login]
    rfl
  have hcolon : ∀ q, q ≤ hostEndAt str 0 → str.getD q 0 ≠ 58 := by
    intro q hq heq
    rcases Nat.lt_or_eq_of_le hq with hlt | rfl
    · exact h.no_colon (mem_take_iff.mpr ⟨q, hlt, getElem?_of_getD heq (by decide)⟩)
    · exact absurd (heq ▸ hstop) (by decide)
  have hbrackets : isBracketed str 0 (hostEndAt str 0) = .ok false := by
    rw [isBracketed_eq (Nat.zero_le _) he fun heq => absurd (heq ▸ hstop) (by decide),
      decide_eq_false h.no_brackets]
  rw [hostPart, hostEnd_eq (Nat.zero_le _), ok_bind, hlogin, ok_bind, hbrackets, ok_bind,
    if_neg Bool.false_ne_true, portScan_eq_error he hcolon, error_bind]

/-! ## The scheme -/

theorem nohost_inRange (hs : s ≤ str.length) (hport : ret.port ≤ 65535) :
    Returns ((nohost str s ret).map some) PortInRange := by
  obtain ⟨url, heq, hkeeps, -⟩ := @nohost_returns str s ret hs
  rw [heq]
  rw [← hkeeps.port] at hport
  exact Returns.ok (portInRange_some hport)

theorem ne_end {c : UInt8} {i : ℕ} (h : str.getD i 0 = c) (hc : c ≠ 0) : i < str.length :=
  (List.getElem?_eq_some_iff.mp (getElem?_of_getD h hc)).1

theorem relativeScheme_returns : Returns (relativeScheme str) PortInRange := by
  have path : Returns ((nohost str 0 emptyUrl).map some) PortInRange :=
    nohost_inRange (Nat.zero_le _) (Nat.zero_le _)
  apply returns_readAt (Nat.zero_le _)
  apply Returns.ite
  · intro h
    have hlt := ne_end h (by decide)
    apply returns_readAt hlt
    apply Returns.ite
    · intro h'
      have hlt' := ne_end h' (by decide)
      exact hostPart_returns hlt' (Nat.zero_le _) (Or.inl Nat.two_pos)
    · exact fun _ => path
  · exact fun _ => path

/-- Behind the colon at `e` there is a port number, and the end of the string or a `/` behind
it. -/
structure IsPort (str : List UInt8) (e : ℕ) : Prop where
  digits : 1 ≤ (digitsAt str (e + 1)).length ∧ (digitsAt str (e + 1)).length ≤ 5
  stop : str.getD (e + 1 + (digitsAt str (e + 1)).length) 0 = 47 ∨
    str.getD (e + 1 + (digitsAt str (e + 1)).length) 0 = 0
  value : 1 ≤ digitsValue (digitsAt str (e + 1)) ∧ digitsValue (digitsAt str (e + 1)) ≤ 65535

theorem digitsAt_spec {c : UInt8} (h : c ∈ digitsAt str p) : isdigit c = true :=
  List.mem_takeWhile_imp h

theorem strtol_digits {digits : List UInt8} (h : ∀ c ∈ digits, isdigit c = true) :
    strtol digits = digitsValue digits := by
  have hall : digits.takeWhile isdigit = digits := List.takeWhile_eq_self_iff.mpr h
  cases digits with
  | nil => rfl
  | cons c digits =>
    have hc := h c List.mem_cons_self
    have hspace : isspace c = false := by
      rw [Text.isdigit_iff] at hc
      rw [isspace, decide_eq_false_iff_not, UInt8.le_iff_toNat_le, UInt8.le_iff_toNat_le,
        ← UInt8.toNat_inj]
      change ¬(c.toNat = 32 ∨ 9 ≤ c.toNat ∧ c.toNat ≤ 13)
      omega
    rw [strtol, List.dropWhile_cons_of_neg (Bool.eq_false_iff.mp hspace)]
    split
    · next heq =>
      cases heq
      exact absurd hc (by decide)
    · next heq =>
      cases heq
      exact absurd hc (by decide)
    · rw [hall]

theorem digitsAt_length_le (hp : p ≤ str.length) : p + (digitsAt str p).length ≤ str.length := by
  have h := (List.takeWhile_prefix (l := str.drop p) isdigit).length_le
  rw [List.length_drop] at h
  rw [digitsAt]
  omega

theorem portValue_digits (hp : p ≤ str.length) (h : (digitsAt str p).length ≤ 5) :
    portValue str p (p + (digitsAt str p).length) =
      .ok (if 1 ≤ digitsValue (digitsAt str p) ∧ digitsValue (digitsAt str p) ≤ 65535 then
        some (digitsValue (digitsAt str p)) else none) := by
  have hslice : (str.take (p + (digitsAt str p).length)).drop p = digitsAt str p := by
    rw [List.drop_take, Nat.add_sub_cancel_left]
    exact (List.prefix_iff_eq_take.mp (List.takeWhile_prefix isdigit)).symm
  rw [portValue, if_pos ⟨Nat.le_add_right _ _, digitsAt_length_le hp, by omega⟩, hslice,
    strtol_digits fun _ => digitsAt_spec]
  dsimp only
  split
  · next hrange =>
    rw [if_pos (by omega), Int.toNat_natCast]
  · next hrange =>
    rw [if_neg (by omega)]

theorem IsPort.isdigit (h : IsPort str e) : isdigit (str.getD (e + 1) 0) = true := by
  have hne : digitsAt str (e + 1) ≠ [] := List.ne_nil_of_length_pos h.digits.1
  obtain ⟨c, digits, heq⟩ := List.exists_cons_of_ne_nil hne
  have hmem : c ∈ digitsAt str (e + 1) := heq ▸ List.mem_cons_self
  have hprefix : digitsAt str (e + 1) <+: str.drop (e + 1) := List.takeWhile_prefix _
  obtain ⟨rest, hrest⟩ := hprefix
  have hc : str[e + 1]? = some c := by
    rw [← Nat.add_zero (e + 1), ← List.getElem?_drop, ← hrest, heq]
    rfl
  rw [getD_of_getElem? hc]
  exact digitsAt_spec hmem

theorem not_isPort {c : UInt8} (h : str.getD (e + 1) 0 = c) (hc : isdigit c = false) :
    ¬IsPort str e := by
  intro hport
  have hdigit := hport.isdigit
  rw [h, hc] at hdigit
  exact Bool.false_ne_true hdigit

theorem parsePort_returns_iff (he : e < str.length) :
    Returns (parsePort str e) PortInRange ↔ ¬(IsPort str e ∧ ScanLeaves str) := by
  have hle : e + 1 + (digitsAt str (e + 1)).length ≤ str.length := digitsAt_length_le he
  rw [parsePort]
  dsimp only
  rw [readAt_bind (by omega), Nat.add_sub_cancel_left]
  by_cases hport : IsPort str e
  · have hmin : min 6 (digitsAt str (e + 1)).length = (digitsAt str (e + 1)).length :=
      Nat.min_eq_right (Nat.le_succ_of_le hport.digits.2)
    rw [hmin, if_pos ⟨hport.digits.1, Nat.lt_succ_of_le hport.digits.2, hport.stop⟩,
      portValue_digits he hport.digits.2, ok_bind, if_pos hport.value]
    dsimp only
    by_cases hleaves : ScanLeaves str
    · rw [hostPart_eq_error hleaves, Returns.error_iff]
      exact ⟨False.elim, fun h => h ⟨hport, hleaves⟩⟩
    · exact ⟨fun _ h => hleaves h.2, fun _ =>
        hostPart_returns (Nat.zero_le _) hport.value.2 (Or.inr ⟨rfl, hleaves⟩)⟩
  · refine ⟨fun _ h => hport h.1, fun _ => ?_⟩
    apply Returns.ite
    · rintro ⟨hpos, hsix, hstop⟩
      have hmin : min 6 (digitsAt str (e + 1)).length = (digitsAt str (e + 1)).length :=
        Nat.min_eq_right (by omega)
      rw [hmin] at hpos hsix hstop ⊢
      have hfive := Nat.le_of_lt_succ hsix
      rw [portValue_digits he hfive, ok_bind, if_neg fun hvalue =>
        hport ⟨⟨hpos, hfive⟩, hstop, hvalue⟩]
      exact Returns.ok portInRange_none
    intro _
    apply Returns.ite
    · exact fun _ => Returns.ok portInRange_none
    · exact fun _ => relativeScheme_returns

/-! ## The whole string -/

/-- The string is `file:///`, with the scheme in letters of either case. -/
structure IsFileRoot (str : List UInt8) : Prop where
  scheme : isFile (str.take 4)
  root : str.drop 4 = [58, 47, 47, 47]

theorem isSchemeChar_spec (c : UInt8) :
    (toupper c ∈ ([70, 73, 76, 69] : List UInt8) → isSchemeChar c = true) ∧
      (isSchemeChar c = true → iscntrl c = false ∧ c ≠ 58) := by
  have h : ∀ n < 256, (toupper (UInt8.ofNat n) ∈ ([70, 73, 76, 69] : List UInt8) →
      isSchemeChar (UInt8.ofNat n) = true) ∧
      (isSchemeChar (UInt8.ofNat n) = true →
        iscntrl (UInt8.ofNat n) = false ∧ UInt8.ofNat n ≠ 58) := by
    decide +kernel
  have hc := h c.toNat c.toNat_lt
  rwa [UInt8.ofNat_toNat] at hc

theorem IsFileRoot.all (h : IsFileRoot str) : (str.take 4).all isSchemeChar = true := by
  rw [List.all_eq_true]
  intro c hc
  apply (isSchemeChar_spec c).1
  have hmem : toupper c ∈ (str.take 4).map toupper := List.mem_map_of_mem hc
  rwa [h.scheme] at hmem

theorem IsFileRoot.length (h : IsFileRoot str) : str.length = 8 := by
  have htake := congrArg List.length h.scheme
  have hdrop := congrArg List.length h.root
  rw [List.length_map, List.length_take] at htake
  rw [List.length_drop] at hdrop
  change min 4 str.length = 4 at htake
  change str.length - 4 = 4 at hdrop
  omega

theorem IsFileRoot.getElem? (h : IsFileRoot str) (i : ℕ) :
    str[4 + i]? = ([58, 47, 47, 47] : List UInt8)[i]? := by
  rw [← h.root, List.getElem?_drop]

theorem IsFileRoot.colon (h : IsFileRoot str) : firstIn str 58 0 str.length = some 4 := by
  have hlen := h.length
  apply firstIn_of_getElem? (Nat.le_refl _) (Nat.zero_le 4) (by omega) (h.getElem? 0)
  intro q _ hq heq
  have hall := List.all_eq_true.mp h.all 58 (mem_take_iff.mpr ⟨q, hq, heq⟩)
  exact absurd hall (by decide)

theorem IsFileRoot.slash (h : IsFileRoot str) {i : ℕ} (hi : i < 3) :
    str.getD (4 + 1 + i) 0 = 47 := by
  apply getD_of_getElem?
  rw [Nat.add_assoc, h.getElem?]
  match i, hi with
  | 0, _ => rfl
  | 1, _ => rfl
  | 2, _ => rfl

theorem isFileRoot_of_length (hfile : isFile (str.take 4)) (hcolon : str[4]? = some 58)
    (hslash : ∀ i, i < 3 → str[4 + 1 + i]? = some 47) (hlen : str.length ≤ 8) :
    IsFileRoot str := by
  refine ⟨hfile, List.ext_getElem? fun i => ?_⟩
  rw [List.getElem?_drop]
  match i with
  | 0 => exact hcolon
  | 1 => exact hslash 0 (by omega)
  | 2 => exact hslash 1 (by omega)
  | 3 => exact hslash 2 (by omega)
  | i + 4 => exact List.getElem?_eq_none (by omega)

theorem length_of_isFile (h : isFile (str.take e)) (he : e < str.length) : e = 4 := by
  have hlen := congrArg List.length h
  rw [List.length_map, List.length_take, Nat.min_eq_left (Nat.le_of_lt he)] at hlen
  exact hlen

theorem replaceControlchars_eq {s : List UInt8} (h : ∀ c ∈ s, iscntrl c = false) :
    replaceControlchars s = s := by
  rw [replaceControlchars, List.map_congr_left (g := id)]
  · exact List.map_id s
  · intro c hc
    rw [h c hc]
    rfl

theorem withScheme_returns_iff (he : firstIn str 58 0 str.length = some e)
    (hall : (str.take e).all isSchemeChar = true) :
    Returns (withScheme str e) PortInRange ↔
      ¬(IsFileRoot str ∨ IsPort str e ∧ ScanLeaves str) := by
  obtain ⟨-, hlt, hcolon, -⟩ := firstIn_eq_some (Nat.le_refl _) he
  have hscheme : replaceControlchars ((str.take e).drop 0) = str.take e :=
    replaceControlchars_eq fun c hc =>
      ((isSchemeChar_spec c).2 (List.all_eq_true.mp hall c hc)).1
  have hcopy : copyPart str 0 e = .ok (str.take e) := by
    rw [copyPart_of_le (Nat.zero_le _) (Nat.le_of_lt hlt), hscheme]
  have hfour : IsFileRoot str → e = 4 := fun h => Option.some.inj (he.symm.trans h.colon)
  have hslash : IsFileRoot str → ∀ i, i < 3 → str.getD (e + 1 + i) 0 = 47 := by
    intro h i hi
    rw [hfour h]
    exact h.slash hi
  rw [withScheme, readAt_bind hlt]
  split
  · next hnul =>
    rw [hcopy, ok_bind]
    refine ⟨fun _ => ?_, fun _ => Returns.ok (portInRange_some (Nat.zero_le _))⟩
    rintro (hroot | ⟨hport, -⟩)
    · exact absurd (hnul.symm.trans (hslash hroot 0 (by omega))) (by decide)
    · exact not_isPort hnul rfl hport
  split
  · next hne =>
    have hroot : ¬IsFileRoot str := fun h => hne (hslash h 0 (by omega))
    have hle : e + 1 + (digitsAt str (e + 1)).length ≤ str.length := digitsAt_length_le hlt
    dsimp only
    rw [readAt_bind hle]
    split
    · rw [parsePort_returns_iff hlt, or_iff_right hroot]
    · next hlong =>
      rw [hcopy, ok_bind]
      refine ⟨fun _ => ?_, fun _ => nohost_inRange hlt (Nat.zero_le _)⟩
      rintro (h | ⟨hport, -⟩)
      · exact hroot h
      · have hfive := hport.digits.2
        exact hlong ⟨hport.stop.symm, by omega⟩
  · next h47 =>
    replace h47 : str.getD (e + 1) 0 = 47 := Decidable.not_not.mp h47
    rw [or_iff_left fun h => not_isPort h47 rfl h.1, hcopy, ok_bind]
    have hlt1 := ne_end h47 (by decide)
    dsimp only
    rw [readAt_bind hlt1]
    split
    · next h47' =>
      have hlt2 := ne_end h47' (by decide)
      have hhost : Returns (hostPart str (e + 3) { emptyUrl with scheme := some (str.take e) })
          PortInRange := hostPart_returns hlt2 (Nat.zero_le _) (Or.inl (Nat.succ_pos _))
      split
      · next hfile =>
        have hlen := length_of_isFile hfile hlt
        rw [readAt_bind hlt2]
        split
        · next h47'' =>
          have hlt3 := ne_end h47'' (by decide)
          subst hlen
          by_cases hlong : 9 ≤ str.length
          · rw [readAt_bind hlong]
            refine ⟨fun _ h => absurd h.length (by omega), fun _ => ?_⟩
            split
            · exact nohost_inRange hlt3 (Nat.zero_le _)
            · exact nohost_inRange (by omega) (Nat.zero_le _)
          · have hroot : IsFileRoot str := by
              apply isFileRoot_of_length hfile hcolon _ (by omega)
              intro i hi
              match i, hi with
              | 0, _ => exact getElem?_of_getD h47 (by decide)
              | 1, _ => exact getElem?_of_getD h47' (by decide)
              | 2, _ => exact getElem?_of_getD h47'' (by decide)
            rw [readAt, if_neg hlong, error_bind, Returns.error_iff]
            exact ⟨False.elim, fun h => h hroot⟩
        · next hne => exact ⟨fun _ h => hne (hslash h 2 (by omega)), fun _ => hhost⟩
      · next hfile =>
        refine ⟨fun _ h => hfile ?_, fun _ => hhost⟩
        rw [hfour h]
        exact h.scheme
    · next hne =>
      exact ⟨fun _ h => hne (hslash h 1 (by omega)), fun _ =>
        nohost_inRange (Nat.le_of_lt hlt1) (Nat.zero_le _)⟩

/-- The parser reads `str[n + 1]`, or `str[-1]`. -/
def ReadsOutside (str : List UInt8) : Prop :=
  IsFileRoot str ∨
    ∃ e, firstIn str 58 0 str.length = some e ∧ IsPort str e ∧ ScanLeaves str

/-- The reads of the string, the copies and the port are in their bounds, exactly when the
string is not one of the two kinds. -/
theorem urlParse_inBounds_iff (str : List UInt8) :
    (∃ r, urlParse str = .ok r ∧ PortInRange r) ↔ ¬ReadsOutside str := by
  change Returns (urlParse str) PortInRange ↔ _
  rw [urlParse, memchr_of_le (Nat.zero_le _) (Nat.le_refl _), ok_bind, ReadsOutside]
  cases he : firstIn str 58 0 str.length with
  | none =>
    refine ⟨fun _ => ?_, fun _ => relativeScheme_returns⟩
    rintro (hroot | ⟨e, h, -⟩)
    · cases he.symm.trans hroot.colon
    · cases h
  | some e =>
    obtain ⟨-, hlt, -, -⟩ := firstIn_eq_some (Nat.le_refl _) he
    have hcolon : (∃ e', some e = some e' ∧ IsPort str e' ∧ ScanLeaves str) ↔
        IsPort str e ∧ ScanLeaves str :=
      ⟨fun ⟨e', heq, h⟩ => Option.some.inj heq ▸ h, fun h => ⟨e, rfl, h⟩⟩
    have hfour : IsFileRoot str → e = 4 := fun h => Option.some.inj (he.symm.trans h.colon)
    rw [hcolon]
    dsimp only
    split
    · split
      · next hall => exact withScheme_returns_iff he hall
      next hall =>
      have hroot : ¬IsFileRoot str := fun h => hall (hfour h ▸ h.all)
      rw [or_iff_right hroot]
      split
      · exact parsePort_returns_iff hlt
      · next hend =>
        refine ⟨fun _ h => ?_, fun _ => nohost_inRange (Nat.zero_le _) (Nat.zero_le _)⟩
        have hle : e + 1 + (digitsAt str (e + 1)).length ≤ str.length := digitsAt_length_le hlt
        have hpos := h.1.digits.1
        omega
    · next hzero =>
      have hroot : ¬IsFileRoot str := fun h => hzero (hfour h ▸ Nat.succ_pos 3)
      rw [or_iff_right hroot, parsePort_returns_iff hlt]

/-- Of `/x:80` the byte in front of the string is read. -/
theorem not_urlParse_inBounds :
    ¬ ∀ str : List UInt8, ∃ r, urlParse str = .ok r ∧ PortInRange r := by
  intro h
  obtain ⟨r, hr, -⟩ := h [47, 120, 58, 56, 48]
  have herror : urlParse [47, 120, 58, 56, 48] = .error .outsideString := rfl
  rw [herror] at hr
  cases hr

end PhpRuntime.Url

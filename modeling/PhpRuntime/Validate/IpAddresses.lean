import Mathlib.Data.List.Forall2
import PhpRuntime.Validate.Integers

/-!
# `FILTER_VALIDATE_IP`

`_php_filter_validate_ipv4` and `_php_filter_validate_ipv6` accept the texts of addresses, and
which addresses these are.
-/

set_option autoImplicit false

namespace PhpRuntime.Validate

open PhpRuntime.Lib PhpRuntime.Text

/-! ## The validators -/

/-- The loop over the digits of a number: the number, how many digits it has, and the rest. -/
def octetLoop : List UInt8 → ℕ → ℕ → Option (ℕ × ℕ × List UInt8)
  | [], num, m => some (num, m, [])
  | c :: str, num, m =>
    if isdigit c = true then
      if 255 < num * 10 + (c.toNat - 48) ∨ 3 < m + 1 then none
      else octetLoop str (num * 10 + (c.toNat - 48)) (m + 1)
    else some (num, m, c :: str)

/-- One number of `_php_filter_validate_ipv4`, and the rest. -/
def octet : List UInt8 → Option (ℕ × List UInt8)
  | [] => none
  | c :: str =>
    if isdigit c = true then
      match octetLoop str (c.toNat - 48) 1 with
      | none => none
      | some (num, m, str) =>
        -- don't allow a leading 0
        if c = 48 ∧ (num ≠ 0 ∨ 1 < m) then none else some (num, str)
    else none

/-- The loop of `_php_filter_validate_ipv4`. `left` numbers follow the one that is read next, and
`ip` has those in front of it. -/
def ipv4Loop : ℕ → List UInt8 → List ℕ → Option (List ℕ)
  | left, str, ip =>
    match octet str with
    | none => none
    | some (num, str) =>
      match left, str with
      | 0, str => if str = [] then some (ip ++ [num]) else none
      | _ + 1, [] => none
      | left + 1, c :: str => if c = 46 then ipv4Loop left str (ip ++ [num]) else none

/-- `_php_filter_validate_ipv4`: the numbers in `ip`, or `none` where it returns zero. -/
def phpFilterValidateIpv4 (str : List UInt8) : Option (List ℕ) := ipv4Loop 3 str []

/-- The bytes of the loop over the digits of a block. -/
def hexadecimal (c : UInt8) : Bool := (hexDigit c).isSome

/-- The colons in front of a block: what is left, `compressed` and `blocks`; or what
`_php_filter_validate_ipv6` returns there. `start` says that nothing has been read. -/
def separator (start : Bool) (str : List UInt8) (compressed : Bool) (blocks : ℕ) :
    Except Bool (List UInt8 × Bool × ℕ) :=
  if str.headD 0 = 58 then
    match str.tail with
    | [] => .error false
    | c :: rest =>
      if c = 58 then
        if compressed = true then .error false
        else if rest = [] then .error (blocks + 1 ≤ 8)
        else .ok (rest, true, blocks + 1)
      else if start = true then .error false
      else .ok (c :: rest, compressed, blocks)
  else .ok (str, compressed, blocks)

/-- The loop of `_php_filter_validate_ipv6`. Each turn but the last reads a block. -/
def ipv6Loop : ℕ → Bool → List UInt8 → Bool → ℕ → Bool
  | 0, _, _, _, _ => false
  | fuel + 1, start, str, compressed, blocks =>
    if str = [] then compressed = true ∧ blocks ≤ 8 ∨ blocks = 8
    else
      match separator start str compressed blocks with
      | .error returned => returned
      | .ok (str, compressed, blocks) =>
        let n := (str.takeWhile hexadecimal).length
        if n < 1 ∨ 4 < n then false
        else if 8 < blocks + 1 then false
        else ipv6Loop fuel false (str.drop n) compressed (blocks + 1)

/-- The text in front of a bundled IPv4 address, with its last colon. `ipv4` goes back from the
first dot. -/
def beforeIpv4 (str : List UInt8) : List UInt8 :=
  ((str.takeWhile (· ≠ 46)).reverse.dropWhile (· ≠ 58)).reverse

/-- `_php_filter_validate_ipv6` -/
def phpFilterValidateIpv6 (str : List UInt8) : Bool :=
  if 58 ∉ str then false
  else if 46 ∈ str then
    let before := beforeIpv4 str
    if phpFilterValidateIpv4 (str.drop before.length) = none then false
    else
      match before.reverse with
      | _ :: c :: rest =>
        -- don't include : before ipv4 unless it's a ::
        let text := if c ≠ 58 then (c :: rest).reverse else before
        ipv6Loop (text.length + 1) true text false 2
      | _ => false
  else ipv6Loop (str.length + 1) true str false 0

/-! ## The texts of addresses -/

/-- A decimal number up to 255 without leading zeros. -/
def Octet (text : List UInt8) (n : ℕ) : Prop :=
  ∃ ds, Digits decimalDigit text ds ∧ Positional.Canonical 10 ds ∧ n = Positional.value 10 ds ∧
    n ≤ 255

def Ipv4Text (text : List UInt8) (ip : List ℕ) : Prop :=
  ∃ texts, List.Forall₂ Octet texts ip ∧ ip.length = 4 ∧ text = [46].intercalate texts

def Group (text : List UInt8) (n : ℕ) : Prop :=
  ∃ ds, Digits hexDigit text ds ∧ 1 ≤ text.length ∧ text.length ≤ 4 ∧ n = Positional.value 16 ds

/-- Groups, of which the last two may be written as an IPv4 address. -/
inductive Pieces : List (List UInt8) → List ℕ → Prop
  | nil : Pieces [] []
  | group {g : List UInt8} {n : ℕ} {gs : List (List UInt8)} {ns : List ℕ} :
      Group g n → Pieces gs ns → Pieces (g :: gs) (n :: ns)
  | bundled {text : List UInt8} {a b c d : ℕ} :
      Ipv4Text text [a, b, c, d] → Pieces [text] [a * 256 + b, c * 256 + d]

/-- The text forms of an IPv6 address, and the eight numbers of the address. -/
inductive Ipv6Text : List UInt8 → List ℕ → Prop
  | full {ps : List (List UInt8)} {ns : List ℕ} :
      Pieces ps ns → ns.length = 8 → Ipv6Text ([58].intercalate ps) ns
  | compressed {gs ps : List (List UInt8)} {ns ns' : List ℕ} :
      List.Forall₂ Group gs ns → Pieces ps ns' → ns.length + ns'.length ≤ 7 →
      Ipv6Text ([58].intercalate gs ++ 58 :: 58 :: [58].intercalate ps)
        (ns ++ List.replicate (8 - (ns.length + ns'.length)) 0 ++ ns')

/-! ## IPv4 -/

variable {c : UInt8} {str text rest : List UInt8} {ip ns : List ℕ} {n num m : ℕ}

def NoDigit (str : List UInt8) : Prop := ∀ c ∈ str.head?, decimalDigit c = none

theorem isdigit_eq : isdigit c = (decimalDigit c).isSome := by
  unfold decimalDigit
  split
  · next h => exact h
  · next h => exact Bool.eq_false_iff.mpr h

theorem octetLoop_stop (hrest : NoDigit rest) : octetLoop rest num m = some (num, m, rest) := by
  cases rest with
  | nil => rfl
  | cons c rest =>
    have hc : isdigit c = false := by rw [isdigit_eq, hrest c rfl]; rfl
    rw [octetLoop, hc, if_neg (by decide)]

theorem octetLoop_cons (hc : decimalDigit c = some n) :
    octetLoop (c :: str) num m =
      if 255 < num * 10 + n ∨ 3 < m + 1 then none else octetLoop str (num * 10 + n) (m + 1) := by
  have hdigit : isdigit c = true := by rw [isdigit_eq, hc]; rfl
  rw [octetLoop, if_pos hdigit, ← (decimalDigit_eq_some.mp hc).2.2]

theorem octetLoop_of_digits {t : List UInt8} {ds : List ℕ} (hds : Digits decimalDigit t ds)
    (hrest : NoDigit rest) (hfits : ds ≠ [] → continued 10 ds num ≤ 255 ∧ m + ds.length ≤ 3) :
    octetLoop (t ++ rest) num m = some (continued 10 ds num, m + ds.length, rest) := by
  induction t generalizing num m ds with
  | nil =>
    rw [digits_nil.mp hds]
    exact octetLoop_stop hrest
  | cons c t ih =>
    obtain ⟨d, ds', hd, hds', rfl⟩ := digits_cons.mp hds
    obtain ⟨hval, hlen⟩ := hfits (List.cons_ne_nil d ds')
    rw [List.length_cons] at hlen
    have hnum : num * 10 + d ≤ 255 := (Positional.le_foldl (by decide) ds' _).trans hval
    rw [List.cons_append, octetLoop_cons hd, if_neg (by omega), ih hds' fun _ => ⟨hval, by omega⟩,
      continued_cons, List.length_cons, Nat.add_assoc, Nat.add_comm 1]

theorem digits_of_octetLoop {m' : ℕ} (h : octetLoop str num m = some (n, m', rest)) :
    ∃ t ds, Digits decimalDigit t ds ∧ str = t ++ rest ∧ NoDigit rest ∧ n = continued 10 ds num ∧
      m' = m + ds.length ∧ (ds ≠ [] → n ≤ 255 ∧ m' ≤ 3) := by
  induction str generalizing num m with
  | nil =>
    cases h
    exact ⟨[], [], rfl, rfl, fun c hc => absurd hc (by simp), rfl, rfl, fun h => absurd rfl h⟩
  | cons c str ih =>
    cases hc : decimalDigit c with
    | none =>
      have hstop : NoDigit (c :: str) := by
        intro b hb
        rw [List.head?_cons, Option.mem_some_iff] at hb
        rw [← hb, hc]
      rw [octetLoop_stop hstop] at h
      cases h
      exact ⟨[], [], rfl, rfl, hstop, rfl, rfl, fun h => absurd rfl h⟩
    | some d =>
      rw [octetLoop_cons hc] at h
      split at h
      · cases h
      · next hfits =>
        obtain ⟨t, ds, hds, rfl, hrest, rfl, rfl, hle⟩ := ih h
        refine ⟨c :: t, d :: ds, digits_cons.mpr ⟨d, ds, hc, hds, rfl⟩, rfl, hrest, rfl, ?_, ?_⟩
        · rw [List.length_cons]
          omega
        · intro _
          by_cases hnil : ds = []
          · subst hnil
            rw [continued, List.foldl_nil, List.length_nil]
            omega
          · exact hle hnil

theorem Octet.length_le {ds : List ℕ} (hds : Positional.Canonical 10 ds)
    (hle : Positional.value 10 ds ≤ 255) : ds.length ≤ 3 := by
  rw [← hds.numeral_value (by decide)]
  exact Positional.length_numeral_le (by decide) (by decide) (by omega)

theorem octet_eq_some :
    octet str = some (n, rest) ↔ ∃ t, Octet t n ∧ str = t ++ rest ∧ NoDigit rest := by
  constructor
  · intro h
    cases str with
    | nil => cases h
    | cons c str =>
      cases hc : decimalDigit c with
      | none =>
        have hdigit : isdigit c = false := by rw [isdigit_eq, hc]; rfl
        rw [octet, hdigit, if_neg (by decide)] at h
        cases h
      | some d =>
        have hdigit : isdigit c = true := by rw [isdigit_eq, hc]; rfl
        obtain ⟨hlow, hhigh, hval⟩ := decimalDigit_eq_some.mp hc
        rw [octet, if_pos hdigit, ← hval] at h
        split at h
        · cases h
        · next num m str' hloop =>
          split at h
          · cases h
          · next hlead =>
            cases h
            obtain ⟨t, ds, hds, rfl, hrest, rfl, rfl, hle⟩ := digits_of_octetLoop hloop
            refine ⟨c :: t, ⟨d :: ds, digits_cons.mpr ⟨d, ds, hc, hds, rfl⟩, ?_, ?_, ?_⟩, rfl, hrest⟩
            · refine ⟨decimalDigits_lt (digits_cons.mpr ⟨d, ds, hc, hds, rfl⟩), by simp, ?_⟩
              intro hzero
              have hd : d = 0 := Option.some.inj hzero
              have h48 : c = 48 := UInt8.toNat_inj.mp (by simp; omega)
              by_cases hnil : ds = []
              · rw [hd, hnil]
              · exact absurd ⟨h48, Or.inr (by have := List.length_pos_iff.mpr hnil; omega)⟩ hlead
            · rw [value_eq_continued, continued_cons, Nat.zero_mul, Nat.zero_add]
            · by_cases hnil : ds = []
              · subst hnil
                rw [continued, List.foldl_nil]
                omega
              · exact (hle hnil).1
  · rintro ⟨t, ⟨ds, hds, hcanon, rfl, hle⟩, rfl, hrest⟩
    have hlen := Octet.length_le hcanon hle
    cases t with
    | nil => exact absurd (digits_nil.mp hds) hcanon.ne
    | cons c t =>
      obtain ⟨d, ds', hc, hds', rfl⟩ := digits_cons.mp hds
      have hdigit : isdigit c = true := by rw [isdigit_eq, hc]; rfl
      have hval := (decimalDigit_eq_some.mp hc).2.2
      rw [value_eq_continued, continued_cons, Nat.zero_mul, Nat.zero_add] at hle ⊢
      rw [List.length_cons] at hlen
      rw [List.cons_append, octet, if_pos hdigit, ← hval,
        octetLoop_of_digits hds' hrest fun _ => ⟨hle, by omega⟩]
      refine if_neg ?_
      rintro ⟨rfl, hlead⟩
      have hzero : ds' = [] := by
        have hcons := hcanon.lead (by rw [hval]; rfl)
        exact (List.cons.inj hcons).2
      subst hzero
      rcases hlead with hne | hlt
      · exact hne hval
      · exact absurd hlt (by simp)

theorem noDigit_dot : NoDigit (46 :: str) := by
  intro b hb
  rw [List.head?_cons, Option.mem_some_iff] at hb
  rw [← hb]
  rfl

theorem ipv4Loop_eq_some {left : ℕ} {ip' : List ℕ} : ipv4Loop left str ip = some ip' ↔
    ∃ texts ns, List.Forall₂ Octet texts ns ∧ ns.length = left + 1 ∧
      str = [46].intercalate texts ∧ ip' = ip ++ ns := by
  induction left generalizing str ip with
  | zero =>
    constructor
    · intro h
      rw [ipv4Loop] at h
      split at h
      · cases h
      · next num str' hoctet =>
        obtain ⟨t, ht, rfl, -⟩ := octet_eq_some.mp hoctet
        dsimp only at h
        split at h
        · next hend =>
          cases h
          refine ⟨[t], [num], .cons ht .nil, rfl, ?_, rfl⟩
          rw [hend, List.append_nil, List.intercalate_singleton]
        · cases h
    · rintro ⟨texts, ns, htexts, hlen, rfl, rfl⟩
      obtain ⟨n, rfl⟩ := List.length_eq_one_iff.mp hlen
      obtain ⟨t, texts, ht, hnil, rfl⟩ := List.forall₂_cons_right_iff.mp htexts
      rw [List.forall₂_nil_right_iff.mp hnil, List.intercalate_singleton, ipv4Loop,
        octet_eq_some.mpr ⟨t, ht, (List.append_nil t).symm, fun c hc => absurd hc (by simp)⟩]
      exact if_pos rfl
  | succ left ih =>
    constructor
    · intro h
      rw [ipv4Loop] at h
      split at h
      · cases h
      · next num str' hoctet =>
        obtain ⟨t, ht, rfl, -⟩ := octet_eq_some.mp hoctet
        cases str' with
        | nil => cases h
        | cons c str' =>
          dsimp only at h
          split at h
          · next hdot =>
            obtain ⟨texts, ns, htexts, hlen, rfl, rfl⟩ := ih.mp h
            refine ⟨t :: texts, num :: ns, .cons ht htexts, by rw [List.length_cons, hlen], ?_, ?_⟩
            · have hne : texts ≠ [] := by
                rintro rfl
                rw [List.forall₂_nil_left_iff.mp htexts] at hlen
                cases hlen
              rw [List.intercalate_cons_of_ne_nil hne, hdot, List.append_assoc,
                List.singleton_append]
            · rw [List.append_assoc, List.singleton_append]
          · cases h
    · rintro ⟨_, _, hall, hlen, rfl, rfl⟩
      obtain ⟨n, ns, rfl⟩ := List.exists_cons_of_length_eq_add_one hlen
      obtain ⟨t, texts, ht, htexts, rfl⟩ := List.forall₂_cons_right_iff.mp hall
      have hlen' : ns.length = left + 1 := Nat.succ.inj hlen
      have hne : texts ≠ [] := by
        rintro rfl
        rw [List.forall₂_nil_left_iff.mp htexts] at hlen'
        cases hlen'
      rw [List.intercalate_cons_of_ne_nil hne, List.append_assoc, List.singleton_append, ipv4Loop,
        octet_eq_some.mpr ⟨t, ht, rfl, noDigit_dot⟩]
      dsimp only
      refine ih.mpr ⟨texts, ns, htexts, hlen', rfl, ?_⟩
      rw [List.append_assoc, List.singleton_append]

theorem phpFilterValidateIpv4_eq_some : phpFilterValidateIpv4 str = some ip ↔ Ipv4Text str ip := by
  rw [phpFilterValidateIpv4, ipv4Loop_eq_some]
  constructor
  · rintro ⟨texts, ns, htexts, hlen, hstr, rfl⟩
    exact ⟨texts, htexts, hlen, hstr⟩
  · rintro ⟨texts, htexts, hlen, hstr⟩
    exact ⟨texts, ip, htexts, hlen, hstr, rfl⟩

/-! ## The blocks of an IPv6 address -/

variable {g : List UInt8} {gs : List (List UInt8)} {start compressed compressed' : Bool}
  {fuel blocks blocks' : ℕ}

/-- The text does not go on with a hexadecimal digit. -/
def NoHex (str : List UInt8) : Prop := ∀ c ∈ str.head?, hexDigit c = none

def behind (gs : List (List UInt8)) : List UInt8 := gs.flatMap fun g => 58 :: g

theorem behind_cons (g : List UInt8) (gs : List (List UInt8)) :
    behind (g :: gs) = 58 :: (g ++ behind gs) := List.flatMap_cons

theorem intercalate_cons (g : List UInt8) (gs : List (List UInt8)) :
    [58].intercalate (g :: gs) = g ++ behind gs := by
  induction gs generalizing g with
  | nil => rw [List.intercalate_singleton, behind, List.flatMap_nil, List.append_nil]
  | cons g' gs ih =>
    rw [List.intercalate_cons_cons, ih g', behind_cons, List.append_assoc, List.singleton_append]

theorem noHex_colon (str : List UInt8) : NoHex (58 :: str) := by
  intro c hc
  rw [List.head?_cons, Option.mem_some_iff] at hc
  rw [← hc]
  rfl

theorem noHex_behind_append (gs : List (List UInt8)) {rest : List UInt8} (hrest : NoHex rest) :
    NoHex (behind gs ++ rest) := by
  cases gs with
  | nil => exact hrest
  | cons g gs =>
    exact noHex_colon _

theorem noHex_behind (gs : List (List UInt8)) : NoHex (behind gs) := by
  have hnil : NoHex [] := fun c hc => absurd hc (by simp)
  have h := noHex_behind_append gs hnil
  rwa [List.append_nil] at h

theorem isSome_of_digits {digit? : UInt8 → Option ℕ} {ds : List ℕ} (h : Digits digit? text ds) :
    ∀ c ∈ text, (digit? c).isSome = true := by
  intro c hc
  have hmem : digit? c ∈ ds.map some := by
    rw [← h]
    exact List.mem_map_of_mem hc
  obtain ⟨d, -, hd⟩ := List.mem_map.mp hmem
  rw [← hd]
  rfl

theorem exists_digits {digit? : UInt8 → Option ℕ} (h : ∀ c ∈ text, (digit? c).isSome = true) :
    ∃ ds, Digits digit? text ds := by
  induction text with
  | nil => exact ⟨[], rfl⟩
  | cons c text ih =>
    obtain ⟨d, hd⟩ := Option.isSome_iff_exists.mp (h c List.mem_cons_self)
    obtain ⟨ds, hds⟩ := ih fun b hb => h b (List.mem_cons_of_mem c hb)
    exact ⟨d :: ds, digits_cons.mpr ⟨d, ds, hd, hds, rfl⟩⟩

theorem Group.exists_cons (hg : Group g n) : ∃ c g', g = c :: g' ∧ hexadecimal c = true := by
  obtain ⟨ds, hds, hlen, -, -⟩ := hg
  obtain ⟨c, g', rfl⟩ := List.exists_cons_of_length_pos hlen
  exact ⟨c, g', rfl, isSome_of_digits hds c List.mem_cons_self⟩

theorem ne_colon (hc : hexadecimal c = true) : c ≠ 58 := by
  rintro rfl
  exact absurd hc (by decide)

theorem Group.append_ne (hg : Group g n) (rest : List UInt8) : (g ++ rest).headD 0 ≠ 58 := by
  obtain ⟨c, g', rfl, hc⟩ := hg.exists_cons
  exact ne_colon hc

theorem separator_of_ne (h : str.headD 0 ≠ 58) :
    separator start str compressed blocks = .ok (str, compressed, blocks) := if_neg h

theorem separator_single (hc : c ≠ 58) :
    separator false (58 :: c :: rest) compressed blocks = .ok (c :: rest, compressed, blocks) := by
  rw [separator, if_pos (by rfl)]
  dsimp only [List.tail_cons]
  rw [if_neg hc, if_neg (by decide)]

theorem separator_double (hrest : rest ≠ []) :
    separator start (58 :: 58 :: rest) false blocks = .ok (rest, true, blocks + 1) := by
  rw [separator, if_pos (by rfl)]
  dsimp only [List.tail_cons]
  rw [if_pos rfl, if_neg (by decide), if_neg hrest]

theorem takeWhile_noHex (hrest : NoHex rest) : rest.takeWhile hexadecimal = [] := by
  cases rest with
  | nil => rfl
  | cons c rest =>
    refine List.takeWhile_cons_of_neg ?_
    rw [hexadecimal, hrest c rfl]
    decide

theorem noHex_dropWhile (text : List UInt8) : NoHex (text.dropWhile hexadecimal) := by
  intro c hc
  have h := List.head?_dropWhile_not hexadecimal text
  rw [Option.mem_def.mp hc] at h
  exact Option.not_isSome_iff_eq_none.mp (Bool.eq_false_iff.mp h)

theorem drop_takeWhile (text : List UInt8) :
    text.drop (text.takeWhile hexadecimal).length = text.dropWhile hexadecimal := by
  have h := @List.drop_left _ (text.takeWhile hexadecimal) (text.dropWhile hexadecimal)
  rwa [List.takeWhile_append_dropWhile] at h

theorem ipv6Loop_turn (hstr : str ≠ [])
    (hsep : separator start str compressed blocks = .ok (text, compressed', blocks')) :
    ipv6Loop (fuel + 1) start str compressed blocks = true ↔
      ∃ g n rest, Group g n ∧ text = g ++ rest ∧ NoHex rest ∧ blocks' + 1 ≤ 8 ∧
        ipv6Loop fuel false rest compressed' (blocks' + 1) = true := by
  rw [ipv6Loop, if_neg hstr, hsep]
  dsimp only
  constructor
  · intro h
    split at h
    · cases h
    · next hlen =>
      split at h
      · cases h
      · next hblocks =>
        have hrun : ∀ c ∈ text.takeWhile hexadecimal, (hexDigit c).isSome = true :=
          fun c hc => List.mem_takeWhile_imp (p := hexadecimal) hc
        obtain ⟨ds, hds⟩ := exists_digits hrun
        rw [drop_takeWhile] at h
        exact ⟨_, _, _, ⟨ds, hds, by omega, by omega, rfl⟩, List.takeWhile_append_dropWhile.symm,
          noHex_dropWhile text, by omega, h⟩
  · rintro ⟨g, n, rest, ⟨ds, hds, hlow, hhigh, -⟩, rfl, hrest, hblocks, h⟩
    have hall : ∀ c ∈ g, hexadecimal c = true := isSome_of_digits hds
    have hrun : (g ++ rest).takeWhile hexadecimal = g := by
      rw [List.takeWhile_append_of_pos hall, takeWhile_noHex hrest, List.append_nil]
    rw [hrun, if_neg (by omega), if_neg (by omega), List.drop_left]
    exact h

theorem length_lt_of_group (hg : Group g n) (h : text = g ++ rest) : rest.length < text.length := by
  obtain ⟨ds, -, hlen, -, -⟩ := hg
  rw [h, List.length_append]
  omega

theorem ipv6Loop_double : ipv6Loop (fuel + 1) start (58 :: 58 :: rest) false blocks = true ↔
    rest = [] ∧ blocks + 1 ≤ 8 ∨ ∃ g n rest', Group g n ∧ rest = g ++ rest' ∧ NoHex rest' ∧
      blocks + 2 ≤ 8 ∧ ipv6Loop fuel false rest' true (blocks + 2) = true := by
  by_cases hrest : rest = []
  · subst hrest
    have hloop : ipv6Loop (fuel + 1) start [58, 58] false blocks = decide (blocks + 1 ≤ 8) := rfl
    rw [hloop, decide_eq_true_iff]
    constructor
    · exact fun h => Or.inl ⟨rfl, h⟩
    · rintro (⟨-, h⟩ | ⟨g, n, rest', hg, hnil, -⟩)
      · exact h
      · obtain ⟨c, g', rfl, -⟩ := hg.exists_cons
        cases hnil
  · rw [ipv6Loop_turn (List.cons_ne_nil _ _) (separator_double hrest)]
    constructor
    · exact Or.inr
    · rintro (⟨hnil, -⟩ | h)
      · exact absurd hnil hrest
      · exact h

theorem ipv6Loop_next (hstr : NoHex str) : ipv6Loop (fuel + 1) false str compressed blocks = true ↔
    (str = [] ∧ (compressed = true ∧ blocks ≤ 8 ∨ blocks = 8)) ∨
    (∃ g n rest, Group g n ∧ str = 58 :: (g ++ rest) ∧ NoHex rest ∧ blocks + 1 ≤ 8 ∧
      ipv6Loop fuel false rest compressed (blocks + 1) = true) ∨
    (compressed = false ∧ ∃ rest, str = 58 :: 58 :: rest ∧
      ipv6Loop (fuel + 1) false (58 :: 58 :: rest) false blocks = true) := by
  -- a block is not the second colon
  have hblock : ∀ {g n rest rest'}, Group g n → 58 :: rest' ≠ g ++ rest := by
    intro g n rest rest' hg h
    exact hg.append_ne rest (by rw [← h]; rfl)
  rcases str with - | ⟨b, str⟩
  · rw [ipv6Loop, if_pos rfl, decide_eq_true_iff]
    simp
  by_cases hb : b = 58
  · subst hb
    match str with
    | [] =>
      have hloop : ipv6Loop (fuel + 1) false [58] compressed blocks = false := rfl
      rw [hloop]
      refine iff_of_false (by decide) ?_
      rintro (⟨h, -⟩ | ⟨g, n, rest, hg, h, -⟩ | ⟨-, rest, h, -⟩)
      · cases h
      · obtain ⟨c, g', rfl, -⟩ := hg.exists_cons
        cases h
      · cases h
    | c :: rest =>
      by_cases hc : c = 58
      · subst hc
        cases compressed with
        | false =>
          constructor
          · exact fun h => Or.inr (Or.inr ⟨rfl, rest, rfl, h⟩)
          · rintro (⟨h, -⟩ | ⟨g, n, rest, hg, h, -⟩ | ⟨-, rest', h, hloop⟩)
            · cases h
            · exact absurd (List.cons.inj h).2 (hblock hg)
            · cases h
              exact hloop
        | true =>
          have hloop : ipv6Loop (fuel + 1) false (58 :: 58 :: rest) true blocks = false := rfl
          rw [hloop]
          refine iff_of_false (by decide) ?_
          rintro (⟨h, -⟩ | ⟨g, n, rest, hg, h, -⟩ | ⟨h, -⟩)
          · cases h
          · exact absurd (List.cons.inj h).2 (hblock hg)
          · cases h
      · rw [ipv6Loop_turn (List.cons_ne_nil _ _) (separator_single hc)]
        constructor
        · rintro ⟨g, n, rest', hg, htext, h⟩
          exact Or.inr (Or.inl ⟨g, n, rest', hg, by rw [htext], h⟩)
        · rintro (⟨h, -⟩ | ⟨g, n, rest', hg, h, htail⟩ | ⟨-, rest', h, -⟩)
          · cases h
          · exact ⟨g, n, rest', hg, (List.cons.inj h).2, htail⟩
          · cases h
            exact absurd rfl hc
  · have hsep : separator false (b :: str) compressed blocks = .ok (b :: str, compressed, blocks) :=
      separator_of_ne hb
    rw [ipv6Loop_turn (List.cons_ne_nil _ _) hsep]
    refine iff_of_false ?_ ?_
    · rintro ⟨g, n, rest, hg, htext, -⟩
      obtain ⟨c, g', rfl, hc⟩ := hg.exists_cons
      rw [(List.cons.inj htext).1] at hstr
      exact absurd hc (by rw [hexadecimal, hstr c rfl]; decide)
    · rintro (⟨h, -⟩ | ⟨g, n, rest, -, h, -⟩ | ⟨-, rest, h, -⟩)
      · cases h
      · exact hb (List.cons.inj h).1
      · exact hb (List.cons.inj h).1

theorem ipv6Loop_compressed (hfuel : str.length < fuel) (hstr : NoHex str) :
    ipv6Loop fuel false str true blocks = true ↔
      ∃ gs ns, List.Forall₂ Group gs ns ∧ str = behind gs ∧ blocks + ns.length ≤ 8 := by
  induction fuel generalizing str blocks with
  | zero => exact absurd hfuel (Nat.not_lt_zero _)
  | succ fuel ih =>
    rw [ipv6Loop_next hstr]
    constructor
    · rintro (⟨rfl, hle⟩ | ⟨g, n, rest, hg, rfl, hrest, -, h⟩ | ⟨h, -⟩)
      · exact ⟨[], [], .nil, rfl, by rw [List.length_nil]; omega⟩
      · rw [List.length_cons, List.length_append] at hfuel
        obtain ⟨gs, ns, hgs, rfl, hle⟩ := (ih (by omega) hrest).mp h
        refine ⟨g :: gs, n :: ns, .cons hg hgs, by rw [behind_cons], ?_⟩
        rw [List.length_cons]
        omega
      · cases h
    · rintro ⟨_, _, hgs, rfl, hle⟩
      cases hgs with
      | nil => exact Or.inl ⟨rfl, Or.inl ⟨rfl, hle⟩⟩
      | @cons g n gs ns hg hgs =>
        rw [behind_cons, List.length_cons, List.length_append] at hfuel
        rw [List.length_cons] at hle
        exact Or.inr (Or.inl ⟨g, n, behind gs, hg, behind_cons g gs, noHex_behind gs, by omega,
          (ih (by omega) (noHex_behind gs)).mpr ⟨gs, ns, hgs, rfl, by omega⟩⟩)

theorem ipv6Loop_behind_double (hfuel : rest.length ≤ fuel) :
    ipv6Loop (fuel + 1) start (58 :: 58 :: rest) false blocks = true ↔
      ∃ gs ns, List.Forall₂ Group gs ns ∧ rest = [58].intercalate gs ∧
        blocks + ns.length + 1 ≤ 8 := by
  rw [ipv6Loop_double]
  constructor
  · rintro (⟨rfl, hle⟩ | ⟨g, n, rest', hg, rfl, hrest, -, h⟩)
    · exact ⟨[], [], .nil, rfl, hle⟩
    · have hlen := length_lt_of_group hg (rfl : g ++ rest' = g ++ rest')
      obtain ⟨gs, ns, hgs, rfl, hle⟩ := (ipv6Loop_compressed (by omega) hrest).mp h
      refine ⟨g :: gs, n :: ns, .cons hg hgs, by rw [intercalate_cons], ?_⟩
      rw [List.length_cons]
      omega
  · rintro ⟨_, _, hgs, rfl, hle⟩
    cases hgs with
    | nil => exact Or.inl ⟨rfl, hle⟩
    | @cons g n gs ns hg hgs =>
      rw [intercalate_cons] at hfuel ⊢
      have hlen := length_lt_of_group hg (rfl : g ++ behind gs = g ++ behind gs)
      rw [List.length_cons] at hle
      exact Or.inr ⟨g, n, behind gs, hg, rfl, noHex_behind gs, by omega,
        (ipv6Loop_compressed (by omega) (noHex_behind gs)).mpr ⟨gs, ns, hgs, rfl, by omega⟩⟩

theorem ipv6Loop_uncompressed (hfuel : str.length < fuel) (hstr : NoHex str) :
    ipv6Loop fuel false str false blocks = true ↔
      (∃ gs ns, List.Forall₂ Group gs ns ∧ str = behind gs ∧ blocks + ns.length = 8) ∨
      ∃ gs ns gs' ns', List.Forall₂ Group gs ns ∧ List.Forall₂ Group gs' ns' ∧
        str = behind gs ++ 58 :: 58 :: [58].intercalate gs' ∧
        blocks + (ns.length + ns'.length) + 1 ≤ 8 := by
  induction fuel generalizing str blocks with
  | zero => exact absurd hfuel (Nat.not_lt_zero _)
  | succ fuel ih =>
    rw [ipv6Loop_next hstr]
    constructor
    · rintro (⟨rfl, hle⟩ | ⟨g, n, rest, hg, rfl, hrest, -, h⟩ | ⟨-, rest, rfl, h⟩)
      · refine Or.inl ⟨[], [], .nil, rfl, ?_⟩
        rcases hle with ⟨h, -⟩ | h
        · cases h
        · exact h
      · rw [List.length_cons, List.length_append] at hfuel
        rcases (ih (by omega) hrest).mp h with
          ⟨gs, ns, hgs, rfl, hle⟩ | ⟨gs, ns, gs', ns', hgs, hgs', rfl, hle⟩
        · refine Or.inl ⟨g :: gs, n :: ns, .cons hg hgs, by rw [behind_cons], ?_⟩
          rw [List.length_cons]
          omega
        · refine Or.inr ⟨g :: gs, n :: ns, gs', ns', .cons hg hgs, hgs', ?_, ?_⟩
          · rw [behind_cons, List.cons_append, List.append_assoc]
          · rw [List.length_cons]
            omega
      · rw [List.length_cons, List.length_cons] at hfuel
        obtain ⟨gs, ns, hgs, rfl, hle⟩ := (ipv6Loop_behind_double (by omega)).mp h
        refine Or.inr ⟨[], [], gs, ns, .nil, hgs, rfl, ?_⟩
        rw [List.length_nil]
        omega
    · rintro (⟨_, _, hgs, rfl, hle⟩ | ⟨_, _, gs', ns', hgs, hgs', rfl, hle⟩)
      · cases hgs with
        | nil => exact Or.inl ⟨rfl, Or.inr hle⟩
        | @cons g n gs ns hg hgs =>
          rw [behind_cons, List.length_cons, List.length_append] at hfuel
          rw [List.length_cons] at hle
          exact Or.inr (Or.inl ⟨g, n, behind gs, hg, behind_cons g gs, noHex_behind gs, by omega,
            (ih (by omega) (noHex_behind gs)).mpr (Or.inl ⟨gs, ns, hgs, rfl, by omega⟩)⟩)
      · cases hgs with
        | nil =>
          rw [behind, List.flatMap_nil, List.nil_append, List.length_cons, List.length_cons] at hfuel
          exact Or.inr (Or.inr ⟨rfl, [58].intercalate gs', rfl,
            (ipv6Loop_behind_double (by omega)).mpr ⟨gs', ns', hgs', rfl, by omega⟩⟩)
        | @cons g n gs ns hg hgs =>
          rw [List.length_cons] at hle
          rw [behind_cons, List.cons_append, List.append_assoc] at hfuel ⊢
          rw [List.length_cons, List.length_append] at hfuel
          have hrest := noHex_behind_append gs (noHex_colon (58 :: [58].intercalate gs'))
          exact Or.inr (Or.inl ⟨g, n, _, hg, rfl, hrest, by omega,
            (ih (by omega) hrest).mpr (Or.inr ⟨gs, ns, gs', ns', hgs, hgs', rfl, by omega⟩)⟩)

/-- Blocks without a dotted number: eight, or fewer and a `::`, `blocks` of them being counted
already. -/
def Blocks (str : List UInt8) (blocks : ℕ) : Prop :=
  (∃ gs ns, List.Forall₂ Group gs ns ∧ str = [58].intercalate gs ∧ blocks + ns.length = 8) ∨
  ∃ gs ns gs' ns', List.Forall₂ Group gs ns ∧ List.Forall₂ Group gs' ns' ∧
    str = [58].intercalate gs ++ 58 :: 58 :: [58].intercalate gs' ∧
    blocks + (ns.length + ns'.length) + 1 ≤ 8

theorem ipv6Loop_start_iff : ipv6Loop (str.length + 1) true str false blocks = true ↔
    Blocks str blocks := by
  rcases str with - | ⟨b, str⟩
  · have hloop : ipv6Loop 1 true [] false blocks = decide (false = true ∧ blocks ≤ 8 ∨ blocks = 8) :=
      rfl
    rw [List.length_nil, hloop, decide_eq_true_iff]
    constructor
    · rintro (⟨h, -⟩ | h)
      · cases h
      · exact Or.inl ⟨[], [], .nil, rfl, h⟩
    · rintro (⟨_, _, hgs, h, hle⟩ | ⟨gs, ns, gs', ns', -, -, h, -⟩)
      · cases hgs with
        | nil => exact Or.inr hle
        | cons hg _ =>
          obtain ⟨c, g', rfl, -⟩ := hg.exists_cons
          rw [intercalate_cons] at h
          cases h
      · exact absurd h.symm (by simp)
  by_cases hb : b = 58
  · subst hb
    -- no block stands in front
    have hnil : ∀ {gs ns rest rest'}, List.Forall₂ Group gs ns →
        58 :: rest' = [58].intercalate gs ++ rest → gs = [] ∧ ns = [] := by
      intro gs ns rest rest' hgs h
      cases hgs with
      | nil => exact ⟨rfl, rfl⟩
      | cons hg _ =>
        rw [intercalate_cons, List.append_assoc] at h
        exact absurd (by rw [← h]; rfl) (hg.append_ne _)
    by_cases hdouble : ∃ rest, str = 58 :: rest
    · obtain ⟨rest, rfl⟩ := hdouble
      rw [ipv6Loop_behind_double (by rw [List.length_cons, List.length_cons]; omega)]
      constructor
      · rintro ⟨gs, ns, hgs, rfl, hle⟩
        refine Or.inr ⟨[], [], gs, ns, .nil, hgs, rfl, ?_⟩
        rw [List.length_nil]
        omega
      · rintro (⟨gs, ns, hgs, h, -⟩ | ⟨gs, ns, gs', ns', hgs, hgs', h, hle⟩)
        · obtain ⟨rfl, rfl⟩ := hnil hgs (h.trans (List.append_nil _).symm)
          cases h
        · obtain ⟨rfl, rfl⟩ := hnil hgs h
          exact ⟨gs', ns', hgs', (List.cons.inj (List.cons.inj h).2).2, by omega⟩
    · have hloop : ipv6Loop ((58 :: str).length + 1) true (58 :: str) false blocks = false := by
        rcases str with - | ⟨c, rest⟩
        · rfl
        · have hc : c ≠ 58 := fun h => hdouble ⟨rest, by rw [h]⟩
          rw [ipv6Loop, if_neg (List.cons_ne_nil _ _), separator, if_pos (by rfl)]
          dsimp only [List.tail_cons]
          rw [if_neg hc, if_pos rfl]
      rw [hloop]
      refine iff_of_false (by decide) ?_
      rintro (⟨gs, ns, hgs, h, -⟩ | ⟨gs, ns, gs', ns', hgs, hgs', h, -⟩)
      · obtain ⟨rfl, rfl⟩ := hnil hgs (h.trans (List.append_nil _).symm)
        cases h
      · obtain ⟨rfl, rfl⟩ := hnil hgs h
        exact hdouble ⟨_, (List.cons.inj h).2⟩
  · have hsep : separator true (b :: str) false blocks = .ok (b :: str, false, blocks) :=
      separator_of_ne hb
    rw [ipv6Loop_turn (List.cons_ne_nil _ _) hsep]
    constructor
    · rintro ⟨g, n, rest, hg, htext, hrest, -, h⟩
      have hlen := length_lt_of_group hg htext
      rcases (ipv6Loop_uncompressed hlen hrest).mp h with
        ⟨gs, ns, hgs, rfl, hle⟩ | ⟨gs, ns, gs', ns', hgs, hgs', rfl, hle⟩
      · refine Or.inl ⟨g :: gs, n :: ns, .cons hg hgs, by rw [intercalate_cons, htext], ?_⟩
        rw [List.length_cons]
        omega
      · refine Or.inr ⟨g :: gs, n :: ns, gs', ns', .cons hg hgs, hgs', ?_, ?_⟩
        · rw [intercalate_cons, htext, List.append_assoc]
        · rw [List.length_cons]
          omega
    · rintro (⟨_, _, hgs, h, hle⟩ | ⟨_, _, gs', ns', hgs, hgs', h, hle⟩)
      · cases hgs with
        | nil => cases h
        | @cons g n gs ns hg hgs =>
          rw [intercalate_cons] at h
          have hlen := length_lt_of_group hg h
          rw [List.length_cons] at hle
          exact ⟨g, n, behind gs, hg, h, noHex_behind gs, by omega,
            (ipv6Loop_uncompressed hlen (noHex_behind gs)).mpr (Or.inl ⟨gs, ns, hgs, rfl, by omega⟩)⟩
      · cases hgs with
        | nil => exact absurd (List.cons.inj h).1 hb
        | @cons g n gs ns hg hgs =>
          rw [intercalate_cons, List.append_assoc] at h
          have hlen := length_lt_of_group hg h
          have hrest := noHex_behind_append gs (noHex_colon (58 :: [58].intercalate gs'))
          rw [List.length_cons] at hle
          exact ⟨g, n, _, hg, h, hrest, by omega, (ipv6Loop_uncompressed hlen hrest).mpr
            (Or.inr ⟨gs, ns, gs', ns', hgs, hgs', rfl, by omega⟩)⟩

/-! ## The IPv4 address at the end -/

theorem hexadecimal_of_group (hg : Group g n) : ∀ c ∈ g, hexadecimal c = true := by
  obtain ⟨ds, hds, -⟩ := hg
  exact isSome_of_digits hds

theorem mem_behind {ns : List ℕ} (hgs : List.Forall₂ Group gs ns) (hc : c ∈ behind gs) :
    c = 58 ∨ hexadecimal c = true := by
  induction hgs with
  | nil => exact absurd hc List.not_mem_nil
  | cons hg _ ih =>
    rw [behind_cons, List.mem_cons, List.mem_append] at hc
    rcases hc with hc | hc | hc
    · exact Or.inl hc
    · exact Or.inr (hexadecimal_of_group hg c hc)
    · exact ih hc

theorem mem_intercalate {ns : List ℕ} (hgs : List.Forall₂ Group gs ns)
    (hc : c ∈ [58].intercalate gs) : c = 58 ∨ hexadecimal c = true := by
  cases hgs with
  | nil => exact absurd hc List.not_mem_nil
  | cons hg hgs =>
    rw [intercalate_cons, List.mem_append] at hc
    rcases hc with hc | hc
    · exact Or.inr (hexadecimal_of_group hg c hc)
    · exact mem_behind hgs hc

theorem not_mem_intercalate {ns : List ℕ} (hgs : List.Forall₂ Group gs ns) :
    (46 : UInt8) ∉ [58].intercalate gs := by
  intro hc
  rcases mem_intercalate hgs hc with h | h
  · exact absurd h (by decide)
  · exact absurd h (by decide)

theorem behind_append (gs gs' : List (List UInt8)) : behind (gs ++ gs') = behind gs ++ behind gs' :=
  List.flatMap_append

theorem intercalate_append_singleton (hgs : gs ≠ []) (text : List UInt8) :
    [58].intercalate (gs ++ [text]) = [58].intercalate gs ++ 58 :: text := by
  obtain ⟨g, gs, rfl⟩ := List.exists_cons_of_ne_nil hgs
  rw [List.cons_append, intercalate_cons, intercalate_cons, behind_append, behind_cons,
    List.append_assoc]
  simp [behind]

theorem reverse_intercalate {ns : List ℕ} (hgs : List.Forall₂ Group gs ns) (hne : gs ≠ []) :
    ∃ c rest, ([58].intercalate gs).reverse = c :: rest ∧ hexadecimal c = true := by
  induction hgs with
  | nil => exact absurd rfl hne
  | @cons g n gs ns hg hgs ih =>
    by_cases hnil : gs = []
    · subst hnil
      rw [List.intercalate_singleton]
      obtain ⟨ds, hds, hlen, -⟩ := hg
      have hpos : 0 < g.reverse.length := by rwa [List.length_reverse]
      obtain ⟨c, rest, hrev⟩ := List.exists_cons_of_length_pos hpos
      refine ⟨c, rest, hrev, isSome_of_digits hds c (List.mem_reverse.mp ?_)⟩
      rw [hrev]
      exact List.mem_cons_self
    · obtain ⟨c, rest, hrev, hc⟩ := ih hnil
      rw [List.intercalate_cons_of_ne_nil hnil, List.reverse_append, hrev, List.cons_append]
      exact ⟨c, _, rfl, hc⟩

theorem pieces_iff {ps : List (List UInt8)} : Pieces ps ns ↔ List.Forall₂ Group ps ns ∨
    ∃ gs ms text a b c d, List.Forall₂ Group gs ms ∧ Ipv4Text text [a, b, c, d] ∧
      ps = gs ++ [text] ∧ ns = ms ++ [a * 256 + b, c * 256 + d] := by
  constructor
  · intro h
    induction h with
    | nil => exact Or.inl .nil
    | @group g n gs ns hg _ ih =>
      rcases ih with h | ⟨gs, ms, text, a, b, c, d, hgs, htext, rfl, rfl⟩
      · exact Or.inl (.cons hg h)
      · exact Or.inr ⟨g :: gs, n :: ms, text, a, b, c, d, .cons hg hgs, htext, rfl, rfl⟩
    | @bundled text a b c d h => exact Or.inr ⟨[], [], text, a, b, c, d, .nil, h, rfl, rfl⟩
  · rintro (h | ⟨gs, ms, text, a, b, c, d, hgs, htext, rfl, rfl⟩)
    · induction h with
      | nil => exact .nil
      | cons hg _ ih => exact .group hg ih
    · induction hgs with
      | nil => exact .bundled htext
      | cons hg _ ih => exact .group hg ih

theorem ne_of_octet (ht : Octet text n) (hc : c ∈ text) : c ≠ 46 ∧ c ≠ 58 := by
  obtain ⟨ds, hds, -⟩ := ht
  have hdigit := isSome_of_digits hds c hc
  constructor
  · rintro rfl
    exact absurd hdigit (by decide)
  · rintro rfl
    exact absurd hdigit (by decide)

theorem exists_dot_of_ipv4 (h : Ipv4Text text ip) :
    ∃ t rest, text = t ++ 46 :: rest ∧ (∀ c ∈ t, c ≠ 46 ∧ c ≠ 58) := by
  obtain ⟨texts, htexts, hlen, rfl⟩ := h
  obtain ⟨a, ip, rfl⟩ := List.exists_cons_of_length_eq_add_one hlen
  obtain ⟨b, ip, rfl⟩ := List.exists_cons_of_length_eq_add_one (Nat.succ.inj hlen)
  obtain ⟨t, _, ht, htail, rfl⟩ := List.forall₂_cons_right_iff.mp htexts
  obtain ⟨t', ts, -, -, rfl⟩ := List.forall₂_cons_right_iff.mp htail
  refine ⟨t, [46].intercalate (t' :: ts), ?_, fun c hc => ne_of_octet ht hc⟩
  rw [List.intercalate_cons_cons, List.append_assoc, List.singleton_append]

theorem beforeIpv4_append {before : List UInt8} (h : Ipv4Text text ip) (hdot : (46 : UInt8) ∉ before)
    (hend : before.reverse.headD 58 = 58) : beforeIpv4 (before ++ text) = before := by
  obtain ⟨t, rest, rfl, ht⟩ := exists_dot_of_ipv4 h
  have hbefore : ∀ c ∈ before ++ t, decide (c ≠ 46) = true := by
    intro c hc
    rw [decide_eq_true_iff]
    rcases List.mem_append.mp hc with hc | hc
    · rintro rfl
      exact hdot hc
    · exact (ht c hc).1
  have htake : (before ++ (t ++ 46 :: rest)).takeWhile (· ≠ 46) = before ++ t := by
    rw [← List.append_assoc, List.takeWhile_append_of_pos hbefore,
      List.takeWhile_cons_of_neg (by decide), List.append_nil]
  have hrev : ∀ c ∈ t.reverse, decide (c ≠ 58) = true := by
    intro c hc
    exact decide_eq_true (ht c (List.mem_reverse.mp hc)).2
  have hdrop : before.reverse.dropWhile (· ≠ 58) = before.reverse := by
    cases hcase : before.reverse with
    | nil => rfl
    | cons c rest' =>
      rw [hcase, List.headD_cons] at hend
      rw [hend]
      exact List.dropWhile_cons_of_neg (by decide)
  rw [beforeIpv4, htake, List.reverse_append, List.dropWhile_append_of_pos hrev, hdrop,
    List.reverse_reverse]

theorem exists_beforeIpv4 (str : List UInt8) :
    (∃ rest, str = beforeIpv4 str ++ rest) ∧ (beforeIpv4 str).reverse.headD 58 = 58 := by
  constructor
  · have hsuffix := List.dropWhile_suffix (l := (str.takeWhile (· ≠ 46)).reverse) (· ≠ 58)
    have hfirst : beforeIpv4 str <+: str.takeWhile (· ≠ 46) := by
      rw [← List.reverse_suffix, beforeIpv4, List.reverse_reverse]
      exact hsuffix
    obtain ⟨rest, hrest⟩ := hfirst.trans (List.takeWhile_prefix _)
    exact ⟨rest, hrest.symm⟩
  · rw [beforeIpv4, List.reverse_reverse]
    have h := List.head?_dropWhile_not (· ≠ 58) (str.takeWhile (· ≠ 46)).reverse
    cases hcase : (str.takeWhile (· ≠ 46)).reverse.dropWhile (· ≠ 58) with
    | nil => rfl
    | cons c rest =>
      rw [hcase] at h
      exact of_not_not (of_decide_eq_false h)

/-! ## The IPv6 validator -/

/-- The blocks of which the last is not the IPv4 address, as the loop gets them. -/
def Bundle (before : List UInt8) : Prop :=
  ∃ c rest, before.reverse = 58 :: c :: rest ∧
    Blocks (if c ≠ 58 then (c :: rest).reverse else before) 2

theorem bundle_of_blocks {t : List UInt8} (ht : Blocks t 2) {c : UInt8} {rest : List UInt8}
    (hrev : t.reverse = c :: rest) (hc : c ≠ 58) : Bundle (t ++ [58]) := by
  refine ⟨c, rest, by rw [List.reverse_append, hrev]; rfl, ?_⟩
  rw [if_pos hc, ← hrev, List.reverse_reverse]
  exact ht

theorem bundle_iff : (∃ before text ip, str = before ++ text ∧ Ipv4Text text ip ∧ Bundle before) ↔
    ∃ gs ms text a b c d ns, List.Forall₂ Group gs ms ∧ Ipv4Text text [a, b, c, d] ∧
      ns = ms ++ [a * 256 + b, c * 256 + d] ∧
      (ns.length = 8 ∧ str = [58].intercalate (gs ++ [text]) ∨
        ∃ gs' ms', List.Forall₂ Group gs' ms' ∧ ms'.length + ns.length ≤ 7 ∧
          str = [58].intercalate gs' ++ 58 :: 58 :: [58].intercalate (gs ++ [text])) := by
  constructor
  · rintro ⟨before, text, ip, rfl, htext, x, rest, hrev, hblocks⟩
    obtain ⟨a, b, c, d, rfl⟩ : ∃ a b c d, ip = [a, b, c, d] := by
      obtain ⟨texts, -, hlen, -⟩ := htext
      match ip, hlen with
      | [a, b, c, d], _ => exact ⟨a, b, c, d, rfl⟩
    split at hblocks
    · next hx =>
      -- one colon between the blocks and the address
      have hbefore : before = (x :: rest).reverse ++ [58] := by
        rw [← List.reverse_cons, ← hrev, List.reverse_reverse]
      generalize hT : (x :: rest).reverse = T at hblocks hbefore
      have hTrev : T.reverse = x :: rest := by rw [← hT, List.reverse_reverse]
      subst hbefore
      rcases hblocks with ⟨gs, ns, hgs, rfl, hlen⟩ | ⟨gs', ns', gs, ns, hgs', hgs, rfl, hlen⟩
      · have hne : gs ≠ [] := by
          rintro rfl
          cases hTrev
        refine ⟨gs, ns, text, a, b, c, d, _, hgs, htext, rfl, Or.inl ⟨?_, ?_⟩⟩
        · rw [List.length_append, List.length_cons, List.length_singleton]
          omega
        · rw [intercalate_append_singleton hne, List.append_assoc, List.singleton_append]
      · have hne : gs ≠ [] := by
          rintro rfl
          rw [List.reverse_append] at hTrev
          exact hx (List.cons.inj hTrev).1.symm
        refine ⟨gs, ns, text, a, b, c, d, _, hgs, htext, rfl, Or.inr ⟨gs', ns', hgs', ?_, ?_⟩⟩
        · rw [List.length_append, List.length_cons, List.length_singleton]
          omega
        · rw [intercalate_append_singleton hne, List.append_assoc, List.append_assoc,
            List.singleton_append, List.cons_append, List.cons_append]
    · next hx =>
      -- the address behind a `::`
      rw [ne_eq, not_not] at hx
      rcases hblocks with ⟨gs, ns, hgs, rfl, hlen⟩ | ⟨gs', ns', gs, ns, hgs', hgs, rfl, hlen⟩
      · have hne : gs ≠ [] := by
          rintro rfl
          cases hrev
        obtain ⟨y, rest', hrev', hy⟩ := reverse_intercalate hgs hne
        rw [hrev'] at hrev
        exact absurd (List.cons.inj hrev).1 (ne_colon hy)
      · by_cases hne : gs = []
        · subst hne
          refine ⟨[], [], text, a, b, c, d, _, .nil, htext, rfl, Or.inr ⟨gs', ns', hgs', ?_, ?_⟩⟩
          · rw [List.nil_append, List.length_cons, List.length_singleton]
            omega
          · rw [List.nil_append, List.intercalate_singleton, List.intercalate_nil,
              List.append_assoc, List.cons_append, List.cons_append, List.nil_append]
        · obtain ⟨y, rest', hrev', hy⟩ := reverse_intercalate hgs hne
          rw [List.reverse_append, List.reverse_cons, List.reverse_cons, hrev'] at hrev
          exact absurd (List.cons.inj hrev).1 (ne_colon hy)
  · rintro ⟨gs, ms, text, a, b, c, d, _, hgs, htext, rfl, hform⟩
    rw [List.length_append, List.length_cons, List.length_singleton] at hform
    rcases hform with ⟨hlen, rfl⟩ | ⟨gs', ms', hgs', hlen, rfl⟩
    · have hne : gs ≠ [] := by
        rintro rfl
        rw [List.forall₂_nil_left_iff.mp hgs, List.length_nil] at hlen
        omega
      obtain ⟨y, rest, hrev, hy⟩ := reverse_intercalate hgs hne
      refine ⟨[58].intercalate gs ++ [58], text, _, ?_, htext, bundle_of_blocks ?_ hrev (ne_colon hy)⟩
      · rw [intercalate_append_singleton hne, List.append_assoc, List.singleton_append]
      · exact Or.inl ⟨gs, ms, hgs, rfl, by omega⟩
    · by_cases hne : gs = []
      · subst hne
        refine ⟨[58].intercalate gs' ++ [58, 58], text, _, ?_, htext, 58,
          ([58].intercalate gs').reverse, by rw [List.reverse_append]; rfl, ?_⟩
        · rw [List.nil_append, List.intercalate_singleton, List.append_assoc, List.cons_append,
            List.cons_append, List.nil_append]
        · rw [if_neg (by decide)]
          refine Or.inr ⟨gs', ms', [], [], hgs', .nil, rfl, ?_⟩
          rw [List.length_nil]
          omega
      · obtain ⟨y, rest, hrev, hy⟩ := reverse_intercalate hgs hne
        have hT : ([58].intercalate gs' ++ 58 :: 58 :: [58].intercalate gs).reverse =
            y :: (rest ++ [58] ++ [58] ++ ([58].intercalate gs').reverse) := by
          rw [List.reverse_append, List.reverse_cons, List.reverse_cons, hrev]
          rfl
        refine ⟨_, text, _, ?_, htext, bundle_of_blocks ?_ hT (ne_colon hy)⟩
        · rw [intercalate_append_singleton hne, List.append_assoc, List.append_assoc,
            List.singleton_append, List.cons_append, List.cons_append]
        · exact Or.inr ⟨gs', ms', gs, ms, hgs', hgs, rfl, by omega⟩

theorem not_mem_blocks (h : Blocks str blocks) : (46 : UInt8) ∉ str := by
  rcases h with ⟨gs, ns, hgs, rfl, -⟩ | ⟨gs, ns, gs', ns', hgs, hgs', rfl, -⟩
  · exact not_mem_intercalate hgs
  · intro hc
    rw [List.mem_append, List.mem_cons, List.mem_cons] at hc
    rcases hc with hc | hc | hc | hc
    · exact not_mem_intercalate hgs hc
    · exact absurd hc (by decide)
    · exact absurd hc (by decide)
    · exact not_mem_intercalate hgs' hc

theorem not_mem_bundle {before : List UInt8} (h : Bundle before) : (46 : UInt8) ∉ before := by
  obtain ⟨c, rest, hrev, hblocks⟩ := h
  split at hblocks
  · have hbefore : before = (c :: rest).reverse ++ [58] := by
      rw [← List.reverse_cons, ← hrev, List.reverse_reverse]
    rw [hbefore, List.mem_append, List.mem_singleton]
    rintro (hc | hc)
    · exact not_mem_blocks hblocks hc
    · exact absurd hc (by decide)
  · exact not_mem_blocks hblocks

theorem colon_mem_blocks (h : Blocks str 0) : (58 : UInt8) ∈ str := by
  rcases h with ⟨_, _, hgs, rfl, hlen⟩ | ⟨gs, ns, gs', ns', -, -, rfl, -⟩
  · cases hgs with
    | nil => cases hlen
    | cons hg hgs =>
      rw [intercalate_cons, List.mem_append]
      cases hgs with
      | nil => cases hlen
      | cons hg' hgs =>
        exact Or.inr List.mem_cons_self
  · exact List.mem_append_right _ List.mem_cons_self

theorem phpFilterValidateIpv6_iff_blocks : phpFilterValidateIpv6 str = true ↔ Blocks str 0 ∨
    ∃ before text ip, str = before ++ text ∧ Ipv4Text text ip ∧ Bundle before := by
  have hdot : ∀ {before text ip}, Ipv4Text text ip → str = before ++ text → (46 : UInt8) ∈ str := by
    intro before text ip htext heq
    obtain ⟨t, rest, rfl, -⟩ := exists_dot_of_ipv4 htext
    rw [heq]
    simp
  have hcolon : ∀ {before text}, Bundle before → str = before ++ text → (58 : UInt8) ∈ str := by
    rintro before text ⟨c, rest, hrev, -⟩ heq
    rw [heq, List.mem_append, ← List.mem_reverse, hrev]
    exact Or.inl List.mem_cons_self
  unfold phpFilterValidateIpv6
  split
  · next hnone =>
    refine iff_of_false (by decide) ?_
    rintro (h | ⟨before, text, ip, heq, -, hbundle⟩)
    · exact hnone (colon_mem_blocks h)
    · exact hnone (hcolon hbundle heq)
  · split
    · next hmem =>
      obtain ⟨⟨text, hstr⟩, hend⟩ := exists_beforeIpv4 str
      generalize hB : beforeIpv4 str = before at hstr hend ⊢
      have hdrop : str.drop before.length = text := by rw [hstr, List.drop_left]
      have hblocks : ¬ Blocks str 0 := fun h => not_mem_blocks h hmem
      dsimp only
      rw [or_iff_right hblocks, hdrop]
      -- the text behind the last colon is the only one that can be an address
      have hunique : ∀ {before' text' ip}, str = before' ++ text' → Ipv4Text text' ip →
          Bundle before' → before' = before ∧ text' = text := by
        intro before' text' ip heq htext hbundle
        obtain ⟨c, rest, hrev, -⟩ := id hbundle
        have hfound := beforeIpv4_append htext (not_mem_bundle hbundle) (by rw [hrev]; rfl)
        rw [← heq, hB] at hfound
        refine ⟨hfound.symm, ?_⟩
        rw [← hdrop, hfound, heq, List.drop_left]
      split
      · next hnone =>
        refine iff_of_false (by decide) ?_
        rintro ⟨before', text', ip, heq, htext, hbundle⟩
        obtain ⟨rfl, rfl⟩ := hunique heq htext hbundle
        rw [phpFilterValidateIpv4_eq_some.mpr htext] at hnone
        cases hnone
      · next hsome =>
        obtain ⟨ip, hip⟩ := Option.ne_none_iff_exists'.mp hsome
        have htext := phpFilterValidateIpv4_eq_some.mp hip
        have hiff : (∃ before' text' ip, str = before' ++ text' ∧ Ipv4Text text' ip ∧
            Bundle before') ↔ Bundle before := by
          constructor
          · rintro ⟨before', text', ip', heq, htext', hbundle⟩
            rwa [← (hunique heq htext' hbundle).1]
          · exact fun h => ⟨before, text, ip, hstr, htext, h⟩
        rw [hiff]
        split
        · next b c rest hrev =>
          have hb : b = 58 := by
            rw [hrev] at hend
            exact hend
          subst hb
          rw [ipv6Loop_start_iff]
          constructor
          · exact fun h => ⟨c, rest, hrev, h⟩
          · rintro ⟨c', rest', hrev', h⟩
            rw [hrev] at hrev'
            cases hrev'
            exact h
        · next hshort =>
          refine iff_of_false (by decide) ?_
          rintro ⟨c, rest, hrev, -⟩
          exact hshort _ _ _ hrev
    · next hnone =>
      rw [ipv6Loop_start_iff]
      refine (or_iff_left ?_).symm
      rintro ⟨before, text, ip, heq, htext, -⟩
      exact hnone (hdot htext heq)

theorem exists_ipv6Text_iff : (∃ ns, Ipv6Text str ns) ↔ Blocks str 0 ∨
    ∃ before text ip, str = before ++ text ∧ Ipv4Text text ip ∧ Bundle before := by
  rw [bundle_iff]
  constructor
  · rintro ⟨_, hform⟩
    cases hform with
    | @full ps ns hps hlen =>
      rcases pieces_iff.mp hps with hps | ⟨gs, ms, text, a, b, c, d, hgs, htext, rfl, rfl⟩
      · exact Or.inl (Or.inl ⟨ps, _, hps, rfl, by omega⟩)
      · exact Or.inr ⟨gs, ms, text, a, b, c, d, _, hgs, htext, rfl, Or.inl ⟨hlen, rfl⟩⟩
    | @compressed gs ps ns ns' hgs hps hlen =>
      rcases pieces_iff.mp hps with hps | ⟨gs', ms, text, a, b, c, d, hgs', htext, rfl, rfl⟩
      · exact Or.inl (Or.inr ⟨gs, ns, ps, ns', hgs, hps, rfl, by omega⟩)
      · exact Or.inr ⟨gs', ms, text, a, b, c, d, _, hgs', htext, rfl,
          Or.inr ⟨gs, ns, hgs, hlen, rfl⟩⟩
  · rintro ((⟨gs, ns, hgs, rfl, hlen⟩ | ⟨gs, ns, gs', ns', hgs, hgs', rfl, hlen⟩) |
      ⟨gs, ms, text, a, b, c, d, ns, hgs, htext, rfl,
        (⟨hlen, rfl⟩ | ⟨gs', ms', hgs', hlen, rfl⟩)⟩)
    · exact ⟨ns, .full (pieces_iff.mpr (Or.inl hgs)) (by omega)⟩
    · exact ⟨_, .compressed hgs (pieces_iff.mpr (Or.inl hgs')) (by omega)⟩
    · exact ⟨_, .full (pieces_iff.mpr (Or.inr ⟨gs, ms, text, a, b, c, d, hgs, htext, rfl, rfl⟩))
        hlen⟩
    · exact ⟨_, .compressed hgs' (pieces_iff.mpr
        (Or.inr ⟨gs, ms, text, a, b, c, d, hgs, htext, rfl, rfl⟩)) hlen⟩

/-- The validators accept the texts of addresses and no others. -/
theorem phpFilterValidateIp_iff (str : List UInt8) :
    (∀ ip, phpFilterValidateIpv4 str = some ip ↔ Ipv4Text str ip) ∧
      (phpFilterValidateIpv6 str = true ↔ ∃ ns, Ipv6Text str ns) := by
  refine ⟨fun ip => phpFilterValidateIpv4_eq_some, ?_⟩
  rw [phpFilterValidateIpv6_iff_blocks, exists_ipv6Text_iff]

end PhpRuntime.Validate

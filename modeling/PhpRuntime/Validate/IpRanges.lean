import PhpRuntime.Validate.IpAddresses

/-!
# The ranges of `FILTER_VALIDATE_IP`

`php_filter_validate_ip` with `FILTER_FLAG_NO_PRIV_RANGE` and `FILTER_FLAG_NO_RES_RANGE`, and the
addresses for which its answer depends on how they are written.
-/

set_option autoImplicit false

namespace PhpRuntime.Validate

open PhpRuntime.Lib PhpRuntime.Text

/-! ## The filter -/

/-- `FILTER_FLAG_IPV4` -/
def FILTER_FLAG_IPV4 : ℕ := 0x100000

/-- `FILTER_FLAG_IPV6` -/
def FILTER_FLAG_IPV6 : ℕ := 0x200000

/-- `FILTER_FLAG_NO_RES_RANGE` -/
def FILTER_FLAG_NO_RES_RANGE : ℕ := 0x400000

/-- `FILTER_FLAG_NO_PRIV_RANGE` -/
def FILTER_FLAG_NO_PRIV_RANGE : ℕ := 0x800000

/-- `!strncasecmp(s, value, n)`, where `n` is the length of `s`. -/
def startsWith (s value : List UInt8) : Bool := s.map tolower = (value.take s.length).map tolower

/-- The test of an IPv4 address for `FILTER_FLAG_NO_PRIV_RANGE`. -/
def privateIpv4 (ip : List ℕ) : Bool :=
  ip.getD 0 0 = 10 ∨ ip.getD 0 0 = 172 ∧ 16 ≤ ip.getD 1 0 ∧ ip.getD 1 0 ≤ 31 ∨
    ip.getD 0 0 = 192 ∧ ip.getD 1 0 = 168

/-- The test of an IPv4 address for `FILTER_FLAG_NO_RES_RANGE`. -/
def reservedIpv4 (ip : List ℕ) : Bool :=
  ip.getD 0 0 = 0 ∨ ip.getD 0 0 = 128 ∧ ip.getD 1 0 = 0 ∨ ip.getD 0 0 = 191 ∧ ip.getD 1 0 = 255 ∨
    ip.getD 0 0 = 169 ∧ ip.getD 1 0 = 254 ∨
    ip.getD 0 0 = 192 ∧ ip.getD 1 0 = 0 ∧ ip.getD 2 0 = 2 ∨
    ip.getD 0 0 = 127 ∧ ip.getD 1 0 = 0 ∧ ip.getD 2 0 = 0 ∧ ip.getD 3 0 = 1 ∨
    224 ≤ ip.getD 0 0 ∧ ip.getD 0 0 ≤ 255

/-- The test of an IPv6 text for `FILTER_FLAG_NO_PRIV_RANGE`: it begins with `FC` or `FD`. -/
def privateIpv6 (value : List UInt8) : Bool :=
  2 ≤ value.length ∧ (startsWith [70, 67] value = true ∨ startsWith [70, 68] value = true)

/-- The test of an IPv6 text for `FILTER_FLAG_NO_RES_RANGE`: it is `::`, `::1` or `5f:`, or begins
with `fe8`, `fe9`, `fea`, `feb`, `2001:0db8`, `5f`, `3ff3` or `2001:001`. -/
def reservedIpv6 (value : List UInt8) : Bool :=
  if value.length ≤ 1 then false
  else if value.length = 2 then value = [58, 58]
  else if value.length = 3 then value = [58, 58, 49] ∨ value = [53, 102, 58]
  else
    5 ≤ value.length ∧ (startsWith [102, 101, 56] value = true ∨
        startsWith [102, 101, 57] value = true ∨ startsWith [102, 101, 97] value = true ∨
        startsWith [102, 101, 98] value = true) ∨
      9 ≤ value.length ∧ startsWith [50, 48, 48, 49, 58, 48, 100, 98, 56] value = true ∨
      2 ≤ value.length ∧ startsWith [53, 102] value = true ∨
      4 ≤ value.length ∧ startsWith [51, 102, 102, 51] value = true ∨
      8 ≤ value.length ∧ startsWith [50, 48, 48, 49, 58, 48, 48, 49] value = true

/-- `flags & flag` -/
def has (flags flag : ℕ) : Bool := flags &&& flag ≠ 0

/-- `php_filter_validate_ip`: whether the value is left as it is. -/
def phpFilterValidateIp (value : List UInt8) (flags : ℕ) : Bool :=
  if 58 ∈ value then
    if has flags FILTER_FLAG_IPV4 = true ∧ ¬ has flags FILTER_FLAG_IPV6 = true then false
    else if phpFilterValidateIpv6 value = false then false
    else if has flags FILTER_FLAG_NO_PRIV_RANGE = true ∧ privateIpv6 value = true then false
    else if has flags FILTER_FLAG_NO_RES_RANGE = true ∧ reservedIpv6 value = true then false
    else true
  else if 46 ∈ value then
    if has flags FILTER_FLAG_IPV6 = true ∧ ¬ has flags FILTER_FLAG_IPV4 = true then false
    else match phpFilterValidateIpv4 value with
    | none => false
    | some ip =>
      if has flags FILTER_FLAG_NO_PRIV_RANGE = true ∧ privateIpv4 ip = true then false
      else if has flags FILTER_FLAG_NO_RES_RANGE = true ∧ reservedIpv4 ip = true then false
      else true
  else false

/-! ## Addresses -/

/-- An address: four numbers up to 255, or eight numbers of 16 bits. -/
inductive Address where
  | ipv4 (ip : List ℕ)
  | ipv6 (ns : List ℕ)

def Spells (text : List UInt8) : Address → Prop
  | .ipv4 ip => Ipv4Text text ip
  | .ipv6 ns => Ipv6Text text ns

/-- The first group has fewer than four digits and begins with `fc` or `fd`. -/
def PrivateSensitive (ns : List ℕ) : Prop :=
  ns.getD 0 0 = 0xfc ∨ ns.getD 0 0 = 0xfd ∨ 0xfc0 ≤ ns.getD 0 0 ∧ ns.getD 0 0 ≤ 0xfdf

/-- The two addresses that are compared as texts, and those of which a group that is compared can
be written with and without a leading zero. -/
def ReservedSensitive (ns : List ℕ) : Prop :=
  ns = List.replicate 8 0 ∨ ns = List.replicate 7 0 ++ [1] ∨
    0xfe8 ≤ ns.getD 0 0 ∧ ns.getD 0 0 ≤ 0xfeb ∨ ns.getD 0 0 = 0x5f ∨
    0x5f0 ≤ ns.getD 0 0 ∧ ns.getD 0 0 ≤ 0x5ff ∨
    ns.getD 0 0 = 0x2001 ∧
      (ns.getD 1 0 = 0xdb8 ∨ ns.getD 1 0 = 1 ∨ 0x10 ≤ ns.getD 1 0 ∧ ns.getD 1 0 ≤ 0x1f)

/-- The flags make the filter look at how the address is written. -/
def Sensitive (flags : ℕ) : Address → Prop
  | .ipv4 _ => False
  | .ipv6 ns => ¬ (has flags FILTER_FLAG_IPV4 = true ∧ ¬ has flags FILTER_FLAG_IPV6 = true) ∧
      (has flags FILTER_FLAG_NO_PRIV_RANGE = true ∧ PrivateSensitive ns ∨
        has flags FILTER_FLAG_NO_RES_RANGE = true ∧ ReservedSensitive ns)

/-! ## The tests of the text -/

variable {g s t rest value : List UInt8} {ds ns : List ℕ} {n : ℕ}

/-- The letter or digit for a value below sixteen. -/
def hexChar (d : ℕ) : UInt8 := UInt8.ofNat (if d < 10 then 48 + d else 87 + d)

theorem hexDigit_tolower (c : UInt8) : hexDigit (tolower c) = hexDigit c := by
  have h : ∀ n < 256, hexDigit (tolower (UInt8.ofNat n)) = hexDigit (UInt8.ofNat n) := by
    decide +kernel
  have hc := h c.toNat c.toNat_lt
  rwa [UInt8.ofNat_toNat] at hc

theorem hexChar_hexDigit (c : UInt8) {d : ℕ} (hd : hexDigit c = some d) : tolower c = hexChar d := by
  have h : ∀ n < 256, ∀ d ∈ hexDigit (UInt8.ofNat n), tolower (UInt8.ofNat n) = hexChar d := by
    decide +kernel
  have hc := h c.toNat c.toNat_lt d
  rw [UInt8.ofNat_toNat] at hc
  exact hc hd

theorem tolower_eq_hexChar (c : UInt8) {d : ℕ} (hd : d < 16) :
    tolower c = hexChar d ↔ hexDigit c = some d := by
  have hchar : ∀ d < 16, hexDigit (hexChar d) = some d := by decide
  constructor
  · intro h
    rw [← hexDigit_tolower, h, hchar d hd]
  · exact hexChar_hexDigit c

theorem map_tolower_eq (hds : ∀ d ∈ ds, d < 16) :
    t.map tolower = ds.map hexChar ↔ Digits hexDigit t ds := by
  induction t generalizing ds with
  | nil =>
    rw [digits_nil, List.map_nil, eq_comm, List.map_eq_nil_iff]
  | cons c t ih =>
    rw [digits_cons]
    cases ds with
    | nil => simp
    | cons d ds =>
      rw [List.map_cons, List.map_cons, List.cons.injEq,
        tolower_eq_hexChar c (hds d List.mem_cons_self),
        ih fun d hd => hds d (List.mem_cons_of_mem _ hd)]
      constructor
      · rintro ⟨hc, ht⟩
        exact ⟨d, ds, hc, ht, rfl⟩
      · rintro ⟨d', ds', hc, ht, heq⟩
        cases heq
        exact ⟨hc, ht⟩

theorem digits_take (hg : Digits hexDigit g ds) (k : ℕ) :
    Digits hexDigit (g.take k) (ds.take k) := by
  unfold Digits at hg ⊢
  rw [List.map_take, List.map_take, hg]

theorem hexDigits_lt (hg : Digits hexDigit g ds) : ∀ d ∈ ds, d < 16 := by
  intro d hd
  have hmem : some d ∈ g.map hexDigit := by
    rw [hg]
    exact List.mem_map_of_mem hd
  obtain ⟨c, -, hc⟩ := List.mem_map.mp hmem
  unfold hexDigit at hc
  split_ifs at hc with h1 h2 h3
  · have h := UInt8.le_iff_toNat_le.mp h1.2
    have h57 : (57 : UInt8).toNat = 57 := rfl
    cases hc
    omega
  · have h := UInt8.le_iff_toNat_le.mp h2.2
    have h102 : (102 : UInt8).toNat = 102 := rfl
    cases hc
    omega
  · have h := UInt8.le_iff_toNat_le.mp h3.2
    have h70 : (70 : UInt8).toNat = 70 := rfl
    cases hc
    omega

theorem startsWith_iff {pat : List UInt8} (ds : List ℕ) (hg : Group g n) (hrest : NoHex rest)
    (hds : ∀ d ∈ ds, d < 16) (hpat : pat.map tolower = ds.map hexChar) :
    startsWith pat (g ++ rest) = true ↔
      ∃ j, ds.length + j = g.length ∧ n / 16 ^ j = Positional.value 16 ds := by
  obtain ⟨gds, hgds, -, -, rfl⟩ := hg
  have hlen := length_digits hgds
  have hpatlen : pat.length = ds.length := by
    have h := congrArg List.length hpat
    rwa [List.length_map, List.length_map] at h
  have hstart : startsWith pat (g ++ rest) = true ↔
      Digits hexDigit ((g ++ rest).take ds.length) ds := by
    rw [startsWith, decide_eq_true_iff, hpat, hpatlen, eq_comm, map_tolower_eq hds]
  -- the quotient has the digits in front
  have hquot : ∀ j, ds.length + j = g.length →
      Positional.value 16 gds / 16 ^ j = Positional.value 16 (gds.take ds.length) := by
    intro j hj
    have hdrop := Positional.value_div_pow (b := 16) (by decide) (gds.take ds.length)
      (gds.drop ds.length) fun d hd => hexDigits_lt hgds d (List.mem_of_mem_drop hd)
    rw [List.take_append_drop, List.length_drop] at hdrop
    rw [← hdrop, show gds.length - ds.length = j by omega]
  rw [hstart]
  constructor
  · intro h
    have hle : ds.length ≤ g.length := by
      by_contra hlt
      rw [List.take_append, List.take_of_length_le (by omega)] at h
      cases rest with
      | nil =>
        have hshort := length_digits h
        rw [List.take_nil, List.append_nil] at hshort
        omega
      | cons c rest =>
        obtain ⟨k, hk⟩ : ∃ k, ds.length - g.length = k + 1 := ⟨ds.length - g.length - 1, by omega⟩
        rw [hk, List.take_succ_cons] at h
        have hc := isSome_of_digits h c (List.mem_append_right g List.mem_cons_self)
        rw [hrest c rfl] at hc
        cases hc
    rw [List.take_append_of_le_length hle] at h
    have heq : (gds.take ds.length).map some = ds.map some := (digits_take hgds ds.length).symm.trans h
    have heq := List.map_injective_iff.mpr (Option.some_injective ℕ) heq
    refine ⟨g.length - ds.length, by omega, ?_⟩
    rw [hquot _ (by omega), heq]
  · rintro ⟨j, hj, hval⟩
    have hle : ds.length ≤ g.length := by omega
    have htake := digits_take hgds ds.length
    have heq : gds.take ds.length = ds := by
      refine Positional.eq_of_value_eq (b := 16) (by decide) ?_ ?_ hds ?_
      · rw [List.length_take]
        omega
      · exact fun d hd => hexDigits_lt hgds d (List.mem_of_mem_take hd)
      · rw [← hquot j hj, hval]
    rw [List.take_append_of_le_length hle]
    rwa [heq] at htake

/-! ## Spellings -/

theorem Group.lt (hg : Group g n) : n < 65536 := by
  obtain ⟨gds, hgds, -, hle, rfl⟩ := hg
  have hlt := Positional.value_lt (b := 16) (by decide) (hexDigits_lt hgds)
  rw [length_digits hgds] at hlt
  exact lt_of_lt_of_le hlt (Nat.pow_le_pow_right (by decide) hle)

theorem Octet.le (ht : Octet t n) : n ≤ 255 := by
  obtain ⟨-, -, -, -, hle⟩ := ht
  exact hle

theorem Ipv4Text.le {ip : List ℕ} (h : Ipv4Text t ip) : ∀ n ∈ ip, n ≤ 255 := by
  obtain ⟨texts, htexts, -, -⟩ := h
  intro n hn
  induction htexts with
  | nil => exact absurd hn List.not_mem_nil
  | cons ht _ ih =>
    rcases List.mem_cons.mp hn with rfl | hn
    · exact ht.le
    · exact ih hn

theorem Pieces.lt {ps : List (List UInt8)} (h : Pieces ps ns) : ∀ n ∈ ns, n < 65536 := by
  induction h with
  | nil => exact fun n hn => absurd hn List.not_mem_nil
  | group hg _ ih =>
    intro m hm
    rcases List.mem_cons.mp hm with rfl | hm
    · exact hg.lt
    · exact ih m hm
  | @bundled text a b c d h =>
    have hle := h.le
    simp only [List.mem_cons, List.not_mem_nil, or_false, forall_eq_or_imp, forall_eq] at hle ⊢
    omega

theorem forall₂_group_lt {gs : List (List UInt8)} (h : List.Forall₂ Group gs ns) :
    ∀ n ∈ ns, n < 65536 :=
  (pieces_iff.mpr (Or.inl h)).lt

theorem Ipv6Text.valid (h : Ipv6Text s ns) : ns.length = 8 ∧ ∀ n ∈ ns, n < 65536 := by
  cases h with
  | full hps hlen => exact ⟨hlen, hps.lt⟩
  | compressed hgs hps hlen =>
    constructor
    · rw [List.length_append, List.length_append, List.length_replicate]
      omega
    · intro n hn
      rw [List.mem_append, List.mem_append] at hn
      rcases hn with (hn | hn) | hn
      · exact forall₂_group_lt hgs n hn
      · rw [(List.mem_replicate.mp hn).2]
        decide
      · exact hps.lt n hn

theorem Ipv6Text.shape (h : Ipv6Text s ns) :
    (∃ ps ns', s = 58 :: 58 :: [58].intercalate ps ∧ Pieces ps ns' ∧ ns'.length ≤ 7 ∧
      ns = List.replicate (8 - ns'.length) 0 ++ ns') ∨
    ∃ g rest, Group g (ns.getD 0 0) ∧ s = g ++ 58 :: rest ∧
      ((∃ rest', rest = 58 :: rest') ∨
        ∃ g' rest', Group g' (ns.getD 1 0) ∧ rest = g' ++ rest' ∧ NoHex rest') := by
  cases h with
  | full hps hlen =>
    right
    cases hps with
    | nil => cases hlen
    | bundled => cases hlen
    | @group g n gs ns hg hps =>
      cases hps with
      | nil => cases hlen
      | bundled => cases hlen
      | @group g' n' gs ns hg' _ =>
        refine ⟨g, g' ++ behind gs, hg, ?_, Or.inr ⟨g', behind gs, hg', rfl, noHex_behind gs⟩⟩
        rw [intercalate_cons, behind_cons]
  | @compressed gs ps ns ns' hgs hps hlen =>
    cases hgs with
    | nil =>
      left
      rw [List.length_nil, Nat.zero_add] at hlen
      refine ⟨ps, ns', rfl, hps, hlen, ?_⟩
      rw [List.nil_append, List.length_nil, Nat.zero_add]
    | @cons g n gs ns hg hgs =>
      right
      rw [intercalate_cons]
      cases hgs with
      | nil =>
        refine ⟨g, 58 :: [58].intercalate ps, hg, ?_, Or.inl ⟨_, rfl⟩⟩
        rw [behind, List.flatMap_nil, List.append_nil]
      | @cons g' n' gs ns hg' hgs =>
        refine ⟨g, g' ++ (behind gs ++ 58 :: 58 :: [58].intercalate ps), hg, ?_,
          Or.inr ⟨g', _, hg', rfl, noHex_behind_append gs (noHex_colon _)⟩⟩
        rw [behind_cons, List.append_assoc, List.cons_append, List.append_assoc]

theorem Ipv6Text.eq_of_colons (h : Ipv6Text [58, 58] ns) : ns = List.replicate 8 0 := by
  rcases h.shape with ⟨ps, ns', hs, hps, -, rfl⟩ | ⟨g, rest, hg, hs, -⟩
  · have hempty : [58].intercalate ps = [] := (List.cons.inj (List.cons.inj hs).2).2.symm
    cases hps with
    | nil => rfl
    | group hg _ =>
      obtain ⟨c, g', rfl, -⟩ := hg.exists_cons
      rw [intercalate_cons] at hempty
      cases hempty
    | bundled htext =>
      obtain ⟨t, rest, rfl, -⟩ := exists_dot_of_ipv4 htext
      exact absurd hempty (by simp)
  · exact absurd (by rw [← hs]; rfl) (hg.append_ne (58 :: rest))

theorem Ipv6Text.eq_of_one (h : Ipv6Text [58, 58, 49] ns) : ns = List.replicate 7 0 ++ [1] := by
  rcases h.shape with ⟨ps, ns', hs, hps, -, rfl⟩ | ⟨g, rest, hg, hs, -⟩
  · have hone : [58].intercalate ps = [49] := (List.cons.inj (List.cons.inj hs).2).2.symm
    cases hps with
    | nil => cases hone
    | @group g n gs ns hg hgs =>
      obtain ⟨c, g', rfl, -⟩ := hg.exists_cons
      rw [intercalate_cons, List.cons_append] at hone
      obtain ⟨rfl, hnil⟩ := List.cons.inj hone
      obtain ⟨rfl, hbehind⟩ := List.append_eq_nil_iff.mp hnil
      obtain ⟨gds, hgds, -, -, rfl⟩ := hg
      obtain ⟨d, ds, hd, hds, rfl⟩ := digits_cons.mp hgds
      rw [digits_nil.mp hds]
      cases hd
      cases hgs with
      | nil => rfl
      | group => cases hbehind
      | bundled => cases hbehind
    | bundled htext =>
      obtain ⟨t, rest, rfl, -⟩ := exists_dot_of_ipv4 htext
      have hmem : (46 : UInt8) ∈ [49] := by
        rw [← hone]
        simp
      exact absurd hmem (by decide)
  · exact absurd (by rw [← hs]; rfl) (hg.append_ne (58 :: rest))

/-! ## The tests of a spelling -/

theorem startsWith_cons {p c : UInt8} {pat : List UInt8} :
    startsWith (p :: pat) (c :: value) = true ↔
      tolower p = tolower c ∧ startsWith pat value = true := by
  unfold startsWith
  rw [decide_eq_true_iff, decide_eq_true_iff, List.length_cons, List.take_succ_cons, List.map_cons,
    List.map_cons, List.cons.injEq]

theorem startsWith_ne {p c : UInt8} {pat : List UInt8} (h : tolower p ≠ tolower c) :
    startsWith (p :: pat) (c :: value) = false := by
  rw [Bool.eq_false_iff]
  exact fun hstart => h (startsWith_cons.mp hstart).1

theorem startsWith_append {pat pat' : List UInt8} : startsWith (pat ++ pat') value = true ↔
    startsWith pat value = true ∧ startsWith pat' (value.drop pat.length) = true := by
  induction pat generalizing value with
  | nil => exact ⟨fun h => ⟨rfl, h⟩, fun h => h.2⟩
  | cons p pat ih =>
    cases value with
    | nil => exact iff_of_false (by simp [startsWith]) (by simp [startsWith])
    | cons c value =>
      rw [List.cons_append, startsWith_cons, startsWith_cons, ih, and_assoc]
      rfl

theorem length_le_of_startsWith {pat : List UInt8} (h : startsWith pat value = true) :
    pat.length ≤ value.length := by
  have hlen := congrArg List.length (of_decide_eq_true h)
  rw [List.length_map, List.length_map, List.length_take] at hlen
  omega

/-- A number is written with `k` digits. -/
def Width (k n : ℕ) : Prop :=
  k = 1 ∧ n < 16 ∨ k = 2 ∧ n < 256 ∨ k = 3 ∧ n < 4096 ∨ k = 4 ∧ n < 65536

theorem Width.eq_four_or {k : ℕ} (hk : Width k n) : k = 4 ∨ k ≠ 4 ∧ n < 4096 := by
  unfold Width at hk
  omega

theorem Group.width (hg : Group g n) : Width g.length n := by
  obtain ⟨gds, hgds, hlow, hhigh, rfl⟩ := hg
  have hlt := Positional.value_lt (b := 16) (by decide) (hexDigits_lt hgds)
  rw [length_digits hgds] at hlt
  obtain hl | hl | hl | hl : g.length = 1 ∨ g.length = 2 ∨ g.length = 3 ∨ g.length = 4 := by omega
  all_goals
    rw [hl] at hlt
    unfold Width
    omega

theorem Group.ne_nil (hg : Group g n) : g ≠ [] := by
  obtain ⟨c, g', rfl, -⟩ := hg.exists_cons
  exact List.cons_ne_nil c g'

theorem startsWith_group {pat : List UInt8} (ds : List ℕ) (v : ℕ) (hg : Group g n)
    (hrest : NoHex rest) (hds : ∀ d ∈ ds, d < 16) (hpat : pat.map tolower = ds.map hexChar)
    (hv : Positional.value 16 ds = v) (htwo : 2 ≤ pat.length) :
    startsWith pat (g ++ rest) = true ↔ g.length = pat.length ∧ n = v ∨
      g.length = pat.length + 1 ∧ n / 16 = v ∨ g.length = pat.length + 2 ∧ n / 256 = v := by
  have hwidth := hg.width
  have hpatlen : pat.length = ds.length := by
    have h := congrArg List.length hpat
    rwa [List.length_map, List.length_map] at h
  rw [startsWith_iff ds hg hrest hds hpat, hpatlen, hv]
  unfold Width at hwidth
  constructor
  · rintro ⟨j, hj, hn⟩
    obtain rfl | rfl | rfl : j = 0 ∨ j = 1 ∨ j = 2 := by omega
    all_goals omega
  · rintro (⟨hl, hn⟩ | ⟨hl, hn⟩ | ⟨hl, hn⟩)
    · exact ⟨0, hl.symm, by omega⟩
    · exact ⟨1, hl.symm, hn⟩
    · exact ⟨2, hl.symm, hn⟩

/-- The answer of `privateIpv6` for a first group of `k` digits. -/
def PrivateGroup (k n : ℕ) : Prop :=
  k = 2 ∧ 0xfc ≤ n ∧ n ≤ 0xfd ∨ k = 3 ∧ 0xfc0 ≤ n ∧ n ≤ 0xfdf ∨ k = 4 ∧ 0xfc00 ≤ n ∧ n ≤ 0xfdff

/-- The tests of `reservedIpv6` of the first group. -/
def ReservedGroup (k n : ℕ) : Prop :=
  k = 3 ∧ 0xfe8 ≤ n ∧ n ≤ 0xfeb ∨ k = 4 ∧ 0xfe80 ≤ n ∧ n ≤ 0xfebf ∨ k = 2 ∧ n = 0x5f ∨
    k = 3 ∧ 0x5f0 ≤ n ∧ n ≤ 0x5ff ∨ k = 4 ∧ 0x5f00 ≤ n ∧ n ≤ 0x5fff ∨ k = 4 ∧ n = 0x3ff3

/-- The tests of `reservedIpv6` of the second group, behind `2001`. -/
def ReservedSecond (k n : ℕ) : Prop :=
  k = 4 ∧ n = 0xdb8 ∨ k = 3 ∧ n = 1 ∨ k = 4 ∧ 0x10 ≤ n ∧ n ≤ 0x1f

theorem privateIpv6_group (hg : Group g n) :
    privateIpv6 (g ++ 58 :: rest) = true ↔ PrivateGroup g.length n := by
  have hlen : 2 ≤ (g ++ 58 :: rest).length := by
    have hpos := List.length_pos_iff.mpr hg.ne_nil
    rw [List.length_append, List.length_cons]
    omega
  rw [privateIpv6, decide_eq_true_iff, and_iff_right hlen,
    startsWith_group [15, 12] 0xfc hg (noHex_colon rest) (by decide) (by decide) rfl le_rfl,
    startsWith_group [15, 13] 0xfd hg (noHex_colon rest) (by decide) (by decide) rfl le_rfl]
  unfold PrivateGroup
  rcases hg.width with ⟨hl, -⟩ | ⟨hl, -⟩ | ⟨hl, -⟩ | ⟨hl, -⟩
  all_goals simp only [hl, List.length_cons, List.length_nil, Nat.reduceAdd, Nat.reduceEqDiff,
    false_and, true_and, false_or, or_false]
  all_goals omega

theorem startsWith_second (pat rest : List UInt8) (hg : Group g n) :
    startsWith ([50, 48, 48, 49] ++ 58 :: pat) (g ++ 58 :: rest) = true ↔
      (g.length = 4 ∧ n = 0x2001) ∧ startsWith pat rest = true := by
  have hwidth := hg.width
  have hiff : startsWith [50, 48, 48, 49] (g ++ 58 :: rest) = true ↔ g.length = 4 ∧ n = 0x2001 := by
    rw [startsWith_group [2, 0, 0, 1] 0x2001 hg (noHex_colon rest) (by decide) (by decide) rfl
      (by decide)]
    unfold Width at hwidth
    simp only [List.length_cons, List.length_nil]
    omega
  rw [startsWith_append, hiff]
  refine and_congr_right fun ⟨hl, _⟩ => ?_
  have hdrop : (g ++ 58 :: rest).drop 4 = 58 :: rest := by rw [← hl, List.drop_left]
  show startsWith (58 :: pat) ((g ++ 58 :: rest).drop 4) = true ↔ startsWith pat rest = true
  rw [hdrop, startsWith_cons, and_iff_right rfl]

theorem startsWith_fe (hg : Group g n) (rest : List UInt8) :
    (startsWith [102, 101, 56] (g ++ 58 :: rest) = true ∨
        startsWith [102, 101, 57] (g ++ 58 :: rest) = true ∨
        startsWith [102, 101, 97] (g ++ 58 :: rest) = true ∨
        startsWith [102, 101, 98] (g ++ 58 :: rest) = true) ↔
      g.length = 3 ∧ 0xfe8 ≤ n ∧ n ≤ 0xfeb ∨ g.length = 4 ∧ 0xfe80 ≤ n ∧ n ≤ 0xfebf := by
  have hwidth := hg.width
  have hfe : ∀ d < 16, ∀ c, tolower c = hexChar d →
      (startsWith [102, 101, c] (g ++ 58 :: rest) = true ↔
        g.length = 3 ∧ n = 0xfe0 + d ∨ g.length = 4 ∧ n / 16 = 0xfe0 + d) := by
    intro d hd c hc
    rw [startsWith_group [15, 14, d] (0xfe0 + d) hg (noHex_colon rest) (by simpa using hd)
      (by rw [List.map_cons, List.map_cons, List.map_cons, hc]; rfl) rfl (by simp)]
    simp only [List.length_cons, List.length_nil]
    unfold Width at hwidth
    omega
  rw [hfe 8 (by decide) 56 (by decide), hfe 9 (by decide) 57 (by decide),
    hfe 10 (by decide) 97 (by decide), hfe 11 (by decide) 98 (by decide)]
  omega

theorem startsWith_5f (hg : Group g n) (rest : List UInt8) :
    (startsWith [53, 102] (g ++ 58 :: rest) = true ↔ g.length = 2 ∧ n = 0x5f ∨
      g.length = 3 ∧ 0x5f0 ≤ n ∧ n ≤ 0x5ff ∨ g.length = 4 ∧ 0x5f00 ≤ n ∧ n ≤ 0x5fff) ∧
    (startsWith [51, 102, 102, 51] (g ++ 58 :: rest) = true ↔ g.length = 4 ∧ n = 0x3ff3) := by
  have hwidth := hg.width
  rw [startsWith_group [5, 15] 0x5f hg (noHex_colon rest) (by decide) (by decide) rfl le_rfl,
    startsWith_group [3, 15, 15, 3] 0x3ff3 hg (noHex_colon rest) (by decide) (by decide) rfl
      (by decide)]
  simp only [List.length_cons, List.length_nil]
  unfold Width at hwidth
  constructor <;> omega

theorem reservedIpv6_group (hg : Group g n) (hrest : rest ≠ []) :
    reservedIpv6 (g ++ 58 :: rest) = true ↔ ReservedGroup g.length n ∨ (g.length = 4 ∧ n = 0x2001) ∧
      (startsWith [48, 100, 98, 56] rest = true ∨ startsWith [48, 48, 49] rest = true) := by
  have hlen : (g ++ 58 :: rest).length = g.length + rest.length + 1 := by
    rw [List.length_append, List.length_cons, Nat.add_assoc]
  have hpos := List.length_pos_iff.mpr hrest
  have hgpos := List.length_pos_iff.mpr hg.ne_nil
  unfold reservedIpv6
  rw [if_neg (by omega), if_neg (by omega)]
  split
  · next hthree =>
    have hone : g.length = 1 := by omega
    refine iff_of_false (fun h => ?_) ?_
    · have hcolon : (g ++ 58 :: rest).getD 1 0 = 58 := by
        obtain ⟨c, rfl⟩ := List.length_eq_one_iff.mp hone
        rfl
      rcases of_decide_eq_true h with h | h
      · exact hg.append_ne (58 :: rest) (by rw [h]; rfl)
      · rw [h] at hcolon
        exact absurd hcolon (by decide)
    · simp [ReservedGroup, hone]
  · have hdb8 := startsWith_second [48, 100, 98, 56] rest hg
    have hone := startsWith_second [48, 48, 49] rest hg
    have h5f := startsWith_5f hg rest
    rw [decide_eq_true_iff, startsWith_fe hg rest, h5f.1, h5f.2]
    constructor
    · rintro (⟨-, h | h⟩ | ⟨-, h⟩ | ⟨-, h | h | h⟩ | ⟨-, h⟩ | ⟨-, h⟩)
      · exact Or.inl (Or.inl h)
      · exact Or.inl (Or.inr (Or.inl h))
      · exact Or.inr ⟨(hdb8.mp h).1, Or.inl (hdb8.mp h).2⟩
      · exact Or.inl (Or.inr (Or.inr (Or.inl h)))
      · exact Or.inl (Or.inr (Or.inr (Or.inr (Or.inl h))))
      · exact Or.inl (Or.inr (Or.inr (Or.inr (Or.inr (Or.inl h)))))
      · exact Or.inl (Or.inr (Or.inr (Or.inr (Or.inr (Or.inr h)))))
      · exact Or.inr ⟨(hone.mp h).1, Or.inr (hone.mp h).2⟩
    · rintro ((h | h | h | h | h | h) | ⟨hn, h | h⟩)
      · exact Or.inl ⟨by omega, Or.inl h⟩
      · exact Or.inl ⟨by omega, Or.inr h⟩
      · exact Or.inr (Or.inr (Or.inl ⟨by omega, Or.inl h⟩))
      · exact Or.inr (Or.inr (Or.inl ⟨by omega, Or.inr (Or.inl h)⟩))
      · exact Or.inr (Or.inr (Or.inl ⟨by omega, Or.inr (Or.inr h)⟩))
      · exact Or.inr (Or.inr (Or.inr (Or.inl ⟨by omega, h⟩)))
      · have h := hdb8.mpr ⟨hn, h⟩
        exact Or.inr (Or.inl ⟨length_le_of_startsWith h, h⟩)
      · have h := hone.mpr ⟨hn, h⟩
        exact Or.inr (Or.inr (Or.inr (Or.inr ⟨length_le_of_startsWith h, h⟩)))

theorem reservedSecond_iff {g' rest' : List UInt8} (hg' : Group g' n) (hrest' : NoHex rest') :
    (startsWith [48, 100, 98, 56] (g' ++ rest') = true ∨
      startsWith [48, 48, 49] (g' ++ rest') = true) ↔ ReservedSecond g'.length n := by
  have hwidth := hg'.width
  rw [startsWith_group [0, 13, 11, 8] 0xdb8 hg' hrest' (by decide) (by decide) rfl (by decide),
    startsWith_group [0, 0, 1] 1 hg' hrest' (by decide) (by decide) rfl (by decide)]
  simp only [List.length_cons, List.length_nil]
  unfold Width at hwidth
  unfold ReservedSecond
  omega

/-- The answer of `reservedIpv6` for groups of `k` and `k'` digits in front. -/
def ReservedText (k n k' n' : ℕ) : Prop :=
  ReservedGroup k n ∨ (k = 4 ∧ n = 0x2001) ∧ ReservedSecond k' n'

theorem eq_of_reserved_colon (h : reservedIpv6 (58 :: rest) = true) :
    58 :: rest = [58, 58] ∨ 58 :: rest = [58, 58, 49] := by
  unfold reservedIpv6 at h
  simp only [startsWith_ne (show tolower 102 ≠ tolower 58 by decide),
    startsWith_ne (show tolower 50 ≠ tolower 58 by decide),
    startsWith_ne (show tolower 53 ≠ tolower 58 by decide),
    startsWith_ne (show tolower 51 ≠ tolower 58 by decide)] at h
  split at h
  · cases h
  · split at h
    · exact Or.inl (of_decide_eq_true h)
    · split at h
      · exact Or.inr ((of_decide_eq_true h).resolve_right fun h' => by cases h')
      · simp at h

theorem Ipv6Text.answers (h : Ipv6Text s ns) :
    (privateIpv6 s = false ∧ ns.getD 0 0 = 0 ∧
      (reservedIpv6 s = true → ns = List.replicate 8 0 ∨ ns = List.replicate 7 0 ++ [1])) ∨
    ∃ k k', Width k (ns.getD 0 0) ∧ (privateIpv6 s = true ↔ PrivateGroup k (ns.getD 0 0)) ∧
      (reservedIpv6 s = true ↔ ReservedText k (ns.getD 0 0) k' (ns.getD 1 0)) := by
  rcases h.shape with ⟨ps, ns', rfl, -, hlen, heq⟩ | ⟨g, rest, hg, rfl, hrest⟩
  · refine Or.inl ⟨?_, ?_, fun hreserved => ?_⟩
    · rw [privateIpv6, startsWith_ne (by decide), startsWith_ne (by decide)]
      simp
    · obtain ⟨k, hk⟩ : ∃ k, 8 - ns'.length = k + 1 := ⟨7 - ns'.length, by omega⟩
      rw [heq, hk]
      rfl
    · rcases eq_of_reserved_colon hreserved with hs | hs
      · rw [hs] at h
        exact Or.inl h.eq_of_colons
      · rw [hs] at h
        exact Or.inr h.eq_of_one
  · right
    rcases hrest with ⟨rest', rfl⟩ | ⟨g', rest', hg', rfl, hrest'⟩
    · refine ⟨g.length, 0, hg.width, privateIpv6_group hg, ?_⟩
      rw [reservedIpv6_group hg (List.cons_ne_nil _ _), startsWith_ne (by decide),
        startsWith_ne (by decide)]
      simp [ReservedText, ReservedSecond]
    · refine ⟨g.length, g'.length, hg.width, privateIpv6_group hg, ?_⟩
      rw [reservedIpv6_group hg (List.append_ne_nil_of_left_ne_nil hg'.ne_nil _),
        reservedSecond_iff hg' hrest']
      rfl

theorem privateIpv6_iff (h : Ipv6Text s ns) (hns : ¬ PrivateSensitive ns) :
    privateIpv6 s = true ↔ PrivateGroup 4 (ns.getD 0 0) := by
  unfold PrivateSensitive at hns
  rcases h.answers with ⟨hs, hzero, -⟩ | ⟨k, k', hk, hs, -⟩
  · rw [hs, hzero]
    simp [PrivateGroup]
  · rw [hs]
    unfold Width at hk
    unfold PrivateGroup
    omega

theorem reservedIpv6_iff (h : Ipv6Text s ns) (hns : ¬ ReservedSensitive ns) :
    reservedIpv6 s = true ↔ ReservedGroup 4 (ns.getD 0 0) := by
  simp only [ReservedSensitive, not_or] at hns
  obtain ⟨hzeros, hone, hgroup⟩ := hns
  rcases h.answers with ⟨-, hzero, hs⟩ | ⟨k, k', hk, -, hs⟩
  · rw [hzero]
    refine iff_of_false (fun h => (hs h).elim hzeros hone) (by simp [ReservedGroup])
  · rw [hs]
    rcases hk.eq_four_or with rfl | ⟨hshort, hn⟩
    · refine or_iff_left ?_
      rintro ⟨⟨-, hn⟩, hsecond⟩
      unfold ReservedSecond at hsecond
      omega
    · refine iff_of_false ?_ ?_
      · rintro (h | ⟨⟨h, -⟩, -⟩)
        · unfold ReservedGroup at h
          omega
        · exact hshort h
      · unfold ReservedGroup
        omega

/-! ## Two spellings of a sensitive address -/

/-- A number in `k` hexadecimal digits. -/
def hexText : ℕ → ℕ → List UInt8
  | 0, _ => []
  | k + 1, n => hexText k (n / 16) ++ [hexChar (n % 16)]

theorem digits_hexText (k n : ℕ) (hn : n < 16 ^ k) :
    ∃ ds, Digits hexDigit (hexText k n) ds ∧ ds.length = k ∧ Positional.value 16 ds = n := by
  induction k generalizing n with
  | zero => exact ⟨[], rfl, rfl, (Nat.lt_one_iff.mp hn).symm⟩
  | succ k ih =>
    have hquot : n / 16 < 16 ^ k := by
      rw [Nat.div_lt_iff_lt_mul (by decide)]
      exact hn
    obtain ⟨ds, hds, hlen, hval⟩ := ih (n / 16) hquot
    have hchar : hexDigit (hexChar (n % 16)) = some (n % 16) := by
      refine (tolower_eq_hexChar _ (Nat.mod_lt n (by decide))).mp ?_
      have h : ∀ d < 16, tolower (hexChar d) = hexChar d := by decide
      exact h _ (Nat.mod_lt n (by decide))
    refine ⟨ds ++ [n % 16], ?_, by rw [List.length_append, hlen]; rfl, ?_⟩
    · unfold Digits at hds ⊢
      rw [hexText, List.map_append, hds, List.map_append, List.map_singleton, hchar,
        List.map_singleton]
    · have hlast : Positional.value 16 [n % 16] = n % 16 := by simp [Positional.value]
      rw [Positional.value_append, hval, List.length_singleton, pow_one, hlast]
      exact Nat.div_add_mod' n 16

theorem group_hexText {k : ℕ} (hk : Width k n) :
    Group (hexText k n) n ∧ (hexText k n).length = k := by
  have hn : 1 ≤ k ∧ k ≤ 4 ∧ n < 16 ^ k := by
    rcases hk with ⟨rfl, hn⟩ | ⟨rfl, hn⟩ | ⟨rfl, hn⟩ | ⟨rfl, hn⟩
    all_goals exact ⟨by decide, by decide, hn⟩
  obtain ⟨ds, hds, hlen, hval⟩ := digits_hexText k n hn.2.2
  have hlength : (hexText k n).length = k := by rw [← length_digits hds, hlen]
  exact ⟨⟨ds, hds, by omega, by omega, hval.symm⟩, hlength⟩

/-- The text with these first two groups, and four digits for the others. -/
def fullText (g g' : List UInt8) (ns : List ℕ) : List UInt8 :=
  g ++ 58 :: (g' ++ behind ((ns.drop 2).map (hexText 4)))

theorem ipv6Text_fullText {g' : List UInt8} (hns : ns.length = 8 ∧ ∀ n ∈ ns, n < 65536)
    (hg : Group g (ns.getD 0 0)) (hg' : Group g' (ns.getD 1 0)) :
    Ipv6Text (fullText g g' ns) ns := by
  obtain ⟨hlen, hlt⟩ := hns
  obtain ⟨a, ns, rfl⟩ := List.exists_cons_of_length_eq_add_one hlen
  obtain ⟨b, ns, rfl⟩ := List.exists_cons_of_length_eq_add_one (Nat.succ.inj hlen)
  have hall : List.Forall₂ Group (ns.map (hexText 4)) ns := by
    refine List.forall₂_map_left_iff.mpr (List.forall₂_same.mpr fun n hn => ?_)
    have hn := hlt n (List.mem_cons_of_mem a (List.mem_cons_of_mem b hn))
    exact (group_hexText (Or.inr (Or.inr (Or.inr ⟨rfl, hn⟩)))).1
  have htext : fullText g g' (a :: b :: ns) =
      [58].intercalate (g :: g' :: ns.map (hexText 4)) := by
    rw [intercalate_cons, behind_cons]
    rfl
  rw [htext]
  exact .full (pieces_iff.mpr (Or.inl (.cons hg (.cons hg' hall)))) hlen

theorem exists_text (hns : ns.length = 8 ∧ ∀ n ∈ ns, n < 65536) {k k' : ℕ}
    (hk : Width k (ns.getD 0 0)) (hk' : Width k' (ns.getD 1 0)) :
    ∃ s, Ipv6Text s ns ∧ (privateIpv6 s = true ↔ PrivateGroup k (ns.getD 0 0)) ∧
      (reservedIpv6 s = true ↔ ReservedText k (ns.getD 0 0) k' (ns.getD 1 0)) := by
  obtain ⟨hg, hlen⟩ := group_hexText hk
  obtain ⟨hg', hlen'⟩ := group_hexText hk'
  refine ⟨_, ipv6Text_fullText hns hg hg', ?_, ?_⟩
  · rw [fullText, privateIpv6_group hg, hlen]
  · rw [fullText, reservedIpv6_group hg (List.append_ne_nil_of_left_ne_nil hg'.ne_nil _),
      reservedSecond_iff hg' (noHex_behind _), hlen, hlen']
    rfl

theorem width_four (hns : ns.length = 8 ∧ ∀ n ∈ ns, n < 65536) :
    Width 4 (ns.getD 0 0) ∧ Width 4 (ns.getD 1 0) := by
  obtain ⟨a, ns, rfl⟩ := List.exists_cons_of_length_eq_add_one hns.1
  obtain ⟨b, ns, rfl⟩ := List.exists_cons_of_length_eq_add_one (Nat.succ.inj hns.1)
  have ha := hns.2 a (by simp)
  have hb := hns.2 b (by simp)
  exact ⟨Or.inr (Or.inr (Or.inr ⟨rfl, ha⟩)), Or.inr (Or.inr (Or.inr ⟨rfl, hb⟩))⟩

theorem exists_plain (hns : ns.length = 8 ∧ ∀ n ∈ ns, n < 65536) (hn : ns.getD 0 0 < 4096) :
    ∃ s, Ipv6Text s ns ∧ ¬ privateIpv6 s = true ∧ ¬ reservedIpv6 s = true := by
  obtain ⟨s, hs, hprivate, hreserved⟩ := exists_text hns (width_four hns).1 (width_four hns).2
  refine ⟨s, hs, ?_, ?_⟩
  · rw [hprivate]
    unfold PrivateGroup
    omega
  · rw [hreserved]
    unfold ReservedText ReservedGroup
    omega

theorem exists_private (hns : ns.length = 8 ∧ ∀ n ∈ ns, n < 65536) (h : PrivateSensitive ns) :
    ∃ s, Ipv6Text s ns ∧ privateIpv6 s = true := by
  unfold PrivateSensitive at h
  obtain ⟨k, hk, hprivate⟩ : ∃ k, Width k (ns.getD 0 0) ∧ PrivateGroup k (ns.getD 0 0) := by
    unfold Width PrivateGroup
    by_cases hshort : ns.getD 0 0 < 256
    · exact ⟨2, by omega, by omega⟩
    · exact ⟨3, by omega, by omega⟩
  obtain ⟨s, hs, hanswer, -⟩ := exists_text hns hk (width_four hns).2
  exact ⟨s, hs, hanswer.mpr hprivate⟩

/-- A spelling of a sensitive address that is reserved, and one that is not. -/
def TwoSpellings (ns : List ℕ) : Prop :=
  (∃ s, Ipv6Text s ns ∧ reservedIpv6 s = true) ∧
    ∃ s, Ipv6Text s ns ∧ ¬ privateIpv6 s = true ∧ ¬ reservedIpv6 s = true

theorem twoSpellings_zero : TwoSpellings (List.replicate 8 0) := by
  refine ⟨⟨[58, 58], .compressed .nil .nil (by decide), by decide⟩, exists_plain ⟨rfl, ?_⟩ (by decide)⟩
  intro n hn
  rw [(List.mem_replicate.mp hn).2]
  decide

theorem twoSpellings_one : TwoSpellings (List.replicate 7 0 ++ [1]) := by
  have hone : Group [49] 1 := ⟨[1], rfl, by decide, by decide, rfl⟩
  refine ⟨⟨[58, 58, 49], .compressed .nil (.group hone .nil) (by decide), by decide⟩,
    exists_plain ⟨rfl, by decide⟩ (by decide)⟩

theorem twoSpellings_first (hns : ns.length = 8 ∧ ∀ n ∈ ns, n < 65536)
    (h : 0xfe8 ≤ ns.getD 0 0 ∧ ns.getD 0 0 ≤ 0xfeb ∨ ns.getD 0 0 = 0x5f ∨
      0x5f0 ≤ ns.getD 0 0 ∧ ns.getD 0 0 ≤ 0x5ff) : TwoSpellings ns := by
  obtain ⟨k, hk, hreserved⟩ : ∃ k, Width k (ns.getD 0 0) ∧ ReservedGroup k (ns.getD 0 0) := by
    unfold Width ReservedGroup
    by_cases hshort : ns.getD 0 0 < 256
    · exact ⟨2, by omega, by omega⟩
    · exact ⟨3, by omega, by omega⟩
  obtain ⟨s, hs, -, hanswer⟩ := exists_text hns hk (width_four hns).2
  exact ⟨⟨s, hs, hanswer.mpr (Or.inl hreserved)⟩, exists_plain hns (by omega)⟩

theorem twoSpellings_second (hns : ns.length = 8 ∧ ∀ n ∈ ns, n < 65536) (hn : ns.getD 0 0 = 0x2001)
    (h : ns.getD 1 0 = 0xdb8 ∨ ns.getD 1 0 = 1 ∨ 0x10 ≤ ns.getD 1 0 ∧ ns.getD 1 0 ≤ 0x1f) :
    TwoSpellings ns := by
  have hfirst := (width_four hns).1
  obtain ⟨k, hk, hreserved⟩ : ∃ k, Width k (ns.getD 1 0) ∧ ReservedSecond k (ns.getD 1 0) := by
    unfold Width ReservedSecond
    by_cases hone : ns.getD 1 0 = 1
    · exact ⟨3, by omega, by omega⟩
    · exact ⟨4, by omega, by omega⟩
  obtain ⟨k', hk', hplain⟩ : ∃ k', Width k' (ns.getD 1 0) ∧ ¬ ReservedSecond k' (ns.getD 1 0) := by
    unfold Width ReservedSecond
    by_cases hshort : ns.getD 1 0 < 256
    · exact ⟨2, by omega, by omega⟩
    · exact ⟨3, by omega, by omega⟩
  constructor
  · obtain ⟨s, hs, -, hanswer⟩ := exists_text hns hfirst hk
    exact ⟨s, hs, hanswer.mpr (Or.inr ⟨⟨rfl, hn⟩, hreserved⟩)⟩
  · obtain ⟨s, hs, hprivate, hanswer⟩ := exists_text hns hfirst hk'
    refine ⟨s, hs, ?_, ?_⟩
    · rw [hprivate, hn]
      simp [PrivateGroup]
    · rw [hanswer, hn]
      rintro (h | h)
      · simp [ReservedGroup] at h
      · exact hplain h.2

theorem twoSpellings_of_sensitive (hns : ns.length = 8 ∧ ∀ n ∈ ns, n < 65536)
    (h : ReservedSensitive ns) : TwoSpellings ns := by
  rcases h with rfl | rfl | h | h | h | ⟨hn, h⟩
  · exact twoSpellings_zero
  · exact twoSpellings_one
  · exact twoSpellings_first hns (Or.inl h)
  · exact twoSpellings_first hns (Or.inr (Or.inl h))
  · exact twoSpellings_first hns (Or.inr (Or.inr h))
  · exact twoSpellings_second hns hn h

/-! ## The answers for two spellings -/

theorem Ipv6Text.colon_mem (h : Ipv6Text s ns) : (58 : UInt8) ∈ s := by
  rcases h.shape with ⟨ps, ns', rfl, -⟩ | ⟨g, rest, -, rfl, -⟩
  · exact List.mem_cons_self
  · exact List.mem_append_right g List.mem_cons_self

theorem ne_colon_of_octets {texts : List (List UInt8)} {ip : List ℕ}
    (h : List.Forall₂ Octet texts ip) : ∀ c ∈ [46].intercalate texts, c ≠ (58 : UInt8) := by
  induction h with
  | nil => exact fun c hc => absurd hc List.not_mem_nil
  | @cons t n texts ip ht _ ih =>
    intro c hc
    by_cases hnil : texts = []
    · rw [hnil, List.intercalate_singleton] at hc
      exact (ne_of_octet ht hc).2
    · rw [List.intercalate_cons_of_ne_nil hnil, List.append_assoc, List.mem_append, List.mem_append,
        List.mem_singleton] at hc
      rcases hc with hc | rfl | hc
      · exact (ne_of_octet ht hc).2
      · decide
      · exact ih c hc

theorem Ipv4Text.colon_not_mem {ip : List ℕ} (h : Ipv4Text s ip) : (58 : UInt8) ∉ s := by
  obtain ⟨texts, htexts, -, rfl⟩ := h
  exact fun hc => ne_colon_of_octets htexts 58 hc rfl

theorem Ipv4Text.dot_mem {ip : List ℕ} (h : Ipv4Text s ip) : (46 : UInt8) ∈ s := by
  obtain ⟨t, rest, rfl, -⟩ := exists_dot_of_ipv4 h
  exact List.mem_append_right t List.mem_cons_self

variable {flags : ℕ} {ip : List ℕ}

theorem phpFilterValidateIp_ipv6 (h : Ipv6Text s ns) : phpFilterValidateIp s flags = true ↔
    ¬ (has flags FILTER_FLAG_IPV4 = true ∧ ¬ has flags FILTER_FLAG_IPV6 = true) ∧
      ¬ (has flags FILTER_FLAG_NO_PRIV_RANGE = true ∧ privateIpv6 s = true) ∧
      ¬ (has flags FILTER_FLAG_NO_RES_RANGE = true ∧ reservedIpv6 s = true) := by
  have hvalid : phpFilterValidateIpv6 s = true :=
    phpFilterValidateIpv6_iff_blocks.mpr (exists_ipv6Text_iff.mp ⟨ns, h⟩)
  rw [phpFilterValidateIp, if_pos h.colon_mem, hvalid]
  split
  · next hmode => exact iff_of_false (by decide) fun hall => hall.1 hmode
  · next hmode =>
    rw [if_neg (show ¬ true = false by decide)]
    split
    · next hprivate => exact iff_of_false (by decide) fun hall => hall.2.1 hprivate
    · next hprivate =>
      split
      · next hreserved => exact iff_of_false (by decide) fun hall => hall.2.2 hreserved
      · next hreserved => exact iff_of_true rfl ⟨hmode, hprivate, hreserved⟩

theorem phpFilterValidateIp_ipv4 (hs : Ipv4Text s ip) (ht : Ipv4Text t ip) :
    phpFilterValidateIp s flags = phpFilterValidateIp t flags := by
  rw [phpFilterValidateIp, phpFilterValidateIp, if_neg hs.colon_not_mem, if_neg ht.colon_not_mem,
    if_pos hs.dot_mem, if_pos ht.dot_mem, phpFilterValidateIpv4_eq_some.mpr hs,
    phpFilterValidateIpv4_eq_some.mpr ht]

theorem phpFilterValidateIp_zero : phpFilterValidateIp s 0 = true ↔ ∃ A, Spells s A := by
  have hflags : ∀ flag, has 0 flag = false := by
    intro flag
    rw [has, Nat.zero_and]
    rfl
  constructor
  · intro h
    unfold phpFilterValidateIp at h
    simp only [hflags, Bool.false_eq_true, false_and, if_false] at h
    split at h
    · split at h
      · cases h
      · next hvalid =>
        rw [Bool.not_eq_false] at hvalid
        obtain ⟨ns, hns⟩ := exists_ipv6Text_iff.mpr (phpFilterValidateIpv6_iff_blocks.mp hvalid)
        exact ⟨.ipv6 ns, hns⟩
    · split at h
      · split at h
        · cases h
        · next ip hip => exact ⟨.ipv4 ip, phpFilterValidateIpv4_eq_some.mp hip⟩
      · cases h
  · rintro ⟨A, hA⟩
    cases A with
    | ipv4 ip =>
      rw [phpFilterValidateIp, if_neg (Ipv4Text.colon_not_mem hA), if_pos (Ipv4Text.dot_mem hA),
        phpFilterValidateIpv4_eq_some.mpr hA]
      simp [hflags]
    | ipv6 ns =>
      rw [phpFilterValidateIp_ipv6 hA]
      simp [hflags]

theorem answers_eq (hs : Ipv6Text s ns) (ht : Ipv6Text t ns) (hns : ¬ Sensitive flags (.ipv6 ns)) :
    phpFilterValidateIp s flags = phpFilterValidateIp t flags := by
  rw [Bool.eq_iff_iff, phpFilterValidateIp_ipv6 hs, phpFilterValidateIp_ipv6 ht]
  refine and_congr_right fun hmode => ?_
  have hsafe : ¬ (has flags FILTER_FLAG_NO_PRIV_RANGE = true ∧ PrivateSensitive ns ∨
      has flags FILTER_FLAG_NO_RES_RANGE = true ∧ ReservedSensitive ns) := fun h => hns ⟨hmode, h⟩
  rw [not_or] at hsafe
  refine and_congr (not_congr (and_congr_right fun hpriv => ?_))
    (not_congr (and_congr_right fun hres => ?_))
  · have hp : ¬ PrivateSensitive ns := fun h => hsafe.1 ⟨hpriv, h⟩
    rw [privateIpv6_iff hs hp, privateIpv6_iff ht hp]
  · have hr : ¬ ReservedSensitive ns := fun h => hsafe.2 ⟨hres, h⟩
    rw [reservedIpv6_iff hs hr, reservedIpv6_iff ht hr]

theorem exists_answers_ne (hns : ns.length = 8 ∧ ∀ n ∈ ns, n < 65536)
    (h : Sensitive flags (.ipv6 ns)) : ∃ s t, Ipv6Text s ns ∧ Ipv6Text t ns ∧
      phpFilterValidateIp s flags ≠ phpFilterValidateIp t flags := by
  obtain ⟨hmode, hcase⟩ := h
  have hrefused : ∃ s, Ipv6Text s ns ∧ phpFilterValidateIp s flags ≠ true := by
    rcases hcase with ⟨hpriv, hp⟩ | ⟨hres, hr⟩
    · obtain ⟨s, hs, hprivate⟩ := exists_private hns hp
      refine ⟨s, hs, fun h => ?_⟩
      exact ((phpFilterValidateIp_ipv6 hs).mp h).2.1 ⟨hpriv, hprivate⟩
    · obtain ⟨s, hs, hreserved⟩ := (twoSpellings_of_sensitive hns hr).1
      refine ⟨s, hs, fun h => ?_⟩
      exact ((phpFilterValidateIp_ipv6 hs).mp h).2.2 ⟨hres, hreserved⟩
  have haccepted : ∃ t, Ipv6Text t ns ∧ phpFilterValidateIp t flags = true := by
    have hplain : ∃ t, Ipv6Text t ns ∧ ¬ privateIpv6 t = true ∧ ¬ reservedIpv6 t = true := by
      rcases hcase with ⟨-, hp⟩ | ⟨-, hr⟩
      · refine exists_plain hns ?_
        unfold PrivateSensitive at hp
        omega
      · exact (twoSpellings_of_sensitive hns hr).2
    obtain ⟨t, ht, hprivate, hreserved⟩ := hplain
    exact ⟨t, ht, (phpFilterValidateIp_ipv6 ht).mpr
      ⟨hmode, fun h => hprivate h.2, fun h => hreserved h.2⟩⟩
  obtain ⟨s, hs, hs'⟩ := hrefused
  obtain ⟨t, ht, ht'⟩ := haccepted
  exact ⟨s, t, hs, ht, fun h => hs' (h.trans ht')⟩

/-- All spellings of an address get one answer if and only if it is not one of those that the flags
look at as a text. -/
theorem answers_eq_iff (flags : ℕ) (A : Address) (hA : ∃ s, Spells s A) :
    (∀ s t, phpFilterValidateIp s 0 = true → phpFilterValidateIp t 0 = true → Spells s A →
      Spells t A → phpFilterValidateIp s flags = phpFilterValidateIp t flags) ↔
      ¬ Sensitive flags A := by
  cases A with
  | ipv4 ip =>
    refine iff_of_true ?_ fun h => h
    exact fun s t _ _ hs ht => phpFilterValidateIp_ipv4 hs ht
  | ipv6 ns =>
    constructor
    · intro h hsensitive
      obtain ⟨s, hs⟩ := hA
      obtain ⟨s, t, hs, ht, hne⟩ := exists_answers_ne (Ipv6Text.valid hs) hsensitive
      exact hne (h s t (phpFilterValidateIp_zero.mpr ⟨.ipv6 ns, hs⟩)
        (phpFilterValidateIp_zero.mpr ⟨.ipv6 ns, ht⟩) hs ht)
    · exact fun h s t _ _ hs ht => answers_eq hs ht h

/-- `::2` -/
theorem answers_eq_two :
    (∀ s t, phpFilterValidateIp s 0 = true → phpFilterValidateIp t 0 = true →
      Spells s (.ipv6 [0, 0, 0, 0, 0, 0, 0, 2]) → Spells t (.ipv6 [0, 0, 0, 0, 0, 0, 0, 2]) →
      phpFilterValidateIp s FILTER_FLAG_NO_RES_RANGE =
        phpFilterValidateIp t FILTER_FLAG_NO_RES_RANGE) ↔
      ¬ Sensitive FILTER_FLAG_NO_RES_RANGE (.ipv6 [0, 0, 0, 0, 0, 0, 0, 2]) := by
  refine answers_eq_iff FILTER_FLAG_NO_RES_RANGE (.ipv6 [0, 0, 0, 0, 0, 0, 0, 2]) ⟨[58, 58, 50], ?_⟩
  have htwo : Group [50] 2 := ⟨[2], rfl, by decide, by decide, rfl⟩
  exact .compressed .nil (.group htwo .nil) (by decide)

/-- `::1` is refused, and `::01` is the same address. -/
theorem answers_ne_one :
    Spells [58, 58, 49] (.ipv6 [0, 0, 0, 0, 0, 0, 0, 1]) ∧
      Spells [58, 58, 48, 49] (.ipv6 [0, 0, 0, 0, 0, 0, 0, 1]) ∧
      phpFilterValidateIp [58, 58, 49] 0 = true ∧ phpFilterValidateIp [58, 58, 48, 49] 0 = true ∧
      phpFilterValidateIp [58, 58, 49] FILTER_FLAG_NO_RES_RANGE = false ∧
      phpFilterValidateIp [58, 58, 48, 49] FILTER_FLAG_NO_RES_RANGE = true := by
  have hone : Group [49] 1 := ⟨[1], rfl, by decide, by decide, rfl⟩
  have hone' : Group [48, 49] 1 := ⟨[0, 1], rfl, by decide, by decide, rfl⟩
  refine ⟨.compressed .nil (.group hone .nil) (by decide),
    .compressed .nil (.group hone' .nil) (by decide), ?_, ?_, ?_, ?_⟩
  all_goals decide +kernel

end PhpRuntime.Validate

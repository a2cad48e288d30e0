import Mathlib.Data.List.GetD
import PhpRuntime.Fastcgi.Variables
import PhpRuntime.Lib.PrefixCode

/-!
# The parameters of a FastCGI request

A pair is coded by its two lengths, of one or four bytes, and the name and the value. The code is a
prefix code, so a request that is read gives the pairs that were sent, however they are divided
into records.
-/

set_option autoImplicit false

namespace PhpRuntime.Fastcgi

open PhpRuntime.Lib RequestType

variable {env : FcgiHash} {p s t x y name val : List UInt8} {n m : ℕ} {past : UInt8}
  {pairs : List (List UInt8 × List UInt8)}

/-! ## The code of a pair -/

/-- A length in one byte, or in four with the highest bit set. -/
inductive LengthCode : ℕ → List UInt8 → Prop
  | one (b : UInt8) (h : b.toNat < 128) : LengthCode b.toNat [b]
  | four (b b2 b1 b0 : UInt8) (h : 128 ≤ b.toNat) :
      LengthCode (b.toNat % 128 * 16777216 + b2.toNat * 65536 + b1.toNat * 256 + b0.toNat)
        [b, b2, b1, b0]

def pairCode (pair : List UInt8 × List UInt8) (bytes : List UInt8) : Prop :=
  ∃ s t, LengthCode pair.1.length s ∧ LengthCode pair.2.length t ∧
    bytes = s ++ (t ++ (pair.1 ++ pair.2))

theorem LengthCode.unique (h : LengthCode n s) (h' : LengthCode m t) (heq : s ++ x = t ++ y) :
    n = m ∧ s = t ∧ x = y := by
  cases h with
  | one b hb =>
    cases h' with
    | one c hc =>
      rw [List.singleton_append, List.singleton_append, List.cons.injEq] at heq
      obtain ⟨rfl, hxy⟩ := heq
      exact ⟨rfl, rfl, hxy⟩
    | four c c2 c1 c0 hc =>
      rw [List.singleton_append, List.cons_append, List.cons.injEq] at heq
      rw [heq.1] at hb
      omega
  | four b b2 b1 b0 hb =>
    cases h' with
    | one c hc =>
      rw [List.singleton_append, List.cons_append, List.cons.injEq] at heq
      rw [heq.1] at hb
      omega
    | four c c2 c1 c0 hc =>
      simp only [List.cons_append, List.cons.injEq, List.nil_append] at heq
      obtain ⟨rfl, rfl, rfl, rfl, hxy⟩ := heq
      exact ⟨rfl, rfl, hxy⟩

theorem LengthCode.ne_nil (h : LengthCode n s) : s ≠ [] := by
  cases h <;> exact List.cons_ne_nil _ _

/-- **No code of a pair begins another.** -/
theorem prefixCode_pairCode : PrefixCode pairCode where
  unique := by
    rintro ⟨name, val⟩ ⟨name', val'⟩ _ _ x y ⟨s, t, hs, ht, rfl⟩ ⟨s', t', hs', ht', rfl⟩ heq
    simp only [List.append_assoc] at heq
    obtain ⟨hname, rfl, hvalues⟩ := hs.unique hs' heq
    obtain ⟨hval, rfl, hbytes⟩ := ht.unique ht' hvalues
    obtain ⟨hnames, hrest⟩ := List.append_inj hbytes hname
    obtain ⟨hvals, hxy⟩ := List.append_inj hrest hval
    rw [hnames, hvals]
    exact ⟨rfl, rfl, hxy⟩
  nonempty := by
    rintro ⟨name, val⟩ _ ⟨s, t, hs, -, rfl⟩
    exact List.append_ne_nil_of_left_ne_nil hs.ne_nil _

/-- What `fcgi_get_params` reads as a length is one. -/
theorem lengthCode_of_getLength (h : getLength p = some (n, x)) :
    ∃ s, LengthCode n s ∧ p = s ++ x := by
  cases p with
  | nil => cases h
  | cons b p =>
    rw [getLength.eq_def] at h
    dsimp only at h
    split_ifs at h with hb
    · rw [Option.some.injEq, Prod.mk.injEq] at h
      obtain ⟨rfl, rfl⟩ := h
      exact ⟨[b], .one b hb, rfl⟩
    · split at h
      · rw [Option.some.injEq, Prod.mk.injEq] at h
        obtain ⟨rfl, rfl⟩ := h
        exact ⟨_, .four b _ _ _ (Nat.not_lt.mp hb), rfl⟩
      · cases h

theorem LengthCode.lt (h : LengthCode n s) : n < 2147483648 := by
  cases h with
  | one b hb => omega
  | four b b2 b1 b0 hb =>
    have hb2 := b2.toNat_lt
    have hb1 := b1.toNat_lt
    have hb0 := b0.toNat_lt
    omega

theorem pairCode_of_getLengths (h : getLengths p = some (n, m, x)) :
    n + m ≤ x.length ∧ ∃ s, pairCode (x.take n, (x.drop n).take m) s ∧ p = s ++ x.drop (n + m) := by
  rw [getLengths] at h
  cases hname : getLength p with
  | none =>
    rw [hname] at h
    cases h
  | some first =>
    obtain ⟨n', y⟩ := first
    rw [hname] at h
    dsimp only at h
    cases hval : getLength y with
    | none =>
      rw [hval] at h
      cases h
    | some second =>
      obtain ⟨m', z⟩ := second
      rw [hval] at h
      dsimp only at h
      split_ifs at h with hlen
      rw [Option.some.injEq, Prod.mk.injEq, Prod.mk.injEq] at h
      obtain ⟨rfl, rfl, rfl⟩ := h
      obtain ⟨s, hs, rfl⟩ := lengthCode_of_getLength hname
      obtain ⟨t, ht, rfl⟩ := lengthCode_of_getLength hval
      have hsum : n' + m' ≤ z.length := by
        have hn := hs.lt
        have hm := ht.lt
        omega
      have hn : (z.take n').length = n' := List.length_take_of_le (by omega)
      have hm : ((z.drop n').take m').length = m' := by
        rw [List.length_take_of_le]
        rw [List.length_drop]
        omega
      have hsplit : z = z.take n' ++ ((z.drop n').take m' ++ z.drop (n' + m')) := by
        rw [← List.drop_drop, List.take_append_drop, List.take_append_drop]
      refine ⟨hsum, s ++ (t ++ (z.take n' ++ (z.drop n').take m')), ⟨s, t, ?_, ?_, rfl⟩, ?_⟩
      · rw [hn]
        exact hs
      · rw [hm]
        exact ht
      · conv => lhs; rw [hsplit]
        simp only [List.append_assoc]

/-! ## Names with one hash value -/

/-- The name has the same hash value on the wire and as a C string: it is shorter than three
characters, or longer, and the characters that the hash function takes are not negative. -/
def Plain (name : List UInt8) : Prop :=
  name.length < 3 ∨ 3 < name.length ∧ ∀ i, i = 3 ∨ i = name.length - 2 ∨ i = name.length - 1 →
    (name.getD i 0).toNat < 128

theorem bufferHash_of_plain (hplain : Plain (x.take n)) (hn : n ≤ x.length) (past : UInt8) :
    bufferHash x past n = stringHash (x.take n) := by
  have hlength : (x.take n).length = n := List.length_take_of_le hn
  rw [bufferHash, stringHash, hlength, FCGI_HASH_FUNC, FCGI_HASH_FUNC]
  split_ifs with hshort
  · rfl
  rw [Plain, hlength] at hplain
  obtain ⟨hlong, hchars⟩ := hplain.resolve_left hshort
  have hchar (i : ℕ) (hi : i = 3 ∨ i = n - 2 ∨ i = n - 1) :
      unsignedChar (x.getD i past) = signedChar ((x.take n).getD i 0) := by
    have hin : i < n := by omega
    have hx : x[i]? = some x[i] := List.getElem?_eq_getElem (by omega)
    have htake : (x.take n).getD i 0 = x[i] := by
      rw [List.getD_eq_getElem?_getD, List.getElem?_take_of_lt hin, hx, Option.getD_some]
    have hlt := hchars i hi
    rw [htake] at hlt ⊢
    rw [List.getD_eq_getElem?_getD, hx, Option.getD_some, signedChar, if_pos hlt, unsignedChar]
  rw [hchar 3 (.inl rfl), hchar (n - 2) (.inr (.inl rfl)), hchar (n - 1) (.inr (.inr rfl))]

/-! ## The environment as a map -/

def lastValue (pairs : List (List UInt8 × List UInt8)) (name : List UInt8) :
    Option (List UInt8) :=
  (pairs.reverse.find? fun pair => pair.1 == name).map Prod.snd

theorem lastValue_concat (pairs : List (List UInt8 × List UInt8)) (name val : List UInt8) :
    lastValue (pairs ++ [(name, val)]) = Function.update (lastValue pairs) name (some val) := by
  funext other
  rw [lastValue, List.reverse_append, List.reverse_singleton, List.singleton_append,
    List.find?_cons, Function.update_apply]
  by_cases heq : other = name
  · subst heq
    rw [if_pos rfl, beq_self_eq_true]
    rfl
  · have hne : (name == other) = false := beq_eq_false_iff_ne.mpr (Ne.symm heq)
    rw [if_neg heq, hne]
    rfl

/-- The hash table holds the values of a map, as far as the names are plain. -/
structure IsMap (env : FcgiHash) (values : List UInt8 → Option (List UInt8)) : Prop where
  wellFormed : env.WellFormed
  get : ∀ name, Plain name → fcgi_hash_get env (stringHash name) name = values name
  only : ∀ hash_value name val, Plain name → fcgi_hash_get env hash_value name = some val →
    hash_value = stringHash name

variable {values : List UInt8 → Option (List UInt8)} {hash_value : ℕ}

theorem isMap_clean (env : FcgiHash) : IsMap (fcgi_hash_clean env) fun _ => none where
  wellFormed := fcgi_hash_clean_wellFormed env
  get _ _ := rfl
  only _ _ _ _ h := by cases h

theorem IsMap.set (h : IsMap env values) (hhash : Plain name → hash_value = stringHash name)
    (val : List UInt8) : IsMap (fcgi_hash_set env hash_value name val)
      (Function.update values name (some val)) where
  wellFormed := fcgi_hash_set_wellFormed h.wellFormed hash_value name val
  get other hother := by
    rw [get_set h.wellFormed, Function.update_apply]
    by_cases heq : other = name
    · subst heq
      rw [if_pos ⟨(hhash hother).symm, rfl⟩, if_pos rfl]
    · rw [if_neg fun hno => heq hno.2, if_neg heq]
      exact h.get other hother
  only hash' other val' hother hget := by
    rw [get_set h.wellFormed] at hget
    split_ifs at hget with heq
    · rw [heq.1, heq.2]
      exact hhash (heq.2 ▸ hother)
    · exact h.only hash' other val' hother hget

theorem IsMap.del (h : IsMap env values) (name : List UInt8) :
    IsMap (fcgi_hash_del env (stringHash name) name) (Function.update values name none) where
  wellFormed := fcgi_hash_del_wellFormed h.wellFormed _ name
  get other hother := by
    rw [get_del h.wellFormed, Function.update_apply]
    by_cases heq : other = name
    · subst heq
      rw [if_pos ⟨rfl, rfl⟩, if_pos rfl]
    · rw [if_neg fun hno => heq hno.2, if_neg heq]
      exact h.get other hother
  only hash' other val' hother hget := by
    rw [get_del h.wellFormed] at hget
    split_ifs at hget with heq
    exact h.only hash' other val' hother hget

theorem IsMap.putenv (h : IsMap env values) (name : List UInt8) (val : Option (List UInt8)) :
    IsMap (fcgi_putenv env name val) (Function.update values name (val.map cString)) := by
  cases val with
  | none => exact h.del name
  | some val => exact h.set (fun _ => rfl) (cString val)

/-- What `fcgi_putenv` does to the environment: it sets or deletes one name, plain or not. -/
theorem getenv_putenv (hw : env.WellFormed) (var : List UInt8) (val : Option (List UInt8))
    (name : List UInt8) : fcgi_getenv (fcgi_putenv env var val) name =
      if name = var then val.map cString else fcgi_getenv env name := by
  cases val with
  | none =>
    rw [fcgi_getenv, fcgi_putenv, get_del hw]
    by_cases heq : name = var
    · subst heq
      rw [if_pos ⟨rfl, rfl⟩, if_pos rfl]
      rfl
    · rw [if_neg fun hno => heq hno.2, if_neg heq]
      rfl
  | some val =>
    rw [fcgi_getenv, fcgi_putenv, get_set hw]
    by_cases heq : name = var
    · subst heq
      rw [if_pos ⟨rfl, rfl⟩, if_pos rfl]
      rfl
    · rw [if_neg fun hno => heq hno.2, if_neg heq]
      rfl

/-! ## Loading -/

theorem filterMap_of_unique {α β : Type} {f : α → Option β} {l : List α} {a : α} {b : β}
    (hl : l.Nodup) (ha : a ∈ l) (hb : f a = some b) (hother : ∀ c ∈ l, c ≠ a → f c = none) :
    l.filterMap f = [b] := by
  induction l with
  | nil => exact absurd ha List.not_mem_nil
  | cons c l ih =>
    obtain ⟨hc, hl⟩ := List.nodup_cons.mp hl
    by_cases hca : c = a
    · subst hca
      have hnil : l.filterMap f = [] := by
        rw [List.filterMap_eq_nil_iff]
        intro d hd
        refine hother d (List.mem_cons_of_mem _ hd) ?_
        rintro rfl
        exact hc hd
      rw [List.filterMap_cons, hb, hnil]
    · have hnone := hother c List.mem_cons_self hca
      rw [List.filterMap_cons, hnone]
      refine ih hl ?_ fun d hd => hother d (List.mem_cons_of_mem _ hd)
      exact (List.mem_cons.mp ha).resolve_left (Ne.symm hca)

/-- **Each plain name is visited once, with its value**, or not at all. -/
theorem IsMap.loadenv (h : IsMap env values) (hname : Plain name) :
    (fcgi_loadenv env).filter (fun pair => pair.1 == name) =
      (values name).toList.map fun val => (name, val) := by
  have hw := h.wellFormed
  -- what a bucket passes on for the name
  let visit (p : ℕ) : Option (List UInt8 × List UInt8) :=
    if (env.bucket p).var = name then (env.bucket p).val.map fun val => (name, val) else none
  have hvisit : (fcgi_loadenv env).filter (fun pair => pair.1 == name) =
      env.list.filterMap visit := by
    rw [fcgi_loadenv, fcgi_hash_apply, List.filter_filterMap]
    refine List.filterMap_congr fun p _ => ?_
    cases hval : (env.bucket p).val with
    | none => simp [visit, hval]
    | some val =>
      by_cases heq : (env.bucket p).var = name
      · simp [visit, hval, heq, Option.filter]
      · simp [visit, heq, Option.filter]
  -- a bucket with the name and a value is the one that is found
  have hfound (p : ℕ) (hp : p ∈ env.list) (pair : List UInt8 × List UInt8)
      (hpair : visit p = some pair) : ∃ val, pair = (name, val) ∧
        env.find (stringHash name) name = some p ∧ values name = some val := by
    have hlt : p < env.idx := by
      rw [hw.list, List.mem_reverse, List.mem_range] at hp
      exact hp
    simp only [visit] at hpair
    split_ifs at hpair with hvar
    obtain ⟨val, hval, rfl⟩ := Option.map_eq_some_iff.mp hpair
    have hbucket : env.bucket p = ⟨(env.bucket p).hash_value, name, some val⟩ := by
      rw [← hvar, ← hval]
    have hget := hw.get_eq_some_iff.mpr ⟨p, hlt, hbucket⟩
    have hhash := h.only _ name val hname hget
    rw [hhash] at hget
    have hused : env.Used p := by
      refine ⟨hlt, ?_⟩
      rw [hval]
      rfl
    exact ⟨val, rfl, hw.find_eq_some_iff.mpr ⟨hused, hhash, hvar⟩, (h.get name hname) ▸ hget⟩
  rw [hvisit]
  cases hvalue : values name with
  | none =>
    rw [Option.toList_none, List.map_nil, List.filterMap_eq_nil_iff]
    intro p hp
    cases hpair : visit p with
    | none => rfl
    | some pair =>
      obtain ⟨val, -, -, hsome⟩ := hfound p hp pair hpair
      rw [hvalue] at hsome
      cases hsome
  | some val =>
    have hget := h.get name hname
    rw [hvalue] at hget
    obtain ⟨p, hp, hbucket⟩ := hw.get_eq_some_iff.mp hget
    have hin : p ∈ env.list := by
      rw [hw.list, List.mem_reverse, List.mem_range]
      exact hp
    have hnodup : env.list.Nodup := by
      rw [hw.list, List.nodup_reverse]
      exact List.nodup_range
    have hself : visit p = some (name, val) := by
      simp [visit, hbucket]
    refine filterMap_of_unique hnodup hin hself fun q hq hne => ?_
    cases hpair : visit q with
    | none => rfl
    | some pair =>
      obtain ⟨-, -, hfind, -⟩ := hfound p hin _ hself
      obtain ⟨-, -, hfind', -⟩ := hfound q hq _ hpair
      rw [hfind, Option.some.injEq] at hfind'
      exact absurd hfind'.symm hne

/-! ## Reading -/

/-- **What is read from a record are whole pairs**, and what every one of them keeps is kept. -/
theorem getParams_inv {Inv : FcgiHash → List (List UInt8 × List UInt8) → Prop}
    (hset : ∀ env pairs (x : List UInt8) n val, n ≤ x.length → Inv env pairs →
      Inv (fcgi_hash_set env (bufferHash x past n) (x.take n) val) (pairs ++ [(x.take n, val)]))
    {fuel : ℕ} {env' : FcgiHash} (hfuel : p.length ≤ fuel) (h : Inv env pairs)
    (hread : getParams past fuel env p = (env', true)) :
    ∃ more, Coded pairCode more p ∧ Inv env' (pairs ++ more) := by
  induction fuel generalizing p env pairs with
  | zero =>
    have hp := List.eq_nil_of_length_eq_zero (Nat.le_zero.mp hfuel)
    subst hp
    rw [getParams, Prod.mk.injEq] at hread
    refine ⟨[], .nil, ?_⟩
    rw [← hread.1, List.append_nil]
    exact h
  | succ fuel ih =>
    rw [getParams] at hread
    by_cases hp : p = []
    · subst hp
      rw [if_pos rfl, Prod.mk.injEq] at hread
      refine ⟨[], .nil, ?_⟩
      rw [← hread.1, List.append_nil]
      exact h
    rw [if_neg hp] at hread
    cases hlengths : getLengths p with
    | none =>
      rw [hlengths] at hread
      cases congrArg Prod.snd hread
    | some lengths =>
      obtain ⟨n, m, x⟩ := lengths
      rw [hlengths] at hread
      obtain ⟨hsum, s, hs, rfl⟩ := pairCode_of_getLengths hlengths
      have hpos := List.length_pos_iff.mpr (prefixCode_pairCode.nonempty hs)
      rw [List.length_append] at hfuel
      obtain ⟨more, hmore, hinv⟩ := ih (by omega)
        (hset env pairs x n ((x.drop n).take m) (by omega) h) hread
      refine ⟨(x.take n, (x.drop n).take m) :: more, .cons hs hmore, ?_⟩
      rw [List.append_assoc, List.singleton_append] at hinv
      exact hinv

theorem getParams_eq {fuel : ℕ} {env' : FcgiHash} (hfuel : p.length ≤ fuel)
    (h : IsMap env (lastValue pairs)) (hread : getParams past fuel env p = (env', true)) :
    ∃ more, Coded pairCode more p ∧ IsMap env' (lastValue (pairs ++ more)) := by
  have hset : ∀ env pairs (x : List UInt8) n val, n ≤ x.length → IsMap env (lastValue pairs) →
      IsMap (fcgi_hash_set env (bufferHash x past n) (x.take n) val)
        (lastValue (pairs ++ [(x.take n, val)])) := by
    intro env pairs x n val hn hmap
    rw [lastValue_concat]
    exact hmap.set (fun hplain => bufferHash_of_plain hplain hn past) val
  exact getParams_inv hset hfuel h hread

def headerOf (r : Record) : Header where
  version := 1
  type := r.type
  requestId := r.id
  contentLength := r.content.length
  paddingLength := r.padding.length

theorem twoBytes {n : ℕ} (hn : n < 65536) :
    (UInt8.ofNat (n / 256)).toNat * 256 + (UInt8.ofNat n).toNat = n := by
  rw [UInt8.toNat_ofNat', UInt8.toNat_ofNat']
  omega

theorem ofBytes_header (r : Record) :
    Header.ofBytes (Record.header r.type r.id r.content.length r.padding.length) = headerOf r := by
  have hpadding : (UInt8.ofNat r.padding.length).toNat = r.padding.length := by
    exact Nat.mod_eq_of_lt r.padding_lt
  rw [headerOf, Header.mk.injEq]
  exact ⟨rfl, rfl, twoBytes r.id_lt, twoBytes r.content_lt, hpadding⟩

theorem readHeader_encode (r : Record) (x : List UInt8) :
    readHeader (r.encode ++ x) = some (headerOf r, r.content ++ (r.padding ++ x)) := by
  have hencode : r.encode ++ x = Record.header r.type r.id r.content.length r.padding.length ++
      (r.content ++ (r.padding ++ x)) := by
    rw [Record.encode, List.append_assoc, List.append_assoc]
  have hlength : headerSize ≤ (Record.header r.type r.id r.content.length r.padding.length ++
      (r.content ++ (r.padding ++ x))).length := by
    rw [List.length_append, Record.length_header]
    exact Nat.le_add_right _ _
  have hsize : (Record.header r.type r.id r.content.length r.padding.length).length =
      headerSize := rfl
  have hversion : ¬ (headerOf r).version < 1 := UInt8.lt_irrefl 1
  rw [hencode, readHeader, safe_read, if_pos hlength]
  dsimp only
  rw [List.take_left' hsize, List.drop_left' hsize, ofBytes_header, if_neg hversion]

theorem safe_read_append (r : Record) (x : List UInt8) :
    safe_read (r.content ++ (r.padding ++ x)) (r.content.length + r.padding.length) =
      some (r.content ++ r.padding, x) := by
  have hlength : (r.content ++ r.padding).length = r.content.length + r.padding.length :=
    List.length_append
  rw [← List.append_assoc, safe_read, if_pos (by rw [List.length_append, hlength]; omega),
    List.take_left' hlength, List.drop_left' hlength]

def IsParams (r : Record) : Prop := r.type = FCGI_PARAMS.code ∧ r.content ≠ []

/-- What is behind the header of the next record. -/
def behindHeader (last : Record) (rest : List UInt8) : List Record → Header × List UInt8
  | [] => (headerOf last, last.content ++ (last.padding ++ rest))
  | r :: params =>
    (headerOf r, r.content ++ (r.padding ++ (encodeAll (params ++ [last]) ++ rest)))

theorem readHeader_encodeAll (last : Record) (rest : List UInt8) (params : List Record) :
    readHeader (encodeAll (params ++ [last]) ++ rest) = some (behindHeader last rest params) := by
  cases params with
  | nil =>
    rw [List.nil_append, encodeAll_singleton]
    exact readHeader_encode last rest
  | cons r params =>
    have hencode : encodeAll (r :: params ++ [last]) ++ rest =
        r.encode ++ (encodeAll (params ++ [last]) ++ rest) := by
      rw [List.cons_append, ← List.singleton_append, encodeAll_append, encodeAll_singleton,
        List.append_assoc]
    rw [hencode]
    exact readHeader_encode r _

/-- **The loop over the records** gives the pairs of all of them, and each has whole pairs. -/
theorem readParams_eq {id : Option ℕ} {keep : Bool} {fuel : ℕ} {buf : ℕ → UInt8}
    {params : List Record} {last : Record} {rest : List UInt8}
    (hparams : ∀ r ∈ params, IsParams r) (hlast : ¬ IsParams last) (hfuel : params.length < fuel)
    (h : IsMap env (lastValue pairs))
    (hok : (readParams id keep fuel (behindHeader last rest params).1 buf env
      (behindHeader last rest params).2).ok = true) :
    ∃ pieces : List (List (List UInt8 × List UInt8) × List UInt8),
      pieces.map Prod.snd = params.map Record.content ∧
      (∀ piece ∈ pieces, Coded pairCode piece.1 piece.2) ∧
      IsMap (readParams id keep fuel (behindHeader last rest params).1 buf env
        (behindHeader last rest params).2).env (lastValue (pairs ++ pieces.flatMap Prod.fst)) := by
  have hiff (r : Record) : (headerOf r).type = FCGI_PARAMS.code ∧ 0 < (headerOf r).contentLength ↔
      IsParams r := and_congr Iff.rfl List.length_pos_iff
  induction params generalizing fuel buf env pairs with
  | nil =>
    obtain ⟨fuel, rfl⟩ : ∃ k, fuel = k + 1 := ⟨fuel - 1, by omega⟩
    refine ⟨[], rfl, fun piece hpiece => absurd hpiece List.not_mem_nil, ?_⟩
    rw [behindHeader, readParams, if_neg ((hiff last).not.mpr hlast), List.flatMap_nil,
      List.append_nil]
    exact h
  | cons r params ih =>
    obtain ⟨fuel, rfl⟩ : ∃ k, fuel = k + 1 := ⟨fuel - 1, by omega⟩
    have hr := hparams r List.mem_cons_self
    rw [behindHeader, readParams, if_pos ((hiff r).mpr hr)] at hok ⊢
    by_cases hmax : (headerOf r).contentLength + (headerOf r).paddingLength > maxLength
    · rw [if_pos hmax] at hok
      cases hok
    rw [if_neg hmax] at hok ⊢
    have hread : safe_read (r.content ++ (r.padding ++ (encodeAll (params ++ [last]) ++ rest)))
        ((headerOf r).contentLength + (headerOf r).paddingLength) =
          some (r.content ++ r.padding, encodeAll (params ++ [last]) ++ rest) :=
      safe_read_append r _
    have htake : (r.content ++ r.padding).take (headerOf r).contentLength = r.content :=
      List.take_left' rfl
    rw [hread] at hok ⊢
    dsimp only at hok ⊢
    rw [htake] at hok ⊢
    generalize hgot : fcgi_get_params env r.content
      (fillBuffer buf (r.content ++ r.padding) (headerOf r).contentLength) = got at hok ⊢
    obtain ⟨env', parsed⟩ := got
    cases parsed with
    | false => cases hok
    | true =>
      obtain ⟨more, hmore, hmap⟩ := getParams_eq (Nat.le_refl _) h hgot
      rw [readHeader_encodeAll] at hok ⊢
      obtain ⟨pieces, hpieces, hcoded, hmap'⟩ := ih (fun q hq => hparams q (List.mem_cons_of_mem _ hq))
        (Nat.lt_of_succ_lt_succ hfuel) hmap hok
      refine ⟨(more, r.content) :: pieces, ?_, fun piece hpiece => ?_, ?_⟩
      · rw [List.map_cons, List.map_cons, hpieces]
      · obtain heq | hpiece := List.mem_cons.mp hpiece
        · rw [heq]
          exact hmore
        · exact hcoded piece hpiece
      · rw [List.flatMap_cons, ← List.append_assoc]
        exact hmap'

/-! ## A request -/

/-- A record that is passed over in front of a request. -/
def IsEmptyStdin (r : Record) : Prop :=
  r.type = FCGI_STDIN.code ∧ r.content = [] ∧ r.padding = []

def IsBegin (r : Record) : Prop := r.type = FCGI_BEGIN_REQUEST.code ∧ r.content.length = 8

theorem skipStdin_eq {stdins : List Record} {begin : Record} {fuel : ℕ} (x : List UInt8)
    (hstdins : ∀ r ∈ stdins, IsEmptyStdin r) (hbegin : IsBegin begin)
    (hfuel : stdins.length < fuel) :
    skipStdin fuel (behindHeader begin x stdins).1 (behindHeader begin x stdins).2 =
      some (headerOf begin, begin.content ++ (begin.padding ++ x)) := by
  induction stdins generalizing fuel with
  | nil =>
    obtain ⟨fuel, rfl⟩ : ∃ k, fuel = k + 1 := ⟨fuel - 1, by omega⟩
    have hno : ¬ ((headerOf begin).type = FCGI_STDIN.code ∧ (headerOf begin).contentLength = 0) := by
      rintro ⟨-, hzero⟩
      have hlength : begin.content.length = 0 := hzero
      rw [hbegin.2] at hlength
      cases hlength
    rw [behindHeader, skipStdin, if_neg hno]
  | cons r stdins ih =>
    obtain ⟨fuel, rfl⟩ : ∃ k, fuel = k + 1 := ⟨fuel - 1, by omega⟩
    obtain ⟨htype, hcontent, hpadding⟩ := hstdins r List.mem_cons_self
    have hskip : (headerOf r).type = FCGI_STDIN.code ∧ (headerOf r).contentLength = 0 := by
      refine ⟨htype, ?_⟩
      rw [headerOf, hcontent]
      rfl
    rw [behindHeader, skipStdin, if_pos hskip, hcontent, hpadding, List.nil_append,
      List.nil_append, readHeader_encodeAll]
    exact ih (fun q hq => hstdins q (List.mem_cons_of_mem _ hq)) (Nat.lt_of_succ_lt_succ hfuel)

theorem length_encodeAll_ge (records : List Record) : records.length ≤ (encodeAll records).length := by
  induction records with
  | nil => exact Nat.le_refl 0
  | cons r records ih =>
    rw [← List.singleton_append, encodeAll_append, encodeAll_singleton, List.length_append,
      List.length_append, Record.encode]
    simp only [List.length_append, Record.length_header, List.length_singleton]
    omega

theorem length_behindHeader (last : Record) (rest : List UInt8) (params : List Record) :
    params.length < (behindHeader last rest params).2.length + 1 := by
  cases params with
  | nil => exact Nat.succ_pos _
  | cons r params =>
    have hlength := length_encodeAll_ge (params ++ [last])
    rw [behindHeader]
    simp only [List.length_append, List.length_cons, List.length_nil] at hlength ⊢
    omega

/-- The bytes of a request: records that are passed over, the first record, the parameters, and
another record behind them. -/
structure Sent where
  stdins : List Record
  begin : Record
  params : List Record
  last : Record
  rest : List UInt8
  stdins_empty : ∀ r ∈ stdins, IsEmptyStdin r
  begin_begin : IsBegin begin
  params_params : ∀ r ∈ params, IsParams r
  last_other : ¬ IsParams last

namespace Sent

def bytes (sent : Sent) : List UInt8 :=
  encodeAll (sent.stdins ++ [sent.begin]) ++
    (encodeAll (sent.params ++ [sent.last]) ++ sent.rest)

def stream (sent : Sent) : List UInt8 := sent.params.flatMap Record.content

def role (sent : Sent) : Option Role :=
  Role.ofCode ((sent.begin.content.getD 0 0).toNat * 256 + (sent.begin.content.getD 1 0).toNat)

end Sent

/-- **A request that is read** has a role, its records have whole pairs, and the environment is the
map of the role and these pairs. -/
theorem read_request_ok (sent : Sent) (buf : ℕ → UInt8)
    (hok : (fcgi_read_request buf (fcgi_hash_clean env) sent.bytes).ok = true) :
    ∃ role, sent.role = some role ∧ ∃ pieces : List (List (List UInt8 × List UInt8) × List UInt8),
      pieces.map Prod.snd = sent.params.map Record.content ∧
      (∀ piece ∈ pieces, Coded pairCode piece.1 piece.2) ∧
      IsMap (fcgi_read_request buf (fcgi_hash_clean env) sent.bytes).env
        (lastValue ((roleVar, role.name) :: pieces.flatMap Prod.fst)) := by
  have hbegin : (headerOf sent.begin).type = FCGI_BEGIN_REQUEST.code ∧
      (headerOf sent.begin).contentLength = 8 := sent.begin_begin
  rw [fcgi_read_request, Sent.bytes, readHeader_encodeAll] at hok ⊢
  dsimp only at hok ⊢
  rw [skipStdin_eq _ sent.stdins_empty sent.begin_begin (length_behindHeader _ _ _)] at hok ⊢
  dsimp only at hok ⊢
  by_cases hmax : (headerOf sent.begin).contentLength + (headerOf sent.begin).paddingLength >
      maxLength
  · rw [if_pos hmax] at hok
    cases hok
  rw [if_neg hmax, if_pos hbegin, beginRequest] at hok ⊢
  have hread : safe_read (sent.begin.content ++ (sent.begin.padding ++
      (encodeAll (sent.params ++ [sent.last]) ++ sent.rest)))
      ((headerOf sent.begin).contentLength + (headerOf sent.begin).paddingLength) =
        some (sent.begin.content ++ sent.begin.padding,
          encodeAll (sent.params ++ [sent.last]) ++ sent.rest) := safe_read_append sent.begin _
  rw [hread] at hok ⊢
  dsimp only at hok ⊢
  have hgetD (i : ℕ) (hi : i < 8) : (sent.begin.content ++ sent.begin.padding).getD i 0 =
      sent.begin.content.getD i 0 := List.getD_append _ _ _ _ (by rw [sent.begin_begin.2]; exact hi)
  rw [hgetD 0 (by decide), hgetD 1 (by decide)] at hok ⊢
  cases hrole : Role.ofCode ((sent.begin.content.getD 0 0).toNat * 256 +
      (sent.begin.content.getD 1 0).toNat) with
  | none =>
    rw [hrole] at hok
    cases hok
  | some role =>
    rw [hrole] at hok
    rw [readHeader_encodeAll] at hok ⊢
    have hmap : IsMap (fcgi_hash_set (fcgi_hash_clean env) (stringHash roleVar) roleVar role.name)
        (lastValue [(roleVar, role.name)]) := by
      have hset : IsMap (fcgi_hash_set _ (stringHash roleVar) roleVar role.name) _ :=
        (isMap_clean env).set (fun _ => rfl) role.name
      rw [← List.nil_append [(roleVar, role.name)], lastValue_concat]
      exact hset
    exact ⟨role, hrole, readParams_eq sent.params_params sent.last_other
      (length_behindHeader _ _ _) hmap hok⟩

/-- The environment has the values of a map: `fcgi_getenv` and `fcgi_loadenv` give them for the
plain names, and `fcgi_putenv` sets or deletes exactly its name. -/
structure IsEnvironment (env : FcgiHash) (values : List UInt8 → Option (List UInt8)) : Prop where
  getenv : ∀ name, Plain name → fcgi_getenv env name = values name
  loadenv : ∀ name, Plain name → (fcgi_loadenv env).filter (fun pair => pair.1 == name) =
    (values name).toList.map fun val => (name, val)
  putenv : ∀ var val name, fcgi_getenv (fcgi_putenv env var val) name =
    if name = var then val.map cString else fcgi_getenv env name

theorem IsMap.isEnvironment (h : IsMap env values) : IsEnvironment env values where
  getenv := h.get
  loadenv _ hname := h.loadenv hname
  putenv := getenv_putenv h.wellFormed

/-- A call of `fcgi_putenv`, and what it does to the map. -/
def putValue (values : List UInt8 → Option (List UInt8))
    (call : List UInt8 × Option (List UInt8)) : List UInt8 → Option (List UInt8) :=
  Function.update values call.1 (call.2.map cString)

theorem IsMap.putenvs (h : IsMap env values) (calls : List (List UInt8 × Option (List UInt8))) :
    IsMap (calls.foldl (fun env call => fcgi_putenv env call.1 call.2) env)
      (calls.foldl putValue values) := by
  induction calls generalizing env values with
  | nil => exact h
  | cons call calls ih => exact ih (h.putenv call.1 call.2)

/-- **The environment of a request is the map of its parameters**, where the role is a parameter
in front of the others, also after calls of `fcgi_putenv`. A record without whole pairs makes
`fcgi_read_request` fail. -/
theorem read_request_environment (sent : Sent) (buf : ℕ → UInt8) (env : FcgiHash) :
    (∀ pairs, Coded pairCode pairs sent.stream →
      (fcgi_read_request buf (fcgi_hash_clean env) sent.bytes).ok = true →
        ∃ role, sent.role = some role ∧ ∀ calls : List (List UInt8 × Option (List UInt8)),
          IsEnvironment (calls.foldl (fun env call => fcgi_putenv env call.1 call.2)
              (fcgi_read_request buf (fcgi_hash_clean env) sent.bytes).env)
            (calls.foldl putValue (lastValue ((roleVar, role.name) :: pairs)))) ∧
      ((∃ r ∈ sent.params, ∀ whole, ¬ Coded pairCode whole r.content) →
        (fcgi_read_request buf (fcgi_hash_clean env) sent.bytes).ok = false) := by
  constructor
  · intro pairs hpairs hok
    obtain ⟨role, hrole, pieces, hpieces, hcoded, hmap⟩ := read_request_ok sent buf hok
    have hstream : pieces.flatMap Prod.snd = sent.stream := by
      rw [Sent.stream, List.flatMap_def, List.flatMap_def, hpieces]
    have hflat := Coded.flatten hcoded
    rw [hstream] at hflat
    rw [hflat.unique prefixCode_pairCode hpairs] at hmap
    exact ⟨role, hrole, fun calls => (hmap.putenvs calls).isEnvironment⟩
  · rintro ⟨r, hr, hno⟩
    rw [← Bool.not_eq_true]
    intro hok
    obtain ⟨-, -, pieces, hpieces, hcoded, -⟩ := read_request_ok sent buf hok
    have hmem : r.content ∈ pieces.map Prod.snd := by
      rw [hpieces]
      exact List.mem_map_of_mem hr
    obtain ⟨piece, hpiece, heq⟩ := List.mem_map.mp hmem
    exact hno piece.1 (heq ▸ hcoded piece hpiece)

/-- A request without parameters, for a responder. -/
def bareRequest : Sent where
  stdins := []
  begin := ⟨FCGI_BEGIN_REQUEST.code, 1, [0, 1, 0, 0, 0, 0, 0, 0], [], by decide, by decide,
    by decide⟩
  params := []
  last := ⟨FCGI_PARAMS.code, 1, [], [], by decide, by decide, by decide⟩
  rest := []
  stdins_empty := fun r hr => absurd hr List.not_mem_nil
  begin_begin := ⟨rfl, rfl⟩
  params_params := fun r hr => absurd hr List.not_mem_nil
  last_other := fun h => h.2 rfl

/-- The role is in the environment also when it is not given as a parameter. -/
theorem not_environment : ¬ ∀ (sent : Sent) (buf : ℕ → UInt8) (env : FcgiHash)
    (pairs : List (List UInt8 × List UInt8)), Coded pairCode pairs sent.stream →
    (fcgi_read_request buf (fcgi_hash_clean env) sent.bytes).ok = true →
    ∀ name, fcgi_getenv (fcgi_read_request buf (fcgi_hash_clean env) sent.bytes).env name =
      lastValue pairs name := by
  intro hall
  have hget := hall bareRequest (fun _ => 0) ⟨fun _ => [], [], fun _ => ⟨0, [], none⟩, 0⟩ [] .nil
    (by decide +kernel) roleVar
  have hrole : fcgi_getenv (fcgi_read_request (fun _ => 0)
      (fcgi_hash_clean ⟨fun _ => [], [], fun _ => ⟨0, [], none⟩, 0⟩) bareRequest.bytes).env
      roleVar = some Role.FCGI_RESPONDER.name := by decide +kernel
  rw [hrole] at hget
  cases hget

end PhpRuntime.Fastcgi

import PhpRuntime.Hash.Refinement

/-!
# Comparing two tables

`zend_hash_compare` of `Zend/zend_hash.c`. Its result is an `int` that is computed from
differences of unsigned numbers: the difference of two counts or of two key lengths has
the 32 bits of an `int`, the difference of two integer keys has 64 and loses the upper
half. So an ordered comparison takes integer keys for equal that differ by a multiple of
`2^32`.
-/

set_option autoImplicit false

namespace PhpRuntime.Hash

open PhpRuntime.Lib

variable {α : Type} {ht ht1 ht2 : HashTable α} {l l1 l2 : List Addr} {p a b : Addr}
  {compar : α → α → Int32} {veq : α → α → Prop}

/-- `result = m - n` for two numbers of type `uint`. -/
def uintDiff (m n : ℕ) : Int32 := (UInt32.ofNat m - UInt32.ofNat n).toInt32

/-- `result = h - h'` for two numbers of type `ulong`: the low 32 bits. -/
def ulongDiff (h h' : UInt64) : Int32 := (h - h').toUInt32.toInt32

/-- `memcmp` of two blocks of one length. -/
def memcmp : List UInt8 → List UInt8 → Int32
  | a :: l, b :: m => if a = b then memcmp l m else if a < b then -1 else 1
  | _, _ => 0

/-- The fields `bApplyProtection` and `nApplyCount` of a table. -/
structure Protection where
  bApplyProtection : Bool
  nApplyCount : ℕ
deriving DecidableEq, Repr

/-- `HASH_PROTECT_RECURSION(ht)` (zend_hash.c:80-85), `none` being the fatal error "Nesting
level too deep - recursive dependency?". -/
def Protection.protect (s : Protection) : Option Protection :=
  if s.bApplyProtection then
    if 3 ≤ s.nApplyCount then none else some ⟨true, s.nApplyCount + 1⟩
  else some s

namespace HashTable

/-- The comparison of two keys in the ordered case (zend_hash.c:1518-1537). -/
def keyDiff (ht1 ht2 : HashTable α) (p1 p2 : Addr) : Int32 :=
  if (ht1.mem p1).nKeyLength = 0 ∧ (ht2.mem p2).nKeyLength = 0 then
    ulongDiff (ht1.mem p1).h (ht2.mem p2).h
  else
    let result := uintDiff (ht1.mem p1).nKeyLength (ht2.mem p2).nKeyLength
    if result ≠ 0 then result else memcmp (ht1.keyBytes p1) (ht2.keyBytes p2)

/-- The lookup of the key of `p1` in the unordered case (zend_hash.c:1540-1552). -/
def findOther (ht1 ht2 : HashTable α) (p1 : Addr) : Option α :=
  if (ht1.mem p1).nKeyLength = 0 then ht2.zendHashIndexFind (ht1.mem p1).h
  else ht2.zendHashQuickFind (ht1.keyArg p1) (ht1.mem p1).h

/-- The loop of `zend_hash_compare` (zend_hash.c:1510-1563). -/
def compareLoop (ht1 ht2 : HashTable α) (compar : α → α → Int32) (ordered : Bool) :
    ℕ → Option Addr → Option Addr → Int32
  | 0, _, _ => 0
  | _ + 1, none, _ => 0
  | fuel + 1, some p1, p2 =>
      if ordered then
        match p2 with
        | none => 1
        | some p2 =>
            let result := ht1.keyDiff ht2 p1 p2
            if result ≠ 0 then result
            else
              let result := compar (ht1.mem p1).pData (ht2.mem p2).pData
              if result ≠ 0 then result
              else compareLoop ht1 ht2 compar ordered fuel (ht1.mem p1).pListNext
                (ht2.mem p2).pListNext
      else
        match ht1.findOther ht2 p1 with
        | none => 1
        | some pData2 =>
            let result := compar (ht1.mem p1).pData pData2
            if result ≠ 0 then result
            else compareLoop ht1 ht2 compar ordered fuel (ht1.mem p1).pListNext p2

/-- `zend_hash_compare` (zend_hash.c:1484-1567), `none` being the fatal error of the
recursion limit. Every return sets the two counters back, so they are arguments only;
`s2` is what `HASH_PROTECT_RECURSION(ht2)` finds. -/
def zendHashCompare (ht1 ht2 : HashTable α) (s1 s2 : Protection) (compar : α → α → Int32)
    (ordered : Bool) : Option Int32 :=
  match s1.protect, s2.protect with
  | some _, some _ =>
      let result := uintDiff ht1.nNumOfElements ht2.nNumOfElements
      if result ≠ 0 then some result
      else some (compareLoop ht1 ht2 compar ordered ht1.loopBound ht1.pListHead
        (if ordered then ht2.pListHead else none))
  | _, _ => none

end HashTable

/-! ## The differences -/

theorem toInt32_eq_zero_iff {x : UInt32} : x.toInt32 = 0 ↔ x.toNat = 0 := by
  constructor
  · intro h
    have hx := congrArg Int32.toUInt32 h
    rw [UInt32.toUInt32_toInt32] at hx
    rw [hx]
    rfl
  · intro h
    have hx : x = 0 := UInt32.toNat_inj.mp h
    rw [hx]
    rfl

theorem uintDiff_eq_zero_iff {m n : ℕ} (hm : m < 4294967296) (hn : n < 4294967296) :
    uintDiff m n = 0 ↔ m = n := by
  have hm' : (UInt32.ofNat m).toNat = m := UInt32.toNat_ofNat_of_lt' hm
  have hn' : (UInt32.ofNat n).toNat = n := UInt32.toNat_ofNat_of_lt' hn
  rw [uintDiff, toInt32_eq_zero_iff, UInt32.toNat_sub, hm', hn']
  omega

theorem ulongDiff_eq_zero_iff {h h' : UInt64} :
    ulongDiff h h' = 0 ↔ h.toNat % 4294967296 = h'.toNat % 4294967296 := by
  have hlt := h.toNat_lt
  have hlt' := h'.toNat_lt
  rw [ulongDiff, toInt32_eq_zero_iff, UInt64.toNat_toUInt32, UInt64.toNat_sub]
  omega

theorem memcmp_eq_zero_iff {s t : List UInt8} (hlen : s.length = t.length) :
    memcmp s t = 0 ↔ s = t := by
  induction s generalizing t with
  | nil =>
    cases t with
    | nil => simp [memcmp]
    | cons b t => simp at hlen
  | cons a s ih =>
    cases t with
    | nil => simp at hlen
    | cons b t =>
      rw [List.length_cons, List.length_cons, Nat.add_right_cancel_iff] at hlen
      by_cases hab : a = b
      · simp [memcmp, hab, ih hlen]
      · have hne : memcmp (a :: s) (b :: t) ≠ 0 := by
          rw [memcmp, if_neg hab]
          split <;> decide
        simp [hne, hab]

/-! ## The ordered comparison -/

/-- What the comparison reads is in order: the list, the counter and the key words. -/
structure Listed (ht : HashTable α) (l : List Addr) : Prop where
  list : ListOk ht l
  live : ht.live = l.toFinset
  count : ht.nNumOfElements = l.length
  keys : ∀ a ∈ l, KeyOk ht a
  room : l.length < 4294967296
  short : ∀ a ∈ l, (ht.mem a).nKeyLength < 4294967296

/-- The keys that the comparison takes for equal. -/
def KeysAgree : Key → Key → Prop
  | .int h, .int h' => h.toNat % 4294967296 = h'.toNat % 4294967296
  | .str s, .str t => s = t
  | _, _ => False

theorem Listed.keyDiff_eq_zero_iff (h1 : Listed ht1 l1) (h2 : Listed ht2 l2) (ha : a ∈ l1)
    (hb : b ∈ l2) : ht1.keyDiff ht2 a b = 0 ↔ KeysAgree (ht1.keyOf a) (ht2.keyOf b) := by
  have hlen := uintDiff_eq_zero_iff (h1.short a ha) (h2.short b hb)
  unfold HashTable.keyDiff
  by_cases ha0 : (ht1.mem a).nKeyLength = 0
  · have hka : ht1.keyOf a = .int (ht1.mem a).h := keyOf_eq_int_iff.mpr ⟨ha0, rfl⟩
    by_cases hb0 : (ht2.mem b).nKeyLength = 0
    · have hkb : ht2.keyOf b = .int (ht2.mem b).h := keyOf_eq_int_iff.mpr ⟨hb0, rfl⟩
      rw [if_pos ⟨ha0, hb0⟩, hka, hkb, ulongDiff_eq_zero_iff]
      rfl
    · have hkb : ht2.keyOf b = .str (ht2.keyBytes b) := keyOf_eq_str_iff.mpr ⟨hb0, rfl⟩
      have hne : uintDiff (ht1.mem a).nKeyLength (ht2.mem b).nKeyLength ≠ 0 := fun hz =>
        hb0 ((hlen.mp hz).symm.trans ha0)
      rw [if_neg fun h => hb0 h.2, hka, hkb]
      simp [hne, KeysAgree]
  · have hka : ht1.keyOf a = .str (ht1.keyBytes a) := keyOf_eq_str_iff.mpr ⟨ha0, rfl⟩
    rw [if_neg fun h => ha0 h.1, hka]
    by_cases hl : (ht1.mem a).nKeyLength = (ht2.mem b).nKeyLength
    · have hb0 : (ht2.mem b).nKeyLength ≠ 0 := hl ▸ ha0
      have hkb : ht2.keyOf b = .str (ht2.keyBytes b) := keyOf_eq_str_iff.mpr ⟨hb0, rfl⟩
      have hbytes : (ht1.keyBytes a).length = (ht2.keyBytes b).length := by
        rw [← (h1.keys a ha).length ha0, ← (h2.keys b hb).length hb0, hl]
      simp [hlen.mpr hl, hkb, KeysAgree, memcmp_eq_zero_iff hbytes]
    · have hne : uintDiff (ht1.mem a).nKeyLength (ht2.mem b).nKeyLength ≠ 0 := fun hz =>
        hl (hlen.mp hz)
      simp only [hne, ne_eq, not_false_eq_true, if_true, false_iff]
      intro hagree
      cases hkb : ht2.keyOf b with
      | int n =>
        rw [hkb] at hagree
        exact hagree
      | str t =>
        rw [hkb] at hagree
        obtain ⟨hb0, hbt⟩ := keyOf_eq_str_iff.mp hkb
        have heq : ht1.keyBytes a = t := hagree
        exact hl (by rw [(h1.keys a ha).length ha0, (h2.keys b hb).length hb0, heq, hbt])

/-- Two buckets that the comparison takes for equal. -/
def BucketsAgree (ht1 ht2 : HashTable α) (veq : α → α → Prop) (a b : Addr) : Prop :=
  KeysAgree (ht1.keyOf a) (ht2.keyOf b) ∧ veq (ht1.mem a).pData (ht2.mem b).pData

theorem compareLoop_eq_zero_iff (h1 : Listed ht1 l1) (h2 : Listed ht2 l2)
    (hveq : ∀ v w, compar v w = 0 ↔ veq v w) {s t : List Addr} (fuel : ℕ)
    {pre1 pre2 : Option Addr} (hs : Seg ht1.listNext ht1.listLast pre1 s none)
    (ht : Seg ht2.listNext ht2.listLast pre2 t none) (hsub1 : ∀ a ∈ s, a ∈ l1)
    (hsub2 : ∀ b ∈ t, b ∈ l2) (hlen : s.length = t.length) (hf : s.length < fuel) :
    HashTable.compareLoop ht1 ht2 compar true fuel s.head? t.head? = 0 ↔
      List.Forall₂ (BucketsAgree ht1 ht2 veq) s t := by
  induction s generalizing t fuel pre1 pre2 with
  | nil =>
    obtain ⟨fuel, rfl⟩ : ∃ n, fuel = n + 1 := ⟨fuel - 1, by simp at hf; omega⟩
    obtain rfl : t = [] := List.length_eq_zero_iff.mp hlen.symm
    simp [HashTable.compareLoop]
  | cons a s ih =>
    obtain ⟨fuel, rfl⟩ : ∃ n, fuel = n + 1 := ⟨fuel - 1, by simp at hf; omega⟩
    obtain ⟨b, t, rfl⟩ : ∃ b t', t = b :: t' := by
      cases t with
      | nil => simp at hlen
      | cons b t => exact ⟨b, t, rfl⟩
    obtain ⟨-, hn1, hs⟩ := hs
    obtain ⟨-, hn2, ht⟩ := ht
    have hn1' : (ht1.mem a).pListNext = s.head? := by simpa [HashTable.listNext] using hn1
    have hn2' : (ht2.mem b).pListNext = t.head? := by simpa [HashTable.listNext] using hn2
    have hrec := ih fuel hs ht (fun x hx => hsub1 x (by simp [hx]))
      (fun x hx => hsub2 x (by simp [hx])) (by simpa using hlen) (by simpa using hf)
    have hkey := h1.keyDiff_eq_zero_iff h2 (hsub1 a (by simp)) (hsub2 b (by simp))
    rw [List.forall₂_cons, ← hrec, BucketsAgree, ← hkey, ← hveq]
    simp only [List.head?_cons, HashTable.compareLoop, if_true, hn1', hn2']
    by_cases hk : ht1.keyDiff ht2 a b = 0
    · by_cases hv : compar (ht1.mem a).pData (ht2.mem b).pData = 0
      · simp [hk, hv]
      · simp [hk, hv]
    · simp [hk]

/-- Two lists of pairs with the same keys and equal values, position by position. -/
def SameEntries (veq : α → α → Prop) (es1 es2 : List (Key × α)) : Prop :=
  List.Forall₂ (fun e e' => e.1 = e'.1 ∧ veq e.2 e'.2) es1 es2

/-- Two lists of pairs that differ, but in integer keys alone, and in each of these by a
multiple of `2^32`. -/
def WrapsApart (veq : α → α → Prop) (es1 es2 : List (Key × α)) : Prop :=
  List.Forall₂ (fun e e' => KeysAgree e.1 e'.1 ∧ veq e.2 e'.2) es1 es2 ∧
    ∃ e ∈ es1.zip es2, e.1.1 ≠ e.2.1

theorem KeysAgree.refl (k : Key) : KeysAgree k k := by
  cases k <;> simp [KeysAgree]

theorem sameEntries_iff {es1 es2 : List (Key × α)} :
    (List.Forall₂ (fun e e' => KeysAgree e.1 e'.1 ∧ veq e.2 e'.2) es1 es2 ↔
      SameEntries veq es1 es2) ↔ ¬ WrapsApart veq es1 es2 := by
  have hto : SameEntries veq es1 es2 →
      List.Forall₂ (fun e e' => KeysAgree e.1 e'.1 ∧ veq e.2 e'.2) es1 es2 := fun h =>
    List.Forall₂.imp (fun e e' he => ⟨he.1 ▸ KeysAgree.refl _, he.2⟩) h
  constructor
  · rintro hiff ⟨hagree, e, he, hne⟩
    obtain ⟨e, e'⟩ := e
    exact hne ((List.forall₂_iff_zip.mp (hiff.mp hagree)).2 he).1
  · intro hw
    refine ⟨fun hagree => ?_, hto⟩
    refine List.forall₂_iff_zip.mpr ⟨hagree.length_eq, fun {e e'} he => ?_⟩
    refine ⟨?_, ((List.forall₂_iff_zip.mp hagree).2 he).2⟩
    by_contra hne
    exact hw ⟨hagree, (e, e'), he, hne⟩

theorem Listed.toMap_eq (h : Listed ht l) : ht.toMap = ht.entries l := by
  have hbound : l.length < ht.loopBound := by
    rw [HashTable.loopBound, h.live, List.toFinset_card_of_nodup h.list.nodup]
    omega
  rw [HashTable.toMap, HashTable.buckets, h.list.head, collect_spec _ h.list.seg hbound]

theorem Listed.zendHashCompare_eq_zero_iff (h1 : Listed ht1 l1) (h2 : Listed ht2 l2)
    {s1 s2 : Protection} (hs1 : s1.protect ≠ none) (hs2 : s2.protect ≠ none)
    (hveq : ∀ v w, compar v w = 0 ↔ veq v w) :
    ht1.zendHashCompare ht2 s1 s2 compar true = some 0 ↔
      List.Forall₂ (fun e e' => KeysAgree e.1 e'.1 ∧ veq e.2 e'.2) ht1.toMap ht2.toMap := by
  obtain ⟨r1, hr1⟩ := Option.ne_none_iff_exists'.mp hs1
  obtain ⟨r2, hr2⟩ := Option.ne_none_iff_exists'.mp hs2
  have hcount : uintDiff ht1.nNumOfElements ht2.nNumOfElements = 0 ↔ l1.length = l2.length := by
    rw [h1.count, h2.count]
    exact uintDiff_eq_zero_iff h1.room h2.room
  have hbound : l1.length < ht1.loopBound := by
    rw [HashTable.loopBound, h1.live, List.toFinset_card_of_nodup h1.list.nodup]
    omega
  rw [h1.toMap_eq, h2.toMap_eq, HashTable.entries, HashTable.entries, List.forall₂_map_left_iff,
    List.forall₂_map_right_iff, HashTable.zendHashCompare, hr1, hr2]
  by_cases hlen : l1.length = l2.length
  · have hloop := compareLoop_eq_zero_iff h1 h2 hveq ht1.loopBound h1.list.seg h2.list.seg
      (fun _ ha => ha) (fun _ hb => hb) hlen hbound
    simp only [hcount.mpr hlen, ne_eq, not_true_eq_false, if_false, if_true, h1.list.head,
      h2.list.head, Option.some.injEq]
    exact hloop
  · have hne : uintDiff ht1.nNumOfElements ht2.nNumOfElements ≠ 0 := fun hz => hlen (hcount.mp hz)
    simp only [ne_eq, hne, not_false_eq_true, if_true, Option.some.injEq, false_iff]
    exact fun hall => hlen hall.length_eq

/-- **The ordered comparison decides equality of the two lists of pairs, unless these wrap
apart**: then it returns 0 although the keys differ. -/
theorem zendHashCompare_ordered_iff (h1 : Listed ht1 ht1.buckets) (h2 : Listed ht2 ht2.buckets)
    {s1 s2 : Protection} (hs1 : s1.protect ≠ none) (hs2 : s2.protect ≠ none)
    (hveq : ∀ v w, compar v w = 0 ↔ veq v w) :
    (ht1.zendHashCompare ht2 s1 s2 compar true = some 0 ↔
      SameEntries veq ht1.toMap ht2.toMap) ↔ ¬ WrapsApart veq ht1.toMap ht2.toMap := by
  rw [h1.zendHashCompare_eq_zero_iff h2 hs1 hs2 hveq]
  exact sameEntries_iff

theorem Inv.listed (h : Inv ht l) (hroom : ht.nNumOfElements < 4294967296)
    (hshort : ∀ a ∈ ht.buckets, (ht.mem a).nKeyLength < 4294967296) : Listed ht ht.buckets := by
  have hb := h.buckets_eq
  rw [h.count] at hroom
  exact ⟨hb ▸ h.list, hb ▸ h.live, hb ▸ h.count, hb ▸ h.keys, hb ▸ hroom, hshort⟩

/-- A table with the value 1 under one integer key. -/
def oneIndexTable (h : UInt64) : HashTable ℕ :=
  (Op.indexUpdateOrNextInsert bump h 1 .HASH_UPDATE).run (zendHashInit zeroMem 8)

theorem cleanRun_oneIndexTable (h : UInt64) : CleanRun (oneIndexTable h) := by
  have hroom : (zendHashInit zeroMem 8).nNumOfElements + 1 < 2 ^ 32 := by decide
  exact Run.step (Run.init zeroMem 8) _ trivial hroom (by simp [Op.source])

theorem listed_zero : Listed (oneIndexTable 0) (oneIndexTable 0).buckets := by
  obtain ⟨l, hl⟩ := (cleanRun_oneIndexTable 0).exists_inv
  exact hl.listed (by decide) (by decide)

theorem listed_wrap : Listed (oneIndexTable 4294967296) (oneIndexTable 4294967296).buckets := by
  obtain ⟨l, hl⟩ := (cleanRun_oneIndexTable 4294967296).exists_inv
  exact hl.listed (by decide) (by decide)

def compareNat (v w : ℕ) : Int32 := if v = w then 0 else 1

theorem compareNat_eq_zero_iff (v w : ℕ) : compareNat v w = 0 ↔ v = w := by
  unfold compareNat
  split <;> simp [*]

theorem zendHashCompare_ordered_zero :
    ((oneIndexTable 0).zendHashCompare (oneIndexTable 0) ⟨true, 0⟩ ⟨true, 1⟩ compareNat true =
      some 0 ↔ SameEntries (· = ·) (oneIndexTable 0).toMap (oneIndexTable 0).toMap) ↔
      ¬ WrapsApart (· = ·) (oneIndexTable 0).toMap (oneIndexTable 0).toMap :=
  zendHashCompare_ordered_iff listed_zero listed_zero (by decide) (by decide)
    compareNat_eq_zero_iff

/-- The key 0 and the key `2^32` are taken for equal. -/
theorem not_zendHashCompare_ordered : ¬ ∀ (ht1 ht2 : HashTable ℕ) (s1 s2 : Protection)
    (compar : ℕ → ℕ → Int32) (veq : ℕ → ℕ → Prop), Listed ht1 ht1.buckets →
    Listed ht2 ht2.buckets → s1.protect ≠ none → s2.protect ≠ none →
    (∀ v w, compar v w = 0 ↔ veq v w) →
    (ht1.zendHashCompare ht2 s1 s2 compar true = some 0 ↔
      SameEntries veq ht1.toMap ht2.toMap) := by
  intro hall
  have hiff := hall _ _ ⟨true, 0⟩ ⟨true, 0⟩ compareNat (· = ·) listed_zero listed_wrap
    (by decide) (by decide) compareNat_eq_zero_iff
  have hzero : (oneIndexTable 0).zendHashCompare (oneIndexTable 4294967296) ⟨true, 0⟩ ⟨true, 0⟩
      compareNat true = some 0 := by decide +kernel
  have hm1 : (oneIndexTable 0).toMap = [(.int 0, 1)] := by decide +kernel
  have hm2 : (oneIndexTable 4294967296).toMap = [(.int 4294967296, 1)] := by decide +kernel
  have hsame := hiff.mp hzero
  rw [hm1, hm2, SameEntries, List.forall₂_cons] at hsame
  exact absurd hsame.1.1 (by decide)

end PhpRuntime.Hash

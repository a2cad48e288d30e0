import PhpRuntime.Fastcgi.Environment
import Mathlib.Data.List.Nodup
import Mathlib.Data.List.Range

/-!
# The variables of a FastCGI request

A bucket of the hash table is found by its hash value and its name together. Names whose
hash value is the same wherever they stand are variables of the request: reading, setting
and deleting one does not touch another.
-/

set_option autoImplicit false

namespace PhpRuntime.Fastcgi

def FcgiHash.Used (h : FcgiHash) (p : ℕ) : Prop :=
  p < h.idx ∧ (h.bucket p).val.isSome = true

/-- A chain holds the buckets of its slot that are in use, no two buckets in use have both
the same hash value and the same name, and the list holds all buckets. -/
structure FcgiHash.WellFormed (h : FcgiHash) : Prop where
  chain : ∀ k p, p ∈ h.hash_table k ↔ h.Used p ∧ slot (h.bucket p).hash_value = k
  nodup : ∀ k, (h.hash_table k).Nodup
  distinct : ∀ p q, h.Used p → h.Used q → (h.bucket p).hash_value = (h.bucket q).hash_value →
    (h.bucket p).var = (h.bucket q).var → p = q
  list : h.list = (List.range h.idx).reverse

section Table

variable {h : FcgiHash} {hash_value hash' : ℕ} {var var' val : List UInt8} {p q : ℕ}

theorem has_iff :
    h.has hash_value var p = true ↔
      (h.bucket p).hash_value = hash_value ∧ (h.bucket p).var = var := by
  unfold FcgiHash.has
  rw [Bool.and_eq_true, beq_iff_eq, beq_iff_eq]

theorem FcgiHash.WellFormed.find_eq_some_iff (hw : h.WellFormed) :
    h.find hash_value var = some p ↔
      h.Used p ∧ (h.bucket p).hash_value = hash_value ∧ (h.bucket p).var = var := by
  constructor
  · intro hf
    have hmem := List.mem_of_find?_eq_some hf
    exact ⟨((hw.chain _ p).mp hmem).1, has_iff.mp (List.find?_some hf)⟩
  · rintro ⟨hu, hh, hv⟩
    have hmem : p ∈ h.hash_table (slot hash_value) := by
      apply (hw.chain _ p).mpr
      rw [hh]
      exact ⟨hu, rfl⟩
    cases hf : h.find hash_value var with
    | none =>
      have hnone := List.find?_eq_none.mp hf p hmem
      exact absurd (has_iff.mpr ⟨hh, hv⟩) hnone
    | some q =>
      obtain ⟨hq1, hq2⟩ := has_iff.mp (List.find?_some hf)
      have hq := ((hw.chain _ q).mp (List.mem_of_find?_eq_some hf)).1
      rw [hw.distinct p q hu hq (hh.trans hq1.symm) (hv.trans hq2.symm)]

theorem FcgiHash.WellFormed.get_eq_some_iff (hw : h.WellFormed) :
    fcgi_hash_get h hash_value var = some val ↔
      ∃ p < h.idx, h.bucket p = ⟨hash_value, var, some val⟩ := by
  unfold fcgi_hash_get
  rw [Option.bind_eq_some_iff]
  constructor
  · rintro ⟨p, hf, hval⟩
    obtain ⟨hu, hh, hv⟩ := hw.find_eq_some_iff.mp hf
    refine ⟨p, hu.1, ?_⟩
    rw [← hh, ← hv, ← hval]
  · rintro ⟨p, hlt, hb⟩
    refine ⟨p, hw.find_eq_some_iff.mpr ⟨⟨hlt, ?_⟩, ?_, ?_⟩, ?_⟩
    · rw [hb]
      rfl
    · rw [hb]
    · rw [hb]
    · rw [hb]

theorem fcgi_hash_clean_wellFormed (h : FcgiHash) : (fcgi_hash_clean h).WellFormed where
  chain k p := by
    constructor
    · intro hp
      cases hp
    · rintro ⟨⟨hp, -⟩, -⟩
      exact absurd hp (Nat.not_lt_zero p)
  nodup _ := List.nodup_nil
  distinct p _ hp := absurd hp.1 (Nat.not_lt_zero p)
  list := rfl

@[simp] theorem assign_bucket_self {v : Option (List UInt8)} :
    (h.assign p v).bucket p = ⟨(h.bucket p).hash_value, (h.bucket p).var, v⟩ :=
  Function.update_self ..

theorem assign_bucket_of_ne {v : Option (List UInt8)} (hq : q ≠ p) :
    (h.assign p v).bucket q = h.bucket q :=
  Function.update_of_ne hq ..

theorem assign_hash_value {v : Option (List UInt8)} :
    ((h.assign p v).bucket q).hash_value = (h.bucket q).hash_value := by
  by_cases hq : q = p
  · subst hq
    rw [assign_bucket_self]
  · rw [assign_bucket_of_ne hq]

theorem assign_var {v : Option (List UInt8)} :
    ((h.assign p v).bucket q).var = (h.bucket q).var := by
  by_cases hq : q = p
  · subst hq
    rw [assign_bucket_self]
  · rw [assign_bucket_of_ne hq]

theorem assign_used (hu : h.Used p) : (h.assign p (some val)).Used q ↔ h.Used q := by
  unfold FcgiHash.Used
  by_cases hq : q = p
  · subst hq
    rw [assign_bucket_self]
    exact ⟨fun _ => hu, fun _ => ⟨hu.1, rfl⟩⟩
  · rw [assign_bucket_of_ne hq]
    rfl

theorem FcgiHash.WellFormed.assign (hw : h.WellFormed) (hu : h.Used p) :
    (h.assign p (some val)).WellFormed where
  chain k q := by
    rw [assign_used hu, assign_hash_value]
    exact hw.chain k q
  nodup := hw.nodup
  distinct q r hq hr e1 e2 := by
    rw [assign_hash_value, assign_hash_value] at e1
    rw [assign_var, assign_var] at e2
    exact hw.distinct q r ((assign_used hu).mp hq) ((assign_used hu).mp hr) e1 e2
  list := hw.list

theorem add_bucket_self : (h.add hash_value var val).bucket h.idx = ⟨hash_value, var, some val⟩ :=
  Function.update_self ..

theorem add_bucket_of_ne (hq : q ≠ h.idx) : (h.add hash_value var val).bucket q = h.bucket q :=
  Function.update_of_ne hq ..

theorem add_used : (h.add hash_value var val).Used q ↔ q = h.idx ∨ h.Used q := by
  unfold FcgiHash.Used
  by_cases hq : q = h.idx
  · subst hq
    rw [add_bucket_self]
    exact ⟨fun _ => Or.inl rfl, fun _ => ⟨Nat.lt_succ_self _, rfl⟩⟩
  · rw [add_bucket_of_ne hq]
    have hlt : q < (h.add hash_value var val).idx ↔ q < h.idx := by
      show q < h.idx + 1 ↔ q < h.idx
      omega
    rw [hlt]
    exact ⟨Or.inr, fun e => e.resolve_left hq⟩

theorem FcgiHash.WellFormed.add (hw : h.WellFormed) (hn : h.find hash_value var = none) :
    (h.add hash_value var val).WellFormed := by
  have hfresh : ∀ k, h.idx ∉ h.hash_table k := by
    intro k hmem
    exact Nat.lt_irrefl _ ((hw.chain k h.idx).mp hmem).1.1
  have hne : ∀ q, h.Used q → q ≠ h.idx := fun q hq => Nat.ne_of_lt hq.1
  have hnew : ∀ q, h.Used q → (h.bucket q).hash_value = hash_value → (h.bucket q).var ≠ var := by
    intro q hq h1 h2
    have hsome := hw.find_eq_some_iff.mpr ⟨hq, h1, h2⟩
    rw [hn] at hsome
    cases hsome
  constructor
  · intro k q
    have hchain : q ∈ (h.add hash_value var val).hash_table k ↔
        (k = slot hash_value ∧ q = h.idx) ∨ q ∈ h.hash_table k := by
      show q ∈ Function.update h.hash_table (slot hash_value)
        (h.idx :: h.hash_table (slot hash_value)) k ↔ _
      by_cases hk : k = slot hash_value
      · subst hk
        rw [Function.update_self, List.mem_cons]
        simp
      · rw [Function.update_of_ne hk]
        simp [hk]
    rw [hchain, add_used]
    by_cases hq : q = h.idx
    · subst hq
      rw [add_bucket_self]
      constructor
      · rintro (⟨hk, -⟩ | hmem)
        · exact ⟨Or.inl rfl, hk.symm⟩
        · exact absurd hmem (hfresh k)
      · rintro ⟨-, hk⟩
        exact Or.inl ⟨hk.symm, rfl⟩
    · rw [add_bucket_of_ne hq, hw.chain k q]
      simp [hq]
  · intro k
    show (Function.update h.hash_table (slot hash_value)
      (h.idx :: h.hash_table (slot hash_value)) k).Nodup
    by_cases hk : k = slot hash_value
    · subst hk
      rw [Function.update_self]
      exact List.nodup_cons.mpr ⟨hfresh _, hw.nodup _⟩
    · rw [Function.update_of_ne hk]
      exact hw.nodup k
  · intro q r hq hr e1 e2
    cases add_used.mp hq with
    | inl hq1 =>
      cases add_used.mp hr with
      | inl hr1 => rw [hq1, hr1]
      | inr hr1 =>
        rw [hq1, add_bucket_self, add_bucket_of_ne (hne r hr1)] at e1 e2
        exact absurd e2.symm (hnew r hr1 e1.symm)
    | inr hq1 =>
      cases add_used.mp hr with
      | inl hr1 =>
        rw [hr1, add_bucket_self, add_bucket_of_ne (hne q hq1)] at e1 e2
        exact absurd e2 (hnew q hq1 e1)
      | inr hr1 =>
        rw [add_bucket_of_ne (hne q hq1), add_bucket_of_ne (hne r hr1)] at e1 e2
        exact hw.distinct q r hq1 hr1 e1 e2
  · show h.idx :: h.list = (List.range (h.idx + 1)).reverse
    rw [List.range_succ, List.reverse_append, hw.list]
    rfl

theorem fcgi_hash_set_wellFormed (hw : h.WellFormed) (hash_value : ℕ) (var val : List UInt8) :
    (fcgi_hash_set h hash_value var val).WellFormed := by
  unfold fcgi_hash_set
  cases hf : h.find hash_value var with
  | none => exact hw.add hf
  | some p => exact hw.assign (hw.find_eq_some_iff.mp hf).1

theorem get_set (hw : h.WellFormed) (hash_value hash' : ℕ) (var var' val : List UInt8) :
    fcgi_hash_get (fcgi_hash_set h hash_value var val) hash' var' =
      if hash' = hash_value ∧ var' = var then some val else fcgi_hash_get h hash' var' := by
  have hw' := fcgi_hash_set_wellFormed hw hash_value var val
  have hself : fcgi_hash_get (fcgi_hash_set h hash_value var val) hash_value var = some val := by
    apply hw'.get_eq_some_iff.mpr
    unfold fcgi_hash_set
    cases hf : h.find hash_value var with
    | none => exact ⟨h.idx, Nat.lt_succ_self _, add_bucket_self⟩
    | some p =>
      obtain ⟨hu, hh, hv⟩ := hw.find_eq_some_iff.mp hf
      refine ⟨p, hu.1, ?_⟩
      dsimp only
      rw [assign_bucket_self, hh, hv]
  by_cases hkey : hash' = hash_value ∧ var' = var
  · rw [if_pos hkey, hkey.1, hkey.2]
    exact hself
  · rw [if_neg hkey]
    apply Option.ext
    intro v
    rw [hw'.get_eq_some_iff, hw.get_eq_some_iff]
    have hother : ∀ q, q < h.idx → (h.bucket q = ⟨hash', var', some v⟩ ↔
        (fcgi_hash_set h hash_value var val).bucket q = ⟨hash', var', some v⟩) := by
      intro q hq
      unfold fcgi_hash_set
      cases hf : h.find hash_value var with
      | none =>
        dsimp only
        rw [add_bucket_of_ne (Nat.ne_of_lt hq)]
      | some p =>
        obtain ⟨-, hh, hv⟩ := hw.find_eq_some_iff.mp hf
        dsimp only
        by_cases e : q = p
        · subst e
          rw [assign_bucket_self]
          constructor
          · intro hb
            rw [hb] at hh hv
            exact absurd ⟨hh, hv⟩ hkey
          · intro hb
            rw [hh, hv, FcgiBucket.mk.injEq] at hb
            exact absurd ⟨hb.1.symm, hb.2.1.symm⟩ hkey
        · rw [assign_bucket_of_ne e]
    constructor
    · rintro ⟨q, hq, hb⟩
      have hlt : q < h.idx := by
        by_contra hge
        unfold fcgi_hash_set at hq hb
        cases hf : h.find hash_value var with
        | none =>
          rw [hf] at hq hb
          have hlast : q = h.idx := Nat.le_antisymm (Nat.le_of_lt_succ hq) (Nat.not_lt.mp hge)
          rw [hlast] at hb
          dsimp only at hb
          rw [add_bucket_self, FcgiBucket.mk.injEq] at hb
          exact hkey ⟨hb.1.symm, hb.2.1.symm⟩
        | some p =>
          rw [hf] at hq
          exact hge hq
      exact ⟨q, hlt, (hother q hlt).mpr hb⟩
    · rintro ⟨q, hq, hb⟩
      refine ⟨q, ?_, (hother q hq).mp hb⟩
      unfold fcgi_hash_set
      cases h.find hash_value var with
      | none => exact Nat.lt_succ_of_lt hq
      | some p => exact hq

theorem drop_used : (h.drop hash_value p).Used q ↔ q ≠ p ∧ h.Used q := by
  have hb : (h.drop hash_value p).bucket = (h.assign p none).bucket := rfl
  unfold FcgiHash.Used
  rw [hb]
  by_cases hq : q = p
  · subst hq
    rw [assign_bucket_self]
    simp
  · rw [assign_bucket_of_ne hq]
    exact ⟨fun e => ⟨hq, e⟩, fun e => e.2⟩

theorem FcgiHash.WellFormed.drop (hw : h.WellFormed) (hp : (h.bucket p).hash_value = hash_value) :
    (h.drop hash_value p).WellFormed where
  chain k q := by
    have hh : ((h.drop hash_value p).bucket q).hash_value = (h.bucket q).hash_value :=
      assign_hash_value
    rw [drop_used, hh]
    show q ∈ Function.update h.hash_table (slot hash_value)
      ((h.hash_table (slot hash_value)).erase p) k ↔ _
    by_cases hk : k = slot hash_value
    · subst hk
      rw [Function.update_self, (hw.nodup _).mem_erase_iff, hw.chain, and_assoc]
    · rw [Function.update_of_ne hk, hw.chain]
      constructor
      · rintro ⟨hu, he⟩
        refine ⟨⟨?_, hu⟩, he⟩
        intro e
        rw [e, hp] at he
        exact hk he.symm
      · rintro ⟨⟨-, hu⟩, he⟩
        exact ⟨hu, he⟩
  nodup k := by
    show (Function.update h.hash_table (slot hash_value)
      ((h.hash_table (slot hash_value)).erase p) k).Nodup
    by_cases hk : k = slot hash_value
    · subst hk
      rw [Function.update_self]
      exact (hw.nodup _).erase p
    · rw [Function.update_of_ne hk]
      exact hw.nodup k
  distinct q r hq hr e1 e2 := by
    have h1 : ∀ x, ((h.drop hash_value p).bucket x).hash_value = (h.bucket x).hash_value :=
      fun _ => assign_hash_value
    have h2 : ∀ x, ((h.drop hash_value p).bucket x).var = (h.bucket x).var := fun _ => assign_var
    rw [h1, h1] at e1
    rw [h2, h2] at e2
    exact hw.distinct q r (drop_used.mp hq).2 (drop_used.mp hr).2 e1 e2
  list := hw.list

theorem fcgi_hash_del_wellFormed (hw : h.WellFormed) (hash_value : ℕ) (var : List UInt8) :
    (fcgi_hash_del h hash_value var).WellFormed := by
  unfold fcgi_hash_del
  cases hf : h.find hash_value var with
  | none => exact hw
  | some p => exact hw.drop (hw.find_eq_some_iff.mp hf).2.1

theorem get_del (hw : h.WellFormed) (hash_value hash' : ℕ) (var var' : List UInt8) :
    fcgi_hash_get (fcgi_hash_del h hash_value var) hash' var' =
      if hash' = hash_value ∧ var' = var then none else fcgi_hash_get h hash' var' := by
  have hw' := fcgi_hash_del_wellFormed hw hash_value var
  apply Option.ext
  intro v
  cases hf : h.find hash_value var with
  | none =>
    have hd : fcgi_hash_del h hash_value var = h := by
      unfold fcgi_hash_del
      rw [hf]
    rw [hd]
    by_cases hkey : hash' = hash_value ∧ var' = var
    · rw [if_pos hkey, hkey.1, hkey.2]
      unfold fcgi_hash_get
      rw [hf]
      rfl
    · rw [if_neg hkey]
  | some p =>
    obtain ⟨hu, hh, hv⟩ := hw.find_eq_some_iff.mp hf
    have hd : fcgi_hash_del h hash_value var = h.drop hash_value p := by
      unfold fcgi_hash_del
      rw [hf]
    have hb : ∀ q, q ≠ p → (h.drop hash_value p).bucket q = h.bucket q :=
      fun q hq => assign_bucket_of_ne hq
    have hbp : (h.drop hash_value p).bucket p =
        ⟨(h.bucket p).hash_value, (h.bucket p).var, none⟩ :=
      assign_bucket_self
    rw [hd] at hw' ⊢
    rw [hw'.get_eq_some_iff]
    by_cases hkey : hash' = hash_value ∧ var' = var
    · rw [if_pos hkey]
      constructor
      · rintro ⟨q, hq, e⟩
        have hqp : q ≠ p := by
          intro e'
          rw [e', hbp, FcgiBucket.mk.injEq] at e
          cases e.2.2
        rw [hb q hqp] at e
        have hqu : h.Used q := by
          refine ⟨hq, ?_⟩
          rw [e]
          rfl
        apply absurd _ hqp
        apply hw.distinct q p hqu hu
        · rw [e, hh]
          exact hkey.1
        · rw [e, hv]
          exact hkey.2
      · intro e
        cases e
    · rw [if_neg hkey, hw.get_eq_some_iff]
      constructor
      · rintro ⟨q, hq, e⟩
        have hqp : q ≠ p := by
          intro e'
          rw [e', hbp, FcgiBucket.mk.injEq] at e
          cases e.2.2
        rw [hb q hqp] at e
        exact ⟨q, hq, e⟩
      · rintro ⟨q, hq, e⟩
        have hqp : q ≠ p := by
          intro e'
          rw [e'] at e
          rw [e] at hh hv
          exact hkey ⟨hh, hv⟩
        refine ⟨q, hq, ?_⟩
        rw [hb q hqp]
        exact e

end Table

end PhpRuntime.Fastcgi

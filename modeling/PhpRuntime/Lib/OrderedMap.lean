import Mathlib.Data.List.Basic
import Mathlib.Data.List.Nodup

/-!
# Insertion-ordered maps

A map with an iteration order is its list of pairs, keys pairwise distinct. Storing
under a present key replaces the value where it stands, storing under an absent key
appends; erasing keeps the order of the rest.
-/

set_option autoImplicit false

namespace PhpRuntime.Lib.OrderedMap

variable {K V : Type*} [DecidableEq K]

def keys (m : List (K × V)) : List K := m.map Prod.fst

def lookup (m : List (K × V)) (k : K) : Option V :=
  (m.find? fun e => e.1 = k).map Prod.snd

def replace (m : List (K × V)) (k : K) (v : V) : List (K × V) :=
  m.map fun e => if e.1 = k then (e.1, v) else e

/-- Store: in place under a present key, at the end under an absent one. -/
def set (m : List (K × V)) (k : K) (v : V) : List (K × V) :=
  if k ∈ keys m then replace m k v else m ++ [(k, v)]

def add (m : List (K × V)) (k : K) (v : V) : List (K × V) :=
  if k ∈ keys m then m else m ++ [(k, v)]

def erase (m : List (K × V)) (k : K) : List (K × V) := m.filter fun e => e.1 ≠ k

/-- Put another key in the place of a present one. -/
def rename (m : List (K × V)) (k k' : K) : List (K × V) :=
  m.map fun e => if e.1 = k then (k', e.2) else e

/-- Store every pair of `s`: the values of common keys are replaced where they stand, the
other pairs follow in their order. -/
def overlay (m s : List (K × V)) : List (K × V) :=
  (m.map fun e => (e.1, (lookup s e.1).getD e.2)) ++ s.filter fun e => e.1 ∉ keys m

/-- Store the pairs of `s` that have new keys. -/
def extend (m s : List (K × V)) : List (K × V) := m ++ s.filter fun e => e.1 ∉ keys m

variable {m s : List (K × V)} {k k' : K} {v : V}

theorem set_of_mem (h : k ∈ keys m) : set m k v = replace m k v := if_pos h

theorem set_of_notMem (h : k ∉ keys m) : set m k v = m ++ [(k, v)] := if_neg h

theorem add_of_mem (h : k ∈ keys m) : add m k v = m := if_pos h

theorem add_of_notMem (h : k ∉ keys m) : add m k v = m ++ [(k, v)] := if_neg h

theorem rename_of_notMem (h : k ∉ keys m) : rename m k k' = m := by
  refine List.map_congr_left (g := id) (fun e he => ?_) |>.trans (List.map_id m)
  exact if_neg fun hek : e.1 = k => h (hek ▸ List.mem_map_of_mem he)

theorem erase_of_notMem (h : k ∉ keys m) : erase m k = m :=
  List.filter_eq_self.mpr fun e he => decide_eq_true fun hek : e.1 = k =>
    h (hek ▸ List.mem_map_of_mem he)

theorem replace_of_notMem (h : k ∉ keys m) : replace m k v = m := by
  refine List.map_congr_left (g := id) (fun e he => ?_) |>.trans (List.map_id m)
  exact if_neg fun hek : e.1 = k => h (hek ▸ List.mem_map_of_mem he)

theorem replace_set (w : V) : replace (set m k v) k w = set m k w := by
  by_cases h : k ∈ keys m
  · rw [set_of_mem h, set_of_mem h, replace, replace, List.map_map]
    refine List.map_congr_left fun e _ => ?_
    by_cases he : e.1 = k <;> simp [he]
  · have happ : replace (m ++ [(k, v)]) k w = replace m k w ++ [(k, w)] := by simp [replace]
    rw [set_of_notMem h, set_of_notMem h, happ, replace_of_notMem h]

theorem length_set_le : (set m k v).length ≤ m.length + 1 := by
  unfold set replace
  split <;> simp

theorem lookup_eq_some_iff (hm : (keys m).Nodup) : lookup m k = some v ↔ (k, v) ∈ m := by
  induction m with
  | nil => simp [lookup]
  | cons e m ih =>
    obtain ⟨k', v'⟩ := e
    have hm' := List.nodup_cons.mp hm
    by_cases h : k' = k
    · subst h
      have : ∀ v, (k', v) ∉ m := fun v hv => hm'.1 (List.mem_map.mpr ⟨_, hv, rfl⟩)
      simp [lookup, this, eq_comm]
    · have : lookup ((k', v') :: m) k = lookup m k := by simp [lookup, h]
      rw [this, ih hm'.2]
      simp [Ne.symm h]

theorem lookup_eq_none_iff : lookup m k = none ↔ k ∉ keys m := by
  simp only [lookup, Option.map_eq_none_iff, List.find?_eq_none, decide_eq_true_eq, keys,
    List.mem_map, not_exists, not_and]

/-! ## Storing the pairs of another map -/

theorem keys_replace : keys (replace m k v) = keys m := by
  rw [keys, replace, List.map_map]
  refine List.map_congr_left fun e _ => ?_
  by_cases he : e.1 = k <;> simp [he]

theorem lookup_cons {e : K × V} : lookup (e :: m) k = if e.1 = k then some e.2 else lookup m k := by
  by_cases he : e.1 = k <;> simp [lookup, he]

theorem lookup_append {m' : List (K × V)} :
    lookup (m ++ m') k = (lookup m k).or (lookup m' k) := by
  induction m with
  | nil => rfl
  | cons e m ih =>
    rw [List.cons_append, lookup_cons, lookup_cons, ih]
    split <;> simp

theorem lookup_set_of_ne (hne : k' ≠ k) : lookup (set m k v) k' = lookup m k' := by
  by_cases h : k ∈ keys m
  · rw [set_of_mem h, replace]
    clear h
    induction m with
    | nil => rfl
    | cons e m ih =>
      rw [List.map_cons, lookup_cons, lookup_cons, ih]
      by_cases he : e.1 = k <;> simp [he, Ne.symm hne]
  · rw [set_of_notMem h, lookup_append, lookup_cons, if_neg (Ne.symm hne)]
    simp [lookup]

theorem lookup_add_of_ne (hne : k' ≠ k) : lookup (add m k v) k' = lookup m k' := by
  by_cases h : k ∈ keys m
  · rw [add_of_mem h]
  · rw [add_of_notMem h, ← set_of_notMem h, lookup_set_of_ne hne]

omit [DecidableEq K] in
theorem mem_keys_append_of_ne {e : K × V} (hne : k ≠ e.1) :
    k ∈ keys (m ++ [(e.1, e.2)]) ↔ k ∈ keys m := by
  rw [keys, List.map_append, List.mem_append, keys, List.map_singleton, List.mem_singleton]
  exact or_iff_left hne

theorem mem_keys_iff_lookup : k ∈ keys m ↔ lookup m k ≠ none := by
  rw [Ne, lookup_eq_none_iff, not_not]

theorem foldl_set (hs : (keys s).Nodup) : s.foldl (fun m e => set m e.1 e.2) m = overlay m s := by
  induction s generalizing m with
  | nil => simp [overlay, lookup]
  | cons e s ih =>
    obtain ⟨hes, hs⟩ := List.nodup_cons.mp hs
    have hnone : lookup s e.1 = none := lookup_eq_none_iff.mpr hes
    have hne : ∀ x ∈ s, x.1 ≠ e.1 := fun x hx hxe => hes (hxe ▸ List.mem_map_of_mem hx)
    rw [List.foldl_cons, ih hs, overlay, overlay]
    by_cases h : e.1 ∈ keys m
    · rw [set_of_mem h, keys_replace, List.filter_cons_of_neg (by simpa using h), replace,
        List.map_map]
      congr 1
      refine List.map_congr_left fun x _ => ?_
      by_cases hx : x.1 = e.1
      · simp [hx, lookup_cons, hnone]
      · simp [hx, lookup_cons, Ne.symm (Ne.intro hx)]
    · rw [set_of_notMem h, List.filter_cons_of_pos (by simpa using h), List.map_append,
        List.append_assoc, List.map_singleton, hnone, Option.getD_none, List.singleton_append]
      congr 1
      · refine List.map_congr_left fun x hx => ?_
        have hxe : e.1 ≠ x.1 := fun hxe => h (hxe ▸ List.mem_map_of_mem hx)
        simp [lookup_cons, hxe]
      · congr 1
        refine List.filter_congr fun x hx => ?_
        simp only [mem_keys_append_of_ne (hne x hx)]

theorem foldl_add (hs : (keys s).Nodup) : s.foldl (fun m e => add m e.1 e.2) m = extend m s := by
  induction s generalizing m with
  | nil => simp [extend]
  | cons e s ih =>
    obtain ⟨hes, hs⟩ := List.nodup_cons.mp hs
    have hne : ∀ x ∈ s, x.1 ≠ e.1 := fun x hx hxe => hes (hxe ▸ List.mem_map_of_mem hx)
    rw [List.foldl_cons, ih hs, extend, extend]
    by_cases h : e.1 ∈ keys m
    · rw [add_of_mem h, List.filter_cons_of_neg (by simpa using h)]
    · rw [add_of_notMem h, List.filter_cons_of_pos (by simpa using h), List.append_assoc,
        List.singleton_append]
      congr 2
      refine List.filter_congr fun x hx => ?_
      simp only [mem_keys_append_of_ne (hne x hx)]

theorem lookup_map (f : K → V → V) :
    lookup (m.map fun e => (e.1, f e.1 e.2)) k = (lookup m k).map (f k) := by
  induction m with
  | nil => rfl
  | cons e m ih =>
    rw [List.map_cons, lookup_cons, lookup_cons, ih]
    by_cases he : e.1 = k <;> simp [he]

theorem lookup_filter_notMem :
    lookup (s.filter fun e => e.1 ∉ keys m) k = if k ∈ keys m then none else lookup s k := by
  induction s with
  | nil => simp [lookup]
  | cons e s ih =>
    by_cases he : e.1 ∈ keys m
    · rw [List.filter_cons_of_neg (by simpa using he), ih, lookup_cons]
      by_cases hk : k ∈ keys m
      · simp [hk]
      · have hek : e.1 ≠ k := fun hek => hk (hek ▸ he)
        simp [hk, hek]
    · rw [List.filter_cons_of_pos (by simpa using he), lookup_cons, ih, lookup_cons]
      by_cases hek : e.1 = k
      · simp [hek, hek ▸ he]
      · simp [hek]

theorem lookup_overlay : lookup (overlay m s) k = (lookup s k).or (lookup m k) := by
  rw [overlay, lookup_append, lookup_map fun x v => (lookup s x).getD v, lookup_filter_notMem]
  cases hm : lookup m k with
  | none => simp [lookup_eq_none_iff.mp hm]
  | some v => cases lookup s k <;> rfl

theorem lookup_extend : lookup (extend m s) k = (lookup m k).or (lookup s k) := by
  rw [extend, lookup_append, lookup_filter_notMem]
  cases hm : lookup m k with
  | none => simp [lookup_eq_none_iff.mp hm]
  | some v => rfl

end PhpRuntime.Lib.OrderedMap

import Mathlib.Algebra.Order.Ring.Int
import PhpRuntime.Spl.DllistLinks

/-!
# The methods of `SplDoublyLinkedList`

Every element of a list holds two references to its zval: the one that
`SEPARATE_ARG_IF_REF` makes for the argument and the one of `spl_ptr_llist_zval_ctor`.
`Becomes` is what a method does to one list: what it holds afterwards, that the elements
of other lists are left alone, and that every refcount is changed by twice the number of
elements that come to hold the zval or no longer do.
-/

set_option autoImplicit false

namespace PhpRuntime.Spl

open PhpRuntime.Lib PhpRuntime.Spl.Zvals

variable {ν : Type} {m m' : Memory ν} {llist : Llist} {l : List Addr} {d : List ZvalAddr}
  {refs : ZvalAddr → ℤ} {a : Addr} {z w : ZvalAddr}

/-- The list with the elements `l` and the zvals `d` becomes `llist'` with the zvals `d'`. -/
structure Becomes (m m' : Memory ν) (llist' : Llist) (l : List Addr) (d d' : List ZvalAddr) :
    Prop where
  holds : ∃ l', Holds m' llist' l' d' ∧ Elements m m' l l'
  counted : ∀ refs, m.zvals.Counted refs → (∀ x, 2 * (d.count x : ℤ) ≤ refs x) →
    m'.zvals.Counted fun x => refs x + 2 * d'.count x - 2 * d.count x
  plain : ∀ x ∈ m.zvals.live, ∀ v, m.zvals.Plain x v → m'.zvals.Plain x v

theorem Becomes.refl (h : Holds m llist l d) : Becomes m m llist l d d where
  holds := ⟨l, h, Elements.refl m l⟩
  counted := fun refs hc _ => hc.congr fun x => by omega
  plain := fun _ _ _ h => h

theorem count_cons_eq (z x : ZvalAddr) (d : List ZvalAddr) :
    ((z :: d).count x : ℤ) = d.count x + one z x := by
  rw [List.count_cons]
  unfold one
  by_cases hx : x = z
  · subst hx
    simp
  · have hx' : ¬ z = x := fun heq => hx heq.symm
    simp [hx, hx']

theorem count_append_cons (z x : ZvalAddr) (ds dt : List ZvalAddr) :
    ((ds ++ z :: dt).count x : ℤ) = (ds ++ dt).count x + one z x := by
  rw [List.count_append, List.count_append, Nat.cast_add, count_cons_eq, Nat.cast_add]
  omega

theorem Zvals.Counted.dropTwo {zs : Zvals ν} (h : zs.Counted refs) (hz : 2 ≤ refs z) :
    ((zs.zvalPtrDtor z).zvalPtrDtor z).Counted fun x => refs x - 2 * one z x := by
  have h1 := h.zvalPtrDtor (h.mem_live (z := z) (by omega))
  have hlive := h1.mem_live (z := z) (by rw [one_self]; omega)
  exact (h1.zvalPtrDtor hlive).congr fun x => by omega

theorem Zvals.Counted.addTwo {zs : Zvals ν} (emalloc : Emalloc) (h : zs.Counted refs)
    (hz : z ∈ zs.live) :
    ((zs.separateArgIfRef emalloc z).2.addref (zs.separateArgIfRef emalloc z).1).Counted
      fun x => refs x + 2 * one (zs.separateArgIfRef emalloc z).1 x :=
  ((h.separateArgIfRef emalloc hz).addref (separateArgIfRef_live emalloc zs hz).1).congr
    fun x => by omega

theorem Zvals.Counted.swapTwo {zs : Zvals ν} (emalloc : Emalloc) (h : zs.Counted refs)
    (hz : z ∈ zs.live) (hw : 2 ≤ refs w) (hrefs : ∀ x, 0 ≤ refs x) :
    ((((zs.separateArgIfRef emalloc z).2.zvalPtrDtor w).zvalPtrDtor w).addref
      (zs.separateArgIfRef emalloc z).1).Counted
        fun x => refs x + 2 * one (zs.separateArgIfRef emalloc z).1 x - 2 * one w x := by
  have hsep := h.separateArgIfRef emalloc hz
  generalize zs.separateArgIfRef emalloc z = r at hsep ⊢
  have hone : 0 ≤ one r.1 w := by
    unfold one
    split <;> omega
  have hdrop := hsep.dropTwo (z := w) (by omega)
  have hpos : refs r.1 + one r.1 r.1 - 2 * one w r.1 ≠ 0 := by
    have hr := hrefs r.1
    rw [one_self]
    by_cases heq : r.1 = w
    · rw [heq, one_self]
      omega
    · rw [one_of_ne heq]
      omega
  exact (hdrop.addref (hdrop.mem_live hpos)).congr fun x => by omega

theorem Holds.zvalPtrDtor (h : Holds m llist l d) (p : Option ZvalAddr) :
    Holds (m.zvalPtrDtor p) llist l d :=
  h.congr fun a ha => ⟨by rw [Memory.zvalPtrDtor_elements],
    by rw [Memory.zvalPtrDtor_live]; exact h.live a ha⟩

theorem letGo_value (m : Memory ν) (a : Addr) (x : ZvalAddr) :
    ((letGo m a).2.zvals.zval x).value = (m.zvals.zval x).value := by
  unfold letGo
  dsimp only
  rw [Memory.delref_zvals, Memory.storeAt_zvals]
  unfold Memory.zvalDtor
  split
  · rfl
  · exact zvalPtrDtor_value _ _ x

def stored (emalloc : Emalloc) (m : Memory ν) (value : ZvalAddr) : ZvalAddr :=
  (m.zvals.separateArgIfRef emalloc value).1

/-- The memory after `SEPARATE_ARG_IF_REF`. -/
def separated (emalloc : Emalloc) (m : Memory ν) (value : ZvalAddr) : Memory ν :=
  { m with zvals := (m.zvals.separateArgIfRef emalloc value).2 }

theorem Holds.separated (h : Holds m llist l d) (emalloc : Emalloc) (z : ZvalAddr) :
    Holds (separated emalloc m z) llist l d :=
  h.congr fun a ha => ⟨rfl, h.live a ha⟩

theorem Becomes.store {llist' : Llist} {d' : List ZvalAddr} (emalloc : Emalloc)
    (hz : z ∈ m.zvals.live)
    (hholds : ∃ l', Holds m' llist' l' d' ∧ Elements (separated emalloc m z) m' l l')
    (hzvals : m'.zvals = (separated emalloc m z).zvals.addref (stored emalloc m z))
    (hcount : ∀ x, (d'.count x : ℤ) = d.count x + one (stored emalloc m z) x) :
    Becomes m m' llist' l d d' where
  holds := by
    obtain ⟨l', hl', helem⟩ := hholds
    exact ⟨l', hl', helem.new, helem.kept, helem.gone, helem.frame⟩
  counted := by
    intro refs hc _
    rw [hzvals]
    refine (hc.addTwo emalloc hz).congr fun x => ?_
    rw [hcount]
    unfold stored
    omega
  plain := by
    intro x hx v hplain
    rw [hzvals]
    exact (hplain.separateArgIfRef emalloc z hx).addref _

theorem stored_plain (emalloc : Emalloc)
    (hzvals : m'.zvals = (separated emalloc m z).zvals.addref (stored emalloc m z)) :
    m'.zvals.Plain (stored emalloc m z) (m.zvals.zval z).value := by
  rw [hzvals]
  exact (separateArgIfRef_plain emalloc m.zvals z).addref _

namespace DllistObject

variable {intern : DllistObject}

theorem push_becomes (emalloc : Emalloc) (h : Holds m intern.llist l d) (hz : z ∈ m.zvals.live) :
    let r := intern.push emalloc m z
    r.1 = .true ∧ r.2.2 = intern.setLlist r.2.2.llist ∧
      Becomes m r.2.1 r.2.2.llist l d (d ++ [stored emalloc m z]) ∧
      r.2.1.zvals.Plain (stored emalloc m z) (m.zvals.zval z).value := by
  intro r
  obtain ⟨hholds, helem, hzvals, -⟩ :=
    splPtrLlistPush_holds emalloc (h.separated emalloc z) (stored emalloc m z)
  refine ⟨rfl, rfl, Becomes.store emalloc hz ⟨_, hholds, helem⟩ hzvals fun x => ?_, ?_⟩
  · have hcount := count_append_cons (stored emalloc m z) x d []
    rwa [List.append_nil] at hcount
  · exact stored_plain emalloc hzvals

theorem unshift_becomes (emalloc : Emalloc) (h : Holds m intern.llist l d)
    (hz : z ∈ m.zvals.live) :
    let r := intern.unshift emalloc m z
    r.1 = .true ∧ r.2.2 = intern.setLlist r.2.2.llist ∧
      Becomes m r.2.1 r.2.2.llist l d (stored emalloc m z :: d) ∧
      r.2.1.zvals.Plain (stored emalloc m z) (m.zvals.zval z).value := by
  intro r
  obtain ⟨hholds, helem, hzvals, -⟩ :=
    splPtrLlistUnshift_holds emalloc (h.separated emalloc z) (stored emalloc m z)
  exact ⟨rfl, rfl, Becomes.store emalloc hz ⟨_, hholds, helem⟩ hzvals
    fun x => count_cons_eq _ x d, stored_plain emalloc hzvals⟩

theorem Becomes.drop {llist' : Llist} {d' : List ZvalAddr}
    (hholds : ∃ l', Holds m' llist' l' d' ∧ Elements m m' l l')
    (hzvals : m'.zvals = (m.zvals.zvalPtrDtor z).zvalPtrDtor z)
    (hcount : ∀ x, (d.count x : ℤ) = d'.count x + one z x) : Becomes m m' llist' l d d' where
  holds := hholds
  counted := by
    intro refs hc hrefs
    rw [hzvals]
    have hz := hrefs z
    rw [hcount, one_self] at hz
    refine (hc.dropTwo (by omega)).congr fun x => ?_
    rw [hcount]
    omega
  plain := by
    intro x hx v hplain
    rw [hzvals]
    exact (hplain.zvalPtrDtor z).zvalPtrDtor z

/-- `spl_ptr_llist_pop` and the `zval_ptr_dtor` that its callers make. -/
theorem popAndDrop_becomes {ds : List ZvalAddr} (h : Holds m llist l (ds ++ [z])) :
    (splPtrLlistPop m llist).1 = some z ∧
      Becomes m ((splPtrLlistPop m llist).2.1.zvalPtrDtor (some z)) (splPtrLlistPop m llist).2.2 l
        (ds ++ [z]) ds := by
  have hlen := h.length_eq
  obtain ⟨s, a, rfl⟩ : ∃ s a, l = s ++ [a] := by
    rcases List.eq_nil_or_concat l with rfl | ⟨s, a, rfl⟩
    · simp at hlen
    · exact ⟨s, a, List.concat_eq_append⟩
  obtain ⟨hfst, hholds, helem, hzvals⟩ := splPtrLlistPop_holds h
  refine ⟨hfst, Becomes.drop (z := z) ⟨s, hholds.zvalPtrDtor _, ?_⟩ ?_ fun x => ?_⟩
  · exact helem.congr (Memory.zvalPtrDtor_elements _ _) (Memory.zvalPtrDtor_live _ _)
  · change (splPtrLlistPop m llist).2.1.zvals.zvalPtrDtor z = _
    rw [hzvals]
  · have hcount := count_append_cons z x ds []
    rwa [List.append_nil] at hcount

/-- `spl_ptr_llist_shift` and the `zval_ptr_dtor` that its callers make. -/
theorem shiftAndDrop_becomes {dt : List ZvalAddr} (h : Holds m llist l (z :: dt)) :
    (splPtrLlistShift m llist).1 = some z ∧
      Becomes m ((splPtrLlistShift m llist).2.1.zvalPtrDtor (some z))
        (splPtrLlistShift m llist).2.2 l (z :: dt) dt := by
  have hlen := h.length_eq
  obtain ⟨a, t, rfl⟩ : ∃ a t, l = a :: t := by
    cases l with
    | nil => simp at hlen
    | cons a t => exact ⟨a, t, rfl⟩
  obtain ⟨hfst, hholds, helem, hzvals⟩ := splPtrLlistShift_holds h
  refine ⟨hfst, Becomes.drop (z := z) ⟨t, hholds.zvalPtrDtor _, ?_⟩ ?_
    fun x => count_cons_eq z x dt⟩
  · exact helem.congr (Memory.zvalPtrDtor_elements _ _) (Memory.zvalPtrDtor_live _ _)
  · change (splPtrLlistShift m llist).2.1.zvals.zvalPtrDtor z = _
    rw [hzvals]

theorem splPtrLlistPop_value (m : Memory ν) (llist : Llist) (x : ZvalAddr) :
    ((splPtrLlistPop m llist).2.1.zvals.zval x).value = (m.zvals.zval x).value := by
  unfold splPtrLlistPop
  split
  · rfl
  · exact letGo_value _ _ x

theorem splPtrLlistShift_value (m : Memory ν) (llist : Llist) (x : ZvalAddr) :
    ((splPtrLlistShift m llist).2.1.zvals.zval x).value = (m.zvals.zval x).value := by
  unfold splPtrLlistShift
  split
  · rfl
  · exact letGo_value _ _ x

theorem pop_becomes {ds : List ZvalAddr} (h : Holds m intern.llist l (ds ++ [z])) :
    let r := intern.pop m
    r.1 = returnZval m z ∧ r.2.2 = intern.setLlist r.2.2.llist ∧
      Becomes m r.2.1 r.2.2.llist l (ds ++ [z]) ds := by
  obtain ⟨hfst, hbecomes⟩ := popAndDrop_becomes h
  intro r
  have hr : r = (returnZval (splPtrLlistPop m intern.llist).2.1 z,
      (splPtrLlistPop m intern.llist).2.1.zvalPtrDtor (some z),
      intern.setLlist (splPtrLlistPop m intern.llist).2.2) := by
    change intern.pop m = _
    unfold DllistObject.pop
    dsimp only
    rw [hfst]
  rw [hr]
  refine ⟨?_, rfl, hbecomes⟩
  unfold returnZval
  rw [splPtrLlistPop_value]

theorem shift_becomes {dt : List ZvalAddr} (h : Holds m intern.llist l (z :: dt)) :
    let r := intern.shift m
    r.1 = returnZval m z ∧ r.2.2 = intern.setLlist r.2.2.llist ∧
      Becomes m r.2.1 r.2.2.llist l (z :: dt) dt := by
  obtain ⟨hfst, hbecomes⟩ := shiftAndDrop_becomes h
  intro r
  have hr : r = (returnZval (splPtrLlistShift m intern.llist).2.1 z,
      (splPtrLlistShift m intern.llist).2.1.zvalPtrDtor (some z),
      intern.setLlist (splPtrLlistShift m intern.llist).2.2) := by
    change intern.shift m = _
    unfold DllistObject.shift
    dsimp only
    rw [hfst]
  rw [hr]
  refine ⟨?_, rfl, hbecomes⟩
  unfold returnZval
  rw [splPtrLlistShift_value]

theorem setLlist_self (intern : DllistObject) : intern.setLlist intern.llist = intern := rfl

theorem pop_empty (h : Holds m intern.llist [] []) :
    intern.pop m =
      (.exception .RuntimeException "Can't pop from an empty datastructure", m, intern) := by
  unfold DllistObject.pop
  rw [splPtrLlistPop_empty h]
  rfl

theorem shift_empty (h : Holds m intern.llist [] []) :
    intern.shift m =
      (.exception .RuntimeException "Can't shift from an empty datastructure", m, intern) := by
  unfold DllistObject.shift
  rw [splPtrLlistShift_empty h]
  rfl

theorem Holds.getElem?_data (h : Holds m llist l d) (k : ℕ) :
    l[k]?.bind m.data = d[k]? := by
  have hk := congrArg (fun q : List (Option ZvalAddr) => q[k]?) h.data
  simp only [List.getElem?_map] at hk
  cases hl : l[k]? <;> cases hd : d[k]? <;> simp_all

theorem top_eq (h : Holds m intern.llist l d) : intern.top m = peek m d.getLast? := by
  have hdata := Holds.getElem?_data h (l.length - 1)
  unfold top splPtrLlistLast
  rw [h.tail, List.getLast?_eq_getElem?, hdata, h.length_eq, ← List.getLast?_eq_getElem?]

theorem bottom_eq (h : Holds m intern.llist l d) : intern.bottom m = peek m d.head? := by
  have hdata := Holds.getElem?_data h 0
  unfold bottom splPtrLlistFirst
  rw [h.head, List.head?_eq_getElem?, hdata, ← List.head?_eq_getElem?]

end DllistObject

/-- The position from the head that an index denotes, in a list of `n` elements. -/
def position (lifo : Bool) (n : ℕ) (index : ℤ) : Option ℕ :=
  if 0 ≤ index ∧ index < n then some (if lifo then n - 1 - index.toNat else index.toNat) else none

theorem position_lt {lifo : Bool} {n k : ℕ} {index : ℤ} (h : position lifo n index = some k) :
    k < n := by
  unfold position at h
  split at h
  · rw [← Option.some.inj h]
    split <;> omega
  · cases h

namespace DllistObject

variable {intern : DllistObject}

theorem inRange_eq (h : Holds m intern.llist l d) (index : ℤ) :
    intern.inRange index = (position intern.lifo d.length index).isSome := by
  unfold inRange position
  rw [h.count, h.length_eq]
  split <;> simp_all

theorem offset_eq (h : Holds m intern.llist l d) {index : ℤ} {k : ℕ}
    (hk : position intern.lifo d.length index = some k) :
    splPtrLlistOffset m intern.llist index intern.lifo = l[k]? := by
  unfold position at hk
  split at hk
  · rename_i hrange
    have hlen := h.length_eq
    rw [splPtrLlistOffset_eq h index intern.lifo, ← Option.some.inj hk]
    split
    · rw [List.getElem?_reverse (by omega), hlen]
    · rfl
  · cases hk

theorem Holds.split_at (h : Holds m llist l d) {k : ℕ} (hk : k < d.length) :
    ∃ s a t z, l = s ++ a :: t ∧ d = d.take k ++ z :: d.drop (k + 1) ∧
      s.length = (d.take k).length ∧ l[k]? = some a ∧ d[k]? = some z := by
  have hlen := h.length_eq
  have hkl : k < l.length := by omega
  refine ⟨l.take k, l[k], l.drop (k + 1), d[k], ?_, ?_, ?_, ?_, ?_⟩
  · rw [List.getElem_cons_drop, List.take_append_drop]
  · rw [List.getElem_cons_drop, List.take_append_drop]
  · rw [List.length_take, List.length_take, hlen]
  · exact List.getElem?_eq_getElem hkl
  · exact List.getElem?_eq_getElem hk

theorem offsetGet_eq (h : Holds m intern.llist l d) (zindex : Index) :
    intern.offsetGet m zindex =
      match (position intern.lifo d.length (splOffsetConvertToLong zindex)).bind (d[·]?) with
      | none => .exception .OutOfRangeException "Offset invalid or out of range"
      | some z => returnZval m z := by
  unfold offsetGet
  dsimp only
  rw [inRange_eq h]
  cases hk : position intern.lifo d.length (splOffsetConvertToLong zindex) with
  | none => rfl
  | some k =>
    obtain ⟨s, a, t, z, -, -, -, ha, hz⟩ := Holds.split_at h (position_lt hk)
    have hdata := Holds.getElem?_data h k
    rw [ha, Option.bind_some, hz] at hdata
    rw [if_neg (by simp), offset_eq h hk, ha, Option.bind_some, hz]
    dsimp only
    rw [hdata]

theorem offsetUnset_becomes (h : Holds m intern.llist l d) {zindex : Index} {k : ℕ}
    (hk : position intern.lifo d.length (splOffsetConvertToLong zindex) = some k) :
    let r := intern.offsetUnset m zindex
    r.1 = .null ∧ r.2.2 = intern.setLlist r.2.2.llist ∧
      Becomes m r.2.1 r.2.2.llist l d (d.eraseIdx k) := by
  obtain ⟨s, a, t, z, hl, hd, hlen, ha, hz⟩ := Holds.split_at h (position_lt hk)
  intro r
  have h' : Holds m intern.llist (s ++ a :: t) (d.take k ++ z :: d.drop (k + 1)) := by
    rw [← hl, ← hd]
    exact h
  obtain ⟨hdata, -, -⟩ := h'.data_middle hlen
  obtain ⟨hby, hdata', hrc, hlive, hzvals⟩ := unlink_bypassed h'
  rw [hdata] at hdata'
  generalize hm1 : (unlink m intern.llist a).1 = m1 at hby hdata' hrc hlive hzvals
  have hr : r = (.null,
      (((m1.zvalDtor a).zvalPtrDtor (some z)).storeAt (some a) fun e => { e with data := none }).delref a,
      intern.setLlist (unlink m intern.llist a).2) := by
    change intern.offsetUnset m zindex = _
    unfold offsetUnset
    dsimp only
    rw [inRange_eq h, hk, if_neg (by simp), offset_eq h hk, ha]
    dsimp only
    rw [hm1]
    have hdata1 : (m1.zvalDtor a).data a = some z := by
      unfold Memory.data at hdata' ⊢
      rw [Memory.zvalDtor_elements]
      exact hdata'
    rw [hdata1]
  have hby' : Bypassed m r.2.1 a := by
    refine hby.frame_right fun x hx => ?_
    rw [hr]
    constructor
    · rw [Memory.delref_elements, if_neg (Ne.symm hx), Memory.storeAt_elements,
        if_neg (fun heq => hx (Option.some.inj heq).symm), Memory.zvalPtrDtor_elements,
        Memory.zvalDtor_elements]
    · intro hmem
      exact Memory.mem_delref_live (by simpa using hmem) hx
  have hrel : Released m r.2.1 a := by
    have hrc' : (((m1.zvalDtor a).zvalPtrDtor (some z)).storeAt (some a)
        fun e => { e with data := none }).rc a = m.rc a := by
      unfold Memory.rc at hrc ⊢
      rw [Memory.storeAt_elements, if_pos rfl, Memory.zvalPtrDtor_elements,
        Memory.zvalDtor_elements]
      exact hrc
    rw [hr]
    constructor
    · rw [delref_rc, hrc']
    · intro hmem hne
      apply mem_delref_self
      · rw [Memory.storeAt_live, Memory.zvalPtrDtor_live, Memory.zvalDtor_live, hlive]
        exact hmem
      · rwa [hrc']
  have herase : d.eraseIdx k = d.take k ++ d.drop (k + 1) := List.eraseIdx_eq_take_drop_succ d k
  have hlist : r.2.2.llist = (unlink m intern.llist a).2 := by
    rw [hr]
    rfl
  refine ⟨by rw [hr], by rw [hr]; rfl, Becomes.drop (z := z) ⟨s ++ t, ?_, ?_⟩ ?_ fun x => ?_⟩
  · rw [herase, hlist]
    apply Bypassed.holds h' hlen hby'
    all_goals rw [unlink_llist h']
  · rw [hl]
    exact Bypassed.elements h' hby' hrel
  · rw [hr]
    dsimp only
    rw [Memory.delref_zvals, Memory.storeAt_zvals]
    change (m1.zvalDtor a).zvals.zvalPtrDtor z = _
    rw [Memory.zvalDtor_zvals hdata', hzvals]
  · rw [herase]
    have hcount := count_append_cons z x (d.take k) (d.drop (k + 1))
    rwa [← hd] at hcount

theorem offsetUnset_invalid (h : Holds m intern.llist l d) {zindex : Index}
    (hk : position intern.lifo d.length (splOffsetConvertToLong zindex) = none) :
    intern.offsetUnset m zindex =
      (.exception .OutOfRangeException "Offset out of range", m, intern) := by
  unfold offsetUnset
  dsimp only
  rw [inRange_eq h, hk]
  rfl

theorem offsetSet_null (emalloc : Emalloc) (h : Holds m intern.llist l d)
    (hz : z ∈ m.zvals.live) :
    let r := intern.offsetSet emalloc m .null z
    r.1 = .null ∧ r.2.2 = intern.setLlist r.2.2.llist ∧
      Becomes m r.2.1 r.2.2.llist l d (d ++ [stored emalloc m z]) ∧
      r.2.1.zvals.Plain (stored emalloc m z) (m.zvals.zval z).value := by
  obtain ⟨-, hrest⟩ := push_becomes emalloc h hz
  exact ⟨rfl, hrest⟩

theorem offsetSet_invalid (emalloc : Emalloc) (h : Holds m intern.llist l d)
    (hz : z ∈ m.zvals.live) {zindex : Index} (hindex : zindex ≠ .null)
    (hk : position intern.lifo d.length (splOffsetConvertToLong zindex) = none) :
    let r := intern.offsetSet emalloc m zindex z
    r.1 = .exception .OutOfRangeException "Offset invalid or out of range" ∧ r.2.2 = intern ∧
      Becomes m r.2.1 intern.llist l d d := by
  intro r
  have hr : r = (.exception .OutOfRangeException "Offset invalid or out of range",
      (separated emalloc m z).zvalPtrDtor (some (stored emalloc m z)), intern) := by
    change intern.offsetSet emalloc m zindex z = _
    unfold offsetSet
    dsimp only
    rw [if_neg hindex, inRange_eq h, hk]
    rfl
  rw [hr]
  refine ⟨rfl, rfl, ⟨l, ?_, (Elements.refl m l).congr rfl rfl⟩, ?_, ?_⟩
  · exact h.congr fun x hx => ⟨rfl, h.live x hx⟩
  · intro refs hc _
    have hsep := hc.separateArgIfRef emalloc hz
    have hlive := (separateArgIfRef_live emalloc m.zvals hz).1
    exact (hsep.zvalPtrDtor hlive).congr fun x => by omega
  · intro x hx v hplain
    exact (hplain.separateArgIfRef emalloc z hx).zvalPtrDtor _

theorem offsetSet_becomes (emalloc : Emalloc) (h : Holds m intern.llist l d)
    (hz : z ∈ m.zvals.live) {zindex : Index} {k : ℕ} (hindex : zindex ≠ .null)
    (hk : position intern.lifo d.length (splOffsetConvertToLong zindex) = some k) :
    let r := intern.offsetSet emalloc m zindex z
    r.1 = .null ∧ r.2.2 = intern ∧
      Becomes m r.2.1 intern.llist l d (d.set k (stored emalloc m z)) ∧
      r.2.1.zvals.Plain (stored emalloc m z) (m.zvals.zval z).value := by
  obtain ⟨s, a, t, y, hl, hd, hlen, ha, hy⟩ := Holds.split_at h (position_lt hk)
  have hdata := Holds.getElem?_data h k
  rw [ha, Option.bind_some, hy] at hdata
  have hset : d.set k (stored emalloc m z) =
      d.take k ++ stored emalloc m z :: d.drop (k + 1) := by
    rw [List.set_eq_take_append_cons_drop, if_pos (position_lt hk)]
  intro r
  have hr : r = (.null,
      ((((separated emalloc m z).zvalDtor a).zvalPtrDtor (some y)).storeAt (some a)
        fun e => { e with data := some (stored emalloc m z) }).zvalCtor a, intern) := by
    change intern.offsetSet emalloc m zindex z = _
    unfold offsetSet
    dsimp only
    rw [if_neg hindex, inRange_eq h, hk, if_neg (by simp)]
    have hoffset : splPtrLlistOffset (separated emalloc m z) intern.llist
        (splOffsetConvertToLong zindex) intern.lifo = some a := by
      rw [← ha, ← offset_eq h hk]
      rfl
    unfold separated at hoffset
    rw [hoffset]
    dsimp only
    have hdata' : ((separated emalloc m z).zvalDtor a).data a = some y := by
      unfold Memory.data at hdata ⊢
      rw [Memory.zvalDtor_elements]
      exact hdata
    change (_, ((((separated emalloc m z).zvalDtor a).zvalPtrDtor
      (((separated emalloc m z).zvalDtor a).data a)).storeAt _ _).zvalCtor a, _) = _
    rw [hdata']
    rfl
  have helem : ∀ x, r.2.1.elements x =
      if some a = some x then { m.elements x with data := some (stored emalloc m z) }
      else m.elements x := by
    intro x
    rw [hr, Memory.zvalCtor_elements, Memory.storeAt_elements, Memory.zvalPtrDtor_elements,
      Memory.zvalDtor_elements]
    rfl
  have hlive : r.2.1.live = m.live := by
    rw [hr, Memory.zvalCtor_live, Memory.storeAt_live, Memory.zvalPtrDtor_live,
      Memory.zvalDtor_live]
    rfl
  have hzvals : r.2.1.zvals =
      (((separated emalloc m z).zvals.zvalPtrDtor y).zvalPtrDtor y).addref (stored emalloc m z) := by
    have hself : ((((separated emalloc m z).zvalDtor a).zvalPtrDtor (some y)).storeAt (some a)
        fun e => { e with data := some (stored emalloc m z) }).data a =
          some (stored emalloc m z) := by
      unfold Memory.data
      rw [Memory.storeAt_elements, if_pos rfl]
    rw [hr, Memory.zvalCtor_zvals hself, Memory.storeAt_zvals]
    change (((separated emalloc m z).zvalDtor a).zvals.zvalPtrDtor y).addref _ = _
    rw [Memory.zvalDtor_zvals (m := separated emalloc m z) hdata]
  refine ⟨by rw [hr], by rw [hr], ⟨⟨l, ?_, ?_⟩, ?_, ?_⟩, ?_⟩
  · rw [hset, hl]
    apply Holds.replaceData (z := y) _ hlen helem hlive
    rw [← hl, ← hd]
    exact h
  · refine ⟨fun x hx hnot => absurd hx hnot, fun x _ _ => ?_,
      fun x hx hnot => absurd hx hnot, fun x hx hxl => ?_⟩
    · unfold Memory.rc
      rw [helem]
      split <;> rfl
    · rw [helem, if_neg, hlive]
      · exact ⟨rfl, hx⟩
      · intro heq
        apply hxl
        rw [hl, ← Option.some.inj heq]
        simp
  · intro refs hc hrefs
    have hcount : ∀ x, (d.count x : ℤ) = (d.take k ++ d.drop (k + 1)).count x + one y x := by
      intro x
      have heq := count_append_cons y x (d.take k) (d.drop (k + 1))
      rwa [← hd] at heq
    rw [hzvals]
    refine (hc.swapTwo emalloc hz ?_ ?_).congr fun x => ?_
    · have hy2 := hrefs y
      rw [hcount, one_self] at hy2
      omega
    · exact fun x => by have := hrefs x; omega
    · rw [hset, count_append_cons, hcount]
      unfold stored
      omega
  · intro x hx v hplain
    rw [hzvals]
    exact (((hplain.separateArgIfRef emalloc z hx).zvalPtrDtor y).zvalPtrDtor y).addref _
  · rw [hzvals]
    exact (((separateArgIfRef_plain emalloc m.zvals z).zvalPtrDtor y).zvalPtrDtor y).addref _

end DllistObject

end PhpRuntime.Spl

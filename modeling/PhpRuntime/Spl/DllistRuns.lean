import Mathlib.Algebra.Order.BigOperators.Group.List
import Mathlib.Algebra.Order.Ring.Nat
import PhpRuntime.Spl.DllistDeque

/-!
# Runs of `SplDoublyLinkedList`

Any number of lists share one memory with the rest of the program, which makes and drops
references of its own and writes to the zvals that it does not share. Along every run each
list is its reference deque, and the refcount of a zval is the number of references of the
rest of the program and two for each element that holds it.
-/

set_option autoImplicit false

namespace PhpRuntime.Spl

open PhpRuntime.Lib PhpRuntime.Spl.Zvals

variable {ν : Type}

namespace Llist

/-- The elements from the head along `next`. -/
def forward (m : Memory ν) (llist : Llist) : List Addr := walk m.next m.walkBound llist.head

/-- The elements from the tail along `prev`. -/
def backward (m : Memory ν) (llist : Llist) : List Addr := walk m.prev m.walkBound llist.tail

def zvals (m : Memory ν) (llist : Llist) : List ZvalAddr := (llist.forward m).filterMap m.data

end Llist

/-- An object, its class, and the reference deque. -/
structure TrackedList (ν : Type) where
  ce : DllistClass
  intern : DllistObject
  deque : List ν

/-- The objects of a run, those that are destroyed being `none`, and the number of references
that the rest of the program has to each zval. -/
structure DllistSession (ν : Type) where
  memory : Memory ν
  objects : List (Option (TrackedList ν))
  others : ZvalAddr → ℤ

/-- One step of a run: something done with the object with the index `k`, or by the rest of
the program. A zval that is shared and is no reference is not written to. -/
inductive DllistOp (ν : Type) where
  | new (ce : DllistClass)
  | call (k : ℕ) (method : Method ZvalAddr)
  | setIteratorMode (k : ℕ) (value : ℕ)
  | clone (k : ℕ)
  | destroy (k : ℕ)
  | newZval (value : ν) (is_ref : Bool)
  | addref (z : ZvalAddr)
  | release (z : ZvalAddr)
  | write (z : ZvalAddr) (value : ν) (is_ref : Bool)

namespace DllistSession

/-- The object with the index `k`. -/
def object (S : DllistSession ν) (k : ℕ) : Option (TrackedList ν) := S.objects[k]?.join

/-- The zvals change, with the references of the rest of the program. -/
def onZvals (S : DllistSession ν) (zvals : Zvals ν) (others : ZvalAddr → ℤ) : DllistSession ν :=
  { S with memory := { S.memory with zvals := zvals }, others := others }

/-- The object with the index `k` and the memory change. -/
def update (S : DllistSession ν) (k : ℕ) (memory : Memory ν) (o : Option (TrackedList ν)) :
    DllistSession ν :=
  { S with memory := memory, objects := S.objects.set k o }

def extend (S : DllistSession ν) : DllistSession ν := { S with objects := S.objects ++ [none] }

def call (emalloc : Emalloc) (S : DllistSession ν) (k : ℕ) (t : TrackedList ν)
    (method : Method ZvalAddr) : DllistSession ν :=
  let r := method.call emalloc S.memory t.intern
  S.update k r.2.1
    (some { ce := t.ce
            intern := r.2.2
            deque := ((method.map S.memory.value).onDeque t.intern.lifo t.deque).2 })

def clone (emalloc : Emalloc) (S : DllistSession ν) (t : TrackedList ν) : DllistSession ν :=
  let r := splDllistObjectClone emalloc S.memory t.ce t.intern
  S.extend.update S.objects.length r.1 (some { ce := t.ce, intern := r.2, deque := t.deque })

end DllistSession

/-- A step. One on an object or with a zval that there is not does nothing. -/
def DllistOp.step (emalloc : Emalloc) (S : DllistSession ν) : DllistOp ν → DllistSession ν
  | new ce =>
    S.extend.update S.objects.length S.memory
      (some { ce := ce, intern := splDllistObjectNew ce, deque := [] })
  | call k method =>
    match S.object k with
    | none => S
    | some t => if ∀ z ∈ method.arg, z ∈ S.memory.zvals.live then S.call emalloc k t method else S
  | setIteratorMode k value =>
    match S.object k with
    | none => S
    | some t =>
      let r : Return ν × DllistObject := t.intern.setIteratorMode value
      S.update k S.memory (some { t with intern := r.2 })
  | clone k =>
    match S.object k with
    | none => S
    | some t => S.clone emalloc t
  | destroy k =>
    match S.object k with
    | none => S
    | some t => S.update k (splDllistObjectFreeStorage S.memory t.intern) none
  | newZval value is_ref =>
    let zs := S.memory.zvals
    let z := emalloc.addr zs.live
    S.onZvals { zs.store z { value := value, refcount := 1, is_ref := is_ref } with
      live := insert z zs.live } fun x => S.others x + one z x
  | addref z =>
    if z ∈ S.memory.zvals.live then
      S.onZvals (S.memory.zvals.addref z) fun x => S.others x + one z x
    else S
  | release z =>
    if 0 < S.others z then
      S.onZvals (S.memory.zvals.zvalPtrDtor z) fun x => S.others x - one z x
    else S
  | write z value is_ref =>
    let zv := S.memory.zvals.zval z
    if 0 < S.others z ∧ (zv.refcount = 1 ∨ zv.is_ref) then
      S.onZvals (S.memory.zvals.store z { zv with value := value, is_ref := is_ref }) S.others
    else S

/-- A run starts with memory of which nothing is allocated. -/
def runDllists (emalloc : Emalloc) (elements : Addr → Element) (zval : ZvalAddr → Zval ν)
    (ops : List (DllistOp ν)) : DllistSession ν :=
  ops.foldl (DllistOp.step emalloc)
    { memory := { elements := elements, live := ∅, zvals := { zval := zval, live := ∅ } }
      objects := []
      others := fun _ => 0 }

/-! ## The invariant -/

variable {m m' : Memory ν} {llist : Llist} {l : List Addr} {d : List ZvalAddr} {t : TrackedList ν}
  {S : DllistSession ν}

theorem Holds.forward_eq (h : Holds m llist l d) : llist.forward m = l := by
  unfold Llist.forward
  rw [h.head]
  exact h.seg.walk_eq h.length_le_walkBound

theorem Holds.backward_eq (h : Holds m llist l d) : llist.backward m = l.reverse := by
  have hlen := h.length_le_walkBound
  unfold Llist.backward
  rw [h.tail, ← List.head?_reverse]
  exact h.seg.reverse.walk_eq (by rwa [List.length_reverse])

theorem Holds.zvals_eq (h : Holds m llist l d) : llist.zvals m = d := by
  have hdata : (l.map m.data).filterMap id = (d.map some).filterMap id := by rw [h.data]
  unfold Llist.zvals
  rw [h.forward_eq]
  simpa [List.filterMap_map] using hdata

namespace TrackedList

/-- The elements of an object: those of its list and the one under its cursor. -/
def region (m : Memory ν) (t : TrackedList ν) : List Addr :=
  t.intern.llist.forward m ++ t.intern.traverse_pointer.toList

/-- An object is well formed: its list is in memory and holds the values of the deque, and its
elements have one reference, and another one if the cursor is on them. -/
structure Owns (m : Memory ν) (t : TrackedList ν) (l : List Addr) (d : List ZvalAddr) : Prop where
  holds : Holds m t.intern.llist l d
  values : Values m d t.deque
  rc : ∀ a ∈ l, m.rc a = 1 + if t.intern.traverse_pointer = some a then 1 else 0
  cursor : ∀ a, t.intern.traverse_pointer = some a → a ∈ m.live ∧ (a ∉ l → m.rc a = 1)

end TrackedList

/-- The elements of an object that may be destroyed. -/
def region (m : Memory ν) (o : Option (TrackedList ν)) : List Addr :=
  o.elim [] fun t => t.region m

/-- The zvals of an object that may be destroyed. -/
def zvalsOf (m : Memory ν) (o : Option (TrackedList ν)) : List ZvalAddr :=
  o.elim [] fun t => t.intern.llist.zvals m

/-- The number of elements of all lists that hold a zval. -/
def DllistSession.holding (S : DllistSession ν) (z : ZvalAddr) : ℕ :=
  (S.objects.map fun o => (zvalsOf S.memory o).count z).sum

/-- An object that is not destroyed is well formed. -/
def Sound (m : Memory ν) (o : Option (TrackedList ν)) : Prop :=
  ∀ t, o = some t → ∃ l d, t.Owns m l d

/-- What holds along every run. -/
structure DllistSession.Good (S : DllistSession ν) : Prop where
  sound : ∀ (k : ℕ) o, S.objects[k]? = some o → Sound S.memory o
  disjoint : ∀ (j k : ℕ) o o', j ≠ k → S.objects[j]? = some o → S.objects[k]? = some o' →
    ∀ a ∈ region S.memory o, a ∉ region S.memory o'
  counted : S.memory.zvals.Counted fun z => S.others z + 2 * S.holding z
  others : ∀ z, 0 ≤ S.others z

namespace TrackedList.Owns

theorem region_eq (h : t.Owns m l d) :
    t.region m = l ++ t.intern.traverse_pointer.toList := by
  unfold TrackedList.region
  rw [h.holds.forward_eq]

theorem region_live (h : t.Owns m l d) {a : Addr} (ha : a ∈ t.region m) : a ∈ m.live := by
  rw [h.region_eq] at ha
  rcases List.mem_append.mp ha with ha | ha
  · exact h.holds.live a ha
  · exact (h.cursor a (by simpa using ha)).1

theorem frame {r : List Addr} (h : t.Owns m l d) (hframe : Frame m m' r)
    (hdisj : ∀ a ∈ t.region m, a ∉ r)
    (hkeep : ∀ x ∈ d, ∀ v, m.zvals.Plain x v → m'.zvals.Plain x v) : t.Owns m' l d := by
  have hsame : ∀ a ∈ t.region m, m'.elements a = m.elements a ∧ a ∈ m'.live :=
    fun a ha => hframe a (h.region_live ha) (hdisj a ha)
  rw [h.region_eq] at hsame
  refine ⟨h.holds.congr fun a ha => hsame a (by simp [ha]), h.values.keep hkeep, ?_, ?_⟩
  · intro a ha
    rw [← h.rc a ha]
    exact congrArg Element.rc (hsame a (by simp [ha])).1
  · intro a ha
    obtain ⟨helem, hlive⟩ := hsame a (by simp [ha])
    refine ⟨hlive, fun hnot => ?_⟩
    rw [← (h.cursor a ha).2 hnot]
    exact congrArg Element.rc helem

end TrackedList.Owns

theorem Sound.frame {o : Option (TrackedList ν)} {r : List Addr} (h : Sound m o)
    (hframe : Frame m m' r) (hdisj : ∀ a ∈ region m o, a ∉ r)
    (hkeep : ∀ x ∈ zvalsOf m o, ∀ v, m.zvals.Plain x v → m'.zvals.Plain x v) :
    Sound m' o ∧ region m' o = region m o ∧ zvalsOf m' o = zvalsOf m o := by
  cases o with
  | none => exact ⟨fun t ht => absurd ht (by simp), rfl, rfl⟩
  | some t =>
    obtain ⟨l, d, howns⟩ := h t rfl
    have hzvals : zvalsOf m (some t) = d := howns.holds.zvals_eq
    rw [hzvals] at hkeep
    have howns' := howns.frame hframe hdisj hkeep
    refine ⟨?_, ?_, ?_⟩
    · intro t' ht'
      rw [← Option.some.inj ht']
      exact ⟨l, d, howns'⟩
    · exact howns'.region_eq.trans howns.region_eq.symm
    · exact howns'.holds.zvals_eq.trans hzvals.symm

theorem holding_set (f f' : Option (TrackedList ν) → ℕ) {o o' : Option (TrackedList ν)} :
    ∀ {objects : List (Option (TrackedList ν))} {k : ℕ}, objects[k]? = some o →
      (∀ j x, j ≠ k → objects[j]? = some x → f' x = f x) →
      ((objects.set k o').map f').sum + f o = (objects.map f).sum + f' o' := by
  intro objects
  induction objects with
  | nil => intro k hk; simp at hk
  | cons p objects ih =>
    intro k hk hsame
    cases k with
    | zero =>
      obtain rfl : p = o := by simpa using hk
      have hrest : objects.map f' = objects.map f := by
        apply List.map_congr_left
        intro x hx
        obtain ⟨j, hj⟩ := List.getElem?_of_mem hx
        exact hsame (j + 1) x (by omega) (by simpa using hj)
      simp only [List.set_cons_zero, List.map_cons, List.sum_cons, hrest]
      omega
    | succ k =>
      have hp := hsame 0 p (by omega) rfl
      have hrest := ih (k := k) (by simpa using hk) fun j x hj hx =>
        hsame (j + 1) x (by omega) (by simpa using hx)
      simp only [List.set_cons_succ, List.map_cons, List.sum_cons, hp]
      omega

namespace DllistSession.Good

theorem region_live {k : ℕ} {o : Option (TrackedList ν)} (h : S.Good) (hk : S.objects[k]? = some o)
    {a : Addr} (ha : a ∈ region S.memory o) : a ∈ S.memory.live := by
  cases o with
  | none => simp [region] at ha
  | some t =>
    obtain ⟨l, d, howns⟩ := h.sound k _ hk t rfl
    exact howns.region_live ha

theorem count_le_holding {k : ℕ} {o : Option (TrackedList ν)} (hk : S.objects[k]? = some o)
    (z : ZvalAddr) : (zvalsOf S.memory o).count z ≤ S.holding z := by
  unfold holding
  apply List.le_sum_of_mem
  exact List.mem_map_of_mem (List.mem_of_getElem? hk)

theorem zvals_live {k : ℕ} {o : Option (TrackedList ν)} (h : S.Good) (hk : S.objects[k]? = some o) :
    ∀ z ∈ zvalsOf S.memory o, z ∈ S.memory.zvals.live := by
  intro z hz
  have hcount := count_le_holding hk z
  have hpos := List.count_pos_iff.mpr hz
  have hothers := h.others z
  exact h.counted.mem_live (by omega)

theorem update {k : ℕ} {o o' : Option (TrackedList ν)} (h : S.Good) (hk : S.objects[k]? = some o)
    (hframe : Frame S.memory m' (region S.memory o)) (hsound : Sound m' o')
    (hregion : ∀ a ∈ region m' o', a ∈ region S.memory o ∨ a ∉ S.memory.live)
    (hkeep : ∀ x ∈ S.memory.zvals.live, ∀ v, S.memory.zvals.Plain x v → m'.zvals.Plain x v)
    (hcounted : m'.zvals.Counted fun z => S.others z + 2 * S.holding z +
      2 * (zvalsOf m' o').count z - 2 * (zvalsOf S.memory o).count z) :
    (S.update k m' o').Good := by
  have hother : ∀ (j : ℕ) x, j ≠ k → S.objects[j]? = some x →
      Sound m' x ∧ region m' x = region S.memory x ∧ zvalsOf m' x = zvalsOf S.memory x :=
    fun j x hj hx => (h.sound j x hx).frame hframe (h.disjoint j k x o hj hx hk)
      fun z hz => hkeep z (h.zvals_live hx z hz)
  have hget : ∀ (j : ℕ) x, (S.objects.set k o')[j]? = some x →
      j = k ∧ x = o' ∨ j ≠ k ∧ S.objects[j]? = some x := by
    intro j x hx
    by_cases hj : j = k
    · subst hj
      rw [List.getElem?_set_self (List.getElem?_eq_some_iff.mp hk).1] at hx
      exact Or.inl ⟨rfl, (Option.some.inj hx).symm⟩
    · rw [List.getElem?_set_ne (Ne.symm hj)] at hx
      exact Or.inr ⟨hj, hx⟩
  have hfresh : ∀ (j : ℕ) x, j ≠ k → S.objects[j]? = some x → ∀ a ∈ region S.memory x,
      a ∉ region m' o' := by
    intro j x hj hx a ha hmem
    rcases hregion a hmem with hold | hnew
    · exact h.disjoint j k x o hj hx hk a ha hold
    · exact hnew (h.region_live hx ha)
  constructor
  · intro j x hx
    rcases hget j x hx with ⟨-, rfl⟩ | ⟨hj, hx⟩
    · exact hsound
    · exact (hother j x hj hx).1
  · intro i j x y hij hx hy a ha
    change a ∈ region m' x at ha
    change a ∉ region m' y
    rcases hget i x hx with ⟨rfl, rfl⟩ | ⟨hi, hx'⟩
    · rcases hget j y hy with ⟨rfl, -⟩ | ⟨hj, hy'⟩
      · exact absurd rfl hij
      · rw [(hother j y hj hy').2.1]
        exact fun hmem => hfresh j y hj hy' a hmem ha
    · rw [(hother i x hi hx').2.1] at ha
      rcases hget j y hy with ⟨rfl, rfl⟩ | ⟨hj, hy'⟩
      · exact hfresh i x hi hx' a ha
      · rw [(hother j y hj hy').2.1]
        exact h.disjoint i j x y hij hx' hy' a ha
  · refine hcounted.congr fun z => ?_
    have hset : ((S.objects.set k o').map fun x => (zvalsOf m' x).count z).sum +
        (zvalsOf S.memory o).count z =
          (S.objects.map fun x => (zvalsOf S.memory x).count z).sum + (zvalsOf m' o').count z :=
      holding_set (fun x => (zvalsOf S.memory x).count z) (fun x => (zvalsOf m' x).count z) hk
        fun j x hj hx => by rw [(hother j x hj hx).2.2]
    have hnew : (S.update k m' o').holding z =
      ((S.objects.set k o').map fun x => (zvalsOf m' x).count z).sum := rfl
    have hold : S.holding z = (S.objects.map fun x => (zvalsOf S.memory x).count z).sum := rfl
    rw [hnew, hold]
    change _ = S.others z + _
    omega
  · exact h.others

theorem extend (h : S.Good) : S.extend.Good ∧ S.extend.objects[S.objects.length]? = some none := by
  have hget : ∀ (j : ℕ) o, S.extend.objects[j]? = some o → S.objects[j]? = some o ∨ o = none := by
    intro j o ho
    change (S.objects ++ [none])[j]? = some o at ho
    rw [List.getElem?_append] at ho
    split at ho
    · exact Or.inl ho
    · right
      have hmem := List.mem_of_getElem? ho
      simpa using hmem
  refine ⟨⟨?_, ?_, ?_, h.others⟩, by simp [DllistSession.extend]⟩
  · intro k o ho
    rcases hget k o ho with ho | rfl
    · exact h.sound k o ho
    · exact fun t ht => absurd ht (by simp)
  · intro i j x y hij hx hy a ha
    rcases hget j y hy with hy | rfl
    · rcases hget i x hx with hx | rfl
      · exact h.disjoint i j x y hij hx hy a ha
      · simp [region] at ha
    · simp [region]
  · refine h.counted.congr fun z => ?_
    have hnew : S.extend.holding z = S.holding z := by
      unfold holding DllistSession.extend
      simp [zvalsOf]
    rw [hnew]
    rfl

theorem onZvals {zvals : Zvals ν} {others : ZvalAddr → ℤ} (h : S.Good)
    (hkeep : ∀ x, 0 < S.holding x → ∀ v, S.memory.zvals.Plain x v → zvals.Plain x v)
    (hcounted : zvals.Counted fun z => others z + 2 * S.holding z) (hothers : ∀ z, 0 ≤ others z) :
    (S.onZvals zvals others).Good := by
  have hsame : ∀ (k : ℕ) o, S.objects[k]? = some o →
      Sound (S.onZvals zvals others).memory o ∧
      region (S.onZvals zvals others).memory o = region S.memory o ∧
      zvalsOf (S.onZvals zvals others).memory o = zvalsOf S.memory o := by
    intro k o ho
    refine (h.sound k o ho).frame (r := []) (fun a ha _ => ⟨rfl, ha⟩) (by simp) fun z hz => ?_
    have hcount := count_le_holding ho z
    have hpos := List.count_pos_iff.mpr hz
    exact hkeep z (by omega)
  constructor
  · exact fun k o ho => (hsame k o ho).1
  · intro i j x y hij hx hy
    rw [(hsame i x hx).2.1, (hsame j y hy).2.1]
    exact h.disjoint i j x y hij hx hy
  · refine hcounted.congr fun z => ?_
    have hnew : (S.onZvals zvals others).holding z = S.holding z := by
      unfold holding
      apply congrArg List.sum
      apply List.map_congr_left
      intro o ho
      obtain ⟨k, hk⟩ := List.getElem?_of_mem ho
      exact congrArg (List.count z) (hsame k o hk).2.2
    rw [hnew]
    rfl
  · exact hothers

end DllistSession.Good

/-! ## Steps -/

theorem DllistSession.object_eq {k : ℕ} (h : S.object k = some t) :
    S.objects[k]? = some (some t) := by
  unfold object at h
  cases hk : S.objects[k]? with
  | none =>
    rw [hk] at h
    cases h
  | some o =>
    rw [hk, Option.join_some] at h
    rw [h]

theorem Becomes.owns {intern' : DllistObject} {d' : List ZvalAddr} {q' : List ν}
    (h : t.Owns m l d) (hobj : intern' = t.intern.setLlist intern'.llist)
    (hb : Becomes m m' intern'.llist l d d') (hq : Values m' d' q') :
    ∃ l', ({ ce := t.ce, intern := intern', deque := q' } : TrackedList ν).Owns m' l' d' ∧
      Elements m m' l l' := by
  obtain ⟨l', hholds, helem⟩ := hb.holds
  have hcursor : intern'.traverse_pointer = t.intern.traverse_pointer := by rw [hobj]; rfl
  refine ⟨l', ⟨hholds, hq, ?_, ?_⟩, helem⟩
  · intro a ha
    change m'.rc a = 1 + if intern'.traverse_pointer = some a then 1 else 0
    rw [hcursor]
    by_cases hmem : a ∈ l
    · rw [helem.kept a ha hmem, h.rc a hmem]
    · obtain ⟨hfresh, hrc⟩ := helem.new a ha hmem
      rw [hrc, if_neg, add_zero]
      exact fun heq => hfresh (h.cursor a heq).1
  · intro a ha
    change intern'.traverse_pointer = some a at ha
    rw [hcursor] at ha
    obtain ⟨hlive, hrc⟩ := h.cursor a ha
    by_cases hmem : a ∈ l
    · have htwo := h.rc a hmem
      rw [if_pos ha] at htwo
      by_cases hmem' : a ∈ l'
      · exact ⟨hholds.live a hmem', fun hnot => absurd hmem' hnot⟩
      · obtain ⟨hrc', hlive'⟩ := helem.gone a hmem hmem' (by omega)
        exact ⟨hlive', fun _ => by omega⟩
    · obtain ⟨hsame, hlive'⟩ := helem.frame a hlive hmem
      refine ⟨hlive', fun _ => ?_⟩
      rw [← hrc hmem]
      exact congrArg Element.rc hsame

namespace DllistSession.Good

variable {k : ℕ}

theorem owns (h : S.Good) (hk : S.object k = some t) :
    ∃ l d, t.Owns S.memory l d ∧ (∀ z ∈ d, z ∈ S.memory.zvals.live) ∧
      ∀ z, 2 * (d.count z : ℤ) ≤ S.others z + 2 * S.holding z := by
  have hk' := DllistSession.object_eq hk
  obtain ⟨l, d, howns⟩ := h.sound k _ hk' t rfl
  have hlive := h.zvals_live hk'
  have hcount := fun z => count_le_holding hk' z
  have hd : zvalsOf S.memory (some t) = d := howns.holds.zvals_eq
  rw [hd] at hlive hcount
  refine ⟨l, d, howns, hlive, fun z => ?_⟩
  have hz := hcount z
  have hothers := h.others z
  omega

theorem call (emalloc : Emalloc) (h : S.Good) (hk : S.object k = some t)
    (method : Method ZvalAddr) (harg : ∀ z ∈ method.arg, z ∈ S.memory.zvals.live) :
    (S.call emalloc k t method).Good := by
  obtain ⟨l, d, howns, hd, hcount⟩ := h.owns hk
  obtain ⟨-, hobj, d', hb, hq⟩ := call_spec emalloc howns.holds howns.values hd method harg
  obtain ⟨l', howns', helem⟩ := Becomes.owns howns hobj hb hq
  have hzvals : zvalsOf S.memory (some t) = d := howns.holds.zvals_eq
  have hregion : region S.memory (some t) = l ++ t.intern.traverse_pointer.toList :=
    howns.region_eq
  refine h.update (DllistSession.object_eq hk) ?_ ?_ ?_ hb.plain ?_
  · rw [hregion]
    exact helem.frame.mono (List.subset_append_left _ _)
  · intro t' ht'
    rw [← Option.some.inj ht']
    exact ⟨l', d', howns'⟩
  · intro a ha
    rw [hregion]
    have ha' : a ∈ TrackedList.region _ _ := ha
    rw [howns'.region_eq] at ha'
    have hcursor : (method.call emalloc S.memory t.intern).2.2.traverse_pointer =
        t.intern.traverse_pointer := by rw [hobj]; rfl
    dsimp only at ha'
    rw [hcursor] at ha'
    rcases List.mem_append.mp ha' with hmem | hmem
    · by_cases hold : a ∈ l
      · exact Or.inl (List.mem_append_left _ hold)
      · exact Or.inr (helem.new a hmem hold).1
    · exact Or.inl (List.mem_append_right _ hmem)
  · have hcounted := hb.counted _ h.counted hcount
    refine hcounted.congr fun z => ?_
    have hzvals' := howns'.holds.zvals_eq
    rw [hzvals]
    change _ = S.others z + 2 * S.holding z + 2 * (Llist.zvals _ _).count z - _
    rw [hzvals']

theorem setIteratorMode (h : S.Good) (hk : S.object k = some t) (value : ℕ) :
    (S.update k S.memory
      (some { t with intern := (t.intern.setIteratorMode value : Return ν × _).2 })).Good := by
  obtain ⟨l, d, howns, -, -⟩ := h.owns hk
  have hobj : (t.intern.setIteratorMode value : Return ν × _).2.llist = t.intern.llist ∧
      (t.intern.setIteratorMode value : Return ν × _).2.traverse_pointer =
        t.intern.traverse_pointer := by
    unfold DllistObject.setIteratorMode
    split <;> exact ⟨rfl, rfl⟩
  generalize (t.intern.setIteratorMode value : Return ν × _).2 = intern' at hobj ⊢
  have hregion : region S.memory (some { t with intern := intern' }) =
      region S.memory (some t) := by
    unfold region TrackedList.region
    dsimp only [Option.elim]
    rw [hobj.1, hobj.2]
  have hzvals : zvalsOf S.memory (some { t with intern := intern' }) =
      zvalsOf S.memory (some t) := by
    unfold zvalsOf
    dsimp only [Option.elim]
    rw [hobj.1]
  refine h.update (DllistSession.object_eq hk) (Frame.refl _ _) ?_ ?_ (fun _ _ _ hv => hv) ?_
  · intro t' ht'
    rw [← Option.some.inj ht']
    refine ⟨l, d, ?_, howns.values, ?_, ?_⟩
    · rw [hobj.1]
      exact howns.holds
    · rw [hobj.2]
      exact howns.rc
    · rw [hobj.2]
      exact howns.cursor
  · rw [hregion]
    exact fun a ha => Or.inl ha
  · refine h.counted.congr fun z => ?_
    rw [hzvals]
    omega

theorem new (h : S.Good) (ce : DllistClass) :
    (S.extend.update S.objects.length S.memory
      (some { ce := ce, intern := splDllistObjectNew ce, deque := [] })).Good := by
  obtain ⟨hextend, hk⟩ := h.extend
  have howns : ({ ce := ce, intern := splDllistObjectNew ce, deque := [] } : TrackedList ν).Owns
      S.memory [] [] :=
    ⟨splPtrLlistInit_holds S.memory, ⟨by simp, rfl⟩, by simp,
      fun a ha => absurd ha (by simp [splDllistObjectNew])⟩
  refine hextend.update hk (Frame.refl _ _) ?_ ?_ (fun _ _ _ hv => hv) ?_
  · intro t' ht'
    rw [← Option.some.inj ht']
    exact ⟨[], [], howns⟩
  · intro a ha
    have ha' : a ∈ TrackedList.region _ _ := ha
    rw [howns.region_eq] at ha'
    simp [splDllistObjectNew] at ha'
  · refine hextend.counted.congr fun z => ?_
    have hzvals := howns.holds.zvals_eq
    change _ = _ + 2 * ((Llist.zvals _ _).count z : ℤ) - 2 * (([] : List ZvalAddr).count z : ℤ)
    rw [hzvals]
    omega

theorem clone (emalloc : Emalloc) (h : S.Good) (hk : S.object k = some t) :
    (S.clone emalloc t).Good := by
  obtain ⟨l, d, howns, hd, hcount⟩ := h.owns hk
  obtain ⟨hextend, hlast⟩ := h.extend
  obtain ⟨l', hholds, hcursor, hnew, hframe, hzvals⟩ :=
    splDllistObjectClone_spec emalloc t.ce howns.holds
  unfold DllistSession.clone
  dsimp only
  generalize splDllistObjectClone emalloc S.memory t.ce t.intern = r at *
  have hkeep : ∀ x v, S.memory.zvals.Plain x v → r.1.zvals.Plain x v := by
    intro x v hplain
    rw [hzvals]
    exact hplain.addrefAll d
  have howns' : ({ ce := t.ce, intern := r.2, deque := t.deque } : TrackedList ν).Owns r.1 l' d := by
    refine ⟨hholds, howns.values.keep fun x _ => hkeep x, fun a ha => (hnew a ha).2, ?_⟩
    intro a ha
    change r.2.traverse_pointer = some a at ha
    rw [hcursor] at ha
    have hmem := List.mem_of_head? ha
    exact ⟨hholds.live a hmem, fun hnot => absurd hmem hnot⟩
  refine hextend.update hlast hframe ?_ ?_ (fun x _ => hkeep x) ?_
  · intro t' ht'
    rw [← Option.some.inj ht']
    exact ⟨l', d, howns'⟩
  · intro a ha
    have ha' : a ∈ TrackedList.region _ _ := ha
    rw [howns'.region_eq] at ha'
    dsimp only at ha'
    rw [hcursor] at ha'
    right
    rcases List.mem_append.mp ha' with hmem | hmem
    · exact (hnew a hmem).1
    · exact (hnew a (List.mem_of_head? (by simpa using hmem))).1
  · rw [hzvals]
    refine (hextend.counted.addrefAll hd).congr fun z => ?_
    have hzvals' := howns'.holds.zvals_eq
    change _ = _ + 2 * ((Llist.zvals _ _).count z : ℤ) - 2 * (([] : List ZvalAddr).count z : ℤ)
    rw [hzvals', List.count_nil]
    omega

theorem destroy (h : S.Good) (hk : S.object k = some t) :
    (S.update k (splDllistObjectFreeStorage S.memory t.intern) none).Good := by
  obtain ⟨l, d, howns, hd, hcount⟩ := h.owns hk
  obtain ⟨m', heq, helem, hzvals⟩ := splDllistObjectFreeStorage_spec howns.holds
  have hregion : region S.memory (some t) = l ++ t.intern.traverse_pointer.toList :=
    howns.region_eq
  have hframe : Frame m' (m'.checkDelref t.intern.traverse_pointer)
      t.intern.traverse_pointer.toList := by
    unfold Memory.checkDelref
    split
    · exact Frame.refl _ _
    · rename_i a ha
      intro x hx hne
      have hxa : a ≠ x := by
        intro heq
        subst heq
        simp [ha] at hne
      rw [Memory.delref_elements, if_neg hxa]
      exact ⟨rfl, Memory.mem_delref_live hx (Ne.symm hxa)⟩
  have hzvals' : (m'.checkDelref t.intern.traverse_pointer).zvals = dropAll d S.memory.zvals := by
    rw [← hzvals]
    unfold Memory.checkDelref
    split
    · rfl
    · exact Memory.delref_zvals _ _
  rw [heq]
  refine h.update (DllistSession.object_eq hk) ?_ (fun t' ht' => absurd ht' (by simp)) ?_ ?_ ?_
  · rw [hregion]
    exact (helem.frame.mono (List.subset_append_left _ _)).trans
      (hframe.mono (List.subset_append_right _ _))
  · simp [region]
  · intro x _ v hplain
    rw [hzvals']
    exact hplain.dropAll d
  · rw [hzvals']
    refine (h.counted.dropAll hcount).congr fun z => ?_
    have hd' : zvalsOf S.memory (some t) = d := howns.holds.zvals_eq
    have hnone : (zvalsOf (m'.checkDelref t.intern.traverse_pointer)
      (none : Option (TrackedList ν))).count z = 0 := rfl
    rw [hd', hnone]
    omega

theorem newZval (emalloc : Emalloc) (h : S.Good) (value : ν) (is_ref : Bool) :
    (DllistOp.step emalloc S (.newZval value is_ref)).Good := by
  have hfresh := emalloc.fresh S.memory.zvals.live
  have hzero := h.counted.dead _ hfresh
  have hothers := h.others (emalloc.addr S.memory.zvals.live)
  have hhold : S.holding (emalloc.addr S.memory.zvals.live) = 0 := by omega
  refine h.onZvals ?_ ?_ ?_
  · intro x hx v hplain
    have hne : x ≠ emalloc.addr S.memory.zvals.live := by
      rintro rfl
      omega
    unfold Plain store
    simp only [Function.update_of_ne hne]
    exact hplain
  · constructor
    · intro x hx
      by_cases hxz : x = emalloc.addr S.memory.zvals.live
      · subst hxz
        simp only [store, Function.update_self, one_self]
        omega
      · have hold : x ∈ S.memory.zvals.live := by simpa [hxz] using hx
        simp only [store, Function.update_of_ne hxz, one_of_ne hxz, add_zero]
        exact h.counted.live x hold
    · intro x hx
      have hxz : x ≠ emalloc.addr S.memory.zvals.live := fun heq => hx (by simp [heq])
      rw [one_of_ne hxz, add_zero]
      exact h.counted.dead x fun hmem => hx (by simp [hmem])
  · intro x
    have hx := h.others x
    unfold one
    split <;> omega

theorem addref (emalloc : Emalloc) (h : S.Good) (z : ZvalAddr) :
    (DllistOp.step emalloc S (.addref z)).Good := by
  unfold DllistOp.step
  dsimp only
  split
  · rename_i hz
    refine h.onZvals (fun x _ v hplain => hplain.addref z) ?_ ?_
    · exact (h.counted.addref hz).congr fun x => by omega
    · intro x
      have hx := h.others x
      unfold one
      split <;> omega
  · exact h

theorem release (emalloc : Emalloc) (h : S.Good) (z : ZvalAddr) :
    (DllistOp.step emalloc S (.release z)).Good := by
  unfold DllistOp.step
  dsimp only
  split
  · rename_i hz
    refine h.onZvals (fun x _ v hplain => hplain.zvalPtrDtor z) ?_ ?_
    · have hlive : z ∈ S.memory.zvals.live := h.counted.mem_live (by omega)
      exact (h.counted.zvalPtrDtor hlive).congr fun x => by omega
    · intro x
      have hx := h.others x
      by_cases heq : x = z
      · rw [heq, one_self]
        omega
      · rw [one_of_ne heq]
        omega
  · exact h

theorem plain_of_holding (h : S.Good) {z : ZvalAddr} (hz : 0 < S.holding z) :
    (S.memory.zvals.zval z).is_ref = false := by
  have hmem : ∃ o ∈ S.objects, z ∈ zvalsOf S.memory o := by
    by_contra hnone
    push Not at hnone
    have hzero : S.holding z = 0 := by
      unfold holding
      apply List.sum_eq_zero
      intro n hn
      obtain ⟨o, ho, rfl⟩ := List.mem_map.mp hn
      exact List.count_eq_zero.mpr (hnone o ho)
    omega
  obtain ⟨o, ho, hzo⟩ := hmem
  obtain ⟨k, hk⟩ := List.getElem?_of_mem ho
  cases o with
  | none => simp [zvalsOf] at hzo
  | some t =>
    obtain ⟨l, d, howns⟩ := h.sound k _ hk t rfl
    have hd : zvalsOf S.memory (some t) = d := howns.holds.zvals_eq
    rw [hd] at hzo
    exact howns.values.plain z hzo

theorem write (emalloc : Emalloc) (h : S.Good) (z : ZvalAddr) (value : ν) (is_ref : Bool) :
    (DllistOp.step emalloc S (.write z value is_ref)).Good := by
  unfold DllistOp.step
  dsimp only
  split
  · rename_i hz
    obtain ⟨hothers, hshared⟩ := hz
    have hlive : z ∈ S.memory.zvals.live := h.counted.mem_live (by omega)
    have hcount := (h.counted.live z hlive).1
    have hhold : S.holding z = 0 := by
      by_contra hne
      rcases hshared with hone | href
      · omega
      · rw [h.plain_of_holding (by omega)] at href
        cases href
    refine h.onZvals ?_ ?_ h.others
    · intro x hx v hplain
      have hne : x ≠ z := by
        rintro rfl
        omega
      unfold Plain store
      simp only [Function.update_of_ne hne]
      exact hplain
    · constructor
      · intro x hx
        have hold := h.counted.live x hx
        by_cases hxz : x = z
        · subst hxz
          simpa only [store, Function.update_self] using hold
        · simpa only [store, Function.update_of_ne hxz] using hold
      · exact h.counted.dead
  · exact h

end DllistSession.Good

theorem DllistOp.step_good (emalloc : Emalloc) (h : S.Good) (op : DllistOp ν) :
    (op.step emalloc S).Good := by
  cases op with
  | new ce => exact h.new ce
  | call k method =>
    unfold DllistOp.step
    dsimp only
    split
    · exact h
    · rename_i t hk
      split
      · rename_i harg
        exact h.call emalloc hk method harg
      · exact h
  | setIteratorMode k value =>
    unfold DllistOp.step
    dsimp only
    split
    · exact h
    · rename_i t hk
      exact h.setIteratorMode hk value
  | clone k =>
    unfold DllistOp.step
    dsimp only
    split
    · exact h
    · rename_i t hk
      exact h.clone emalloc hk
  | destroy k =>
    unfold DllistOp.step
    dsimp only
    split
    · exact h
    · rename_i t hk
      exact h.destroy hk
  | newZval value is_ref => exact h.newZval emalloc value is_ref
  | addref z => exact h.addref emalloc z
  | release z => exact h.release emalloc z
  | write z value is_ref => exact h.write emalloc z value is_ref

theorem runDllists_good (emalloc : Emalloc) (elements : Addr → Element)
    (zval : ZvalAddr → Zval ν) (ops : List (DllistOp ν)) :
    (runDllists emalloc elements zval ops).Good := by
  have hfold : ∀ (ops : List (DllistOp ν)) (S : DllistSession ν), S.Good →
      (ops.foldl (DllistOp.step emalloc) S).Good := by
    intro ops
    induction ops with
    | nil => exact fun S hS => hS
    | cons op ops ih => exact fun S hS => ih _ (op.step_good emalloc hS)
  apply hfold
  refine ⟨by simp, by simp, ⟨by simp, fun z _ => ?_⟩, fun z => le_rfl⟩
  simp [DllistSession.holding]

/-! ## The lists of a run -/

/-- The list in memory is the deque: read from the head, and backwards from the tail, it has the
values of the deque, and its count is their number. -/
structure TrackedList.IsDeque (m : Memory ν) (t : TrackedList ν) : Prop where
  values : (t.intern.llist.forward m).map (fun a => (m.data a).map m.value) = t.deque.map some
  backward : t.intern.llist.backward m = (t.intern.llist.forward m).reverse
  count : t.intern.llist.count = t.deque.length

def TrackedList.Answers (emalloc : Emalloc) (m : Memory ν) (t : TrackedList ν) : Prop :=
  ∀ method : Method ZvalAddr, (∀ z ∈ method.arg, z ∈ m.zvals.live) →
    (method.call emalloc m t.intern).1 =
      ((method.map m.value).onDeque t.intern.lifo t.deque).1

/-- The refcount of every zval is `n` for each element that holds it, and the references of the
rest of the program. -/
def DllistSession.RaisedBy (n : ℤ) (S : DllistSession ν) : Prop :=
  ∀ z ∈ S.memory.zvals.live,
    (S.memory.zvals.zval z).refcount = S.others z + n * S.holding z

/-- Along every run the lists are deques, and each element holds two references. -/
theorem dllist_runs (emalloc : Emalloc) (elements : Addr → Element) (zval : ZvalAddr → Zval ν)
    (ops : List (DllistOp ν)) :
    let S := runDllists emalloc elements zval ops
    (∀ t, some t ∈ S.objects → t.IsDeque S.memory ∧ t.Answers emalloc S.memory) ∧
      S.RaisedBy 2 := by
  intro S
  have h : S.Good := runDllists_good emalloc elements zval ops
  refine ⟨?_, fun z hz => (h.counted.live z hz).1⟩
  intro t ht
  obtain ⟨k, hk⟩ := List.getElem?_of_mem ht
  have hobj : S.object k = some t := by
    unfold DllistSession.object
    rw [hk, Option.join_some]
  obtain ⟨l, d, howns, hd, -⟩ := h.owns hobj
  refine ⟨⟨?_, ?_, ?_⟩, ?_⟩
  · have hdata := congrArg (List.map (Option.map S.memory.value)) howns.holds.data
    rw [howns.holds.forward_eq, ← howns.values.value]
    simpa [List.map_map, Function.comp_def] using hdata
  · rw [howns.holds.backward_eq, howns.holds.forward_eq]
  · rw [howns.holds.count, howns.holds.length_eq, howns.values.length_eq]
  · intro method harg
    exact (call_spec emalloc howns.holds howns.values hd method harg).1

/-! ## A sample run -/

def nextBlock : Emalloc where
  addr := fun s => s.val.foldr (· + ·) 0 + 1
  fresh := fun s hs => by
    have hle : ∀ (t : Multiset ℕ), ∀ x ∈ t, x ≤ t.foldr (· + ·) 0 := by
      intro t
      induction t using Multiset.induction_on with
      | empty => simp
      | cons y t ih =>
        intro x hx
        rw [Multiset.foldr_cons]
        rcases Multiset.mem_cons.mp hx with rfl | hx
        · omega
        · have := ih x hx
          omega
    have := hle s.val _ hs
    omega

/-- A queue into which one zval is pushed twice, and a clone of it. -/
def sampleQueue : List (DllistOp ℕ) :=
  [.newZval 7 false, .new .SplQueue, .call 0 (.push 1), .call 0 (.push 1), .clone 0]

def sampleSession : DllistSession ℕ :=
  runDllists nextBlock (fun _ => ⟨none, none, 0, none⟩) (fun _ => ⟨0, 0, false⟩) sampleQueue

theorem sampleSession_raised :
    (sampleSession.memory.zvals.zval 1).refcount = 9 ∧ sampleSession.others 1 = 1 ∧
      sampleSession.holding 1 = 4 ∧ sampleSession.RaisedBy 2 :=
  ⟨by decide, by decide, by decide, (dllist_runs nextBlock _ _ sampleQueue).2⟩

/-- An element does not hold one reference only. -/
theorem not_raisedBy_one : ¬ sampleSession.RaisedBy 1 := by
  intro h
  have hone := h 1 (by decide)
  revert hone
  decide

end PhpRuntime.Spl

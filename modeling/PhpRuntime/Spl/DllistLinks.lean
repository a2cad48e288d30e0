import PhpRuntime.Spl.Dllist

/-!
# The list in memory

`Holds m llist l d` says that `llist` is the doubly linked list of the elements `l`, which
hold the zvals `d`. For every function on lists there is one statement of what it does to
`l` and `d`, which elements it leaves alone (`Frame`), and what it does to the zvals.
-/

set_option autoImplicit false

namespace PhpRuntime.Spl

open PhpRuntime.Lib

variable {ν : Type} {m m' m'' : Memory ν} {llist : Llist} {l : List Addr} {d : List ZvalAddr}
  {a : Addr} {z : ZvalAddr}

/-- The list `llist` consists of the elements `l` with the zvals `d`. -/
structure Holds (m : Memory ν) (llist : Llist) (l : List Addr) (d : List ZvalAddr) : Prop where
  seg : Seg m.next m.prev none l none
  nodup : l.Nodup
  live : ∀ a ∈ l, a ∈ m.live
  head : llist.head = l.head?
  tail : llist.tail = l.getLast?
  count : llist.count = l.length
  data : l.map m.data = d.map some

/-- The allocated elements outside `l` are left alone. -/
def Frame (m m' : Memory ν) (l : List Addr) : Prop :=
  ∀ a ∈ m.live, a ∉ l → m'.elements a = m.elements a ∧ a ∈ m'.live

theorem Frame.refl (m : Memory ν) (l : List Addr) : Frame m m l := fun _ ha _ => ⟨rfl, ha⟩

theorem Frame.trans (h : Frame m m' l) (h' : Frame m' m'' l) : Frame m m'' l := by
  intro a ha hl
  obtain ⟨helem, hlive⟩ := h a ha hl
  obtain ⟨helem', hlive'⟩ := h' a hlive hl
  exact ⟨helem'.trans helem, hlive'⟩

theorem Frame.mono {l' : List Addr} (h : Frame m m' l) (hsub : l ⊆ l') : Frame m m' l' :=
  fun a ha hl => h a ha fun hmem => hl (hsub hmem)

/-- A list with the elements `l` comes to have the elements `l'`: the new ones have not been
in use, those that are gone are let go, and nothing happens to any other element. -/
structure Elements (m m' : Memory ν) (l l' : List Addr) : Prop where
  new : ∀ a ∈ l', a ∉ l → a ∉ m.live ∧ m'.rc a = 1
  kept : ∀ a ∈ l', a ∈ l → m'.rc a = m.rc a
  gone : ∀ a ∈ l, a ∉ l' → m.rc a ≠ 1 → m'.rc a = m.rc a - 1 ∧ a ∈ m'.live
  frame : Frame m m' l

theorem Elements.refl (m : Memory ν) (l : List Addr) : Elements m m l l where
  new := fun _ ha hnot => absurd ha hnot
  kept := fun _ _ _ => rfl
  gone := fun _ ha hnot => absurd ha hnot
  frame := Frame.refl m l

theorem Elements.congr {l' : List Addr} (h : Elements m m' l l')
    (helem : m''.elements = m'.elements) (hlive : m''.live = m'.live) : Elements m m'' l l' where
  new := fun a ha hnot => by
    unfold Memory.rc
    rw [helem]
    exact h.new a ha hnot
  kept := fun a ha hmem => by
    unfold Memory.rc
    rw [helem]
    exact h.kept a ha hmem
  gone := fun a ha hnot hrc => by
    unfold Memory.rc
    rw [helem, hlive]
    exact h.gone a ha hnot hrc
  frame := fun a ha hl => by
    rw [helem, hlive]
    exact h.frame a ha hl

theorem Elements.trans_of_subset {l' l'' : List Addr} (h : Elements m m' l l')
    (h' : Elements m' m'' l' l'') (hsub : l' ⊆ l) (hsub' : l'' ⊆ l') : Elements m m'' l l'' where
  new := fun a ha hnot => absurd (hsub (hsub' ha)) hnot
  kept := fun a ha hmem => (h'.kept a ha (hsub' ha)).trans (h.kept a (hsub' ha) hmem)
  gone := by
    intro a ha hnot hrc
    by_cases hmem : a ∈ l'
    · have hkept := h.kept a hmem ha
      rw [← hkept] at hrc ⊢
      exact h'.gone a hmem hnot hrc
    · obtain ⟨hrc', hlive⟩ := h.gone a ha hmem hrc
      obtain ⟨helem, hlive'⟩ := h'.frame a hlive hmem
      refine ⟨?_, hlive'⟩
      rw [← hrc']
      exact congrArg Element.rc helem
  frame := h.frame.trans fun a ha hl => h'.frame a ha fun hmem => hl (hsub hmem)

theorem Holds.congr (h : Holds m llist l d)
    (hsame : ∀ a ∈ l, m'.elements a = m.elements a ∧ a ∈ m'.live) : Holds m' llist l d where
  seg := h.seg.congr (fun a ha => congrArg Element.next (hsame a ha).1)
    (fun a ha => congrArg Element.prev (hsame a ha).1)
  nodup := h.nodup
  live := fun a ha => (hsame a ha).2
  head := h.head
  tail := h.tail
  count := h.count
  data := by
    rw [← h.data]
    exact List.map_congr_left fun a ha => congrArg Element.data (hsame a ha).1

theorem Holds.frame {l' : List Addr} (h : Holds m llist l d) (hframe : Frame m m' l')
    (hdisj : ∀ a ∈ l, a ∉ l') : Holds m' llist l d :=
  h.congr fun a ha => hframe a (h.live a ha) (hdisj a ha)

theorem Holds.length_eq (h : Holds m llist l d) : l.length = d.length := by
  have hlen := congrArg List.length h.data
  simpa using hlen

/-! ## What the steps do to the elements -/

namespace Memory

theorem storeAt_elements (m : Memory ν) (p : Option Addr) (f : Element → Element) (x : Addr) :
    (m.storeAt p f).elements x = if p = some x then f (m.elements x) else m.elements x := rfl

theorem storeAt_next_prev (m : Memory ν) (p q : Option Addr) (x : Addr) :
    (m.storeAt p fun e => { e with next := q }).prev x = m.prev x := by
  unfold prev
  rw [storeAt_elements]
  split <;> rfl

theorem storeAt_prev_next (m : Memory ν) (p q : Option Addr) (x : Addr) :
    (m.storeAt p fun e => { e with prev := q }).next x = m.next x := by
  unfold next
  rw [storeAt_elements]
  split <;> rfl

@[simp] theorem storeAt_live (m : Memory ν) (p : Option Addr) (f : Element → Element) :
    (m.storeAt p f).live = m.live := rfl

@[simp] theorem storeAt_zvals (m : Memory ν) (p : Option Addr) (f : Element → Element) :
    (m.storeAt p f).zvals = m.zvals := rfl

@[simp] theorem zvalDtor_elements (m : Memory ν) (a : Addr) :
    (m.zvalDtor a).elements = m.elements := by
  unfold zvalDtor
  split <;> rfl

@[simp] theorem zvalDtor_live (m : Memory ν) (a : Addr) : (m.zvalDtor a).live = m.live := by
  unfold zvalDtor
  split <;> rfl

theorem zvalDtor_zvals (h : m.data a = some z) :
    (m.zvalDtor a).zvals = m.zvals.zvalPtrDtor z := by
  unfold zvalDtor
  rw [h]
  rfl

@[simp] theorem zvalCtor_elements (m : Memory ν) (a : Addr) :
    (m.zvalCtor a).elements = m.elements := by
  unfold zvalCtor
  split <;> rfl

@[simp] theorem zvalCtor_live (m : Memory ν) (a : Addr) : (m.zvalCtor a).live = m.live := by
  unfold zvalCtor
  split <;> rfl

theorem zvalCtor_zvals (h : m.data a = some z) : (m.zvalCtor a).zvals = m.zvals.addref z := by
  unfold zvalCtor
  rw [h]
  rfl

@[simp] theorem zvalPtrDtor_elements (m : Memory ν) (p : Option ZvalAddr) :
    (m.zvalPtrDtor p).elements = m.elements := by
  unfold zvalPtrDtor
  split <;> rfl

@[simp] theorem zvalPtrDtor_live (m : Memory ν) (p : Option ZvalAddr) :
    (m.zvalPtrDtor p).live = m.live := by
  unfold zvalPtrDtor
  split <;> rfl

theorem delref_elements (m : Memory ν) (a x : Addr) :
    (m.delref a).elements x =
      if a = x then { m.elements x with rc := (m.elements x).rc - 1 } else m.elements x := by
  unfold delref
  dsimp only
  split <;> simp [storeAt_elements]

@[simp] theorem delref_zvals (m : Memory ν) (a : Addr) : (m.delref a).zvals = m.zvals := by
  unfold delref
  dsimp only
  split <;> rfl

theorem mem_delref_live {x : Addr} (hx : x ∈ m.live) (hne : x ≠ a) : x ∈ (m.delref a).live := by
  unfold delref
  dsimp only
  split
  · exact Finset.mem_erase.mpr ⟨hne, hx⟩
  · exact hx

@[simp] theorem checkAddref_live (m : Memory ν) (p : Option Addr) :
    (m.checkAddref p).live = m.live := rfl

@[simp] theorem checkAddref_zvals (m : Memory ν) (p : Option Addr) :
    (m.checkAddref p).zvals = m.zvals := rfl

end Memory

/-- Only the counters of the elements may change. -/
def SameLinks (m m' : Memory ν) : Prop :=
  (∀ x, m'.next x = m.next x ∧ m'.prev x = m.prev x ∧ m'.data x = m.data x) ∧ m.live ⊆ m'.live

theorem Holds.sameLinks (h : Holds m llist l d) (hsame : SameLinks m m') :
    Holds m' llist l d where
  seg := h.seg.congr (fun a _ => (hsame.1 a).1) (fun a _ => (hsame.1 a).2.1)
  nodup := h.nodup
  live := fun a ha => hsame.2 (h.live a ha)
  head := h.head
  tail := h.tail
  count := h.count
  data := by
    rw [← h.data]
    exact List.map_congr_left fun a _ => (hsame.1 a).2.2

/-! ## Letting an element go -/

theorem letGo_zvals (h : m.data a = some z) : (letGo m a).2.zvals = m.zvals.zvalPtrDtor z := by
  unfold letGo
  dsimp only
  rw [Memory.delref_zvals, Memory.storeAt_zvals, Memory.zvalDtor_zvals h]

/-! ## The functions on lists -/

theorem Holds.tail_of_append (h : Holds m llist (l ++ [a]) d) : llist.tail = some a := by
  rw [h.tail, List.getLast?_concat]

/-- The memory with a new element `e` and a store to one of its neighbours. -/
def addElement (emalloc : Emalloc) (m : Memory ν) (e : Element) (p : Option Addr)
    (f : Element → Element) : Memory ν :=
  (m.emalloc emalloc e).2.storeAt p f

theorem addElement_new {emalloc : Emalloc} {p : Option Addr} (hp : p ≠ some (emalloc.addr m.live))
    (e : Element) (f : Element → Element) :
    (addElement emalloc m e p f).elements (emalloc.addr m.live) = e := by
  unfold addElement
  rw [Memory.storeAt_elements, if_neg hp]
  exact if_pos rfl

theorem addElement_old {emalloc : Emalloc} {x : Addr} (hx : x ≠ emalloc.addr m.live)
    (e : Element) (p : Option Addr) (f : Element → Element) :
    (addElement emalloc m e p f).elements x =
      if p = some x then f (m.elements x) else m.elements x := by
  have hx' : ¬ some (emalloc.addr m.live) = some x := fun heq => hx (Option.some.inj heq).symm
  unfold addElement Memory.emalloc
  dsimp only
  rw [Memory.storeAt_elements]
  simp only [Memory.storeAt_elements, if_neg hx']

theorem addElement_live (emalloc : Emalloc) (m : Memory ν) (e : Element) (p : Option Addr)
    (f : Element → Element) :
    (addElement emalloc m e p f).live = insert (emalloc.addr m.live) m.live := rfl

theorem addElement_frame {emalloc : Emalloc} {p : Option Addr} (hp : ∀ x, p = some x → x ∈ l)
    (e : Element) (f : Element → Element) : Frame m (addElement emalloc m e p f) l := by
  intro x hx hxl
  have hne : x ≠ emalloc.addr m.live := fun heq => emalloc.fresh m.live (heq ▸ hx)
  constructor
  · rw [addElement_old hne, if_neg fun heq => hxl (hp x heq)]
  · rw [addElement_live]
    exact Finset.mem_insert_of_mem hx

/-- `spl_ptr_llist_push` appends a new element. -/
theorem splPtrLlistPush_holds (emalloc : Emalloc) (h : Holds m llist l d) (z : ZvalAddr) :
    let r := splPtrLlistPush emalloc m llist z
    Holds r.1 r.2 (l ++ [emalloc.addr m.live]) (d ++ [z]) ∧
      Elements m r.1 l (l ++ [emalloc.addr m.live]) ∧ r.1.zvals = m.zvals.addref z ∧ r.1.live = insert (emalloc.addr m.live) m.live := by
  intro r
  have hnot : ∀ x ∈ l, x ≠ emalloc.addr m.live := fun x hx heq =>
    emalloc.fresh m.live (heq ▸ h.live x hx)
  have hmem : ∀ x, llist.tail = some x → x ∈ l := fun x hx =>
    List.mem_of_getLast? (h.tail.symm.trans hx)
  have hr : r.1 = (addElement emalloc m { data := some z, rc := 1, prev := llist.tail, next := none }
      llist.tail fun e => { e with next := some (emalloc.addr m.live) }).zvalCtor
        (emalloc.addr m.live) := rfl
  have hnew : r.1.elements (emalloc.addr m.live) =
      { data := some z, rc := 1, prev := llist.tail, next := none } := by
    rw [hr, Memory.zvalCtor_elements]
    exact addElement_new (fun heq => hnot _ (hmem _ heq) rfl) _ _
  have hold : ∀ x ∈ l, r.1.elements x =
      if l.getLast? = some x then { m.elements x with next := some (emalloc.addr m.live) }
      else m.elements x := by
    intro x hx
    rw [hr, Memory.zvalCtor_elements, addElement_old (hnot x hx), h.tail]
  have hlive : r.1.live = insert (emalloc.addr m.live) m.live := by
    rw [hr, Memory.zvalCtor_live, addElement_live]
  refine ⟨⟨?_, ?_, ?_, ?_, ?_, ?_, ?_⟩, ?_, ?_, hlive⟩
  · refine Seg.push_back h.seg h.nodup (congrArg Element.next hnew) ?_ ?_ ?_
    · rw [← h.tail]
      exact congrArg Element.prev hnew
    · intro x hx
      unfold Memory.next
      rw [hold x hx]
      split <;> rfl
    · intro x hx
      unfold Memory.prev
      rw [hold x hx]
      split <;> rfl
  · rw [List.nodup_append]
    exact ⟨h.nodup, List.nodup_singleton _, by simpa using hnot⟩
  · intro x hx
    rw [hlive]
    rcases List.mem_append.mp hx with hx | hx
    · exact Finset.mem_insert_of_mem (h.live x hx)
    · rw [List.mem_singleton.mp hx]
      exact Finset.mem_insert_self _ _
  · change (if llist.tail.isSome then llist.head else some (emalloc.addr m.live)) = _
    rw [h.tail, h.head]
    cases l <;> simp
  · change some (emalloc.addr m.live) = _
    rw [List.getLast?_concat]
  · change llist.count + 1 = _
    rw [h.count, List.length_append]
    rfl
  · rw [List.map_append, List.map_append, ← h.data]
    congr 1
    · apply List.map_congr_left
      intro x hx
      unfold Memory.data
      rw [hold x hx]
      split <;> rfl
    · exact congrArg (fun e => [Element.data e]) hnew
  · refine ⟨fun x hx hxl => ?_, fun x _ hxl => ?_, fun x hx hxl => ?_, fun x hx hxl => ?_⟩
    · rw [List.mem_singleton.mp ((List.mem_append.mp hx).resolve_left hxl)]
      exact ⟨emalloc.fresh m.live, congrArg Element.rc hnew⟩
    · unfold Memory.rc
      rw [hold x hxl]
      split <;> rfl
    · exact absurd (List.mem_append_left _ hx) hxl
    · rw [hr, Memory.zvalCtor_elements, Memory.zvalCtor_live]
      exact addElement_frame hmem _ _ x hx hxl
  · rw [hr] at hnew ⊢
    rw [Memory.zvalCtor_elements] at hnew
    rw [Memory.zvalCtor_zvals (congrArg Element.data hnew)]
    rfl

/-- `spl_ptr_llist_unshift` puts a new element in front. -/
theorem splPtrLlistUnshift_holds (emalloc : Emalloc) (h : Holds m llist l d) (z : ZvalAddr) :
    let r := splPtrLlistUnshift emalloc m llist z
    Holds r.1 r.2 (emalloc.addr m.live :: l) (z :: d) ∧
      Elements m r.1 l (emalloc.addr m.live :: l) ∧ r.1.zvals = m.zvals.addref z ∧ r.1.live = insert (emalloc.addr m.live) m.live := by
  intro r
  have hnot : ∀ x ∈ l, x ≠ emalloc.addr m.live := fun x hx heq =>
    emalloc.fresh m.live (heq ▸ h.live x hx)
  have hmem : ∀ x, llist.head = some x → x ∈ l := fun x hx =>
    List.mem_of_head? (h.head.symm.trans hx)
  have hr : r.1 = (addElement emalloc m { data := some z, rc := 1, prev := none, next := llist.head }
      llist.head fun e => { e with prev := some (emalloc.addr m.live) }).zvalCtor
        (emalloc.addr m.live) := rfl
  have hnew : r.1.elements (emalloc.addr m.live) =
      { data := some z, rc := 1, prev := none, next := llist.head } := by
    rw [hr, Memory.zvalCtor_elements]
    exact addElement_new (fun heq => hnot _ (hmem _ heq) rfl) _ _
  have hold : ∀ x ∈ l, r.1.elements x =
      if l.head? = some x then { m.elements x with prev := some (emalloc.addr m.live) }
      else m.elements x := by
    intro x hx
    rw [hr, Memory.zvalCtor_elements, addElement_old (hnot x hx), h.head]
  have hlive : r.1.live = insert (emalloc.addr m.live) m.live := by
    rw [hr, Memory.zvalCtor_live, addElement_live]
  refine ⟨⟨?_, ?_, ?_, ?_, ?_, ?_, ?_⟩, ?_, ?_, hlive⟩
  · refine Seg.push_front h.seg h.nodup ?_ (congrArg Element.prev hnew) ?_ ?_
    · rw [← h.head]
      exact congrArg Element.next hnew
    · intro x hx
      unfold Memory.next
      rw [hold x hx]
      split <;> rfl
    · intro x hx
      unfold Memory.prev
      rw [hold x hx]
      split <;> rfl
  · exact List.nodup_cons.mpr ⟨fun hin => hnot _ hin rfl, h.nodup⟩
  · intro x hx
    rw [hlive]
    rcases List.mem_cons.mp hx with rfl | hx
    · exact Finset.mem_insert_self _ _
    · exact Finset.mem_insert_of_mem (h.live x hx)
  · rfl
  · change (if llist.head.isSome then llist.tail else some (emalloc.addr m.live)) = _
    rw [h.tail, h.head]
    cases l <;> simp
  · change llist.count + 1 = _
    rw [h.count, List.length_cons]
    rfl
  · rw [List.map_cons, List.map_cons, ← h.data]
    congr 1
    · exact congrArg Element.data hnew
    · apply List.map_congr_left
      intro x hx
      unfold Memory.data
      rw [hold x hx]
      split <;> rfl
  · refine ⟨fun x hx hxl => ?_, fun x _ hxl => ?_, fun x hx hxl => ?_, fun x hx hxl => ?_⟩
    · rw [(List.mem_cons.mp hx).resolve_right hxl]
      exact ⟨emalloc.fresh m.live, congrArg Element.rc hnew⟩
    · unfold Memory.rc
      rw [hold x hxl]
      split <;> rfl
    · exact absurd (List.mem_cons_of_mem _ hx) hxl
    · rw [hr, Memory.zvalCtor_elements, Memory.zvalCtor_live]
      exact addElement_frame hmem _ _ x hx hxl
  · rw [hr] at hnew ⊢
    rw [Memory.zvalCtor_elements] at hnew
    rw [Memory.zvalCtor_zvals (congrArg Element.data hnew)]
    rfl

/-! ## Taking an element out -/

/-- The element `e` with the links that it has once its neighbour `a` is gone. -/
def bypass (m : Memory ν) (a x : Addr) : Element :=
  { m.elements x with
    next := if m.prev a = some x then m.next a else (m.elements x).next
    prev := if m.next a = some x then m.prev a else (m.elements x).prev }

/-- The element `a` is bypassed by its neighbours; nothing else but `a` itself is changed. -/
def Bypassed (m m' : Memory ν) (a : Addr) : Prop :=
  ∀ x, x ≠ a → m'.elements x = bypass m a x ∧ (x ∈ m.live → x ∈ m'.live)

/-- The element `a` is let go. -/
def Released (m m' : Memory ν) (a : Addr) : Prop :=
  m'.rc a = m.rc a - 1 ∧ (a ∈ m.live → m.rc a ≠ 1 → a ∈ m'.live)

variable {s t : List Addr} {ds dt : List ZvalAddr}

theorem Holds.data_middle (h : Holds m llist (s ++ a :: t) (ds ++ z :: dt))
    (hlen : s.length = ds.length) :
    m.data a = some z ∧ s.map m.data = ds.map some ∧ t.map m.data = dt.map some := by
  have hdata := h.data
  rw [List.map_append, List.map_append] at hdata
  obtain ⟨hs, hat⟩ := List.append_inj hdata (by simpa using hlen)
  rw [List.map_cons, List.map_cons, List.cons.injEq] at hat
  exact ⟨hat.1, hs, hat.2⟩

theorem Holds.neighbours (h : Holds m llist (s ++ a :: t) d) :
    m.prev a = s.getLast? ∧ m.next a = t.head? := by
  simpa using Seg.at_middle h.seg

theorem Bypassed.frame (h : Holds m llist (s ++ a :: t) d) (hby : Bypassed m m' a) :
    Frame m m' (s ++ a :: t) := by
  obtain ⟨hprev, hnext⟩ := h.neighbours
  intro x hx hxl
  have hxs : x ∉ s := fun hmem => hxl (by simp [hmem])
  have hxt : x ∉ t := fun hmem => hxl (by simp [hmem])
  have hxa : x ≠ a := fun heq => hxl (by simp [heq])
  obtain ⟨helem, hlive⟩ := hby x hxa
  refine ⟨?_, hlive hx⟩
  rw [helem]
  unfold bypass
  rw [if_neg, if_neg]
  · rw [hprev]
    exact fun heq => hxs (List.mem_of_getLast? heq)
  · rw [hnext]
    exact fun heq => hxt (List.mem_of_head? heq)

theorem Bypassed.elements (h : Holds m llist (s ++ a :: t) d) (hby : Bypassed m m' a)
    (hrel : Released m m' a) : Elements m m' (s ++ a :: t) (s ++ t) where
  new := by
    intro x hx hnot
    refine absurd ?_ hnot
    rcases List.mem_append.mp hx with hx | hx
    · exact List.mem_append_left _ hx
    · exact List.mem_append_right _ (List.mem_cons_of_mem a hx)
  kept := by
    intro x hx _
    have hne : x ≠ a := by
      rintro rfl
      have hnodup := h.nodup
      rw [List.nodup_append] at hnodup
      rcases List.mem_append.mp hx with hx | hx
      · exact hnodup.2.2 x hx x (by simp) rfl
      · exact (List.nodup_cons.mp hnodup.2.1).1 hx
    exact (congrArg Element.rc (hby x hne).1).trans rfl
  gone := by
    intro x hx hnot hrc
    have hxa : x = a := by
      by_contra hne
      apply hnot
      simpa [hne] using hx
    subst hxa
    exact ⟨hrel.1, hrel.2 (h.live x hx) hrc⟩
  frame := Bypassed.frame h hby

theorem Bypassed.holds {llist' : Llist} (h : Holds m llist (s ++ a :: t) (ds ++ z :: dt))
    (hlen : s.length = ds.length) (hby : Bypassed m m' a) (hhead : llist'.head = (s ++ t).head?)
    (htail : llist'.tail = (s ++ t).getLast?) (hcount : llist'.count = llist.count - 1) :
    Holds m' llist' (s ++ t) (ds ++ dt) := by
  obtain ⟨-, hs, ht⟩ := h.data_middle hlen
  have hne : ∀ x ∈ s ++ t, x ≠ a := by
    rintro x hx rfl
    have hnodup := h.nodup
    rw [List.nodup_append] at hnodup
    rcases List.mem_append.mp hx with hx | hx
    · exact hnodup.2.2 x hx x (by simp) rfl
    · exact (List.nodup_cons.mp hnodup.2.1).1 hx
  have helem : ∀ x ∈ s ++ t, m'.elements x = bypass m a x := fun x hx => (hby x (hne x hx)).1
  refine ⟨?_, ?_, ?_, hhead, htail, ?_, ?_⟩
  · refine Seg.erase h.seg h.nodup ?_ ?_
    · exact fun x hx => congrArg Element.next (helem x hx)
    · exact fun x hx => congrArg Element.prev (helem x hx)
  · exact h.nodup.sublist (List.Sublist.append_left (List.sublist_cons_self a t) s)
  · intro x hx
    apply (hby x (hne x hx)).2
    apply h.live
    rcases List.mem_append.mp hx with hx | hx
    · exact List.mem_append_left _ hx
    · exact List.mem_append_right _ (List.mem_cons_of_mem a hx)
  · rw [hcount, h.count]
    simp
    omega
  · rw [List.map_append, List.map_append, ← hs, ← ht]
    congr 1
    all_goals
      apply List.map_congr_left
      intro x hx
      exact (congrArg Element.data (helem x (by simp [hx]))).trans rfl

theorem Bypassed.frame_right (hby : Bypassed m m' a) (hframe : ∀ x, x ≠ a →
    m''.elements x = m'.elements x ∧ (x ∈ m'.live → x ∈ m''.live)) : Bypassed m m'' a := by
  intro x hx
  obtain ⟨helem, hlive⟩ := hby x hx
  obtain ⟨helem', hlive'⟩ := hframe x hx
  exact ⟨helem'.trans helem, fun hmem => hlive' (hlive hmem)⟩

theorem letGo_other (m : Memory ν) {x : Addr} (hx : x ≠ a) :
    (letGo m a).2.elements x = m.elements x ∧ (x ∈ m.live → x ∈ (letGo m a).2.live) := by
  unfold letGo
  dsimp only
  constructor
  · rw [Memory.delref_elements, if_neg (Ne.symm hx), Memory.storeAt_elements,
      if_neg (fun heq => hx (Option.some.inj heq).symm), Memory.zvalDtor_elements]
  · intro hmem
    exact Memory.mem_delref_live (by simpa using hmem) hx

theorem delref_rc (m : Memory ν) (a : Addr) : (m.delref a).rc a = m.rc a - 1 := by
  unfold Memory.rc
  rw [Memory.delref_elements, if_pos rfl]

theorem mem_delref_self (ha : a ∈ m.live) (hrc : m.rc a ≠ 1) : a ∈ (m.delref a).live := by
  have hne : (m.storeAt (some a) fun e => { e with rc := e.rc - 1 }).rc a ≠ 0 := by
    unfold Memory.rc at hrc ⊢
    rw [Memory.storeAt_elements, if_pos rfl]
    change (m.elements a).rc - 1 ≠ 0
    omega
  unfold Memory.delref
  dsimp only
  rw [if_neg hne]
  exact ha

theorem letGo_released (m : Memory ν) (a : Addr) : Released m (letGo m a).2 a := by
  have hrc : ((m.zvalDtor a).storeAt (some a) fun e => { e with data := none }).rc a = m.rc a := by
    unfold Memory.rc
    rw [Memory.storeAt_elements, if_pos rfl, Memory.zvalDtor_elements]
  unfold letGo
  dsimp only
  constructor
  · rw [delref_rc, hrc]
  · intro ha hne
    apply mem_delref_self
    · simpa using ha
    · rwa [hrc]

/-- `spl_ptr_llist_pop` takes the last element out. -/
theorem splPtrLlistPop_holds (h : Holds m llist (s ++ [a]) (ds ++ [z])) :
    let r := splPtrLlistPop m llist
    r.1 = some z ∧ Holds r.2.1 r.2.2 s ds ∧ Elements m r.2.1 (s ++ [a]) s ∧
      r.2.1.zvals = m.zvals.zvalPtrDtor z := by
  have hlen : s.length = ds.length := by simpa using h.length_eq
  have htail : llist.tail = some a := h.tail_of_append
  obtain ⟨hprev, hnext⟩ := h.neighbours
  obtain ⟨hdata, -, -⟩ := h.data_middle hlen
  have hself : m.prev a ≠ some a := by
    rw [hprev]
    intro heq
    have hnodup := h.nodup
    rw [List.nodup_append] at hnodup
    exact hnodup.2.2 a (List.mem_of_getLast? heq) a (by simp) rfl
  intro r
  have hr : r = ((letGo (m.storeAt (m.prev a) fun e => { e with next := none }) a).1,
      (letGo (m.storeAt (m.prev a) fun e => { e with next := none }) a).2,
      { head := if (m.prev a).isSome then llist.head else none, tail := m.prev a,
        count := llist.count - 1 }) := by
    change splPtrLlistPop m llist = _
    unfold splPtrLlistPop
    rw [htail]
    simp only [Memory.storeAt_next_prev]
  have hdata' : (m.storeAt (m.prev a) fun e => { e with next := none }).data a = some z := by
    unfold Memory.data at hdata ⊢
    rw [Memory.storeAt_elements, if_neg hself]
    exact hdata
  have hfirst : Bypassed m (m.storeAt (m.prev a) fun e => { e with next := none }) a := by
    intro x hx
    refine ⟨?_, fun hmem => hmem⟩
    rw [Memory.storeAt_elements]
    unfold bypass
    rw [hnext]
    split <;> rfl
  have hby : Bypassed m r.2.1 a := by
    refine hfirst.frame_right fun x hx => ?_
    · rw [hr]
      exact letGo_other _ hx
  have hrel : Released m r.2.1 a := by
    have hrc : (m.storeAt (m.prev a) fun e => { e with next := none }).rc a = m.rc a := by
      unfold Memory.rc
      rw [Memory.storeAt_elements, if_neg hself]
    have hgo := letGo_released (m.storeAt (m.prev a) fun e => { e with next := none }) a
    unfold Released at hgo ⊢
    rw [hrc] at hgo
    rw [hr]
    exact hgo
  refine ⟨?_, ?_, ?_, ?_⟩
  · rw [hr]
    exact hdata'
  · rw [← List.append_nil s, ← List.append_nil ds]
    apply Bypassed.holds h hlen hby
    · rw [hr, hprev, h.head]
      cases s <;> simp
    · rw [hr, hprev, List.append_nil]
    · rw [hr]
  · have helems := Bypassed.elements h hby hrel
    rwa [List.append_nil] at helems
  · rw [hr]
    exact letGo_zvals hdata'

/-- `spl_ptr_llist_shift` takes the first element out. -/
theorem splPtrLlistShift_holds (h : Holds m llist (a :: t) (z :: dt)) :
    let r := splPtrLlistShift m llist
    r.1 = some z ∧ Holds r.2.1 r.2.2 t dt ∧ Elements m r.2.1 (a :: t) t ∧
      r.2.1.zvals = m.zvals.zvalPtrDtor z := by
  have h' : Holds m llist ([] ++ a :: t) ([] ++ z :: dt) := h
  have hhead : llist.head = some a := h.head
  obtain ⟨hprev, hnext⟩ := h'.neighbours
  obtain ⟨hdata, -, -⟩ := h'.data_middle rfl
  have hself : m.next a ≠ some a := by
    rw [hnext]
    exact fun heq => (List.nodup_cons.mp h.nodup).1 (List.mem_of_head? heq)
  intro r
  have hr : r = ((letGo (m.storeAt (m.next a) fun e => { e with prev := none }) a).1,
      (letGo (m.storeAt (m.next a) fun e => { e with prev := none }) a).2,
      { head := m.next a, tail := if (m.next a).isSome then llist.tail else none,
        count := llist.count - 1 }) := by
    change splPtrLlistShift m llist = _
    unfold splPtrLlistShift
    rw [hhead]
    simp only [Memory.storeAt_prev_next]
  have hdata' : (m.storeAt (m.next a) fun e => { e with prev := none }).data a = some z := by
    unfold Memory.data at hdata ⊢
    rw [Memory.storeAt_elements, if_neg hself]
    exact hdata
  have hfirst : Bypassed m (m.storeAt (m.next a) fun e => { e with prev := none }) a := by
    intro x hx
    refine ⟨?_, fun hmem => hmem⟩
    rw [Memory.storeAt_elements]
    unfold bypass
    rw [hprev]
    split <;> rfl
  have hby : Bypassed m r.2.1 a := by
    refine hfirst.frame_right fun x hx => ?_
    · rw [hr]
      exact letGo_other _ hx
  have hrel : Released m r.2.1 a := by
    have hrc : (m.storeAt (m.next a) fun e => { e with prev := none }).rc a = m.rc a := by
      unfold Memory.rc
      rw [Memory.storeAt_elements, if_neg hself]
    have hgo := letGo_released (m.storeAt (m.next a) fun e => { e with prev := none }) a
    unfold Released at hgo ⊢
    rw [hrc] at hgo
    rw [hr]
    exact hgo
  refine ⟨?_, ?_, ?_, ?_⟩
  · rw [hr]
    exact hdata'
  · refine Bypassed.holds h' (rfl : ([] : List Addr).length = ([] : List ZvalAddr).length) hby ?_ ?_ ?_
    · rw [hr, hnext]
      rfl
    · rw [hr, hnext, h.tail]
      cases t <;> simp
    · rw [hr]
  · exact Bypassed.elements h' hby hrel
  · rw [hr]
    exact letGo_zvals hdata'

theorem splPtrLlistPop_empty (h : Holds m llist [] []) :
    splPtrLlistPop m llist = (none, m, llist) := by
  unfold splPtrLlistPop
  rw [h.tail]
  rfl

theorem splPtrLlistShift_empty (h : Holds m llist [] []) :
    splPtrLlistShift m llist = (none, m, llist) := by
  unfold splPtrLlistShift
  rw [h.head]
  rfl

theorem Holds.ne_neighbours (h : Holds m llist (s ++ a :: t) d) :
    m.prev a ≠ some a ∧ m.next a ≠ some a := by
  obtain ⟨hprev, hnext⟩ := h.neighbours
  have hnodup := h.nodup
  rw [List.nodup_append] at hnodup
  rw [hprev, hnext]
  constructor
  · exact fun heq => hnodup.2.2 a (List.mem_of_getLast? heq) a (by simp) rfl
  · exact fun heq => (List.nodup_cons.mp hnodup.2.1).1 (List.mem_of_head? heq)

theorem unlink_elements (h : Holds m llist (s ++ a :: t) d) (x : Addr) :
    (DllistObject.unlink m llist a).1.elements x = bypass m a x := by
  have hnext' : (m.storeAt (m.prev a) fun e => { e with next := m.next a }).next a = m.next a := by
    unfold Memory.next
    rw [Memory.storeAt_elements, if_neg h.ne_neighbours.1]
  unfold DllistObject.unlink
  dsimp only
  rw [hnext', Memory.storeAt_next_prev, Memory.storeAt_elements, Memory.storeAt_elements]
  unfold bypass
  split <;> split <;> rfl

theorem unlink_bypassed (h : Holds m llist (s ++ a :: t) d) :
    Bypassed m (DllistObject.unlink m llist a).1 a ∧
      (DllistObject.unlink m llist a).1.data a = m.data a ∧
      (DllistObject.unlink m llist a).1.rc a = m.rc a ∧
      (DllistObject.unlink m llist a).1.live = m.live ∧
      (DllistObject.unlink m llist a).1.zvals = m.zvals := by
  refine ⟨fun x _ => ⟨unlink_elements h x, fun hmem => hmem⟩, ?_, ?_, rfl, rfl⟩
  · exact (congrArg Element.data (unlink_elements h a)).trans rfl
  · exact (congrArg Element.rc (unlink_elements h a)).trans rfl

theorem unlink_llist (h : Holds m llist (s ++ a :: t) d) :
    (DllistObject.unlink m llist a).2 =
      { head := (s ++ t).head?, tail := (s ++ t).getLast?, count := llist.count - 1 } := by
  obtain ⟨hp, hn⟩ := h.neighbours
  obtain ⟨hprev, hnext⟩ := h.ne_neighbours
  have hnext' : (DllistObject.unlink m llist a).1.next a = t.head? := by
    rw [← hn]
    exact (congrArg Element.next (unlink_elements h a)).trans (if_neg hprev)
  have hprev' : (DllistObject.unlink m llist a).1.prev a = s.getLast? := by
    rw [← hp]
    exact (congrArg Element.prev (unlink_elements h a)).trans (if_neg hnext)
  have hlist : (DllistObject.unlink m llist a).2 =
      { head := if llist.head = some a then (DllistObject.unlink m llist a).1.next a
          else llist.head
        tail := if llist.tail = some a then (DllistObject.unlink m llist a).1.prev a
          else llist.tail
        count := llist.count - 1 } := rfl
  have hnodup := h.nodup
  rw [List.nodup_append] at hnodup
  rw [hlist, hnext', hprev', h.head, h.tail, Llist.mk.injEq]
  refine ⟨?_, ?_, rfl⟩
  · cases s with
    | nil => rw [List.nil_append, List.head?_cons, if_pos rfl, List.nil_append]
    | cons b r =>
      have hne : b ≠ a := hnodup.2.2 b (by simp) a (by simp)
      rw [List.cons_append, List.head?_cons, if_neg (fun heq => hne (Option.some.inj heq))]
      rfl
  · rcases List.eq_nil_or_concat t with rfl | ⟨r, b, rfl⟩
    · rw [List.getLast?_concat, if_pos rfl, List.append_nil]
    · rw [List.concat_eq_append] at hnodup ⊢
      have hne : b ≠ a := by
        rintro rfl
        exact (List.nodup_cons.mp hnodup.2.1).1 (by simp)
      rw [← List.cons_append, ← List.append_assoc, List.getLast?_concat,
        if_neg (fun heq => hne (Option.some.inj heq)), ← List.append_assoc, List.getLast?_concat]

theorem splPtrLlistOffset_eq (h : Holds m llist l d) (offset : ℤ) (backward : Bool) :
    splPtrLlistOffset m llist offset backward =
      if backward then l.reverse[offset.toNat]? else l[offset.toNat]? := by
  unfold splPtrLlistOffset
  rw [h.head, h.tail]
  split
  · rw [← List.head?_reverse]
    exact (Seg.reverse h.seg).follow_eq _
  · exact Seg.follow_eq h.seg _

theorem Holds.replaceData {w : ZvalAddr} (h : Holds m llist (s ++ a :: t) (ds ++ z :: dt))
    (hlen : s.length = ds.length)
    (helem : ∀ x, m'.elements x =
      if some a = some x then { m.elements x with data := some w } else m.elements x)
    (hlive : m'.live = m.live) : Holds m' llist (s ++ a :: t) (ds ++ w :: dt) := by
  obtain ⟨-, hs, ht⟩ := h.data_middle hlen
  have hnodup := h.nodup
  rw [List.nodup_append] at hnodup
  have hother : ∀ x, x ≠ a → m'.elements x = m.elements x := fun x hx => by
    rw [helem, if_neg (fun heq => hx (Option.some.inj heq).symm)]
  refine ⟨?_, h.nodup, ?_, h.head, h.tail, h.count, ?_⟩
  · refine h.seg.congr (fun x _ => ?_) fun x _ => ?_
    · unfold Memory.next
      rw [helem]
      split <;> rfl
    · unfold Memory.prev
      rw [helem]
      split <;> rfl
  · intro x hx
    rw [hlive]
    exact h.live x hx
  · rw [List.map_append, List.map_append, List.map_cons, List.map_cons, ← hs, ← ht]
    congr 1
    · apply List.map_congr_left
      intro x hx
      exact congrArg Element.data (hother x (hnodup.2.2 x hx a (by simp)))
    congr 1
    · unfold Memory.data
      rw [helem, if_pos rfl]
    · apply List.map_congr_left
      intro x hx
      refine congrArg Element.data (hother x ?_)
      rintro rfl
      exact (List.nodup_cons.mp hnodup.2.1).1 hx

end PhpRuntime.Spl

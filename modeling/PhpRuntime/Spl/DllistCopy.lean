import Mathlib.Data.List.Induction
import PhpRuntime.Spl.DllistMethods

/-!
# Cloning and destroying a list

`spl_ptr_llist_copy` calls the constructor for the element it copies and again for the new
one, so that each element of a clone holds two references as well. The destruction of an
object pops all elements, and every refcount is back.
-/

set_option autoImplicit false

namespace PhpRuntime.Spl

open PhpRuntime.Lib PhpRuntime.Spl.Zvals

variable {ν : Type} {m m' : Memory ν} {llist : Llist} {l : List Addr} {d : List ZvalAddr}
  {refs : ZvalAddr → ℤ} {a : Addr} {z : ZvalAddr}

/-! ## Cloning -/

/-- The references that a copy of the zvals `d` makes. -/
def addrefAll (d : List ZvalAddr) (zs : Zvals ν) : Zvals ν :=
  d.foldl (fun zs z => (zs.addref z).addref z) zs

theorem Zvals.Plain.addrefAll {zs : Zvals ν} {x : ZvalAddr} {v : ν} (h : zs.Plain x v)
    (d : List ZvalAddr) : (addrefAll d zs).Plain x v := by
  induction d generalizing zs with
  | nil => exact h
  | cons z d ih => exact ih ((h.addref z).addref z)

theorem Zvals.Counted.addrefAll {zs : Zvals ν} (h : zs.Counted refs)
    (hlive : ∀ z ∈ d, z ∈ zs.live) :
    (addrefAll d zs).Counted fun x => refs x + 2 * d.count x := by
  induction d generalizing zs refs with
  | nil => exact h.congr fun x => by simp
  | cons z d ih =>
    have hz := hlive z (by simp)
    have htwo := (h.addref hz).addref (z := z) hz
    refine (ih htwo fun y hy => hlive y (by simp [hy])).congr fun x => ?_
    rw [count_cons_eq]
    omega

/-- `spl_ptr_llist_copy` appends a new element for every element from `current` on. -/
theorem copyLoop_spec (emalloc : Emalloc) {source : Llist} {t : List Addr} {dt : List ZvalAddr} :
    ∀ {m : Memory ν} {s l : List Addr} {ds d : List ZvalAddr} {target : Llist} {n : ℕ},
      Holds m source (s ++ t) (ds ++ dt) → s.length = ds.length → Holds m target l d →
      (∀ a ∈ s ++ t, a ∉ l) → t.length ≤ n →
      let r := copyLoop emalloc n m t.head? target
      ∃ l', Holds r.1 r.2 (l ++ l') (d ++ dt) ∧ (∀ a ∈ l', a ∉ m.live ∧ r.1.rc a = 1) ∧
        (∀ a ∈ l, r.1.rc a = m.rc a) ∧ Frame m r.1 l ∧ r.1.zvals = addrefAll dt m.zvals := by
  induction t generalizing dt with
  | nil =>
    intro m s l ds d target n hsource hlen htarget _ _ r
    have hdt : dt = [] := by
      have hlength := hsource.length_eq
      simp only [List.length_append, List.length_nil] at hlength
      exact List.eq_nil_of_length_eq_zero (by omega)
    have hr : r = (m, target) := by
      change copyLoop emalloc n m none target = _
      cases n <;> rfl
    rw [hdt, hr]
    refine ⟨[], ?_, by simp, fun _ _ => rfl, Frame.refl m l, rfl⟩
    rw [List.append_nil, List.append_nil]
    exact htarget
  | cons a t ih =>
    intro m s l ds d target n hsource hlen htarget hdisj hn r
    obtain ⟨z, dt', rfl⟩ : ∃ z dt', dt = z :: dt' := by
      cases dt with
      | nil =>
        have hlength := hsource.length_eq
        simp only [List.length_append, List.length_cons, List.length_nil] at hlength
        omega
      | cons z dt' => exact ⟨z, dt', rfl⟩
    obtain ⟨k, rfl⟩ : ∃ k, n = k + 1 := ⟨n - 1, by simp at hn; omega⟩
    obtain ⟨hdata, -, -⟩ := hsource.data_middle hlen
    obtain ⟨-, hnext⟩ := hsource.neighbours
    have hctor : Holds (m.zvalCtor a) target l d := htarget.congr fun x hx =>
      ⟨by rw [Memory.zvalCtor_elements], by rw [Memory.zvalCtor_live]; exact htarget.live x hx⟩
    obtain ⟨hpush, helem, hzvals, hlive⟩ := splPtrLlistPush_holds emalloc hctor z
    have hr : r = copyLoop emalloc k (splPtrLlistPush emalloc (m.zvalCtor a) target z).1 t.head?
        (splPtrLlistPush emalloc (m.zvalCtor a) target z).2 := by
      change copyLoop emalloc (k + 1) m (some a) target = _
      have hdata' : (m.zvalCtor a).data a = some z := by
        unfold Memory.data at hdata ⊢
        rw [Memory.zvalCtor_elements]
        exact hdata
      rw [copyLoop]
      dsimp only
      rw [hdata', hnext]
    rw [Memory.zvalCtor_live] at hpush helem hlive
    generalize splPtrLlistPush emalloc (m.zvalCtor a) target z = p at *
    have hframe : Frame m p.1 l := by
      intro x hx hxl
      have h' := helem.frame x (by rw [Memory.zvalCtor_live]; exact hx) hxl
      rwa [Memory.zvalCtor_elements] at h'
    have hsource' : Holds p.1 source (s ++ [a] ++ t) (ds ++ [z] ++ dt') := by
      rw [List.append_assoc, List.append_assoc]
      exact hsource.frame hframe hdisj
    have hdisj' : ∀ x ∈ s ++ [a] ++ t, x ∉ l ++ [emalloc.addr m.live] := by
      intro x hx hmem
      rw [List.append_assoc] at hx
      rcases List.mem_append.mp hmem with hmem | hmem
      · exact hdisj x hx hmem
      · rw [List.mem_singleton.mp hmem] at hx
        exact emalloc.fresh m.live (hsource.live _ hx)
    obtain ⟨l', hholds, hnew, hkept, hframe', hzvals'⟩ :=
      ih hsource' (by simpa using hlen) hpush hdisj' (show t.length ≤ k by simp at hn; omega)
    rw [← hr] at hholds hnew hkept hframe' hzvals'
    refine ⟨emalloc.addr m.live :: l', ?_, ?_, ?_, ?_, ?_⟩
    · simpa using hholds
    · intro x hx
      rcases List.mem_cons.mp hx with rfl | hx
      · have hrc := hkept (emalloc.addr m.live) (by simp)
        have hnot : emalloc.addr m.live ∉ l := fun hmem =>
          emalloc.fresh m.live (htarget.live _ hmem)
        exact ⟨emalloc.fresh m.live, hrc.trans (helem.new _ (by simp) hnot).2⟩
      · obtain ⟨hfresh, hrc⟩ := hnew x hx
        rw [hlive] at hfresh
        exact ⟨fun hmem => hfresh (Finset.mem_insert_of_mem hmem), hrc⟩
    · intro x hx
      have hrc := hkept x (List.mem_append_left _ hx)
      have hrc' := helem.kept x (List.mem_append_left _ hx) hx
      rw [hrc, hrc']
      unfold Memory.rc
      rw [Memory.zvalCtor_elements]
    · intro x hx hxl
      obtain ⟨helem1, hlive1⟩ := hframe x hx hxl
      have hne : x ≠ emalloc.addr m.live := fun heq => emalloc.fresh m.live (heq ▸ hx)
      obtain ⟨helem2, hlive2⟩ := hframe' x hlive1 (by simp [hxl, hne])
      exact ⟨helem2.trans helem1, hlive2⟩
    · rw [hzvals', hzvals, Memory.zvalCtor_zvals hdata]
      rfl

theorem Holds.length_le_walkBound (h : Holds m llist l d) : l.length ≤ m.walkBound := by
  have hcard := List.toFinset_card_of_nodup h.nodup
  have hsub : l.toFinset ⊆ m.live := fun x hx => h.live x (List.mem_toFinset.mp hx)
  have hle := Finset.card_le_card hsub
  unfold Memory.walkBound
  omega

theorem splPtrLlistInit_holds (m : Memory ν) : Holds m splPtrLlistInit [] [] :=
  ⟨trivial, List.nodup_nil, by simp, rfl, rfl, rfl, rfl⟩

theorem checkAddref_rc (m : Memory ν) (p : Option Addr) (x : Addr) :
    (m.checkAddref p).rc x = m.rc x + if p = some x then 1 else 0 := by
  unfold Memory.checkAddref Memory.rc
  rw [Memory.storeAt_elements]
  split
  · rfl
  · rw [add_zero]

theorem checkAddref_sameLinks (m : Memory ν) (p : Option Addr) :
    SameLinks m (m.checkAddref p) := by
  refine ⟨fun x => ⟨?_, ?_, ?_⟩, fun x hx => hx⟩
  · unfold Memory.next Memory.checkAddref
    rw [Memory.storeAt_elements]
    split <;> rfl
  · unfold Memory.prev Memory.checkAddref
    rw [Memory.storeAt_elements]
    split <;> rfl
  · unfold Memory.data Memory.checkAddref
    rw [Memory.storeAt_elements]
    split <;> rfl

theorem splDllistObjectClone_spec (emalloc : Emalloc) (ce : DllistClass) {other : DllistObject}
    (h : Holds m other.llist l d) :
    let r := splDllistObjectClone emalloc m ce other
    ∃ l', Holds r.1 r.2.llist l' d ∧ r.2.traverse_pointer = l'.head? ∧
      (∀ a ∈ l', a ∉ m.live ∧ r.1.rc a = 1 + if r.2.traverse_pointer = some a then 1 else 0) ∧
      Frame m r.1 [] ∧ r.1.zvals = addrefAll d m.zvals := by
  intro r
  have hsource : Holds m other.llist ([] ++ l) ([] ++ d) := h
  obtain ⟨l', hholds, hnew, -, hframe, hzvals⟩ := copyLoop_spec emalloc hsource rfl
    (splPtrLlistInit_holds m) (by simp) h.length_le_walkBound
  rw [← h.head] at hholds hnew hframe hzvals
  have hr : r = ((splPtrLlistCopy emalloc m other.llist splPtrLlistInit).1.checkAddref
      (splPtrLlistCopy emalloc m other.llist splPtrLlistInit).2.head,
      { llist := (splPtrLlistCopy emalloc m other.llist splPtrLlistInit).2
        traverse_position := 0
        traverse_pointer := (splPtrLlistCopy emalloc m other.llist splPtrLlistInit).2.head
        flags := other.flags ||| ce.flags }) := rfl
  unfold splPtrLlistCopy at hr
  generalize copyLoop emalloc m.walkBound m other.llist.head splPtrLlistInit = p at *
  rw [hr]
  refine ⟨l', hholds.sameLinks (checkAddref_sameLinks _ _), hholds.head, ?_, ?_, hzvals⟩
  · intro x hx
    obtain ⟨hfresh, hrc⟩ := hnew x hx
    refine ⟨hfresh, ?_⟩
    rw [checkAddref_rc, hrc]
  · intro x hx hnot
    obtain ⟨helem, hlive⟩ := hframe x hx hnot
    refine ⟨?_, hlive⟩
    have hne : p.2.head ≠ some x := by
      rw [hholds.head]
      exact fun heq => (hnew x (List.mem_of_head? heq)).1 hx
    unfold Memory.checkAddref
    rw [Memory.storeAt_elements, if_neg hne]
    exact helem

/-! ## Destroying -/

/-- The references that are dropped for the zvals `d`, the last one first. -/
def dropAll (d : List ZvalAddr) (zs : Zvals ν) : Zvals ν :=
  d.foldr (fun z zs => (zs.zvalPtrDtor z).zvalPtrDtor z) zs

theorem dropAll_concat (d : List ZvalAddr) (z : ZvalAddr) (zs : Zvals ν) :
    dropAll (d ++ [z]) zs = dropAll d ((zs.zvalPtrDtor z).zvalPtrDtor z) := by
  unfold dropAll
  rw [List.foldr_append]
  rfl

theorem Zvals.Plain.dropAll {zs : Zvals ν} {x : ZvalAddr} {v : ν} (h : zs.Plain x v)
    (d : List ZvalAddr) : (dropAll d zs).Plain x v := by
  induction d with
  | nil => exact h
  | cons z d ih => exact (ih.zvalPtrDtor z).zvalPtrDtor z

theorem Zvals.Counted.dropAll {zs : Zvals ν} (h : zs.Counted refs)
    (hrefs : ∀ x, 2 * (d.count x : ℤ) ≤ refs x) :
    (dropAll d zs).Counted fun x => refs x - 2 * d.count x := by
  induction d with
  | nil => exact h.congr fun x => by simp
  | cons z d ih =>
    have hz := hrefs z
    rw [count_cons_eq, one_self] at hz
    have hd := ih fun x => by
      have hx := hrefs x
      rw [count_cons_eq] at hx
      have hone : 0 ≤ one z x := by
        unfold one
        split <;> omega
      omega
    refine (hd.dropTwo (z := z) (by omega)).congr fun x => ?_
    rw [count_cons_eq]
    omega

theorem popLoop_spec (d : List ZvalAddr) : ∀ {m : Memory ν} {llist : Llist} {l : List Addr}
    {n : ℕ}, Holds m llist l d → l.length ≤ n →
      Holds (popLoop n m llist).1 (popLoop n m llist).2 [] [] ∧
        Elements m (popLoop n m llist).1 l [] ∧
        (popLoop n m llist).1.zvals = dropAll d m.zvals := by
  induction d using List.reverseRecOn with
  | nil =>
    intro m llist l n h hn
    have hl : l = [] := List.eq_nil_of_length_eq_zero (by simpa using h.length_eq)
    subst hl
    have hloop : popLoop n m llist = (m, llist) := by
      cases n with
      | zero => rfl
      | succ n =>
        have hcount : ¬ 0 < llist.count := by
          rw [h.count]
          simp
        unfold popLoop
        rw [if_neg hcount]
    rw [hloop]
    exact ⟨h, Elements.refl m [], rfl⟩
  | append_singleton ds z ih =>
    intro m llist l n h hn
    have hlen := h.length_eq
    obtain ⟨s, a, rfl⟩ : ∃ s a, l = s ++ [a] := by
      rcases List.eq_nil_or_concat l with rfl | ⟨s, a, rfl⟩
      · simp at hlen
      · exact ⟨s, a, List.concat_eq_append⟩
    obtain ⟨k, rfl⟩ : ∃ k, n = k + 1 := ⟨n - 1, by simp at hn; omega⟩
    obtain ⟨hfst, hholds, helem, hzvals⟩ := splPtrLlistPop_holds h
    have hcount : 0 < llist.count := by
      rw [h.count]
      simp
    have hloop : popLoop (k + 1) m llist =
        popLoop k ((splPtrLlistPop m llist).2.1.zvalPtrDtor (some z)) (splPtrLlistPop m llist).2.2 := by
      rw [popLoop, if_pos hcount]
      dsimp only
      rw [hfst]
    have helem' : Elements m ((splPtrLlistPop m llist).2.1.zvalPtrDtor (some z)) (s ++ [a]) s :=
      helem.congr (Memory.zvalPtrDtor_elements _ _) (Memory.zvalPtrDtor_live _ _)
    obtain ⟨hholds', helems', hzvals'⟩ := ih (hholds.zvalPtrDtor (some z)) (n := k)
      (by simp at hn; omega)
    rw [hloop]
    refine ⟨hholds', helem'.trans_of_subset helems' (List.subset_append_left s [a]) (by simp), ?_⟩
    rw [hzvals', dropAll_concat]
    change dropAll ds ((splPtrLlistPop m llist).2.1.zvals.zvalPtrDtor z) = _
    rw [hzvals]

theorem splDllistObjectFreeStorage_spec {intern : DllistObject}
    (h : Holds m intern.llist l d) :
    ∃ m', splDllistObjectFreeStorage m intern = m'.checkDelref intern.traverse_pointer ∧
      Elements m m' l [] ∧ m'.zvals = dropAll d m.zvals := by
  have hn : l.length ≤ intern.llist.count.toNat := by
    rw [h.count, Int.toNat_natCast]
  obtain ⟨hholds, helem, hzvals⟩ := popLoop_spec d h hn
  refine ⟨(popLoop intern.llist.count.toNat m intern.llist).1, ?_, helem, hzvals⟩
  unfold splDllistObjectFreeStorage splPtrLlistDestroy
  dsimp only
  rw [hholds.head]
  rfl

end PhpRuntime.Spl

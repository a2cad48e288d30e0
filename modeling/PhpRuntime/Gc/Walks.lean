import PhpRuntime.Gc.Graph

/-!
# The functions of the phases follow the walks of trial deletion

Each recursive function of the three phases is shown to make one visit of the walk it
stands for, and to return when its fuel exceeds the number of nodes still to visit.
-/

set_option autoImplicit false

namespace PhpRuntime.Gc

open PhpRuntime.Lib PhpRuntime.Lib.TrialDeletion
open scoped UInt32.CommRing

variable {H : Heap} {M : Set Node} {s₀ s s' : Cells} {pz : ZvalPtr} {h : Handle} {l : List ZvalPtr} {fuel : ℕ}

/-! ## Giving references back: `zval_scan_black` -/

/-- The cells as they are seen from the graph, since the cells were `s₀`. -/
def Viewed (s₀ : Cells) (l : List ZvalPtr) (s : Cells) (t : State Node UInt32) : Prop :=
  t = s.view l ∧ Frame s₀ s

/-- The loop body of the functions that scan black. -/
def scanBlackChild (H : Heap) (fuel : ℕ) (pz : ZvalPtr) (s : Cells) : Option Cells :=
  let s := H.addRef 1 pz s
  if (s.zval pz).word.color ≠ .black then zvalScanBlack H fuel pz s else some s

/-- `zval_scan_black` colours its zval black and visits what it holds. -/
def ScanBlackVisits (H : Heap) (l : List ZvalPtr) (fuel : ℕ) : Prop :=
  ∀ pz s s', zvalScanBlack H fuel pz s = some s' →
    (H.graph.blacken UInt32).Visits (H.graph.succ (.zval pz)) ((s.view l).paint (.zval pz) .black)
      (s'.view l) ∧ Frame s s'

theorem scanBlackChild_follows (s₀ : Cells) (ih : ScanBlackVisits H l fuel) :
    Follows Set.univ (H.graph.blacken UInt32) (Viewed s₀ l) (scanBlackChild H fuel) := by
  rintro pz s s' t - hf ⟨rfl, hs⟩
  have hs₁ := hs.trans (.addRef H s pz 1)
  suffices h : (H.graph.blacken UInt32).Visit (.zval pz) ((H.addRef 1 pz s).view l) (s'.view l) ∧
      Frame s₀ s' by
    refine ⟨s'.view l, ?_, rfl, h.2⟩
    show Walk.Visit _ _ (H.graph.edge 1 (.zval pz) (s.view l)) _
    rw [← view_addRef]
    exact h.1
  simp only [scanBlackChild] at hf
  generalize H.addRef 1 pz s = s₁ at hf hs₁ ⊢
  split at hf
  · rename_i hc
    obtain ⟨hv, hfr⟩ := ih pz s₁ s' hf
    exact ⟨.enter hc (fun h => h) hv, hs₁.trans hfr⟩
  · rename_i hc
    rw [Option.some_inj] at hf
    subst hf
    exact ⟨.pass hc, hs₁⟩

theorem zobj_blacken_visits (ih : ScanBlackVisits H l fuel)
    (hw : H.walkObject (scanBlackChild H fuel) h (s.objSetColor h .black) = some s') :
    (H.graph.blacken UInt32).Visits (H.graph.succ (.obj h)) ((s.view l).paint (.obj h) .black)
      (s'.view l) ∧ Frame s s' := by
  rw [walkObject_eq] at hw
  obtain ⟨t', hv, rfl, hfr⟩ := walkTable_visits (scanBlackChild_follows _ ih)
    (fun _ _ => trivial) hw ⟨rfl, Frame.objSetColor s h .black⟩
  rw [view_objSetColor] at hv
  exact ⟨hv, hfr⟩

theorem zvalScanBlack_visits (H : Heap) (l : List ZvalPtr) (fuel : ℕ) :
    ScanBlackVisits H l fuel := by
  induction fuel with
  | zero => simp [ScanBlackVisits, zvalScanBlack]
  | succ fuel ih =>
    intro pz s s' hf
    simp only [zvalScanBlack] at hf
    have hs₁ := Frame.zvalSetColor s pz .black
    rw [← view_zvalSetColor]
    generalize s.zvalSetColor pz .black = s₁ at hf hs₁ ⊢
    cases hv : H.value pz with
    | object h =>
      simp only [hv] at hf
      by_cases hb : H.objectBuckets = true
      · rw [if_pos hb] at hf
        have hs₂ := hs₁.trans (.objAddRef s₁ h 1)
        suffices hvis : (H.graph.blacken UInt32).Visit (.obj h) ((s₁.objAddRef h 1).view l)
            (s'.view l) ∧ Frame s s' by
          refine ⟨?_, hvis.2⟩
          rw [succ_object hv hb, Walk.visits_cons_iff]
          refine ⟨s'.view l, ?_, .nil _⟩
          show Walk.Visit _ _ (H.graph.edge 1 (.obj h) (s₁.view l)) _
          rw [← view_objAddRef_edge]
          exact hvis.1
        generalize s₁.objAddRef h 1 = s₂ at hf hs₂ ⊢
        split at hf
        · rename_i hc
          obtain ⟨hvis, hfr⟩ := zobj_blacken_visits ih hf
          exact ⟨.enter hc (fun h => h) hvis, hs₂.trans hfr⟩
        · rename_i hc
          rw [Option.some_inj] at hf
          subst hf
          exact ⟨.pass hc, hs₂⟩
      · rw [if_neg hb, Option.some_inj] at hf
        subst hf
        rw [succ_object_none hv hb]
        exact ⟨.nil _, hs₁⟩
    | array ht =>
      simp only [hv] at hf
      by_cases hs : ht = H.symbolTable
      · rw [if_neg (not_not.mpr hs), Option.some_inj] at hf
        subst hf
        rw [succ_symbolTable hv hs]
        exact ⟨.nil _, hs₁⟩
      · rw [if_pos hs] at hf
        rw [succ_array hv hs]
        obtain ⟨t', hvs, rfl, hfr⟩ := walkTable_visits (scanBlackChild_follows _ ih)
          (fun _ _ => trivial) hf ⟨rfl, hs₁⟩
        exact ⟨hvs, hfr⟩
    | scalar =>
      simp only [hv, Option.some_inj] at hf
      subst hf
      rw [succ_scalar hv]
      exact ⟨.nil _, hs₁⟩

theorem zobjScanBlack_visits (hf : zobjScanBlack H fuel h s = some s') :
    (H.graph.blacken UInt32).Visits (H.graph.succ (.obj h)) ((s.view l).paint (.obj h) .black)
      (s'.view l) ∧ Frame s s' :=
  zobj_blacken_visits (zvalScanBlack_visits H l fuel) hf

/-! ## Taking references away: `zval_mark_grey` -/

/-- The cells as they are seen from the graph, with the zval of the symbol table not grey. -/
def ViewedNotGrey (H : Heap) (M : Set Node) (s₀ : Cells) (l : List ZvalPtr) (s : Cells)
    (t : State Node UInt32) : Prop :=
  Viewed s₀ l s t ∧ ∀ n ∈ M, H.graph.pinned n = true → t.color n ≠ .grey

/-- The loop body of the functions that mark grey. -/
def markGreyChild (H : Heap) (fuel : ℕ) (pz : ZvalPtr) (s : Cells) : Option Cells :=
  zvalMarkGrey H fuel pz (H.addRef (-1) pz s)

/-- `zval_mark_grey` is a visit. -/
def MarkGreyVisit (H : Heap) (M : Set Node) (s₀ : Cells) (l : List ZvalPtr) (fuel : ℕ) : Prop :=
  ∀ pz s s' t, .zval pz ∈ M → zvalMarkGrey H fuel pz s = some s' → ViewedNotGrey H M s₀ l s t →
    ∃ t', (H.graph.mark UInt32).Visit (.zval pz) t t' ∧ ViewedNotGrey H M s₀ l s' t'

theorem markGreyChild_follows (ih : MarkGreyVisit H M s₀ l fuel) :
    Follows M (H.graph.mark UInt32) (ViewedNotGrey H M s₀ l) (markGreyChild H fuel) := by
  rintro pz s s' t hpz hf ⟨⟨rfl, hs⟩, hn⟩
  apply ih pz _ s' _ hpz hf
  refine ⟨⟨(view_addRef _).symm, hs.trans (.addRef H s pz (-1))⟩, fun n hnM hp => ?_⟩
  simpa [Graph.mark] using hn n hnM hp

theorem ViewedNotGrey.paint {t : State Node UInt32} {n : Node} (hr : ViewedNotGrey H M s₀ l s t)
    (hn : H.graph.pinned n = false) (hs : s'.view l = t.paint n .grey) (hfr : Frame s s') :
    ViewedNotGrey H M s₀ l s' (t.paint n .grey) := by
  refine ⟨⟨hs.symm, hr.1.2.trans hfr⟩, fun m hmM hm => ?_⟩
  rw [paint_color]
  split
  · rename_i hmn
    rw [hmn, hn] at hm
    simp at hm
  · exact hr.2 m hmM hm

theorem graph_mark_enter {n : Node} (hn : H.graph.pinned n = false) (t : State Node UInt32) :
    (H.graph.mark UInt32).enter n t = t.paint n .grey := by
  show t.paint n (H.graph.marked n) = _
  rw [marked_grey_iff hn]

/-- The part that `zval_mark_grey` and `zobj_mark_grey` have in common. -/
theorem zobj_mark_visit (hM : H.Closed M) (ih : MarkGreyVisit H M s₀ l fuel) (hh : .obj h ∈ M)
    {t : State Node UInt32} (hf : (if (s.obj h).word.color ≠ .grey then
      H.walkObject (markGreyChild H fuel) h (s.objSetColor h .grey) else some s) = some s')
    (hr : ViewedNotGrey H M s₀ l s t) :
    ∃ t', (H.graph.mark UInt32).Visit (.obj h) t t' ∧ ViewedNotGrey H M s₀ l s' t' := by
  have hcol : t.color (.obj h) = (s.obj h).word.color := by rw [hr.1.1]; rfl
  have hm : H.graph.marked (.obj h) = .grey := marked_grey_iff rfl
  split at hf
  · rename_i hc
    rw [walkObject_eq] at hf
    have hr₁ : ViewedNotGrey H M s₀ l (s.objSetColor h .grey) (t.paint (.obj h) .grey) := by
      apply hr.paint rfl _ (.objSetColor s h .grey)
      rw [view_objSetColor, hr.1.1]
    obtain ⟨t', hv, hr'⟩ := walkTable_visits (markGreyChild_follows ih) (hM.children hh)
      hf hr₁
    refine ⟨t', .enter ?_ (fun h => h) ?_, hr'⟩
    · show t.color (.obj h) ≠ H.graph.marked (.obj h)
      rwa [hcol, hm]
    · rw [graph_mark_enter rfl]
      exact hv
  · rename_i hc
    rw [Option.some_inj] at hf
    subst hf
    refine ⟨t, .pass ?_, hr⟩
    show ¬ t.color (.obj h) ≠ H.graph.marked (.obj h)
    rwa [hcol, hm]

theorem zvalMarkGrey_visit (hM : H.Closed M) (s₀ : Cells) (l : List ZvalPtr) (fuel : ℕ) :
    MarkGreyVisit H M s₀ l fuel := by
  induction fuel with
  | zero => simp [MarkGreyVisit, zvalMarkGrey]
  | succ fuel ih =>
    intro pz s s' t hpz hf hr
    have hcol : t.color (.zval pz) = (s.zval pz).word.color := by rw [hr.1.1]; rfl
    simp only [zvalMarkGrey] at hf
    by_cases hc : (s.zval pz).word.color = .grey
    · -- a grey zval is not the symbol table, so it is marked
      rw [if_neg (not_not.mpr hc), Option.some_inj] at hf
      subst hf
      refine ⟨t, .pass ?_, hr⟩
      show ¬ t.color (.zval pz) ≠ H.graph.marked (.zval pz)
      rw [not_not, hcol, hc, marked_grey_iff]
      by_contra hp
      exact hr.2 (.zval pz) hpz (by simpa using hp) (hcol.trans hc)
    rw [if_pos hc] at hf
    have henter : H.isSymbolTable pz = false →
        ViewedNotGrey H M s₀ l (s.zvalSetColor pz .grey) (t.paint (.zval pz) .grey) ∧
        ∀ t', (H.graph.mark UInt32).Visits (H.graph.succ (.zval pz)) (t.paint (.zval pz) .grey) t' →
          (H.graph.mark UInt32).Visit (.zval pz) t t' := fun hp => by
      change H.graph.pinned (.zval pz) = false at hp
      refine ⟨?_, fun t' hv => .enter ?_ (fun h => h) ?_⟩
      · apply hr.paint hp _ (.zvalSetColor s pz .grey)
        rw [view_zvalSetColor, hr.1.1]
      · show t.color (.zval pz) ≠ H.graph.marked (.zval pz)
        rwa [hcol, marked_grey_iff hp]
      · rw [graph_mark_enter hp]
        exact hv
    cases hv : H.value pz with
    | object h =>
      simp only [hv] at hf
      obtain ⟨hr₁, hen⟩ := henter (not_symbolTable_of_object hv)
      by_cases hb : H.objectBuckets = true
      · rw [if_pos hb] at hf
        have hr₂ : ViewedNotGrey H M s₀ l ((s.zvalSetColor pz .grey).objAddRef h (-1))
            (H.graph.edge (-1) (.obj h) (t.paint (.zval pz) .grey)) := by
          refine ⟨⟨?_, hr₁.1.2.trans (.objAddRef _ h (-1))⟩, fun n hnM hn => ?_⟩
          · rw [view_objAddRef_edge, hr₁.1.1]
          · rw [edge_color]
            exact hr₁.2 n hnM hn
        obtain ⟨t', hvis, hr'⟩ := zobj_mark_visit hM ih (hM.object hpz hv hb) hf hr₂
        refine ⟨t', hen t' ?_, hr'⟩
        rw [succ_object hv hb, Walk.visits_cons_iff]
        exact ⟨t', hvis, .nil _⟩
      · rw [if_neg hb, Option.some_inj] at hf
        subst hf
        refine ⟨_, hen _ ?_, hr₁⟩
        rw [succ_object_none hv hb]
        exact .nil _
    | array ht =>
      simp only [hv] at hf
      by_cases hs : ht = H.symbolTable
      · -- the symbol table turns grey and black again
        have hp : H.isSymbolTable pz = true := by rw [Heap.isSymbolTable_iff, hv, hs]
        have hm : H.graph.marked (.zval pz) = .black := by simp [Graph.marked, hp]
        rw [if_pos hs, Option.some_inj] at hf
        subst hf
        refine ⟨t.paint (.zval pz) .black, ?_, ⟨?_, ?_⟩, fun n hnM hn => ?_⟩
        · by_cases hblack : t.color (.zval pz) = .black
          · rw [paint_eq_self hblack]
            apply Walk.Visit.pass
            show ¬ t.color (.zval pz) ≠ H.graph.marked (.zval pz)
            rw [not_not, hm, hblack]
          · apply Walk.Visit.enter
            · show t.color (.zval pz) ≠ H.graph.marked (.zval pz)
              rwa [hm]
            · exact fun h => h
            · show Walk.Visits _ (H.graph.succ (.zval pz))
                (t.paint (.zval pz) (H.graph.marked (.zval pz))) _
              rw [succ_symbolTable hv hs, hm]
              exact .nil _
        · rw [view_zvalSetColor, view_zvalSetColor, paint_paint, hr.1.1]
        · exact hr.1.2.trans ((Frame.zvalSetColor s pz .grey).trans (.zvalSetColor _ pz .black))
        · rw [paint_color]
          split
          · simp
          · exact hr.2 n hnM hn
      · obtain ⟨hr₁, hen⟩ := henter (not_symbolTable_of_array hv hs)
        rw [if_neg hs] at hf
        obtain ⟨t', hvis, hr'⟩ := walkTable_visits (markGreyChild_follows ih)
          (hM.table hpz hv hs) hf hr₁
        refine ⟨t', hen t' ?_, hr'⟩
        rw [succ_array hv hs]
        exact hvis
    | scalar =>
      simp only [hv, Option.some_inj] at hf
      subst hf
      obtain ⟨hr₁, hen⟩ := henter (not_symbolTable_of_scalar hv)
      refine ⟨_, hen _ ?_, hr₁⟩
      rw [succ_scalar hv]
      exact .nil _

theorem zobjMarkGrey_visit (hM : H.Closed M) (hh : .obj h ∈ M) {t : State Node UInt32}
    (hf : zobjMarkGrey H fuel h s = some s') (hr : ViewedNotGrey H M s₀ l s t) :
    ∃ t', (H.graph.mark UInt32).Visit (.obj h) t t' ∧ ViewedNotGrey H M s₀ l s' t' :=
  zobj_mark_visit hM (zvalMarkGrey_visit hM s₀ l fuel) hh hf hr

/-! ## Looking at the counts: `zval_scan` -/

theorem pos_iff_ne_zero_of_refcount (c : UInt32) : 0 < c ↔ c ≠ 0 := by
  rw [UInt32.lt_iff_toNat_lt, ne_eq, ← UInt32.toNat_inj]
  exact Nat.pos_iff_ne_zero

theorem zval_scanned (hp : H.isSymbolTable pz = false) : H.graph.scanned (.zval pz) = .white := by
  simp [Graph.scanned, hp]

/-- `zval_scan` is a visit. -/
def ScanVisit (H : Heap) (l : List ZvalPtr) (fuel : ℕ) : Prop :=
  ∀ pz s s', zvalScan H fuel pz s = some s' →
    (H.graph.scan UInt32).Visit (.zval pz) (s.view l) (s'.view l) ∧ Frame s s'

theorem zvalScan_follows (s₀ : Cells) (ih : ScanVisit H l fuel) :
    Follows Set.univ (H.graph.scan UInt32) (Viewed s₀ l) (zvalScan H fuel) := by
  rintro pz s s' t - hf ⟨rfl, hs⟩
  obtain ⟨hv, hfr⟩ := ih pz s s' hf
  exact ⟨s'.view l, hv, rfl, hs.trans hfr⟩

/-- The part that `zval_scan` and `zobj_scan` have in common. -/
theorem zobj_scan_visit (ih : ScanVisit H l fuel)
    (hf : (if (s.obj h).word.color = .grey then
      if 0 < (s.obj h).refcount then zobjScanBlack H fuel h s
      else H.walkObject (zvalScan H fuel) h (s.objSetColor h .white) else some s) = some s') :
    (H.graph.scan UInt32).Visit (.obj h) (s.view l) (s'.view l) ∧ Frame s s' := by
  split at hf
  · rename_i hc
    split at hf
    · rename_i hrc
      obtain ⟨hv, hfr⟩ := zobjScanBlack_visits (l := l) hf
      exact ⟨.stop hc ((pos_iff_ne_zero_of_refcount _).mp hrc) hv, hfr⟩
    · rename_i hrc
      rw [walkObject_eq] at hf
      obtain ⟨t', hv, rfl, hfr⟩ := walkTable_visits (zvalScan_follows _ ih)
        (fun _ _ => trivial) hf ⟨rfl, Frame.objSetColor s h .white⟩
      rw [view_objSetColor] at hv
      exact ⟨.enter hc (fun hne => hrc ((pos_iff_ne_zero_of_refcount _).mpr hne)) hv, hfr⟩
  · rename_i hc
    rw [Option.some_inj] at hf
    subst hf
    exact ⟨.pass hc, .refl s⟩

theorem zvalScan_visit (H : Heap) (l : List ZvalPtr) (fuel : ℕ) : ScanVisit H l fuel := by
  induction fuel with
  | zero => simp [ScanVisit, zvalScan]
  | succ fuel ih =>
    intro pz s s' hf
    simp only [zvalScan] at hf
    by_cases hc : (s.zval pz).word.color = .grey
    · rw [if_pos hc] at hf
      by_cases hrc : 0 < (s.zval pz).refcount
      · rw [if_pos hrc] at hf
        obtain ⟨hv, hfr⟩ := zvalScanBlack_visits H l fuel pz s s' hf
        exact ⟨.stop hc ((pos_iff_ne_zero_of_refcount _).mp hrc) hv, hfr⟩
      · rw [if_neg hrc] at hf
        suffices hvis : (H.graph.scan UInt32).Visits (H.graph.succ (.zval pz))
            ((s.view l).paint (.zval pz) (H.graph.scanned (.zval pz))) (s'.view l) ∧ Frame s s' by
          refine ⟨.enter hc ?_ hvis.1, hvis.2⟩
          exact fun hne => hrc ((pos_iff_ne_zero_of_refcount _).mpr hne)
        have hs₁ := Frame.zvalSetColor s pz .white
        cases hv : H.value pz with
        | object h =>
          rw [zval_scanned (not_symbolTable_of_object hv), ← view_zvalSetColor]
          simp only [hv] at hf
          by_cases hb : H.objectBuckets = true
          · rw [if_pos hb] at hf
            rw [succ_object hv hb, Walk.visits_cons_iff]
            obtain ⟨hvis, hfr⟩ := zobj_scan_visit ih hf
            exact ⟨⟨_, hvis, .nil _⟩, hs₁.trans hfr⟩
          · rw [if_neg hb, Option.some_inj] at hf
            subst hf
            rw [succ_object_none hv hb]
            exact ⟨.nil _, hs₁⟩
        | array ht =>
          simp only [hv] at hf
          by_cases hs : ht = H.symbolTable
          · have hp : H.isSymbolTable pz = true := by rw [Heap.isSymbolTable_iff, hv, hs]
            have hm : H.graph.scanned (.zval pz) = .black := by simp [Graph.scanned, hp]
            rw [if_pos hs, Option.some_inj] at hf
            subst hf
            rw [succ_symbolTable hv hs, hm, view_zvalSetColor, view_zvalSetColor, paint_paint]
            exact ⟨.nil _, hs₁.trans (.zvalSetColor _ pz .black)⟩
          · rw [if_neg hs] at hf
            rw [zval_scanned (not_symbolTable_of_array hv hs), ← view_zvalSetColor,
              succ_array hv hs]
            obtain ⟨t', hvs, rfl, hfr⟩ := walkTable_visits (zvalScan_follows _ ih)
              (fun _ _ => trivial) hf ⟨rfl, hs₁⟩
            exact ⟨hvs, hfr⟩
        | scalar =>
          simp only [hv, Option.some_inj] at hf
          subst hf
          rw [zval_scanned (not_symbolTable_of_scalar hv), ← view_zvalSetColor, succ_scalar hv]
          exact ⟨.nil _, hs₁⟩
    · rw [if_neg hc, Option.some_inj] at hf
      subst hf
      exact ⟨.pass hc, .refl s⟩

theorem zobjScan_visit (hb : H.objectBuckets = true) (hf : zobjScan H fuel h s = some s') :
    (H.graph.scan UInt32).Visit (.obj h) (s.view l) (s'.view l) ∧ Frame s s' := by
  rw [zobjScan, if_pos hb] at hf
  exact zobj_scan_visit (zvalScan_visit H l fuel) hf

end PhpRuntime.Gc

import PhpRuntime.Gc.Gathering

/-!
# The phases return

Every walk enters a node at most once, so a bound on the nodes still to visit is fuel enough.
`M` is a finite part of the heap that nothing leads out of.
-/

set_option autoImplicit false

namespace PhpRuntime.Gc

open PhpRuntime.Lib PhpRuntime.Lib.TrialDeletion
open scoped UInt32.CommRing

variable {H : Heap} {M : Finset Node} {s₀ s : Cells} {pz : ZvalPtr} {h : Handle}
  {l : List ZvalPtr} {t : State Node UInt32} {fuel : ℕ}

theorem todoCount_pos {W : Walk Node (State Node UInt32)} {n : Node} (hn : n ∈ M)
    (h : W.todo t n) : 0 < W.todoCount M t := by
  classical
  apply Finset.card_pos.mpr
  exact ⟨n, Finset.mem_filter.mpr ⟨hn, h⟩⟩

/-! ## `zval_scan_black` -/

/-- `zval_scan_black` returns. -/
def ScanBlackReturns (H : Heap) (M : Finset Node) (l : List ZvalPtr) (fuel : ℕ) : Prop :=
  ∀ pz s, .zval pz ∈ M → (H.graph.blacken UInt32).todo (s.view l) (.zval pz) →
    (H.graph.blacken UInt32).todoCount M (s.view l) ≤ fuel → (zvalScanBlack H fuel pz s).isSome

theorem scanBlackChild_isSome (ih : ScanBlackReturns H M l fuel) :
    ∀ pz s t, .zval pz ∈ M → Viewed s₀ l s t →
      (H.graph.blacken UInt32).todoCount M t < fuel + 1 → (scanBlackChild H fuel pz s).isSome := by
  rintro pz s t hpz ⟨rfl, -⟩ hn
  have hn₁ : (H.graph.blacken UInt32).todoCount M ((H.addRef 1 pz s).view l) < fuel + 1 := by
    rw [view_addRef]
    exact (blacken_finishes.todoCount_edge (.zval pz) (s.view l)).trans_lt hn
  simp only [scanBlackChild]
  generalize H.addRef 1 pz s = s₁ at hn₁ ⊢
  split
  · rename_i hc
    exact ih pz s₁ hpz hc (Nat.lt_succ_iff.mp hn₁)
  · rfl

theorem zobj_blacken_isSome (hM : H.Closed M)
    (ih : ScanBlackReturns H M l fuel) (hh : .obj h ∈ M)
    (hn : (H.graph.blacken UInt32).todoCount M ((s.view l).paint (.obj h) .black) < fuel + 1) :
    (H.walkObject (scanBlackChild H fuel) h (s.objSetColor h .black)).isSome := by
  rw [walkObject_eq]
  apply walkTable_isSome blacken_finishes
    (scanBlackChild_follows s (zvalScanBlack_visits H l fuel)) (fun _ _ => trivial)
    (scanBlackChild_isSome ih) (hM.children hh) ⟨rfl, .objSetColor s h .black⟩
  rw [view_objSetColor]
  exact hn

theorem zvalScanBlack_isSome (hM : H.Closed M) (l : List ZvalPtr)
    (fuel : ℕ) : ScanBlackReturns H M l fuel := by
  induction fuel with
  | zero =>
    intro pz s hpz hc hn
    exact absurd (todoCount_pos hpz hc) (by omega)
  | succ fuel ih =>
    intro pz s hpz hc hn
    have hlt := blacken_finishes.todoCount_enter hpz hc
    have hn₁ : (H.graph.blacken UInt32).todoCount M ((s.zvalSetColor pz .black).view l) <
        fuel + 1 := by
      rw [view_zvalSetColor]
      exact hlt.trans_le hn
    simp only [zvalScanBlack]
    generalize s.zvalSetColor pz .black = s₁ at hn₁ ⊢
    cases hv : H.value pz with
    | object h =>
      by_cases hb : H.objectBuckets = true
      · have hh := hM.object hpz hv hb
        have hn₂ : (H.graph.blacken UInt32).todoCount M ((s₁.objAddRef h 1).view l) < fuel + 1 := by
          rw [view_objAddRef_edge (H := H)]
          exact (blacken_finishes.todoCount_edge (.obj h) (s₁.view l)).trans_lt hn₁
        simp only [if_pos hb]
        generalize s₁.objAddRef h 1 = s₂ at hn₂ ⊢
        split
        · rename_i hc₂
          apply zobj_blacken_isSome hM ih hh
          have htodo : (H.graph.blacken UInt32).todo (s₂.view l) (.obj h) := hc₂
          exact (blacken_finishes.todoCount_enter hh htodo).trans hn₂
        · rfl
      · simp only [if_neg hb]
        rfl
    | array ht =>
      by_cases hs : ht = H.symbolTable
      · simp only [if_neg (not_not.mpr hs)]
        rfl
      · simp only [if_pos hs]
        exact walkTable_isSome blacken_finishes
          (scanBlackChild_follows s₁ (zvalScanBlack_visits H l fuel)) (fun _ _ => trivial)
          (scanBlackChild_isSome ih) (hM.table hpz hv hs) ⟨rfl, .refl s₁⟩ hn₁
    | scalar => rfl

theorem zobjScanBlack_isSome (hM : H.Closed M) (hh : .obj h ∈ M)
    (hf : M.card ≤ fuel) : (zobjScanBlack H fuel h s).isSome := by
  apply zobj_blacken_isSome (l := []) hM (zvalScanBlack_isSome hM [] fuel) hh
  have := Walk.Finishes.todoCount_le_card (W := H.graph.blacken UInt32) (M := M)
    ((s.view []).paint (.obj h) .black)
  omega

/-! ## `zval_mark_grey` -/

/-- `zval_mark_grey` returns. -/
def MarkGreyReturns (H : Heap) (M : Finset Node) (s₀ : Cells) (l : List ZvalPtr) (fuel : ℕ) :
    Prop :=
  ∀ pz s t, .zval pz ∈ M → ViewedNotGrey H M s₀ l s t →
    (H.graph.mark UInt32).todoCount M t < fuel → (zvalMarkGrey H fuel pz s).isSome

theorem markGreyChild_isSome (ih : MarkGreyReturns H M s₀ l fuel) :
    ∀ pz s t, .zval pz ∈ M → ViewedNotGrey H M s₀ l s t →
      (H.graph.mark UInt32).todoCount M t < fuel → (markGreyChild H fuel pz s).isSome := by
  rintro pz s t hpz ⟨⟨rfl, hs⟩, hn⟩ hlt
  apply ih pz _ _ hpz ⟨⟨rfl, hs.trans (.addRef H s pz (-1))⟩, fun n hnM hp => ?_⟩
  · rw [view_addRef]
    exact (mark_finishes.todoCount_edge (.zval pz) (s.view l)).trans_lt hlt
  · rw [view_addRef, edge_color]
    exact hn n hnM hp

theorem zobj_mark_isSome (hM : H.Closed M)
    (ih : MarkGreyReturns H M s₀ l fuel) (hh : .obj h ∈ M) (hr : ViewedNotGrey H M s₀ l s t)
    (hc : (s.obj h).word.color ≠ .grey) (hn : (H.graph.mark UInt32).todoCount M t ≤ fuel) :
    (H.walkObject (markGreyChild H fuel) h (s.objSetColor h .grey)).isSome := by
  have hcol : t.color (.obj h) = (s.obj h).word.color := by rw [hr.1.1]; rfl
  have hp : H.graph.pinned (.obj h) = false := rfl
  have htodo : (H.graph.mark UInt32).todo t (.obj h) := by
    show t.color (.obj h) ≠ H.graph.marked (.obj h)
    rwa [hcol, marked_grey_iff rfl]
  rw [walkObject_eq]
  apply walkTable_isSome mark_finishes (markGreyChild_follows (zvalMarkGrey_visit hM s₀ l fuel)) (fun _ h => h)
    (markGreyChild_isSome ih) (hM.children hh)
  · apply hr.paint hp _ (.objSetColor s h .grey)
    rw [view_objSetColor, hr.1.1]
  · rw [← graph_mark_enter hp]
    exact (mark_finishes.todoCount_enter hh htodo).trans_le hn

theorem zvalMarkGrey_isSome (hM : H.Closed M) (s₀ : Cells)
    (l : List ZvalPtr) (fuel : ℕ) : MarkGreyReturns H M s₀ l fuel := by
  induction fuel with
  | zero => exact fun pz s t _ _ hn => absurd hn (Nat.not_lt_zero _)
  | succ fuel ih =>
    intro pz s t hpz hr hn
    have hcol : t.color (.zval pz) = (s.zval pz).word.color := by rw [hr.1.1]; rfl
    simp only [zvalMarkGrey]
    split
    · rename_i hc
      have henter : H.graph.pinned (.zval pz) = false →
          ViewedNotGrey H M s₀ l (s.zvalSetColor pz .grey) (t.paint (.zval pz) .grey) ∧
          (H.graph.mark UInt32).todoCount M (t.paint (.zval pz) .grey) < fuel := fun hp => by
        refine ⟨?_, ?_⟩
        · apply hr.paint hp _ (.zvalSetColor s pz .grey)
          rw [view_zvalSetColor, hr.1.1]
        · have htodo : (H.graph.mark UInt32).todo t (.zval pz) := by
            show t.color (.zval pz) ≠ H.graph.marked (.zval pz)
            rwa [hcol, marked_grey_iff hp]
          have hlt := mark_finishes.todoCount_enter hpz htodo
          rw [graph_mark_enter hp] at hlt
          omega
      cases hv : H.value pz with
      | object h =>
        obtain ⟨hr₁, hn₁⟩ := henter (not_symbolTable_of_object hv)
        by_cases hb : H.objectBuckets = true
        · simp only [if_pos hb]
          have hr₂ : ViewedNotGrey H M s₀ l ((s.zvalSetColor pz .grey).objAddRef h (-1))
              (H.graph.edge (-1) (.obj h) (t.paint (.zval pz) .grey)) := by
            refine ⟨⟨?_, hr₁.1.2.trans (.objAddRef _ h (-1))⟩, fun n hnM hp => ?_⟩
            · rw [view_objAddRef_edge, hr₁.1.1]
            · rw [edge_color]
              exact hr₁.2 n hnM hp
          have hn₂ := (mark_finishes.todoCount_edge (M := M) (.obj h)
            (t.paint (.zval pz) .grey)).trans hn₁.le
          split
          · rename_i hc₂
            exact zobj_mark_isSome hM ih (hM.object hpz hv hb) hr₂ hc₂ hn₂
          · rfl
        · simp only [if_neg hb]
          rfl
      | array ht =>
        by_cases hs : ht = H.symbolTable
        · simp only [if_pos hs]
          rfl
        · obtain ⟨hr₁, hn₁⟩ := henter (not_symbolTable_of_array hv hs)
          simp only [if_neg hs]
          exact walkTable_isSome mark_finishes
            (markGreyChild_follows (zvalMarkGrey_visit hM s₀ l fuel)) (fun _ h => h) (markGreyChild_isSome ih)
            (hM.table hpz hv hs) hr₁ hn₁
      | scalar => rfl
    · rfl

theorem zobjMarkGrey_isSome (hM : H.Closed M) (hh : .obj h ∈ M)
    (hr : ViewedNotGrey H M s₀ l s t) (hf : M.card ≤ fuel) : (zobjMarkGrey H fuel h s).isSome := by
  simp only [zobjMarkGrey]
  split
  · rename_i hc
    apply zobj_mark_isSome hM (zvalMarkGrey_isSome hM s₀ l fuel) hh hr hc
    exact (Walk.Finishes.todoCount_le_card t).trans hf
  · rfl

/-! ## `zval_scan` -/

/-- `zval_scan` returns, as it leaves enough for `zval_scan_black`. -/
def ScanReturns (H : Heap) (M : Finset Node) (l : List ZvalPtr) (fuel : ℕ) : Prop :=
  ∀ pz s, .zval pz ∈ M → (H.graph.scan UInt32).todoCount M (s.view l) + M.card < fuel →
    (zvalScan H fuel pz s).isSome

theorem zvalScan_child_isSome (ih : ScanReturns H M l fuel) :
    ∀ pz s t, .zval pz ∈ M → Viewed s₀ l s t →
      (H.graph.scan UInt32).todoCount M t < fuel - M.card → (zvalScan H fuel pz s).isSome := by
  rintro pz s t hpz ⟨rfl, -⟩ hn
  exact ih pz s hpz (by omega)

theorem zobj_scan_isSome (hM : H.Closed M)
    (ih : ScanReturns H M l fuel) (hh : .obj h ∈ M)
    (hn : (H.graph.scan UInt32).todoCount M (s.view l) + M.card ≤ fuel) :
    (if (s.obj h).word.color = .grey then
      if 0 < (s.obj h).refcount then zobjScanBlack H fuel h s
      else H.walkObject (zvalScan H fuel) h (s.objSetColor h .white) else some s).isSome := by
  split
  · rename_i hc
    split
    · exact zobjScanBlack_isSome hM hh (by omega)
    · have htodo : (H.graph.scan UInt32).todo (s.view l) (.obj h) := hc
      have hlt := scan_finishes.todoCount_enter hh htodo
      have hsc : H.graph.scanned (.obj h) = .white := rfl
      rw [walkObject_eq]
      apply walkTable_isSome scan_finishes (zvalScan_follows s (zvalScan_visit H l fuel))
        (fun _ _ => trivial)
        (zvalScan_child_isSome ih) (hM.children hh) ⟨rfl, .objSetColor s h .white⟩
      rw [view_objSetColor, ← hsc]
      show (H.graph.scan UInt32).todoCount M ((H.graph.scan UInt32).enter (.obj h) (s.view l)) < _
      omega
  · rfl

theorem zvalScan_isSome (hM : H.Closed M) (l : List ZvalPtr)
    (fuel : ℕ) : ScanReturns H M l fuel := by
  induction fuel with
  | zero => exact fun pz s _ hn => absurd hn (Nat.not_lt_zero _)
  | succ fuel ih =>
    intro pz s hpz hn
    simp only [zvalScan]
    split
    · rename_i hc
      have htodo : (H.graph.scan UInt32).todo (s.view l) (.zval pz) := hc
      have hpos := todoCount_pos hpz htodo
      split
      · apply zvalScanBlack_isSome hM l fuel pz s hpz
        · show (s.zval pz).word.color ≠ .black
          rw [hc]
          simp
        · have := Walk.Finishes.todoCount_le_card (W := H.graph.blacken UInt32) (M := M) (s.view l)
          omega
      · have hlt := scan_finishes.todoCount_enter hpz htodo
        have henter : H.isSymbolTable pz = false →
            (H.graph.scan UInt32).todoCount M ((s.zvalSetColor pz .white).view l) + M.card <
              fuel := fun hp => by
          rw [view_zvalSetColor, ← zval_scanned hp]
          show (H.graph.scan UInt32).todoCount M ((H.graph.scan UInt32).enter (.zval pz) (s.view l))
            + M.card < fuel
          omega
        cases hv : H.value pz with
        | object h =>
          have hn₁ := henter (not_symbolTable_of_object hv)
          by_cases hb : H.objectBuckets = true
          · simp only [if_pos hb]
            exact zobj_scan_isSome hM ih (hM.object hpz hv hb) hn₁.le
          · simp only [if_neg hb]
            rfl
        | array ht =>
          by_cases hs : ht = H.symbolTable
          · simp only [if_pos hs]
            rfl
          · have hn₁ := henter (not_symbolTable_of_array hv hs)
            simp only [if_neg hs]
            exact walkTable_isSome scan_finishes
              (zvalScan_follows (s.zvalSetColor pz .white) (zvalScan_visit H l fuel))
              (fun _ _ => trivial)
              (zvalScan_child_isSome ih) (hM.table hpz hv hs) ⟨rfl, .refl _⟩ (by omega)
        | scalar => rfl
    · rfl

theorem zobjScan_isSome (hM : H.Closed M) (hh : .obj h ∈ M)
    (hf : 2 * M.card ≤ fuel) : (zobjScan H fuel h s).isSome := by
  simp only [zobjScan]
  split
  · apply zobj_scan_isSome (l := []) hM (zvalScan_isSome hM [] fuel) hh
    have := Walk.Finishes.todoCount_le_card (W := H.graph.scan UInt32) (M := M) (s.view [])
    omega
  · rfl

/-! ## `zval_collect_white` -/

/-- `zval_collect_white` returns. -/
def CollectReturns (H : Heap) (M : Finset Node) (fuel : ℕ) : Prop :=
  ∀ pz s t, .zval pz ∈ M → ViewedCollecting H M s t →
    (H.graph.collect UInt32).todoCount M t < fuel → (zvalCollectWhite H fuel pz s).isSome

theorem collectChild_isSome (ih : CollectReturns H M fuel) :
    ∀ pz s t, .zval pz ∈ M → ViewedCollecting H M s t →
      (H.graph.collect UInt32).todoCount M t < fuel → (collectChild H fuel pz s).isSome := by
  rintro pz s t hpz ⟨l, rfl, hr⟩ hn
  apply ih pz _ _ hpz ⟨l, rfl, hr.addRef 1 pz⟩
  rw [view_addRef]
  exact (collect_finishes.todoCount_edge (.zval pz) (s.view l)).trans_lt hn

theorem zobj_collect_isSome (hM : H.Closed M) (ih : CollectReturns H M fuel) (hh : .obj h ∈ M)
    (hr : Collecting H M l s) {zs : List ZvalPtr} (hzs : ∀ pz ∈ zs, .zval pz ∈ M)
    (hc : (s.obj h).word = .white)
    (hn : (H.graph.collect UInt32).todoCount M (s.view l) ≤ fuel) :
    (walkTable (collectChild H fuel) zs (s.objSetColor h .purple)).isSome := by
  have hlt := collect_finishes.todoCount_enter hh ((hr.todo_obj hh).mpr hc)
  apply walkTable_isSome collect_finishes (collectChild_follows (zvalCollectWhite_visit hM fuel)) (fun _ h => h)
    (collectChild_isSome ih) hzs ⟨l, rfl, hr.objSetColor h⟩
  rw [view_objSetColor]
  exact hlt.trans_le hn

theorem zval_collect_isSome (hM : H.Closed M)
    (ih : CollectReturns H M fuel) (hh : .obj h ∈ M) (hr : Collecting H M l s)
    (hword : (s.zval pz).word = ⟨.null, .black⟩) (hc : (s.obj h).word = .white)
    (hn : (H.graph.collect UInt32).todoCount M (s.view l) ≤ fuel) :
    (if (H.bucket h).valid then
      match (H.bucket h).getGc with
      | some ⟨table, none⟩ =>
        walkSlots (collectChild H fuel) table ((s.objSetColor h .purple).putOnList pz)
      | some ⟨table, some props⟩ =>
        (walkSlots (collectChild H fuel) table (s.objSetColor h .purple)).bind fun s =>
          walkTable (collectChild H fuel) (H.table props) (s.putOnList pz)
      | none => some ((s.objSetColor h .purple).putOnList pz)
      else some ((s.objSetColor h .purple).putOnList pz)).isSome := by
  have hpz : pz ∉ l := hr.not_mem (Or.inl (by rw [hword]))
  have hput : (s.putOnList pz).view (pz :: l) = (s.view l).list (.zval pz) :=
    view_putOnList (by rw [hword]; rfl) (by rw [hword]) hr.zvalToFree
  have hchild := hM.children hh
  split
  · rename_i hv
    cases hg : (H.bucket h).getGc with
    | none => rfl
    | some g =>
      obtain ⟨table, props⟩ := g
      cases props with
      | none =>
        have hch : H.children h = table.filterMap id := by simp [Heap.children, hv, hg]
        rw [hch] at hchild
        simp only [walkSlots_eq]
        apply zobj_collect_isSome hM ih hh (hr.putOnList hpz) hchild hc
        rw [hput]
        exact hn
      | some props =>
        have hch : H.children h = table.filterMap id ++ H.table props := by
          simp [Heap.children, hv, hg]
        rw [hch] at hchild
        have h3 := zobj_collect_isSome hM ih hh hr
          (fun q hq => hchild q (List.mem_append_left _ hq)) hc hn
        obtain ⟨s₃, h3⟩ := Option.isSome_iff_exists.mp h3
        obtain ⟨l₃, hr₃, hv₃, hput₃⟩ :=
          zval_collect_table (zvalCollectWhite_visit hM fuel) hr hword
            (fun q hq => hchild q (List.mem_append_left _ hq)) h3
        simp only [walkSlots_eq, h3, Option.bind_some]
        apply walkTable_isSome collect_finishes
          (collectChild_follows (zvalCollectWhite_visit hM fuel)) (fun _ h => h) (collectChild_isSome ih)
          (fun q hq => hchild q (List.mem_append_right _ hq)) ⟨_, rfl, hr₃⟩
        rw [hput₃]
        have hlt := collect_finishes.todoCount_enter hh ((hr.todo_obj hh).mpr hc)
        exact (collect_finishes.todoCount_visits hv₃).trans_lt (hlt.trans_le hn)
  · rfl

theorem zvalCollectWhite_isSome (hM : H.Closed M) (fuel : ℕ) :
    CollectReturns H M fuel := by
  induction fuel with
  | zero => exact fun pz s t _ _ hn => absurd hn (Nat.not_lt_zero _)
  | succ fuel ih =>
    rintro pz s t hpz ⟨l, rfl, hr⟩ hn
    simp only [zvalCollectWhite]
    split
    · rename_i hw
      obtain ⟨hr₁, hview⟩ := hr.view_put hw
      have hlt := collect_finishes.todoCount_enter hpz ((hr.todo_zval hpz).mpr hw)
      rw [← hview] at hlt
      have hword : ((s.zvalSetColor pz .black).zval pz).word = ⟨.null, .black⟩ := by
        simp [Cells.zvalSetColor, hw, Word.white]
      have hr₀ := hr.zvalSetColor pz
      have hput := view_putOnList (s := s.zvalSetColor pz .black) (l := l)
        (by rw [hword]; rfl) (by rw [hword]) hr₀.zvalToFree
      generalize s.zvalSetColor pz .black = s₁ at hr₀ hr₁ hword hlt hput ⊢
      cases hv : H.value pz with
      | object h =>
        by_cases hb : H.objectBuckets = true
        · have hh := hM.object hpz hv hb
          by_cases ho : (s₁.obj h).word = .white
          · simp only [if_pos hb, if_pos ho]
            apply zval_collect_isSome hM ih hh hr₀ hword ho
            have hle : (H.graph.collect UInt32).todoCount M (s₁.view l) ≤
                (H.graph.collect UInt32).todoCount M ((s₁.putOnList pz).view (pz :: l)) := by
              rw [hput]
              rfl
            omega
          · simp only [if_pos hb, if_neg ho]
            rfl
        · simp only [if_neg hb]
          rfl
      | array ht =>
        have hp : H.isSymbolTable pz = false := (hr.zval_white pz hpz (by rw [hw]; rfl)).1
        have hs : ht ≠ H.symbolTable := fun hs => by
          rw [(H.isSymbolTable_iff pz).mpr (hs ▸ hv)] at hp
          simp at hp
        exact walkTable_isSome collect_finishes
          (collectChild_follows (zvalCollectWhite_visit hM fuel)) (fun _ h => h) (collectChild_isSome ih)
          (hM.table hpz hv hs) ⟨_, rfl, hr₁⟩ (by omega)
      | scalar => rfl
    · rfl

theorem zobjCollectWhite_isSome (hM : H.Closed M) (hh : .obj h ∈ M)
    (hr : Collecting H M l s) (hf : M.card ≤ fuel) : (zobjCollectWhite H fuel h s).isSome := by
  simp only [zobjCollectWhite]
  split
  · split
    · rename_i hc
      rw [walkObject_eq]
      apply zobj_collect_isSome hM (zvalCollectWhite_isSome hM fuel) hh hr (hM.children hh) hc
      exact (Walk.Finishes.todoCount_le_card _).trans hf
    · rfl
  · rfl

end PhpRuntime.Gc

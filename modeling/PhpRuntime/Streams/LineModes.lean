import PhpRuntime.Streams.ReadSplits

/-!
# Lines and the portions of a file

`_php_stream_get_line` in grow mode, with the three ways in which `php_stream_locate_eol` looks
for the end of a line. Where the bytes ahead decide what ends a line, the lines are those of the
bytes ahead, in whatever portions they come into the read buffer.
-/

set_option autoImplicit false

namespace PhpRuntime.Streams

open PhpRuntime.Lib

variable {σ : Type}

/-- `PHP_STREAM_FLAG_DETECT_EOL` is set, or `PHP_STREAM_FLAG_EOL_MAC`, or none of them. -/
inductive EolMode where
  | detect
  | mac
  | unix
  deriving DecidableEq, Repr

/-- `php_stream_locate_eol`: how many bytes are before the end of the line, and the flags then. -/
def locateEolIn (mode : EolMode) (bytes : List UInt8) : Option ℕ × EolMode :=
  let cr := bytes.findIdx? fun c => c = 13
  let lf := bytes.findIdx? fun c => c = 10
  match mode with
  | .detect =>
    match cr, lf with
    | some cr, none => (some cr, .mac)
    | some cr, some lf => if lf ≠ cr + 1 ∧ ¬ lf < cr then (some cr, .mac) else (some lf, .unix)
    | none, some lf => (some lf, .unix)
    | none, none => (none, .detect)
  | .mac => (cr, .mac)
  | .unix => (lf, .unix)

variable (file : ByteFile σ) (o : Options)

/-- The loop of `_php_stream_get_line` in grow mode. -/
def modeLoop : ℕ → Stream σ → EolMode → List UInt8 × Stream σ × EolMode
  | 0, s, mode => ([], s, mode)
  | n + 1, s, mode =>
    if 0 < s.available then
      let r := locateEolIn mode s.buffered
      match r.1 with
      | some i => (s.buffered.take (i + 1), s.consume (i + 1), r.2)
      | none =>
        let rest := modeLoop n (s.consume s.available) r.2
        (s.buffered.take s.available ++ rest.1, rest.2)
    else if s.eof then ([], s, mode)
    else
      let s := fillReadBuffer file o s o.chunk_size
      if s.available = 0 then ([], s, mode) else modeLoop n s mode

/-- `_php_stream_get_line` without a buffer, on a stream and its flags. -/
def getLineIn (p : Stream σ × EolMode) : Option (List UInt8) × Stream σ × EolMode :=
  let r := modeLoop file o (2 * (file.contents p.1.abstract).length + 2) p.1 p.2
  (if r.1 = [] then none else some r.1, r.2)

variable {file}

/-! ## The end of a line -/

/-- The line at the front: it ends with the first `e`, or has everything. -/
def lineAt (e : UInt8) : List UInt8 → List UInt8
  | [] => []
  | c :: t => if c = e then [c] else c :: lineAt e t

theorem lineAt_append {e : UInt8} {a : List UInt8} (ha : e ∉ a) (b : List UInt8) :
    lineAt e (a ++ b) = a ++ lineAt e b := by
  induction a with
  | nil => rfl
  | cons c a ih =>
    rw [List.mem_cons, not_or] at ha
    rw [List.cons_append, lineAt, if_neg (fun h => ha.1 h.symm), ih ha.2, List.cons_append]

theorem lineAt_append_cons {e : UInt8} {a : List UInt8} (ha : e ∉ a) (b : List UInt8) :
    lineAt e (a ++ e :: b) = a ++ [e] := by
  rw [lineAt_append ha, lineAt, if_pos rfl]

theorem lineAt_eq_nil_iff {e : UInt8} {a : List UInt8} : lineAt e a = [] ↔ a = [] := by
  cases a with
  | nil => simp [lineAt]
  | cons c a =>
    unfold lineAt
    split <;> simp

def EolFree (bytes : List UInt8) : Prop := 13 ∉ bytes ∧ 10 ∉ bytes

theorem EolFree.not_mem {bytes : List UInt8} (h : EolFree bytes) {e : UInt8}
    (he : e = 13 ∨ e = 10) : e ∉ bytes := by
  rcases he with rfl | rfl
  · exact h.1
  · exact h.2

theorem EolFree.append {a b : List UInt8} (ha : EolFree a) (hb : EolFree b) : EolFree (a ++ b) := by
  unfold EolFree at *
  simp only [List.mem_append, not_or]
  exact ⟨⟨ha.1, hb.1⟩, ha.2, hb.2⟩

theorem EolFree.subset {a b : List UInt8} (hb : EolFree b) (hsub : a ⊆ b) : EolFree a :=
  ⟨fun h => hb.1 (hsub h), fun h => hb.2 (hsub h)⟩

theorem eolFree_or_exists (bytes : List UInt8) : EolFree bytes ∨
    ∃ pre c t, EolFree pre ∧ (c = 13 ∨ c = 10) ∧ bytes = pre ++ c :: t := by
  induction bytes with
  | nil => exact Or.inl ⟨List.not_mem_nil, List.not_mem_nil⟩
  | cons c bytes ih =>
    by_cases hc : c = 13 ∨ c = 10
    · exact Or.inr ⟨[], c, bytes, ⟨List.not_mem_nil, List.not_mem_nil⟩, hc, rfl⟩
    · rw [not_or] at hc
      have hone : EolFree [c] :=
        ⟨fun h => hc.1 (List.mem_singleton.mp h).symm, fun h => hc.2 (List.mem_singleton.mp h).symm⟩
      rcases ih with hfree | ⟨pre, e, t, hpre, he, rfl⟩
      · exact Or.inl (hone.append hfree)
      · exact Or.inr ⟨c :: pre, e, t, hone.append hpre, he, rfl⟩

theorem EolFree.unique {pre pre' t t' : List UInt8} {c c' : UInt8} (hpre : EolFree pre)
    (hpre' : EolFree pre') (hc : c = 13 ∨ c = 10) (hc' : c' = 13 ∨ c' = 10)
    (h : pre ++ c :: t = pre' ++ c' :: t') : c = c' ∧ t = t' := by
  induction pre generalizing pre' with
  | nil =>
    cases pre' with
    | nil => exact List.cons.inj h
    | cons b pre' =>
      obtain rfl := (List.cons.inj h).1
      exact absurd List.mem_cons_self (hpre'.not_mem hc)
  | cons a pre ih =>
    cases pre' with
    | nil =>
      obtain rfl := (List.cons.inj h).1
      exact absurd List.mem_cons_self (hpre.not_mem hc')
    | cons b pre' =>
      exact ih (hpre.subset (List.subset_cons_self a pre))
        (hpre'.subset (List.subset_cons_self b pre')) (List.cons.inj h).2

theorem findIdx?_append_cons {e : UInt8} {a : List UInt8} (ha : e ∉ a) (b : List UInt8) :
    (a ++ e :: b).findIdx? (fun c => c = e) = some a.length := by
  rw [List.findIdx?_append, List.findIdx?_eq_none_iff.mpr]
  · simp [List.findIdx?_cons]
  · intro c hc
    simp only [decide_eq_false_iff_not]
    rintro rfl
    exact ha hc

theorem findIdx?_of_not_mem {e : UInt8} {a : List UInt8} (ha : e ∉ a) :
    a.findIdx? (fun c => c = e) = none := by
  rw [List.findIdx?_eq_none_iff]
  intro c hc
  simp only [decide_eq_false_iff_not]
  rintro rfl
  exact ha hc

/-! ## Detection -/

theorem locateEolIn_detect {pre : List UInt8} (hpre : EolFree pre) :
    locateEolIn .detect pre = (none, .detect) ∧
      (∀ t, locateEolIn .detect (pre ++ 10 :: t) = (some pre.length, .unix)) ∧
      (∀ t, t.head? ≠ some 10 →
        locateEolIn .detect (pre ++ 13 :: t) = (some pre.length, .mac)) ∧
      ∀ t, locateEolIn .detect (pre ++ 13 :: 10 :: t) = (some (pre.length + 1), .unix) := by
  have hcr : ∀ t, (pre ++ 13 :: t).findIdx? (fun c => c = 13) = some pre.length :=
    findIdx?_append_cons hpre.1
  have hlf : ∀ t, (pre ++ 10 :: t).findIdx? (fun c => c = 10) = some pre.length :=
    findIdx?_append_cons hpre.2
  have hbehind : ∀ (e c : UInt8) (t : List UInt8), e ∉ pre → c ≠ e →
      (pre ++ c :: t).findIdx? (fun c => c = e) =
        (t.findIdx? fun c => c = e).map (· + (pre.length + 1)) := by
    intro e c t he hne
    rw [List.findIdx?_append, findIdx?_of_not_mem he, List.findIdx?_cons, if_neg (by simpa using hne)]
    cases t.findIdx? fun c => c = e with
    | none => rfl
    | some k =>
      simp only [Option.map_some, Option.none_or]
      exact congrArg some (by omega)
  refine ⟨?_, fun t => ?_, fun t ht => ?_, fun t => ?_⟩
  · unfold locateEolIn
    rw [findIdx?_of_not_mem hpre.1, findIdx?_of_not_mem hpre.2]
  · unfold locateEolIn
    rw [hlf, hbehind 13 10 t hpre.1 (by decide)]
    cases t.findIdx? fun c => c = 13 with
    | none => rfl
    | some k =>
      dsimp only [Option.map_some]
      rw [if_neg (by omega)]
  · unfold locateEolIn
    rw [hcr, hbehind 10 13 t hpre.2 (by decide)]
    cases t with
    | nil => rfl
    | cons c t =>
      have hc : c ≠ 10 := fun h => ht (congrArg some h)
      rw [List.findIdx?_cons, if_neg (by simpa using hc)]
      cases t.findIdx? fun c => c = 10 with
      | none => rfl
      | some k =>
        dsimp only [Option.map_some]
        rw [if_pos (by omega)]
  · unfold locateEolIn
    rw [hcr, hbehind 10 13 (10 :: t) hpre.2 (by decide), List.findIdx?_cons]
    simp

/-- The lines that are read from the bytes ahead end with `e`, whatever is in the read buffer. -/
def Decides (mode : EolMode) (e : UInt8) (ahead : List UInt8) : Prop :=
  match mode with
  | .mac => e = 13
  | .unix => e = 10
  | .detect => (e = 13 ∨ e = 10) ∧ ∀ pre c t, EolFree pre → (c = 13 ∨ c = 10) →
      ahead = pre ++ c :: t → c = e ∧ ¬ (c = 13 ∧ t.head? = some 10)

theorem locateEolIn_fixed {mode : EolMode} {e : UInt8} {seen rest : List UInt8}
    (hnone : e ∉ seen → locateEolIn mode seen = (none, mode))
    (hsome : ∀ pre t, e ∉ pre → seen = pre ++ e :: t →
      ∃ mode', locateEolIn mode seen = (some pre.length, mode') ∧ ∀ l, Decides mode' e l)
    (hrest : e ∉ seen → Decides mode e rest) :
    let r := locateEolIn mode seen
    (r.1 = none → r.2 = mode ∧ e ∉ seen ∧ Decides mode e rest) ∧
      ∀ i, r.1 = some i → i < seen.length ∧ seen.take (i + 1) = lineAt e (seen ++ rest) ∧
        ∀ l, Decides r.2 e l := by
  by_cases hmem : e ∈ seen
  · obtain ⟨pre, t, rfl, hpre⟩ := List.eq_append_cons_of_mem hmem
    obtain ⟨mode', heq, hmode⟩ := hsome pre t hpre rfl
    rw [heq]
    refine ⟨fun h => absurd h (by simp), fun i hi => ?_⟩
    obtain rfl := Option.some.inj hi
    refine ⟨?_, ?_, hmode⟩
    · rw [List.length_append, List.length_cons]
      omega
    · rw [List.append_assoc, List.cons_append, lineAt_append_cons hpre, List.take_append,
        List.take_of_length_le (by omega), Nat.add_sub_cancel_left]
      rfl
  · rw [hnone hmem]
    exact ⟨fun _ => ⟨rfl, hmem, hrest hmem⟩, fun i hi => absurd hi (by simp)⟩

/-- What `php_stream_locate_eol` finds in the bytes that are seen so far. -/
theorem locateEolIn_spec {mode : EolMode} {e : UInt8} {seen rest : List UInt8}
    (h : Decides mode e (seen ++ rest)) :
    let r := locateEolIn mode seen
    (r.1 = none → r.2 = mode ∧ e ∉ seen ∧ Decides mode e rest) ∧
      ∀ i, r.1 = some i → i < seen.length ∧ seen.take (i + 1) = lineAt e (seen ++ rest) ∧
        ∀ l, Decides r.2 e l := by
  cases mode with
  | mac =>
    obtain rfl : e = 13 := h
    refine locateEolIn_fixed (fun hmem => ?_) (fun pre t hpre hseen => ⟨.mac, ?_, fun _ => rfl⟩)
      (fun _ => rfl)
    · unfold locateEolIn
      rw [findIdx?_of_not_mem hmem]
    · unfold locateEolIn
      rw [hseen, findIdx?_append_cons hpre]
  | unix =>
    obtain rfl : e = 10 := h
    refine locateEolIn_fixed (fun hmem => ?_) (fun pre t hpre hseen => ⟨.unix, ?_, fun _ => rfl⟩)
      (fun _ => rfl)
    · unfold locateEolIn
      rw [findIdx?_of_not_mem hmem]
    · unfold locateEolIn
      rw [hseen, findIdx?_append_cons hpre]
  | detect =>
    obtain ⟨he, hfirst⟩ := h
    rcases eolFree_or_exists seen with hfree | ⟨pre, c, t, hpre, hc, rfl⟩
    · obtain ⟨hlocate, -⟩ := locateEolIn_detect hfree
      refine locateEolIn_fixed (fun _ => hlocate) (fun pre t _ hseen => ?_) (fun _ => ⟨he, ?_⟩)
      · refine absurd ?_ (hfree.not_mem he)
        rw [hseen]
        exact List.mem_append_right _ List.mem_cons_self
      · intro pre c t hpre hc hrest
        apply hfirst (seen ++ pre) c t (hfree.append hpre) hc
        rw [hrest, List.append_assoc]
    · obtain ⟨-, hlf, hcr, -⟩ := locateEolIn_detect hpre
      obtain ⟨rfl, hcrlf⟩ := hfirst pre c (t ++ rest) hpre hc (by simp)
      have hsplit : ∀ pre' t', c ∉ pre' → pre ++ c :: t = pre' ++ c :: t' → pre' = pre := by
        intro pre' t' hpre' heq
        have hlen := findIdx?_append_cons hpre' t'
        rw [← heq, findIdx?_append_cons (hpre.not_mem hc)] at hlen
        have := congrArg (List.take pre'.length) heq
        rw [List.take_left, ← Option.some.inj hlen, List.take_left] at this
        exact this.symm
      refine locateEolIn_fixed (fun hmem => ?_) (fun pre' t' hpre' heq => ?_) (fun hmem => ?_)
      · exact absurd (List.mem_append_right _ List.mem_cons_self) hmem
      · rw [hsplit pre' t' hpre' heq]
        rcases hc with rfl | rfl
        · refine ⟨.mac, hcr t fun hhead => hcrlf ⟨rfl, ?_⟩, fun _ => rfl⟩
          rw [List.head?_append, hhead]
          rfl
        · exact ⟨.unix, hlf t, fun _ => rfl⟩
      · exact absurd (List.mem_append_right _ List.mem_cons_self) hmem

/-! ## Lines -/

/-- The line at the front of `ahead`, and what is behind it. -/
def takeLine (e : UInt8) (ahead : List UInt8) : Option (List UInt8) × List UInt8 :=
  (if ahead = [] then none else some (lineAt e ahead), ahead.drop (lineAt e ahead).length)

variable {o} {s : Stream σ}

/-- The loop of `_php_stream_get_line` returns the line at the front of the bytes ahead. -/
theorem modeLoop_eq (hend : file.FlagsEnd) (o : Options) (n : ℕ) :
    ∀ {s : Stream σ} {mode : EolMode} {e : UInt8}, Ready file s → lineRounds file s < n →
      Decides mode e (cursor file s).ahead →
      let r := modeLoop file o n s mode
      r.1 = lineAt e (cursor file s).ahead ∧ Ready file r.2.1 ∧
        (cursor file r.2.1).ahead = (cursor file s).ahead.drop r.1.length ∧
        Decides r.2.2 e (cursor file r.2.1).ahead := by
  induction n with
  | zero => exact fun _ hn => absurd hn (Nat.not_lt_zero _)
  | succ n ih =>
    intro s mode e h hn hdecides
    have hnothing : ∀ {s : Stream σ}, Ready file s → Decides mode e (cursor file s).ahead →
        (cursor file s).ahead = [] →
        ([] : List UInt8) = lineAt e (cursor file s).ahead ∧ Ready file s ∧
          (cursor file s).ahead = (cursor file s).ahead.drop ([] : List UInt8).length ∧
          Decides mode e (cursor file s).ahead := by
      intro s h hdecides hnil
      exact ⟨(lineAt_eq_nil_iff.mpr hnil).symm, h, rfl, hdecides⟩
    have hlen := h.synced.length_buffered
    unfold modeLoop
    dsimp only
    by_cases havail : 0 < s.available
    · rw [if_pos havail]
      obtain ⟨rest, hrest⟩ := h.synced.buffered
      rw [← hrest] at hdecides
      obtain ⟨hnone, hsome⟩ := locateEolIn_spec hdecides
      cases hlocate : (locateEolIn mode s.buffered).1 with
      | some i =>
        obtain ⟨hi, hline, hmode⟩ := hsome i hlocate
        obtain ⟨hready, hahead⟩ := h.consume (show i + 1 ≤ s.available by omega)
        dsimp only
        rw [hline, ← hrest]
        refine ⟨rfl, hready, ?_, hmode _⟩
        rw [hahead, ← hrest, ← hline, List.length_take, Nat.min_eq_left (by omega)]
      | none =>
        obtain ⟨hmode, hnot, hdecides'⟩ := hnone hlocate
        obtain ⟨hready, hahead⟩ := h.consume (Nat.le_refl s.available)
        have hreads := h.synced.reads_buffered (List.prefix_refl s.buffered)
        rw [hlen] at hreads
        have hless := hreads.lineRounds_lt havail hlen
        have hbehind : (cursor file (s.consume s.available)).ahead = rest := by
          rw [hahead, ← hrest, ← hlen, List.drop_left]
        rw [← hbehind] at hdecides'
        obtain ⟨hbytes, hready', hahead', hmode'⟩ := ih hready (by omega) hdecides'
        dsimp only
        rw [hmode]
        generalize modeLoop file o n (s.consume s.available) mode = r at *
        rw [hbehind] at hbytes hahead'
        rw [← hrest, lineAt_append hnot, ← hbytes, ← hlen, List.take_length]
        refine ⟨rfl, hready', ?_, hmode'⟩
        rw [hahead', List.length_append, ← List.drop_drop, List.drop_left]
    · rw [if_neg havail]
      by_cases heof : s.eof = true
      · rw [if_pos heof]
        have hall := h.eof heof
        exact hnothing h hdecides (List.eq_nil_of_length_eq_zero (by omega))
      · rw [if_neg heof]
        have hpos := o.chunk_pos
        obtain ⟨hready, hahead, hmore⟩ := h.fill hend o o.chunk_size
        generalize fillReadBuffer file o s o.chunk_size = s' at *
        rw [← hahead.cursor] at hdecides hmore ⊢
        by_cases hempty : s'.available = 0
        · rw [if_pos hempty]
          obtain ⟨-, hall⟩ := hmore (by omega) (by omega)
          exact hnothing hready hdecides (List.eq_nil_of_length_eq_zero (by omega))
        · rw [if_neg hempty]
          refine ih hready ?_ hdecides
          unfold lineRounds at hn ⊢
          rw [hahead.cursor, if_neg hempty]
          rw [if_pos (by omega)] at hn
          omega

/-- The rounds that `_php_stream_get_line` may need. -/
theorem lineRounds_lt (file : ByteFile σ) (s : Stream σ) :
    lineRounds file s < 2 * (file.contents s.abstract).length + 2 := by
  unfold lineRounds FileCursor.ahead cursor
  dsimp only
  rw [List.length_drop]
  split <;> omega

/-- **When the bytes ahead decide the end of a line, so they do each line.** -/
theorem getLineIn_eq (hend : file.FlagsEnd) (o : Options) {mode : EolMode} {e : UInt8}
    (h : Ready file s) (hdecides : Decides mode e (cursor file s).ahead) :
    let r := getLineIn file o (s, mode)
    let line := takeLine e (cursor file s).ahead
    r.1 = line.1 ∧ Ready file r.2.1 ∧ (cursor file r.2.1).ahead = line.2 ∧
      Decides r.2.2 e line.2 := by
  obtain ⟨hbytes, hready, hahead, hmode⟩ := modeLoop_eq hend o _ h (lineRounds_lt file s) hdecides
  unfold getLineIn takeLine
  dsimp only
  generalize modeLoop file o (2 * (file.contents s.abstract).length + 2) s mode = r at *
  rw [hahead] at hmode
  rw [hbytes] at hahead hmode ⊢
  simp only [lineAt_eq_nil_iff, true_and]
  exact ⟨hready, hahead, hmode⟩

theorem lines_eq (hend : file.FlagsEnd) (o : Options) {mode : EolMode} {e : UInt8} (n : ℕ)
    (h : Ready file s) (hdecides : Decides mode e (cursor file s).ahead) :
    Splitting.results (getLineIn file o) n (s, mode) =
      Splitting.results (takeLine e) n (cursor file s).ahead := by
  apply Splitting.results_eq_of_related (R := fun (p : Stream σ × EolMode) ahead =>
    Ready file p.1 ∧ (cursor file p.1).ahead = ahead ∧ Decides p.2 e ahead)
  · rintro ⟨s, mode⟩ ahead ⟨hready, rfl, hmode⟩
    exact getLineIn_eq hend o hready hmode
  · exact ⟨h, rfl, hdecides⟩

end PhpRuntime.Streams

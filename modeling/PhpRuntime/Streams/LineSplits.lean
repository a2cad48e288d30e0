import PhpRuntime.Streams.LineModes

/-!
# A CR and an LF in different portions

When the end of line is detected, the bytes that are in the read buffer at the first CR decide.
An LF behind the CR may come with it or with the next portion of the file, and so two ways to
read the same contents give different lines. This is the only case.
-/

set_option autoImplicit false

namespace PhpRuntime.Streams

open PhpRuntime.Lib

variable {σ : Type} {file : ByteFile σ} {s : Stream σ}

/-! ## A CR and an LF -/

/-- The first CR or LF is a CR, and an LF is right behind it. -/
def CrlfFirst (bytes : List UInt8) : Prop := ∃ pre t, EolFree pre ∧ bytes = pre ++ 13 :: 10 :: t

theorem exists_decides {bytes : List UInt8} (h : ¬ CrlfFirst bytes) :
    ∃ e, Decides .detect e bytes := by
  rcases eolFree_or_exists bytes with hfree | ⟨pre, c, t, hpre, hc, rfl⟩
  · refine ⟨10, Or.inr rfl, fun pre c t _ hc heq => absurd ?_ (hfree.not_mem hc)⟩
    rw [heq]
    exact List.mem_append_right _ List.mem_cons_self
  · refine ⟨c, hc, fun pre' c' t' hpre' hc' heq => ?_⟩
    obtain ⟨rfl, rfl⟩ := hpre.unique hpre' hc hc' heq
    refine ⟨rfl, fun ⟨h13, hhead⟩ => h ?_⟩
    cases t with
    | nil => cases hhead
    | cons d t =>
      obtain rfl := Option.some.inj hhead
      exact ⟨pre, t, hpre, by rw [h13]⟩

/-- The first line, when every read buffer with the first CR has the LF too (`both`), or none has.
`J` is what is known about the streams on the way. -/
theorem modeLoop_crlf (hend : file.FlagsEnd) (o : Options) {J : Stream σ → Prop} (both : Bool)
    (hconsume : ∀ s, Ready file s → J s → J (s.consume s.available))
    (hfill : ∀ s, Ready file s → J s → s.available = 0 → J (fillReadBuffer file o s o.chunk_size))
    (hboth : ∀ s pre t, Ready file s → J s → EolFree pre →
      (cursor file s).ahead = pre ++ 13 :: 10 :: t → pre.length < s.available →
        (pre.length + 1 < s.available ↔ both = true)) (n : ℕ) :
    ∀ {s : Stream σ} {pre t : List UInt8}, Ready file s → J s → lineRounds file s < n →
      EolFree pre → (cursor file s).ahead = pre ++ 13 :: 10 :: t →
      let r := modeLoop file o n s .detect
      r.1 = (pre ++ if both then [13, 10] else [13]) ∧ Ready file r.2.1 ∧
        (cursor file r.2.1).ahead = (cursor file s).ahead.drop r.1.length ∧
        r.2.2 = if both then .unix else .mac := by
  induction n with
  | zero => exact fun _ _ hn => absurd hn (Nat.not_lt_zero _)
  | succ n ih =>
    intro s pre t h hJ hn hpre hsplit
    have hlen := h.synced.length_buffered
    have htake : s.buffered = (pre ++ 13 :: 10 :: t).take s.available := by
      rw [← hsplit, ← hlen]
      exact List.prefix_iff_eq_take.mp h.synced.buffered
    obtain ⟨-, -, hcr, hcrlf⟩ := locateEolIn_detect hpre
    unfold modeLoop
    dsimp only
    by_cases havail : 0 < s.available
    · rw [if_pos havail]
      rcases Nat.lt_or_ge pre.length s.available with hlt | hge
      · have hiff := hboth s pre t h hJ hpre hsplit hlt
        have hdone : ∀ k < s.available, (s.buffered.take (k + 1)).length = k + 1 ∧
            Ready file (s.consume (k + 1)) ∧
            (cursor file (s.consume (k + 1))).ahead = (cursor file s).ahead.drop (k + 1) := by
          intro k hk
          refine ⟨?_, h.consume hk⟩
          rw [List.length_take, hlen]
          omega
        by_cases hmore : pre.length + 1 < s.available
        · have hbuf : s.buffered = pre ++ 13 :: 10 :: t.take (s.available - (pre.length + 2)) := by
            rw [htake, List.take_append, List.take_of_length_le (Nat.le_of_lt hlt)]
            obtain ⟨k, hk⟩ := Nat.exists_eq_add_of_lt hmore
            have h1 : s.available - pre.length = k + 2 := by omega
            have h2 : s.available - (pre.length + 2) = k := by omega
            rw [h1, h2]
            rfl
          have hline : s.buffered.take (pre.length + 1 + 1) = pre ++ [13, 10] := by
            have h2 : pre.length + 1 + 1 - pre.length = 2 := by omega
            rw [hbuf, List.take_append, List.take_of_length_le (by omega), h2]
            rfl
          obtain ⟨hlength, hready, hahead⟩ := hdone (pre.length + 1) hmore
          have hlocate : locateEolIn .detect s.buffered = (some (pre.length + 1), .unix) := by
            rw [hbuf, hcrlf]
          rw [hlocate, if_pos (hiff.mp hmore), if_pos (hiff.mp hmore)]
          dsimp only
          exact ⟨hline, hready, hlength.symm ▸ hahead, rfl⟩
        · have hbuf : s.buffered = pre ++ [13] := by
            rw [htake, List.take_append, List.take_of_length_le (Nat.le_of_lt hlt)]
            have h1 : s.available - pre.length = 1 := by omega
            rw [h1]
            rfl
          have hline : s.buffered.take (pre.length + 1) = pre ++ [13] := by
            rw [hbuf, List.take_of_length_le (by simp)]
          obtain ⟨hlength, hready, hahead⟩ := hdone pre.length hlt
          have hlocate : locateEolIn .detect s.buffered = (some pre.length, .mac) := by
            rw [hbuf, hcr [] (by simp)]
          have hnot : ¬ both = true := fun htrue => hmore (hiff.mpr htrue)
          rw [hlocate, if_neg hnot, if_neg hnot]
          dsimp only
          exact ⟨hline, hready, hlength.symm ▸ hahead, rfl⟩
      · have hbuf : s.buffered = pre.take s.available := by
          rw [htake, List.take_append_of_le_length hge]
        have hfree : EolFree s.buffered := by
          rw [hbuf]
          exact hpre.subset (List.take_subset _ _)
        have hreads := h.synced.reads_buffered (List.prefix_refl s.buffered)
        rw [hlen] at hreads
        have hless := hreads.lineRounds_lt havail hlen
        obtain ⟨hready, hahead⟩ := h.consume (Nat.le_refl s.available)
        have hbehind : (cursor file (s.consume s.available)).ahead =
            pre.drop s.available ++ 13 :: 10 :: t := by
          rw [hahead, hsplit, List.drop_append_of_le_length hge]
        obtain ⟨hline, hready', hahead', hmode⟩ := ih hready (hconsume s h hJ) (by omega)
          (hpre.subset (List.drop_subset s.available pre)) hbehind
        rw [(locateEolIn_detect hfree).1]
        dsimp only
        have hall : s.buffered.take s.available = s.buffered := List.take_of_length_le (by omega)
        refine ⟨?_, hready', ?_, hmode⟩
        · rw [hline, ← List.append_assoc, hall, hbuf, List.take_append_drop]
        · rw [hahead', hahead, List.drop_drop, List.length_append, hall, hlen]
    · rw [if_neg havail]
      have hpos : 0 < (cursor file s).ahead.length := by
        rw [hsplit, List.length_append, List.length_cons]
        omega
      by_cases heof : s.eof = true
      · have := h.eof heof
        omega
      · rw [if_neg heof]
        have hchunk := o.chunk_pos
        obtain ⟨hready, hahead, hmore⟩ := h.fill hend o o.chunk_size
        have hJ' := hfill s h hJ (by omega)
        generalize fillReadBuffer file o s o.chunk_size = s' at *
        by_cases hempty : s'.available = 0
        · obtain ⟨-, hall⟩ := hmore (by omega) (by omega)
          omega
        · rw [if_neg hempty]
          rw [← hahead.cursor] at hsplit ⊢
          refine ih hready hJ' ?_ hpre hsplit
          unfold lineRounds at hn ⊢
          rw [hahead.cursor, if_neg hempty]
          rw [if_pos (by omega)] at hn
          omega

theorem Ready.fill_empty (o : Options) (h : Ready file s) (hempty : s.available = 0) :
    ∃ n, o.chunk_size ≤ n ∧
      (file.contents s.abstract).drop (file.offset s.abstract) = (cursor file s).ahead ∧
      (fillReadBuffer file o s o.chunk_size).available =
        (file.read s.abstract s.eof n).1.length := by
  have hchunk := o.chunk_pos
  obtain ⟨n, hn, -, -, havail⟩ :=
    fillReadBuffer_read o h.synced (show s.available < o.chunk_size by omega)
  refine ⟨n, hn, ?_, ?_⟩
  · rw [h.synced.drop_offset, hempty, List.drop_zero]
  · rw [havail, hempty, Nat.zero_add]

theorem fillReadBuffer_one_byte (o : Options) (hone : o.chunk_size = 1) (h : Synced file s)
    (hempty : s.available = 0) (hlength : s.readbuf.length ≤ 1) :
    (fillReadBuffer file o s o.chunk_size).readbuf.length ≤ 1 := by
  obtain ⟨hpack, hspace⟩ := makeSpace_repacked o h
  have hread := h.read_le
  have hwrite := h.write_le
  have hsame : (makeSpace o s).readbuf.length ≤ 1 := by
    unfold Stream.available at hempty
    unfold makeSpace
    dsimp only
    rw [hone]
    by_cases hmove : s.readbuf ≠ [] ∧ s.readbuf.length - s.writepos < 1
    · rw [if_pos hmove]
      unfold Stream.moveToFront
      dsimp only
      rw [if_neg]
      · rw [List.length_append, List.length_drop, List.length_drop]
        omega
      · rw [List.length_append, List.length_drop, List.length_drop]
        have := List.length_pos_iff.mpr hmove.1
        omega
    · rw [if_neg hmove]
      by_cases hnil : s.readbuf = []
      · rw [hnil] at hwrite ⊢
        rw [if_pos (Nat.zero_sub _ ▸ Nat.one_pos)]
        exact Nat.le_refl 1
      · rw [if_neg (fun hlt => hmove ⟨hnil, hlt⟩)]
        exact hlength
  unfold fillReadBuffer
  rw [if_pos (by omega)]
  dsimp only
  have hbytes := file.read_length (makeSpace o s).abstract (makeSpace o s).eof
    ((makeSpace o s).readbuf.length - (makeSpace o s).writepos)
  simp only [List.length_append, List.length_take, List.length_drop]
  omega

theorem modeLoop_chunk_one (hend : file.FlagsEnd) (o : Options) (hone : o.chunk_size = 1) (n : ℕ)
    {pre t : List UInt8} (h : Ready file s) (hlength : s.readbuf.length ≤ 1)
    (hn : lineRounds file s < n) (hpre : EolFree pre)
    (hsplit : (cursor file s).ahead = pre ++ 13 :: 10 :: t) :
    let r := modeLoop file o n s .detect
    r.1 = pre ++ [13] ∧ Ready file r.2.1 ∧
      (cursor file r.2.1).ahead = (cursor file s).ahead.drop r.1.length ∧ r.2.2 = .mac := by
  refine modeLoop_crlf hend o (J := fun s => s.readbuf.length ≤ 1) false (fun _ _ hJ => hJ)
    (fun s h hJ hempty => fillReadBuffer_one_byte o hone h.synced hempty hJ) ?_ n h hlength hn hpre
    hsplit
  intro s pre t h hJ _ _ _
  have hwrite := h.synced.write_le
  unfold Stream.available
  exact ⟨fun hlt => by omega, fun hfalse => absurd hfalse (by simp)⟩

/-! ## Portions -/

/-- A file in memory that is read in portions: `portion` says for the bytes that are left how many,
less one, the next one has. -/
def portionedFile (portion : List UInt8 → ℕ) : ByteFile (FileCursor UInt8) where
  contents := FileCursor.contents
  offset := FileCursor.position
  valid := fun size offset => offset ≤ size
  read := fun f _ n =>
    let bytes := f.ahead.take (min n (portion f.ahead + 1))
    let f := f.advance bytes.length
    (bytes, f.ahead.isEmpty, f)
  write := fun f bytes => (bytes.length, f.write 0 bytes)
  seek := fun f off whence =>
    let target := whence.target f.position f.contents.length off
    (0, target, f.seek target.toNat)
  valid_of_le := memoryFile.valid_of_le
  read_prefix := fun _ _ _ => List.take_prefix _ _
  read_length := fun _ _ n => by
    rw [List.length_take]
    omega
  read_nonempty := fun f _ n hn hne hnil => by
    have hpos : 0 < f.ahead.length := List.length_pos_iff.mpr hne
    have hlen := congrArg List.length hnil
    rw [List.length_take, List.length_nil] at hlen
    omega
  read_contents := fun _ _ _ => rfl
  read_offset := fun _ _ _ => rfl
  write_length := fun _ _ => rfl
  write_contents := fun _ _ => rfl
  write_offset := fun _ _ => rfl
  seek_valid := fun f off whence target htarget _ hnonneg => by
    dsimp only
    rw [htarget]
    exact ⟨rfl, rfl, rfl, Int.toNat_of_nonneg hnonneg⟩

theorem portionedFile_source (portion : List UInt8 → ℕ) (contents : List UInt8) :
    Source (portionedFile portion) { contents := contents, position := 0 } contents where
  contents := rfl
  offset := rfl
  flagsEnd := by
    refine ⟨fun f eof n hn hnil => ?_, fun f eof n hflag => List.isEmpty_iff.mp hflag⟩
    have hlen := congrArg List.length hnil
    change (f.ahead.take (min n (portion f.ahead + 1))).length = 0 at hlen
    rw [List.length_take] at hlen
    have hahead : f.ahead = [] := List.eq_nil_of_length_eq_zero (by omega)
    change (f.advance (f.ahead.take (min n (portion f.ahead + 1))).length).ahead.isEmpty = true
    rw [FileCursor.ahead_advance, hahead, List.drop_nil]
    rfl

theorem portionedFile_read_length (portion : List UInt8 → ℕ) (f : FileCursor UInt8) (eof : Bool)
    (n : ℕ) : ((portionedFile portion).read f eof n).1.length =
      min (min n (portion f.ahead + 1)) f.ahead.length :=
  List.length_take

theorem modeLoop_byte_by_byte (o : Options) (n : ℕ) {s : Stream (FileCursor UInt8)}
    {pre t : List UInt8} (h : Ready (portionedFile fun _ => 0) s) (havail : s.available ≤ 1)
    (hn : lineRounds (portionedFile fun _ => 0) s < n) (hpre : EolFree pre)
    (hsplit : (cursor (portionedFile fun _ => 0) s).ahead = pre ++ 13 :: 10 :: t) :
    (modeLoop (portionedFile fun _ => 0) o n s .detect).1 = pre ++ [13] := by
  refine (modeLoop_crlf (portionedFile_source _ []).flagsEnd o (J := fun s => s.available ≤ 1) false
    (fun s h hJ => ?_) (fun s h hJ hempty => ?_) ?_ n h havail hn hpre hsplit).1
  · rw [(h.synced.consume (Nat.le_refl s.available)).2.2]
    omega
  · obtain ⟨n, -, -, hfill⟩ := h.fill_empty o hempty
    rw [portionedFile_read_length] at hfill
    omega
  · intro s pre t _ hJ _ _ _
    exact ⟨fun hlt => by omega, fun hfalse => absurd hfalse (by simp)⟩

/-- The portions end in front of the first CR or LF; a portion that begins with one has two
bytes. -/
def beforeEol (left : List UInt8) : ℕ :=
  let k := (left.takeWhile fun c => c ≠ 13 ∧ c ≠ 10).length
  if k = 0 then 1 else k - 1

theorem beforeEol_append {pre : List UInt8} (hpre : EolFree pre) (t : List UInt8) :
    beforeEol (pre ++ 13 :: t) = if pre.length = 0 then 1 else pre.length - 1 := by
  have htake : (pre ++ 13 :: t).takeWhile (fun c => c ≠ 13 ∧ c ≠ 10) = pre := by
    rw [List.takeWhile_append_of_pos]
    · simp
    · intro c hc
      rw [decide_eq_true_iff]
      exact ⟨fun h => hpre.1 (h ▸ hc), fun h => hpre.2 (h ▸ hc)⟩
  unfold beforeEol
  rw [htake]

theorem modeLoop_before_eol (o : Options) (htwo : 2 ≤ o.chunk_size) (n : ℕ)
    {s : Stream (FileCursor UInt8)} {pre t : List UInt8} (h : Ready (portionedFile beforeEol) s)
    (hempty : s.available = 0) (hn : lineRounds (portionedFile beforeEol) s < n)
    (hpre : EolFree pre)
    (hsplit : (cursor (portionedFile beforeEol) s).ahead = pre ++ 13 :: 10 :: t) :
    (modeLoop (portionedFile beforeEol) o n s .detect).1 = pre ++ [13, 10] := by
  refine (modeLoop_crlf (portionedFile_source _ []).flagsEnd o
    (J := fun s => ∀ pre t, EolFree pre →
      (cursor (portionedFile beforeEol) s).ahead = pre ++ 13 :: 10 :: t →
        s.available ≠ pre.length + 1) true
    (fun s h hJ pre t _ _ => ?_) (fun s h hJ hempty pre t hpre hsplit => ?_) ?_ n h
    (fun _ _ _ _ => by omega) hn hpre hsplit).1
  · rw [(h.synced.consume (Nat.le_refl s.available)).2.2]
    omega
  · obtain ⟨n, hchunk, hdrop, hfill⟩ := h.fill_empty o hempty
    obtain ⟨-, hahead, -⟩ := h.fill (portionedFile_source _ []).flagsEnd o o.chunk_size
    rw [hahead.cursor] at hsplit
    have hleft : s.abstract.ahead = pre ++ 13 :: 10 :: t := hdrop.trans hsplit
    rw [portionedFile_read_length, hleft, beforeEol_append hpre, List.length_append,
      List.length_cons, List.length_cons] at hfill
    split at hfill <;> omega
  · intro s pre t _ hJ hpre hsplit hlt
    have := hJ pre t hpre hsplit
    exact ⟨fun _ => rfl, fun _ => by omega⟩

/-! ## Any two ways to read -/

/-- The calls return the same for any two files with these contents. -/
def SplitFree {β : Type} (contents : List UInt8) (calls : (σ : Type) → ByteFile σ → σ → β) : Prop :=
  ∀ (σ τ : Type) (file : ByteFile σ) (file' : ByteFile τ) (f : σ) (f' : τ),
    Source file f contents → Source file' f' contents → calls σ file f = calls τ file' f'

/-- What `n` calls of `_php_stream_get_line` return. -/
def linesOf (o : Options) (mode : EolMode) (n : ℕ) (σ : Type) (file : ByteFile σ) (f : σ) :
    List (Option (List UInt8)) :=
  Splitting.results (getLineIn file o) n (opened file f, mode)

/-- What `n` calls of `php_stream_get_record` return. -/
def recordsOf (o : Options) (maxlen : ℕ) (delim : List UInt8) (n : ℕ) (σ : Type) (file : ByteFile σ)
    (f : σ) : List (Option (List UInt8)) :=
  Splitting.results (fun s => getRecord file o s maxlen delim) n (opened file f)

theorem splitFree_recordsOf (o : Options) (contents : List UInt8) (maxlen : ℕ)
    {delim : List UInt8} (hdelim : delim ≠ []) (n : ℕ) :
    SplitFree contents (recordsOf o maxlen delim n) := by
  intro σ τ file file' f f' h h'
  obtain ⟨hready, hahead⟩ := h.ready
  obtain ⟨hready', hahead'⟩ := h'.ready
  have hleft := records_eq h.flagsEnd o maxlen hdelim n hready
  have hright := records_eq h'.flagsEnd o maxlen hdelim n hready'
  rw [hahead] at hleft
  rw [hahead'] at hright
  exact hleft.trans hright.symm

theorem splitFree_linesOf {contents : List UInt8} {mode : EolMode} {e : UInt8} (o : Options)
    (hdecides : Decides mode e contents) (n : ℕ) : SplitFree contents (linesOf o mode n) := by
  intro σ τ file file' f f' h h'
  obtain ⟨hready, hahead⟩ := h.ready
  obtain ⟨hready', hahead'⟩ := h'.ready
  have hleft := lines_eq h.flagsEnd o n hready (hahead ▸ hdecides)
  have hright := lines_eq h'.flagsEnd o n hready' (hahead' ▸ hdecides)
  rw [hahead] at hleft
  rw [hahead'] at hright
  exact hleft.trans hright.symm

theorem lines_chunk_one (hend : file.FlagsEnd) (o : Options) (hone : o.chunk_size = 1) (n : ℕ)
    (h : Ready file s) (hlength : s.readbuf.length ≤ 1) (hcrlf : CrlfFirst (cursor file s).ahead) :
    Splitting.results (getLineIn file o) n (s, .detect) =
      Splitting.results (takeLine 13) n (cursor file s).ahead := by
  obtain ⟨pre, t, hpre, hsplit⟩ := hcrlf
  obtain ⟨hline, hready, hahead, hmode⟩ :=
    modeLoop_chunk_one hend o hone _ h hlength (lineRounds_lt file s) hpre hsplit
  have hat : lineAt 13 (cursor file s).ahead = pre ++ [13] := by
    rw [hsplit, lineAt_append_cons hpre.1]
  cases n with
  | zero => rfl
  | succ n =>
    unfold Splitting.results getLineIn takeLine
    dsimp only
    generalize modeLoop file o (2 * (file.contents s.abstract).length + 2) s .detect = r at *
    rw [hline] at hahead
    rw [hline, hat, if_neg (by simp), if_neg (by rw [hsplit]; simp)]
    obtain ⟨bytes, s', mode⟩ := r
    obtain rfl : mode = .mac := hmode
    refine congrArg (List.cons _) ?_
    have hrest := lines_eq hend o n hready (show Decides .mac 13 _ from rfl)
    rw [hahead] at hrest
    exact hrest

theorem linesOf_one {f : σ} (o : Options) {bytes : List UInt8} (hne : bytes ≠ [])
    (hline : (modeLoop file o (2 * (file.contents f).length + 2) (opened file f) .detect).1 =
      bytes) : linesOf o .detect 1 σ file f = [some bytes] := by
  unfold linesOf Splitting.results getLineIn
  dsimp only
  change [(if (modeLoop file o (2 * (file.contents f).length + 2) (opened file f) .detect).1 = []
    then none else some (modeLoop file o (2 * (file.contents f).length + 2)
      (opened file f) .detect).1)] = _
  rw [hline, if_neg hne]

theorem not_splitFree_linesOf (o : Options) (htwo : 2 ≤ o.chunk_size) {contents : List UInt8}
    (hcrlf : CrlfFirst contents) : ¬ SplitFree contents (linesOf o .detect 1) := by
  obtain ⟨pre, t, hpre, rfl⟩ := hcrlf
  intro hfree
  have hbyte := portionedFile_source (fun _ => 0) (pre ++ 13 :: 10 :: t)
  have hbefore := portionedFile_source beforeEol (pre ++ 13 :: 10 :: t)
  obtain ⟨hready, hahead⟩ := hbyte.ready
  obtain ⟨hready', hahead'⟩ := hbefore.ready
  have hleft := linesOf_one o (by simp)
    (modeLoop_byte_by_byte o _ hready (Nat.zero_le 1) (lineRounds_lt _ _) hpre hahead)
  have hright := linesOf_one o (by simp)
    (modeLoop_before_eol o htwo _ hready' rfl (lineRounds_lt _ _) hpre hahead')
  have hsame := hfree _ _ _ _ _ _ hbyte hbefore
  rw [hleft, hright] at hsame
  have hlen := congrArg List.length (Option.some.inj (List.cons.inj hsame).1)
  simp at hlen

/-- **Lines and records do not depend on the portions in which a file is read, unless the end of a
line is detected, the first CR or LF is a CR with an LF behind it, and there may be two bytes in the
read buffer.** -/
theorem splitFree_lines_records_iff (o : Options) (contents : List UInt8) (mode : EolMode) :
    ((∀ n, SplitFree contents (linesOf o mode n)) ↔
        (mode = .detect → CrlfFirst contents → o.chunk_size = 1)) ∧
      ∀ (maxlen : ℕ) (delim : List UInt8), delim ≠ [] →
        ∀ n, SplitFree contents (recordsOf o maxlen delim n) := by
  refine ⟨⟨?_, fun hcond n => ?_⟩,
    fun maxlen delim hdelim n => splitFree_recordsOf o contents maxlen hdelim n⟩
  · rintro hfree rfl hcrlf
    by_contra hne
    have hpos := o.chunk_pos
    exact not_splitFree_linesOf o (by omega) hcrlf (hfree 1)
  · cases mode with
    | mac =>
      have hdecides : Decides .mac 13 contents := rfl
      exact splitFree_linesOf o hdecides n
    | unix =>
      have hdecides : Decides .unix 10 contents := rfl
      exact splitFree_linesOf o hdecides n
    | detect =>
      by_cases hcrlf : CrlfFirst contents
      · have hone := hcond rfl hcrlf
        intro σ τ file file' f f' h h'
        obtain ⟨hready, hahead⟩ := h.ready
        obtain ⟨hready', hahead'⟩ := h'.ready
        have hleft := lines_chunk_one h.flagsEnd o hone n hready (Nat.zero_le 1)
          (hahead.symm ▸ hcrlf)
        have hright := lines_chunk_one h'.flagsEnd o hone n hready' (Nat.zero_le 1)
          (hahead'.symm ▸ hcrlf)
        rw [hahead] at hleft
        rw [hahead'] at hright
        exact hleft.trans hright.symm
      · obtain ⟨e, hdecides⟩ := exists_decides hcrlf
        exact splitFree_linesOf o hdecides n

/-- The text has no CR. -/
theorem splitFree_records_sample :
    [58] ≠ ([] : List UInt8) ∧
      SplitFree [97, 58, 98] (recordsOf sampleOptions 2 [58] 3) :=
  ⟨by decide, (splitFree_lines_records_iff sampleOptions [97, 58, 98] .detect).2 2 [58]
    (by decide) 3⟩

/-- The second file gives the CR and the LF at once. -/
theorem not_splitFree_detect :
    ¬ ∀ n, SplitFree [97, 13, 10, 98] (linesOf sampleOptions .detect n) := by
  intro hfree
  have hsame := hfree 2 _ _ _ _ _ _ (portionedFile_source (fun _ => 0) [97, 13, 10, 98])
    (portionedFile_source (fun _ => 2) [97, 13, 10, 98])
  revert hsame
  decide

end PhpRuntime.Streams

import PhpRuntime.Streams.Buffer

/-!
# Lines and records

What `_php_stream_get_line` and `php_stream_get_record` return: bytes of the file at the
position, with no end of line but at the end; a record with the delimiter that follows it, or
without one.
-/

set_option autoImplicit false

namespace PhpRuntime.Streams

open PhpRuntime.Lib

variable {σ : Type} {file : ByteFile σ} {s s' : Stream σ}

/-- The bytes of a line: an end of line is the last byte, and a buffer of `maxlen` bytes holds them
and a NUL. -/
structure IsLine (o : Options) (maxlen : Option ℕ) (bytes : List UInt8) : Prop where
  eol_last : ∀ i, bytes[i]? = some o.eol → i + 1 = bytes.length
  fits : ∀ m, maxlen = some m → bytes.length ≤ m - 1

def LineEnds (o : Options) (maxlen : Option ℕ) (bytes : List UInt8) (file : ByteFile σ)
    (s' : Stream σ) : Prop :=
  bytes.getLast? = some o.eol ∨ (∃ m, maxlen = some m ∧ bytes.length = m - 1) ∨
    s'.eof = true ∨ (cursor file s').ahead = []

theorem eolLength_spec (o : Options) (h : Synced file s) :
    let r := eolLength o s
    r.1 ≤ s.available ∧ (∀ i < r.1, s.buffered[i]? = some o.eol → i + 1 = r.1 ∧ r.2 = true) ∧
      (r.2 = true → (s.buffered.take r.1).getLast? = some o.eol) ∧
      (r.2 = false → r.1 = s.available) := by
  have hlen := h.length_buffered
  unfold eolLength
  cases hl : locateEol o s with
  | none =>
    refine ⟨Nat.le_refl _, fun i _ hi => ?_, fun hdone => absurd hdone (by simp), fun _ => rfl⟩
    unfold locateEol at hl
    rw [List.findIdx?_eq_none_iff] at hl
    have hnone := hl _ (List.mem_of_getElem? hi)
    simp at hnone
  | some k =>
    unfold locateEol at hl
    rw [List.findIdx?_eq_some_iff_getElem] at hl
    obtain ⟨hk, heol, hbefore⟩ := hl
    have hget : s.buffered[k]? = some o.eol := by
      rw [List.getElem?_eq_getElem hk]
      exact congrArg some (by simpa using heol)
    refine ⟨by dsimp only; omega, fun i hi hieol => ⟨?_, rfl⟩, fun _ => ?_,
      fun hdone => absurd hdone (by simp)⟩
    · by_contra hne
      dsimp only at hi hne
      have hik : i < k := by omega
      have hnot := hbefore i hik
      rw [List.getElem?_eq_getElem (by omega)] at hieol
      simp [Option.some.inj hieol] at hnot
    · dsimp only
      rw [List.getLast?_eq_getElem?, List.length_take, Nat.min_eq_left (by omega),
        List.getElem?_take_of_lt (by omega)]
      exact hget

theorem lineLength_spec (o : Options) (h : Synced file s) (maxlen : Option ℕ) :
    let r := lineLength o s maxlen
    r.1 ≤ s.available ∧ IsLine o maxlen (s.buffered.take r.1) ∧
      (r.2 = true → (s.buffered.take r.1).getLast? = some o.eol ∨
        ∃ m, maxlen = some m ∧ (s.buffered.take r.1).length = m - 1) ∧
      (r.2 = false → r.1 = s.available ∧ o.eol ∉ s.buffered.take r.1 ∧
        ∀ m, maxlen = some m → r.1 < m - 1) := by
  obtain ⟨hle, hlast, hdone, hmore⟩ := eolLength_spec o h
  have hlen := h.length_buffered
  have heol : ∀ k ≤ (eolLength o s).1, ∀ i, (s.buffered.take k)[i]? = some o.eol →
      i + 1 = (s.buffered.take k).length := by
    intro k hk i hi
    have hik : i < (s.buffered.take k).length := (List.getElem?_eq_some_iff.mp hi).1
    rw [List.length_take] at hik ⊢
    rw [List.getElem?_take_of_lt (by omega)] at hi
    have := (hlast i (by omega) hi).1
    omega
  have hnone : (eolLength o s).2 = false → o.eol ∉ s.buffered.take (eolLength o s).1 := by
    intro hfalse hmem
    obtain ⟨i, hi⟩ := List.getElem?_of_mem hmem
    have hik : i < (s.buffered.take (eolLength o s).1).length := (List.getElem?_eq_some_iff.mp hi).1
    rw [List.length_take] at hik
    rw [List.getElem?_take_of_lt (by omega)] at hi
    have htrue := (hlast i (by omega) hi).2
    rw [hfalse] at htrue
    cases htrue
  cases maxlen with
  | none =>
    refine ⟨hle, ⟨heol _ (Nat.le_refl _), fun m hm => absurd hm (by simp)⟩,
      fun htrue => Or.inl (hdone htrue), fun hfalse => ⟨hmore hfalse, hnone hfalse, ?_⟩⟩
    exact fun m hm => absurd hm (by simp)
  | some m =>
    unfold lineLength
    dsimp only
    split_ifs with hm
    · have hlength : (s.buffered.take (m - 1)).length = m - 1 := by
        rw [List.length_take]
        omega
      refine ⟨hm.trans hle, ⟨heol _ hm, ?_⟩, fun _ => Or.inr ⟨m, rfl, hlength⟩,
        fun hfalse => absurd hfalse (by simp)⟩
      intro m' hm'
      obtain rfl := Option.some.inj hm'
      exact hlength.le
    · have hlength : (s.buffered.take (eolLength o s).1).length ≤ (eolLength o s).1 :=
        List.length_take_le _ _
      refine ⟨hle, ⟨heol _ (Nat.le_refl _), ?_⟩, fun htrue => Or.inl (hdone htrue),
        fun hfalse => ⟨hmore hfalse, hnone hfalse, ?_⟩⟩
      · intro m' hm'
        obtain rfl := Option.some.inj hm'
        omega
      · intro m' hm'
        obtain rfl := Option.some.inj hm'
        omega

theorem IsLine.append {o : Options} {maxlen : Option ℕ} {a b : List UInt8} (ha : o.eol ∉ a)
    (hb : IsLine o (maxlen.map (· - a.length)) b) (hfits : ∀ m, maxlen = some m → a.length < m - 1) :
    IsLine o maxlen (a ++ b) where
  eol_last := by
    intro i hi
    rw [List.length_append]
    rcases Nat.lt_or_ge i a.length with hlt | hge
    · rw [List.getElem?_append_left hlt] at hi
      exact absurd (List.mem_of_getElem? hi) ha
    · rw [List.getElem?_append_right hge] at hi
      have := hb.eol_last _ hi
      omega
  fits := by
    intro m hm
    have hb' := hb.fits (m - a.length) (by rw [hm]; rfl)
    have ha' := hfits m hm
    rw [List.length_append]
    omega

/-- The rounds that the loop of `_php_stream_get_line` still needs. -/
def lineRounds (file : ByteFile σ) (s : Stream σ) : ℕ :=
  2 * (cursor file s).ahead.length + if s.available = 0 then 1 else 0

theorem LineEnds.append {o : Options} {maxlen : Option ℕ} {a b : List UInt8}
    (hb : LineEnds o (maxlen.map (· - a.length)) b file s)
    (hfits : ∀ m, maxlen = some m → a.length < m - 1) : LineEnds o maxlen (a ++ b) file s := by
  rcases hb with heol | ⟨m', hm', hfull⟩ | hend
  · left
    rw [List.getLast?_append, heol]
    rfl
  · obtain ⟨m, rfl, rfl⟩ := Option.map_eq_some_iff.mp hm'
    have := hfits m rfl
    refine Or.inr (Or.inl ⟨m, rfl, ?_⟩)
    rw [List.length_append]
    omega
  · exact Or.inr (Or.inr hend)

theorem Reads.lineRounds_lt {bytes : List UInt8} (h : Reads file s s' bytes)
    (havail : 0 < s.available) (hbytes : bytes.length = s.available) :
    lineRounds file s' < lineRounds file s := by
  have hlength := h.ahead.length_le
  have hahead : (Streams.cursor file s').ahead.length =
      (Streams.cursor file s).ahead.length - bytes.length := by
    rw [h.cursor, FileCursor.ahead_advance, List.length_drop]
  unfold lineRounds
  rw [hahead, if_neg (Nat.ne_of_gt havail)]
  split <;> omega

/-- The loop of `_php_stream_get_line` returns a line, and ends by itself. -/
theorem lineLoop_spec (o : Options) (n : ℕ) :
    ∀ {s : Stream σ} (maxlen : Option ℕ), Synced file s → lineRounds file s < n →
      let r := lineLoop file o n s maxlen
      Reads file s r.2 r.1 ∧ IsLine o maxlen r.1 ∧ LineEnds o maxlen r.1 file r.2 := by
  induction n with
  | zero => exact fun _ _ hn => absurd hn (Nat.not_lt_zero _)
  | succ n ih =>
    intro s maxlen h hn
    have hnothing : IsLine o maxlen [] := ⟨by simp, fun m hm => Nat.zero_le _⟩
    unfold lineLoop
    dsimp only
    by_cases havail : 0 < s.available
    · rw [if_pos havail]
      obtain ⟨hle, hline, hends, hmore⟩ := lineLength_spec o h maxlen
      generalize lineLength o s maxlen = r at *
      have hreads := h.reads_buffered (List.take_prefix r.1 s.buffered)
      have hlength : (s.buffered.take r.1).length = r.1 := by
        rw [List.length_take, h.length_buffered]
        omega
      by_cases hdone : r.2 = true
      · rw [if_pos hdone]
        rw [hlength] at hreads
        exact ⟨hreads, hline, (hends hdone).imp id Or.inl⟩
      · rw [if_neg hdone]
        obtain ⟨hall, hnone, hfits⟩ := hmore (by simpa using hdone)
        have hless := hreads.lineRounds_lt havail (hlength.trans hall)
        rw [hlength] at hreads hless
        obtain ⟨hrest, hline', hends'⟩ :=
          ih (maxlen.map (· - r.1)) hreads.synced (by omega)
        generalize lineLoop file o n (s.consume r.1) (maxlen.map (· - r.1)) = rest at *
        generalize s.buffered.take r.1 = bytes at *
        rw [← hlength] at hline' hends' hfits
        exact ⟨hreads.trans hrest, IsLine.append hnone hline' hfits, LineEnds.append hends' hfits⟩
    · rw [if_neg havail]
      by_cases heof : s.eof = true
      · rw [if_pos heof]
        exact ⟨h.reads_nothing, hnothing, Or.inr (Or.inr (Or.inl heof))⟩
      · rw [if_neg heof]
        have hfill : ∀ toread, (toread = 0 → ∃ m, maxlen = some m ∧ m - 1 = 0) →
            let s' := fillReadBuffer file o s toread
            let r := if s'.available = 0 then ([], s') else lineLoop file o n s' maxlen
            Reads file s r.2 r.1 ∧ IsLine o maxlen r.1 ∧ LineEnds o maxlen r.1 file r.2 := by
          intro toread htoread s' r
          obtain ⟨hahead, hgrown⟩ := fillReadBuffer_spec o h toread
          change ReadsAhead file s s' at hahead
          change _ → _ → s.available < s'.available at hgrown
          by_cases hempty : s'.available = 0
          · have hr : r = ([], s') := if_pos hempty
            rw [hr]
            refine ⟨hahead.reads hahead.synced.reads_nothing, hnothing, ?_⟩
            by_cases hzero : toread = 0
            · obtain ⟨m, hm, hfull⟩ := htoread hzero
              exact Or.inr (Or.inl ⟨m, hm, hfull.symm⟩)
            · refine Or.inr (Or.inr (Or.inr ?_))
              rw [hahead.cursor]
              by_contra hne
              have hpos := List.length_pos_iff.mpr hne
              have := hgrown (by omega) (by omega)
              omega
          · have hr : r = lineLoop file o n s' maxlen := if_neg hempty
            rw [hr]
            have hless : lineRounds file s' < n := by
              unfold lineRounds at hn ⊢
              rw [hahead.cursor, if_neg hempty]
              rw [if_pos (by omega)] at hn
              omega
            obtain ⟨hrest, hline, hends⟩ := ih maxlen hahead.synced hless
            exact ⟨hahead.reads hrest, hline, hends⟩
        apply hfill
        have hchunk := o.chunk_pos
        cases maxlen with
        | none =>
          intro hzero
          dsimp only at hzero
          omega
        | some m =>
          intro hzero
          dsimp only at hzero
          exact ⟨m, rfl, by omega⟩

/-- `_php_stream_get_line` returns a line at the position, or nothing. -/
theorem getLine_spec (o : Options) (h : Synced file s) (maxlen : Option ℕ) :
    let r := getLine file o s maxlen
    match r.1 with
    | none => Reads file s r.2 []
    | some bytes => Reads file s r.2 bytes ∧ bytes ≠ [] ∧ IsLine o maxlen bytes ∧
        LineEnds o maxlen bytes file r.2 := by
  intro r
  by_cases hzero : maxlen = some 0
  · have hr : r = (none, s) := if_pos hzero
    rw [hr]
    exact h.reads_nothing
  · have hrounds : lineRounds file s < 2 * (file.contents s.abstract).length + 2 := by
      unfold lineRounds FileCursor.ahead cursor
      dsimp only
      rw [List.length_drop]
      split <;> omega
    have hspec := lineLoop_spec o (2 * (file.contents s.abstract).length + 2) maxlen h hrounds
    have hr : r = (if (lineLoop file o (2 * (file.contents s.abstract).length + 2) s maxlen).1 = []
        then none else some (lineLoop file o (2 * (file.contents s.abstract).length + 2) s maxlen).1,
        (lineLoop file o (2 * (file.contents s.abstract).length + 2) s maxlen).2) := if_neg hzero
    rw [hr]
    generalize lineLoop file o (2 * (file.contents s.abstract).length + 2) s maxlen = t at *
    dsimp only at hspec ⊢
    by_cases hnil : t.1 = []
    · rw [if_pos hnil]
      rw [hnil] at hspec
      exact hspec.1
    · rw [if_neg hnil]
      exact ⟨hspec.1, hnil, hspec.2.1, hspec.2.2⟩

/-! ## Records -/

/-- Where `php_memnstr` finds a needle, it is. -/
theorem memnstr_spec {haystack needle : List UInt8} {i : ℕ}
    (h : memnstr haystack needle = some i) : needle <+: haystack.drop i := by
  unfold memnstr at h
  have hp := List.find?_some h
  exact List.isPrefixOf_iff_prefix.mp hp

theorem findDelim_spec {maxlen skiplen i : ℕ} {delim : List UInt8} (h : Synced file s)
    (hfind : findDelim s maxlen skiplen delim = some i) :
    delim ≠ [] ∧ i + delim.length ≤ min s.available maxlen ∧
      s.buffered.take i ++ delim <+: s.buffered := by
  have hlen := h.length_buffered
  unfold findDelim searchDelim at hfind
  dsimp only at hfind
  split_ifs at hfind with hempty
  · obtain ⟨k, hk, rfl⟩ := Option.map_eq_some_iff.mp hfind
    have hprefix := memnstr_spec hk
    rw [List.drop_drop] at hprefix
    have hlength := hprefix.length_le
    have hpos := List.length_pos_iff.mpr hempty
    rw [List.length_drop, List.length_take] at hlength
    refine ⟨hempty, by omega, ?_⟩
    have hdrop : delim <+: s.buffered.drop (skiplen + k) :=
      hprefix.trans ((List.take_prefix _ _).drop _)
    have happend := (List.prefix_append_right_inj (s.buffered.take (skiplen + k))).mpr hdrop
    rwa [List.take_append_drop] at happend

/-- The loop of `php_stream_get_record` reads ahead until there is a delimiter, or enough bytes, or
no more bytes. -/
theorem recordLoop_spec (o : Options) (maxlen : ℕ) (delim : List UInt8) (n : ℕ) :
    ∀ {s : Stream σ}, Synced file s → maxlen - s.available ≤ n →
      let r := recordLoop file o maxlen delim n s s.available
      ReadsAhead file s r.2 ∧
        (∀ i, r.1 = some i → ∃ skiplen, findDelim r.2 maxlen skiplen delim = some i) ∧
        (r.1 = none → maxlen ≤ r.2.available ∨ r.2.available = (cursor file s).ahead.length) := by
  induction n with
  | zero =>
    intro s h hn
    exact ⟨ReadsAhead.refl h, fun i hi => absurd hi (by simp [recordLoop]),
      fun _ => Or.inl (Nat.sub_eq_zero_iff_le.mp (Nat.le_zero.mp hn))⟩
  | succ n ih =>
    intro s h hn
    unfold recordLoop
    dsimp only
    split
    · rename_i hmissing
      have hchunk := o.chunk_pos
      obtain ⟨hahead, hgrown⟩ :=
        fillReadBuffer_spec o h (s.available + min (maxlen - s.available) o.chunk_size)
      have hle := hahead.available_le h
      have hcursor := hahead.cursor
      have hmax := hahead.synced.buffered.length_le
      rw [hahead.synced.length_buffered, hcursor] at hmax
      generalize fillReadBuffer file o s
        (s.available + min (maxlen - s.available) o.chunk_size) = s' at *
      split
      · rename_i hnothing
        refine ⟨hahead, fun i hi => absurd hi (by simp), fun _ => Or.inr ?_⟩
        dsimp only at *
        omega
      · rename_i hjust
        split
        · rename_i i hfind
          refine ⟨hahead, ?_, fun hnone => absurd hnone (by simp)⟩
          intro k hk
          obtain rfl := Option.some.inj hk
          exact ⟨_, hfind⟩
        · have hsum : s.available + (s'.available - s.available) = s'.available := by omega
          rw [hsum]
          obtain ⟨hahead', hfound, hnone⟩ := ih hahead.synced (by omega)
          rw [hcursor] at hnone
          exact ⟨hahead.trans hahead', hfound, hnone⟩
    · rename_i hfull
      exact ⟨ReadsAhead.refl h, fun i hi => absurd hi (by simp),
        fun _ => Or.inl (Nat.le_of_not_lt hfull)⟩

theorem foundDelim_spec (o : Options) (h : Synced file s) (maxlen : ℕ) (delim : List UInt8) :
    let r := foundDelim file o s maxlen delim
    ReadsAhead file s r.2 ∧
      ∀ i, r.1 = some i → ∃ skiplen, findDelim r.2 maxlen skiplen delim = some i := by
  unfold foundDelim
  cases hfind : findDelim s maxlen 0 delim with
  | none =>
    obtain ⟨hahead, hfound, -⟩ := recordLoop_spec o maxlen delim maxlen h (Nat.sub_le _ _)
    exact ⟨hahead, hfound⟩
  | some i =>
    refine ⟨ReadsAhead.refl h, fun k hk => ⟨0, ?_⟩⟩
    rw [hfind, ← hk]

/-- `tent_ret_len` without a delimiter. -/
theorem recordLength_none {maxlen : ℕ} {delim : List UInt8} {len : ℕ} (hmaxlen : 0 < maxlen)
    (hlen : recordLength s maxlen delim none = some len) :
    len ≤ s.available ∧ len ≤ maxlen ∧ 0 < len := by
  unfold recordLength at hlen
  dsimp only at hlen
  split_ifs at hlen with hfull hwait hend
  · have := Option.some.inj hlen
    omega
  · have := Option.some.inj hlen
    have hne : s.available ≠ 0 := by
      intro hzero
      by_cases heof : s.eof = true
      · exact hend ⟨hzero, heof⟩
      · exact hwait ⟨by omega, heof⟩
    omega

/-- `php_stream_get_record` returns nothing, or the bytes up to a delimiter, which is read too, or
bytes without one. -/
theorem getRecord_spec (o : Options) (h : Synced file s) (maxlen : ℕ) (delim : List UInt8) :
    let r := getRecord file o s maxlen delim
    match r.1 with
    | none => Reads file s r.2 []
    | some bytes =>
      (delim ≠ [] ∧ Reads file s r.2 (bytes ++ delim) ∧ bytes.length + delim.length ≤ maxlen) ∨
        (bytes ≠ [] ∧ Reads file s r.2 bytes ∧ bytes.length ≤ maxlen) := by
  unfold getRecord
  by_cases hzero : maxlen = 0
  · rw [if_pos hzero]
    exact h.reads_nothing
  · rw [if_neg hzero]
    obtain ⟨hahead, hfound⟩ := foundDelim_spec o h maxlen delim
    generalize foundDelim file o s maxlen delim = r at *
    obtain ⟨found, s'⟩ := r
    dsimp only at *
    have hs := hahead.synced
    cases found with
    | some i =>
      obtain ⟨skiplen, hfind⟩ := hfound i rfl
      obtain ⟨hdelim, hle, hprefix⟩ := findDelim_spec hs hfind
      have hlength : (s'.buffered.take i).length = i := by
        rw [List.length_take, hs.length_buffered]
        omega
      have hreads := hs.reads_buffered hprefix
      have hconsume : s'.consume (s'.buffered.take i ++ delim).length =
          (s'.consume i).consume delim.length := by
        unfold Stream.consume
        dsimp only
        rw [List.length_append, hlength, Int.natCast_add, Int.add_assoc, Nat.add_assoc]
      rw [hconsume] at hreads
      have hread : streamRead file o s' i = _ := streamRead_buffered file o hs (by omega)
      unfold recordLength
      dsimp only
      rw [hread]
      exact Or.inl ⟨hdelim, hahead.reads hreads, by dsimp only; omega⟩
    | none =>
      cases hlen : recordLength s' maxlen delim none with
      | none => exact hahead.reads hs.reads_nothing
      | some len =>
        obtain ⟨havail, hmax, hpos⟩ := recordLength_none (Nat.pos_of_ne_zero hzero) hlen
        have hlength : (s'.buffered.take len).length = len := by
          rw [List.length_take, hs.length_buffered]
          omega
        have hreads := hs.reads_buffered (List.take_prefix len s'.buffered)
        rw [hlength] at hreads
        dsimp only
        rw [streamRead_buffered file o hs havail]
        refine Or.inr ⟨?_, hahead.reads hreads, hlength.le.trans hmax⟩
        intro hnil
        dsimp only at hnil
        rw [hnil, List.length_nil] at hlength
        omega

end PhpRuntime.Streams

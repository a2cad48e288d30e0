import Mathlib.Data.Nat.Find
import PhpRuntime.Lib.Splitting
import PhpRuntime.Streams.Runs

/-!
# Records and the portions of a file

A file gives its bytes in portions, and the read buffer holds as many of them as have been
needed. What `php_stream_get_record` returns is decided by the bytes ahead alone: they are read
up to the first delimiter in the next `maxlen` of them.
-/

set_option autoImplicit false

namespace PhpRuntime.Streams

open PhpRuntime.Lib

variable {σ τ : Type} {file : ByteFile σ} {s s' : Stream σ}

/-- `stream->ops->read` sets the `eof` flag when it reads nothing, and leaves it unset as long as
there is something to read. -/
structure ByteFile.FlagsEnd (file : ByteFile σ) : Prop where
  nothing_read : ∀ f eof n, 0 < n → (file.read f eof n).1 = [] → (file.read f eof n).2.1 = true
  nothing_left : ∀ f eof n, (file.read f eof n).2.1 = true →
    (file.contents f).drop (file.offset (file.read f eof n).2.2) = []

/-- A file at the start of its contents. -/
structure Source (file : ByteFile σ) (f : σ) (contents : List UInt8) : Prop where
  contents : file.contents f = contents
  offset : file.offset f = 0
  flagsEnd : file.FlagsEnd

/-- A stream whose `eof` flag is set only when the read buffer holds all that is left. -/
structure Ready (file : ByteFile σ) (s : Stream σ) : Prop where
  synced : Synced file s
  eof : s.eof = true → s.available = (cursor file s).ahead.length

theorem Source.ready {f : σ} {contents : List UInt8} (h : Source file f contents) :
    Ready file (opened file f) ∧ (cursor file (opened file f)).ahead = contents := by
  refine ⟨⟨⟨Nat.le_refl _, Nat.le_refl _, Int.natCast_nonneg _, ?_, List.nil_prefix, ?_⟩,
    fun heof => absurd heof (by simp [opened])⟩, ?_⟩
  · change (file.offset f : ℤ) = file.offset f + ((0 : ℕ) : ℤ)
    omega
  · change file.valid (file.contents f).length (file.offset f) = true
    rw [h.offset]
    exact file.valid_of_le _ _ (Nat.zero_le _)
  · change (file.contents f).drop (file.offset f) = contents
    rw [h.contents, h.offset, List.drop_zero]

theorem Ready.consume (h : Ready file s) {n : ℕ} (hn : n ≤ s.available) :
    Ready file (s.consume n) ∧
      (cursor file (s.consume n)).ahead = (cursor file s).ahead.drop n := by
  obtain ⟨hsynced, hcursor, havail⟩ := h.synced.consume hn
  have hahead : (cursor file (s.consume n)).ahead = (cursor file s).ahead.drop n := by
    rw [hcursor, FileCursor.ahead_advance]
  refine ⟨⟨hsynced, fun heof => ?_⟩, hahead⟩
  have := h.eof heof
  rw [havail, hahead, List.length_drop]
  omega

/-! ## Filling the read buffer -/

/-- The one read of `php_stream_fill_read_buffer`, if bytes are missing. -/
theorem fillReadBuffer_read (o : Options) (h : Synced file s) {size : ℕ}
    (hsize : s.available < size) :
    let s' := fillReadBuffer file o s size
    ∃ n, o.chunk_size ≤ n ∧ s'.abstract = (file.read s.abstract s.eof n).2.2 ∧
      s'.eof = (file.read s.abstract s.eof n).2.1 ∧
      s'.available = s.available + (file.read s.abstract s.eof n).1.length := by
  intro s'
  obtain ⟨hpack, hspace⟩ := makeSpace_repacked o h
  have hs' : s' = fillReadBuffer file o s size := rfl
  unfold fillReadBuffer at hs'
  rw [if_pos hsize] at hs'
  dsimp only at hs'
  have hread := hpack.read_le
  rw [← hpack.abstract, ← hpack.eof, ← hpack.available]
  generalize makeSpace o s = s1 at *
  refine ⟨s1.readbuf.length - s1.writepos, by omega, congrArg Stream.abstract hs',
    congrArg Stream.eof hs', ?_⟩
  rw [hs']
  unfold Stream.available
  dsimp only
  omega

theorem Ready.fill (hend : file.FlagsEnd) (o : Options) (h : Ready file s) (size : ℕ) :
    let s' := fillReadBuffer file o s size
    Ready file s' ∧ ReadsAhead file s s' ∧
      (s.available < size → s'.available = s.available →
        s'.eof = true ∧ s'.available = (cursor file s).ahead.length) := by
  intro s'
  obtain ⟨hahead, hgrown⟩ := fillReadBuffer_spec o h.synced size
  change ReadsAhead file s s' at hahead
  by_cases hsize : s.available < size
  · obtain ⟨n, hn, habstract, heof, havail⟩ := fillReadBuffer_read o h.synced hsize
    change s'.abstract = _ at habstract
    change s'.eof = _ at heof
    change s'.available = _ at havail
    have hleft := hahead.synced.drop_offset
    have hcontents : file.contents s'.abstract = file.contents s.abstract := by
      rw [habstract, file.read_contents]
    have hready : s'.eof = true → s'.available = (cursor file s').ahead.length := by
      intro hflag
      have hnil := hend.nothing_left s.abstract s.eof n (heof ▸ hflag)
      rw [← habstract, ← hcontents, hleft, List.drop_eq_nil_iff] at hnil
      have hle := hahead.synced.buffered.length_le
      rw [hahead.synced.length_buffered] at hle
      omega
    refine ⟨⟨hahead.synced, hready⟩, hahead, fun _ hsame => ?_⟩
    have hpos := o.chunk_pos
    have hnil : (file.read s.abstract s.eof n).1 = [] := by
      apply List.eq_nil_of_length_eq_zero
      omega
    have hflag : s'.eof = true := heof.trans (hend.nothing_read _ _ _ (by omega) hnil)
    exact ⟨hflag, hahead.cursor ▸ hready hflag⟩
  · have hs' : s' = s := if_neg hsize
    refine ⟨hs' ▸ h, hahead, fun hlt => absurd hlt hsize⟩

/-! ## Where the delimiter is -/

/-- `php_memnstr` finds the first place of the needle. -/
theorem memnstr_eq_some_iff {haystack needle : List UInt8} (hneedle : needle ≠ []) {i : ℕ} :
    memnstr haystack needle = some i ↔
      needle <+: haystack.drop i ∧ ∀ j < i, ¬ needle <+: haystack.drop j := by
  have hle : needle <+: haystack.drop i → i < haystack.length + 1 := by
    intro hpre
    have hlength := hpre.length_le
    have hpos := List.length_pos_iff.mpr hneedle
    rw [List.length_drop] at hlength
    omega
  unfold memnstr
  rw [List.find?_range_eq_some]
  simp only [List.isPrefixOf_iff_prefix, List.mem_range, Bool.not_eq_true', ← Bool.not_eq_true]
  exact ⟨fun h => ⟨h.1, h.2.2⟩, fun h => ⟨h.1, hle h.1, h.2⟩⟩

theorem memnstr_eq_none_iff {haystack needle : List UInt8} (hneedle : needle ≠ []) :
    memnstr haystack needle = none ↔ ∀ i, ¬ needle <+: haystack.drop i := by
  constructor
  · intro hnone i hpre
    classical
    have hex : ∃ k, needle <+: haystack.drop k := ⟨i, hpre⟩
    have hfirst := (memnstr_eq_some_iff hneedle).mpr
      ⟨Nat.find_spec hex, fun j hj => Nat.find_min hex hj⟩
    rw [hnone] at hfirst
    cases hfirst
  · intro hnot
    cases hfind : memnstr haystack needle with
    | none => rfl
    | some i => exact absurd (memnstr_spec hfind) (hnot i)

theorem prefix_drop_take_iff {haystack needle : List UInt8} {size i : ℕ} :
    needle <+: (haystack.take size).drop i ↔
      needle <+: haystack.drop i ∧ needle.length ≤ size - i := by
  rw [List.drop_take, List.prefix_take_iff]

theorem memnstr_take_mono {haystack needle : List UInt8} (hneedle : needle ≠ []) {size size' i : ℕ}
    (hsize : size ≤ size') (h : memnstr (haystack.take size) needle = some i) :
    memnstr (haystack.take size') needle = some i := by
  rw [memnstr_eq_some_iff hneedle] at h ⊢
  obtain ⟨hfound, hfirst⟩ := h
  have hpos := List.length_pos_iff.mpr hneedle
  simp only [prefix_drop_take_iff] at hfound hfirst ⊢
  refine ⟨⟨hfound.1, by omega⟩, fun j hj hpre => hfirst j hj ⟨hpre.1, by omega⟩⟩

theorem memnstr_drop {haystack needle : List UInt8} (hneedle : needle ≠ []) {skip : ℕ}
    (hskip : ∀ j < skip, ¬ needle <+: haystack.drop j) :
    (memnstr (haystack.drop skip) needle).map (skip + ·) = memnstr haystack needle := by
  cases hrest : memnstr (haystack.drop skip) needle with
  | none =>
    symm
    rw [Option.map_none, memnstr_eq_none_iff hneedle]
    rw [memnstr_eq_none_iff hneedle] at hrest
    intro i hpre
    rcases Nat.lt_or_ge i skip with hlt | hge
    · exact hskip i hlt hpre
    · apply hrest (i - skip)
      rwa [List.drop_drop, Nat.add_sub_cancel' hge]
  | some i =>
    symm
    rw [Option.map_some, memnstr_eq_some_iff hneedle]
    rw [memnstr_eq_some_iff hneedle, List.drop_drop] at hrest
    refine ⟨hrest.1, fun j hj hpre => ?_⟩
    rcases Nat.lt_or_ge j skip with hlt | hge
    · exact hskip j hlt hpre
    · apply hrest.2 (j - skip) (by omega)
      rwa [List.drop_drop, Nat.add_sub_cancel' hge]

/-! ## Records -/

theorem findDelim_eq (h : Synced file s) {maxlen searched : ℕ} {delim : List UInt8}
    (hdelim : delim ≠ []) (hle : searched ≤ s.available) (hmax : searched ≤ maxlen)
    (hnone : memnstr ((cursor file s).ahead.take searched) delim = none) :
    findDelim s maxlen (searched - (delim.length - 1)) delim =
      memnstr ((cursor file s).ahead.take (min s.available maxlen)) delim := by
  have hpos := List.length_pos_iff.mpr hdelim
  obtain ⟨rest, hrest⟩ := h.buffered
  have hlen := h.length_buffered
  have htake : s.buffered.take (min s.available maxlen) =
      (cursor file s).ahead.take (min s.available maxlen) := by
    rw [← hrest, List.take_append_of_le_length (by omega)]
  rw [memnstr_eq_none_iff hdelim] at hnone
  simp only [prefix_drop_take_iff] at hnone
  unfold findDelim searchDelim
  dsimp only
  rw [if_neg hdelim, htake]
  split_ifs with hskip
  · symm
    rw [memnstr_eq_none_iff hdelim]
    intro i hpre
    rw [prefix_drop_take_iff] at hpre
    exact hnone i ⟨hpre.1, by omega⟩
  · apply memnstr_drop hdelim
    intro j hj hpre
    rw [prefix_drop_take_iff] at hpre
    exact hnone j ⟨hpre.1, by omega⟩

/-- The loop of `php_stream_get_record` finds the first delimiter in the next `maxlen` bytes, or
reads so many bytes ahead, or all. -/
theorem recordLoop_eq (hend : file.FlagsEnd) (o : Options) (maxlen : ℕ) {delim : List UInt8}
    (hdelim : delim ≠ []) (n : ℕ) :
    ∀ {s : Stream σ}, Ready file s → maxlen - s.available ≤ n →
      memnstr ((cursor file s).ahead.take (min s.available maxlen)) delim = none →
      let r := recordLoop file o maxlen delim n s s.available
      Ready file r.2 ∧ ReadsAhead file s r.2 ∧
        r.1 = memnstr ((cursor file s).ahead.take maxlen) delim ∧
        (r.1 = none → maxlen ≤ r.2.available ∨
          r.2.eof = true ∧ r.2.available = (cursor file s).ahead.length) := by
  have hfull : ∀ {s : Stream σ}, Ready file s → maxlen ≤ s.available →
      memnstr ((cursor file s).ahead.take (min s.available maxlen)) delim = none →
      Ready file s ∧ ReadsAhead file s s ∧
        none = memnstr ((cursor file s).ahead.take maxlen) delim ∧
        ((none : Option ℕ) = none → maxlen ≤ s.available ∨
          s.eof = true ∧ s.available = (cursor file s).ahead.length) := by
    intro s h hle hnone
    rw [Nat.min_eq_right hle] at hnone
    exact ⟨h, ReadsAhead.refl h.synced, hnone.symm, fun _ => Or.inl hle⟩
  induction n with
  | zero =>
    intro s h hn hnone
    exact hfull h (Nat.sub_eq_zero_iff_le.mp (Nat.le_zero.mp hn)) hnone
  | succ n ih =>
    intro s h hn hnone
    unfold recordLoop
    dsimp only
    split
    · rename_i hmissing
      have hchunk := o.chunk_pos
      obtain ⟨hready, hahead, hnothing⟩ :=
        h.fill hend o (s.available + min (maxlen - s.available) o.chunk_size)
      have hle := hahead.available_le h.synced
      have hcursor := hahead.cursor
      generalize fillReadBuffer file o s
        (s.available + min (maxlen - s.available) o.chunk_size) = s' at *
      have hsearched : memnstr ((cursor file s').ahead.take s.available) delim = none := by
        rwa [hcursor, ← Nat.min_eq_left (Nat.le_of_lt hmissing)]
      have hfind := findDelim_eq hready.synced hdelim hle (Nat.le_of_lt hmissing) hsearched
      rw [hcursor] at hfind
      split
      · rename_i hjust
        obtain ⟨heof, hall⟩ := hnothing (by omega) (by omega)
        refine ⟨hready, hahead, ?_, fun _ => Or.inr ⟨heof, hall⟩⟩
        rw [List.take_of_length_le (by omega)]
        rw [Nat.min_eq_left (Nat.le_of_lt hmissing), List.take_of_length_le (by omega)] at hnone
        exact hnone.symm
      · rename_i hjust
        rw [hfind]
        cases hfound : memnstr ((cursor file s).ahead.take (min s'.available maxlen)) delim with
        | some i =>
          refine ⟨hready, hahead, ?_, fun hfalse => absurd hfalse (by simp)⟩
          exact (memnstr_take_mono hdelim (Nat.min_le_right _ _) hfound).symm
        | none =>
          have hsum : s.available + (s'.available - s.available) = s'.available := by omega
          dsimp only
          rw [hsum]
          obtain ⟨hready', hahead', heq, hmore⟩ := ih hready (by omega) (hcursor ▸ hfound)
          rw [hcursor] at heq hmore
          exact ⟨hready', hahead.trans hahead', heq, hmore⟩
    · rename_i hle
      exact hfull h (Nat.le_of_not_lt hle) hnone

/-- The record at the front of `ahead`, and what is behind it and its delimiter. -/
def takeRecord (maxlen : ℕ) (delim ahead : List UInt8) : Option (List UInt8) × List UInt8 :=
  if maxlen = 0 ∨ ahead = [] then (none, ahead)
  else
    match memnstr (ahead.take maxlen) delim with
    | some i => (some (ahead.take i), ahead.drop (i + delim.length))
    | none => (some (ahead.take maxlen), ahead.drop maxlen)

/-- The delimiter that `php_stream_get_record` finds is the first one. -/
theorem foundDelim_eq (hend : file.FlagsEnd) (o : Options) (maxlen : ℕ) {delim : List UInt8}
    (hdelim : delim ≠ []) (h : Ready file s) :
    let r := foundDelim file o s maxlen delim
    Ready file r.2 ∧ (cursor file r.2).ahead = (cursor file s).ahead ∧
      r.1 = memnstr ((cursor file s).ahead.take maxlen) delim ∧
      (∀ i, r.1 = some i → i + delim.length ≤ r.2.available) ∧
      (r.1 = none → maxlen ≤ r.2.available ∨
        r.2.eof = true ∧ r.2.available = (cursor file s).ahead.length) := by
  obtain ⟨hahead, hfound⟩ := foundDelim_spec o h.synced maxlen delim
  have hfits : ∀ i, (foundDelim file o s maxlen delim).1 = some i →
      i + delim.length ≤ (foundDelim file o s maxlen delim).2.available := by
    intro i hi
    obtain ⟨skiplen, hfind⟩ := hfound i hi
    have := (findDelim_spec hahead.synced hfind).2.1
    omega
  have hempty : memnstr ((cursor file s).ahead.take 0) delim = none := by
    rw [memnstr_eq_none_iff hdelim, List.take_zero]
    intro i hpre
    rw [List.drop_nil] at hpre
    exact hdelim (List.prefix_nil.mp hpre)
  have hfirst := findDelim_eq h.synced hdelim (Nat.zero_le _) (Nat.zero_le maxlen) hempty
  rw [Nat.zero_sub] at hfirst
  unfold foundDelim at hfits ⊢
  rw [hfirst] at hfits ⊢
  cases hfind : memnstr ((cursor file s).ahead.take (min s.available maxlen)) delim with
  | some i =>
    rw [hfind] at hfits
    exact ⟨h, rfl, (memnstr_take_mono hdelim (Nat.min_le_right _ _) hfind).symm, hfits,
      fun hnone => absurd hnone (by simp)⟩
  | none =>
    rw [hfind] at hfits
    obtain ⟨hready, hahead', heq, hmore⟩ :=
      recordLoop_eq hend o maxlen hdelim maxlen h (Nat.sub_le _ _) hfind
    exact ⟨hready, congrArg FileCursor.ahead hahead'.cursor, heq, hfits, hmore⟩

theorem Ready.read_buffered (o : Options) (h : Ready file s) {size : ℕ} (hsize : size ≤ s.available) :
    streamRead file o s size = ((cursor file s).ahead.take size, s.consume size) := by
  obtain ⟨rest, hrest⟩ := h.synced.buffered
  have hlen := h.synced.length_buffered
  rw [streamRead_buffered file o h.synced hsize, ← hrest,
    List.take_append_of_le_length (by omega)]

/-- **`php_stream_get_record` returns the record at the front of the bytes ahead.** -/
theorem getRecord_eq (hend : file.FlagsEnd) (o : Options) {maxlen : ℕ} {delim : List UInt8}
    (hdelim : delim ≠ []) (h : Ready file s) :
    let r := getRecord file o s maxlen delim
    let record := takeRecord maxlen delim (cursor file s).ahead
    r.1 = record.1 ∧ Ready file r.2 ∧ (cursor file r.2).ahead = record.2 := by
  unfold getRecord takeRecord
  dsimp only
  by_cases hzero : maxlen = 0
  · rw [if_pos hzero, if_pos (Or.inl hzero)]
    exact ⟨rfl, h, rfl⟩
  · rw [if_neg hzero]
    obtain ⟨hready, hahead, hfound, hfits, hmore⟩ := foundDelim_eq hend o maxlen hdelim h
    generalize foundDelim file o s maxlen delim = r at *
    obtain ⟨found, s'⟩ := r
    dsimp only at *
    rw [← hahead] at hfound hmore ⊢
    have hle := hready.synced.buffered.length_le
    rw [hready.synced.length_buffered] at hle
    generalize hbytes : (cursor file s').ahead = bytes at *
    cases found with
    | some i =>
      have hi := hfits i rfl
      have hpos := List.length_pos_iff.mpr hdelim
      have hne : ¬ (maxlen = 0 ∨ bytes = []) := by
        rw [not_or, ← List.length_eq_zero_iff]
        exact ⟨hzero, by omega⟩
      obtain ⟨hconsumed, hrest⟩ := hready.consume (show i ≤ s'.available by omega)
      have havail : (s'.consume i).available = s'.available - i :=
        (hready.synced.consume (show i ≤ s'.available by omega)).2.2
      obtain ⟨hdone, hbehind⟩ :=
        hconsumed.consume (show delim.length ≤ (s'.consume i).available by omega)
      rw [if_neg hne, ← hfound]
      unfold recordLength
      dsimp only
      rw [hready.read_buffered o (by omega), hbytes]
      rw [hrest, hbytes, List.drop_drop] at hbehind
      exact ⟨rfl, hdone, hbehind⟩
    | none =>
      by_cases hnil : bytes = []
      · have heof : s'.eof = true := by
          rw [hnil, List.length_nil] at hle hmore
          rcases hmore rfl with hall | hall
          · omega
          · exact hall.1
        rw [hnil, List.length_nil] at hle
        have hlength : recordLength s' maxlen delim none = none := by
          unfold recordLength
          dsimp only
          rw [if_neg (fun h => hdelim h.1), if_neg (fun h => h.2 heof),
            if_pos ⟨Nat.le_zero.mp hle, heof⟩]
        rw [if_pos (Or.inr hnil), hlength]
        exact ⟨rfl, hready, hbytes⟩
      · have hpos := List.length_pos_iff.mpr hnil
        have hlength : recordLength s' maxlen delim none = some (min s'.available maxlen) := by
          unfold recordLength
          dsimp only
          rcases hmore rfl with hall | hall
          · rw [if_neg (fun h => hdelim h.1), if_neg (fun h => absurd h.1 (by omega)),
              if_neg (fun h => absurd h.1 (by omega))]
          · rw [if_neg (fun h => hdelim h.1), if_neg (fun h => h.2 hall.1),
              if_neg (fun h => absurd h.1 (by omega))]
        have hmin : (min s'.available maxlen = maxlen) ∨
            (min s'.available maxlen = bytes.length ∧ bytes.length ≤ maxlen) := by
          rcases hmore rfl with hall | hall <;> omega
        have htake : bytes.take (min s'.available maxlen) = bytes.take maxlen ∧
            bytes.drop (min s'.available maxlen) = bytes.drop maxlen := by
          rcases hmin with heq | ⟨heq, hall⟩
          · rw [heq]
            exact ⟨rfl, rfl⟩
          · rw [heq, List.take_length, List.drop_length, List.take_of_length_le hall,
              List.drop_of_length_le hall]
            exact ⟨rfl, rfl⟩
        obtain ⟨hdone, hbehind⟩ := hready.consume (Nat.min_le_left s'.available maxlen)
        rw [if_neg (not_or.mpr ⟨hzero, hnil⟩), hlength, ← hfound]
        dsimp only
        rw [hready.read_buffered o (Nat.min_le_left _ _), hbytes, htake.1]
        rw [hbytes, htake.2] at hbehind
        exact ⟨rfl, hdone, hbehind⟩

theorem records_eq (hend : file.FlagsEnd) (o : Options) (maxlen : ℕ) {delim : List UInt8}
    (hdelim : delim ≠ []) (n : ℕ) (h : Ready file s) :
    Splitting.results (fun s => getRecord file o s maxlen delim) n s =
      Splitting.results (takeRecord maxlen delim) n (cursor file s).ahead := by
  apply Splitting.results_eq_of_related
    (R := fun s ahead => Ready file s ∧ (cursor file s).ahead = ahead)
  · rintro s ahead ⟨hready, rfl⟩
    exact getRecord_eq hend o hdelim hready
  · exact ⟨h, rfl⟩

end PhpRuntime.Streams

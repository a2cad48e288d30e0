import PhpRuntime.Fastcgi.Framing

/-!
# The streams of a FastCGI request

What a whole run sends: the records of a run that ends with `fcgi_flush(req, 1)`, the data they
carry, and when one of them is empty. The clear version of `fcgi_write` sends the same streams.
-/

set_option autoImplicit false

namespace PhpRuntime.Fastcgi

open PhpRuntime.Lib
open RequestType

variable {req : Request} {w : RecordWriter} {type : RequestType} {str : List UInt8}

/-! ### Runs -/

def Fed (req : Request) : Op → Prop
  | .write stream str => ¬ Starves req stream.type str
  | .flush => True

/-- From `w` to `w'` the data of some calls are written. -/
structure WroteAll (w w' : RecordWriter) (ops : List Op) : Prop where
  stream : ∀ s : OutStream, w'.stream s.type.code = w.stream s.type.code ++ ops.flatMap (Op.data s)
  uses : ∀ t, w'.Uses t → w.Uses t ∨ ∃ s : OutStream, t = s.type.code

theorem OutStream.code_inj {s s' : OutStream} (h : s.type.code = s'.type.code) : s = s' := by
  cases s <;> cases s' <;> first | rfl | exact absurd h (by decide)

theorem WroteAll.refl (w : RecordWriter) : WroteAll w w [] where
  stream _ := (List.append_nil _).symm
  uses _ h := .inl h

/-- A call of `fcgi_write` and the calls behind it. -/
theorem WroteAll.write {w' w'' : RecordWriter} {s : OutStream} {ops : List Op}
    (h : RecordWriter.Wrote w w' s.type.code str) (hrest : WroteAll w' w'' ops) :
    WroteAll w w'' (.write s str :: ops) where
  stream s' := by
    rw [hrest.stream, h.stream, List.append_assoc, List.flatMap_cons]
    have hdata : Op.data s' (.write s str) = if s.type.code = s'.type.code then str else [] := by
      by_cases hs : s = s'
      · rw [hs, if_pos rfl]
        exact if_pos rfl
      · rw [if_neg fun hcode => hs (OutStream.code_inj hcode)]
        exact if_neg hs
    rw [hdata]
  uses t ht := by
    rcases hrest.uses t ht with ht | ht
    · rcases h.uses t ht with ht | ht
      · exact .inl ht
      · exact .inr ⟨s, ht⟩
    · exact .inr ht

/-- A call of `fcgi_flush` and the calls behind it. -/
theorem WroteAll.flush {w' w'' : RecordWriter} {ops : List Op}
    (h : RecordWriter.Wrote w w' FCGI_STDOUT.code []) (hrest : WroteAll w' w'' ops) :
    WroteAll w w'' (.flush :: ops) := by
  have hwrite := WroteAll.write (s := .out) h hrest
  refine ⟨fun s => ?_, hwrite.uses⟩
  rw [hwrite.stream]
  cases s <;> rfl

theorem runOps_wrote (ops : List Op) (h : Represents req w) (hs : Settled req) :
    ∃ w', Represents (runOps .good req ops) w' ∧ Settled (runOps .good req ops) ∧
      WroteAll w w' ops ∧ (w'.NonEmpty ↔ w.NonEmpty ∧ Throughout .good Fed req ops) ∧
      (runOps .good req ops).id = req.id := by
  induction ops generalizing req w with
  | nil => exact ⟨w, h, hs, WroteAll.refl w, (and_iff_left trivial).symm, rfl⟩
  | cons op ops ih =>
    cases op with
    | write stream str =>
      obtain ⟨w1, hwrote, hsettled⟩ := fcgi_write_wrote h hs stream.type str
      obtain ⟨w', hrep, hend, hall, hne, hid⟩ := ih hwrote.represents hsettled
      refine ⟨w', hrep, hend, WroteAll.write hwrote.wrote hall, ?_, hid.trans hwrote.id⟩
      rw [hne, hwrote.nonEmpty, and_assoc]
      rfl
    | flush =>
      obtain ⟨w1, hwrote, hsettled⟩ := fcgi_flush_wrote h hs FCGI_STDOUT
      obtain ⟨w', hrep, hend, hall, hne, hid⟩ := ih hwrote.represents hsettled
      refine ⟨w', hrep, hend, WroteAll.flush hwrote.wrote hall, ?_, hid.trans hwrote.id⟩
      rw [hne, hwrote.nonEmpty, and_assoc]
      rfl

/-! ### The clear version -/

theorem ensurePacket_represents (h : Ready req w type)
    (hroom : req.out_hdr = none → req.out_pos ≤ 8184) :
    ∃ w' hdr content, Represents (ensurePacket req type) w' ∧
      RecordWriter.Wrote w w' type.code [] ∧ w'.current = some (type.code, content) ∧
      (ensurePacket req type).out_hdr = some hdr ∧ (ensurePacket req type).out_pos ≤ 8192 ∧
      (req.out_pos = 0 → (ensurePacket req type).out_pos = 8) ∧
      (ensurePacket req type).id = req.id := by
  cases hhdr : req.out_hdr with
  | none =>
    have hensure : ensurePacket req type = open_packet req type := if_pos hhdr
    have hpos := hroom hhdr
    rw [hensure]
    refine ⟨w.start type.code, req.out_pos, [],
      open_packet_represents h.represents hhdr (by omega) type,
      RecordWriter.wrote_start _ (h.represents.current_of_none hhdr), rfl, rfl, ?_, fun hzero => ?_,
      rfl⟩
    · change req.out_pos + 8 ≤ 8192
      omega
    · change req.out_pos + 8 = 8
      omega
  | some hdr =>
    have hensure : ensurePacket req type = req := if_neg (by rw [hhdr]; nofun)
    obtain ⟨hlt, _, htype⟩ := h.opened hdr hhdr
    have hcurrent := h.represents.current_of_some hhdr
    rw [htype] at hcurrent
    rw [hensure]
    exact ⟨w, hdr, _, h.represents, RecordWriter.Wrote.refl _ _, hcurrent, hhdr, h.pos_le,
      fun hzero => absurd hzero (by omega), rfl⟩

/-- The clear version has written `str`. -/
structure ClearDone (req req' : Request) (w w' : RecordWriter) (type : RequestType)
    (str : List UInt8) : Prop where
  represents : Represents req' w'
  wrote : RecordWriter.Wrote w w' type.code str
  settled : Settled req'
  id : req'.id = req.id

theorem clearLoop_body (h : Ready req w type) (hne : str ≠ [])
    (hroom : req.out_hdr = none → req.out_pos ≤ 8184) :
    ((str.length : ℤ) < (outBufSize : ℤ) - (ensurePacket req type).out_pos →
      ∃ w', ClearDone req (append (ensurePacket req type) str) w w' type str) ∧
    ∃ w', (fcgi_flush .good (append (ensurePacket req type)
        (str.take ((outBufSize : ℤ) - (ensurePacket req type).out_pos).toNat)) false).2 = true ∧
      Flushed req (fcgi_flush .good (append (ensurePacket req type)
        (str.take ((outBufSize : ℤ) - (ensurePacket req type).out_pos).toNat)) false).1 w' ∧
      RecordWriter.Wrote w w' type.code
        (str.take ((outBufSize : ℤ) - (ensurePacket req type).out_pos).toNat) := by
  have hsize : (outBufSize : ℤ) = 8192 := rfl
  obtain ⟨w1, hdr, content, hrep, hwrote, hcurrent, hhdr, hpos, _, hid⟩ :=
    ensurePacket_represents h hroom
  have hlen : 0 < str.length := List.length_pos_iff.2 hne
  constructor
  · intro hfits
    refine ⟨w1.extend str, append_represents hrep hhdr (by omega), ?_, ⟨fun hnone => ?_,
      fun hdr' hhdr' => ?_⟩, hid⟩
    · exact hwrote.trans (RecordWriter.wrote_extend hcurrent str)
    · exact nomatch hhdr.symm.trans hnone
    · obtain rfl := Option.some.inj (hhdr.symm.trans hhdr')
      have hle := (hrep.hdr_le hdr hhdr).1
      change hdr + 8 < (ensurePacket req type).out_pos + str.length ∧
        (ensurePacket req type).out_pos + str.length < 8192
      omega
  · have htake : (str.take ((outBufSize : ℤ) - (ensurePacket req type).out_pos).toNat).length ≤
        8192 - (ensurePacket req type).out_pos := by
      rw [List.length_take]
      omega
    have hbound : (ensurePacket req type).out_pos +
        (str.take ((outBufSize : ℤ) - (ensurePacket req type).out_pos).toNat).length ≤ 8200 := by
      omega
    have happend := append_represents hrep hhdr hbound
    obtain ⟨w', hok, hflushed, hsent⟩ := wrote_flush happend hhdr type
    refine ⟨w', hok, ⟨hflushed.represents, hflushed.hdr, hflushed.pos, hflushed.id.trans hid⟩, ?_⟩
    have hall := (hwrote.trans (RecordWriter.wrote_extend hcurrent _)).trans hsent.wrote
    rw [List.append_nil] at hall
    exact hall

theorem clearLoop_round (h : Ready req w type) (hne : str ≠ []) (fuel : ℕ) :
    (∃ req' w', clearLoop .good (fuel + 1) req type str = some (req', true) ∧
      ClearDone req req' w w' type str) ∨
    ∃ req' w' k, clearLoop .good (fuel + 1) req type str =
        clearLoop .good fuel req' type (str.drop k) ∧
      Flushed req req' w' ∧ RecordWriter.Wrote w w' type.code (str.take k) ∧
      (req.out_hdr = none → req.out_pos = 0 → 0 < k) := by
  have hsize : (outBufSize : ℤ) = 8192 := rfl
  have hheader : (headerSize : ℤ) = 8 := rfl
  obtain ⟨req1, hfirst, hready, hroom, hid, hempty⟩ : ∃ req1,
      (if req.out_hdr = none ∧ 0 ≤ (outBufSize : ℤ) - req.out_pos ∧
        (outBufSize : ℤ) - req.out_pos < headerSize then fcgi_flush .good req false
        else (req, true)) = (req1, true) ∧ Ready req1 w type ∧
      (req1.out_hdr = none → req1.out_pos ≤ 8184) ∧ req1.id = req.id ∧
      (req.out_hdr = none → req.out_pos = 0 → req1.out_hdr = none ∧ req1.out_pos = 0) := by
    split
    · rename_i hcond
      obtain ⟨hok, hflushed⟩ := fcgi_flush_of_none h.represents hcond.1
      have hpos := hflushed.pos
      exact ⟨(fcgi_flush .good req false).1, Prod.ext rfl hok, hflushed.ready type,
        fun _ => by omega, hflushed.id, fun _ _ => ⟨hflushed.hdr, hpos⟩⟩
    · rename_i hcond
      refine ⟨req, rfl, h, fun hnone => ?_, rfl, fun hnone hpos => ⟨hnone, hpos⟩⟩
      have hpos := h.pos_le
      exact Nat.le_of_not_lt fun hlt => hcond ⟨hnone, by omega, by omega⟩
  obtain ⟨hfits, w', hok, hflushed, hwrote⟩ := clearLoop_body hready hne hroom
  rw [clearLoop, if_neg hne]
  dsimp only
  rw [hfirst]
  dsimp only
  rw [if_pos rfl]
  split
  · rename_i hlt
    obtain ⟨w', hdone⟩ := hfits hlt
    exact .inl ⟨_, w', rfl, hdone.represents, hdone.wrote, hdone.settled, hdone.id.trans hid⟩
  · rename_i hlt
    refine .inr ⟨_, w', ((outBufSize : ℤ) - (ensurePacket req1 type).out_pos).toNat, ?_,
      ⟨hflushed.represents, hflushed.hdr, hflushed.pos, hflushed.id.trans hid⟩, hwrote,
      fun hnone hpos => ?_⟩
    · rfl
    · obtain ⟨hnone1, hpos1⟩ := hempty hnone hpos
      have hensure : (ensurePacket req1 type).out_pos = req1.out_pos + 8 := by
        rw [ensurePacket, if_pos hnone1]
        rfl
      omega

theorem clearLoop_done_of_empty (fuel : ℕ) (hfuel : str.length < fuel) (h : Ready req w type)
    (hnone : req.out_hdr = none) (hpos : req.out_pos = 0) :
    ∃ req' w', clearLoop .good fuel req type str = some (req', true) ∧
      ClearDone req req' w w' type str := by
  induction fuel generalizing req w str with
  | zero => omega
  | succ fuel ih =>
    by_cases hnil : str = []
    · refine ⟨req, w, by rw [clearLoop, if_pos hnil], h.represents, ?_,
        ⟨fun _ => hpos, fun hdr hhdr => ?_⟩, rfl⟩
      · rw [hnil]
        exact RecordWriter.Wrote.refl _ _
      · exact nomatch hnone.symm.trans hhdr
    · rcases clearLoop_round h hnil fuel with hdone | ⟨req1, w1, k, hloop, hflushed, hwrote, hk⟩
      · exact hdone
      · have hkpos := hk hnone hpos
        have hlen : 0 < str.length := List.length_pos_iff.2 hnil
        have hless : (str.drop k).length < fuel := by
          rw [List.length_drop]
          omega
        obtain ⟨req', w', hrest, hdone⟩ := ih hless (hflushed.ready type) hflushed.hdr hflushed.pos
        refine ⟨req', w', hloop.trans hrest, hdone.represents, ?_, hdone.settled,
          hdone.id.trans hflushed.id⟩
        have hall := hwrote.trans hdone.wrote
        rw [List.take_append_drop] at hall
        exact hall

theorem clearLoop_done (h : Ready req w type) (hne : str ≠ []) :
    ∃ req' w', clearLoop .good (str.length + 2) req type str = some (req', true) ∧
      ClearDone req req' w w' type str := by
  rcases clearLoop_round h hne (str.length + 1) with
    hdone | ⟨req1, w1, k, hloop, hflushed, hwrote, _⟩
  · exact hdone
  · have hless : (str.drop k).length < str.length + 1 := by
      rw [List.length_drop]
      omega
    obtain ⟨req', w', hrest, hdone⟩ := clearLoop_done_of_empty (str.length + 1) hless
      (hflushed.ready type) hflushed.hdr hflushed.pos
    refine ⟨req', w', hloop.trans hrest, hdone.represents, ?_, hdone.settled,
      hdone.id.trans hflushed.id⟩
    have hall := hwrote.trans hdone.wrote
    rw [List.take_append_drop] at hall
    exact hall

theorem fcgi_write_clear_done (h : Represents req w) (hs : Settled req) (type : RequestType)
    (str : List UInt8) :
    ∃ req' ret w', fcgi_write_clear .good req type str = some (req', ret) ∧
      ClearDone req req' w w' type str := by
  unfold fcgi_write_clear
  by_cases hnil : str.length ≤ 0
  · have hstr : str = [] := List.eq_nil_of_length_eq_zero (Nat.le_zero.1 hnil)
    rw [if_pos hnil]
    refine ⟨req, 0, w, rfl, h, ?_, hs, rfl⟩
    rw [hstr]
    exact RecordWriter.Wrote.refl _ _
  · have hne : str ≠ [] := fun hstr => hnil (by simp [hstr])
    obtain ⟨w1, hready, hclosed, _⟩ := closeOther_ready h hs type
    obtain ⟨req', w', hloop, hdone⟩ := clearLoop_done hready hne
    rw [if_neg hnil, hloop]
    refine ⟨req', _, w', rfl, hdone.represents, ?_, hdone.settled, hdone.id.trans hclosed.id⟩
    have hall := hclosed.wrote.trans hdone.wrote
    rw [List.nil_append] at hall
    exact hall

theorem runClear_wrote (ops : List Op) (h : Represents req w) (hs : Settled req) :
    ∃ req' w', runClear .good req ops = some req' ∧ Represents req' w' ∧ Settled req' ∧
      WroteAll w w' ops ∧ req'.id = req.id := by
  induction ops generalizing req w with
  | nil => exact ⟨req, w, rfl, h, hs, WroteAll.refl w, rfl⟩
  | cons op ops ih =>
    cases op with
    | write stream str =>
      obtain ⟨req1, ret, w1, hclear, hdone⟩ := fcgi_write_clear_done h hs stream.type str
      obtain ⟨req', w', hrun, hrep, hend, hall, hid⟩ := ih hdone.represents hdone.settled
      refine ⟨req', w', ?_, hrep, hend, WroteAll.write hdone.wrote hall, hid.trans hdone.id⟩
      rw [runClear, hclear]
      exact hrun
    | flush =>
      obtain ⟨w1, hwrote, hsettled⟩ := fcgi_flush_wrote h hs FCGI_STDOUT
      obtain ⟨req', w', hrun, hrep, hend, hall, hid⟩ := ih hwrote.represents hsettled
      exact ⟨req', w', hrun, hrep, hend, WroteAll.flush hwrote.wrote hall, hid.trans hwrote.id⟩

/-! ### The end of a request -/

/-- The records of a run that ends with `fcgi_flush(req, 1)`. -/
structure Framed (id : ℕ) (ops : List Op) (records : List Record) (last : Record) : Prop where
  ids : ∀ r ∈ records, r.id = id
  last_id : last.id = id
  types : ∀ r ∈ records, ∃ s : OutStream, r.type = s.type.code
  last_type : last.type = FCGI_END_REQUEST.code
  streams : ∀ s : OutStream, streamOf s.type.code records = ops.flatMap (Op.data s)

theorem flushEnd_of_none (h : Represents req w) (hnone : req.out_hdr = none) :
    ∃ last : Record, (fcgi_flush .good req true).1.sent = encodeAll (w.records ++ [last]) ∧
      last.id = req.id ∧ last.type = FCGI_END_REQUEST.code := by
  have hbytes := h.bytes
  rw [hnone, Option.getD_none] at hbytes
  let made := fcgi_make_header req req.out_pos FCGI_END_REQUEST.code 8
  let ended := made.out_buf.copy (req.out_pos + 8) [0, 0, 0, 0, 0]
  let last : Record :=
    { type := FCGI_END_REQUEST.code
      id := req.id
      content := ended.bytes (req.out_pos + 8) 8
      padding := []
      id_lt := req.id_lt
      content_lt := by rw [ByteBuffer.length_bytes]; decide
      padding_lt := by decide }
  refine ⟨last, ?_, rfl, rfl⟩
  have hsent : (fcgi_flush .good req true).1.sent =
      req.sent ++ ended.bytes 0 (req.out_pos + 16) := by
    unfold fcgi_flush safe_write Socket.good
    rw [close_packet_of_none hnone]
    rfl
  have hheader : ended.bytes req.out_pos 8 = Record.header FCGI_END_REQUEST.code req.id 8 0 := by
    rw [ByteBuffer.bytes_copy_of_le _ _ (Nat.le_refl _)]
    have hmade := bytes_make_header req req.out_pos FCGI_END_REQUEST.code 8
    have hpad : padding 8 = 0 := rfl
    rw [hpad, List.replicate_zero, List.append_nil, Nat.add_zero, ByteBuffer.bytes_add] at hmade
    exact (List.append_inj hmade (by simp)).1
  have hfront : ended.bytes 0 req.out_pos = req.out_buf.bytes 0 req.out_pos := by
    rw [ByteBuffer.bytes_copy_of_le _ _ (by omega)]
    exact bytes_make_header_of_le req _ _ (by omega)
  have hsplit : req.out_pos + 16 = req.out_pos + (8 + 8) := rfl
  rw [hsent, hsplit, ByteBuffer.bytes_add, ByteBuffer.bytes_add, Nat.zero_add, hfront, hheader,
    encodeAll_append, encodeAll_singleton, ← hbytes, List.append_assoc]
  simp [Record.encode, last]

theorem flushEnd_framed {ops : List Op} (h : Represents req w) (hs : Settled req)
    (hall : WroteAll ⟨[], none⟩ w ops) :
    ∃ records last, (fcgi_flush .good req true).1.sent = encodeAll (records ++ [last]) ∧
      Framed req.id ops records last ∧ ((∀ r ∈ records, r.content ≠ []) ↔ w.NonEmpty) := by
  obtain ⟨w', hclosed, hnone⟩ : ∃ w', Wrote req (close_packet req) w w' FCGI_STDOUT [] True ∧
      (close_packet req).out_hdr = none := by
    cases hhdr : req.out_hdr with
    | none =>
      rw [close_packet_of_none hhdr]
      exact ⟨w, ⟨h, RecordWriter.Wrote.refl _ _, by rw [and_true], rfl⟩, hhdr⟩
    | some hdr =>
      obtain ⟨w', hwrote, hnone, _⟩ := wrote_close h hhdr FCGI_STDOUT
      exact ⟨w', hwrote.mono (iff_of_true (hs.opened hdr hhdr).1 trivial), hnone⟩
  have hcurrent := hclosed.represents.current_of_none hnone
  have hflush : fcgi_flush .good req true = fcgi_flush .good (close_packet req) true := by
    unfold fcgi_flush
    rw [close_packet_of_none hnone]
  obtain ⟨last, hsent, hid, htype⟩ := flushEnd_of_none hclosed.represents hnone
  refine ⟨w'.records, last, by rw [hflush, hsent], ⟨fun r hr => ?_, hid.trans hclosed.id,
    fun r hr => ?_, htype, fun s => ?_⟩, ?_⟩
  · exact (hclosed.represents.ids r hr).trans hclosed.id
  · rcases hclosed.wrote.uses r.type (.inl ⟨r, hr, rfl⟩) with huses | hout
    · rcases hall.uses r.type huses with hempty | hout
      · exact absurd hempty (by simp [RecordWriter.Uses])
      · exact hout
    · exact ⟨.out, hout⟩
  · have hstream := hclosed.wrote.stream s.type.code
    rw [hall.stream] at hstream
    simpa [RecordWriter.stream, hcurrent, RecordWriter.pending] using hstream
  · have hne : w'.NonEmpty ↔ w.NonEmpty := hclosed.nonEmpty.trans (and_iff_left trivial)
    rw [← hne]
    refine ⟨fun hne => ⟨hne, fun t c hc => ?_⟩, fun hne => hne.records⟩
    exact absurd (hc.symm.trans hcurrent) (Option.some_ne_none (t, c))

/-! ### The output of a run -/

/-- What a run sends is right: it is one list of records, with the data of the run in them and no
empty one, and the clear version sends the same streams. -/
def OutputCorrect (req : Request) (ops : List Op) : Prop :=
  ∃ records last,
    (fcgi_flush .good (runOps .good req ops) true).1.sent = encodeAll (records ++ [last]) ∧
    (∀ other, (fcgi_flush .good (runOps .good req ops) true).1.sent = encodeAll other →
      other = records ++ [last]) ∧
    Framed req.id ops records last ∧
    (∀ r ∈ records, r.content ≠ []) ∧
    ∃ clear clearRecords clearLast, runClear .good req ops = some clear ∧
      (fcgi_flush .good clear true).1.sent = encodeAll (clearRecords ++ [clearLast]) ∧
      ∀ s : OutStream, streamOf s.type.code clearRecords = streamOf s.type.code records

theorem settled_fresh (id : Fin 65536) (keep : Bool) (cell : ℕ → UInt8) :
    Settled (.fresh id keep cell) := ⟨fun _ => rfl, nofun⟩

theorem runOps_framed (id : Fin 65536) (keep : Bool) (cell : ℕ → UInt8) (ops : List Op) :
    ∃ records last,
      (fcgi_flush .good (runOps .good (.fresh id keep cell) ops) true).1.sent =
        encodeAll (records ++ [last]) ∧
      Framed id ops records last ∧
      ((∀ r ∈ records, r.content ≠ []) ↔ Throughout .good Fed (.fresh id keep cell) ops) := by
  obtain ⟨w, hrep, hsettled, hall, hne, hid⟩ :=
    runOps_wrote ops (represents_fresh id keep cell) (settled_fresh id keep cell)
  obtain ⟨records, last, hsent, hframed, hempty⟩ := flushEnd_framed hrep hsettled hall
  rw [hid] at hframed
  refine ⟨records, last, hsent, hframed, ?_⟩
  rw [hempty, hne]
  exact and_iff_right ⟨nofun, nofun⟩

theorem runClear_framed (id : Fin 65536) (keep : Bool) (cell : ℕ → UInt8) (ops : List Op) :
    ∃ clear records last, runClear .good (.fresh id keep cell) ops = some clear ∧
      (fcgi_flush .good clear true).1.sent = encodeAll (records ++ [last]) ∧
      Framed id ops records last := by
  obtain ⟨clear, w, hrun, hrep, hsettled, hall, hid⟩ :=
    runClear_wrote ops (represents_fresh id keep cell) (settled_fresh id keep cell)
  obtain ⟨records, last, hsent, hframed, _⟩ := flushEnd_framed hrep hsettled hall
  rw [hid] at hframed
  exact ⟨clear, records, last, hrun, hsent, hframed⟩

theorem OutputCorrect.fed {id : Fin 65536} {keep : Bool} {cell : ℕ → UInt8} {ops : List Op}
    (h : OutputCorrect (.fresh id keep cell) ops) :
    Throughout .good Fed (.fresh id keep cell) ops := by
  obtain ⟨records, last, hsent, _, _, hne, _⟩ := h
  obtain ⟨records', last', hsent', _, hiff⟩ := runOps_framed id keep cell ops
  have heq : records ++ [last] = records' ++ [last'] := encodeAll_inj (hsent.symm.trans hsent')
  rw [← hiff, ← (List.append_inj' heq rfl).1]
  exact hne

/-- The output of a run is right just if no call starves. -/
theorem outputCorrect_iff (id : Fin 65536) (keep : Bool) (cell : ℕ → UInt8) (ops : List Op) :
    OutputCorrect (.fresh id keep cell) ops ↔ Throughout .good Fed (.fresh id keep cell) ops := by
  refine ⟨OutputCorrect.fed, fun hfed => ?_⟩
  obtain ⟨records, last, hsent, hframed, hiff⟩ := runOps_framed id keep cell ops
  obtain ⟨clear, clearRecords, clearLast, hrun, hclear, hsame⟩ := runClear_framed id keep cell ops
  refine ⟨records, last, hsent, fun other hother => encodeAll_inj (hother.symm.trans hsent),
    hframed, hiff.2 hfed, clear, clearRecords, clearLast, hrun, hclear, fun s => ?_⟩
  rw [hsame.streams, hframed.streams]

theorem fcgi_write_of_lt (socket : Socket) (hne : str ≠ [])
    (hlimit : (str.length : ℤ) < roomLimit (closeOther req type)) :
    (fcgi_write socket req type str).1 =
      append (ensurePacket (closeOther req type) type) str := by
  have hpos : 0 < str.length := List.length_pos_iff.2 hne
  unfold fcgi_write
  rw [if_neg (by omega)]
  dsimp only
  rw [if_pos hlimit]

theorem roomLimit_fresh (id : Fin 65536) (keep : Bool) (cell : ℕ → UInt8) :
    roomLimit (.fresh id keep cell) = 8184 := by
  have hnone : (Request.fresh id keep cell).out_hdr = none := rfl
  rw [roomLimit, if_pos hnone]
  change max ((8192 : ℤ) - (0 : ℕ) - 8) 0 = 8184
  omega

theorem closeOther_fresh (id : Fin 65536) (keep : Bool) (cell : ℕ → UInt8)
    (type : RequestType) : closeOther (.fresh id keep cell) type = .fresh id keep cell := rfl

theorem not_correct_of_full {str : List UInt8} (hlen : str.length = 8183) :
    ¬ OutputCorrect (.fresh 1 true fun _ => 0) [.write .out str, .write .err [0]] := by
  intro h
  obtain ⟨_, hsecond, _⟩ := h.fed
  have hne : str ≠ [] := List.length_pos_iff.1 (by omega)
  have hlimit : (str.length : ℤ) <
      roomLimit (closeOther (.fresh 1 true fun _ => 0) OutStream.out.type) := by
    rw [closeOther_fresh, roomLimit_fresh]
    omega
  change ¬ Starves (fcgi_write _ _ _ _).1 _ _ at hsecond
  rw [fcgi_write_of_lt _ hne hlimit, closeOther_fresh] at hsecond
  refine hsecond ⟨nofun, by decide, 0, rfl, ?_, ?_⟩
  · have hcell : (append (ensurePacket (.fresh 1 true fun _ => 0) FCGI_STDOUT) str).out_buf.cell
        (0 + 1) = FCGI_STDOUT.code := by
      change ByteBuffer.cell (ByteBuffer.copy _ 8 str) 1 = _
      simp only [ByteBuffer.copy]
      rw [if_neg (by omega)]
      rfl
    rw [OutStream.type, hcell]
    decide
  · change 8176 < 8 + str.length
    omega

theorem fcgi_write_empty_record :
    ¬ OutputCorrect (.fresh 1 true fun _ => 0)
      [.write .out (List.replicate 8183 0), .write .err [0]] :=
  not_correct_of_full List.length_replicate

end PhpRuntime.Fastcgi

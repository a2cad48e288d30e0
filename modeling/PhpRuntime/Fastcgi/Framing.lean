import PhpRuntime.Fastcgi.Output

/-!
# The records of a FastCGI request

`Represents` relates a request to a writer of records: what is sent and what is in the output
buffer in front of the open packet are the records, and the open packet is the current one. There
is one statement for every function, for a socket whose writes succeed.
-/

set_option autoImplicit false

namespace PhpRuntime.Fastcgi

open PhpRuntime.Lib
open RequestType

variable {req : Request} {w : RecordWriter} {type : RequestType} {str : List UInt8}

/-- The request represents a writer. -/
structure Represents (req : Request) (w : RecordWriter) : Prop where
  bytes : req.sent ++ req.out_buf.bytes 0 (req.out_hdr.getD req.out_pos) = encodeAll w.records
  current : w.current = req.out_hdr.map fun hdr =>
    (req.out_buf.cell (hdr + 1), req.out_buf.bytes (hdr + 8) (req.out_pos - (hdr + 8)))
  hdr_le : ∀ hdr, req.out_hdr = some hdr → hdr + 8 ≤ req.out_pos ∧ hdr % 8 = 0
  aligned : req.out_hdr = none → req.out_pos % 8 = 0
  pos_le : req.out_pos ≤ 8200
  ids : ∀ r ∈ w.records, r.id = req.id

theorem Represents.current_of_none (h : Represents req w) (hnone : req.out_hdr = none) :
    w.current = none := by
  rw [h.current, hnone]
  rfl

theorem Represents.current_of_some (h : Represents req w) {hdr : ℕ}
    (hsome : req.out_hdr = some hdr) : w.current = some (req.out_buf.cell (hdr + 1),
      req.out_buf.bytes (hdr + 8) (req.out_pos - (hdr + 8))) := by
  rw [h.current, hsome]
  rfl

theorem represents_fresh (id : Fin 65536) (keep : Bool) (cell : ℕ → UInt8) :
    Represents (.fresh id keep cell) ⟨[], none⟩ where
  bytes := by simp [Request.fresh]
  current := rfl
  hdr_le := nofun
  aligned _ := rfl
  pos_le := Nat.zero_le _
  ids := nofun

/-! ### Records in the buffer -/

theorem padding_lt (len : ℕ) : padding len < 8 := by
  unfold padding
  omega

theorem bytes_make_header (req : Request) (hdr : ℕ) (type : UInt8) (len : ℕ) :
    (fcgi_make_header req hdr type len).out_buf.bytes hdr (8 + len + padding len) =
      Record.header type req.id len (padding len) ++ req.out_buf.bytes (hdr + 8) len ++
        List.replicate (padding len) 0 := by
  unfold fcgi_make_header
  dsimp only [headerSize]
  split
  · rename_i hpad
    rw [hpad, List.replicate_zero, List.append_nil, Nat.add_zero, ByteBuffer.bytes_add,
      ByteBuffer.bytes_copy_self _ _ _ (Nat.le_refl 8),
      ByteBuffer.bytes_copy_of_ge _ _ (by simp)]
    rfl
  · rw [ByteBuffer.bytes_add, ByteBuffer.bytes_copy_of_le _ _ (by omega), ByteBuffer.bytes_add,
      ByteBuffer.bytes_copy_self _ _ _ (Nat.le_refl 8),
      ByteBuffer.bytes_copy_of_ge _ _ (by simp), ← Nat.add_assoc,
      ByteBuffer.bytes_copy_self _ _ _ (by simp), List.take_replicate, Nat.min_self]
    rfl

theorem bytes_make_header_of_le (req : Request) {i n hdr : ℕ} (type : UInt8) (len : ℕ)
    (h : i + n ≤ hdr) :
    (fcgi_make_header req hdr type len).out_buf.bytes i n = req.out_buf.bytes i n := by
  unfold fcgi_make_header
  dsimp only [headerSize]
  split
  · exact ByteBuffer.bytes_copy_of_le _ _ h
  · rw [ByteBuffer.bytes_copy_of_le _ _ (by omega), ByteBuffer.bytes_copy_of_le _ _ h]

def packetRecord (req : Request) (hdr len : ℕ) (h : len < 65536) : Record where
  type := req.out_buf.cell (hdr + 1)
  id := req.id
  content := req.out_buf.bytes (hdr + 8) len
  padding := List.replicate (padding len) 0
  id_lt := req.id_lt
  content_lt := by
    rw [ByteBuffer.length_bytes]
    exact h
  padding_lt := by
    rw [List.length_replicate]
    exact Nat.lt_trans (padding_lt len) (by omega)

theorem encode_packetRecord (req : Request) (hdr len : ℕ) (h : len < 65536) :
    (packetRecord req hdr len h).encode =
      (fcgi_make_header req hdr (req.out_buf.cell (hdr + 1)) len).out_buf.bytes hdr
        (8 + len + padding len) := by
  rw [bytes_make_header, Record.encode]
  simp [packetRecord]

/-! ### The steps -/

theorem open_packet_represents (h : Represents req w) (hnone : req.out_hdr = none)
    (hpos : req.out_pos ≤ 8192) (type : RequestType) :
    Represents (open_packet req type) (w.start type.code) where
  bytes := by
    have hbytes := h.bytes
    rw [hnone] at hbytes
    change req.sent ++ (req.out_buf.set (req.out_pos + 1) type.code).bytes 0 req.out_pos = _
    rw [ByteBuffer.bytes_set_of_le _ _ (by omega)]
    exact hbytes
  current := by
    simp [open_packet, RecordWriter.start, headerSize]
  hdr_le hdr hhdr := by
    obtain rfl := Option.some.inj hhdr
    exact ⟨Nat.le_refl _, h.aligned hnone⟩
  aligned := nofun
  pos_le := by
    change req.out_pos + 8 ≤ 8200
    omega
  ids := h.ids

theorem append_represents (h : Represents req w) {hdr : ℕ} (hsome : req.out_hdr = some hdr)
    (hpos : req.out_pos + str.length ≤ 8200) : Represents (append req str) (w.extend str) where
  bytes := by
    have hle := (h.hdr_le hdr hsome).1
    have hbytes := h.bytes
    rw [hsome] at hbytes
    change req.sent ++ (req.out_buf.copy req.out_pos str).bytes 0 (req.out_hdr.getD _) = _
    rw [hsome, Option.getD_some, ByteBuffer.bytes_copy_of_le _ _ (by omega)]
    exact hbytes
  current := by
    have hle := (h.hdr_le hdr hsome).1
    have hsplit : req.out_pos + str.length - (hdr + 8) = req.out_pos - (hdr + 8) + str.length := by
      omega
    have hadd : hdr + 8 + (req.out_pos - (hdr + 8)) = req.out_pos := by omega
    have hcell : (req.out_buf.copy req.out_pos str).cell (hdr + 1) =
        req.out_buf.cell (hdr + 1) := by
      simp only [ByteBuffer.copy]
      rw [if_neg (by omega)]
    simp only [RecordWriter.extend, append, h.current_of_some hsome, hsome, Option.map_some]
    rw [hsplit, ByteBuffer.bytes_add, ByteBuffer.bytes_copy_of_le _ _ (by omega), hadd,
      ByteBuffer.bytes_copy_self _ _ _ (Nat.le_refl _), List.take_length, hcell]
  hdr_le hdr' hhdr := by
    obtain ⟨hle, hmod⟩ := h.hdr_le hdr' hhdr
    exact ⟨by change hdr' + 8 ≤ req.out_pos + str.length; omega, hmod⟩
  aligned hnone := by
    change req.out_hdr = none at hnone
    exact absurd (hsome.symm.trans hnone) (Option.some_ne_none hdr)
  pos_le := hpos
  ids := h.ids

/-- What holds when a packet is closed. -/
structure Closes (req req' : Request) (w : RecordWriter) (r : Record) : Prop where
  represents : Represents req' (w.finish r)
  current : w.current = some (r.type, r.content)
  hdr : req'.out_hdr = none
  pos : req'.out_pos = (req.out_pos + 7) / 8 * 8
  id : req'.id = req.id

theorem close_packet_represents (h : Represents req w) {hdr : ℕ}
    (hsome : req.out_hdr = some hdr) : ∃ r, Closes req (close_packet req) w r := by
  obtain ⟨hle, hmod⟩ := h.hdr_le hdr hsome
  have hpos := h.pos_le
  have hlen : req.out_pos - (hdr + 8) < 65536 := by omega
  have hend : req.out_pos + padding (req.out_pos - (hdr + 8)) = (req.out_pos + 7) / 8 * 8 := by
    unfold padding
    omega
  have hbytes := h.bytes
  rw [hsome, Option.getD_some] at hbytes
  refine ⟨packetRecord req hdr (req.out_pos - (hdr + 8)) hlen, ?_, h.current_of_some hsome,
    ?_, ?_, ?_⟩
  · have hsplit : req.out_pos + padding (req.out_pos - (hdr + 8)) =
        hdr + (8 + (req.out_pos - (hdr + 8)) + padding (req.out_pos - (hdr + 8))) := by
      omega
    unfold close_packet
    simp only [hsome, headerSize]
    refine ⟨?_, rfl, nofun, fun _ => ?_, ?_, ?_⟩
    · change req.sent ++ (fcgi_make_header req hdr _ _).out_buf.bytes 0
        (req.out_pos + padding (req.out_pos - (hdr + 8))) = encodeAll (w.records ++ [_])
      rw [hsplit, ByteBuffer.bytes_add, bytes_make_header_of_le _ _ _ (by omega),
        encodeAll_append, encodeAll_singleton, encode_packetRecord, ← hbytes, Nat.zero_add,
        List.append_assoc]
    · change (req.out_pos + padding _) % 8 = 0
      omega
    · change req.out_pos + padding _ ≤ 8200
      omega
    · intro r hr
      rcases List.mem_append.1 hr with hr | hr
      · exact h.ids r hr
      · rw [List.mem_singleton.1 hr]
        rfl
  · simp [close_packet, hsome]
  · rw [← hend]
    simp [close_packet, hsome, headerSize]
  · simp [close_packet, hsome, fcgi_make_header]

theorem close_packet_of_none (hnone : req.out_hdr = none) : close_packet req = req := by
  unfold close_packet
  rw [hnone]

/-- The buffer is sent. -/
structure Flushed (req req' : Request) (w : RecordWriter) : Prop where
  represents : Represents req' w
  hdr : req'.out_hdr = none
  pos : req'.out_pos = 0
  id : req'.id = req.id

theorem fcgi_flush_of_none (h : Represents req w) (hnone : req.out_hdr = none) :
    (fcgi_flush .good req false).2 = true ∧
      Flushed req (fcgi_flush .good req false).1 w := by
  have hbytes := h.bytes
  rw [hnone, Option.getD_none] at hbytes
  unfold fcgi_flush safe_write Socket.good
  simp only [close_packet_of_none hnone, Bool.false_eq_true, if_false, if_true, true_and]
  refine ⟨⟨?_, ?_, ?_, fun _ => rfl, Nat.zero_le _, h.ids⟩, hnone, rfl, rfl⟩
  · simp only [hnone, Option.getD_none, ByteBuffer.bytes_zero_right, List.append_nil]
    exact hbytes
  · simp only [hnone, Option.map_none]
    exact h.current_of_none hnone
  · intro hdr hhdr
    rw [hnone] at hhdr
    exact nomatch hhdr

theorem sendBlock_represents (h : Represents req w) (hnone : req.out_hdr = none)
    (type : RequestType) {block : List UInt8} (hmod : block.length % 8 = 0)
    (hlt : block.length < 65536) :
    ∃ r : Record, r.type = type.code ∧ r.content = block ∧
      (sendBlock .good req type block).2 = true ∧
      Flushed req (sendBlock .good req type block).1 (w.finish r) := by
  have hpad : padding block.length = 0 := by
    unfold padding
    omega
  have hbytes := h.bytes
  rw [hnone, Option.getD_none] at hbytes
  have hheader : (fcgi_make_header (open_packet req type) req.out_pos type.code
      block.length).out_buf.bytes 0 (req.out_pos + 8) =
        req.out_buf.bytes 0 req.out_pos ++ Record.header type.code req.id block.length 0 := by
    unfold fcgi_make_header
    simp only [hpad, if_true]
    rw [ByteBuffer.bytes_add, ByteBuffer.bytes_copy_of_le _ _ (Nat.le_of_eq (Nat.zero_add _)),
      Nat.zero_add, ByteBuffer.bytes_copy_self _ _ _ (Nat.le_refl 8)]
    change (req.out_buf.set _ _).bytes 0 req.out_pos ++ _ = _
    rw [ByteBuffer.bytes_set_of_le _ _ (by omega)]
    rfl
  let r : Record :=
    { type := type.code
      id := req.id
      content := block
      padding := []
      id_lt := req.id_lt
      content_lt := hlt
      padding_lt := by decide }
  refine ⟨r, rfl, rfl, rfl, ⟨?_, ?_, nofun, fun _ => rfl, Nat.zero_le _, ?_⟩, rfl, rfl, rfl⟩
  · change req.sent ++ (fcgi_make_header (open_packet req type) req.out_pos type.code
      block.length).out_buf.bytes 0 (req.out_pos + 8) ++ block ++ [] = encodeAll (w.records ++ [r])
    rw [hheader, encodeAll_append, encodeAll_singleton, ← hbytes]
    simp [Record.encode, r]
  · rfl
  · intro s hs
    rcases List.mem_append.1 hs with hs | hs
    · exact h.ids s hs
    · rw [List.mem_singleton.1 hs]
      rfl

/-! ### A call -/

/-- Between two calls: a packet that is open is not empty, and does not fill the buffer. If none
is open the buffer is empty. -/
structure Settled (req : Request) : Prop where
  closed : req.out_hdr = none → req.out_pos = 0
  opened : ∀ hdr, req.out_hdr = some hdr → hdr + 8 < req.out_pos ∧ req.out_pos < 8192

/-- In a call, when packets of another type are closed. -/
structure Ready (req : Request) (w : RecordWriter) (type : RequestType) : Prop where
  represents : Represents req w
  pos_le : req.out_pos ≤ 8192
  opened : ∀ hdr, req.out_hdr = some hdr →
    hdr + 8 < req.out_pos ∧ req.out_pos < 8192 ∧ req.out_buf.cell (hdr + 1) = type.code

/-- From `w` to `w'` data of a type are written, and no record is empty if `kept` holds. -/
structure Wrote (req req' : Request) (w w' : RecordWriter) (type : RequestType) (str : List UInt8)
    (kept : Prop) : Prop where
  represents : Represents req' w'
  wrote : RecordWriter.Wrote w w' type.code str
  nonEmpty : w'.NonEmpty ↔ w.NonEmpty ∧ kept
  id : req'.id = req.id

theorem Flushed.ready {req' : Request} (h : Flushed req req' w) (type : RequestType) :
    Ready req' w type where
  represents := h.represents
  pos_le := by
    rw [h.pos]
    omega
  opened hdr hhdr := by
    rw [h.hdr] at hhdr
    exact nomatch hhdr

theorem Flushed.settled {req' : Request} (h : Flushed req req' w) : Settled req' where
  closed _ := h.pos
  opened hdr hhdr := by
    rw [h.hdr] at hhdr
    exact nomatch hhdr

theorem append_ensurePacket (h : Ready req w type) (hne : str ≠ [])
    (hroom : (ensurePacket req type).out_pos + str.length ≤ 8192) :
    ∃ w' hdr, Wrote req (append (ensurePacket req type) str) w w' type str True ∧
      (append (ensurePacket req type) str).out_hdr = some hdr ∧
      hdr + 8 < (ensurePacket req type).out_pos + str.length := by
  have hlen : 0 < str.length := List.length_pos_iff.2 hne
  cases hhdr : req.out_hdr with
  | none =>
    have hensure : ensurePacket req type = open_packet req type := if_pos hhdr
    rw [hensure] at hroom ⊢
    have hpos : req.out_pos + 8 + str.length ≤ 8192 := hroom
    have hcurrent := h.represents.current_of_none hhdr
    have hopen := open_packet_represents h.represents hhdr (by omega) type
    refine ⟨(w.start type.code).extend str, req.out_pos, ⟨?_, ?_, ?_, rfl⟩, rfl, ?_⟩
    · exact append_represents hopen rfl (by omega)
    · have hstart := RecordWriter.wrote_start type.code hcurrent
      exact hstart.trans (RecordWriter.wrote_extend (w := w.start type.code) rfl str)
    · rw [RecordWriter.nonEmpty_start _ hcurrent hne, and_true]
    · change req.out_pos + 8 < req.out_pos + 8 + str.length
      omega
  | some hdr =>
    obtain ⟨hlt, hpos, htype⟩ := h.opened hdr hhdr
    have hensure : ensurePacket req type = req := if_neg (by rw [hhdr]; nofun)
    rw [hensure] at hroom ⊢
    have hcurrent := h.represents.current_of_some hhdr
    rw [htype] at hcurrent
    have hcontent : req.out_buf.bytes (hdr + 8) (req.out_pos - (hdr + 8)) ≠ [] := by
      intro hnil
      have hzero := congrArg List.length hnil
      rw [ByteBuffer.length_bytes, List.length_nil] at hzero
      omega
    refine ⟨w.extend str, hdr, ⟨?_, ?_, ?_, rfl⟩, hhdr, by omega⟩
    · exact append_represents h.represents hhdr (by omega)
    · exact RecordWriter.wrote_extend hcurrent str
    · rw [RecordWriter.nonEmpty_extend hcurrent hcontent, and_true]

theorem Wrote.trans {req' req'' : Request} {w' w'' : RecordWriter} {a b : List UInt8}
    {kept kept' : Prop} (h : Wrote req req' w w' type a kept)
    (h' : Wrote req' req'' w' w'' type b kept') :
    Wrote req req'' w w'' type (a ++ b) (kept ∧ kept') where
  represents := h'.represents
  wrote := h.wrote.trans h'.wrote
  nonEmpty := by rw [h'.nonEmpty, h.nonEmpty, and_assoc]
  id := h'.id.trans h.id

theorem Wrote.mono {req' : Request} {w' : RecordWriter} {kept kept' : Prop}
    (h : Wrote req req' w w' type str kept) (hiff : kept ↔ kept') :
    Wrote req req' w w' type str kept' :=
  ⟨h.represents, h.wrote, by rw [h.nonEmpty, hiff], h.id⟩

theorem wrote_close (h : Represents req w) {hdr : ℕ} (hsome : req.out_hdr = some hdr)
    (type : RequestType) :
    ∃ w', Wrote req (close_packet req) w w' type [] (hdr + 8 < req.out_pos) ∧
      (close_packet req).out_hdr = none ∧
      (close_packet req).out_pos = (req.out_pos + 7) / 8 * 8 := by
  have hle := (h.hdr_le hdr hsome).1
  obtain ⟨r, hr⟩ := close_packet_represents h hsome
  refine ⟨w.finish r, ⟨hr.represents, RecordWriter.wrote_finish hr.current _, ?_, hr.id⟩,
    hr.hdr, hr.pos⟩
  have hcontent : r.content = req.out_buf.bytes (hdr + 8) (req.out_pos - (hdr + 8)) := by
    have hcurrent := hr.current
    rw [h.current_of_some hsome] at hcurrent
    exact (Prod.mk.inj (Option.some.inj hcurrent)).2.symm
  rw [RecordWriter.nonEmpty_finish (.inr hr.current), hcontent, ← List.length_pos_iff,
    ByteBuffer.length_bytes]
  exact and_congr_right fun _ => by omega

/-- `fcgi_flush` closes the packet first. -/
theorem wrote_flush (h : Represents req w) {hdr : ℕ} (hsome : req.out_hdr = some hdr)
    (type : RequestType) :
    ∃ w', (fcgi_flush .good req false).2 = true ∧
      Flushed req (fcgi_flush .good req false).1 w' ∧
      Wrote req (fcgi_flush .good req false).1 w w' type [] (hdr + 8 < req.out_pos) := by
  obtain ⟨w', hwrote, hnone, hpos⟩ := wrote_close h hsome type
  have hflush : fcgi_flush .good req false = fcgi_flush .good (close_packet req) false := by
    unfold fcgi_flush
    rw [close_packet_of_none hnone]
  obtain ⟨hok, hflushed⟩ := fcgi_flush_of_none hwrote.represents hnone
  rw [hflush]
  have hid := hflushed.id.trans hwrote.id
  exact ⟨w', hok, ⟨hflushed.represents, hflushed.hdr, hflushed.pos, hid⟩,
    ⟨hflushed.represents, hwrote.wrote, hwrote.nonEmpty, hid⟩⟩

/-- No packet is open, and there is no room for a byte behind a header. -/
def Full (req : Request) : Prop := req.out_hdr = none ∧ 8184 ≤ req.out_pos

theorem closeOther_ready (h : Represents req w) (hs : Settled req) (type : RequestType) :
    ∃ w', Ready (closeOther req type) w' type ∧
      Wrote req (closeOther req type) w w' type [] True ∧
      (Full (closeOther req type) ↔ ∃ hdr, req.out_hdr = some hdr ∧
        req.out_buf.cell (hdr + 1) ≠ type.code ∧ 8176 < req.out_pos) := by
  have hsame : Wrote req req w w type [] True :=
    ⟨h, RecordWriter.Wrote.refl _ _, by rw [and_true], rfl⟩
  cases hhdr : req.out_hdr with
  | none =>
    have hclose : closeOther req type = req := by
      unfold closeOther
      rw [hhdr]
    have hpos := hs.closed hhdr
    rw [hclose]
    refine ⟨w, ⟨h, by omega, fun hdr hsome => ?_⟩, hsame, ?_⟩
    · rw [hhdr] at hsome
      exact nomatch hsome
    · constructor
      · intro ⟨_, hfull⟩
        omega
      · rintro ⟨hdr, hsome, _⟩
        exact nomatch hsome
  | some hdr =>
    obtain ⟨hlt, hpos⟩ := hs.opened hdr hhdr
    by_cases htype : req.out_buf.cell (hdr + 1) = type.code
    · have hclose : closeOther req type = req := by
        unfold closeOther
        rw [hhdr]
        exact if_neg fun hne => hne htype
      rw [hclose]
      refine ⟨w, ⟨h, by omega, fun hdr' hsome => ?_⟩, hsame, ?_⟩
      · obtain rfl := Option.some.inj (hhdr.symm.trans hsome)
        exact ⟨hlt, hpos, htype⟩
      · constructor
        · intro ⟨hnone, _⟩
          exact nomatch hhdr.symm.trans hnone
        · rintro ⟨hdr', hsome, hne, _⟩
          obtain rfl := Option.some.inj hsome
          exact absurd htype hne
    · have hclose : closeOther req type = close_packet req := by
        unfold closeOther
        rw [hhdr]
        exact if_pos htype
      obtain ⟨w', hwrote, hnone, hend⟩ := wrote_close h hhdr type
      rw [hclose]
      refine ⟨w', ⟨hwrote.represents, by omega, fun hdr' hsome => ?_⟩,
        hwrote.mono (iff_of_true hlt trivial), ?_⟩
      · rw [hnone] at hsome
        exact nomatch hsome
      · constructor
        · intro ⟨_, hfull⟩
          exact ⟨hdr, rfl, htype, by omega⟩
        · rintro ⟨_, _, _, hlarge⟩
          exact ⟨hnone, by omega⟩

theorem roomLimit_of_full (h : Full req) : roomLimit req = 0 := by
  obtain ⟨hnone, hpos⟩ := h
  unfold roomLimit outBufSize headerSize
  rw [if_pos hnone]
  omega

theorem roomLimit_of_not_full (h : ¬ Full req) (type : RequestType) :
    roomLimit req = 8192 - ((ensurePacket req type).out_pos : ℤ) := by
  unfold roomLimit ensurePacket open_packet outBufSize headerSize
  split
  · rename_i hnone
    have hpos : req.out_pos < 8184 := Nat.lt_of_not_le fun hle => h ⟨hnone, hle⟩
    change max ((8192 : ℤ) - req.out_pos - 8) 0 = 8192 - ((req.out_pos + 8 : ℕ) : ℤ)
    omega
  · rfl

theorem write_buffered (h : Ready req w type) (hne : str ≠ [])
    (hlimit : (str.length : ℤ) < roomLimit req) :
    ∃ w', Wrote req (append (ensurePacket req type) str) w w' type str (¬ Full req) ∧
      Settled (append (ensurePacket req type) str) := by
  have hfull : ¬ Full req := fun hfull => by
    rw [roomLimit_of_full hfull] at hlimit
    omega
  rw [roomLimit_of_not_full hfull type] at hlimit
  obtain ⟨w', hdr, hwrote, hhdr, hlt⟩ := append_ensurePacket h hne (by omega)
  refine ⟨w', hwrote.mono (by simp [hfull]),
    ⟨fun hnone => (nomatch hhdr.symm.trans hnone), fun hdr' hsome => ?_⟩⟩
  obtain rfl := Option.some.inj (hhdr.symm.trans hsome)
  refine ⟨hlt, ?_⟩
  change (ensurePacket req type).out_pos + str.length < 8192
  omega

theorem write_rest {req' : Request} (h : Flushed req req' w) (type : RequestType)
    (hne : str ≠ []) (hlen : str.length < 8184) :
    ∃ w', Wrote req' (append (open_packet req' type) str) w w' type str True ∧
      Settled (append (open_packet req' type) str) := by
  have hensure : ensurePacket req' type = open_packet req' type := if_pos h.hdr
  have hpos : (open_packet req' type).out_pos = 8 := by
    change req'.out_pos + 8 = 8
    rw [h.pos]
  obtain ⟨w', hdr, hwrote, hhdr, hlt⟩ :=
    append_ensurePacket (h.ready type) hne (by rw [hensure, hpos]; omega)
  rw [hensure] at hwrote hhdr hlt
  refine ⟨w', hwrote, ⟨fun hnone => (nomatch hhdr.symm.trans hnone), fun hdr' hsome => ?_⟩⟩
  obtain rfl := Option.some.inj (hhdr.symm.trans hsome)
  refine ⟨hlt, ?_⟩
  change (open_packet req' type).out_pos + str.length < 8192
  omega

theorem roomLimit_pos (h : Ready req w type) (hfull : ¬ Full req) : 0 < roomLimit req := by
  unfold roomLimit outBufSize headerSize
  cases hhdr : req.out_hdr with
  | none =>
    have hlt : ¬ 8184 ≤ req.out_pos := fun hle => hfull ⟨hhdr, hle⟩
    rw [if_pos rfl]
    omega
  | some hdr =>
    have hlt := (h.opened hdr hhdr).2.1
    rw [if_neg nofun]
    omega

theorem fillUp_flush (h : Ready req w type) (hlimit : roomLimit req ≤ str.length) :
    ∃ w', (fcgi_flush .good (fillUp req type str (roomLimit req)) false).2 = true ∧
      Flushed req (fcgi_flush .good (fillUp req type str (roomLimit req)) false).1 w' ∧
      Wrote req (fcgi_flush .good (fillUp req type str (roomLimit req)) false).1 w w' type
        (str.take (roomLimit req).toNat) (¬ Full req) := by
  unfold fillUp
  dsimp only
  by_cases hfull : Full req
  · have hensure : ensurePacket req type = open_packet req type := if_pos hfull.1
    have hcurrent := h.represents.current_of_none hfull.1
    have hopen := open_packet_represents h.represents hfull.1 h.pos_le type
    obtain ⟨w', hok, hflushed, hwrote⟩ := wrote_flush hopen rfl type
    rw [roomLimit_of_full hfull, if_neg (by omega), hensure]
    refine ⟨w', hok, ⟨hflushed.represents, hflushed.hdr, hflushed.pos, hflushed.id⟩,
      hwrote.represents, ?_, ?_, hwrote.id⟩
    · exact (RecordWriter.wrote_start _ hcurrent).trans hwrote.wrote
    · have hfalse : ¬ req.out_pos + 8 < (open_packet req type).out_pos := Nat.lt_irrefl _
      rw [hwrote.nonEmpty]
      simp [hfalse, hfull]
  · have hroom := roomLimit_of_not_full hfull type
    have hpositive := roomLimit_pos h hfull
    have htake : (str.take (roomLimit req).toNat).length = (roomLimit req).toNat := by
      rw [List.length_take]
      omega
    have hne : str.take (roomLimit req).toNat ≠ [] := by
      rw [← List.length_pos_iff, htake]
      omega
    rw [if_pos hpositive]
    obtain ⟨w', hdr, hwrote, hhdr, hlt⟩ := append_ensurePacket h hne (by rw [htake]; omega)
    obtain ⟨w'', hok, hflushed, hsent⟩ := wrote_flush hwrote.represents hhdr type
    refine ⟨w'', hok, ⟨hflushed.represents, hflushed.hdr, hflushed.pos,
      hflushed.id.trans hwrote.id⟩, ?_⟩
    have hboth := hwrote.trans hsent
    rw [List.append_nil] at hboth
    exact hboth.mono (by simp only [true_and]; exact iff_of_true hlt hfull)

theorem writeThrough_wrote (h : Ready req w type) (hlimit : roomLimit req ≤ str.length)
    (hlen : (str.length : ℤ) - roomLimit req < 8184) :
    ∃ w', (writeThrough .good req type str (roomLimit req)).2 = true ∧
      Wrote req (writeThrough .good req type str (roomLimit req)).1 w w' type str (¬ Full req) ∧
      Settled (writeThrough .good req type str (roomLimit req)).1 := by
  obtain ⟨w', hok, hflushed, hwrote⟩ := fillUp_flush h hlimit
  have hnonneg : 0 ≤ roomLimit req := by
    by_cases hfull : Full req
    · exact Int.le_of_eq (roomLimit_of_full hfull).symm
    · exact Int.le_of_lt (roomLimit_pos h hfull)
  unfold writeThrough
  generalize fcgi_flush .good (fillUp req type str (roomLimit req)) false = flushed at *
  obtain ⟨req', ok⟩ := flushed
  dsimp only at hok hflushed hwrote
  subst hok
  dsimp only
  split
  · rename_i hgt
    have hdrop : str.drop (roomLimit req).toNat ≠ [] := by
      rw [← List.length_pos_iff, List.length_drop]
      omega
    obtain ⟨w'', hrest, hsettled⟩ :=
      write_rest hflushed type hdrop (by rw [List.length_drop]; omega)
    refine ⟨w'', rfl, ?_, hsettled⟩
    have hboth := hwrote.trans hrest
    rw [List.take_append_drop] at hboth
    exact hboth.mono (and_iff_left trivial)
  · rename_i hgt
    rw [List.take_of_length_le (by omega)] at hwrote
    exact ⟨w', rfl, hwrote, hflushed.settled⟩

theorem sendBlock_wrote (h : Represents req w) (hnone : req.out_hdr = none)
    (type : RequestType) {block : List UInt8} (hne : block ≠ []) (hmod : block.length % 8 = 0)
    (hlt : block.length < 65536) :
    ∃ w', (sendBlock .good req type block).2 = true ∧
      Flushed req (sendBlock .good req type block).1 w' ∧
      Wrote req (sendBlock .good req type block).1 w w' type block True := by
  have hcurrent := h.current_of_none hnone
  obtain ⟨r, htype, hcontent, hok, hflushed⟩ :=
    sendBlock_represents h hnone type hmod hlt
  refine ⟨w.finish r, hok, hflushed, hflushed.represents, ?_, ?_, hflushed.id⟩
  · have hwrote := RecordWriter.wrote_record (r := r) hcurrent
    rw [htype, hcontent] at hwrote
    exact hwrote
  · rw [RecordWriter.nonEmpty_finish (.inl hcurrent), hcontent]
    exact and_congr_right fun _ => iff_of_true hne trivial

theorem sendBlocks_wrote (req : Request) (w : RecordWriter) (type : RequestType)
    (str : List UInt8) (h : Represents req w) (hnone : req.out_hdr = none) (hlen : 8 ≤ str.length) :
    ∃ w' req' sent rest, sendBlocks .good req type str = (req', some rest) ∧
      str = sent ++ rest ∧ Wrote req req' w w' type sent True ∧ req'.out_hdr = none ∧
      8 ≤ rest.length ∧ rest.length ≤ 65535 := by
  induction hn : str.length using Nat.strongRecOn generalizing req w str with
  | ind n ih =>
    unfold sendBlocks
    split
    · rename_i hgt
      have htake : (str.take 0xfff8).length = 65528 := by
        rw [List.length_take]
        omega
      have hne : str.take 0xfff8 ≠ [] := by
        rw [← List.length_pos_iff, htake]
        omega
      obtain ⟨w1, hok, hflushed, hwrote⟩ := sendBlock_wrote h hnone type hne
        (by rw [htake]) (by rw [htake]; omega)
      obtain ⟨w', req', sent, rest, hblocks, hsplit, hrest, hnone', hge, hle⟩ :=
        ih (n - 65528) (by omega) (sendBlock .good req type (str.take 0xfff8)).1 w1
          (str.drop 0xfff8) hflushed.represents hflushed.hdr
          (by rw [List.length_drop]; omega) (by rw [List.length_drop]; omega)
      refine ⟨w', req', str.take 0xfff8 ++ sent, rest, ?_, ?_, ?_, hnone', hge, hle⟩
      · generalize sendBlock .good req type (str.take 0xfff8) = block at *
        obtain ⟨block, ok⟩ := block
        dsimp only at hok hblocks ⊢
        subst hok
        exact hblocks
      · rw [List.append_assoc, ← hsplit, List.take_append_drop]
      · exact (hwrote.trans hrest).mono (and_iff_left trivial)
    · rename_i hle
      exact ⟨w, req, [], str, rfl, rfl,
        ⟨h, RecordWriter.Wrote.refl _ _, by rw [and_true], rfl⟩, hnone, by omega, by omega⟩

theorem writeDirect_wrote (h : Ready req w type) (hlen : 8184 ≤ str.length) :
    ∃ w', (writeDirect .good req type str).2 = true ∧
      Wrote req (writeDirect .good req type str).1 w w' type str True ∧
      Settled (writeDirect .good req type str).1 := by
  obtain ⟨w1, hclosed, hnone⟩ : ∃ w1, Wrote req (close_packet req) w w1 type [] True ∧
      (close_packet req).out_hdr = none := by
    cases hhdr : req.out_hdr with
    | none =>
      rw [close_packet_of_none hhdr]
      exact ⟨w, ⟨h.represents, RecordWriter.Wrote.refl _ _, by rw [and_true], rfl⟩, hhdr⟩
    | some hdr =>
      obtain ⟨w1, hwrote, hnone, _⟩ := wrote_close h.represents hhdr type
      exact ⟨w1, hwrote.mono (iff_of_true (h.opened hdr hhdr).1 trivial), hnone⟩
  obtain ⟨w2, req2, sent, rest, hblocks, rfl, hwrote, hnone2, hge, hle⟩ :=
    sendBlocks_wrote (close_packet req) w1 type str hclosed.represents hnone (by omega)
  have hpad : padding rest.length = (8 - rest.length % 8) % 8 := by
    unfold padding
    omega
  have hboth := hclosed.trans hwrote
  rw [List.nil_append] at hboth
  unfold writeDirect
  rw [hblocks]
  dsimp only
  by_cases hzero : padding rest.length = 0
  · have hmod : rest.length % 8 = 0 := by omega
    have hne : rest ≠ [] := by
      rw [← List.length_pos_iff]
      omega
    obtain ⟨w', hok, hflushed, hsent⟩ :=
      sendBlock_wrote hwrote.represents hnone2 type hne hmod (by omega)
    rw [if_pos hzero, Nat.sub_zero, List.take_length]
    generalize sendBlock .good req2 type rest = block at *
    obtain ⟨block, ok⟩ := block
    dsimp only at hok hflushed hsent ⊢
    subst hok
    dsimp only
    rw [if_pos hzero]
    exact ⟨w', rfl, (hboth.trans hsent).mono (by simp), hflushed.settled⟩
  · have htake : (rest.take (rest.length - (8 - padding rest.length))).length =
        rest.length - rest.length % 8 := by
      rw [List.length_take]
      omega
    have hne : rest.take (rest.length - (8 - padding rest.length)) ≠ [] := by
      rw [← List.length_pos_iff, htake]
      omega
    have hdrop : rest.drop (rest.length - (8 - padding rest.length)) ≠ [] := by
      rw [← List.length_pos_iff, List.length_drop]
      omega
    obtain ⟨w3, hok, hflushed, hsent⟩ :=
      sendBlock_wrote hwrote.represents hnone2 type hne (by omega) (by omega)
    obtain ⟨w', hrest, hsettled⟩ :=
      write_rest hflushed type hdrop (by rw [List.length_drop]; omega)
    rw [if_neg hzero]
    generalize sendBlock .good req2 type
      (rest.take (rest.length - (8 - padding rest.length))) = block at *
    obtain ⟨block, ok⟩ := block
    dsimp only at hok hrest hsettled hsent ⊢
    subst hok
    dsimp only
    rw [if_neg hzero]
    refine ⟨w', rfl, ?_, hsettled⟩
    have hall := (hboth.trans hsent).trans hrest
    rw [List.append_assoc, List.take_append_drop] at hall
    exact hall.mono (by simp)

/-- Less than what fits in an empty buffer is written, and the open packet, which is of another
type, leaves no room for it in the buffer. -/
def Starves (req : Request) (type : RequestType) (str : List UInt8) : Prop :=
  str ≠ [] ∧ str.length < 8184 ∧
    ∃ hdr, req.out_hdr = some hdr ∧ req.out_buf.cell (hdr + 1) ≠ type.code ∧ 8176 < req.out_pos

/-- `fcgi_write` writes its data. A record is empty just if the call starves. -/
theorem fcgi_write_wrote (h : Represents req w) (hs : Settled req) (type : RequestType)
    (str : List UInt8) :
    ∃ w', Wrote req (fcgi_write .good req type str).1 w w' type str (¬ Starves req type str) ∧
      Settled (fcgi_write .good req type str).1 := by
  unfold fcgi_write
  by_cases hnil : str.length ≤ 0
  · have hstr : str = [] := List.eq_nil_of_length_eq_zero (Nat.le_zero.1 hnil)
    have hnot : ¬ Starves req type str := fun hstarves => hstarves.1 hstr
    rw [if_pos hnil]
    refine ⟨w, ⟨h, ?_, (and_iff_left hnot).symm, rfl⟩, hs⟩
    rw [hstr]
    exact RecordWriter.Wrote.refl _ _
  · have hne : str ≠ [] := fun hstr => hnil (by simp [hstr])
    obtain ⟨w1, hready, hclosed, hfull⟩ := closeOther_ready h hs type
    have hstarves (hlen : str.length < 8184) :
        ¬ Full (closeOther req type) ↔ ¬ Starves req type str := by
      rw [hfull]
      unfold Starves
      simp only [hne, hlen, ne_eq, not_false_eq_true, true_and]
    have hkept {req' : Request} {w' : RecordWriter} {kept : Prop}
        (hwrote : Wrote (closeOther req type) req' w1 w' type str kept) :
        Wrote req req' w w' type str kept := by
      have hboth := hclosed.trans hwrote
      rw [List.nil_append] at hboth
      exact hboth.mono (and_iff_right trivial)
    have hroom : (outBufSize : ℤ) - headerSize = 8184 := rfl
    rw [if_neg hnil]
    dsimp only
    rw [hroom]
    split
    · rename_i hlimit
      obtain ⟨w', hwrote, hsettled⟩ := write_buffered hready hne hlimit
      refine ⟨w', (hkept hwrote).mono ?_, hsettled⟩
      by_cases hlen : str.length < 8184
      · exact hstarves hlen
      · refine iff_of_true (fun hfull => ?_) fun hstarves => hlen hstarves.2.1
        rw [roomLimit_of_full hfull] at hlimit
        omega
    · rename_i hlimit
      dsimp only
      by_cases hlen : (str.length : ℤ) - roomLimit (closeOther req type) < 8184
      · rw [if_pos hlen]
        have hge : roomLimit (closeOther req type) ≤ str.length := by omega
        obtain ⟨w', _, hwrote, hsettled⟩ := writeThrough_wrote hready hge hlen
        refine ⟨w', (hkept hwrote).mono ?_, hsettled⟩
        by_cases hlen' : str.length < 8184
        · exact hstarves hlen'
        · refine iff_of_true (fun hfull => ?_) fun hstarves => hlen' hstarves.2.1
          rw [roomLimit_of_full hfull] at hlen
          omega
      · rw [if_neg hlen]
        have hnonneg : 0 ≤ roomLimit (closeOther req type) := by
          by_cases hfull : Full (closeOther req type)
          · exact Int.le_of_eq (roomLimit_of_full hfull).symm
          · exact Int.le_of_lt (roomLimit_pos hready hfull)
        have hlong : 8184 ≤ str.length := by omega
        obtain ⟨w', _, hwrote, hsettled⟩ := writeDirect_wrote hready hlong
        exact ⟨w', (hkept hwrote).mono (iff_of_true trivial fun hstarves =>
          absurd hstarves.2.1 (Nat.not_lt.2 hlong)), hsettled⟩

/-- `fcgi_flush(req, 0)` -/
theorem fcgi_flush_wrote (h : Represents req w) (hs : Settled req) (type : RequestType) :
    ∃ w', Wrote req (fcgi_flush .good req false).1 w w' type [] True ∧
      Settled (fcgi_flush .good req false).1 := by
  cases hhdr : req.out_hdr with
  | none =>
    obtain ⟨_, hflushed⟩ := fcgi_flush_of_none h hhdr
    exact ⟨w, ⟨hflushed.represents, RecordWriter.Wrote.refl _ _, by rw [and_true], hflushed.id⟩,
      hflushed.settled⟩
  | some hdr =>
    obtain ⟨w', _, hflushed, hwrote⟩ := wrote_flush h hhdr type
    exact ⟨w', hwrote.mono (iff_of_true (hs.opened hdr hhdr).1 trivial), hflushed.settled⟩

end PhpRuntime.Fastcgi

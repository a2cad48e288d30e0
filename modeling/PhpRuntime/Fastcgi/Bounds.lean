import PhpRuntime.Fastcgi.Output

/-!
# The bounds of the output buffer

What is stored in the output buffer of a request stays in `out_buf` and `reserved`, for a socket
that may fail, if no write finds the buffer full and fails to send it.
-/

set_option autoImplicit false

namespace PhpRuntime.Fastcgi

open PhpRuntime.Lib
open RequestType

variable {socket : Socket} {req : Request} {type : RequestType} {str : List UInt8}

/-- In a call: all that is stored is in `out_buf` and `reserved`, and packets begin at multiples
of eight. -/
structure Loose (req : Request) : Prop where
  pos_le : req.out_pos ≤ 8200
  written_le : req.out_buf.written ≤ 8208
  closed : req.out_hdr = none → req.out_pos % 8 = 0
  opened : ∀ hdr, req.out_hdr = some hdr → hdr % 8 = 0 ∧ hdr + 8 ≤ req.out_pos

/-- Between two calls: the output is in `out_buf`, and an open packet does not fill it. -/
structure Bounded (req : Request) : Prop extends Loose req where
  pos_le_buf : req.out_pos ≤ 8192
  pos_lt : ∀ hdr, req.out_hdr = some hdr → req.out_pos < 8192

theorem bounded_fresh (id : Fin 65536) (keep : Bool) (cell : ℕ → UInt8) :
    Bounded (.fresh id keep cell) where
  pos_le := Nat.zero_le _
  written_le := Nat.zero_le _
  closed _ := rfl
  opened := nofun
  pos_le_buf := Nat.zero_le _
  pos_lt := nofun

/-- No packet is open, and the output ends in `out_buf`. -/
theorem Loose.bounded (h : Loose req) (hnone : req.out_hdr = none) (hpos : req.out_pos ≤ 8192) :
    Bounded req where
  toLoose := h
  pos_le_buf := hpos
  pos_lt _ hhdr := nomatch hnone.symm.trans hhdr

/-! ### The steps -/

theorem padding_add (len : ℕ) : len + padding len = (len + 7) / 8 * 8 := by
  unfold padding
  omega

theorem written_make_header (req : Request) (hdr : ℕ) (type : UInt8) (len : ℕ) :
    (fcgi_make_header req hdr type len).out_buf.written ≤
      max req.out_buf.written (hdr + 8 + (len + 7) / 8 * 8) := by
  have hheader := ByteBuffer.written_copy_le req.out_buf hdr
    (Record.header type req.id len (padding len))
  have hadd := padding_add len
  rw [Record.length_header] at hheader
  unfold fcgi_make_header
  dsimp only [headerSize]
  split
  · omega
  · have hpad := ByteBuffer.written_copy_le
      (req.out_buf.copy hdr (Record.header type req.id len (padding len))) (hdr + 8 + len)
      (List.replicate (padding len) 0)
    rw [List.length_replicate] at hpad
    omega

theorem Loose.open_packet (h : Loose req) (hnone : req.out_hdr = none) (hpos : req.out_pos ≤ 8192)
    (type : RequestType) : Loose (open_packet req type) where
  pos_le := by
    change req.out_pos + 8 ≤ 8200
    omega
  written_le := by
    have hwritten := h.written_le
    change max req.out_buf.written (req.out_pos + 1 + 1) ≤ 8208
    omega
  closed := nofun
  opened hdr hhdr := by
    obtain rfl := Option.some.inj hhdr
    exact ⟨h.closed hnone, Nat.le_refl _⟩

theorem Loose.append (h : Loose req) {hdr : ℕ} (hsome : req.out_hdr = some hdr)
    (hpos : req.out_pos + str.length ≤ 8200) : Loose (append req str) where
  pos_le := hpos
  written_le := by
    have hwritten := h.written_le
    have hcopy := ByteBuffer.written_copy_le req.out_buf req.out_pos str
    change (req.out_buf.copy req.out_pos str).written ≤ 8208
    omega
  closed hnone := nomatch hsome.symm.trans hnone
  opened hdr' hhdr := by
    obtain ⟨hmod, hle⟩ := h.opened hdr' hhdr
    refine ⟨hmod, ?_⟩
    change hdr' + 8 ≤ req.out_pos + str.length
    omega

/-- Where the output ends when the packet is closed. -/
def closedEnd (req : Request) : ℕ :=
  if req.out_hdr = none then req.out_pos else (req.out_pos + 7) / 8 * 8

theorem Loose.close_packet (h : Loose req) :
    Loose (close_packet req) ∧ (close_packet req).out_hdr = none ∧
      (close_packet req).out_pos = closedEnd req ∧ (close_packet req).writes = req.writes := by
  unfold Fastcgi.close_packet closedEnd
  have hpos := h.pos_le
  cases hhdr : req.out_hdr with
  | none =>
    dsimp only
    rw [if_pos rfl]
    exact ⟨h, hhdr, rfl, rfl⟩
  | some hdr =>
    obtain ⟨hmod, hle⟩ := h.opened hdr hhdr
    have hadd := padding_add (req.out_pos - (hdr + 8))
    have hwritten := written_make_header req hdr (req.out_buf.cell (hdr + 1))
      (req.out_pos - (hdr + 8))
    have hloose := h.written_le
    dsimp only [headerSize]
    rw [if_neg nofun]
    refine ⟨⟨?_, ?_, fun _ => ?_, nofun⟩, rfl, ?_, rfl⟩
    · change req.out_pos + padding (req.out_pos - (hdr + 8)) ≤ 8200
      omega
    · change (fcgi_make_header req hdr _ _).out_buf.written ≤ 8208
      omega
    · change (req.out_pos + padding (req.out_pos - (hdr + 8))) % 8 = 0
      omega
    · omega

theorem Bounded.close_packet (h : Bounded req) : Bounded (close_packet req) := by
  obtain ⟨hloose, hnone, hend, _⟩ := h.toLoose.close_packet
  refine hloose.bounded hnone ?_
  have hpos := h.pos_le_buf
  rw [hend, closedEnd]
  split <;> omega

@[simp] theorem safe_write_snd (socket : Socket) (req : Request) (bytes : List UInt8) :
    (safe_write socket req bytes).2 = (socket req.writes).isNone := by
  unfold safe_write
  split <;> rename_i h <;> rw [h] <;> rfl

@[simp] theorem safe_write_out_hdr (socket : Socket) (req : Request) (bytes : List UInt8) :
    (safe_write socket req bytes).1.out_hdr = req.out_hdr := by
  unfold safe_write
  split <;> rfl

@[simp] theorem safe_write_out_pos (socket : Socket) (req : Request) (bytes : List UInt8) :
    (safe_write socket req bytes).1.out_pos = req.out_pos := by
  unfold safe_write
  split <;> rfl

@[simp] theorem safe_write_out_buf (socket : Socket) (req : Request) (bytes : List UInt8) :
    (safe_write socket req bytes).1.out_buf = req.out_buf := by
  unfold safe_write
  split <;> rfl

theorem fcgi_flush_out_buf (socket : Socket) (req : Request) (close : Bool) :
    (fcgi_flush socket req close).1.out_buf =
      (if close then makeEndRequest (close_packet req) else close_packet req).out_buf := by
  unfold fcgi_flush
  dsimp only
  split <;> split <;> exact safe_write_out_buf _ _ _

theorem fcgi_flush_loose (socket : Socket) (h : Loose req) :
    Loose (fcgi_flush socket req false).1 ∧ (fcgi_flush socket req false).1.out_hdr = none ∧
      (socket req.writes = none → (fcgi_flush socket req false).2 = true ∧
        (fcgi_flush socket req false).1.out_pos = 0) ∧
      (socket req.writes ≠ none → (fcgi_flush socket req false).2 = false ∧
        (fcgi_flush socket req false).1.out_pos = closedEnd req) := by
  obtain ⟨hloose, hnone, hend, hwrites⟩ := h.close_packet
  have hbuf := fcgi_flush_out_buf socket req false
  have hhdr : (fcgi_flush socket req false).1.out_hdr = none := by
    unfold fcgi_flush
    simp only [Bool.false_eq_true, if_false]
    split <;> exact (safe_write_out_hdr _ _ _).trans hnone
  have hok (hsocket : socket req.writes = none) : (fcgi_flush socket req false).2 = true ∧
      (fcgi_flush socket req false).1.out_pos = 0 := by
    unfold fcgi_flush
    simp [hwrites, hsocket]
  have hfail (hsocket : socket req.writes ≠ none) : (fcgi_flush socket req false).2 = false ∧
      (fcgi_flush socket req false).1.out_pos = closedEnd req := by
    unfold fcgi_flush
    simp [hwrites, hsocket, hend]
  refine ⟨⟨?_, ?_, fun _ => ?_, fun hdr hsome => nomatch hhdr.symm.trans hsome⟩, hhdr, hok, hfail⟩
  · by_cases hsocket : socket req.writes = none
    · rw [(hok hsocket).2]
      omega
    · rw [(hfail hsocket).2, ← hend]
      exact hloose.pos_le
  · rw [hbuf]
    exact hloose.written_le
  · by_cases hsocket : socket req.writes = none
    · rw [(hok hsocket).2]
    · rw [(hfail hsocket).2, ← hend]
      exact hloose.closed hnone

theorem fcgi_flush_bounded (socket : Socket) (h : Bounded req) :
    Bounded (fcgi_flush socket req false).1 := by
  obtain ⟨hloose, hnone, hok, hfail⟩ := fcgi_flush_loose socket h.toLoose
  have hpos := h.pos_le_buf
  refine hloose.bounded hnone ?_
  by_cases hsocket : socket req.writes = none
  · rw [(hok hsocket).2]
    omega
  · rw [(hfail hsocket).2, closedEnd]
    split <;> omega

theorem written_flush_end (socket : Socket) (h : Loose req) :
    (fcgi_flush socket req true).1.out_buf.written ≤ max 8208 (closedEnd req + 16) ∧
      closedEnd req + 13 ≤ (fcgi_flush socket req true).1.out_buf.written := by
  obtain ⟨hloose, hnone, hend, hwrites⟩ := h.close_packet
  have hflush := fcgi_flush_out_buf socket req true
  rw [if_pos rfl] at hflush
  have hmade := written_make_header (close_packet req) (close_packet req).out_pos
    FCGI_END_REQUEST.code 8
  have hwritten := hloose.written_le
  have hbody : (makeEndRequest (close_packet req)).out_buf.written =
      max (fcgi_make_header (close_packet req) (close_packet req).out_pos FCGI_END_REQUEST.code
        8).out_buf.written (closedEnd req + 13) := by
    rw [← hend]
    rfl
  rw [hflush, hbody]
  omega

/-! ### A call -/

/-- No packet is open, the output fills `out_buf`, and the next write of the socket fails. -/
def Stuck (socket : Socket) (req : Request) : Prop :=
  req.out_hdr = none ∧ req.out_pos = 8192 ∧ socket req.writes ≠ none

/-- A header is stored in `reserved`, and it stays there. -/
structure Spilled (req : Request) : Prop where
  loose : Loose req
  hdr : req.out_hdr = none
  pos : req.out_pos = 8200

/-- What a call makes of a request in which no packet is open. -/
structure Outcome (socket : Socket) (req req' : Request) : Prop where
  stuck : Stuck socket req → Spilled req'
  bounded : ¬ Stuck socket req → Bounded req'

/-- What a call that sends the output makes of a request in which no packet is open. -/
structure Sends (socket : Socket) (req : Request) (result : Request × Bool) : Prop
    extends Outcome socket req result.1 where
  fails : Stuck socket req → result.2 = false
  hdr : result.1.out_hdr = none
  pos : result.2 = true → result.1.out_pos = 0

theorem not_stuck_of_pos (h : req.out_pos = 0) : ¬ Stuck socket req := by
  intro hstuck
  have hpos := hstuck.2.1
  omega

theorem Sends.bounded_of_ok {result : Request × Bool} (h : Sends socket req result)
    (hok : result.2 = true) : Bounded result.1 :=
  h.bounded fun hstuck => nomatch (h.fails hstuck).symm.trans hok

theorem flush_sends (socket : Socket) (h : Bounded req) (hnone : req.out_hdr = none)
    {opened : Request} (hopened : Loose opened) (hend : closedEnd opened = req.out_pos + 8)
    (hwrites : opened.writes = req.writes) :
    Sends socket req (fcgi_flush socket opened false) := by
  obtain ⟨hloose, hflushed, hok, hfail⟩ := fcgi_flush_loose socket hopened
  have hmod := h.closed hnone
  have hpos := h.pos_le_buf
  rw [hwrites] at hok hfail
  refine ⟨⟨fun hstuck => ?_, fun hstuck => ?_⟩, fun hstuck => (hfail hstuck.2.2).1, hflushed,
    fun htrue => ?_⟩
  · refine ⟨hloose, hflushed, ?_⟩
    rw [(hfail hstuck.2.2).2, hend, hstuck.2.1]
  · refine hloose.bounded hflushed ?_
    by_cases hsocket : socket req.writes = none
    · rw [(hok hsocket).2]
      omega
    · rw [(hfail hsocket).2, hend]
      have hne : req.out_pos ≠ 8192 := fun heq => hstuck ⟨hnone, heq, hsocket⟩
      omega
  · by_cases hsocket : socket req.writes = none
    · exact (hok hsocket).2
    · exact nomatch (hfail hsocket).1.symm.trans htrue

theorem Bounded.make_block (h : Bounded req) (hnone : req.out_hdr = none) (type : RequestType)
    {len : ℕ} (hmod : len % 8 = 0) :
    Loose { fcgi_make_header (Fastcgi.open_packet req type) req.out_pos type.code len with
      out_hdr := none } := by
  have hopen := h.toLoose.open_packet hnone h.pos_le_buf type
  have hpos := h.pos_le_buf
  have hwritten := hopen.written_le
  have hcopy := ByteBuffer.written_copy_le (Fastcgi.open_packet req type).out_buf req.out_pos
    (Record.header type.code req.id len (padding len))
  have hpad : padding len = 0 := by
    unfold padding
    omega
  have hbuf : (fcgi_make_header (Fastcgi.open_packet req type) req.out_pos type.code
      len).out_buf = (Fastcgi.open_packet req type).out_buf.copy req.out_pos
        (Record.header type.code req.id len (padding len)) := by
    unfold fcgi_make_header
    dsimp only
    rw [if_pos hpad]
    rfl
  rw [Record.length_header] at hcopy
  refine ⟨hopen.pos_le, ?_, fun _ => ?_, nofun⟩
  · rw [hbuf]
    omega
  · have hclosed := h.closed hnone
    change (req.out_pos + 8) % 8 = 0
    omega

theorem sendBlock_sends (socket : Socket) (h : Bounded req) (hnone : req.out_hdr = none)
    (type : RequestType) {block : List UInt8} (hmod : block.length % 8 = 0) :
    Sends socket req (sendBlock socket req type block) := by
  have hsends := flush_sends socket h hnone (h.make_block hnone type hmod) (if_pos rfl) rfl
  unfold sendBlock
  dsimp only
  split
  · rename_i hok
    have hbounded := hsends.bounded_of_ok hok
    have hpos := hsends.pos hok
    have hnot : ¬ Stuck socket req := fun hstuck => nomatch (hsends.fails hstuck).symm.trans hok
    generalize fcgi_flush socket _ false = flushed at hbounded hpos hok hsends
    have hwritten : Bounded (safe_write socket flushed.1 block).1 ∧
        (safe_write socket flushed.1 block).1.out_hdr = none ∧
        (safe_write socket flushed.1 block).1.out_pos = 0 := by
      have hhdr := (safe_write_out_hdr socket flushed.1 block).trans hsends.hdr
      have hend := (safe_write_out_pos socket flushed.1 block).trans hpos
      refine ⟨Loose.bounded ⟨by omega, ?_, fun _ => by omega, ?_⟩ hhdr (by omega), hhdr, hend⟩
      · rw [safe_write_out_buf]
        exact hbounded.written_le
      · exact fun hdr hsome => nomatch hhdr.symm.trans hsome
    split
    · exact ⟨⟨fun hstuck => absurd hstuck hnot, fun _ => hwritten.1⟩,
        fun hstuck => absurd hstuck hnot, hwritten.2.1, fun _ => hwritten.2.2⟩
    · refine ⟨⟨fun hstuck => absurd hstuck hnot, fun _ => ?_⟩, fun hstuck => absurd hstuck hnot,
        hwritten.2.1, nofun⟩
      obtain ⟨hb, _, _⟩ := hwritten
      exact ⟨⟨hb.pos_le, hb.written_le, hb.closed, hb.opened⟩, hb.pos_le_buf, hb.pos_lt⟩
  · exact ⟨hsends.toOutcome, fun _ => rfl, hsends.hdr, nofun⟩

theorem sendBlocks_sends (socket : Socket) (h : Bounded req) (hnone : req.out_hdr = none)
    (type : RequestType) (str : List UInt8) :
    (∃ req' rest, sendBlocks socket req type str = (req', some rest) ∧
      (req' = req ∨ ¬ Stuck socket req ∧ Bounded req' ∧ req'.out_hdr = none ∧ req'.out_pos = 0)) ∨
    ∃ req', sendBlocks socket req type str = (req', none) ∧ Outcome socket req req' := by
  induction hn : str.length using Nat.strongRecOn generalizing req str with
  | ind n ih =>
    unfold sendBlocks
    split
    · rename_i hgt
      have hmod : (str.take 0xfff8).length % 8 = 0 := by
        rw [List.length_take]
        omega
      have hsends := sendBlock_sends socket h hnone type hmod
      generalize sendBlock socket req type (str.take 0xfff8) = block at hsends
      obtain ⟨req1, ok⟩ := block
      cases ok with
      | true =>
        have hbounded := hsends.bounded_of_ok rfl
        have hpos := hsends.pos rfl
        have hnot : ¬ Stuck socket req := fun hstuck => nomatch hsends.fails hstuck
        dsimp only at hbounded hpos ⊢
        rcases ih (str.drop 0xfff8).length (by rw [List.length_drop]; omega) hbounded hsends.hdr
          (str.drop 0xfff8) rfl with ⟨req', rest, heq, hcases⟩ | ⟨req', heq, houtcome⟩
        · refine .inl ⟨req', rest, heq, .inr ⟨hnot, ?_⟩⟩
          rcases hcases with rfl | ⟨_, hb, hhdr, hend⟩
          · exact ⟨hbounded, hsends.hdr, hpos⟩
          · exact ⟨hb, hhdr, hend⟩
        · exact .inr ⟨req', heq, fun hstuck => absurd hstuck hnot,
            fun _ => houtcome.bounded (not_stuck_of_pos hpos)⟩
      | false => exact .inr ⟨req1, rfl, hsends.toOutcome⟩
    · exact .inl ⟨req, str, rfl, .inl rfl⟩

theorem append_open_bounded (h : Bounded req) (hnone : req.out_hdr = none) (hpos : req.out_pos = 0)
    (type : RequestType) (hlen : str.length < 8184) :
    Bounded (append (open_packet req type) str) := by
  have hopen := h.toLoose.open_packet hnone h.pos_le_buf type
  have hend : (open_packet req type).out_pos = 8 := by
    change req.out_pos + 8 = 8
    omega
  have hhdr : (open_packet req type).out_hdr = some req.out_pos := rfl
  have hlt : (append (open_packet req type) str).out_pos < 8192 := by
    change (open_packet req type).out_pos + str.length < 8192
    omega
  exact ⟨hopen.append hhdr (by omega), Nat.le_of_lt hlt, fun _ _ => hlt⟩

theorem writeDirect_outcome (socket : Socket) (h : Bounded req) (type : RequestType)
    (str : List UInt8) : Outcome socket (close_packet req) (writeDirect socket req type str).1 := by
  obtain ⟨_, hnone, _, _⟩ := h.toLoose.close_packet
  have hclosed := h.close_packet
  unfold writeDirect
  rcases sendBlocks_sends socket hclosed hnone type str with
    ⟨req2, rest, heq, hcases⟩ | ⟨req2, heq, houtcome⟩
  · rw [heq]
    dsimp only
    obtain ⟨hb2, hnone2, hstart⟩ : Bounded req2 ∧ req2.out_hdr = none ∧
        (Stuck socket (close_packet req) → Stuck socket req2) := by
      rcases hcases with rfl | ⟨hnot, hb, hhdr, _⟩
      · exact ⟨hclosed, hnone, fun hstuck => hstuck⟩
      · exact ⟨hb, hhdr, fun hstuck => absurd hstuck hnot⟩
    have hback : ¬ Stuck socket (close_packet req) → ¬ Stuck socket req2 := by
      rcases hcases with rfl | ⟨_, _, _, hpos⟩
      · exact fun hnot => hnot
      · exact fun _ => not_stuck_of_pos hpos
    have hmod : (rest.take (rest.length - if padding rest.length = 0 then 0
        else 8 - padding rest.length)).length % 8 = 0 := by
      have hpad : padding rest.length = (8 - rest.length % 8) % 8 := by
        unfold padding
        omega
      rw [List.length_take]
      split <;> omega
    have hsends := sendBlock_sends socket hb2 hnone2 type hmod
    generalize sendBlock socket req2 type (rest.take (rest.length - if padding rest.length = 0
      then 0 else 8 - padding rest.length)) = block at hsends
    obtain ⟨sent, ok⟩ := block
    cases ok with
    | false => exact ⟨fun hstuck => hsends.stuck (hstart hstuck),
        fun hnot => hsends.bounded (hback hnot)⟩
    | true =>
      have hbounded := hsends.bounded_of_ok rfl
      refine ⟨fun hstuck => (nomatch hsends.fails (hstart hstuck)), fun _ => ?_⟩
      dsimp only
      split
      · exact hbounded
      · refine append_open_bounded hbounded hsends.hdr (hsends.pos rfl) type ?_
        rw [List.length_drop]
        omega
  · rw [heq]
    exact houtcome

theorem fillUp_loose (h : Bounded req) (type : RequestType)
    (hlimit : roomLimit req ≤ str.length) :
    Loose (fillUp req type str (roomLimit req)) ∧
      (fillUp req type str (roomLimit req)).writes = req.writes ∧
      closedEnd (fillUp req type str (roomLimit req)) =
        if req.out_hdr = none ∧ req.out_pos = 8192 then 8200 else 8192 := by
  have hpos := h.pos_le_buf
  have htake : (str.take (roomLimit req).toNat).length = (roomLimit req).toNat := by
    rw [List.length_take]
    omega
  unfold fillUp ensurePacket
  cases hhdr : req.out_hdr with
  | none =>
    have hopen := h.toLoose.open_packet hhdr hpos type
    have hmod := h.closed hhdr
    have hroom : roomLimit req = max (8192 - (req.out_pos : ℤ) - 8) 0 := by
      rw [roomLimit, if_pos hhdr]
      rfl
    have hend : (open_packet req type).out_pos = req.out_pos + 8 := rfl
    rw [if_pos rfl]
    dsimp only
    split
    · have hsome : (open_packet req type).out_hdr = some req.out_pos := rfl
      refine ⟨hopen.append hsome (by omega), rfl, ?_⟩
      have hfits : req.out_pos ≠ 8192 := by omega
      rw [closedEnd, if_neg nofun, if_neg fun hfull => hfits hfull.2]
      change ((open_packet req type).out_pos + (str.take _).length + 7) / 8 * 8 = 8192
      omega
    · have hclosed : closedEnd (open_packet req type) = req.out_pos + 8 := by
        have hne : (open_packet req type).out_hdr ≠ none := nofun
        rw [closedEnd, if_neg hne]
        omega
      refine ⟨hopen, rfl, ?_⟩
      rw [hclosed]
      by_cases hfull : req.out_pos = 8192
      · rw [if_pos ⟨rfl, hfull⟩, hfull]
      · rw [if_neg fun h => hfull h.2]
        omega
  | some hdr =>
    have hlt := h.pos_lt hdr hhdr
    have hroom : roomLimit req = 8192 - (req.out_pos : ℤ) := by
      rw [roomLimit, if_neg (by rw [hhdr]; nofun)]
      rfl
    have hne : ¬ some hdr = none := nofun
    rw [if_neg hne]
    dsimp only
    rw [if_pos (by omega), if_neg fun hnone => hne hnone.1]
    refine ⟨h.toLoose.append hhdr (by omega), rfl, ?_⟩
    have hopen : (append req (str.take (roomLimit req).toNat)).out_hdr ≠ none := by
      change req.out_hdr ≠ none
      rw [hhdr]
      exact hne
    rw [closedEnd, if_neg hopen]
    change (req.out_pos + (str.take _).length + 7) / 8 * 8 = 8192
    omega

theorem writeThrough_outcome (socket : Socket) (h : Bounded req) (type : RequestType)
    (hlimit : roomLimit req ≤ str.length) (hlen : (str.length : ℤ) - roomLimit req < 8184) :
    Outcome socket req (writeThrough socket req type str (roomLimit req)).1 := by
  obtain ⟨hfilled, hwrites, hend⟩ := fillUp_loose h type hlimit
  obtain ⟨hloose, hhdr, hok, hfail⟩ := fcgi_flush_loose socket hfilled
  rw [hwrites] at hok hfail
  have hnonneg : 0 ≤ roomLimit req := by
    have hpos := h.pos_le_buf
    unfold roomLimit outBufSize
    dsimp only
    split <;> omega
  unfold writeThrough
  generalize fcgi_flush socket (fillUp req type str (roomLimit req)) false = flushed at *
  obtain ⟨flushed, ok⟩ := flushed
  dsimp only at hloose hhdr hok hfail
  by_cases hsocket : socket req.writes = none
  · obtain ⟨rfl, hpos⟩ := hok hsocket
    have hbounded := hloose.bounded hhdr (by omega)
    refine ⟨fun hstuck => absurd hsocket hstuck.2.2, fun _ => ?_⟩
    dsimp only
    split
    · exact append_open_bounded hbounded hhdr hpos type (by rw [List.length_drop]; omega)
    · exact hbounded
  · obtain ⟨rfl, hpos⟩ := hfail hsocket
    rw [hend] at hpos
    refine ⟨fun hstuck => ⟨hloose, hhdr, ?_⟩, fun hnot => hloose.bounded hhdr ?_⟩
    · rw [if_pos ⟨hstuck.1, hstuck.2.1⟩] at hpos
      exact hpos
    · rw [if_neg fun hfull => hnot ⟨hfull.1, hfull.2, hsocket⟩] at hpos
      exact Nat.le_of_eq hpos

/-- The output fills `out_buf` when the packet is closed, the next write of the socket fails, and
the call stores a header before it: no packet is open, or one of another type, or one that is
closed because the data are sent behind it. -/
def Crowds (socket : Socket) (req : Request) (type : RequestType) (str : List UInt8) : Prop :=
  str ≠ [] ∧ socket req.writes ≠ none ∧ closedEnd req = 8192 ∧
    ∀ hdr, req.out_hdr = some hdr → req.out_buf.cell (hdr + 1) ≠ type.code ∨
      8192 - req.out_pos + 8184 ≤ str.length

theorem closeOther_cases (req : Request) (type : RequestType) :
    (closeOther req type = close_packet req ∧
      ∀ hdr, req.out_hdr = some hdr → req.out_buf.cell (hdr + 1) ≠ type.code) ∨
    ∃ hdr, closeOther req type = req ∧ req.out_hdr = some hdr ∧
      req.out_buf.cell (hdr + 1) = type.code := by
  unfold closeOther close_packet
  cases hhdr : req.out_hdr with
  | none => exact .inl ⟨rfl, nofun⟩
  | some hdr =>
    by_cases htype : req.out_buf.cell (hdr + 1) = type.code
    · exact .inr ⟨hdr, if_neg fun hne => hne htype, rfl, htype⟩
    · refine .inl ⟨if_pos htype, fun hdr' hsome => ?_⟩
      obtain rfl := Option.some.inj hsome
      exact htype

/-- `fcgi_write` keeps in the bounds if it does not crowd. If it crowds it leaves a header in
`reserved`. -/
theorem fcgi_write_outcome (socket : Socket) (h : Bounded req) (type : RequestType)
    (str : List UInt8) :
    (Crowds socket req type str → Spilled (fcgi_write socket req type str).1) ∧
      (¬ Crowds socket req type str → Bounded (fcgi_write socket req type str).1) := by
  have hroom : (outBufSize : ℤ) - headerSize = 8184 := rfl
  unfold fcgi_write
  by_cases hnil : str.length ≤ 0
  · have hstr : str = [] := List.eq_nil_of_length_eq_zero (Nat.le_zero.1 hnil)
    rw [if_pos hnil]
    exact ⟨fun hcrowds => absurd hstr hcrowds.1, fun _ => h⟩
  · have hne : str ≠ [] := fun hstr => hnil (by simp [hstr])
    rw [if_neg hnil]
    dsimp only
    rw [hroom]
    rcases closeOther_cases req type with ⟨hclose, hother⟩ | ⟨hdr, hclose, hhdr, htype⟩
    · -- no packet is open behind the closing
      obtain ⟨_, hnone, hend, hwrites⟩ := h.toLoose.close_packet
      have hclosed := h.close_packet
      have hcrowds : Crowds socket req type str ↔ Stuck socket (close_packet req) := by
        unfold Crowds Stuck
        rw [hend, hwrites]
        exact ⟨fun ⟨_, hsocket, hfull, _⟩ => ⟨hnone, hfull, hsocket⟩,
          fun ⟨_, hfull, hsocket⟩ => ⟨hne, hsocket, hfull, fun hdr hsome =>
            .inl (hother hdr hsome)⟩⟩
      have houtcome {req' : Request} (houtcome : Outcome socket (close_packet req) req') :
          (Crowds socket req type str → Spilled req') ∧
            (¬ Crowds socket req type str → Bounded req') := by
        rw [hcrowds]
        exact ⟨houtcome.stuck, houtcome.bounded⟩
      rw [hclose]
      split
      · rename_i hlimit
        have hpos := hclosed.pos_le_buf
        have hlimit' : roomLimit (close_packet req) =
            max (8192 - ((close_packet req).out_pos : ℤ) - 8) 0 := by
          rw [roomLimit, if_pos hnone]
          rfl
        have hensure : ensurePacket (close_packet req) type =
            open_packet (close_packet req) type := if_pos hnone
        have hopen := hclosed.toLoose.open_packet hnone hpos type
        have hpos' : (open_packet (close_packet req) type).out_pos =
            (close_packet req).out_pos + 8 := rfl
        have hlt : (append (open_packet (close_packet req) type) str).out_pos < 8192 := by
          change (open_packet (close_packet req) type).out_pos + str.length < 8192
          omega
        refine houtcome ⟨fun hstuck => ?_, fun _ => ?_⟩
        · have hfull := hstuck.2.1
          omega
        · dsimp only
          rw [hensure]
          exact ⟨hopen.append rfl (by omega), Nat.le_of_lt hlt, fun _ _ => hlt⟩
      · rename_i hlimit
        dsimp only
        by_cases hlen : (str.length : ℤ) - roomLimit (close_packet req) < 8184
        · rw [if_pos hlen]
          have hge : roomLimit (close_packet req) ≤ str.length := by omega
          exact houtcome (writeThrough_outcome socket hclosed type hge hlen)
        · rw [if_neg hlen]
          have hdirect := writeDirect_outcome socket hclosed type str
          have htwice : close_packet (close_packet req) = close_packet req := by
            rw [close_packet, hnone]
          rw [htwice] at hdirect
          exact houtcome hdirect
    · -- a packet of this type is open
      have hlt := h.pos_lt hdr hhdr
      have hsome : req.out_hdr ≠ none := by
        rw [hhdr]
        nofun
      have hlimit' : roomLimit req = 8192 - (req.out_pos : ℤ) := by
        rw [roomLimit, if_neg hsome]
        rfl
      have hcrowds (hcrowds : Crowds socket req type str) :
          8192 - req.out_pos + 8184 ≤ str.length := by
        rcases hcrowds.2.2.2 hdr hhdr with hne | hlong
        · exact absurd htype hne
        · exact hlong
      rw [hclose]
      split
      · rename_i hlimit
        have hensure : ensurePacket req type = req := if_neg hsome
        have hpos : (append req str).out_pos < 8192 := by
          change req.out_pos + str.length < 8192
          omega
        refine ⟨fun hcrowd => ?_, fun _ => ?_⟩
        · have hlong := hcrowds hcrowd
          omega
        · dsimp only
          rw [hensure]
          exact ⟨h.toLoose.append hhdr (by omega), Nat.le_of_lt hpos, fun _ _ => hpos⟩
      · rename_i hlimit
        dsimp only
        by_cases hlen : (str.length : ℤ) - roomLimit req < 8184
        · rw [if_pos hlen]
          have hge : roomLimit req ≤ str.length := by omega
          have houtcome := writeThrough_outcome socket h type hge hlen
          refine ⟨fun hcrowd => ?_, fun _ => houtcome.bounded fun hstuck => hsome hstuck.1⟩
          have hlong := hcrowds hcrowd
          omega
        · rw [if_neg hlen]
          have hdirect := writeDirect_outcome socket h type str
          obtain ⟨_, hnone, hend, hwrites⟩ := h.toLoose.close_packet
          have hiff : Crowds socket req type str ↔ Stuck socket (close_packet req) := by
            unfold Crowds Stuck
            rw [hend, hwrites]
            refine ⟨fun ⟨_, hsocket, hfull, _⟩ => ⟨hnone, hfull, hsocket⟩,
              fun ⟨_, hfull, hsocket⟩ => ⟨hne, hsocket, hfull, fun _ _ => .inr ?_⟩⟩
            omega
          rw [hiff]
          exact ⟨hdirect.stuck, hdirect.bounded⟩

/-! ### Runs -/

def Clear (socket : Socket) (req : Request) : Op → Prop
  | .write stream str => ¬ Crowds socket req stream.type str
  | .flush => True

theorem step_bounded (socket : Socket) (h : Bounded req) {op : Op} (hclear : Clear socket req op) :
    Bounded (step socket req op) := by
  cases op with
  | write stream str => exact (fcgi_write_outcome socket h stream.type str).2 hclear
  | flush => exact fcgi_flush_bounded socket h

theorem step_spilled (socket : Socket) (h : Bounded req) {op : Op}
    (hclear : ¬ Clear socket req op) : Spilled (step socket req op) := by
  cases op with
  | write stream str =>
    exact (fcgi_write_outcome socket h stream.type str).1 (Classical.not_not.1 hclear)
  | flush => exact absurd trivial hclear

/-- All that a run stores, with `fcgi_flush(req, 1)` at its end, is in `out_buf` and `reserved`. -/
def InBounds (socket : Socket) (req : Request) (ops : List Op) : Prop :=
  (runOps socket req ops).out_buf.written ≤ outBufSize + endRequestSize ∧
    (fcgi_flush socket (runOps socket req ops) true).1.out_buf.written ≤
      outBufSize + endRequestSize

theorem Bounded.inBounds {ops : List Op} (h : Bounded (runOps socket req ops)) :
    InBounds socket req ops := by
  have hflush := (written_flush_end socket h.toLoose).1
  have hpos := h.pos_le_buf
  have hend : closedEnd (runOps socket req ops) ≤ 8192 := by
    unfold closedEnd
    split <;> omega
  refine ⟨h.written_le, ?_⟩
  change _ ≤ 8208
  omega

theorem Spilled.not_inBounds {ops : List Op} (h : Spilled (runOps socket req ops)) :
    ¬ InBounds socket req ops := by
  intro hin
  have hflush := (written_flush_end socket h.loose).2
  have hend : closedEnd (runOps socket req ops) = 8200 := by
    rw [closedEnd, if_pos h.hdr, h.pos]
  have hle : (fcgi_flush socket (runOps socket req ops) true).1.out_buf.written ≤ 8208 := hin.2
  omega

/-- A run and all that it goes through keep in the bounds just if no call crowds. -/
theorem inBounds_iff (socket : Socket) (id : Fin 65536) (keep : Bool) (cell : ℕ → UInt8)
    (ops : List Op) :
    (∀ n, InBounds socket (.fresh id keep cell) (ops.take n)) ↔
      Throughout socket (Clear socket) (.fresh id keep cell) ops := by
  have hbounded := bounded_fresh id keep cell
  generalize Request.fresh id keep cell = req at hbounded
  constructor
  · intro hin
    induction ops generalizing req with
    | nil => trivial
    | cons op ops ih =>
      have hclear : Clear socket req op := by
        refine Classical.byContradiction fun hnot => ?_
        have hspilled : Spilled (runOps socket req [op]) := step_spilled socket hbounded hnot
        exact hspilled.not_inBounds (hin 1)
      refine ⟨hclear, ih _ (step_bounded socket hbounded hclear) fun n => ?_⟩
      exact hin (n + 1)
  · intro hclear n
    refine Bounded.inBounds ?_
    induction ops generalizing req n with
    | nil =>
      rw [List.take_nil]
      exact hbounded
    | cons op ops ih =>
      cases n with
      | zero => exact hbounded
      | succ n => exact ih _ (step_bounded socket hbounded hclear.1) hclear.2 n

theorem fcgi_write_stuck (hsocket : ∀ n, socket n ≠ none) (h : Bounded req)
    (hnone : req.out_hdr = none) (hpos : req.out_pos = 0) (hlen : str.length = 8184) :
    Stuck socket (fcgi_write socket req type str).1 := by
  have hclose : closeOther req type = req := by
    rw [closeOther, hnone]
  have hroom : roomLimit req = 8184 := by
    rw [roomLimit, if_pos hnone, hpos]
    change max ((8192 : ℤ) - (0 : ℕ) - 8) 0 = 8184
    omega
  have hsize : (outBufSize : ℤ) - headerSize = 8184 := rfl
  have hge : roomLimit req ≤ str.length := by omega
  obtain ⟨hfilled, _, hend⟩ := fillUp_loose h type hge
  obtain ⟨_, hhdr, _, hfail⟩ := fcgi_flush_loose socket hfilled
  obtain ⟨hfalse, hfull⟩ := hfail (hsocket _)
  rw [hend, if_neg fun hfull => by omega, hroom] at hfull
  rw [hroom] at hhdr hfalse
  have hresult : (fcgi_write socket req type str).1 =
      (fcgi_flush socket (fillUp req type str 8184) false).1 := by
    unfold fcgi_write
    rw [if_neg (by omega)]
    dsimp only
    rw [hclose, hroom, hsize, if_neg (by omega), if_pos (by omega)]
    unfold writeThrough
    generalize fcgi_flush socket (fillUp req type str 8184) false = flushed at hfalse
    obtain ⟨flushed, ok⟩ := flushed
    dsimp only at hfalse
    subst hfalse
    rfl
  rw [hresult]
  exact ⟨hhdr, hfull, hsocket _⟩

theorem overflow_of_fill {str : List UInt8} (hlen : str.length = 8184) :
    ¬ InBounds (fun _ => some 0) (.fresh 1 true fun _ => 0)
      [.write .out str, .write .out [0]] := by
  have hbounded := bounded_fresh 1 true fun _ => 0
  have hstuck : Stuck (fun _ => some 0)
      (step (fun _ => some 0) (.fresh 1 true fun _ => 0) (.write .out str)) :=
    fcgi_write_stuck (fun _ => nofun) hbounded rfl rfl hlen
  have hstep := (fcgi_write_outcome (fun _ => some 0) hbounded OutStream.out.type str).2 ?_
  · have hspilled := (fcgi_write_outcome (fun _ => some 0) hstep OutStream.out.type [0]).1
      ⟨nofun, nofun, ?_, fun hdr hhdr => nomatch hstuck.1.symm.trans hhdr⟩
    · exact Spilled.not_inBounds hspilled
    · rw [closedEnd]
      exact (if_pos hstuck.1).trans hstuck.2.1
  · intro hcrowds
    have hend := hcrowds.2.2.1
    exact absurd hend (by decide)

theorem fcgi_write_overflow :
    ¬ InBounds (fun _ => some 0) (.fresh 1 true fun _ => 0)
      [.write .out (List.replicate 8184 0), .write .out [0]] :=
  overflow_of_fill List.length_replicate

end PhpRuntime.Fastcgi

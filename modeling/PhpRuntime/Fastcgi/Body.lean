import Mathlib.Algebra.GroupWithZero.Nat
import PhpRuntime.Fastcgi.Params

/-!
# The body of a FastCGI request

`fcgi_read` (`sapi/cgi/fastcgi.c`) takes the contents of the `FCGI_STDIN` records off the socket.
The socket gives the bytes in any portions; `safe_read` puts them together, and `in_len` and
`in_pad` carry the place in a record from one call to the next.
-/

set_option autoImplicit false

namespace PhpRuntime.Fastcgi

open PhpRuntime.Lib RequestType

/-! ## The socket -/

/-- A socket: the bytes that are not read yet, and how many bytes after the first the next calls of
`read` give, if there are as many and as many are asked for. `read` does not fail here. -/
structure Wire where
  input : List UInt8
  portion : ℕ → ℕ

namespace Wire

/-- `read` -/
def read (w : Wire) (count : ℕ) : List UInt8 × Wire :=
  let n := min count (w.portion 0 + 1)
  (w.input.take n, ⟨w.input.drop n, fun i => w.portion (i + 1)⟩)

/-- The loop of `safe_read`, with `count` bytes still to be read. It goes round for each portion. -/
def readLoop : ℕ → Wire → ℕ → List UInt8 × Wire
  | 0, w, _ => ([], w)
  | n + 1, w, count =>
    let r := w.read count
    if 0 < r.1.length then
      if r.1.length = count then r
      else
        let rest := readLoop n r.2 (count - r.1.length)
        (r.1 ++ rest.1, rest.2)
    else ([], r.2)

/-- `safe_read` -/
def safe_read (w : Wire) (count : ℕ) : List UInt8 × Wire := w.readLoop (count + 1) count

end Wire

/-! ## Reading the body -/

/-- The fields of `fcgi_request` that `fcgi_read` uses. -/
structure BodyRequest where
  wire : Wire
  in_len : ℕ
  in_pad : ℕ
  keep : Bool

/-- What `fcgi_read` returns, and the bytes that it has written to `str`. -/
structure BodyRead where
  ret : ℕ
  str : List UInt8
  req : BodyRequest

/-- The header of the next record. There is none if the record is not of the body. -/
def nextRecord (req : BodyRequest) : Option BodyRequest × Wire :=
  let r := req.wire.safe_read headerSize
  let hdr := Header.ofBytes r.1
  if r.1.length ≠ headerSize ∨ hdr.version < 1 ∨ hdr.type ≠ FCGI_STDIN.code then (none, r.2)
  else
    (some { req with wire := r.2, in_len := hdr.contentLength, in_pad := hdr.paddingLength }, r.2)

/-- The bytes of the record that are asked for. At the end of the record the padding is passed
over. -/
def readContent (req : BodyRequest) (rest : ℕ) : List UInt8 × Bool × BodyRequest :=
  let r := req.wire.safe_read (min req.in_len rest)
  let req := { req with wire := r.2, in_len := req.in_len - r.1.length }
  if r.1 ≠ [] ∧ req.in_len = 0 ∧ req.in_pad ≠ 0 then
    let pad := req.wire.safe_read req.in_pad
    if pad.1.length = req.in_pad then (r.1, true, { req with wire := pad.2 })
    else (r.1, false, { req with wire := pad.2, keep := false })
  else (r.1, true, req)

/-- The second half of a round of `fcgi_read`, in a record that has content left. The next round
follows if the record ends. -/
def readRecord (again : BodyRequest → ℕ → List UInt8 → BodyRead) (req : BodyRequest) (rest : ℕ)
    (str : List UInt8) : BodyRead :=
  let r := readContent req rest
  let str := str ++ r.1
  if r.2.1 = false then ⟨r.1.length, str, r.2.2⟩
  else if r.1 = [] ∨ r.2.2.in_len ≠ 0 then ⟨str.length, str, r.2.2⟩
  else again r.2.2 (rest - r.1.length) str

/-- The loop of `fcgi_read`, with `rest` bytes still asked for and `str` written already. -/
def bodyLoop : ℕ → BodyRequest → ℕ → List UInt8 → BodyRead
  | 0, req, _, str => ⟨str.length, str, req⟩
  | fuel + 1, req, rest, str =>
    if rest = 0 then ⟨str.length, str, req⟩
    else if req.in_len = 0 then
      match nextRecord req with
      | (none, wire) => ⟨0, str, { req with wire := wire, keep := false }⟩
      | (some req, _) =>
        if req.in_len = 0 then ⟨str.length, str, req⟩
        else readRecord (bodyLoop fuel) req rest str
    else readRecord (bodyLoop fuel) req rest str

/-- `fcgi_read`. Every round but the last reads bytes. -/
def fcgi_read (req : BodyRequest) (len : ℕ) : BodyRead := bodyLoop (len + 1) req len []

/-- One call of `fcgi_read`: how many bytes it was asked for, the bytes that it returned, and what
is left of the record then. -/
structure Call where
  asked : ℕ
  ret : ℕ
  bytes : List UInt8
  in_len : ℕ

/-- The calls with the lengths, up to the first that returns less than it is asked for. -/
def readCalls (req : BodyRequest) : List ℕ → List Call
  | [] => []
  | len :: lens =>
    let r := fcgi_read req len
    let call : Call := ⟨len, r.ret, r.str.take r.ret, r.req.in_len⟩
    if r.ret < len then [call] else call :: readCalls r.req lens

/-! ## What the socket gives -/

theorem take_append_take (l : List UInt8) {m n : ℕ} (h : m ≤ n) :
    l.take m ++ (l.drop m).take (n - (l.take m).length) = l.take n ∧
      (l.drop m).drop (n - (l.take m).length) = l.drop n := by
  by_cases hshort : m ≤ l.length
  · have hsum : m + (n - m) = n := by omega
    rw [List.length_take_of_le hshort, ← List.take_add, List.drop_drop, hsum]
    exact ⟨rfl, rfl⟩
  · have hnone : l.drop m = [] := List.drop_of_length_le (by omega)
    rw [hnone, List.take_nil, List.drop_nil, List.append_nil, List.take_of_length_le (by omega),
      List.take_of_length_le (by omega), List.drop_of_length_le (by omega)]
    exact ⟨rfl, rfl⟩

theorem Wire.readLoop_spec (n : ℕ) (w : Wire) {count : ℕ} (h : count < n) :
    (w.readLoop n count).1 = w.input.take count ∧
      (w.readLoop n count).2.input = w.input.drop count := by
  induction n generalizing w count with
  | zero => omega
  | succ n ih =>
    have hread : (w.read count).1 = w.input.take (min count (w.portion 0 + 1)) := rfl
    have hrest : (w.read count).2.input = w.input.drop (min count (w.portion 0 + 1)) := rfl
    have hlen : (w.read count).1.length = min (min count (w.portion 0 + 1)) w.input.length :=
      List.length_take
    rw [readLoop]
    dsimp only
    split
    · next hpos =>
      split
      · next hall =>
        have hcount : min count (w.portion 0 + 1) = count := by omega
        rw [hread, hrest, hcount]
        exact ⟨rfl, rfl⟩
      · next hmore =>
        obtain ⟨hbytes, hinput⟩ := ih (w.read count).2
          (show count - (w.read count).1.length < n by omega)
        have htake := take_append_take w.input (m := min count (w.portion 0 + 1)) (n := count)
          (Nat.min_le_left _ _)
        rw [hbytes, hinput, hrest, hread]
        exact htake
    · next hnone =>
      have hempty : w.input = [] ∨ count = 0 := by
        rw [← List.length_eq_zero_iff]
        omega
      rw [hrest]
      rcases hempty with hempty | hzero
      · rw [hempty, List.take_nil, List.drop_nil, List.drop_nil]
        exact ⟨rfl, rfl⟩
      · rw [hzero, Nat.zero_min]
        exact ⟨rfl, rfl⟩

/-- However the socket divides the bytes, `safe_read` gives as many as it is asked for. -/
theorem Wire.safe_read_spec (w : Wire) {count : ℕ} {bytes rest : List UInt8}
    (h : w.input = bytes ++ rest) (hlen : bytes.length = count) :
    (w.safe_read count).1 = bytes ∧ (w.safe_read count).2.input = rest := by
  obtain ⟨hbytes, hinput⟩ := w.readLoop_spec (count + 1) (Nat.lt_succ_self count)
  unfold safe_read
  rw [hbytes, hinput, h, List.take_left' hlen, List.drop_left' hlen]
  exact ⟨rfl, rfl⟩

/-! ## The place in the body -/

def IsBody (r : Record) : Prop := r.type = FCGI_STDIN.code ∧ r.content ≠ []

def bodyOf (records : List Record) : List UInt8 := records.flatMap Record.content

theorem bodyOf_append (done later : List Record) :
    bodyOf (done ++ later) = bodyOf done ++ bodyOf later :=
  List.flatMap_append

theorem bodyOf_cons (r : Record) (later : List Record) :
    bodyOf (r :: later) = r.content ++ bodyOf later :=
  List.flatMap_cons

/-- Where the socket is in the records, when `n` bytes are delivered: between two of them, or in one
whose last bytes are `cur`. -/
inductive Place (all : List Record) : ℕ → List UInt8 → List UInt8 → List Record → Prop
  | between (done later : List Record) (h : all = done ++ later) :
      Place all (bodyOf done).length [] [] later
  | inside (done later : List Record) (r : Record) (got cur : List UInt8)
      (h : all = done ++ r :: later) (hcontent : r.content = got ++ cur) (hgot : got ≠ [])
      (hcur : cur ≠ []) :
      Place all ((bodyOf done).length + got.length) cur r.padding later

/-- The bytes of the socket at such a place, and the two counters. -/
structure InBody (req : BodyRequest) (cur pad : List UInt8) (behind : List UInt8) : Prop where
  input : req.wire.input = cur ++ (pad ++ behind)
  in_len : req.in_len = cur.length
  in_pad : cur ≠ [] → req.in_pad = pad.length

/-- The bytes of the current record that are not delivered when `n` bytes of the body are. Between
two records there is no current one. -/
def leftInRecord : List Record → ℕ → ℕ
  | [], _ => 0
  | r :: records, n =>
    if n = 0 then 0
    else if n < r.content.length then r.content.length - n
    else leftInRecord records (n - r.content.length)

theorem leftInRecord_zero (records : List Record) : leftInRecord records 0 = 0 := by
  cases records with
  | nil => rfl
  | cons r records => exact if_pos rfl

theorem leftInRecord_append (done later : List Record) (n : ℕ) :
    leftInRecord (done ++ later) ((bodyOf done).length + n) = leftInRecord later n := by
  induction done with
  | nil => rw [bodyOf, List.flatMap_nil, List.length_nil, Nat.zero_add, List.nil_append]
  | cons r done ih =>
    rw [List.cons_append, leftInRecord, bodyOf_cons, List.length_append]
    split
    · next hzero => rw [show n = 0 by omega, leftInRecord_zero]
    · next hpos =>
      rw [if_neg (by omega), ← ih]
      congr 1
      omega

theorem leftInRecord_end (records : List Record) {n : ℕ} (h : (bodyOf records).length ≤ n) :
    leftInRecord records n = 0 := by
  have hend := leftInRecord_append records [] (n - (bodyOf records).length)
  rw [List.append_nil, Nat.add_sub_cancel' h] at hend
  exact hend

theorem Place.left {all : List Record} {n : ℕ} {cur pad : List UInt8} {later : List Record}
    (h : Place all n cur pad later) : leftInRecord all n = cur.length := by
  cases h with
  | between done later h =>
    have happend := leftInRecord_append done later 0
    rw [Nat.add_zero, leftInRecord_zero] at happend
    rw [h, happend]
    rfl
  | inside done later r got cur h hcontent hgot hcur =>
    have hpos := List.length_pos_iff.mpr hgot
    have hlen := congrArg List.length hcontent
    have hrest := List.length_pos_iff.mpr hcur
    rw [List.length_append] at hlen
    rw [h, leftInRecord_append, leftInRecord, if_neg (by omega), if_pos (by omega)]
    omega

theorem Place.pending {all : List Record} {n : ℕ} {cur pad : List UInt8} {later : List Record}
    (h : Place all n cur pad later) : (bodyOf all).drop n = cur ++ bodyOf later := by
  cases h with
  | between done later h =>
    rw [h, bodyOf_append]
    exact List.drop_left' rfl
  | inside done later r got cur h hcontent hgot hcur =>
    rw [h, bodyOf_append, bodyOf_cons, hcontent, ← List.drop_drop, List.drop_left' rfl,
      List.append_assoc, List.drop_left' rfl]

/-! ## One call -/

theorem readContent_spec {req : BodyRequest} {cur pad behind : List UInt8}
    (h : InBody req cur pad behind) (hcur : cur ≠ []) {rest : ℕ} (hrest : 0 < rest) :
    (readContent req rest).1 = cur.take rest ∧ (readContent req rest).2.1 = true ∧
      InBody (readContent req rest).2.2 (cur.drop rest)
        (if rest < cur.length then pad else []) behind := by
  have hpos := List.length_pos_iff.mpr hcur
  have hsplit : req.wire.input = cur.take rest ++ (cur.drop rest ++ (pad ++ behind)) := by
    rw [h.input, ← List.append_assoc (cur.take rest), List.take_append_drop]
  obtain ⟨hbytes, hinput⟩ := req.wire.safe_read_spec hsplit
    (show (cur.take rest).length = min req.in_len rest by
      rw [List.length_take, h.in_len, Nat.min_comm])
  have hne : cur.take rest ≠ [] := by
    apply List.ne_nil_of_length_pos
    rw [List.length_take]
    omega
  have hleft : req.in_len - (cur.take rest).length = (cur.drop rest).length := by
    rw [h.in_len, List.length_take, List.length_drop]
    omega
  unfold readContent
  dsimp only
  rw [hbytes, hleft, h.in_pad hcur]
  by_cases hlast : rest < cur.length
  · have hmore : (cur.drop rest).length ≠ 0 := by
      rw [List.length_drop]
      omega
    rw [if_neg (fun hend => hmore hend.2.1), if_pos hlast]
    exact ⟨rfl, rfl, hinput, rfl, fun _ => rfl⟩
  · have hdone : cur.drop rest = [] := List.drop_of_length_le (by omega)
    rw [hdone, List.nil_append] at hinput
    rw [if_neg hlast, hdone]
    by_cases hpad : pad.length = 0
    · rw [List.eq_nil_of_length_eq_zero hpad] at hinput ⊢
      rw [if_neg (fun hend => hend.2.2 rfl)]
      exact ⟨rfl, rfl, hinput, rfl, fun hne => absurd rfl hne⟩
    · obtain ⟨hpadding, hbehind⟩ := Wire.safe_read_spec _ hinput rfl
      rw [if_pos ⟨hne, rfl, hpad⟩, if_pos (congrArg List.length hpadding)]
      exact ⟨rfl, rfl, hbehind, rfl, fun hne => absurd rfl hne⟩

theorem nextRecord_spec {req : BodyRequest} {r : Record} {behind : List UInt8}
    (hinput : req.wire.input = r.encode ++ behind) (htype : r.type = FCGI_STDIN.code) :
    ∃ req' wire, nextRecord req = (some req', wire) ∧
      InBody req' r.content r.padding behind ∧ req'.in_len = r.content.length := by
  have hsplit : req.wire.input =
      Record.header r.type r.id r.content.length r.padding.length ++
        (r.content ++ (r.padding ++ behind)) := by
    rw [hinput, Record.encode, List.append_assoc, List.append_assoc]
  obtain ⟨hbytes, hrest⟩ := req.wire.safe_read_spec hsplit rfl
  have hgood : ¬ ((req.wire.safe_read headerSize).1.length ≠ headerSize ∨
      (Header.ofBytes (req.wire.safe_read headerSize).1).version < 1 ∨
      (Header.ofBytes (req.wire.safe_read headerSize).1).type ≠ FCGI_STDIN.code) := by
    rintro (hlen | hversion | hother)
    · exact hlen (congrArg List.length hbytes)
    · rw [show (req.wire.safe_read headerSize).1 = _ from hbytes, ofBytes_header] at hversion
      exact UInt8.lt_irrefl 1 hversion
    · rw [show (req.wire.safe_read headerSize).1 = _ from hbytes, ofBytes_header] at hother
      exact hother htype
  have hhdr : Header.ofBytes (req.wire.safe_read headerSize).1 = headerOf r := by
    rw [show (req.wire.safe_read headerSize).1 = _ from hbytes]
    exact ofBytes_header r
  refine ⟨_, _, if_neg hgood, ⟨hrest, ?_, fun _ => ?_⟩, ?_⟩
  · exact congrArg Header.contentLength hhdr
  · exact congrArg Header.paddingLength hhdr
  · exact congrArg Header.contentLength hhdr

/-- What a call leaves when it has delivered all that it was asked for, and when the body has
ended. -/
structure Continues (all : List Record) (last : Record) (tail : List UInt8) (n : ℕ) (rest : ℕ)
    (pending : List UInt8) (r : BodyRead) : Prop where
  ret : r.ret = r.str.length
  place : rest ≤ pending.length → ∃ cur pad later, Place all (n + rest) cur pad later ∧
    InBody r.req cur pad (encodeAll later ++ (last.encode ++ tail))
  ended : pending.length < rest → r.req.in_len = 0

variable {all later : List Record} {last : Record} {tail : List UInt8}

theorem readRecord_spec {again : BodyRequest → ℕ → List UInt8 → BodyRead} {req : BodyRequest}
    {done : List Record} {r : Record} {got cur str : List UInt8} {rest : ℕ}
    (hall : all = done ++ r :: later) (hcontent : r.content = got ++ cur) (hcur : cur ≠ [])
    (hin : InBody req cur r.padding (encodeAll later ++ (last.encode ++ tail))) (hrest : 0 < rest)
    (hagain : ∀ req' str', Place all (bodyOf (done ++ [r])).length [] [] later →
      InBody req' [] [] (encodeAll later ++ (last.encode ++ tail)) → cur.length ≤ rest →
      (again req' (rest - cur.length) str').str =
          str' ++ (bodyOf later).take (rest - cur.length) ∧
        Continues all last tail (bodyOf (done ++ [r])).length (rest - cur.length) (bodyOf later)
          (again req' (rest - cur.length) str')) :
    (readRecord again req rest str).str = str ++ (cur ++ bodyOf later).take rest ∧
      Continues all last tail ((bodyOf done).length + got.length) rest (cur ++ bodyOf later)
        (readRecord again req rest str) := by
  obtain ⟨hbytes, hok, hnext⟩ := readContent_spec hin hcur hrest
  have hpos := List.length_pos_iff.mpr hcur
  have hne : cur.take rest ≠ [] := by
    apply List.ne_nil_of_length_pos
    rw [List.length_take]
    omega
  unfold readRecord
  dsimp only
  rw [hbytes, if_neg (by rw [hok]; decide), hnext.in_len]
  by_cases hpart : rest < cur.length
  · have hmore : cur.drop rest ≠ [] := by
      apply List.ne_nil_of_length_pos
      rw [List.length_drop]
      omega
    have hgot : got ++ cur.take rest ≠ [] := List.append_ne_nil_of_right_ne_nil _ hne
    rw [if_pos (Or.inr (by rw [List.length_drop]; omega)),
      List.take_append_of_le_length (by omega)]
    refine ⟨rfl, rfl, fun _ => ?_, fun hshort => ?_⟩
    · rw [if_pos hpart] at hnext
      refine ⟨_, _, _, ?_, hnext⟩
      have hplace := Place.inside done later r (got ++ cur.take rest) (cur.drop rest) hall
        (by rw [List.append_assoc, List.take_append_drop]; exact hcontent) hgot hmore
      rw [List.length_append, List.length_take_of_le (by omega), ← Nat.add_assoc] at hplace
      exact hplace
    · rw [List.length_append] at hshort
      omega
  · have hall' : cur.take rest = cur := List.take_of_length_le (by omega)
    have hdrop : cur.drop rest = [] := List.drop_of_length_le (by omega)
    have hlen : (bodyOf (done ++ [r])).length = (bodyOf done).length + got.length + cur.length := by
      rw [bodyOf_append, bodyOf_cons, hcontent]
      simp only [List.length_append, bodyOf, List.flatMap_nil, List.length_nil]
      omega
    rw [if_neg hpart, hdrop] at hnext
    have hplace : Place all (bodyOf (done ++ [r])).length [] [] later :=
      Place.between (done ++ [r]) later (by rw [hall, List.append_assoc, List.singleton_append])
    obtain ⟨hstr, hcont⟩ := hagain _ (str ++ cur) hplace hnext (by omega)
    rw [hdrop, hall', if_neg (by rintro (h | h); exacts [hcur h, h rfl])]
    refine ⟨?_, hcont.ret, fun hle => ?_, fun hshort => ?_⟩
    · rw [hstr, List.take_append, hall', List.append_assoc]
    · rw [List.length_append] at hle
      obtain ⟨cur', pad', later', hplace', hin'⟩ := hcont.place (by omega)
      rw [hlen, show (bodyOf done).length + got.length + cur.length + (rest - cur.length) =
        (bodyOf done).length + got.length + rest by omega] at hplace'
      exact ⟨cur', pad', later', hplace', hin'⟩
    · rw [List.length_append] at hshort
      exact hcont.ended (by omega)

def IsBodyEnd (r : Record) : Prop := r.type = FCGI_STDIN.code ∧ r.content = []

theorem bodyLoop_spec (hbody : ∀ r ∈ all, IsBody r) (hlast : IsBodyEnd last) (fuel : ℕ)
    {req : BodyRequest} {n : ℕ} {cur pad str : List UInt8} {rest : ℕ}
    (hplace : Place all n cur pad later)
    (hin : InBody req cur pad (encodeAll later ++ (last.encode ++ tail))) (hfuel : rest < fuel) :
    (bodyLoop fuel req rest str).str = str ++ (cur ++ bodyOf later).take rest ∧
      Continues all last tail n rest (cur ++ bodyOf later) (bodyLoop fuel req rest str) := by
  induction fuel generalizing req n cur pad later rest str with
  | zero => omega
  | succ fuel ih =>
    have hagain : ∀ (done : List Record) (rest' : ℕ) (later' : List Record), 0 < rest' →
        rest ≤ rest' + rest → ∀ req' str', Place all (bodyOf done).length [] [] later' →
        InBody req' [] [] (encodeAll later' ++ (last.encode ++ tail)) → rest' ≤ rest →
        (bodyLoop fuel req' (rest - rest') str').str =
            str' ++ (bodyOf later').take (rest - rest') ∧
          Continues all last tail (bodyOf done).length (rest - rest') (bodyOf later')
            (bodyLoop fuel req' (rest - rest') str') :=
      fun done rest' later' hpos _ req' str' hplace' hin' _ => ih hplace' hin' (by omega)
    rw [bodyLoop]
    by_cases hzero : rest = 0
    · rw [if_pos hzero, hzero]
      exact ⟨(List.append_nil _).symm, rfl, fun _ => ⟨cur, pad, later, hplace, hin⟩,
        fun hlt => absurd hlt (Nat.not_lt_zero _)⟩
    rw [if_neg hzero, hin.in_len]
    have hrest : 0 < rest := by omega
    cases hplace with
    | inside done later r got cur hall hcontent hgot hcur =>
      have hpos := List.length_pos_iff.mpr hcur
      rw [if_neg (by omega)]
      exact readRecord_spec hall hcontent hcur hin hrest
        (hagain (done ++ [r]) cur.length later hpos (by omega))
    | between done later hall =>
      rw [if_pos (show ([] : List UInt8).length = 0 from rfl)]
      cases later with
      | nil =>
        obtain ⟨req', wire, hnext, -, hlen⟩ := nextRecord_spec hin.input hlast.1
        rw [hlast.2, List.length_nil] at hlen
        rw [hnext]
        dsimp only
        rw [if_pos hlen]
        refine ⟨?_, rfl, fun hle => ?_, fun _ => hlen⟩
        · rw [bodyOf, List.flatMap_nil, List.nil_append, List.take_nil, List.append_nil]
        · rw [bodyOf, List.flatMap_nil, List.nil_append, List.length_nil] at hle
          omega
      | cons r later =>
        have hr : IsBody r := hbody r (by rw [hall]; simp)
        have hpos := List.length_pos_iff.mpr hr.2
        have hinput : req.wire.input =
            r.encode ++ (encodeAll later ++ (last.encode ++ tail)) := by
          rw [hin.input, encodeAll, List.flatMap_cons, List.append_assoc]
          rfl
        obtain ⟨req', wire, hnext, hin', hlen⟩ := nextRecord_spec hinput hr.1
        rw [hnext]
        dsimp only
        rw [if_neg (by omega), List.nil_append, bodyOf_cons]
        have hcontent : r.content = [] ++ r.content := rfl
        exact readRecord_spec hall hcontent hr.2 hin' hrest
          (hagain (done ++ [r]) r.content.length later hpos (by omega))

/-- After each call `in_len` says what is left of the record; `n` bytes are delivered before. -/
def CountsRight (records : List Record) : ℕ → List Call → Prop
  | _, [] => True
  | n, call :: calls =>
    call.ret = call.bytes.length ∧ call.in_len = leftInRecord records (n + call.ret) ∧
      CountsRight records (n + call.ret) calls

/-- The calls deliver the body from the place `n` on: together the bytes of it that they ask for,
and all of them once a call returns less than that. -/
structure BodyDelivered (records : List Record) (n : ℕ) (calls : List Call) : Prop where
  bytes : calls.flatMap Call.bytes = ((bodyOf records).drop n).take (calls.map Call.asked).sum
  short : (∃ call ∈ calls, call.ret < call.asked) →
    calls.flatMap Call.bytes = (bodyOf records).drop n
  counts : CountsRight records n calls

theorem fcgi_read_spec (hbody : ∀ r ∈ all, IsBody r) (hlast : IsBodyEnd last) {req : BodyRequest}
    {n : ℕ} {cur pad : List UInt8} (hplace : Place all n cur pad later)
    (hin : InBody req cur pad (encodeAll later ++ (last.encode ++ tail))) (len : ℕ) :
    (fcgi_read req len).str = ((bodyOf all).drop n).take len ∧
      Continues all last tail n len ((bodyOf all).drop n) (fcgi_read req len) := by
  rw [hplace.pending]
  exact bodyLoop_spec hbody hlast (len + 1) hplace hin (Nat.lt_succ_self len)

theorem delivered_short {records : List Record} {n : ℕ} {call : Call}
    (hbytes : call.bytes = (bodyOf records).drop n) (hret : call.ret = call.bytes.length)
    (hshort : call.ret < call.asked) (hcount : call.in_len = 0) :
    BodyDelivered records n [call] := by
  have hleft : leftInRecord records (n + call.ret) = 0 := by
    apply leftInRecord_end
    rw [hret, hbytes, List.length_drop]
    omega
  refine ⟨?_, fun _ => ?_, hret, hcount.trans hleft.symm, trivial⟩
  · rw [List.flatMap_singleton, List.map_singleton, List.sum_singleton, hbytes,
      List.take_of_length_le]
    rw [← hbytes]
    omega
  · rw [List.flatMap_singleton]
    exact hbytes

theorem delivered_cons {records : List Record} {n : ℕ} {call : Call} {calls : List Call}
    (hbytes : call.bytes = ((bodyOf records).drop n).take call.asked)
    (hret : call.ret = call.bytes.length) (hfull : call.ret = call.asked)
    (hcount : call.in_len = leftInRecord records (n + call.ret))
    (h : BodyDelivered records (n + call.asked) calls) :
    BodyDelivered records n (call :: calls) := by
  have hrest : (bodyOf records).drop (n + call.asked) =
      ((bodyOf records).drop n).drop call.asked := List.drop_drop.symm
  refine ⟨?_, ?_, hret, hcount, hfull ▸ h.counts⟩
  · rw [List.flatMap_cons, List.map_cons, List.sum_cons, h.bytes, hbytes, hrest, ← List.take_add]
  · rintro ⟨short, hmem, hshort⟩
    rcases List.mem_cons.mp hmem with rfl | hmem
    · omega
    · rw [List.flatMap_cons, h.short ⟨short, hmem, hshort⟩, hbytes, hrest, List.take_append_drop]

theorem readCalls_delivers (hbody : ∀ r ∈ all, IsBody r) (hlast : IsBodyEnd last)
    (lens : List ℕ) {req : BodyRequest} {n : ℕ} {cur pad : List UInt8}
    (hplace : Place all n cur pad later)
    (hin : InBody req cur pad (encodeAll later ++ (last.encode ++ tail))) :
    BodyDelivered all n (readCalls req lens) := by
  induction lens generalizing req n cur pad later with
  | nil => exact ⟨rfl, fun ⟨call, hmem, _⟩ => absurd hmem List.not_mem_nil, trivial⟩
  | cons len lens ih =>
    obtain ⟨hstr, hcont⟩ := fcgi_read_spec hbody hlast hplace hin len
    have hret := hcont.ret
    have hbytes : (fcgi_read req len).str.take (fcgi_read req len).ret =
        ((bodyOf all).drop n).take len := by
      rw [hret, List.take_length, hstr]
    have hlen : (fcgi_read req len).ret = (((bodyOf all).drop n).take len).length := by
      rw [hret, hstr]
    have hmin : (((bodyOf all).drop n).take len).length = min len ((bodyOf all).drop n).length :=
      List.length_take
    rw [readCalls, hbytes]
    split
    · next hshort =>
      have hall : ((bodyOf all).drop n).take len = (bodyOf all).drop n :=
        List.take_of_length_le (by omega)
      exact delivered_short hall hlen hshort (hcont.ended (by omega))
    · next hfull =>
      obtain ⟨cur', pad', later', hplace', hin'⟩ := hcont.place (by omega)
      have hret' : (fcgi_read req len).ret = len := by omega
      refine delivered_cons rfl hlen hret' ?_ (ih hplace' hin')
      dsimp only
      rw [hret', hplace'.left, hin'.in_len]

theorem readCalls_asked (req : BodyRequest) (lens : List ℕ)
    (h : ∀ call ∈ readCalls req lens, call.asked ≤ call.ret) :
    (readCalls req lens).map Call.asked = lens := by
  induction lens generalizing req with
  | nil => rfl
  | cons len lens ih =>
    rw [readCalls] at h ⊢
    split at h
    · next hshort =>
      have hle := h _ List.mem_cons_self
      dsimp only at hle
      omega
    · next hfull =>
      rw [if_neg hfull, List.map_cons, ih _ fun call hmem => h call (List.mem_cons_of_mem _ hmem)]

/-- **The body is put together again**: the calls deliver the contents of the records, however the
socket divides the bytes and whatever lengths they ask for, and they deliver all when they ask for
enough. -/
theorem fcgi_read_body {records : List Record} (hbody : ∀ r ∈ records, IsBody r)
    (hlast : IsBodyEnd last) {req : BodyRequest} (hreq : req.in_len = 0)
    (hinput : req.wire.input = encodeAll (records ++ [last]) ++ tail) (lens : List ℕ) :
    BodyDelivered records 0 (readCalls req lens) ∧
      ((bodyOf records).length ≤ lens.sum →
        (readCalls req lens).flatMap Call.bytes = bodyOf records) := by
  have hin : InBody req [] [] (encodeAll records ++ (last.encode ++ tail)) := by
    refine ⟨?_, hreq, fun hne => absurd rfl hne⟩
    rw [hinput, encodeAll_append, encodeAll_singleton, List.append_assoc]
    rfl
  have hdelivered := readCalls_delivers hbody hlast lens (Place.between [] records rfl) hin
  refine ⟨hdelivered, fun hlen => ?_⟩
  by_cases hshort : ∃ call ∈ readCalls req lens, call.ret < call.asked
  · exact hdelivered.short hshort
  · have hasked := readCalls_asked req lens fun call hmem =>
      Nat.not_lt.mp fun hlt => hshort ⟨call, hmem, hlt⟩
    have hbytes := hdelivered.bytes
    rw [hasked] at hbytes
    rw [hbytes]
    exact List.take_of_length_le hlen

/-- Three bytes with one of padding, over a socket that gives one byte at a time. -/
theorem fcgi_read_body_three :
    (readCalls ⟨⟨encodeAll ([⟨5, 1, [1, 2, 3], [0], by decide, by decide, by decide⟩] ++
      [⟨5, 1, [], [], by decide, by decide, by decide⟩]) ++ [9], fun _ => 0⟩, 0, 0, true⟩
        [2, 5]).flatMap Call.bytes = [1, 2, 3] := by
  have hbody : ∀ r ∈ [(⟨5, 1, [1, 2, 3], [0], by decide, by decide, by decide⟩ : Record)],
      IsBody r := by
    intro r hr
    rw [List.mem_singleton.mp hr]
    exact ⟨rfl, List.cons_ne_nil _ _⟩
  exact (fcgi_read_body hbody ⟨rfl, rfl⟩ rfl rfl [2, 5]).2 (by decide)

end PhpRuntime.Fastcgi

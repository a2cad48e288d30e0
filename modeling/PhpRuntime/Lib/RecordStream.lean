import Mathlib.Data.List.Basic
import Mathlib.Data.Nat.Notation

/-!
# Streams of records

Records with a header of eight bytes: version, type, request, length of the content, length of
the padding. Several byte streams, one for each type, go over one connection in the contents of
such records.
-/

set_option autoImplicit false

namespace PhpRuntime.Lib

/-- A record. -/
structure Record where
  type : UInt8
  id : ℕ
  content : List UInt8
  padding : List UInt8
  id_lt : id < 65536
  content_lt : content.length < 65536
  padding_lt : padding.length < 256

namespace Record

/-- The header of a record: numbers of two bytes have the high byte first. -/
def header (type : UInt8) (id length padding : ℕ) : List UInt8 :=
  [1, type, UInt8.ofNat (id / 256), UInt8.ofNat id, UInt8.ofNat (length / 256),
    UInt8.ofNat length, UInt8.ofNat padding, 0]

def encode (r : Record) : List UInt8 :=
  header r.type r.id r.content.length r.padding.length ++ r.content ++ r.padding

@[simp] theorem length_header (type : UInt8) (id length padding : ℕ) :
    (header type id length padding).length = 8 := rfl

theorem eq_of_bytes_eq {m n : ℕ} (hm : m < 65536) (hn : n < 65536)
    (hhigh : UInt8.ofNat (m / 256) = UInt8.ofNat (n / 256))
    (hlow : UInt8.ofNat m = UInt8.ofNat n) : m = n := by
  have hhigh' := congrArg UInt8.toNat hhigh
  have hlow' := congrArg UInt8.toNat hlow
  simp only [UInt8.toNat_ofNat'] at hhigh' hlow'
  omega

theorem encode_append_inj {r s : Record} {a b : List UInt8}
    (h : r.encode ++ a = s.encode ++ b) : r = s ∧ a = b := by
  obtain ⟨type, id, content, padding, hid, hcontent, hpadding⟩ := r
  obtain ⟨type', id', content', padding', hid', hcontent', hpadding'⟩ := s
  simp only [encode, List.append_assoc] at h hcontent hpadding hcontent' hpadding'
  obtain ⟨hheader, hrest⟩ := List.append_inj h rfl
  simp only [header, List.cons.injEq, true_and, and_true] at hheader
  obtain ⟨htype, hid1, hid2, hlen1, hlen2, hpad⟩ := hheader
  have hlen := eq_of_bytes_eq hcontent hcontent' hlen1 hlen2
  have hpad' := congrArg UInt8.toNat hpad
  simp only [UInt8.toNat_ofNat'] at hpad'
  obtain ⟨hcontents, htail⟩ := List.append_inj hrest hlen
  obtain ⟨hpaddings, heq⟩ := List.append_inj htail (by omega)
  have hids := eq_of_bytes_eq hid hid' hid1 hid2
  subst htype hids hcontents hpaddings
  exact ⟨rfl, heq⟩

end Record

def encodeAll (records : List Record) : List UInt8 := records.flatMap Record.encode

@[simp] theorem encodeAll_nil : encodeAll [] = [] := rfl

@[simp] theorem encodeAll_append (a b : List Record) :
    encodeAll (a ++ b) = encodeAll a ++ encodeAll b :=
  List.flatMap_append

theorem encodeAll_singleton (r : Record) : encodeAll [r] = r.encode := by
  simp [encodeAll]

theorem encodeAll_inj {a b : List Record} (h : encodeAll a = encodeAll b) : a = b := by
  have hne (r : Record) (rest : List UInt8) : r.encode ++ rest ≠ [] := nofun
  induction a generalizing b with
  | nil =>
    cases b with
    | nil => rfl
    | cons s b => exact absurd h.symm (hne s (encodeAll b))
  | cons r a ih =>
    cases b with
    | nil => exact absurd h (hne r (encodeAll a))
    | cons s b =>
      obtain ⟨rfl, hrest⟩ := Record.encode_append_inj (a := encodeAll a) (b := encodeAll b) h
      rw [ih hrest]

def streamOf (type : UInt8) (records : List Record) : List UInt8 :=
  (records.filter fun r => r.type = type).flatMap Record.content

@[simp] theorem streamOf_nil (type : UInt8) : streamOf type [] = [] := rfl

@[simp] theorem streamOf_append (type : UInt8) (a b : List Record) :
    streamOf type (a ++ b) = streamOf type a ++ streamOf type b := by
  simp [streamOf]

theorem streamOf_singleton (type : UInt8) (r : Record) :
    streamOf type [r] = if r.type = type then r.content else [] := by
  by_cases h : r.type = type <;> simp [streamOf, h]

/-! ### A writer -/

/-- A writer of records: the records written, and the type and the content of the record that is
being written. -/
structure RecordWriter where
  records : List Record
  current : Option (UInt8 × List UInt8)

namespace RecordWriter

def pending (current : Option (UInt8 × List UInt8)) (type : UInt8) : List UInt8 :=
  match current with
  | some (type', content) => if type' = type then content else []
  | none => []

def stream (w : RecordWriter) (type : UInt8) : List UInt8 :=
  streamOf type w.records ++ pending w.current type

def Uses (w : RecordWriter) (type : UInt8) : Prop :=
  (∃ r ∈ w.records, r.type = type) ∨ ∃ content, w.current = some (type, content)

/-- No record of the writer is empty. -/
structure NonEmpty (w : RecordWriter) : Prop where
  records : ∀ r ∈ w.records, r.content ≠ []
  current : ∀ type content, w.current = some (type, content) → content ≠ []

def start (w : RecordWriter) (type : UInt8) : RecordWriter :=
  { w with current := some (type, []) }

/-- The current record is `r`, and it is done. -/
def finish (w : RecordWriter) (r : Record) : RecordWriter where
  records := w.records ++ [r]
  current := none

def extend (w : RecordWriter) (bytes : List UInt8) : RecordWriter :=
  { w with current := w.current.map fun (type, content) => (type, content ++ bytes) }

variable {w w' w'' : RecordWriter} {type : UInt8} {content a b : List UInt8} {r : Record}

/-- From `w` to `w'` bytes of a type are written. -/
structure Wrote (w w' : RecordWriter) (type : UInt8) (bytes : List UInt8) : Prop where
  stream : ∀ t, w'.stream t = w.stream t ++ if type = t then bytes else []
  uses : ∀ t, w'.Uses t → w.Uses t ∨ t = type

theorem Wrote.refl (w : RecordWriter) (type : UInt8) : Wrote w w type [] where
  stream := by simp
  uses _ h := .inl h

theorem Wrote.trans (h : Wrote w w' type a) (h' : Wrote w' w'' type b) :
    Wrote w w'' type (a ++ b) where
  stream t := by
    rw [h'.stream, h.stream, List.append_assoc]
    split <;> rfl
  uses t ht := by
    rcases h'.uses t ht with ht | ht
    · exact h.uses t ht
    · exact .inr ht

theorem wrote_start (type : UInt8) (h : w.current = none) : Wrote w (w.start type) type [] where
  stream t := by simp [stream, start, h, pending]
  uses t ht := by
    rcases ht with ht | ⟨content, hcontent⟩
    · exact .inl (.inl ht)
    · exact .inr (congrArg Prod.fst (Option.some.inj hcontent)).symm

theorem wrote_extend (h : w.current = some (type, content)) (bytes : List UInt8) :
    Wrote w (w.extend bytes) type bytes where
  stream t := by
    simp only [stream, extend, h, Option.map_some, pending]
    split <;> simp
  uses t ht := by
    rcases ht with ht | ⟨content', hcontent⟩
    · exact .inl (.inl ht)
    · rw [extend, h] at hcontent
      exact .inr (congrArg Prod.fst (Option.some.inj hcontent)).symm

theorem wrote_finish (h : w.current = some (r.type, r.content)) (type : UInt8) :
    Wrote w (w.finish r) type [] where
  stream t := by
    simp [stream, finish, h, pending, streamOf_singleton]
  uses t ht := by
    rcases ht with ⟨s, hs, hst⟩ | ⟨content, hcontent⟩
    · rcases List.mem_append.1 hs with hs | hs
      · exact .inl (.inl ⟨s, hs, hst⟩)
      · rw [List.mem_singleton.1 hs] at hst
        exact .inl (.inr ⟨r.content, by rw [h, hst]⟩)
    · exact nomatch hcontent

theorem wrote_record (h : w.current = none) : Wrote w (w.finish r) r.type r.content where
  stream t := by
    simp [stream, finish, h, pending, streamOf_singleton]
  uses t ht := by
    rcases ht with ⟨s, hs, hst⟩ | ⟨content, hcontent⟩
    · rcases List.mem_append.1 hs with hs | hs
      · exact .inl (.inl ⟨s, hs, hst⟩)
      · rw [List.mem_singleton.1 hs] at hst
        exact .inr hst.symm
    · exact nomatch hcontent

theorem nonEmpty_start (type : UInt8) (h : w.current = none) {bytes : List UInt8} (hne : bytes ≠ []) :
    ((w.start type).extend bytes).NonEmpty ↔ w.NonEmpty := by
  constructor
  · intro hw
    exact ⟨hw.records, fun t c hc => by rw [h] at hc; exact nomatch hc⟩
  · intro hw
    refine ⟨hw.records, fun t c hc => ?_⟩
    have hpair := Option.some.inj hc
    rw [← (Prod.mk.inj hpair).2]
    exact hne

theorem nonEmpty_extend (h : w.current = some (type, content)) (hne : content ≠ [])
    (bytes : List UInt8) : (w.extend bytes).NonEmpty ↔ w.NonEmpty := by
  constructor
  · intro hw
    refine ⟨hw.records, fun t c hc => ?_⟩
    rw [h] at hc
    rw [← (Prod.mk.inj (Option.some.inj hc)).2]
    exact hne
  · intro hw
    refine ⟨hw.records, fun t c hc => ?_⟩
    rw [extend, h] at hc
    rw [← (Prod.mk.inj (Option.some.inj hc)).2]
    exact List.append_ne_nil_of_left_ne_nil hne _

theorem nonEmpty_finish (h : w.current = none ∨ w.current = some (r.type, r.content)) :
    (w.finish r).NonEmpty ↔ w.NonEmpty ∧ r.content ≠ [] := by
  constructor
  · intro hw
    have hr := hw.records r (List.mem_append_right _ List.mem_cons_self)
    refine ⟨⟨fun s hs => hw.records s (List.mem_append_left _ hs), fun t c hc => ?_⟩, hr⟩
    rcases h with h | h
    · rw [h] at hc
      exact nomatch hc
    · rw [h] at hc
      rw [← (Prod.mk.inj (Option.some.inj hc)).2]
      exact hr
  · intro ⟨hw, hr⟩
    refine ⟨fun s hs => ?_, fun t c hc => nomatch hc⟩
    rcases List.mem_append.1 hs with hs | hs
    · exact hw.records s hs
    · rw [List.mem_singleton.1 hs]
      exact hr

end RecordWriter

end PhpRuntime.Lib

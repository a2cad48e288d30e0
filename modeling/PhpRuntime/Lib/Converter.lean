import Mathlib.Data.List.Basic
import Mathlib.Data.Nat.Notation

/-!
# Converters that are called in pieces

A converter is called with a piece of the input and some room for output, and with no input at
all once the input has ended. When the room does not suffice it stops with the error `full`,
and its caller calls it again with what it left of the piece and a new buffer. Here is the
caller, and the rule for what a converter produces whatever the pieces and the buffers are: a
relation between a state, the input still to come and the output still owed, which each call
keeps.
-/

set_option autoImplicit false

namespace PhpRuntime.Lib.Converter

variable {σ ε α β : Type}

/-- What one call leaves: the error, the state, the input not taken and the output written. -/
structure Reply (σ ε α β : Type) where
  err : ε
  state : σ
  rest : List α
  out : List β
  deriving DecidableEq, Repr

/-- A call with a piece of the input, or with none, and with room for so much output. A call
that does not return has no reply. -/
abbrev Convert (σ ε α β : Type) := σ → Option (List α) → ℕ → Option (Reply σ ε α β)

variable [DecidableEq ε] (convert : Convert σ ε α β) (ok full : ε)

def Reply.after (out : List β) (r : Reply σ ε α β) : Reply σ ε α β :=
  { r with out := out ++ r.out }

/-- One piece, with a new buffer whenever the room did not suffice. -/
def feed : σ → Option (List α) → List ℕ → Option (Reply σ ε α β)
  | s, input, [] => some ⟨full, s, input.getD [], []⟩
  | s, input, room :: rooms =>
    (convert s input room).bind fun r =>
      if r.err = full then (feed r.state (input.map fun _ => r.rest) rooms).map (Reply.after r.out)
      else some r

/-- The pieces one after the other, each with the buffers its caller has for it, and the calls
with no input. -/
def run : σ → List (List α × List ℕ) → List ℕ → Option (Reply σ ε α β)
  | s, [], flush => feed convert full s none flush
  | s, (piece, rooms) :: pieces, flush =>
    (feed convert full s (some piece) rooms).bind fun r =>
      if r.err = ok then (run r.state pieces flush).map (Reply.after r.out) else some r

/-- **The converter turns `input` into `output`** from the state `s`, however the input is cut
and whatever buffers there are: the run ends well with this output, or its buffers are used up
and it has written a part of it, and buffers that become large enough are not used up. -/
def Converts (s : σ) (input : List α) (output : List β) : Prop :=
  ∀ (pieces : List (List α × List ℕ)) (flush : List ℕ),
    (pieces.map Prod.fst).flatten = input →
      ∃ r, run convert ok full s pieces flush = some r ∧
        (r.err = ok ∧ r.out = output ∨ r.err = full ∧ r.out <+: output) ∧
        ((∀ rooms ∈ flush :: pieces.map Prod.snd, ∃ room ∈ rooms, output.length ≤ room) →
          r.err = ok)

/-- How a call ends that had `room` for the output `owed`. -/
def Reply.Ends (room : ℕ) (owed : List β) (r : Reply σ ε α β) : Prop :=
  r.err = ok ∨ r.err = full ∧ room < owed.length

/-- **The rule of a call.** `Within s input owed`: from the state `s`, with `input` still to
come, the output `owed` is still to be written. `Between` is what holds of the states between two
pieces. A call writes a part of what is owed, and it takes its whole piece unless all that was
owed did not fit into its room. -/
structure Keeps (Between Within : σ → List α → List β → Prop) : Prop where
  within : ∀ {s input owed}, Between s input owed → Within s input owed
  piece : ∀ {s piece more owed} (room : ℕ), Within s (piece ++ more) owed →
    ∃ r later, convert s (some piece) room = some r ∧ owed = r.out ++ later ∧
      r.out.length ≤ room ∧ Within r.state (r.rest ++ more) later ∧ r.Ends ok full room owed ∧
      (r.err = ok → Between r.state more later)
  flush : ∀ {s owed} (room : ℕ), Between s [] owed →
    ∃ r later, convert s none room = some r ∧ owed = r.out ++ later ∧
      r.out.length ≤ room ∧ Between r.state [] later ∧ r.Ends ok full room owed ∧
      (r.err = ok → later = [])

variable {convert ok full} {Between Within : σ → List α → List β → Prop} {s : σ}
  {piece more : List α} {owed later : List β}

/-- How the feeding of a piece ends: with all of it taken, or with the buffers used up. -/
structure Fed (ok full : ε) (rooms : List ℕ) (owed later : List β) (r : Reply σ ε α β) :
    Prop where
  written : owed = r.out ++ later
  ends : r.err = ok ∨ r.err = full
  enough : (∃ room ∈ rooms, owed.length ≤ room) → r.err = ok

theorem Fed.after {room : ℕ} {rooms : List ℕ} {r r' : Reply σ ε α β} {rest : List β}
    (h : Fed ok full rooms later rest r') (howed : owed = r.out ++ later)
    (hroom : room < owed.length) :
    Fed ok full (room :: rooms) owed rest (r'.after r.out) := by
  refine ⟨?_, h.ends, ?_⟩
  · rw [howed, h.written, ← List.append_assoc]
    rfl
  · rintro ⟨n, hn, hle⟩
    cases hn with
    | head => omega
    | tail _ hn =>
      rw [howed, List.length_append] at hle
      exact h.enough ⟨n, hn, by omega⟩

theorem Keeps.feed_piece (hk : Keeps convert ok full Between Within) (hne : ok ≠ full)
    (rooms : List ℕ) (h : Within s (piece ++ more) owed) :
    ∃ r later, feed convert full s (some piece) rooms = some r ∧
      Fed ok full rooms owed later r ∧ (r.err = ok → Between r.state more later) := by
  induction rooms generalizing s piece owed with
  | nil => exact ⟨_, owed, rfl, ⟨rfl, Or.inr rfl, by simp⟩, fun he => absurd he.symm hne⟩
  | cons room rooms ih =>
    obtain ⟨r, later, hcall, howed, -, hr, hends, hbetween⟩ := hk.piece room h
    rcases hends with hok | ⟨hfull, hroom⟩
    · refine ⟨r, later, ?_, ⟨howed, Or.inl hok, fun _ => hok⟩, hbetween⟩
      rw [feed, hcall, Option.bind_some, if_neg fun h => hne (hok.symm.trans h)]
    · obtain ⟨r', later', hfeed, hfed, hr'⟩ := ih hr
      refine ⟨r'.after r.out, later', ?_, hfed.after howed hroom, hr'⟩
      rw [feed, hcall, Option.bind_some, if_pos hfull, Option.map_some, hfeed]
      rfl

theorem Keeps.feed_flush (hk : Keeps convert ok full Between Within) (hne : ok ≠ full)
    (rooms : List ℕ) (h : Between s [] owed) :
    ∃ r later, feed convert full s none rooms = some r ∧
      Fed ok full rooms owed later r ∧ (r.err = ok → later = []) := by
  induction rooms generalizing s owed with
  | nil => exact ⟨_, owed, rfl, ⟨rfl, Or.inr rfl, by simp⟩, fun he => absurd he.symm hne⟩
  | cons room rooms ih =>
    obtain ⟨r, later, hcall, howed, -, hr, hends, hlater⟩ := hk.flush room h
    rcases hends with hok | ⟨hfull, hroom⟩
    · refine ⟨r, later, ?_, ⟨howed, Or.inl hok, fun _ => hok⟩, hlater⟩
      rw [feed, hcall, Option.bind_some, if_neg fun h => hne (hok.symm.trans h)]
    · obtain ⟨r', later', hfeed, hfed, hr'⟩ := ih hr
      refine ⟨r'.after r.out, later', ?_, hfed.after howed hroom, hr'⟩
      rw [feed, hcall, Option.bind_some, if_pos hfull, Option.map_none, hfeed]
      rfl

/-- **Runs.** A converter whose calls keep the relation writes exactly what is owed. -/
theorem Keeps.converts (hk : Keeps convert ok full Between Within) (hne : ok ≠ full)
    {input : List α} (h : Between s input owed) : Converts convert ok full s input owed := by
  intro pieces flush hinput
  induction pieces generalizing s input owed with
  | nil =>
    rw [← hinput] at h
    obtain ⟨r, later, hfeed, hfed, hlater⟩ := hk.feed_flush hne flush h
    refine ⟨r, hfeed, ?_, fun hrooms => hfed.enough (hrooms flush (by simp))⟩
    rcases hfed.ends with hok | hfull
    · refine Or.inl ⟨hok, ?_⟩
      rw [hfed.written, hlater hok, List.append_nil]
    · exact Or.inr ⟨hfull, later, hfed.written.symm⟩
  | cons p pieces ih =>
    rw [List.map_cons, List.flatten_cons] at hinput
    rw [← hinput] at h
    obtain ⟨r, later, hfeed, hfed, hr⟩ := hk.feed_piece hne p.2 (hk.within h)
    rcases hfed.ends with hok | hfull
    · obtain ⟨r', hrun, hout, henough⟩ := ih (hr hok) rfl
      refine ⟨r'.after r.out, ?_, ?_, fun hrooms => henough fun rooms hmem => ?_⟩
      · rw [run, hfeed, Option.bind_some, if_pos hok, hrun]
        rfl
      · rcases hout with ⟨hok', hout⟩ | ⟨hfull', hout⟩
        · exact Or.inl ⟨hok', by rw [hfed.written, ← hout]; rfl⟩
        · refine Or.inr ⟨hfull', ?_⟩
          rw [hfed.written]
          exact (List.prefix_append_right_inj r.out).mpr hout
      · obtain ⟨room, hroom, hle⟩ := hrooms rooms (by
          rcases List.mem_cons.mp hmem with rfl | hmem
          · simp
          · exact List.mem_cons_of_mem _ (List.mem_cons_of_mem _ hmem))
        rw [hfed.written, List.length_append] at hle
        exact ⟨room, hroom, by omega⟩
    · refine ⟨r, ?_, Or.inr ⟨hfull, later, hfed.written.symm⟩, fun hrooms => ?_⟩
      · rw [run, hfeed, Option.bind_some, if_neg fun h => hne (h.symm.trans hfull)]
      · exact hfed.enough (hrooms p.2 (by simp))

end PhpRuntime.Lib.Converter

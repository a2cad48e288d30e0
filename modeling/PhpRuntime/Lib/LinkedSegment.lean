import Mathlib.Data.List.Nodup
import Mathlib.Data.List.Perm.Basic

/-!
# Intrusive doubly linked lists

A doubly linked list threaded through records by two link fields is, to a proof, a
pair of functions `next prev : A → Option A` and the ghost list of the records it
visits. `Seg next prev pre l post` says that the records of `l`, in that order, are
threaded by the two functions, that the first one looks back at `pre` and that the
last one looks forward to `post`.

A program that edits such a list changes the functions at a few records. Each lemma
below takes the changed functions as functions of their own, with what they return at
the records that stay, so that the caller says once what his stores did and never
unfolds `Seg`.
-/

set_option autoImplicit false

namespace PhpRuntime.Lib

variable {A : Type*}

/-- The records of `l` are threaded by `next` and `prev` between `pre` and `post`. -/
def Seg (next prev : A → Option A) : Option A → List A → Option A → Prop
  | _, [], _ => True
  | pre, a :: t, post =>
      prev a = pre ∧ next a = t.head?.or post ∧ Seg next prev (some a) t post

namespace Seg

variable {next prev next' prev' : A → Option A} {pre pre' post post' : Option A}
  {l s t : List A} {a b : A}

@[simp] theorem nil : Seg next prev pre [] post := trivial

@[simp] theorem cons_iff :
    Seg next prev pre (a :: t) post ↔
      prev a = pre ∧ next a = t.head?.or post ∧ Seg next prev (some a) t post := Iff.rfl

theorem congr (h : Seg next prev pre l post) (hn : ∀ x ∈ l, next' x = next x)
    (hp : ∀ x ∈ l, prev' x = prev x) : Seg next' prev' pre l post := by
  induction l generalizing pre with
  | nil => trivial
  | cons a t ih =>
    obtain ⟨h1, h2, h3⟩ := h
    refine ⟨(hp a (by simp)).trans h1, (hn a (by simp)).trans h2, ?_⟩
    exact ih h3 (fun x hx => hn x (by simp [hx])) (fun x hx => hp x (by simp [hx]))

theorem append_iff :
    Seg next prev pre (s ++ t) post ↔
      Seg next prev pre s (t.head?.or post) ∧ Seg next prev (s.getLast?.or pre) t post := by
  induction s generalizing pre with
  | nil => simp
  | cons a s ih =>
    rw [List.cons_append, cons_iff, cons_iff, ih, List.getLast?_cons]
    cases s <;> simp [and_assoc]

theorem at_middle (h : Seg next prev pre (s ++ a :: t) post) :
    prev a = s.getLast?.or pre ∧ next a = t.head?.or post := by
  obtain ⟨-, h1, h2, -⟩ := append_iff.mp h
  exact ⟨h1, h2⟩

theorem prev_mem (h : Seg next prev none l none) (ha : a ∈ l) (hb : prev a = some b) :
    b ∈ l := by
  obtain ⟨s, t, rfl⟩ := List.append_of_mem ha
  rw [(at_middle h).1, Option.or_none] at hb
  simp [List.mem_of_getLast? hb]

theorem relink_last [DecidableEq A] (h : Seg next prev pre s post) (hl : s.Nodup)
    (hn : ∀ x ∈ s, next' x = if s.getLast? = some x then post' else next x)
    (hp : ∀ x ∈ s, prev' x = prev x) : Seg next' prev' pre s post' := by
  rcases List.eq_nil_or_concat s with rfl | ⟨r, b, rfl⟩
  · trivial
  · rw [List.concat_eq_append] at *
    have hb : b ∉ r := fun hb => (List.nodup_append.mp hl).2.2 b hb b (by simp) rfl
    rw [append_iff] at h ⊢
    refine ⟨h.1.congr ?_ (fun x hx => hp x (by simp [hx])), ?_, ?_, trivial⟩
    · intro x hx
      rw [hn x (by simp [hx]), if_neg]
      rw [List.getLast?_concat, Option.some_inj]
      rintro rfl
      exact hb hx
    · exact (hp b (by simp)).trans h.2.1
    · rw [hn b (by simp), if_pos (by simp)]
      simp

theorem relink_head [DecidableEq A] (h : Seg next prev pre t post) (hl : t.Nodup)
    (hn : ∀ x ∈ t, next' x = next x)
    (hp : ∀ x ∈ t, prev' x = if t.head? = some x then pre' else prev x) :
    Seg next' prev' pre' t post := by
  cases t with
  | nil => trivial
  | cons c r =>
    obtain ⟨-, h2, h3⟩ := h
    have hc : c ∉ r := (List.nodup_cons.mp hl).1
    refine ⟨by simpa using hp c (by simp), (hn c (by simp)).trans h2, h3.congr ?_ ?_⟩
    · exact fun x hx => hn x (by simp [hx])
    · intro x hx
      rw [hp x (by simp [hx]), if_neg]
      rw [List.head?_cons, Option.some_inj]
      rintro rfl
      exact hc hx

/-- **Replacing one record by a segment** that takes over its two links: the record
before `a` now points to `m`, the one after it points back to `m`, every other link is
as it was. With `m` empty this is unlinking, with `m` one record it is substitution. -/
theorem replace [DecidableEq A] {m : List A} (h : Seg next prev none (s ++ a :: t) none)
    (hl : (s ++ a :: t).Nodup)
    (hm : Seg next' prev' (prev a) m (next a))
    (hn : ∀ x ∈ s ++ t, next' x = if prev a = some x then m.head?.or (next a) else next x)
    (hp : ∀ x ∈ s ++ t, prev' x = if next a = some x then m.getLast?.or (prev a) else prev x) :
    Seg next' prev' none (s ++ (m ++ t)) none := by
  obtain ⟨hpa, hna⟩ := at_middle h
  rw [Option.or_none] at hpa hna
  rw [append_iff] at h
  obtain ⟨hs, -, -, ht⟩ := h
  rw [List.nodup_append] at hl
  obtain ⟨hls, hlt, hdis⟩ := hl
  have hst : ∀ x ∈ s, x ∉ t := fun x hx hxt => hdis x hx x (by simp [hxt]) rfl
  rw [append_iff, append_iff]
  refine ⟨?_, ?_, ?_⟩
  · refine hs.relink_last hls ?_ ?_
    · intro x hx
      rw [hn x (by simp [hx]), hpa, hna, List.head?_append]
      split <;> simp
    · intro x hx
      rw [hp x (by simp [hx]), if_neg]
      rw [hna]
      exact fun hh => hst x hx (List.mem_of_head? hh)
  · simpa [← hpa, ← hna] using hm
  · refine ht.relink_head (List.nodup_cons.mp hlt).2 ?_ ?_
    · intro x hx
      rw [hn x (by simp [hx]), if_neg]
      rw [hpa]
      exact fun hh => hst x (List.mem_of_getLast? hh) hx
    · intro x hx
      rw [hp x (by simp [hx]), hpa, hna, Option.or_none]

/-- **Unlinking.** -/
theorem erase [DecidableEq A] (h : Seg next prev none (s ++ a :: t) none)
    (hl : (s ++ a :: t).Nodup)
    (hn : ∀ x ∈ s ++ t, next' x = if prev a = some x then next a else next x)
    (hp : ∀ x ∈ s ++ t, prev' x = if next a = some x then prev a else prev x) :
    Seg next' prev' none (s ++ t) none := by
  have hr : Seg next' prev' none (s ++ ([] ++ t)) none :=
    h.replace hl trivial (by simpa using hn) (by simpa using hp)
  rwa [List.nil_append] at hr

/-- **Substitution of one record by another** that takes over its two links. -/
theorem subst [DecidableEq A] (h : Seg next prev none (s ++ a :: t) none)
    (hl : (s ++ a :: t).Nodup) (hnb : next' b = next a) (hpb : prev' b = prev a)
    (hn : ∀ x ∈ s ++ t, next' x = if prev a = some x then some b else next x)
    (hp : ∀ x ∈ s ++ t, prev' x = if next a = some x then some b else prev x) :
    Seg next' prev' none (s ++ b :: t) none := by
  have hr : Seg next' prev' none (s ++ ([b] ++ t)) none :=
    h.replace hl ⟨hpb, by simpa using hnb, trivial⟩ (by simpa using hn) (by simpa using hp)
  rwa [List.singleton_append] at hr

/-- **Insertion at the head.** -/
theorem push_front [DecidableEq A] (h : Seg next prev none l none) (hl : l.Nodup)
    (hna : next' a = l.head?) (hpa : prev' a = none)
    (hn : ∀ x ∈ l, next' x = next x)
    (hp : ∀ x ∈ l, prev' x = if l.head? = some x then some a else prev x) :
    Seg next' prev' none (a :: l) none :=
  ⟨hpa, by rw [hna, Option.or_none], h.relink_head hl hn hp⟩

/-- **Insertion at the tail.** -/
theorem push_back [DecidableEq A] (h : Seg next prev none l none) (hl : l.Nodup)
    (hna : next' a = none) (hpa : prev' a = l.getLast?)
    (hn : ∀ x ∈ l, next' x = if l.getLast? = some x then some a else next x)
    (hp : ∀ x ∈ l, prev' x = prev x) : Seg next' prev' none (l ++ [a]) none := by
  rw [append_iff]
  exact ⟨h.relink_last hl (by simpa using hn) hp, by rw [hpa, Option.or_none],
    by simpa using hna, trivial⟩

end Seg

/-! ## Reading a list -/

/-- `n` steps along the links. -/
def follow (next : A → Option A) : ℕ → Option A → Option A
  | 0, p => p
  | _ + 1, none => none
  | n + 1, some a => follow next n (next a)

/-- Up to `n` records along the links. -/
def walk (next : A → Option A) : ℕ → Option A → List A
  | 0, _ => []
  | _ + 1, none => []
  | n + 1, some a => a :: walk next n (next a)

theorem follow_none (next : A → Option A) (n : ℕ) : follow next n none = none := by
  cases n <;> rfl

theorem walk_none (next : A → Option A) (n : ℕ) : walk next n none = [] := by
  cases n <;> rfl

namespace Seg

variable {next prev : A → Option A} {pre : Option A} {l : List A}

theorem follow_eq (h : Seg next prev pre l none) (n : ℕ) : follow next n l.head? = l[n]? := by
  induction l generalizing pre n with
  | nil => exact follow_none next n
  | cons a t ih =>
    obtain ⟨-, hn, ht⟩ := h
    cases n with
    | zero => rfl
    | succ n =>
      rw [List.head?_cons, follow, hn, Option.or_none, ih ht, List.getElem?_cons_succ]

theorem walk_eq (h : Seg next prev pre l none) {n : ℕ} (hl : l.length ≤ n) :
    walk next n l.head? = l := by
  induction l generalizing pre n with
  | nil => exact walk_none next n
  | cons a t ih =>
    obtain ⟨-, hn, ht⟩ := h
    cases n with
    | zero => simp at hl
    | succ n =>
      rw [List.head?_cons, walk, hn, Option.or_none, ih ht (by simpa using hl)]

theorem reverse (h : Seg next prev none l none) : Seg prev next none l.reverse none := by
  suffices hgen : ∀ (l : List A) (pre : Option A), Seg next prev pre l none →
      Seg prev next none l.reverse pre from hgen l none h
  intro l
  induction l with
  | nil => exact fun _ _ => trivial
  | cons a t ih =>
    rintro pre ⟨hp, hn, ht⟩
    rw [List.reverse_cons, append_iff]
    refine ⟨by simpa using ih (some a) ht, ?_, ?_, trivial⟩
    · rw [hn]
      simp [List.getLast?_reverse]
    · simpa using hp

end Seg

/-! ## Singly linked lists -/

/-- The records of `l` are linked by `next`, from what `p` points to until `stop`. A pointer
is a value of any type, `ref a` is the one to the record `a`. -/
def Chain {P : Type*} (ref : A → P) (stop : P) (next : A → P) : P → List A → Prop
  | p, [] => p = stop
  | p, a :: t => p = ref a ∧ Chain ref stop next (next a) t

namespace Chain

variable {P : Type*} {ref : A → P} {stop : P} {next next' : A → P} {p : P} {l : List A} {a : A}

@[simp] theorem nil_iff : Chain ref stop next p [] ↔ p = stop := Iff.rfl

@[simp] theorem cons_iff {t : List A} :
    Chain ref stop next p (a :: t) ↔ p = ref a ∧ Chain ref stop next (next a) t := Iff.rfl

theorem congr (h : Chain ref stop next p l) (hn : ∀ x ∈ l, next' x = next x) :
    Chain ref stop next' p l := by
  induction l generalizing p with
  | nil => exact h
  | cons a t ih =>
    refine ⟨h.1, ?_⟩
    rw [hn a (by simp)]
    exact ih h.2 fun x hx => hn x (by simp [hx])

theorem next_of_mem (h : Chain ref stop next p l) (ha : a ∈ l) :
    next a = stop ∨ ∃ b ∈ l, next a = ref b := by
  induction l generalizing p with
  | nil => simp at ha
  | cons c t ih =>
    cases List.mem_cons.mp ha with
    | inl hc =>
      subst hc
      cases t with
      | nil => exact Or.inl h.2
      | cons b r => exact Or.inr ⟨b, by simp, h.2.1⟩
    | inr ht =>
      cases ih h.2 ht with
      | inl hs => exact Or.inl hs
      | inr hb =>
        obtain ⟨b, hb, hn⟩ := hb
        exact Or.inr ⟨b, by simp [hb], hn⟩

end Chain

end PhpRuntime.Lib

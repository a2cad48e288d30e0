import PhpRuntime.Spl.DllistCopy

/-!
# The list as a deque

`Method.onDeque` is the reference deque: what each method returns and what becomes of a
deque of values. `call_spec` says that a method on a list that holds the zvals `d` does the
same to their values.
-/

set_option autoImplicit false

namespace PhpRuntime.Spl

open PhpRuntime.Lib PhpRuntime.Spl.Zvals

variable {ν α β : Type}

/-- A method call on a list, with the arguments `α`. -/
inductive Method (α : Type) where
  | push (value : α)
  | unshift (value : α)
  | pop
  | shift
  | top
  | bottom
  | count
  | offsetGet (index : Index)
  | offsetSet (index : Index) (value : α)
  | offsetUnset (index : Index)

namespace Method

def arg : Method α → Option α
  | push value => some value
  | unshift value => some value
  | offsetSet _ value => some value
  | _ => none

def map (f : α → β) : Method α → Method β
  | push value => push (f value)
  | unshift value => unshift (f value)
  | pop => pop
  | shift => shift
  | top => top
  | bottom => bottom
  | count => count
  | offsetGet index => offsetGet index
  | offsetSet index value => offsetSet index (f value)
  | offsetUnset index => offsetUnset index

def call (emalloc : Emalloc) (m : Memory ν) (intern : DllistObject) :
    Method ZvalAddr → Return ν × Memory ν × DllistObject
  | push value => intern.push emalloc m value
  | unshift value => intern.unshift emalloc m value
  | pop => intern.pop m
  | shift => intern.shift m
  | top => (intern.top m, m, intern)
  | bottom => (intern.bottom m, m, intern)
  | count => (intern.count, m, intern)
  | offsetGet index => (intern.offsetGet m index, m, intern)
  | offsetSet index value => intern.offsetSet emalloc m index value
  | offsetUnset index => intern.offsetUnset m index

/-- A value of the deque, or an exception if there is none. -/
def valueOr (ce : ExceptionClass) (message : String) : Option ν → Return ν
  | none => .exception ce message
  | some v => .value v

/-- The reference deque: the head is the first of the list, and an index is counted from the
head, or from the tail in LIFO mode. -/
def onDeque (lifo : Bool) (q : List ν) : Method ν → Return ν × List ν
  | push value => (.true, q ++ [value])
  | unshift value => (.true, value :: q)
  | pop => (valueOr .RuntimeException "Can't pop from an empty datastructure" q.getLast?, q.dropLast)
  | shift => (valueOr .RuntimeException "Can't shift from an empty datastructure" q.head?, q.tail)
  | top => (valueOr .RuntimeException "Can't peek at an empty datastructure" q.getLast?, q)
  | bottom => (valueOr .RuntimeException "Can't peek at an empty datastructure" q.head?, q)
  | count => (.long q.length, q)
  | offsetGet index =>
    (valueOr .OutOfRangeException "Offset invalid or out of range"
      ((position lifo q.length (splOffsetConvertToLong index)).bind (q[·]?)), q)
  | offsetSet index value =>
    if index = .null then (.null, q ++ [value])
    else
      match position lifo q.length (splOffsetConvertToLong index) with
      | none => (.exception .OutOfRangeException "Offset invalid or out of range", q)
      | some k => (.null, q.set k value)
  | offsetUnset index =>
    match position lifo q.length (splOffsetConvertToLong index) with
    | none => (.exception .OutOfRangeException "Offset out of range", q)
    | some k => (.null, q.eraseIdx k)

end Method

variable {m m' : Memory ν} {llist : Llist} {l : List Addr} {d d' : List ZvalAddr} {z : ZvalAddr}

def Memory.value (m : Memory ν) (z : ZvalAddr) : ν := (m.zvals.zval z).value

/-- The zvals `d` are no references and have the values `q`. -/
structure Values (m : Memory ν) (d : List ZvalAddr) (q : List ν) : Prop where
  plain : ∀ z ∈ d, (m.zvals.zval z).is_ref = false
  value : d.map m.value = q

theorem Values.mem_plain {q : List ν} (h : Values m d q) (hz : z ∈ d) :
    m.zvals.Plain z (m.value z) := ⟨rfl, h.plain z hz⟩

theorem Values.keep {q : List ν} (h : Values m d q)
    (hkeep : ∀ x ∈ d, ∀ v, m.zvals.Plain x v → m'.zvals.Plain x v) : Values m' d q where
  plain := fun z hz => (hkeep z hz _ (h.mem_plain hz)).2
  value := by
    rw [← h.value]
    exact List.map_congr_left fun z hz => (hkeep z hz _ (h.mem_plain hz)).1

section

variable {q : List ν} {v : ν}

theorem Values.append {d' : List ZvalAddr} {q' : List ν} (h : Values m d q)
    (h' : Values m d' q') : Values m (d ++ d') (q ++ q') where
  plain := fun x hx => (List.mem_append.mp hx).elim (h.plain x) (h'.plain x)
  value := by rw [List.map_append, h.value, h'.value]

theorem Values.singleton (h : m.zvals.Plain z v) : Values m [z] [v] where
  plain := fun x hx => by
    rw [List.mem_singleton.mp hx]
    exact h.2
  value := congrArg (fun v => [v]) h.1

theorem Values.set (h : Values m d q) (hz : m.zvals.Plain z v) (k : ℕ) :
    Values m (d.set k z) (q.set k v) where
  plain := fun x hx => (List.mem_or_eq_of_mem_set hx).elim (h.plain x) fun heq => heq ▸ hz.2
  value := by
    rw [List.map_set, h.value]
    exact congrArg (q.set k) hz.1

theorem Values.eraseIdx (h : Values m d q) (k : ℕ) : Values m (d.eraseIdx k) (q.eraseIdx k) where
  plain := fun x hx => h.plain x (List.mem_of_mem_eraseIdx hx)
  value := by rw [← List.eraseIdx_map, h.value]

theorem Values.dropLast (h : Values m d q) : Values m d.dropLast q.dropLast where
  plain := fun x hx => h.plain x (List.mem_of_mem_dropLast hx)
  value := by rw [List.map_dropLast, h.value]

theorem Values.tail (h : Values m d q) : Values m d.tail q.tail where
  plain := fun x hx => h.plain x (List.mem_of_mem_tail hx)
  value := by rw [List.map_tail, h.value]

theorem Values.length_eq (h : Values m d q) : d.length = q.length := by
  rw [← h.value, List.length_map]

theorem Values.getElem? (h : Values m d q) (k : ℕ) : q[k]? = d[k]?.map m.value := by
  rw [← h.value, List.getElem?_map]

theorem Becomes.keep (h : Becomes m m' llist l d d') (hq : Values m d q)
    (hd : ∀ z ∈ d, z ∈ m.zvals.live) : Values m' d q :=
  hq.keep fun x hx v => h.plain x (hd x hx) v

end

theorem peek_eq (m : Memory ν) (p : Option ZvalAddr) :
    DllistObject.peek m p = Method.valueOr .RuntimeException "Can't peek at an empty datastructure"
      (p.map m.value) := by
  cases p <;> rfl

theorem call_spec (emalloc : Emalloc) {intern : DllistObject} {q : List ν}
    (h : Holds m intern.llist l d) (hq : Values m d q) (hd : ∀ z ∈ d, z ∈ m.zvals.live)
    (method : Method ZvalAddr) (harg : ∀ z ∈ method.arg, z ∈ m.zvals.live) :
    let r := method.call emalloc m intern
    let e := (method.map m.value).onDeque intern.lifo q
    r.1 = e.1 ∧ r.2.2 = intern.setLlist r.2.2.llist ∧
      ∃ d', Becomes m r.2.1 r.2.2.llist l d d' ∧ Values r.2.1 d' e.2 := by
  have hlen := hq.length_eq
  cases method with
  | push z =>
    obtain ⟨hret, hobj, hb, hplain⟩ := DllistObject.push_becomes emalloc h (harg z rfl)
    exact ⟨hret, hobj, _, hb, (hb.keep hq hd).append (Values.singleton hplain)⟩
  | unshift z =>
    obtain ⟨hret, hobj, hb, hplain⟩ := DllistObject.unshift_becomes emalloc h (harg z rfl)
    exact ⟨hret, hobj, _, hb, (Values.singleton hplain).append (hb.keep hq hd)⟩
  | pop =>
    rcases List.eq_nil_or_concat' d with rfl | ⟨ds, z, rfl⟩
    · obtain rfl : l = [] := List.eq_nil_of_length_eq_zero h.length_eq
      obtain rfl : q = [] := hq.value.symm
      intro r e
      have hr : r = (.exception .RuntimeException "Can't pop from an empty datastructure", m,
        intern) := DllistObject.pop_empty h
      rw [hr]
      exact ⟨rfl, rfl, [], Becomes.refl h, hq⟩
    · obtain ⟨hret, hobj, hb⟩ := DllistObject.pop_becomes h
      refine ⟨?_, hobj, ds, hb, ?_⟩
      · change (intern.pop m).1 = Method.valueOr _ _ q.getLast?
        rw [← hq.value, List.getLast?_map, List.getLast?_concat]
        exact hret
      · have hvalues := (hb.keep hq hd).dropLast
        rwa [List.dropLast_concat] at hvalues
  | shift =>
    cases d with
    | nil =>
      obtain rfl : l = [] := List.eq_nil_of_length_eq_zero h.length_eq
      obtain rfl : q = [] := hq.value.symm
      intro r e
      have hr : r = (.exception .RuntimeException "Can't shift from an empty datastructure", m,
        intern) := DllistObject.shift_empty h
      rw [hr]
      exact ⟨rfl, rfl, [], Becomes.refl h, hq⟩
    | cons z dt =>
      obtain ⟨hret, hobj, hb⟩ := DllistObject.shift_becomes h
      refine ⟨?_, hobj, dt, hb, (hb.keep hq hd).tail⟩
      change (intern.shift m).1 = Method.valueOr _ _ q.head?
      rw [← hq.value, List.head?_map]
      exact hret
  | top =>
    refine ⟨?_, rfl, d, Becomes.refl h, hq⟩
    change intern.top m = Method.valueOr _ _ q.getLast?
    rw [DllistObject.top_eq h, peek_eq, ← hq.value, List.getLast?_map]
  | bottom =>
    refine ⟨?_, rfl, d, Becomes.refl h, hq⟩
    change intern.bottom m = Method.valueOr _ _ q.head?
    rw [DllistObject.bottom_eq h, peek_eq, ← hq.value, List.head?_map]
  | count =>
    refine ⟨?_, rfl, d, Becomes.refl h, hq⟩
    change Return.long intern.llist.count = .long q.length
    rw [h.count, h.length_eq, hlen]
  | offsetGet index =>
    refine ⟨?_, rfl, d, Becomes.refl h, hq⟩
    change intern.offsetGet m index = Method.valueOr _ _
      ((position intern.lifo q.length (splOffsetConvertToLong index)).bind (q[·]?))
    rw [DllistObject.offsetGet_eq h, hlen]
    cases hk : position intern.lifo q.length (splOffsetConvertToLong index) with
    | none => rfl
    | some k =>
      rw [Option.bind_some, Option.bind_some, hq.getElem?]
      cases d[k]? <;> rfl
  | offsetSet index z =>
    have hz := harg z rfl
    intro r e
    by_cases hindex : index = .null
    · subst hindex
      obtain ⟨hret, hobj, hb, hplain⟩ := DllistObject.offsetSet_null emalloc h hz
      exact ⟨hret, hobj, _, hb, (hb.keep hq hd).append (Values.singleton hplain)⟩
    · have he : e = match position intern.lifo q.length (splOffsetConvertToLong index) with
          | none => (.exception .OutOfRangeException "Offset invalid or out of range", q)
          | some k => (.null, q.set k (m.value z)) := if_neg hindex
      rw [he]
      cases hk : position intern.lifo q.length (splOffsetConvertToLong index) with
      | none =>
        rw [← hlen] at hk
        obtain ⟨hret, hobj, hb⟩ := DllistObject.offsetSet_invalid emalloc h hz hindex hk
        have hobj' : r.2.2 = intern := hobj
        refine ⟨hret, ?_, d, ?_, ?_⟩
        · rw [hobj', DllistObject.setLlist_self]
        · rw [hobj']
          exact hb
        · exact hb.keep hq hd
      | some k =>
        rw [← hlen] at hk
        obtain ⟨hret, hobj, hb, hplain⟩ := DllistObject.offsetSet_becomes emalloc h hz hindex hk
        have hobj' : r.2.2 = intern := hobj
        refine ⟨hret, ?_, _, ?_, (hb.keep hq hd).set hplain k⟩
        · rw [hobj', DllistObject.setLlist_self]
        · rw [hobj']
          exact hb
  | offsetUnset index =>
    intro r e
    have he : e = match position intern.lifo q.length (splOffsetConvertToLong index) with
        | none => (.exception .OutOfRangeException "Offset out of range", q)
        | some k => (.null, q.eraseIdx k) := rfl
    rw [he]
    cases hk : position intern.lifo q.length (splOffsetConvertToLong index) with
    | none =>
      rw [← hlen] at hk
      have hr : r = (.exception .OutOfRangeException "Offset out of range", m, intern) :=
        DllistObject.offsetUnset_invalid h hk
      rw [hr]
      exact ⟨rfl, rfl, d, Becomes.refl h, hq⟩
    | some k =>
      rw [← hlen] at hk
      obtain ⟨hret, hobj, hb⟩ := DllistObject.offsetUnset_becomes h hk
      exact ⟨hret, hobj, _, hb, (hb.keep hq hd).eraseIdx k⟩

end PhpRuntime.Spl

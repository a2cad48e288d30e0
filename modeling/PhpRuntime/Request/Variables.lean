import Mathlib.Data.List.TakeWhile
import PhpRuntime.Request.Arrays
import PhpRuntime.Text.CInt

/-!
# Request variables

`php_register_variable_ex` (`main/php_variables.c`): a name with indexes in brackets says where in
an array of arrays its value is put. The name is read while the arrays are entered; here the places
it names are read on their own, and an assignment puts the value there.
-/

set_option autoImplicit false

namespace PhpRuntime.Request

open PhpRuntime.Hash PhpRuntime.Lib.OrderedMap PhpRuntime.Text

variable {α : Type}

/-! ## The code -/

/-- The index that is looked for next. It is the name of the variable with the `[` right behind it,
or what was between brackets, or `NULL`. -/
inductive Index where
  | var (name : List UInt8)
  | key (index : List UInt8)
  | next

namespace Index

def name : Index → Option (List UInt8)
  | var name => some name
  | key index => some index
  | next => none

/-- The same when the bracket behind it is not closed. The bracket becomes `_`, which goes on the
name of the variable; a string between brackets has ended in front of it. -/
def unclosed (ip : List UInt8) : Index → Option (List UInt8)
  | var name => some (name ++ 95 :: ip)
  | key index => some index
  | next => none

def behind : Option (List UInt8) → Index
  | some index => key index
  | none => next

end Index

/-- `if (isspace(*ip)) ip++;` -/
def skipSpace : List UInt8 → List UInt8
  | [] => []
  | c :: rest => if isspace c then rest else c :: rest

/-- What stands behind a `[`: the index and the text behind its `]`, if there is one. -/
def readIndex (index_s : List UInt8) : Option (Option (List UInt8) × List UInt8) :=
  let ip := skipSpace index_s
  if ip.head? = some 93 then some (none, ip.tail)
  else if 93 ∈ ip then some (some (index_s.takeWhile (· ≠ 93)), (ip.dropWhile (· ≠ 93)).tail)
  else none

/-- From `plain_var` on. `cookies` says that this is the array of the cookies. -/
def Table.plainVar (cookies : Bool) (t : Table (Zval α)) (index : Option (List UInt8)) (val : α) :
    Table (Zval α) :=
  match index with
  | none => t.nextIndexInsert (.scalar val)
  | some index =>
    if cookies = true ∧ t.symtableExists index = true then t
    else t.symtableUpdate index (.scalar val)

/-- The loop over the indexes behind a `[`, in a table, and whether there were too many of them. A
new array is put into the table before it is filled; here it is put there with what it gets. -/
def registerLoop : ℕ → Bool → Table (Zval α) → Index → List UInt8 → α → Table (Zval α) × Bool
  | 0, _, t, _, _, _ => (t, true)
  | levels + 1, cookies, t, index, ip, val =>
    match readIndex ip with
    | none => (t.plainVar cookies (index.unclosed ip) val, false)
    | some (next, rest) =>
      let inner : Table (Zval α) → Table (Zval α) × Bool := fun sub =>
        if rest.head? = some 91 then registerLoop levels false sub (.behind next) rest.tail val
        else (sub.plainVar false next val, false)
      match index.name with
      | none =>
        if t.full then (t, false)
        else (t.nextIndexInsert (.array (inner .empty).1), (inner .empty).2)
      | some name =>
        match t.symtableFind name with
        | some (.array sub) => (t.modify name (.array (inner sub).1), (inner sub).2)
        | _ => (t.symtableUpdate name (.array (inner .empty).1), (inner .empty).2)

/-- Spaces and dots in the name of the variable. -/
def underscore (c : UInt8) : UInt8 := if c = 32 ∨ c = 46 then 95 else c

/-- `"GLOBALS"` -/
def globalsName : List UInt8 := [71, 76, 79, 66, 65, 76, 83]

/-- `php_register_variable_ex` into a table, which may be the symbol table or that of the
cookies. -/
def phpRegisterVariableEx (maxInputNestingLevel : ℤ) (symbols cookies : Bool)
    (varName : List UInt8) (val : α) (t : Table (Zval α)) : Table (Zval α) :=
  let varName := varName.dropWhile (· = 32)
  let var := (varName.takeWhile (· ≠ 91)).map underscore
  if var = [] then t
  else if symbols = true ∧ var = globalsName then t
  else
    match varName.dropWhile (· ≠ 91) with
    | [] => t.plainVar cookies (some var) val
    | _ :: ip =>
      match registerLoop maxInputNestingLevel.toNat cookies t (.var var) ip val with
      | (t, true) => t.symtableDel var
      | (t, false) => t

/-! ## The places that a name says -/

/-- The indexes behind a `[`, with the one in front of it, as far as they are read. -/
def readPath : ℕ → Index → List UInt8 → List (Option (List UInt8)) × Bool
  | 0, _, _ => ([], true)
  | levels + 1, index, ip =>
    match readIndex ip with
    | none => ([index.unclosed ip], false)
    | some (next, rest) =>
      if rest.head? = some 91 then
        (index.name :: (readPath levels (.behind next) rest.tail).1,
          (readPath levels (.behind next) rest.tail).2)
      else ([index.name, next], false)

namespace Table

/-- `t[i] = v` -/
def put (t : Table (Zval α)) (i : Option (List UInt8)) (v : Zval α) : Table (Zval α) :=
  match i with
  | none => t.nextIndexInsert v
  | some key => t.symtableUpdate key v

/-- The array at an index, which is a new one if there is none. -/
def sub (t : Table (Zval α)) (i : Option (List UInt8)) : Table (Zval α) :=
  match i with
  | none => .empty
  | some key =>
    match t.symtableFind key with
    | some (.array sub) => sub
    | _ => .empty

/-- The array at an index is changed, or put there instead of something else. -/
def inside (t : Table (Zval α)) (i : Option (List UInt8)) (f : Table (Zval α) → Table (Zval α)) :
    Table (Zval α) :=
  match i with
  | none => t.nextIndexInsert (.array (f .empty))
  | some key =>
    match t.symtableFind key with
    | some (.array sub) => t.modify key (.array (f sub))
    | _ => t.symtableUpdate key (.array (f .empty))

end Table

/-- `t[i][j]..[k] = v` -/
def assignAt (i : Option (List UInt8)) (is : List (Option (List UInt8))) (val : α)
    (t : Table (Zval α)) : Table (Zval α) :=
  match is with
  | [] => t.put i (.scalar val)
  | j :: js => t.inside i (assignAt j js val)

def makeArrays : List (Option (List UInt8)) → Table (Zval α) → Table (Zval α)
  | [], t => t
  | i :: is, t => t.inside i (makeArrays is)

/-- One of them would be put behind the last index there is. -/
def blocked : List (Option (List UInt8)) → Table (Zval α) → Bool
  | [], _ => false
  | i :: is, t => (i = none && t.full) || blocked is (t.sub i)

/-! ## The code is an assignment -/

theorem plainVar_eq (t : Table (Zval α)) (index : Option (List UInt8)) (val : α) :
    t.plainVar false index val = t.put index (.scalar val) := by
  cases index with
  | none => rfl
  | some index =>
    unfold Table.plainVar
    exact if_neg fun h => Bool.noConfusion h.1

theorem nextIndexInsert_full {t : Table (Zval α)} (h : t.full = true) (v : Zval α) :
    t.nextIndexInsert v = t := by
  unfold Table.nextIndexInsert
  rw [if_pos h, add_of_mem (of_decide_eq_true h)]

theorem registerLoop_succ (levels : ℕ) (t : Table (Zval α)) (index : Index) {ip : List UInt8}
    {next : Option (List UInt8)} {rest : List UInt8} (hread : readIndex ip = some (next, rest))
    (val : α) {f : Table (Zval α) → Table (Zval α)} {g : Table (Zval α) → Bool}
    (hinner : ∀ sub, (if rest.head? = some 91 then
        registerLoop levels false sub (.behind next) rest.tail val
      else (sub.plainVar false next val, false)) = (f sub, g sub)) :
    registerLoop (levels + 1) false t index ip val =
      (t.inside index.name f, !(index.name = none && t.full) && g (t.sub index.name)) := by
  rw [registerLoop, hread]
  dsimp only
  simp only [hinner]
  unfold Table.inside Table.sub
  cases index.name with
  | none =>
    dsimp only
    by_cases hfull : t.full = true
    · rw [if_pos hfull, nextIndexInsert_full hfull, hfull]
      rfl
    · rw [if_neg hfull, Bool.eq_false_iff.mpr hfull]
      simp
  | some name =>
    dsimp only
    cases t.symtableFind name with
    | none => simp
    | some v =>
      cases v with
      | scalar val' => simp
      | array sub => simp

theorem readPath_deep {levels : ℕ} {index : Index} {ip : List UInt8}
    (h : (readPath levels index ip).1 = []) : (readPath levels index ip).2 = true := by
  cases levels with
  | zero => rfl
  | succ levels =>
    rw [readPath] at h
    cases hread : readIndex ip with
    | none =>
      rw [hread] at h
      exact absurd h (List.cons_ne_nil _ _)
    | some read =>
      rw [hread] at h
      dsimp only at h
      split at h
      · exact absurd h (List.cons_ne_nil _ _)
      · exact absurd h (List.cons_ne_nil _ _)

theorem registerLoop_assign {levels : ℕ} {t : Table (Zval α)} {index : Index} {ip : List UInt8}
    {i : Option (List UInt8)} {is : List (Option (List UInt8))}
    (hpath : readPath levels index ip = (i :: is, false)) (val : α) :
    registerLoop levels false t index ip val = (assignAt i is val t, false) := by
  induction levels generalizing t index ip i is with
  | zero =>
    rw [readPath, Prod.mk.injEq] at hpath
    exact absurd hpath.1.symm (List.cons_ne_nil _ _)
  | succ levels ih =>
    rw [readPath] at hpath
    cases hread : readIndex ip with
    | none =>
      rw [hread, Prod.mk.injEq, List.cons.injEq] at hpath
      obtain ⟨⟨rfl, rfl⟩, -⟩ := hpath
      rw [registerLoop, hread]
      dsimp only
      rw [plainVar_eq, assignAt]
    | some read =>
      obtain ⟨next, rest⟩ := read
      rw [hread] at hpath
      dsimp only at hpath
      by_cases hrest : rest.head? = some 91
      · rw [if_pos hrest, Prod.mk.injEq, List.cons.injEq] at hpath
        obtain ⟨⟨rfl, his⟩, hdeep⟩ := hpath
        cases is with
        | nil => exact absurd (readPath_deep his) (by rw [hdeep]; decide)
        | cons j js =>
          have hinner := registerLoop_succ levels t index hread val (f := assignAt j js val)
            (g := fun _ => false) fun sub => by rw [if_pos hrest, ih (Prod.ext his hdeep)]
          rw [hinner, Bool.and_false]
          rfl
      · rw [if_neg hrest, Prod.mk.injEq, List.cons.injEq] at hpath
        obtain ⟨⟨rfl, rfl⟩, -⟩ := hpath
        have hinner := registerLoop_succ levels t index hread val (f := assignAt next [] val)
          (g := fun _ => false) fun sub => by rw [if_neg hrest, plainVar_eq]; rfl
        rw [hinner, Bool.and_false]
        rfl

theorem registerLoop_deep {levels : ℕ} {t : Table (Zval α)} {index : Index} {ip : List UInt8}
    {is : List (Option (List UInt8))} (hpath : readPath levels index ip = (is, true)) (val : α) :
    registerLoop levels false t index ip val = (makeArrays is t, !blocked is t) := by
  induction levels generalizing t index ip is with
  | zero =>
    rw [readPath, Prod.mk.injEq] at hpath
    rw [← hpath.1]
    rfl
  | succ levels ih =>
    rw [readPath] at hpath
    cases hread : readIndex ip with
    | none =>
      rw [hread, Prod.mk.injEq] at hpath
      cases hpath.2
    | some read =>
      obtain ⟨next, rest⟩ := read
      rw [hread] at hpath
      dsimp only at hpath
      by_cases hrest : rest.head? = some 91
      · rw [if_pos hrest, Prod.mk.injEq] at hpath
        obtain ⟨rfl, hdeep⟩ := hpath
        have hinner := registerLoop_succ levels t index hread val
          (f := makeArrays (readPath levels (.behind next) rest.tail).1)
          (g := fun sub => !blocked (readPath levels (.behind next) rest.tail).1 sub)
          fun sub => by rw [if_pos hrest, ih (Prod.ext rfl hdeep)]
        rw [hinner, ← Bool.not_or]
        rfl
      · rw [if_neg hrest, Prod.mk.injEq] at hpath
        cases hpath.2

/-! ## Names with indexes in brackets -/

/-- The index that a key in brackets is: none if it is empty or a single white space. -/
def indexOf (k : List UInt8) : Option (List UInt8) :=
  if k.length ≤ 1 ∧ k.all isspace then none else some k

def brackets (ks : List (List UInt8)) : List UInt8 := ks.flatMap fun k => 91 :: (k ++ [93])

theorem brackets_cons (k : List UInt8) (ks : List (List UInt8)) :
    brackets (k :: ks) = 91 :: (k ++ 93 :: brackets ks) := by
  rw [brackets, List.flatMap_cons]
  simp [brackets]

theorem takeWhile_before {c : UInt8} {k : List UInt8} (h : c ∉ k) (rest : List UInt8) :
    (k ++ c :: rest).takeWhile (· ≠ c) = k := by
  have hall : ∀ x ∈ k, decide (x ≠ c) = true :=
    fun x hx => decide_eq_true fun heq : x = c => h (heq ▸ hx)
  rw [List.takeWhile_append_of_pos hall]
  simp

theorem dropWhile_before {c : UInt8} {k : List UInt8} (h : c ∉ k) (rest : List UInt8) :
    (k ++ c :: rest).dropWhile (· ≠ c) = c :: rest := by
  have hall : ∀ x ∈ k, decide (x ≠ c) = true :=
    fun x hx => decide_eq_true fun heq : x = c => h (heq ▸ hx)
  rw [List.dropWhile_append_of_pos hall]
  simp

theorem head_before {c : UInt8} {k : List UInt8} (h : c ∉ k) (hne : k ≠ []) (rest : List UInt8) :
    (k ++ c :: rest).head? ≠ some c := by
  cases k with
  | nil => exact absurd rfl hne
  | cons d k =>
    intro heq
    exact h (Option.some.inj heq ▸ List.mem_cons_self)

theorem readIndex_key {k : List UInt8} (hk : 93 ∉ k) (rest : List UInt8) :
    readIndex (k ++ 93 :: rest) = some (indexOf k, rest) := by
  unfold readIndex indexOf
  cases k with
  | nil =>
    have hspace : ¬ isspace 93 = true := by decide
    have hskip : skipSpace ([] ++ 93 :: rest) = 93 :: rest := by
      rw [List.nil_append, skipSpace, if_neg hspace]
    have hindex : ([] : List UInt8).length ≤ 1 ∧ ([] : List UInt8).all isspace = true :=
      ⟨Nat.zero_le 1, List.all_nil⟩
    rw [hskip, if_pos List.head?_cons, if_pos hindex]
    rfl
  | cons c k =>
    have hk' : 93 ∉ k := fun h => hk (List.mem_cons_of_mem c h)
    by_cases hspace : isspace c = true
    · have hskip : skipSpace (c :: k ++ 93 :: rest) = k ++ 93 :: rest := if_pos hspace
      rw [hskip]
      by_cases hnil : k = []
      · subst hnil
        rw [if_pos (show ([c] : List UInt8).length ≤ 1 ∧ [c].all isspace = true by
          simpa using hspace)]
        rfl
      · have hpos := List.length_pos_iff.mpr hnil
        rw [if_neg (head_before hk' hnil rest),
          if_pos (List.mem_append_right k List.mem_cons_self), dropWhile_before hk',
          takeWhile_before hk, if_neg fun h => by rw [List.length_cons] at h; omega]
        rfl
    · have hskip : skipSpace (c :: k ++ 93 :: rest) = c :: k ++ 93 :: rest := if_neg hspace
      rw [hskip, if_neg (head_before hk (List.cons_ne_nil c k) rest),
        if_pos (List.mem_append_right _ List.mem_cons_self), dropWhile_before hk,
        takeWhile_before hk, if_neg fun h => hspace (List.all_eq_true.mp h.2 c List.mem_cons_self)]
      rfl

theorem name_behind (i : Option (List UInt8)) : (Index.behind i).name = i := by
  cases i with
  | none => rfl
  | some index => rfl

theorem readPath_brackets {k : List UInt8} {ks : List (List UInt8)} (hk : ∀ x ∈ k :: ks, 93 ∉ x)
    (levels : ℕ) (index : Index) :
    readPath levels index (k ++ 93 :: brackets ks) =
      if (k :: ks).length ≤ levels then (index.name :: (k :: ks).map indexOf, false)
      else ((index.name :: (k :: ks).map indexOf).take levels, true) := by
  induction levels generalizing k ks index with
  | zero =>
    rw [if_neg (by simp)]
    rfl
  | succ levels ih =>
    rw [readPath, readIndex_key (hk k List.mem_cons_self)]
    dsimp only
    cases ks with
    | nil =>
      rw [if_neg (by simp [brackets]), if_pos (by simp)]
      rfl
    | cons k₂ ks =>
      rw [brackets_cons, List.head?_cons, if_pos rfl, List.tail_cons,
        ih (fun x hx => hk x (List.mem_cons_of_mem k hx)), name_behind]
      by_cases hle : (k₂ :: ks).length ≤ levels
      · rw [if_pos hle, if_pos (by simpa using hle)]
        rfl
      · rw [if_neg hle, if_neg (by simpa using hle)]
        rfl

/-! ## The array after a sequence of registrations -/

/-- A name `base[k1]...[kn]` and its value. -/
structure Entry (α : Type) where
  base : List UInt8
  keys : List (List UInt8)
  val : α

namespace Entry

def name (e : Entry α) : List UInt8 := e.base ++ brackets e.keys

/-- The name of the variable: without leading spaces, with underscores for spaces and dots. -/
def var (e : Entry α) : List UInt8 := (e.base.dropWhile (· = 32)).map underscore

/-- A name in front of the brackets, which is not empty, and keys that their brackets close. -/
structure Named (e : Entry α) : Prop where
  base_ne_nil : e.base ≠ []
  base_open : 91 ∉ e.base
  keys_closed : ∀ k ∈ e.keys, 93 ∉ k

/-- The assignment that the name says, in an array of at most so many levels. A name that is deeper
stores no value and removes the entry of the variable, unless there is no next index on the way. -/
def assign (maxInputNestingLevel : ℤ) (t : Table (Zval α)) (e : Entry α) : Table (Zval α) :=
  if (e.keys.length : ℤ) ≤ max 0 maxInputNestingLevel then
    assignAt (some e.var) (e.keys.map indexOf) e.val t
  else
    let is := (some e.var :: e.keys.map indexOf).take maxInputNestingLevel.toNat
    if blocked is t = true then makeArrays is t else (makeArrays is t).symtableDel e.var

end Entry

theorem dropWhile_append {p : UInt8 → Bool} {s : List UInt8} (h : ∃ c ∈ s, p c = false)
    (rest : List UInt8) : (s ++ rest).dropWhile p = s.dropWhile p ++ rest := by
  induction s with
  | nil =>
    obtain ⟨c, hc, -⟩ := h
    cases hc
  | cons d s ih =>
    rw [List.cons_append, List.dropWhile_cons, List.dropWhile_cons]
    by_cases hd : p d = true
    · rw [if_pos hd, if_pos hd]
      obtain ⟨c, hc, hpc⟩ := h
      refine ih ⟨c, ?_, hpc⟩
      rcases List.mem_cons.mp hc with rfl | hc
      · rw [hd] at hpc
        cases hpc
      · exact hc
    · rw [if_neg hd, if_neg hd]
      rfl

theorem split_name {base : List UInt8} (hbase : 91 ∉ base) (ks : List (List UInt8)) :
    (base ++ brackets ks).takeWhile (· ≠ 91) = base ∧
      (base ++ brackets ks).dropWhile (· ≠ 91) = brackets ks := by
  cases ks with
  | nil =>
    have hall : ∀ x ∈ base, decide (x ≠ 91) = true :=
      fun x hx => decide_eq_true fun heq : x = 91 => hbase (heq ▸ hx)
    have hnil : brackets [] = [] := rfl
    rw [hnil, List.append_nil]
    exact ⟨List.takeWhile_eq_self_iff.mpr hall, List.dropWhile_eq_nil_iff.mpr hall⟩
  | cons k ks =>
    rw [brackets_cons]
    exact ⟨takeWhile_before hbase _, dropWhile_before hbase _⟩

theorem phpRegisterVariableEx_assign (maxInputNestingLevel : ℤ) {e : Entry α} (h : e.Named)
    (hspaces : ∃ c ∈ e.base, c ≠ 32) (t : Table (Zval α)) :
    phpRegisterVariableEx maxInputNestingLevel false false e.name e.val t =
      e.assign maxInputNestingLevel t := by
  have hspaces' : ∃ c ∈ e.base, (decide (c = 32)) = false := by
    obtain ⟨c, hc, hne⟩ := hspaces
    exact ⟨c, hc, decide_eq_false hne⟩
  have hbase : 91 ∉ e.base.dropWhile (· = 32) :=
    fun hmem => h.base_open (List.dropWhile_subset _ hmem)
  have hvar : e.var ≠ [] := by
    intro hnil
    have hdrop := List.map_eq_nil_iff.mp hnil
    rw [List.dropWhile_eq_nil_iff] at hdrop
    obtain ⟨c, hc, hne⟩ := hspaces
    exact hne (of_decide_eq_true (hdrop c hc))
  obtain ⟨htake, hdrop⟩ := split_name hbase e.keys
  unfold phpRegisterVariableEx Entry.name
  rw [dropWhile_append hspaces']
  dsimp only
  rw [htake, hdrop]
  change (if e.var = [] then t else _) = _
  rw [if_neg hvar, if_neg fun hglobals => Bool.noConfusion hglobals.1]
  unfold Entry.assign
  cases hkeys : e.keys with
  | nil =>
    have hnil : brackets [] = [] := rfl
    rw [hnil, if_pos (by simp)]
    exact plainVar_eq t (some e.var) e.val
  | cons k ks =>
    rw [brackets_cons]
    dsimp only
    have hpath := readPath_brackets (hkeys ▸ h.keys_closed) maxInputNestingLevel.toNat
      (.var e.var)
    by_cases hle : (k :: ks).length ≤ maxInputNestingLevel.toNat
    · rw [if_pos hle] at hpath
      rw [if_pos (by omega)]
      change (match registerLoop _ false t (.var e.var) _ e.val with
        | (t, true) => t.symtableDel e.var
        | (t, false) => t) = _
      rw [registerLoop_assign hpath]
      rfl
    · rw [if_neg hle] at hpath
      rw [if_neg (by omega)]
      change (match registerLoop _ false t (.var e.var) _ e.val with
        | (t, true) => t.symtableDel e.var
        | (t, false) => t) = _
      rw [registerLoop_deep hpath]
      change _ = if blocked ((Index.var e.var).name :: (k :: ks).map indexOf |>.take _) t = true
        then _ else _
      cases blocked _ t with
      | true => rfl
      | false => rfl

end PhpRuntime.Request

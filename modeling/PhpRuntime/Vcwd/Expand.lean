import PhpRuntime.Lib.LexicalPath
import PhpRuntime.Vcwd.RealPath

/-!
# Path expansion

With `CWD_EXPAND` and without application roots `tsrm_realpath_r` asks neither the file system nor
the cache. What it leaves in the buffer is the lexical normal form of the path.
-/

set_option autoImplicit false

namespace PhpRuntime.Vcwd

open PhpRuntime.Lib

/-! ### The scans for a slash -/

theorem componentStart_le (path : ℕ → UInt8) (start len : ℕ) :
    componentStart path start len ≤ len := by
  induction len with
  | zero => simp [componentStart]
  | succ len ih =>
    rw [componentStart]
    split <;> omega

theorem componentStart_spec (path : ℕ → UInt8) {start len : ℕ} (h : start ≤ len) :
    start ≤ componentStart path start len ∧
      (∀ k, componentStart path start len ≤ k → k < len → path k ≠ slash) ∧
      (componentStart path start len = start ∨
        path (componentStart path start len - 1) = slash) := by
  induction len with
  | zero => exact ⟨by omega, fun k _ hk => by omega, .inl (by simp [componentStart]; omega)⟩
  | succ len ih =>
    rw [componentStart]
    split
    · rename_i hgo
      obtain ⟨hle, hfree, hend⟩ := ih (by omega)
      refine ⟨hle, ?_, hend⟩
      intro k hk hlt
      by_cases hlast : k = len
      · exact hlast ▸ hgo.2
      · exact hfree k hk (by omega)
    · rename_i hstop
      refine ⟨h, fun k hk hlt => by omega, ?_⟩
      by_cases hstart : start < len + 1
      · right
        by_contra hslash
        exact hstop ⟨hstart, hslash⟩
      · left
        omega

theorem parentEnd_eq (path : ℕ → UInt8) {start m j : ℕ} (hm : start ≤ m) (hj : m ≤ j)
    (hfree : ∀ k, m < k → k ≤ j → path k ≠ slash) (hend : m = start ∨ path m = slash) :
    parentEnd path start j = m := by
  induction j with
  | zero => rw [parentEnd]; omega
  | succ j ih =>
    rw [parentEnd]
    by_cases hmj : m = j + 1
    · subst hmj
      rw [if_neg]
      rintro ⟨hlt, hslash⟩
      rcases hend with hend | hend
      · omega
      · exact hslash hend
    · rw [if_pos ⟨by omega, hfree (j + 1) (by omega) (by omega)⟩]
      exact ih (by omega) fun k hk hle => hfree k hk (by omega)

/-! ### The last component -/

theorem pathNames_component {path : ByteBuffer} {absolute : Bool} {len i : ℕ}
    (hlen : absolute.toNat < len) (hroot : absolute = true → path.cell 0 = slash)
    (hi : componentStart path.cell absolute.toNat len = i) :
    pathNames slash dot (path.bytes 0 len) =
      pathNames slash dot (path.bytes 0 (i - 1)) ++
        pathNames slash dot (path.bytes i (len - i)) := by
  have hle := componentStart_le path.cell absolute.toNat len
  obtain ⟨-, -, hend⟩ := componentStart_spec path.cell (Nat.le_of_lt hlen)
  rw [hi] at hle hend
  cases i with
  | zero => simp
  | succ i =>
    have hslash : path.cell i = slash := by
      rcases hend with hend | hend
      · cases absolute with
        | false => cases hend
        | true =>
          obtain rfl : i = 0 := by simpa using hend
          exact hroot rfl
      · exact hend
    have hsplit : path.bytes 0 len =
        path.bytes 0 i ++ slash :: path.bytes (i + 1) (len - (i + 1)) := by
      calc path.bytes 0 len = path.bytes 0 (i + ((len - (i + 1)) + 1)) := by
            congr 1
            omega
        _ = path.bytes 0 i ++ slash :: path.bytes (i + 1) (len - (i + 1)) := by
            rw [ByteBuffer.bytes_add, ByteBuffer.bytes_succ, Nat.zero_add, hslash]
    rw [hsplit, pathNames_append_slash, Nat.add_sub_cancel]

theorem slash_not_mem_component {path : ByteBuffer} {start len i : ℕ} (hlen : start ≤ len)
    (hi : componentStart path.cell start len = i) : slash ∉ path.bytes i (len - i) := by
  obtain ⟨-, hfree, -⟩ := componentStart_spec path.cell hlen
  intro hmem
  obtain ⟨k, hk, hslash⟩ := List.getElem_of_mem hmem
  rw [ByteBuffer.getElem_bytes] at hslash
  rw [ByteBuffer.length_bytes] at hk
  exact hfree (i + k) (by omega) (by omega) hslash

/-! ### The effect of `..` -/

/-- What the buffer holds behind a call: the path that is rendered from some names, and, where
a `..` would be added behind another one, a slash behind it. -/
structure Holds (path : ByteBuffer) (absolute : Bool) (names : List (List UInt8)) : Prop where
  bytes : path.bytes 0 (renderPath slash absolute names).length = renderPath slash absolute names
  after : absolute = false → names.getLast? = some [dot, dot] →
    path.cell (renderPath slash absolute names).length = slash

/-- Where the last of some names is in the buffer. -/
structure LastName (path : ByteBuffer) (absolute : Bool) (front : List (List UInt8))
    (name : List UInt8) (base : ℕ) : Prop where
  length : (renderPath slash absolute (front ++ [name])).length = base + name.length
  cell : ∀ x (hx : x < name.length), path.cell (base + x) = name[x]
  base_nil : front = [] → base = absolute.toNat
  base_cons : front ≠ [] → base = (renderPath slash absolute front).length + 1
  slash_before : front ≠ [] → path.cell (renderPath slash absolute front).length = slash
  pos : front ≠ [] → 0 < (renderPath slash absolute front).length
  bytes : path.bytes 0 (renderPath slash absolute front).length = renderPath slash absolute front

theorem Holds.lastName {path : ByteBuffer} {absolute : Bool} {front : List (List UInt8)}
    {name : List UInt8} (h : Holds path absolute (front ++ [name]))
    (hnames : ∀ name ∈ front, IsName slash dot name) :
    ∃ base, LastName path absolute front name base := by
  have hbytes := h.bytes
  by_cases hfront : front = []
  · subst hfront
    have hroot : (if absolute then [slash] else []).length = absolute.toNat := by
      cases absolute <;> rfl
    rw [List.nil_append, renderPath_singleton] at hbytes
    obtain ⟨hpre, hname⟩ := ByteBuffer.bytes_eq_append hbytes
    rw [hroot, Nat.zero_add] at hname
    refine ⟨absolute.toNat, ⟨?_, ByteBuffer.cell_of_bytes_eq hname, fun _ => rfl, fun h => absurd rfl h,
      fun h => absurd rfl h, fun h => absurd rfl h, by rw [renderPath_nil]; exact hpre⟩⟩
    rw [List.nil_append, renderPath_singleton, List.length_append, hroot]
  · rw [renderPath_append_singleton _ _ hfront, List.append_cons] at hbytes
    obtain ⟨hpre, hname⟩ := ByteBuffer.bytes_eq_append hbytes
    obtain ⟨hfrontBytes, hslash⟩ := ByteBuffer.bytes_eq_append hpre
    rw [Nat.zero_add, List.length_append, List.length_singleton] at hname
    rw [Nat.zero_add, List.length_singleton, ByteBuffer.bytes_succ, ByteBuffer.bytes_zero_right]
      at hslash
    refine ⟨(renderPath slash absolute front).length + 1, ⟨?_, ByteBuffer.cell_of_bytes_eq hname,
      fun h => absurd h hfront, fun _ => rfl, fun _ => List.head_eq_of_cons_eq hslash,
      fun _ => List.length_pos_iff.2 fun hnil => hfront (renderPath_eq_nil hnames hnil).2,
      hfrontBytes⟩⟩
    rw [renderPath_append_singleton _ _ hfront, List.length_append, List.length_cons]
    omega

theorem LastName.parentEnd {path : ByteBuffer} {absolute : Bool} {front : List (List UInt8)}
    {name : List UInt8} {base : ℕ} (h : LastName path absolute front name base)
    (hname : IsName slash dot name) :
    parentEnd path.cell absolute.toNat (base + name.length - 1) =
      (renderPath slash absolute front).length := by
  have hpos : 0 < name.length := List.length_pos_iff.2 hname.ne_nil
  have hfree : ∀ k, base ≤ k → k ≤ base + name.length - 1 → path.cell k ≠ slash := by
    intro k hk hle hslash
    have hcell := h.cell (k - base) (by omega)
    rw [Nat.add_sub_cancel' hk, hslash] at hcell
    exact hname.slash_not_mem (hcell ▸ List.getElem_mem _)
  by_cases hfront : front = []
  · have hbase := h.base_nil hfront
    subst hfront
    have hroot : (renderPath slash absolute ([] : List (List UInt8))).length = absolute.toNat := by
      cases absolute <;> rfl
    rw [hroot]
    exact parentEnd_eq _ (Nat.le_refl _) (by omega) (fun k hk hle => hfree k (by omega) hle)
      (.inl rfl)
  · have hbase := h.base_cons hfront
    have hstart : absolute.toNat ≤ (renderPath slash absolute front).length := by
      cases absolute with
      | false => exact Nat.zero_le _
      | true => simp [renderPath]
    exact parentEnd_eq _ hstart (by omega) (fun k hk hle => hfree k (by omega) hle)
      (.inr (h.slash_before hfront))

theorem LastName.not_dotdot {path : ByteBuffer} {absolute : Bool} {front : List (List UInt8)}
    {name : List UInt8} {base : ℕ} (h : LastName path absolute front name base)
    (hname : IsName slash dot name) (hne : name ≠ [dot, dot]) :
    ¬ (path.cell base = dot ∧ path.cell (base + 1) = dot ∧ path.cell (base + 2) = slash) := by
  rintro ⟨h0, h1, h2⟩
  have hcell := h.cell
  match name, hname, hne, hcell with
  | [], hname, _, _ => exact hname.ne_nil rfl
  | [a], hname, _, hcell =>
    have ha : path.cell base = a := hcell 0 (by simp)
    exact hname.ne_dot (by rw [← ha, h0])
  | [a, b], _, hne, hcell =>
    have ha : path.cell base = a := hcell 0 (by simp)
    have hb : path.cell (base + 1) = b := hcell 1 (by simp)
    exact hne (by rw [← ha, ← hb, h0, h1])
  | a :: b :: c :: rest, hname, _, hcell =>
    have hc : path.cell (base + 2) = c := hcell 2 (by simp)
    exact hname.slash_not_mem (by simp [← hc, h2])

/-- What `removeLast` does to names in the buffer. -/
structure Removed (absolute : Bool) (names : List (List UInt8)) (path : ByteBuffer)
    (result : ℕ × ByteBuffer) : Prop where
  ret : result.1 =
    (renderPath slash absolute (resolveName dot (!absolute) names [dot, dot])).length
  holds : Holds result.2 absolute (resolveName dot (!absolute) names [dot, dot])
  written : result.2.written ≤ max path.written (result.1 + 1)
  length : result.1 ≤ (renderPath slash absolute names).length + 3

theorem removeLast_nil {path : ByteBuffer} {absolute : Bool} (h : Holds path absolute []) :
    Removed absolute [] path (removeLast absolute.toNat path absolute.toNat) := by
  cases absolute with
  | true =>
    exact ⟨rfl, h, Nat.le_max_left _ _, by simp [removeLast]⟩
  | false =>
    have hnew : renderPath slash false (resolveName dot (!false) [] [dot, dot]) = [dot, dot] := by
      simp [resolveName, renderPath]
    refine ⟨by rw [hnew]; rfl, ⟨?_, ?_⟩, ?_, by simp [removeLast]⟩
    · rw [hnew]
      simp [removeLast, ByteBuffer.bytes_succ, ByteBuffer.cell_set]
    · intro _ _
      rw [hnew]
      simp [removeLast]
    · simp [removeLast]

theorem holds_append_dotdot {path : ByteBuffer} {names : List (List UInt8)} (hne : names ≠ [])
    (h : Holds path false names) (hlast : names.getLast? = some [dot, dot]) {n : ℕ}
    (hn : n = (renderPath slash false names).length) :
    Holds (((path.set (n + 1) dot).set (n + 2) dot).set (n + 3) slash) false
      (names ++ [[dot, dot]]) := by
  have hrender : renderPath slash false (names ++ [[dot, dot]]) =
      renderPath slash false names ++ [slash, dot, dot] :=
    renderPath_append_singleton false [dot, dot] hne
  have hlen : (renderPath slash false (names ++ [[dot, dot]])).length = n + 3 := by
    rw [hrender, List.length_append, hn]
    rfl
  refine ⟨?_, fun _ _ => by rw [hlen, ByteBuffer.cell_set_self]⟩
  have hafter := h.after rfl hlast
  rw [← hn] at hafter
  rw [hlen, ByteBuffer.bytes_add, ByteBuffer.bytes_set_of_le _ _ (by omega),
    ByteBuffer.bytes_set_of_le _ _ (by omega), ByteBuffer.bytes_set_of_le _ _ (by omega), hrender,
    hn, h.bytes, ← hn]
  simp [ByteBuffer.bytes_succ, ByteBuffer.cell_set, hafter]

theorem removeLast_dotdot {path : ByteBuffer} {front : List (List UInt8)} {n base : ℕ}
    (hn : n = (renderPath slash false (front ++ [[dot, dot]])).length)
    (h : LastName path false front [dot, dot] base) (hafter : path.cell n = slash)
    (hend : parentEnd path.cell 0 (n - 1) = (renderPath slash false front).length) :
    removeLast 0 path n =
      (n + 3, ((path.set (n + 1) dot).set (n + 2) dot).set (n + 3) slash) := by
  have hlen := h.length
  have h0 := h.cell 0 (by simp)
  have h1 := h.cell 1 (by simp)
  simp only [List.length_cons, List.length_nil] at hlen
  rw [removeLast, if_pos (by omega), hend, if_pos rfl]
  by_cases hfront : front = []
  · obtain rfl : base = 0 := h.base_nil hfront
    obtain rfl : n = 2 := by omega
    subst hfront
    rw [if_pos ⟨rfl, h0, h1, hafter⟩]
  · have hbase := h.base_cons hfront
    have hpos := h.pos hfront
    rw [if_neg fun hc => Nat.ne_of_gt hpos hc.1, if_pos]
    · rw [show (renderPath slash false front).length + 6 = n + 3 by omega,
        show (renderPath slash false front).length + 5 = n + 2 by omega,
        show (renderPath slash false front).length + 4 = n + 1 by omega]
    · rw [← hbase, show (renderPath slash false front).length + 2 = base + 1 by omega,
        show (renderPath slash false front).length + 3 = n by omega]
      exact ⟨hpos, h0, h1, hafter⟩

theorem removeLast_name {path : ByteBuffer} {absolute : Bool} {front : List (List UInt8)}
    {name : List UInt8} {n base : ℕ} (h : LastName path absolute front name base)
    (hname : IsName slash dot name) (hne : name ≠ [dot, dot]) (hn : absolute.toNat < n)
    (hend : parentEnd path.cell absolute.toNat (n - 1) =
      (renderPath slash absolute front).length) :
    removeLast absolute.toNat path n = ((renderPath slash absolute front).length, path) := by
  have hdots := h.not_dotdot hname hne
  rw [removeLast, if_pos hn, hend]
  cases absolute with
  | true => rfl
  | false =>
    rw [if_pos (by rfl)]
    by_cases hfront : front = []
    · obtain rfl : base = 0 := h.base_nil hfront
      subst hfront
      rw [if_neg fun hc => hdots hc.2, if_neg fun hc => Nat.lt_irrefl 0 hc.1]
    · have hbase := h.base_cons hfront
      rw [if_neg fun hc => Nat.ne_of_gt (h.pos hfront) hc.1, if_neg]
      rw [show (renderPath slash false front).length + 2 = base + 1 by omega,
        show (renderPath slash false front).length + 3 = base + 2 by omega, ← hbase]
      exact fun hc => hdots hc.2

theorem removeLast_append {path : ByteBuffer} {absolute : Bool} {front : List (List UInt8)}
    {name : List UInt8} (h : Holds path absolute (front ++ [name]))
    (hnames : ∀ name ∈ front, IsName slash dot name) (hname : IsName slash dot name)
    (hdots : absolute = true → name ≠ [dot, dot]) :
    Removed absolute (front ++ [name]) path
      (removeLast absolute.toNat path (renderPath slash absolute (front ++ [name])).length) := by
  obtain ⟨base, hlast⟩ := h.lastName hnames
  have hpos : 0 < name.length := List.length_pos_iff.2 hname.ne_nil
  have hbase : absolute.toNat ≤ base := by
    by_cases hfront : front = []
    · exact Nat.le_of_eq (hlast.base_nil hfront).symm
    · rw [hlast.base_cons hfront]
      cases absolute <;> simp
  have hend := hlast.parentEnd hname
  rw [← hlast.length] at hend
  by_cases hdot : name = [dot, dot]
  · subst hdot
    obtain rfl : absolute = false := by simpa using hdots
    have hlast? : (front ++ [[dot, dot]]).getLast? = some [dot, dot] := by simp
    have hnew : resolveName dot (!false) (front ++ [[dot, dot]]) [dot, dot] =
        front ++ [[dot, dot]] ++ [[dot, dot]] := by
      simp [resolveName]
    rw [Bool.toNat_false, removeLast_dotdot rfl hlast (h.after rfl hlast?) hend]
    refine ⟨?_, hnew ▸ holds_append_dotdot (by simp) h hlast? rfl, by simp, by simp⟩
    have hrender : renderPath slash false (front ++ [[dot, dot]] ++ [[dot, dot]]) =
        renderPath slash false (front ++ [[dot, dot]]) ++ [slash, dot, dot] :=
      renderPath_append_singleton false [dot, dot] (by simp)
    rw [hnew, hrender, List.length_append]
    rfl
  · have hnew : resolveName dot (!absolute) (front ++ [name]) [dot, dot] = front := by
      simp [resolveName, hdot]
    rw [removeLast_name hlast hname hdot (by rw [hlast.length]; omega) hend]
    refine ⟨by rw [hnew], ⟨by rw [hnew]; exact hlast.bytes, ?_⟩, Nat.le_max_left _ _, ?_⟩
    · rw [hnew]
      intro _ hdotdot
      exact hlast.slash_before (by rintro rfl; simp at hdotdot)
    · rw [hlast.length]
      by_cases hfront : front = []
      · subst hfront
        cases absolute <;> simp_all
      · have := hlast.base_cons hfront
        omega

/-! ### The recursion -/

section Recursion

variable {g : Globals} {absolute : Bool}

/-- The names that the first `len` bytes of a path are resolved to. -/
def namesOf (absolute : Bool) (path : ByteBuffer) (len : ℕ) : List (List UInt8) :=
  resolveNames dot (!absolute) (pathNames slash dot (path.bytes 0 len))

theorem isName_of_mem_namesOf {path : ByteBuffer} {len : ℕ} :
    ∀ name ∈ namesOf absolute path len, IsName slash dot name :=
  fun _ => isName_of_mem_resolved

theorem dotdot_not_mem_namesOf {path : ByteBuffer} {len : ℕ} (h : absolute = true) :
    [dot, dot] ∉ namesOf absolute path len := by
  subst h
  exact dotdot_not_mem_resolveNames _

/-- What a call with `CWD_EXPAND` does with the first `len` bytes of a path. -/
structure Expanded (absolute : Bool) (len : ℕ) (w : Walk) (a : Answer) : Prop where
  ret : a.ret = some (renderPath slash absolute (namesOf absolute w.path len)).length
  bytes : a.walk.path.bytes 0 (renderPath slash absolute (namesOf absolute w.path len)).length =
    renderPath slash absolute (namesOf absolute w.path len)
  after : w.path.cell len = slash → Holds a.walk.path absolute (namesOf absolute w.path len)
  length : (renderPath slash absolute (namesOf absolute w.path len)).length ≤
    max absolute.toNat len
  written : a.walk.path.written ≤ max w.path.written (len + 1)
  cache : a.walk.cache = w.cache

theorem length_renderPath_nil (absolute : Bool) :
    (renderPath slash absolute ([] : List (List UInt8))).length = absolute.toNat := by
  cases absolute <;> rfl

theorem bytes_root {path : ByteBuffer} (hroot : absolute = true → path.cell 0 = slash) :
    path.bytes 0 absolute.toNat = renderPath slash absolute [] := by
  cases absolute with
  | false => simp
  | true => simp [ByteBuffer.bytes_succ, hroot rfl]

theorem expanded_start {len : ℕ} {w : Walk} (link_is_dir : Option Bool)
    (hroot : absolute = true → w.path.cell 0 = slash)
    (hnames : namesOf absolute w.path len = []) :
    Expanded absolute len w ⟨some absolute.toNat, link_is_dir, w⟩ := by
  have hlen := length_renderPath_nil absolute
  have hbytes := bytes_root hroot
  rw [← hlen] at hbytes
  refine ⟨by rw [hnames, hlen], by rw [hnames]; exact hbytes, fun _ => ?_,
    by rw [hnames, hlen]; exact Nat.le_max_left _ _, Nat.le_max_left _ _, rfl⟩
  rw [hnames]
  exact ⟨hbytes, fun _ h => by cases h⟩

theorem namesOf_congr {path other : ByteBuffer} {len : ℕ}
    (h : ∀ k, k < len → path.cell k = other.cell k) :
    namesOf absolute path len = namesOf absolute other len := by
  have hbytes : path.bytes 0 len = other.bytes 0 len :=
    ByteBuffer.bytes_congr fun k hk => by rw [Nat.zero_add, h k hk]
  rw [namesOf, hbytes, namesOf]

theorem namesOf_skip {path : ByteBuffer} {len i : ℕ} (hlen : absolute.toNat < len)
    (hroot : absolute = true → path.cell 0 = slash)
    (hi : componentStart path.cell absolute.toNat len = i)
    (hskip : i = len ∨ i + 1 = len ∧ path.cell i = dot) :
    namesOf absolute path len = namesOf absolute path (i - 1) := by
  have hcomponent : pathNames slash dot (path.bytes i (len - i)) = [] := by
    rcases hskip with rfl | ⟨rfl, hdot⟩
    · simp
    · rw [Nat.add_sub_cancel_left, ByteBuffer.bytes_succ, ByteBuffer.bytes_zero_right, hdot,
        pathNames_of_slash_not_mem (by decide), if_neg (by simp)]
  rw [namesOf, pathNames_component hlen hroot hi, hcomponent, List.append_nil, namesOf]

theorem namesOf_component {path : ByteBuffer} {len i : ℕ} (hlen : absolute.toNat < len)
    (hroot : absolute = true → path.cell 0 = slash)
    (hi : componentStart path.cell absolute.toNat len = i)
    (hname : IsName slash dot (path.bytes i (len - i))) :
    namesOf absolute path len =
      resolveName dot (!absolute) (namesOf absolute path (i - 1)) (path.bytes i (len - i)) := by
  rw [namesOf, pathNames_component hlen hroot hi, pathNames_of_slash_not_mem hname.slash_not_mem,
    if_pos ⟨hname.ne_nil, hname.ne_dot⟩, resolveNames_append_singleton, namesOf]

theorem namesOf_of_le {path : ByteBuffer} {len : ℕ}
    (hroot : absolute = true → path.cell 0 = slash) (h : len ≤ absolute.toNat) :
    namesOf absolute path len = [] := by
  cases absolute with
  | false =>
    obtain rfl : len = 0 := Nat.le_zero.1 h
    simp [namesOf, resolveNames]
  | true =>
    have hcases : len = 0 ∨ len = 1 := by
      rw [Bool.toNat_true] at h
      omega
    rcases hcases with rfl | rfl
    · simp [namesOf, resolveNames]
    · simp [namesOf, resolveNames, ByteBuffer.bytes_succ, hroot rfl]

theorem first_component {path : ByteBuffer} {len i : ℕ} (hlen : absolute.toNat < len)
    (hrelative : absolute = false → path.cell 0 ≠ slash)
    (hi : componentStart path.cell absolute.toNat len = i) (hfirst : i - 1 ≤ absolute.toNat) :
    absolute = true ∨ i = 0 := by
  obtain ⟨-, -, hend⟩ := componentStart_spec path.cell (Nat.le_of_lt hlen)
  rw [hi] at hend
  cases absolute with
  | true => exact .inl rfl
  | false =>
    right
    rw [Bool.toNat_false] at hfirst hend
    by_contra hpos
    obtain rfl : i = 1 := by omega
    exact hrelative rfl (hend.resolve_left hpos)

theorem removeLast_names {path source : ByteBuffer} {len : ℕ}
    (h : Holds path absolute (namesOf absolute source len)) :
    Removed absolute (namesOf absolute source len) path (removeLast absolute.toNat path
      (renderPath slash absolute (namesOf absolute source len)).length) := by
  have hnames : ∀ name ∈ namesOf absolute source len, IsName slash dot name :=
    isName_of_mem_namesOf
  have hdots : absolute = true → [dot, dot] ∉ namesOf absolute source len :=
    dotdot_not_mem_namesOf
  rcases List.eq_nil_or_concat (namesOf absolute source len) with hnil | ⟨front, name, hcons⟩
  · rw [hnil] at h ⊢
    rw [length_renderPath_nil]
    exact removeLast_nil h
  · rw [List.concat_eq_append] at hcons
    rw [hcons] at h hnames hdots ⊢
    refine removeLast_append h (fun other hother => hnames other (by simp [hother]))
      (hnames name (by simp)) fun habs => ?_
    rintro rfl
    exact hdots habs (by simp)

/-- The path that a name is put behind, with its slash. -/
def frontPath (absolute : Bool) (names : List (List UInt8)) : List UInt8 :=
  if names = [] then renderPath slash absolute [] else renderPath slash absolute names ++ [slash]

theorem frontPath_append (names : List (List UInt8)) (name : List UInt8) :
    frontPath absolute names ++ name = renderPath slash absolute (names ++ [name]) := by
  unfold frontPath
  split
  · rename_i h
    rw [h, List.nil_append, renderPath_singleton, renderPath_nil]
  · rename_i h
    rw [renderPath_append_singleton _ _ h, List.append_assoc]
    rfl

theorem lt_length_renderPath {names : List (List UInt8)}
    (hnames : ∀ name ∈ names, IsName slash dot name) :
    absolute.toNat < (renderPath slash absolute names).length ↔ names ≠ [] := by
  constructor
  · rintro hlt rfl
    cases absolute <;> simp at hlt
  · intro hne
    obtain ⟨front, name, hcons⟩ := (List.eq_nil_or_concat names).resolve_left hne
    rw [List.concat_eq_append] at hcons
    have hname : 0 < name.length :=
      List.length_pos_iff.2 (hnames name (by simp [hcons])).ne_nil
    rw [hcons, ← frontPath_append, List.length_append, frontPath]
    cases absolute <;> split <;> simp [renderPath] <;> omega

/-- What is in front of the last component has been resolved. -/
structure FrontResolved (absolute : Bool) (names : List (List UInt8)) (i : ℕ) (w : Walk)
    (j : ℕ) (w' : Walk) : Prop where
  ret : j = (frontPath absolute names).length
  bytes : w'.path.bytes 0 j = frontPath absolute names
  length : j ≤ i
  written : w'.path.written ≤ max w.path.written i
  cache : w'.cache = w.cache

theorem expanded_append {w w' : Walk} {len i j : ℕ} (hlen : absolute.toNat < len) (hi : i ≤ len)
    (hnames : namesOf absolute w.path len =
      namesOf absolute w.path (i - 1) ++ [w.path.bytes i (len - i)])
    (hdots : w.path.bytes i (len - i) ≠ [dot, dot])
    (h : FrontResolved absolute (namesOf absolute w.path (i - 1)) i
      { w with path := w.path.set len 0 } j w') (link_is_dir : Option Bool) :
    Expanded absolute len w ⟨some (j + (len - i)), link_is_dir,
      { w' with path := w'.path.copy j (((w.path.set len 0).bytes 0 (len + 1)).drop i) }⟩ := by
  have hrender : renderPath slash absolute (namesOf absolute w.path len) =
      frontPath absolute (namesOf absolute w.path (i - 1)) ++ w.path.bytes i (len - i) := by
    rw [hnames, frontPath_append]
  have hlength : (renderPath slash absolute (namesOf absolute w.path len)).length =
      j + (len - i) := by
    rw [hrender, List.length_append, ByteBuffer.length_bytes, h.ret]
  have htmp : ((w.path.set len 0).bytes 0 (len + 1)).drop i =
      (w.path.set len 0).bytes i (len + 1 - i) := by
    rw [show len + 1 = i + (len + 1 - i) by omega, ByteBuffer.bytes_add, Nat.zero_add,
      List.drop_left' (ByteBuffer.length_bytes ..)]
    congr 1
    omega
  have hname : ((w.path.set len 0).bytes i (len + 1 - i)).take (len - i) =
      w.path.bytes i (len - i) := by
    rw [show len + 1 - i = (len - i) + 1 by omega, ByteBuffer.bytes_add,
      List.take_left' (ByteBuffer.length_bytes ..), ByteBuffer.bytes_set_of_le _ _ (by omega)]
  have hbytes : (w'.path.copy j (((w.path.set len 0).bytes 0 (len + 1)).drop i)).bytes 0
      (j + (len - i)) = renderPath slash absolute (namesOf absolute w.path len) := by
    rw [ByteBuffer.bytes_add, ByteBuffer.bytes_copy_of_le _ _ (by omega), h.bytes, Nat.zero_add,
      htmp, ByteBuffer.bytes_copy_self _ _ _ (by rw [ByteBuffer.length_bytes]; omega), hname,
      hrender]
  have hj := h.length
  refine ⟨by rw [hlength], by rw [hlength]; exact hbytes,
    fun _ => ⟨by rw [hlength]; exact hbytes, ?_⟩, by rw [hlength]; omega, ?_, h.cache⟩
  · intro _ hlast
    rw [hnames, List.getLast?_append] at hlast
    exact absurd (Option.some.inj hlast) hdots
  · rw [htmp]
    have hcopy := w'.path.written_copy_le j ((w.path.set len 0).bytes i (len + 1 - i))
    have hw := h.written
    rw [ByteBuffer.length_bytes] at hcopy
    simp only [ByteBuffer.written_set] at hw ⊢
    omega

theorem enter_eq (hroots : g.application_path_roots = none)
    (loop : Request → Walk → Option Answer) (r : Request) (w : Walk) :
    enter g loop r w = loop r w := by
  rw [enter, atRoot, hroots]
  rfl

theorem resolveComponent_expand (fs : FileSystem) (now : ℤ) (call : Request → Walk → Option Answer)
    (start len : ℕ) (is_dir : Bool) (i : ℕ) (w : Walk) :
    resolveComponent g fs now call ⟨start, len, .expand, is_dir⟩ i w =
      appendComponent g call ⟨start, len, .expand, is_dir⟩ none i
        { w with path := w.path.set len 0 } := by
  simp [resolveComponent]

theorem appendComponent_expand {call : Request → Walk → Option Answer} {start len i : ℕ}
    {is_dir : Bool} {w : Walk} {j : ℕ} {w' : Walk}
    (hfront : resolveFront call ⟨start, len, .expand, is_dir⟩ false i w = some (some j, w'))
    (hfits : j + (len - i) + 1 < g.maxpathlen) :
    appendComponent g call ⟨start, len, .expand, is_dir⟩ none i w =
      some ⟨some (j + (len - i)), none,
        { w' with path := w'.path.copy j ((w.path.bytes 0 (len + 1)).drop i) }⟩ := by
  unfold appendComponent
  simp only [Option.isSome_none, Bool.false_eq_true, false_and, if_false, hfront, Option.map_some]
  rw [if_neg (by omega)]
  simp [saveRealpath]

theorem resolveFront_expand {call : Request → Walk → Option Answer} (len : ℕ) (is_dir : Bool)
    {i : ℕ} {w : Walk} (hi : absolute.toNat ≤ i) (hroot : absolute = true → w.path.cell 0 = slash)
    (hfirst : i - 1 ≤ absolute.toNat → namesOf absolute w.path (i - 1) = [])
    (hcall : absolute.toNat < i - 1 → ∃ a,
      call ⟨absolute.toNat, i - 1, .expand, true⟩ w = some a ∧ Expanded absolute (i - 1) w a) :
    ∃ j w', resolveFront call ⟨absolute.toNat, len, .expand, is_dir⟩ false i w =
      some (some j, w') ∧ FrontResolved absolute (namesOf absolute w.path (i - 1)) i w j w' := by
  unfold resolveFront
  by_cases hle : i - 1 ≤ absolute.toNat
  · rw [if_pos hle, hfirst hle]
    have hfront : frontPath absolute ([] : List (List UInt8)) = renderPath slash absolute [] :=
      if_pos rfl
    refine ⟨absolute.toNat, w, rfl, ⟨?_, ?_, hi, Nat.le_max_left _ _, rfl⟩⟩
    · rw [hfront, length_renderPath_nil]
    · rw [hfront, bytes_root hroot]
  · obtain ⟨a, ha, hexp⟩ := hcall (by omega)
    have hlt : absolute.toNat <
        (renderPath slash absolute (namesOf absolute w.path (i - 1))).length ↔
          namesOf absolute w.path (i - 1) ≠ [] := lt_length_renderPath isName_of_mem_namesOf
    have hlength := hexp.length
    have hwritten := hexp.written
    simp only [if_neg hle, Bool.false_eq_true, if_false, ha, Option.map_some, hexp.ret]
    by_cases hnil : namesOf absolute w.path (i - 1) = []
    · have hfront : frontPath absolute (namesOf absolute w.path (i - 1)) =
          renderPath slash absolute (namesOf absolute w.path (i - 1)) := by
        rw [frontPath, if_pos hnil, hnil]
      rw [if_neg (by rw [hlt]; exact fun hne => hne hnil)]
      exact ⟨_, _, rfl, ⟨by rw [hfront], by rw [hfront, hexp.bytes], by omega, by omega,
        hexp.cache⟩⟩
    · have hfront : frontPath absolute (namesOf absolute w.path (i - 1)) =
          renderPath slash absolute (namesOf absolute w.path (i - 1)) ++ [slash] := if_neg hnil
      rw [if_pos (hlt.2 hnil)]
      refine ⟨_, _, rfl, ⟨?_, ?_, by omega, ?_, hexp.cache⟩⟩
      · rw [hfront, List.length_append, List.length_singleton]
      · rw [ByteBuffer.bytes_add, ByteBuffer.bytes_set_of_le _ _ (by omega), hexp.bytes, hfront,
          ByteBuffer.bytes_succ, Nat.zero_add, ByteBuffer.cell_set_self,
          ByteBuffer.bytes_zero_right]
      · rw [ByteBuffer.written_set]
        omega

/-- What is asked of the path of a call. -/
structure WellStarted (absolute : Bool) (len : ℕ) (path : ByteBuffer) : Prop where
  root : absolute = true → path.cell 0 = slash
  relative : absolute = false → 0 < len → path.cell 0 ≠ slash

theorem WellStarted.of_le {path : ByteBuffer} {len m : ℕ} (h : WellStarted absolute len path)
    (hm : m ≤ len) : WellStarted absolute m path :=
  ⟨h.root, fun habs hpos => h.relative habs (by omega)⟩

theorem Expanded.of_skip {w : Walk} {len i : ℕ} {a : Answer} (hlen : absolute.toNat < len)
    (hstarted : WellStarted absolute len w.path)
    (hi : componentStart w.path.cell absolute.toNat len = i)
    (hskip : i = len ∨ i + 1 = len ∧ w.path.cell i = dot)
    (h : Expanded absolute (i - 1) w a) : Expanded absolute len w a := by
  have hnames := namesOf_skip hlen hstarted.root hi hskip
  obtain ⟨hret, hbytes, hafter, hlength, hwritten, hcache⟩ := h
  rw [← hnames] at hret hbytes hafter hlength
  refine ⟨hret, hbytes, fun hslash => ?_, by omega, by omega, hcache⟩
  obtain ⟨-, -, hend⟩ := componentStart_spec w.path.cell (Nat.le_of_lt hlen)
  rw [hi] at hend
  rcases hend with hend | hend
  · refine ⟨hbytes, fun habs hlast => ?_⟩
    subst habs
    rw [hnames, hend] at hlast
    simp [namesOf, resolveNames] at hlast
  · exact hafter hend

theorem Expanded.of_removed {w : Walk} {len i : ℕ} {a : Answer} {j : ℕ} {path : ByteBuffer}
    (hlen : i + 2 = len) (hfirst : absolute.toNat < i - 1)
    (hnames : namesOf absolute w.path len =
      resolveName dot (!absolute) (namesOf absolute w.path (i - 1)) [dot, dot])
    (h : Expanded absolute (i - 1) w a)
    (hremoved : Removed absolute (namesOf absolute w.path (i - 1)) a.walk.path (j, path))
    (link_is_dir : Option Bool) :
    Expanded absolute len w ⟨some j, link_is_dir, { a.walk with path := path }⟩ := by
  obtain ⟨hret, hholds, hwritten, hlength⟩ := hremoved
  have hbound := h.length
  have hwritten' := h.written
  simp only at hret hholds hwritten hlength
  rw [← hnames] at hret hholds
  refine ⟨by rw [hret], hholds.bytes, fun _ => hholds, by omega, ?_, h.cache⟩
  simp only
  omega

theorem isName_component {path : ByteBuffer} {start len i : ℕ} (hlen : start ≤ len)
    (hi : componentStart path.cell start len = i)
    (hskip : ¬ (i = len ∨ i + 1 = len ∧ path.cell i = dot)) :
    IsName slash dot (path.bytes i (len - i)) := by
  have hle : i ≤ len := hi ▸ componentStart_le ..
  refine ⟨fun hnil => ?_, fun hdot => ?_, slash_not_mem_component hlen hi⟩
  · have := congrArg List.length hnil
    rw [ByteBuffer.length_bytes, List.length_nil] at this
    exact hskip (.inl (by omega))
  · have hlength := congrArg List.length hdot
    rw [ByteBuffer.length_bytes, List.length_singleton] at hlength
    rw [hlength, ByteBuffer.bytes_succ] at hdot
    exact hskip (.inr ⟨by omega, List.head_eq_of_cons_eq hdot⟩)

theorem bytes_eq_dotdot {path : ByteBuffer} {len i : ℕ} (hle : i ≤ len) :
    path.bytes i (len - i) = [dot, dot] ↔
      i + 2 = len ∧ path.cell i = dot ∧ path.cell (i + 1) = dot := by
  constructor
  · intro h
    have hlength := congrArg List.length h
    rw [ByteBuffer.length_bytes] at hlength
    have hlen : len - i = 2 := hlength
    rw [hlen, ByteBuffer.bytes_succ, ByteBuffer.bytes_succ] at h
    simp only [List.cons.injEq] at h
    exact ⟨by omega, h.1, h.2.1⟩
  · rintro ⟨rfl, h0, h1⟩
    rw [Nat.add_sub_cancel_left, ByteBuffer.bytes_succ, ByteBuffer.bytes_succ,
      ByteBuffer.bytes_zero_right, h0, h1]

theorem slash_before_component {path : ByteBuffer} {start len i : ℕ} (hlen : start ≤ len)
    (hi : componentStart path.cell start len = i) (hne : start < i) :
    path.cell (i - 1) = slash := by
  obtain ⟨-, -, hend⟩ := componentStart_spec path.cell hlen
  rw [hi] at hend
  exact hend.resolve_left (Nat.ne_of_gt hne)

theorem expanded_first_dotdot {w : Walk} {len i : ℕ} (hlen : absolute.toNat < len)
    (hstarted : WellStarted absolute len w.path)
    (hi : componentStart w.path.cell absolute.toNat len = i)
    (hdots : i + 2 = len ∧ w.path.cell i = dot ∧ w.path.cell (i + 1) = dot)
    (hfirst : i - 1 ≤ absolute.toNat)
    (hnames : namesOf absolute w.path len = resolveName dot (!absolute) [] [dot, dot]) :
    Expanded absolute len w
      ⟨some (if absolute.toNat ≠ 0 then absolute.toNat else len), some true, w⟩ := by
  cases absolute with
  | true => exact expanded_start _ hstarted.root (by rw [hnames]; simp [resolveName])
  | false =>
    have hcases := first_component hlen (fun habs => hstarted.relative habs (by omega)) hi hfirst
    obtain rfl : i = 0 := hcases.resolve_left (by simp)
    obtain ⟨rfl, h0, h1⟩ := hdots
    have hrender : renderPath slash false (namesOf false w.path 2) = [dot, dot] := by
      rw [hnames]
      simp [resolveName, renderPath]
    have hbytes : w.path.bytes 0 2 = [dot, dot] := by
      rw [ByteBuffer.bytes_succ, ByteBuffer.bytes_succ, ByteBuffer.bytes_zero_right, h0, h1]
    exact ⟨by rw [hrender]; rfl, by rw [hrender]; exact hbytes,
      fun hslash => ⟨by rw [hrender]; exact hbytes, fun _ _ => by rw [hrender]; exact hslash⟩,
      by rw [hrender]; exact Nat.le_max_right _ _, Nat.le_max_left _ _, rfl⟩

/-- With `CWD_EXPAND` the loop leaves the normal form. -/
theorem realpathLoop_expand (hroots : g.application_path_roots = none) (fs : FileSystem) (now : ℤ)
    (fuel : ℕ) :
    ∀ len is_dir w, len < fuel → len + 1 < g.maxpathlen → WellStarted absolute len w.path →
      ∃ a, realpathLoop g fs now fuel ⟨absolute.toNat, len, .expand, is_dir⟩ w = some a ∧
        Expanded absolute len w a := by
  induction fuel with
  | zero => exact fun len _ _ h => absurd h (Nat.not_lt_zero len)
  | succ fuel ih =>
    intro len is_dir w hfuel hfits hstarted
    rw [realpathLoop]
    by_cases hshort : len ≤ absolute.toNat
    · rw [if_pos hshort]
      exact ⟨_, rfl, expanded_start _ hstarted.root (namesOf_of_le hstarted.root hshort)⟩
    · rw [if_neg hshort]
      have hlt : absolute.toNat < len := by omega
      obtain ⟨i, hi⟩ : ∃ i, componentStart w.path.cell absolute.toNat len = i := ⟨_, rfl⟩
      have hle : i ≤ len := hi ▸ componentStart_le ..
      simp only [hi]
      by_cases hskip : i = len ∨ i + 1 = len ∧ w.path.cell i = dot
      · -- no name: the same path with a shorter length
        rw [if_pos hskip]
        obtain ⟨a, ha, hexp⟩ := ih (i - 1) true w (by omega) (by omega)
          (hstarted.of_le (by omega))
        exact ⟨a, ha, hexp.of_skip hlt hstarted hi hskip⟩
      · rw [if_neg hskip]
        have hname := isName_component (Nat.le_of_lt hlt) hi hskip
        by_cases hdots : i + 2 = len ∧ w.path.cell i = dot ∧ w.path.cell (i + 1) = dot
        · rw [if_pos hdots]
          have hnames := namesOf_component hlt hstarted.root hi hname
          rw [(bytes_eq_dotdot hle).2 hdots] at hnames
          by_cases hfirst : i - 1 ≤ absolute.toNat
          · rw [if_pos hfirst]
            rw [namesOf_of_le hstarted.root hfirst] at hnames
            exact ⟨_, rfl, expanded_first_dotdot hlt hstarted hi hdots hfirst hnames⟩
          · rw [if_neg hfirst, enter_eq hroots]
            obtain ⟨a, ha, hexp⟩ := ih (i - 1) true w (by omega) (by omega)
              (hstarted.of_le (by omega))
            have hslash := slash_before_component (by omega) hi (by omega)
            have hremoved := removeLast_names (hexp.after hslash)
            simp only [ha, Option.map_some, hexp.ret]
            exact ⟨_, rfl, hexp.of_removed hdots.1 (by omega) hnames hremoved _⟩
        · rw [if_neg hdots, resolveComponent_expand]
          have hnames := namesOf_component hlt hstarted.root hi hname
          have hne : w.path.bytes i (len - i) ≠ [dot, dot] := fun h =>
            hdots ((bytes_eq_dotdot hle).1 h)
          rw [resolveName, if_neg hne] at hnames
          have hset : ∀ k, k < len → (w.path.set len 0).cell k = w.path.cell k :=
            fun k hk => w.path.cell_set_ne 0 (by omega)
          have hstarted' : WellStarted absolute len (w.path.set len 0) := by
            refine ⟨fun habs => ?_, fun habs hpos => ?_⟩
            · rw [hset 0 (by omega)]
              exact hstarted.root habs
            · rw [hset 0 (by omega)]
              exact hstarted.relative habs hpos
          have hstart : absolute.toNat ≤ i :=
            hi ▸ (componentStart_spec w.path.cell (Nat.le_of_lt hlt)).1
          have hcall : absolute.toNat < i - 1 → ∃ a,
              enter g (realpathLoop g fs now fuel) ⟨absolute.toNat, i - 1, .expand, true⟩
                { w with path := w.path.set len 0 } = some a ∧
              Expanded absolute (i - 1) { w with path := w.path.set len 0 } a := by
            intro _
            rw [enter_eq hroots]
            exact ih (i - 1) true _ (by omega) (by omega) (hstarted'.of_le (by omega))
          obtain ⟨j, w', hfront, hresolved⟩ := resolveFront_expand len is_dir hstart
            hstarted'.root (fun hfirst => namesOf_of_le hstarted'.root hfirst) hcall
          rw [namesOf_congr fun k hk => hset k (by omega)] at hresolved
          have hj := hresolved.length
          rw [appendComponent_expand hfront (by omega)]
          exact ⟨_, rfl, expanded_append hlt hle hnames hne hresolved none⟩

end Recursion

/-! ### `virtual_file_ex` -/

theorem joinCwd_eq {g : Globals} {cwd path : List UInt8}
    (hcwd : path.head? = some slash ∨ cwd = [] ∨ cwd.head? = some slash) (hpath : path ≠ [])
    (hfits : (joinPath slash cwd path).length + 1 < g.maxpathlen) :
    ∃ absolute joined, joinCwd g cwd path = some (Bool.toNat absolute, joined) ∧
      joined ≠ [] ∧ joined.length + 1 < g.maxpathlen ∧
      ((joinPath slash cwd path).head? = some slash ↔ absolute = true) ∧
      (joined.head? = some slash ↔ absolute = true) ∧
      joined.getLast? = (joinPath slash cwd path).getLast? ∧
      pathNames slash dot joined = pathNames slash dot (joinPath slash cwd path) := by
  unfold joinCwd
  by_cases habs : path.head? = some slash
  · have hjoin : joinPath slash cwd path = path := by rw [joinPath, if_pos (.inl habs)]
    rw [hjoin] at hfits ⊢
    exact ⟨true, path, by rw [if_neg (by simp [habs])]; rfl, hpath, hfits, by simp [habs],
      by simp [habs], rfl, rfl⟩
  · rw [if_pos habs]
    by_cases hnil : cwd = []
    · have hjoin : joinPath slash cwd path = path := by rw [joinPath, if_pos (.inr hnil)]
      rw [hjoin] at hfits ⊢
      exact ⟨false, path, by rw [if_pos hnil]; rfl, hpath, hfits, by simp [habs], by simp [habs],
        rfl, rfl⟩
    · have hjoin : joinPath slash cwd path = cwd ++ slash :: path := by
        rw [joinPath, if_neg (not_or.2 ⟨habs, hnil⟩)]
      have hhead := (hcwd.resolve_left habs).resolve_left hnil
      obtain ⟨c, tail, rfl⟩ := List.exists_cons_of_ne_nil hnil
      obtain rfl : c = slash := Option.some.inj hhead
      have hlast : ∀ front : List UInt8, (front ++ path).getLast? = path.getLast? := by
        intro front
        obtain ⟨most, c, rfl⟩ := (List.eq_nil_or_concat path).resolve_left hpath
        rw [List.concat_eq_append, ← List.append_assoc, List.getLast?_concat, List.getLast?_concat]
      rw [hjoin] at hfits ⊢
      simp only [List.length_append, List.length_cons] at hfits
      rw [if_neg hnil, if_neg (by simp only [List.length_cons]; omega)]
      by_cases hslash : (slash :: tail).getLast? = some slash
      · refine ⟨true, slash :: tail ++ path, by rw [if_pos hslash]; rfl, by simp,
          by simp only [List.length_append, List.length_cons]; omega, by simp, by simp, ?_, ?_⟩
        · rw [List.append_cons _ slash, hlast, hlast]
        · obtain ⟨front, hfront⟩ := List.getLast?_eq_some_iff.1 hslash
          rw [hfront]
          simp [pathNames_append_slash]
      · refine ⟨true, slash :: tail ++ slash :: path, by rw [if_neg hslash]; rfl, by simp,
          by simp only [List.length_append, List.length_cons]; omega, by simp, by simp, rfl, rfl⟩

theorem finishPath_slash {g : Globals} (add_slash : Bool) {shown : List UInt8}
    {path : ByteBuffer} (hbytes : path.bytes 0 shown.length = shown) (hne : shown ≠ [])
    (hslash : shown.getLast? = some slash → shown = [slash])
    (hfits : shown.length + 1 < g.maxpathlen) :
    ∃ j p, (if add_slash = true ∧ 0 < shown.length ∧ path.cell (shown.length - 1) ≠ slash then
        if g.maxpathlen ≤ shown.length + 1 then (none, path)
        else (some (shown.length + 1), (path.set shown.length slash).set (shown.length + 1) 0)
      else (some shown.length, path.set shown.length 0)) = (some j, p) ∧
      p.bytes 0 j = (if add_slash = true ∧ shown ≠ [slash] then shown ++ [slash] else shown) ∧
      p.written ≤ max path.written g.maxpathlen := by
  have hpos : 0 < shown.length := List.length_pos_iff.2 hne
  have hlast : path.cell (shown.length - 1) ≠ slash ↔ shown ≠ [slash] := by
    have hcell := ByteBuffer.cell_of_bytes_eq hbytes (shown.length - 1) (by omega)
    rw [Nat.zero_add] at hcell
    rw [hcell]
    refine not_congr ⟨fun h => hslash ?_, ?_⟩
    · rw [List.getLast?_eq_getElem?, List.getElem?_eq_getElem (by omega), h]
    · rintro h
      simp [h]
  by_cases hadd : add_slash = true ∧ shown ≠ [slash]
  · rw [if_pos ⟨hadd.1, hpos, hlast.2 hadd.2⟩, if_neg (by omega), if_pos hadd]
    refine ⟨_, _, rfl, ?_, ?_⟩
    · rw [ByteBuffer.bytes_set_of_le _ _ (by omega), ByteBuffer.bytes_add,
        ByteBuffer.bytes_set_of_le _ _ (by omega), hbytes, ByteBuffer.bytes_succ, Nat.zero_add,
        ByteBuffer.cell_set_self, ByteBuffer.bytes_zero_right]
    · simp only [ByteBuffer.written_set]
      omega
  · rw [if_neg fun h => hadd ⟨h.1, hlast.1 h.2.2⟩, if_neg hadd]
    refine ⟨_, _, rfl, by rw [ByteBuffer.bytes_set_of_le _ _ (by omega), hbytes], ?_⟩
    simp only [ByteBuffer.written_set]
    omega

theorem finishPath_spec {g : Globals} {absolute : Bool} {body shown : List UInt8}
    {path : ByteBuffer} (add_slash : Bool) (hbytes : path.bytes 0 body.length = body)
    (hshown : shown = if body = [] then [dot] else body) (habs : absolute = true → body ≠ [])
    (hslash : shown.getLast? = some slash → shown = [slash])
    (hfits : body.length + 1 < g.maxpathlen) (hpos : 2 < g.maxpathlen) :
    ∃ j p, finishPath g absolute.toNat add_slash body.length path = (some j, p) ∧
      p.bytes 0 j = (if add_slash = true ∧ shown ≠ [slash] then shown ++ [slash] else shown) ∧
      p.written ≤ max path.written g.maxpathlen := by
  unfold finishPath
  by_cases hnil : body = []
  · obtain rfl : absolute = false := by simpa using fun h => habs h hnil
    subst hnil hshown
    have hdot : (path.set 0 dot).bytes 0 [dot].length = [dot] := by
      simp [ByteBuffer.bytes_succ]
    obtain ⟨j, p, hfinish, hresult, hwritten⟩ :=
      finishPath_slash add_slash hdot (by simp) hslash (by simpa using hpos)
    refine ⟨j, p, hfinish, hresult, ?_⟩
    rw [ByteBuffer.written_set] at hwritten
    omega
  · rw [if_neg hnil] at hshown
    subst hshown
    rw [if_neg fun h => hnil (List.length_eq_zero_iff.1 h.2)]
    exact finishPath_slash add_slash hbytes hnil hslash hfits

/-- The buffer that `tsrm_realpath_r` is called with. -/
theorem wellStarted_copy {absolute : Bool} {joined : List UInt8} (garbage : ℕ → UInt8)
    (hne : joined ≠ []) (hhead : joined.head? = some slash ↔ absolute = true) :
    ((ByteBuffer.mk garbage 0).copy 0 (joined ++ [0])).bytes 0 joined.length = joined ∧
      ((ByteBuffer.mk garbage 0).copy 0 (joined ++ [0])).written ≤ joined.length + 1 ∧
      WellStarted absolute joined.length ((ByteBuffer.mk garbage 0).copy 0 (joined ++ [0])) := by
  have hbytes : ((ByteBuffer.mk garbage 0).copy 0 (joined ++ [0])).bytes 0 joined.length =
      joined := by
    rw [ByteBuffer.bytes_copy_self _ _ _ (by simp), List.take_left' rfl]
  have hwritten := (ByteBuffer.mk garbage 0).written_copy_le 0 (joined ++ [0])
  refine ⟨hbytes, by simpa using hwritten, ?_⟩
  have hcell := ByteBuffer.cell_of_bytes_eq hbytes 0 (List.length_pos_iff.2 hne)
  obtain ⟨c, rest, rfl⟩ := List.exists_cons_of_ne_nil hne
  simp only [List.head?_cons, Option.some.injEq] at hhead
  simp only [Nat.add_zero, List.getElem_cons_zero] at hcell
  refine ⟨fun h => by rw [hcell, hhead.2 h], fun habs _ hslash => ?_⟩
  rw [hhead.1 hslash] at habs
  cases habs

/-- With `CWD_EXPAND` the working directory becomes the normal form of the path. -/
theorem virtual_file_ex_expand {g : Globals} (hroots : g.application_path_roots = none)
    (fs : FileSystem) (now : ℤ) (cache : Cache) (garbage : ℕ → UInt8) {cwd path : List UInt8}
    {verify_path : Option (List UInt8 → Bool)}
    (hcwd : path.head? = some slash ∨ cwd = [] ∨ cwd.head? = some slash) (hpath : path ≠ [])
    (hfits : (joinPath slash cwd path).length + 1 < g.maxpathlen)
    (hverify : ∀ refuses, verify_path = some refuses →
      refuses (normalPath slash dot (joinPath slash cwd path)) = false) :
    ∃ r, virtual_file_ex g fs now cache garbage cwd path verify_path .expand = some r ∧
      r.ret = 0 ∧ r.cwd = normalPath slash dot (joinPath slash cwd path) ∧ r.cache = cache ∧
      r.resolved_path.written ≤ g.maxpathlen := by
  obtain ⟨absolute, joined, hjoin, hne, hlen, hhead, hhead', hlast, hnames⟩ :=
    joinCwd_eq hcwd hpath hfits
  obtain ⟨hbuffer, hcopied, hstarted⟩ := wellStarted_copy garbage hne hhead'
  have hpos : 0 < joined.length := List.length_pos_iff.2 hne
  have hshort : path.length ≤ (joinPath slash cwd path).length := by
    unfold joinPath
    split
    · exact Nat.le_refl _
    · simp only [List.length_append, List.length_cons]
      omega
  -- the call leaves the normal form
  obtain ⟨a, ha, hexp⟩ := realpathLoop_expand hroots fs now (realpathFuel g) joined.length false
    ⟨(ByteBuffer.mk garbage 0).copy 0 (joined ++ [0]), 0,
      if g.realpath_cache_ttl ≠ 0 then 0 else -1, cache⟩
    (by simp only [realpathFuel, LINK_MAX]; omega) hlen hstarted
  have hbody : renderPath slash absolute (namesOf absolute
      ((ByteBuffer.mk garbage 0).copy 0 (joined ++ [0])) joined.length) =
        normalBody slash dot absolute (joinPath slash cwd path) := by
    rw [namesOf, hbuffer, hnames, normalBody]
  have hret := hexp.ret
  have hbytes := hexp.bytes
  have hlength := hexp.length
  have hwritten := hexp.written
  simp only [hbody] at hret hbytes hlength hwritten
  have habs := absolute.toNat_le
  -- and its end is the end of the normal form
  obtain ⟨j, p, hfinish, hresult, hbound⟩ : ∃ j p,
      finishPath g absolute.toNat (decide (joined.getLast? = some slash))
        (normalBody slash dot absolute (joinPath slash cwd path)).length a.walk.path =
          (some j, p) ∧
      p.bytes 0 j = normalPath slash dot (joinPath slash cwd path) ∧
      p.written ≤ max a.walk.path.written g.maxpathlen := by
    rw [normalPath_eq hhead, ← hlast]
    have hslash : (shownPath slash dot absolute (joinPath slash cwd path)).getLast? = some slash →
        shownPath slash dot absolute (joinPath slash cwd path) = [slash] :=
      getLast?_shownPath (by decide)
    have hroot : absolute = true →
        normalBody slash dot absolute (joinPath slash cwd path) ≠ [] := by
      rintro rfl hnil
      exact absurd (normalBody_eq_nil hnil) (by simp)
    have hshown : shownPath slash dot absolute (joinPath slash cwd path) =
        if normalBody slash dot absolute (joinPath slash cwd path) = [] then [dot]
        else normalBody slash dot absolute (joinPath slash cwd path) := rfl
    have hspec := finishPath_spec (decide (joined.getLast? = some slash)) hbytes hshown hroot
      hslash (show _ < g.maxpathlen by omega) (by omega)
    simpa only [decide_eq_true_eq] using hspec
  have hmax : p.written ≤ g.maxpathlen := by omega
  refine ⟨⟨0, p.bytes 0 j, a.walk.cache, p⟩, ?_, rfl, hresult, hexp.cache, hmax⟩
  unfold virtual_file_ex
  rw [if_neg (by rw [not_or]; exact ⟨fun h => hpath (List.length_eq_zero_iff.1 h), by omega⟩),
    hjoin]
  simp only [tsrm_realpath_r, enter_eq hroots, ha, Option.map_some, hret]
  have hmode : (decide (Mode.expand ≠ Mode.realpath) && decide (joined.getLast? = some slash)) =
      decide (joined.getLast? = some slash) := rfl
  have haccept : (verify_path.any fun refuses => refuses (p.bytes 0 j)) = false := by
    rw [hresult]
    cases verify_path with
    | none => rfl
    | some refuses => exact hverify refuses rfl
  rw [hmode, hfinish]
  simp only [haccept, Bool.false_eq_true, if_false]

theorem joinPath_normalPath {cwd path : List UInt8} {other : List UInt8}
    (hcwd : cwd = [] ∨ cwd.head? = some slash)
    (hother : (normalPath slash dot (joinPath slash cwd path)).head? = some slash ∨ other = cwd) :
    joinPath slash other (normalPath slash dot (joinPath slash cwd path)) =
      normalPath slash dot (joinPath slash cwd path) := by
  rw [joinPath, if_pos]
  rcases hother with habs | rfl
  · exact .inl habs
  · rcases hcwd with hnil | hcwd
    · exact .inr hnil
    · left
      rw [head?_normalPath (by decide)]
      unfold joinPath
      split
      · rename_i hpath
        rcases hpath with hpath | hnil
        · exact hpath
        · simp [hnil] at hcwd
      · obtain ⟨c, rest, rfl⟩ : ∃ c rest, other = c :: rest := by
          cases other with
          | nil => simp at hcwd
          | cons c rest => exact ⟨c, rest, rfl⟩
        exact hcwd

/-- Path expansion is lexical normalisation, it changes nothing when it is done again, and it
stays in its buffer. -/
theorem expand_eq_normalPath {g : Globals} (hroots : g.application_path_roots = none)
    (fs : FileSystem) (now : ℤ) (cache : Cache) (garbage : ℕ → UInt8) {cwd path : List UInt8}
    {verify_path : Option (List UInt8 → Bool)} (hcwd : cwd = [] ∨ cwd.head? = some slash)
    (hpath : path ≠ []) (hfits : (joinPath slash cwd path).length + 1 < g.maxpathlen)
    (hverify : ∀ refuses, verify_path = some refuses →
      refuses (normalPath slash dot (joinPath slash cwd path)) = false) :
    ∃ r, virtual_file_ex g fs now cache garbage cwd path verify_path .expand = some r ∧
      r.ret = 0 ∧ r.cwd = normalPath slash dot (joinPath slash cwd path) ∧ r.cache = cache ∧
      r.resolved_path.written ≤ g.maxpathlen ∧
      ∀ (fs' : FileSystem) (now' : ℤ) (cache' : Cache) (garbage' : ℕ → UInt8)
        (cwd' : List UInt8), r.cwd.head? = some slash ∨ cwd' = cwd →
        ∃ r', virtual_file_ex g fs' now' cache' garbage' cwd' r.cwd verify_path .expand =
            some r' ∧
          r'.ret = 0 ∧ r'.cwd = r.cwd ∧ r'.resolved_path.written ≤ g.maxpathlen := by
  obtain ⟨r, hr, hret, hcwd', hcache, hwritten⟩ :=
    virtual_file_ex_expand hroots fs now cache garbage (.inr hcwd) hpath hfits hverify
  refine ⟨r, hr, hret, hcwd', hcache, hwritten, ?_⟩
  intro fs' now' cache' garbage' other hother
  rw [hcwd'] at hother ⊢
  have hjoin := joinPath_normalPath hcwd hother
  have hsame : normalPath slash dot (joinPath slash other
      (normalPath slash dot (joinPath slash cwd path))) =
        normalPath slash dot (joinPath slash cwd path) := by
    rw [hjoin, normalPath_normalPath (by decide)]
  have hlength : (normalPath slash dot (joinPath slash cwd path)).length ≤
      (joinPath slash cwd path).length := by
    refine length_normalPath_le ?_
    unfold joinPath
    split
    · exact hpath
    · simp
  have hother' : (normalPath slash dot (joinPath slash cwd path)).head? = some slash ∨
      other = [] ∨ other.head? = some slash := by
    rcases hother with habs | rfl
    · exact .inl habs
    · exact .inr hcwd
  obtain ⟨r', hr', hret', hsecond, -, hbound⟩ :=
    virtual_file_ex_expand hroots fs' now' cache' garbage' hother' (normalPath_ne_nil _)
      (by rw [hjoin]; omega) (by rw [hsame]; exact hverify)
  exact ⟨r', hr', hret', hsecond.trans hsame, hbound⟩

/-- The settings without application roots and with a short `MAXPATHLEN`. -/
def sampleGlobals : Globals := ⟨32, 56, 16384, 120, none⟩

def ascii (text : List Char) : List UInt8 := text.map fun c => UInt8.ofNat c.toNat

/-- In `/srv` the path `../a/./..//b/` becomes `/b/`. -/
theorem expand_sample :
    ∃ r, virtual_file_ex sampleGlobals ⟨fun _ => none, fun _ => none⟩ 0 realpath_cache_clean
        (fun _ => 0) (ascii ['/', 's', 'r', 'v'])
        (ascii ['.', '.', '/', 'a', '/', '.', '/', '.', '.', '/', '/', 'b', '/']) none .expand =
          some r ∧
      r.ret = 0 ∧ r.cwd = ascii ['/', 'b', '/'] := by
  have hcwd : ascii ['/', 's', 'r', 'v'] = [] ∨
      (ascii ['/', 's', 'r', 'v']).head? = some slash := .inr rfl
  have hpath : ascii ['.', '.', '/', 'a', '/', '.', '/', '.', '.', '/', '/', 'b', '/'] ≠ [] := by
    decide
  have hroots : sampleGlobals.application_path_roots = none := rfl
  have haccepts : ∀ refuses, (none : Option (List UInt8 → Bool)) = some refuses →
      refuses (normalPath slash dot (joinPath slash (ascii ['/', 's', 'r', 'v'])
        (ascii ['.', '.', '/', 'a', '/', '.', '/', '.', '.', '/', '/', 'b', '/']))) = false :=
    fun _ h => by cases h
  obtain ⟨r, hr, hret, hresult, -⟩ := expand_eq_normalPath hroots
    ⟨fun _ => none, fun _ => none⟩ 0 realpath_cache_clean (fun _ => 0) hcwd hpath (by decide)
    haccepts
  exact ⟨r, hr, hret, hresult.trans (by decide)⟩

end PhpRuntime.Vcwd

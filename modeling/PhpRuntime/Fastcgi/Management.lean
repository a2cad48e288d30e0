import Mathlib.Data.List.Dedup
import PhpRuntime.Fastcgi.Params

/-!
# Asking for the variables of the application

The part of `fcgi_read_request` (`sapi/cgi/fastcgi.c`) that answers a `FCGI_GET_VALUES` record. The
loop over the names does not leave the first of them: a name that is not in `fcgi_mgmt_vars` keeps
it there forever, and a name that is goes into the answer until the buffer is full.
-/

set_option autoImplicit false

namespace PhpRuntime.Fastcgi

open PhpRuntime.Lib RequestType

/-! ## The answer -/

/-- A length in the answer: one byte, or four with the highest bit set. -/
def lengthBytes (n : ℕ) : List UInt8 :=
  if n < 128 then [UInt8.ofNat n]
  else [UInt8.ofNat (n >>> 24 % 128 + 128), UInt8.ofNat (n >>> 16), UInt8.ofNat (n >>> 8),
    UInt8.ofNat n]

def pairBytes (var value : List UInt8) : List UInt8 :=
  lengthBytes var.length ++ lengthBytes value.length ++ var ++ value

/-- `sizeof(buf)` -/
def bufSize : ℕ := maxLength + 8

variable (mgmt : List UInt8 → Option (List UInt8))

/-- The loop over the list of names, where `out` is behind the header already. The variable of the
loop is not changed in it. -/
def valuesLoop : ℕ → List (List UInt8) → List UInt8 → Option (List UInt8)
  | 0, _, _ => none
  | fuel + 1, q, out =>
    match q with
    | [] => some out
    | var :: _ =>
      match mgmt var with
      | none => valuesLoop fuel q out
      | some value =>
        if bufSize ≤ headerSize + out.length + 4 + 4 + var.length + value.length then some out
        else valuesLoop fuel q (out ++ pairBytes var value)

def FcgiHash.names (env : FcgiHash) : List (List UInt8) :=
  env.list.map fun p => (env.bucket p).var

/-- The names that are asked for, in the order of the loop. Without them there is no answer. -/
def askedNames (buf : ℕ → UInt8) (env : FcgiHash) (input : List UInt8) :
    Option (List (List UInt8)) :=
  match readHeader input with
  | none => none
  | some (hdr, input) =>
    match skipStdin (input.length + 1) hdr input with
    | none => none
    | some (hdr, input) =>
      if hdr.contentLength + hdr.paddingLength > maxLength then none
      else if hdr.type = FCGI_GET_VALUES.code then
        match safe_read input (hdr.contentLength + hdr.paddingLength) with
        | none => none
        | some (bytes, _) =>
          let buf := fillBuffer buf bytes
          let (env, parsed) :=
            fcgi_get_params env (bytes.take hdr.contentLength) (buf hdr.contentLength)
          if parsed then some env.names else none
      else none

/-- `fcgi_read_request` for a `FCGI_GET_VALUES` record: the content of the record that it sends, if
it sends one. It has no result if the rounds do not suffice. -/
def answerGetValues (fuel : ℕ) (buf : ℕ → UInt8) (env : FcgiHash) (input : List UInt8) :
    Option (Option (List UInt8)) :=
  match askedNames buf env input with
  | none => some none
  | some q => (valuesLoop mgmt fuel q []).map some

/-! ## What the answer should be -/

/-- The names that are known among those asked, each once. -/
def knownNames (names : List (List UInt8)) : List (List UInt8) :=
  names.dedup.filter fun name => (mgmt name).isSome

def answerBytes (names : List (List UInt8)) : List UInt8 :=
  names.flatMap fun name => pairBytes name ((mgmt name).getD [])

/-- The answer to these names: the known ones among them, each once, in any order. -/
def IsAnswer (names : List (List UInt8)) (out : List UInt8) : Prop :=
  ∃ known : List (List UInt8), known.Nodup ∧
    (∀ name, name ∈ known ↔ name ∈ names ∧ (mgmt name).isSome = true) ∧
    out = answerBytes mgmt known

/-- The buffer has space for the header and the answer. -/
def AnswerFits (names : List (List UInt8)) : Prop :=
  headerSize + (answerBytes mgmt (knownNames mgmt names)).length ≤ bufSize

/-- The record with these names is answered: the processing ends, and with the answer if that
fits. -/
def GetValuesRight (names : List (List UInt8)) (buf : ℕ → UInt8) (env : FcgiHash)
    (input : List UInt8) : Prop :=
  ∃ fuel answer, answerGetValues mgmt fuel buf env input = some answer ∧
    (AnswerFits mgmt names → ∃ out, answer = some out ∧ IsAnswer mgmt names out)

/-- When that is so. With `var` the first name on the list: it is known, and the answer does not
fit, or no other name is known and its pair goes into the buffer once but not twice. -/
def GetValuesFits (names : List (List UInt8)) (buf : ℕ → UInt8) (env : FcgiHash)
    (input : List UInt8) : Prop :=
  match askedNames buf env input with
  | none => ¬ AnswerFits mgmt names
  | some [] => True
  | some (var :: _) => ∃ value, mgmt var = some value ∧ (¬ AnswerFits mgmt names ∨
      ((∀ name ∈ names, (mgmt name).isSome = true → name = var) ∧
        headerSize + 4 + 4 + var.length + value.length < bufSize ∧
        bufSize ≤
          headerSize + (pairBytes var value).length + 4 + 4 + var.length + value.length))

variable {mgmt}

/-! ## The loop -/

theorem valuesLoop_unknown {var : List UInt8} (h : mgmt var = none) (q : List (List UInt8))
    (fuel : ℕ) (out : List UInt8) : valuesLoop mgmt fuel (var :: q) out = none := by
  induction fuel with
  | zero => rfl
  | succ fuel ih =>
    rw [valuesLoop]
    simp only [h]
    exact ih

def copies (k : ℕ) (pair : List UInt8) : List UInt8 := (List.replicate k pair).flatten

theorem copies_succ (k : ℕ) (pair : List UInt8) : copies (k + 1) pair = copies k pair ++ pair := by
  rw [copies, List.replicate_succ', List.flatten_append]
  simp [copies]

theorem length_copies (k : ℕ) (pair : List UInt8) :
    (copies k pair).length = k * pair.length := by
  induction k with
  | zero => rw [copies, List.replicate_zero, List.flatten_nil, List.length_nil, Nat.zero_mul]
  | succ k ih => rw [copies_succ, List.length_append, ih, Nat.succ_mul]

/-- With `k` pairs in the buffer there is no space for another one, as the loop sees it. -/
def NoSpace (var value : List UInt8) (k : ℕ) : Prop :=
  bufSize ≤ headerSize + k * (pairBytes var value).length + 4 + 4 + var.length + value.length

theorem pairBytes_pos (var value : List UInt8) : 2 ≤ (pairBytes var value).length := by
  have hpos : ∀ n, 1 ≤ (lengthBytes n).length := by
    intro n
    unfold lengthBytes
    split <;> simp
  have hvar := hpos var.length
  have hvalue := hpos value.length
  simp only [pairBytes, List.length_append]
  omega

theorem valuesLoop_known {var value : List UInt8} (h : mgmt var = some value)
    (q : List (List UInt8)) (fuel : ℕ) {j : ℕ} {out : List UInt8}
    (hloop : valuesLoop mgmt fuel (var :: q) (copies j (pairBytes var value)) = some out) :
    ∃ k, j ≤ k ∧ out = copies k (pairBytes var value) ∧ NoSpace var value k ∧
      ∀ i, j ≤ i → i < k → ¬ NoSpace var value i := by
  induction fuel generalizing j with
  | zero => cases hloop
  | succ fuel ih =>
    rw [valuesLoop] at hloop
    simp only [h, length_copies] at hloop
    split at hloop
    · next hspace =>
      refine ⟨j, le_rfl, (Option.some.inj hloop).symm, hspace, fun i hle hlt => ?_⟩
      omega
    · next hspace =>
      rw [← copies_succ] at hloop
      obtain ⟨k, hle, hout, hk, hbefore⟩ := ih hloop
      refine ⟨k, by omega, hout, hk, fun i hi hik => ?_⟩
      by_cases heq : i = j
      · rw [heq]
        exact hspace
      · exact hbefore i (by omega) hik

theorem valuesLoop_ends {var value : List UInt8} (h : mgmt var = some value)
    (q : List (List UInt8)) (fuel : ℕ) {j : ℕ} (hfuel : bufSize ≤ 2 * (fuel + j)) :
    ∃ out, valuesLoop mgmt (fuel + 1) (var :: q) (copies j (pairBytes var value)) = some out := by
  have hpos := pairBytes_pos var value
  induction fuel generalizing j with
  | zero =>
    have hfull : j * 2 ≤ j * (pairBytes var value).length := Nat.mul_le_mul_left j hpos
    rw [valuesLoop]
    simp only [h, length_copies]
    rw [if_pos (by omega)]
    exact ⟨_, rfl⟩
  | succ fuel ih =>
    rw [valuesLoop]
    simp only [h, length_copies]
    split
    · exact ⟨_, rfl⟩
    · rw [← copies_succ]
      exact ih (by omega)

/-! ## Answers -/

theorem lengthCode_lengthBytes {n : ℕ} (h : n < 2147483648) : LengthCode n (lengthBytes n) := by
  have hmod : ∀ m, (UInt8.ofNat m).toNat = m % 256 := fun m => UInt8.toNat_ofNat'
  unfold lengthBytes
  split
  · next hone =>
    have hcode := LengthCode.one (UInt8.ofNat n) (by rw [hmod]; omega)
    rw [hmod, Nat.mod_eq_of_lt (by omega)] at hcode
    exact hcode
  · next hfour =>
    have hcode := LengthCode.four (UInt8.ofNat (n >>> 24 % 128 + 128)) (UInt8.ofNat (n >>> 16))
      (UInt8.ofNat (n >>> 8)) (UInt8.ofNat n) (by rw [hmod, Nat.shiftRight_eq_div_pow]; omega)
    rw [hmod, hmod, hmod, hmod] at hcode
    simp only [Nat.shiftRight_eq_div_pow] at hcode ⊢
    rw [show (n / 2 ^ 24 % 128 + 128) % 256 % 128 * 16777216 + n / 2 ^ 16 % 256 * 65536 +
      n / 2 ^ 8 % 256 * 256 + n % 256 = n by omega] at hcode
    exact hcode

theorem length_le_pairBytes (var value : List UInt8) :
    var.length + value.length ≤ (pairBytes var value).length := by
  simp only [pairBytes, List.length_append]
  omega

theorem pairCode_pairBytes {var value : List UInt8}
    (h : (pairBytes var value).length < 2147483648) :
    pairCode (var, value) (pairBytes var value) := by
  have hle := length_le_pairBytes var value
  have hvar : var.length < 2147483648 := by omega
  have hvalue : value.length < 2147483648 := by omega
  refine ⟨lengthBytes var.length, lengthBytes value.length, lengthCode_lengthBytes hvar,
    lengthCode_lengthBytes hvalue, ?_⟩
  simp only [pairBytes, List.append_assoc]

theorem coded_answerBytes (names : List (List UInt8))
    (h : (answerBytes mgmt names).length < 2147483648) :
    Coded pairCode (names.map fun name => (name, (mgmt name).getD []))
      (answerBytes mgmt names) := by
  induction names with
  | nil => exact .nil
  | cons name names ih =>
    rw [answerBytes, List.flatMap_cons, List.length_append] at h
    change _ + (answerBytes mgmt names).length < _ at h
    exact .cons (pairCode_pairBytes (by omega)) (ih (by omega))

theorem answerBytes_replicate (var : List UInt8) (k : ℕ) :
    answerBytes mgmt (List.replicate k var) = copies k (pairBytes var ((mgmt var).getD [])) := by
  induction k with
  | zero => rfl
  | succ k ih =>
    rw [copies, List.replicate_succ, List.replicate_succ, answerBytes, List.flatMap_cons,
      List.flatten_cons]
    exact congrArg _ ih

theorem isAnswer_copies_iff {names : List (List UInt8)} {var value : List UInt8} {k : ℕ}
    (hvar : var ∈ names) (hvalue : mgmt var = some value)
    (hlen : (copies k (pairBytes var value)).length < 2147483648) :
    IsAnswer mgmt names (copies k (pairBytes var value)) ↔
      k = 1 ∧ ∀ name ∈ names, (mgmt name).isSome = true → name = var := by
  have hsome : (mgmt var).isSome = true := by rw [hvalue]; rfl
  have hbytes : copies k (pairBytes var value) = answerBytes mgmt (List.replicate k var) := by
    rw [answerBytes_replicate, hvalue]
    rfl
  constructor
  · rintro ⟨known, hnodup, hmem, hout⟩
    rw [hbytes] at hout hlen
    have hcoded := coded_answerBytes known (hout ▸ hlen)
    have hcoded' := coded_answerBytes (List.replicate k var) hlen
    rw [hout] at hcoded'
    have hpairs := congrArg (List.map Prod.fst) (hcoded.unique prefixCode_pairCode hcoded')
    have hfst : ∀ l : List (List UInt8),
        (l.map fun name => (name, (mgmt name).getD [])).map Prod.fst = l := by
      intro l
      rw [List.map_map]
      exact List.map_id l
    rw [hfst, hfst] at hpairs
    have hin : var ∈ known := (hmem var).mpr ⟨hvar, hsome⟩
    rw [hpairs, List.nodup_replicate] at hnodup
    rw [hpairs, List.mem_replicate] at hin
    refine ⟨by omega, fun name hname hname' => ?_⟩
    have hother := (hmem name).mpr ⟨hname, hname'⟩
    rw [hpairs, List.mem_replicate] at hother
    exact hother.2
  · rintro ⟨rfl, honly⟩
    refine ⟨[var], List.nodup_singleton var, fun name => ?_, ?_⟩
    · rw [List.mem_singleton]
      constructor
      · rintro rfl
        exact ⟨hvar, hsome⟩
      · rintro ⟨hname, hname'⟩
        exact honly name hname hname'
    · rw [hbytes]
      rfl

/-! ## The names on the list -/

variable {env : FcgiHash} {past : UInt8}

/-- The list has names of the pairs, and some if there are pairs. -/
structure ListsNames (env : FcgiHash) (pairs : List (List UInt8 × List UInt8)) : Prop where
  wellFormed : env.WellFormed
  mem : ∀ name ∈ env.names, name ∈ pairs.map Prod.fst
  nonempty : env.names = [] → pairs = []

theorem ListsNames.set {pairs : List (List UInt8 × List UInt8)} (h : ListsNames env pairs)
    (hash_value : ℕ) (name val : List UInt8) :
    ListsNames (fcgi_hash_set env hash_value name val) (pairs ++ [(name, val)]) := by
  have hw := h.wellFormed
  refine ⟨fcgi_hash_set_wellFormed hw hash_value name val, ?_, ?_⟩
  · unfold fcgi_hash_set
    cases hfind : env.find hash_value name with
    | none =>
      intro other hother
      rw [List.map_append, List.mem_append]
      obtain ⟨p, hp, rfl⟩ := List.mem_map.mp hother
      rcases List.mem_cons.mp hp with rfl | hp
      · right
        rw [add_bucket_self]
        exact List.mem_singleton_self _
      · left
        have hlt : p < env.idx := by
          rw [hw.list, List.mem_reverse, List.mem_range] at hp
          exact hp
        rw [add_bucket_of_ne (Nat.ne_of_lt hlt)]
        exact h.mem _ (List.mem_map_of_mem hp)
    | some p =>
      intro other hother
      rw [List.map_append, List.mem_append]
      obtain ⟨q, hq, rfl⟩ := List.mem_map.mp hother
      left
      rw [assign_var]
      exact h.mem _ (List.mem_map_of_mem hq)
  · unfold fcgi_hash_set
    cases hfind : env.find hash_value name with
    | none =>
      intro hnil
      exact absurd (List.map_eq_nil_iff.mp hnil) (List.cons_ne_nil _ _)
    | some p =>
      intro hnil
      have hlt := (hw.find_eq_some_iff.mp hfind).1.1
      have hlist : env.list = [] := List.map_eq_nil_iff.mp hnil
      rw [hw.list, List.reverse_eq_nil_iff, List.range_eq_nil] at hlist
      omega

theorem askedNames_record {names : List (List UInt8)} {r : Record} (buf : ℕ → UInt8)
    (env : FcgiHash) (rest : List UInt8) (htype : r.type = FCGI_GET_VALUES.code)
    (hcoded : Coded pairCode (names.map fun name => (name, [])) r.content)
    {q : List (List UInt8)}
    (h : askedNames buf (fcgi_hash_clean env) (r.encode ++ rest) = some q) :
    (∀ name ∈ q, name ∈ names) ∧ (q = [] → names = []) := by
  unfold askedNames at h
  rw [readHeader_encode] at h
  dsimp only at h
  have hskip : ¬ ((headerOf r).type = FCGI_STDIN.code ∧ (headerOf r).contentLength = 0) := by
    rintro ⟨htype', -⟩
    exact absurd (htype.symm.trans htype') (by decide)
  rw [skipStdin, if_neg hskip] at h
  dsimp only at h
  split at h
  · cases h
  rw [if_pos (show (headerOf r).type = FCGI_GET_VALUES.code from htype)] at h
  have hread : safe_read (r.content ++ (r.padding ++ rest))
      ((headerOf r).contentLength + (headerOf r).paddingLength) =
        some (r.content ++ r.padding, rest) := safe_read_append r rest
  have htake : (r.content ++ r.padding).take (headerOf r).contentLength = r.content :=
    List.take_left' rfl
  rw [hread] at h
  dsimp only at h
  rw [htake] at h
  generalize hgot : fcgi_get_params (fcgi_hash_clean env) r.content _ = got at h
  obtain ⟨env', parsed⟩ := got
  cases parsed with
  | false => cases h
  | true =>
    have hclean : ListsNames (fcgi_hash_clean env) [] :=
      ⟨fcgi_hash_clean_wellFormed env, fun name hname => absurd hname List.not_mem_nil,
        fun _ => rfl⟩
    have hset : ∀ past env pairs (x : List UInt8) n val, n ≤ x.length → ListsNames env pairs →
        ListsNames (fcgi_hash_set env (bufferHash x past n) (x.take n) val)
          (pairs ++ [(x.take n, val)]) :=
      fun past env pairs x n val _ hlists => hlists.set (bufferHash x past n) (x.take n) val
    obtain ⟨more, hmore, hlists⟩ := getParams_inv (hset _) (Nat.le_refl _) hclean hgot
    have hpairs := hmore.unique prefixCode_pairCode hcoded
    rw [List.nil_append, hpairs] at hlists
    obtain rfl := Option.some.inj h
    refine ⟨fun name hname => ?_, fun hnil => ?_⟩
    · have hmem := hlists.mem name hname
      rw [List.map_map] at hmem
      simpa using hmem
    · exact List.map_eq_nil_iff.mp (hlists.nonempty hnil)

/-! ## The record is answered -/

theorem getValues_known_iff {names q : List (List UInt8)} {var value : List UInt8}
    (hvar : var ∈ names) (hvalue : mgmt var = some value) :
    (∃ fuel out, valuesLoop mgmt fuel (var :: q) [] = some out ∧
        (AnswerFits mgmt names → IsAnswer mgmt names out)) ↔
      (¬ AnswerFits mgmt names ∨ ((∀ name ∈ names, (mgmt name).isSome = true → name = var) ∧
        ¬ NoSpace var value 0 ∧ NoSpace var value 1)) := by
  have hsmall : ∀ k, (∀ i < k, ¬ NoSpace var value i) →
      (copies k (pairBytes var value)).length < 2147483648 := by
    intro k hbefore
    have hle : (pairBytes var value).length ≤ var.length + value.length + 8 := by
      have hcode : ∀ n, (lengthBytes n).length ≤ 4 := by
        intro n
        unfold lengthBytes
        split <;> simp
      have hvar := hcode var.length
      have hval := hcode value.length
      simp only [pairBytes, List.length_append]
      omega
    cases k with
    | zero => simp [copies]
    | succ k =>
      have hspace := hbefore k (Nat.lt_succ_self k)
      rw [length_copies, Nat.succ_mul]
      simp only [NoSpace, bufSize, maxLength] at hspace
      omega
  constructor
  · rintro ⟨fuel, out, hloop, hright⟩
    by_cases hfits : AnswerFits mgmt names
    · right
      obtain ⟨k, -, rfl, hk, hbefore⟩ := valuesLoop_known hvalue q fuel (j := 0) hloop
      have hanswer := hright hfits
      rw [isAnswer_copies_iff hvar hvalue (hsmall k fun i hi => hbefore i (Nat.zero_le i) hi)]
        at hanswer
      obtain ⟨rfl, honly⟩ := hanswer
      exact ⟨honly, hbefore 0 le_rfl Nat.one_pos, hk⟩
    · exact Or.inl hfits
  · intro hcond
    obtain ⟨out, hloop⟩ := valuesLoop_ends hvalue q bufSize (j := 0) (by omega)
    refine ⟨bufSize + 1, out, hloop, fun hfits => ?_⟩
    obtain hno | ⟨honly, hzero, hone⟩ := hcond
    · exact absurd hfits hno
    obtain ⟨k, -, rfl, hk, hbefore⟩ := valuesLoop_known hvalue q _ (j := 0) hloop
    -- there is space for the first pair only
    have hk1 : k = 1 := by
      have hne : k ≠ 0 := fun h0 => hzero (h0 ▸ hk)
      by_contra hne'
      exact hbefore 1 (Nat.zero_le 1) (by omega) hone
    rw [isAnswer_copies_iff hvar hvalue (hsmall k fun i hi => hbefore i (Nat.zero_le i) hi)]
    exact ⟨hk1, honly⟩

/-- The variables of a server that knows one, `A` with the value `0`. -/
def oneVariable (name : List UInt8) : Option (List UInt8) := if name = [65] then some [48] else none

end PhpRuntime.Fastcgi

import PhpRuntime.Lib.Positional
import PhpRuntime.Text.CInt

/-!
# `version_compare`

A version is brought into a canonical form, of which the components are separated by dots, and
two versions are compared component by component. A string is the bytes in front of its `NUL`.
-/

set_option autoImplicit false

namespace PhpRuntime.Text

/-! ## The canonical form -/

/-- `isspecialver` -/
def isspecialver (c : UInt8) : Bool := c = 45 ∨ c = 95 ∨ c = 43

/-- `isdig` -/
def isdig (c : UInt8) : Bool := isdigit c ∧ c ≠ 46

/-- `isndig` -/
def isndig (c : UInt8) : Bool := ¬ isdigit c ∧ c ≠ 46

/-- `if (lq != '.') *q++ = '.';` -/
def dotUnless (lq : UInt8) : List UInt8 := if lq ≠ 46 then [46] else []

/-- The loop of `php_canonicalize_version`: what is written. `lp` is the last character that was
read, and `lq` the last one that was written. -/
def canonicalizeLoop (lp lq : UInt8) : List UInt8 → List UInt8
  | [] => []
  | c :: p =>
    if isspecialver c then dotUnless lq ++ canonicalizeLoop c 46 p
    else if isndig lp ∧ isdig c ∨ isdig lp ∧ isndig c then
      dotUnless lq ++ c :: canonicalizeLoop c c p
    else if ¬ isalnum c then dotUnless lq ++ canonicalizeLoop c 46 p
    else c :: canonicalizeLoop c c p

/-- `php_canonicalize_version`. The length of the version is an `int`, which is taken to hold
it. -/
def canonicalizeVersion : List UInt8 → List UInt8
  | [] => []
  | c :: p => c :: canonicalizeLoop c c p

/-! ## Components -/

/-- `special_forms`: `dev`, `alpha`, `a`, `beta`, `b`, `RC`, `rc`, `#`, `pl` and `p`. -/
def specialForms : List (List UInt8 × ℤ) :=
  [([100, 101, 118], 0), ([97, 108, 112, 104, 97], 1), ([97], 1), ([98, 101, 116, 97], 2),
    ([98], 2), ([82, 67], 3), ([114, 99], 3), ([35], 4), ([112, 108], 5), ([112], 5)]

/-- `found`: the order of the first form that the component begins with. -/
def specialOrder (form : List UInt8) : ℤ :=
  match specialForms.find? fun f => f.1.isPrefixOf form with
  | some f => f.2
  | none => -1

/-- `compare_special_version_forms` -/
def compareSpecialVersionForms (form1 form2 : List UInt8) : ℤ :=
  (specialOrder form1 - specialOrder form2).sign

/-- `"#N#"` -/
def numberForm : List UInt8 := [35, 78, 35]

/-- `strtol(p, NULL, 10)` of a string that begins with a digit. -/
def strtol (p : List UInt8) : ℤ :=
  min LONG_MAX (Lib.Positional.value 10 ((p.takeWhile isdigit).map fun c => c.toNat - 48) : ℕ)

def compareComponents (p1 p2 : List UInt8) : ℤ :=
  if isdigit (p1.headD 0) ∧ isdigit (p2.headD 0) then (strtol p1 - strtol p2).sign
  else if ¬ isdigit (p1.headD 0) ∧ ¬ isdigit (p2.headD 0) then compareSpecialVersionForms p1 p2
  else if isdigit (p1.headD 0) then compareSpecialVersionForms numberForm p2
  else compareSpecialVersionForms p1 numberForm

/-! ## The comparison -/

/-- `n = strchr(p, '.')`: the component in front of it, and what is behind it. -/
def component (p : List UInt8) : List UInt8 := p.takeWhile (· != 46)

def behindDot (p : List UInt8) : Option (List UInt8) :=
  match p.dropWhile (· != 46) with
  | [] => none
  | _ :: n => some n

/-- The loop of `php_version_compare`: `compare`, and `p1` and `p2` where `n1` and `n2` are not
`NULL`. The turns are counted from above. -/
def versionLoop : ℕ → List UInt8 → List UInt8 →
    Except Undefined (ℤ × Option (List UInt8) × Option (List UInt8))
  | 0, _, _ => .error .endless
  | turns + 1, p1, p2 =>
    if p1 = [] ∨ p2 = [] then .ok (0, some p1, some p2)
    else
      let compare := compareComponents (component p1) (component p2)
      if compare ≠ 0 then .ok (compare, behindDot p1, behindDot p2)
      else
        match behindDot p1, behindDot p2 with
        | some p1, some p2 => versionLoop turns p1 p2
        | n1, n2 => .ok (0, n1, n2)

/-- What follows the loop. `again` is the function itself. -/
def versionRest (again : List UInt8 → List UInt8 → Except Undefined ℤ) (compare : ℤ)
    (n1 n2 : Option (List UInt8)) : Except Undefined ℤ :=
  if compare ≠ 0 then .ok compare
  else
    match n1, n2 with
    | some p1, _ => if isdigit (p1.headD 0) then .ok 1 else again p1 numberForm
    | none, some p2 => if isdigit (p2.headD 0) then .ok (-1) else again numberForm p2
    | none, none => .ok 0

/-- `ver1` and `ver2` -/
def versionForm (origVer : List UInt8) : List UInt8 :=
  if origVer.headD 0 = 35 then origVer else canonicalizeVersion origVer

/-- `php_version_compare`, with a bound on how often it calls itself. -/
def versionCompareAt : ℕ → List UInt8 → List UInt8 → Except Undefined ℤ
  | 0, _, _ => .error .endless
  | depth + 1, origVer1, origVer2 =>
    if origVer1 = [] ∧ origVer2 = [] then .ok 0
    else if origVer1 = [] ∨ origVer2 = [] then .ok (if origVer1 ≠ [] then 1 else -1)
    else do
      let (compare, n1, n2) ← versionLoop ((versionForm origVer1).length + 1)
        (versionForm origVer1) (versionForm origVer2)
      versionRest (versionCompareAt depth) compare n1 n2

/-- `php_version_compare`. Each call of itself is for a shorter version. -/
def versionCompare (origVer1 origVer2 : List UInt8) : Except Undefined ℤ :=
  versionCompareAt (2 * origVer1.length + 2 * origVer2.length + 2) origVer1 origVer2

end PhpRuntime.Text

import Mathlib.Data.Int.Notation
import PhpRuntime.Lib.ByteBuffer

/-!
# Resolving paths

`TSRM/tsrm_virtual_cwd.c` on a POSIX system: the realpath cache, `tsrm_realpath_r`, which resolves
a path in its buffer from the right end, and `virtual_file_ex`. Allocations do not fail, and a
`char` is signed. A C string is the list of the bytes before its NUL.
-/

set_option autoImplicit false

namespace PhpRuntime.Vcwd

open PhpRuntime.Lib

/-- `DEFAULT_SLASH`, which is the only `IS_SLASH`. -/
def slash : UInt8 := 47

/-- `'.'`. -/
def dot : UInt8 := 46

/-- `CWD_EXPAND`, `CWD_FILEPATH` and `CWD_REALPATH`. -/
inductive Mode where
  | expand
  | filepath
  | realpath
  deriving DecidableEq, Repr

/-- What `S_ISLNK` and `S_ISDIR` tell of a mode. -/
inductive FileType where
  | link
  | dir
  | other
  deriving DecidableEq, Repr

/-- `php_sys_lstat` and `php_sys_readlink`; `none` is an error. -/
structure FileSystem where
  lstat : List UInt8 → Option FileType
  readlink : List UInt8 → Option (List UInt8)

/-- The settings: `MAXPATHLEN`, the size of a `realpath_cache_bucket`, the limit and the time to
live of the cache, and `SG(application_path_roots)`. -/
structure Globals where
  maxpathlen : ℕ
  bucket_size : ℕ
  realpath_cache_size_limit : ℤ
  realpath_cache_ttl : ℤ
  application_path_roots : Option (List (List UInt8))

/-! ### The realpath cache -/

/-- `realpath_cache_bucket`. `terminator` is the byte behind `realpath`, and `shared` says that
`realpath` is the same pointer as `path`. -/
structure Bucket where
  key : UInt64
  path : List UInt8
  realpath : List UInt8
  terminator : UInt8
  shared : Bool
  is_dir : Bool
  expires : ℤ
  deriving DecidableEq, Repr

/-- `CWDG(realpath_cache)` and `CWDG(realpath_cache_size)`. -/
structure Cache where
  realpath_cache : ℕ → List Bucket
  realpath_cache_size : ℤ

def realpath_cache_key (path : List UInt8) : UInt64 :=
  path.foldl (fun h c => h * 16777619 ^^^ c.toInt8.toInt64.toUInt64) 2166136261

/-- The index of a key in `CWDG(realpath_cache)`. -/
def cacheIndex (key : UInt64) : ℕ := key.toNat % 1024

def Bucket.size (g : Globals) (b : Bucket) : ℤ :=
  if b.shared then g.bucket_size + b.path.length + 1
  else g.bucket_size + b.path.length + 1 + b.realpath.length + 1

def Cache.setChain (cache : Cache) (n : ℕ) (chain : List Bucket) : ℕ → List Bucket :=
  fun k => if k = n then chain else cache.realpath_cache k

def realpath_cache_clean : Cache := ⟨fun _ => [], 0⟩

/-- The chain without the bucket of a path, and that bucket. -/
def removeBucket (key : UInt64) (path : List UInt8) : List Bucket → List Bucket × Option Bucket
  | [] => ([], none)
  | b :: next =>
    if key = b.key ∧ path = b.path then (next, some b)
    else
      let (rest, found) := removeBucket key path next
      (b :: rest, found)

def realpath_cache_del (g : Globals) (cache : Cache) (path : List UInt8) : Cache :=
  let key := realpath_cache_key path
  let n := cacheIndex key
  match removeBucket key path (cache.realpath_cache n) with
  | (_, none) => cache
  | (chain, some r) => ⟨cache.setChain n chain, cache.realpath_cache_size - r.size g⟩

def realpath_cache_add (g : Globals) (cache : Cache) (path realpath : List UInt8)
    (terminator : UInt8) (is_dir : Bool) (t : ℤ) : Cache :=
  let same := decide (realpath = path)
  let b : Bucket :=
    { key := realpath_cache_key path
      path := path
      realpath := realpath
      terminator := if same then 0 else terminator
      shared := same
      is_dir := is_dir
      expires := t + g.realpath_cache_ttl }
  let n := cacheIndex b.key
  if cache.realpath_cache_size + b.size g ≤ g.realpath_cache_size_limit then
    ⟨cache.setChain n (b :: cache.realpath_cache n), cache.realpath_cache_size + b.size g⟩
  else cache

/-- The walk along a chain: what is left of it, the size of what has expired, and the bucket. -/
def findBucket (g : Globals) (key : UInt64) (path : List UInt8) (t : ℤ) :
    List Bucket → List Bucket × ℤ × Option Bucket
  | [] => ([], 0, none)
  | b :: next =>
    if g.realpath_cache_ttl ≠ 0 ∧ b.expires < t then
      let (rest, freed, found) := findBucket g key path t next
      (rest, b.size g + freed, found)
    else if key = b.key ∧ path = b.path then (b :: next, 0, some b)
    else
      let (rest, freed, found) := findBucket g key path t next
      (b :: rest, freed, found)

def realpath_cache_find (g : Globals) (cache : Cache) (path : List UInt8) (t : ℤ) :
    Option Bucket × Cache :=
  let key := realpath_cache_key path
  let n := cacheIndex key
  let (chain, freed, found) := findBucket g key path t (cache.realpath_cache n)
  (found, ⟨cache.setChain n chain, cache.realpath_cache_size - freed⟩)

/-! ### `tsrm_realpath_r` -/

/-- The arguments of `tsrm_realpath_r` that are passed by value. -/
structure Request where
  start : ℕ
  len : ℕ
  use_realpath : Mode
  is_dir : Bool

/-- What `tsrm_realpath_r` works on: the path, `*ll`, `*t` and the cache. -/
structure Walk where
  path : ByteBuffer
  ll : ℕ
  t : ℤ
  cache : Cache

/-- What it returns, `none` for -1, and what it sets `*link_is_dir` to. -/
structure Answer where
  ret : Option ℕ
  link_is_dir : Option Bool
  walk : Walk

def LINK_MAX : ℕ := 32

/-- `while (i > start && !IS_SLASH(path[i-1])) i--`. -/
def componentStart (path : ℕ → UInt8) (start : ℕ) : ℕ → ℕ
  | 0 => 0
  | i + 1 => if start < i + 1 ∧ path i ≠ slash then componentStart path start i else i + 1

/-- `while (j > start && !IS_SLASH(path[j])) j--`. -/
def parentEnd (path : ℕ → UInt8) (start : ℕ) : ℕ → ℕ
  | 0 => 0
  | j + 1 => if start < j + 1 ∧ path (j + 1) ≠ slash then parentEnd path start j else j + 1

/-- Whether `strncmp(root, path, len) == 0` for an application root. -/
def atRoot (g : Globals) (start len : ℕ) (path : ByteBuffer) : Bool :=
  match g.application_path_roots with
  | none => false
  | some roots => decide (start < len) && roots.any fun root => root.take len = path.cstring len

/-- The call of `tsrm_realpath_r`: an application root answers it, else its loop does. -/
def enter (g : Globals) (loop : Request → Walk → Option Answer) (r : Request) (w : Walk) :
    Option Answer :=
  if atRoot g r.start r.len w.path then
    some ⟨some r.len, none, { w with path := w.path.set r.len 0 }⟩
  else loop r w

/-- A `..` behind a resolved path of length `j`. -/
def removeLast (start : ℕ) (path : ByteBuffer) (j : ℕ) : ℕ × ByteBuffer :=
  if start < j then
    let j := parentEnd path.cell start (j - 1)
    if start = 0 then
      -- a leading `..` of a relative path is not removed
      if j = 0 ∧ path.cell 0 = dot ∧ path.cell 1 = dot ∧ path.cell 2 = slash then
        (5, ((path.set 3 dot).set 4 dot).set 5 slash)
      else if 0 < j ∧ path.cell (j + 1) = dot ∧ path.cell (j + 2) = dot ∧
          path.cell (j + 3) = slash then
        (j + 6, ((path.set (j + 4) dot).set (j + 5) dot).set (j + 6) slash)
      else (j, path)
    else (j, path)
  else if start = 0 ∧ j = 0 then
    (2, ((path.set 0 dot).set 1 dot).set 2 slash)
  else (j, path)

/-- The end of a call that has resolved its last component: the path is saved in the cache if
`save` is still set. `tmp` is the path that was asked for. -/
def saveRealpath (g : Globals) (r : Request) (save : Bool) (tmp : List UInt8) (directory : Bool)
    (j : ℕ) (w : Walk) : Walk :=
  if save ∧ r.start ≠ 0 ∧ g.realpath_cache_size_limit ≠ 0 then
    { w with cache :=
        realpath_cache_add g w.cache tmp (w.path.bytes 0 j) (w.path.cell j) directory w.t }
  else w

/-- The branch of a symbolic link. Without a component in front of a relative target
`memcpy` is called with the size -1, which has no result. -/
def followLink (g : Globals) (fs : FileSystem) (call : Request → Walk → Option Answer)
    (r : Request) (i : ℕ) (w : Walk) : Option Answer :=
  let tmp := w.path.bytes 0 r.len
  let w := { w with ll := w.ll + 1 }
  if LINK_MAX < w.ll then some ⟨none, none, w⟩
  else
    match fs.readlink (w.path.cstring r.len) with
    | none => some ⟨none, none, w⟩
    | some link =>
      let target := link.take g.maxpathlen
      let j := target.length
      let path := (w.path.copy 0 target).set j 0
      let answer :=
        if path.cell 0 = slash then
          call { r with start := 1, len := j } { w with path := path }
        else if g.maxpathlen ≤ i + j + 1 then some ⟨none, none, { w with path := path }⟩
        else if i = 0 then none
        else
          let path := path.copy i (path.bytes 0 (j + 1))
          let path := (path.copy 0 (tmp.take (i - 1))).set (i - 1) slash
          call { r with len := i + j } { w with path := path }
      answer.map fun a =>
        match a.ret with
        | none => ⟨none, none, a.walk⟩
        | some j =>
          let directory := a.link_is_dir.getD false
          ⟨some j, some directory, saveRealpath g r true tmp directory j a.walk⟩

/-- The directories in front of a component are resolved, and a slash is put behind them. -/
def resolveFront (call : Request → Walk → Option Answer) (r : Request) (save : Bool) (i : ℕ)
    (w : Walk) : Option (Option ℕ × Walk) :=
  if i - 1 ≤ r.start then some (some r.start, w)
  else
    -- some leading directories may be unaccessable
    (call ⟨r.start, i - 1, if save then .filepath else r.use_realpath, true⟩ w).map fun a =>
      match a.ret with
      | none => (none, a.walk)
      | some j =>
        if r.start < j then (some (j + 1), { a.walk with path := a.walk.path.set j slash })
        else (some j, a.walk)

/-- The branch of a file that is not a symbolic link, or for which there is no `lstat`. -/
def appendComponent (g : Globals) (call : Request → Walk → Option Answer) (r : Request)
    (st : Option FileType) (i : ℕ) (w : Walk) : Option Answer :=
  let tmp := w.path.bytes 0 (r.len + 1)
  let save := st.isSome
  let directory := decide (st = some .dir)
  let link_is_dir := if save then some directory else none
  if save ∧ r.is_dir ∧ ¬ directory then some ⟨none, link_is_dir, w⟩
  else
    (resolveFront call r save i w).map fun
      | (none, w) => ⟨none, link_is_dir, w⟩
      | (some j, w) =>
        if g.maxpathlen ≤ j + (r.len - i) + 1 then ⟨none, link_is_dir, w⟩
        else
          let w := { w with path := w.path.copy j (tmp.drop i) }
          let j := j + (r.len - i)
          ⟨some j, link_is_dir, saveRealpath g r save (tmp.take r.len) directory j w⟩

/-- The last component of a path is neither empty nor `.` nor `..`. -/
def resolveComponent (g : Globals) (fs : FileSystem) (now : ℤ)
    (call : Request → Walk → Option Answer) (r : Request) (i : ℕ) (w : Walk) : Option Answer :=
  let w := { w with path := w.path.set r.len 0 }
  let save := decide (r.use_realpath ≠ .expand)
  let lookup := decide (r.start ≠ 0) && save && decide (g.realpath_cache_size_limit ≠ 0)
  let t : ℤ := if lookup ∧ w.t = (0 : ℤ) then now else w.t
  let (bucket, cache) :=
    if lookup then realpath_cache_find g w.cache (w.path.bytes 0 r.len) t else (none, w.cache)
  let w := { w with t := t, cache := cache }
  match bucket with
  | some b =>
    if r.is_dir ∧ ¬ b.is_dir then some ⟨none, none, w⟩
    else
      some ⟨some b.realpath.length, some b.is_dir,
        { w with path := w.path.copy 0 (b.realpath ++ [b.terminator]) }⟩
  | none =>
    let st := if save then fs.lstat (w.path.cstring r.len) else none
    if save ∧ st = none ∧ r.use_realpath = .realpath then some ⟨none, none, w⟩
    else if st = some .link then followLink g fs call r i w
    else appendComponent g call r st i w

/-- The loop of `tsrm_realpath_r`. Where the source has the length `i - 1` of a path with `i = 0`,
0 does the same: no start is below it. -/
def realpathLoop (g : Globals) (fs : FileSystem) (now : ℤ) :
    ℕ → Request → Walk → Option Answer
  | 0, _, _ => none
  | fuel + 1, r, w =>
    if r.len ≤ r.start then some ⟨some r.start, some true, w⟩
    else
      let i := componentStart w.path.cell r.start r.len
      if i = r.len ∨ i + 1 = r.len ∧ w.path.cell i = dot then
        realpathLoop g fs now fuel { r with len := i - 1, is_dir := true } w
      else if i + 2 = r.len ∧ w.path.cell i = dot ∧ w.path.cell (i + 1) = dot then
        if i - 1 ≤ r.start then
          some ⟨some (if r.start ≠ 0 then r.start else r.len), some true, w⟩
        else
          (enter g (realpathLoop g fs now fuel) ⟨r.start, i - 1, r.use_realpath, true⟩ w).map
            fun a =>
              match a.ret with
              | none => ⟨none, some true, a.walk⟩
              | some j =>
                let (j, path) := removeLast r.start a.walk.path j
                ⟨some j, some true, { a.walk with path := path }⟩
      else resolveComponent g fs now (enter g (realpathLoop g fs now fuel)) r i w

def tsrm_realpath_r (g : Globals) (fs : FileSystem) (now : ℤ) (fuel : ℕ) (r : Request)
    (w : Walk) : Option Answer :=
  enter g (realpathLoop g fs now fuel) r w

/-! ### `virtual_file_ex` -/

/-- What `virtual_file_ex` returns, the working directory and the cache that it leaves, and the
buffer that it has used. -/
structure Resolved where
  ret : ℤ
  cwd : List UInt8
  cache : Cache
  resolved_path : ByteBuffer

/-- A call of `tsrm_realpath_r` follows at most `LINK_MAX` links, each to a path of at most
`MAXPATHLEN` bytes. -/
def realpathFuel (g : Globals) : ℕ := (LINK_MAX + 2) * (g.maxpathlen + 2)

/-- The path that is to be resolved and its start, when it is not too long. -/
def joinCwd (g : Globals) (cwd path : List UInt8) : Option (ℕ × List UInt8) :=
  if path.head? ≠ some slash then
    if cwd = [] then some (0, path)
    else if g.maxpathlen ≤ path.length + cwd.length + 2 then none
    else if cwd.getLast? = some slash then some (1, cwd ++ path)
    else some (1, cwd ++ slash :: path)
  else some (1, path)

/-- The end of the path: a dot when it is empty, and the slash that the path had. There is none
(-1) when the slash does not fit. -/
def finishPath (g : Globals) (start : ℕ) (add_slash : Bool) (j : ℕ) (path : ByteBuffer) :
    Option ℕ × ByteBuffer :=
  let (j, path) := if start = 0 ∧ j = 0 then (1, path.set 0 dot) else (j, path)
  if add_slash ∧ 0 < j ∧ path.cell (j - 1) ≠ slash then
    if g.maxpathlen ≤ j + 1 then (none, path)
    else (some (j + 1), (path.set j slash).set (j + 1) 0)
  else (some j, path.set j 0)

/-- `garbage` is what `resolved_path` holds at first, and `now` is `time(0)`. A `verify_path` that
is there says whether it refuses the path. -/
def virtual_file_ex (g : Globals) (fs : FileSystem) (now : ℤ) (cache : Cache)
    (garbage : ℕ → UInt8) (cwd path : List UInt8) (verify_path : Option (List UInt8 → Bool))
    (use_realpath : Mode) : Option Resolved :=
  if path.length = 0 ∨ g.maxpathlen ≤ path.length + 1 then some ⟨1, cwd, cache, ⟨garbage, 0⟩⟩
  else
    match joinCwd g cwd path with
    | none => some ⟨1, cwd, cache, ⟨garbage, 0⟩⟩
    | some (start, joined) =>
      let add_slash := decide (use_realpath ≠ .realpath) && decide (joined.getLast? = some slash)
      let t : ℤ := if g.realpath_cache_ttl ≠ 0 then 0 else -1
      (tsrm_realpath_r g fs now (realpathFuel g) ⟨start, joined.length, use_realpath, false⟩
        ⟨(ByteBuffer.mk garbage 0).copy 0 (joined ++ [0]), 0, t, cache⟩).map fun a =>
        match a.ret with
        | none => ⟨1, cwd, a.walk.cache, a.walk.path⟩
        | some j =>
          match finishPath g start add_slash j a.walk.path with
          | (none, path) => ⟨-1, cwd, a.walk.cache, path⟩
          | (some j, path) =>
            if verify_path.any fun refuses => refuses (path.bytes 0 j) then
              ⟨1, cwd, a.walk.cache, path⟩
            else ⟨0, path.bytes 0 j, a.walk.cache, path⟩

end PhpRuntime.Vcwd

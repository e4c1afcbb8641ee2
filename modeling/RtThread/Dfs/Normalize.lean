import RtThread.Dfs.Path
import RtThread.KService.Snprintf

/-!
# `dfs_normalize_path`

The in-place scan of `dfs.c:374-496` with its two positions `src` and `dst`. A `..` that has nothing
to remove is not noticed at once: it takes away the leading slash, and the scan goes on with a
relative path. Only the next one ends it.
-/

namespace RtThread
open Char
open Nat
open Buffer
open Option (bind_some bind_eq_bind)
open List

/-- `while ((*src == '/') && (*src != '\0')) src ++;`, and also
`while (c == '/') c = *src++; src --;` behind a slash. -/
def skipSlashes (buf : List Byte) : Nat → Nat → Option Nat
  | 0, _ => none
  | n + 1, src => do
    let c ← buf[src]?
    if c = slash then skipSlashes buf n (src + 1) else some src

/-- `while ((c = *src++) != '\0' && c != '/') *dst ++ = c;`: the last `c`, the buffer, `src` and
`dst`. -/
def copyName : Nat → List Byte → Nat → Nat → Option (Byte × List Byte × Nat × Nat)
  | 0, _, _, _ => none
  | n + 1, buf, src, dst => do
    let c ← buf[src]?
    if c ≠ 0 ∧ c ≠ slash then
      let buf ← store buf dst c
      copyName n buf (src + 1) (dst + 1)
    else some (c, buf, src + 1, dst)

/-- `while (dst0 < dst && dst[-1] != '/') dst --;`. -/
def backUp (buf : List Byte) : Nat → Option Nat
  | 0 => some 0
  | dst + 1 => do
    let c ← buf[dst]?
    if c ≠ slash then backUp buf dst else some (dst + 1)

inductive PathRound
  /-- the next round -/
  | next (buf : List Byte) (src dst : Nat)
  /-- `break` -/
  | stop (buf : List Byte) (dst : Nat)
  /-- `return NULL` -/
  | null

/-- Copy up the next `'/'` and erase all `'/'` (`:449-463`). -/
def copyUp (buf : List Byte) (src dst : Nat) : Option PathRound := do
  let (c, buf, src, dst) ← copyName (buf.length + 1) buf src dst
  if c = slash then
    let buf ← store buf dst slash
    let src ← skipSlashes buf (buf.length + 1) src
    some (.next buf src (dst + 1))
  else some (.stop buf dst)

/-- `up_one` (`:467-475`). -/
def upOne (buf : List Byte) (src dst : Nat) : Option PathRound :=
  match dst with
  | 0 => some .null
  | dst + 1 => do
    let dst ← backUp buf dst
    some (.next buf src dst)

/-- A round of the loop (`:413-476`). -/
def pathRound (buf : List Byte) (src dst : Nat) : Option PathRound := do
  let c ← buf[src]?
  if c = dot then
    let c₁ ← buf[src + 1]?
    if c₁ = 0 then copyUp buf (src + 1) dst
    else if c₁ = slash then
      let src ← skipSlashes buf (buf.length + 1) (src + 2)
      some (.next buf src dst)
    else if c₁ = dot then
      let c₂ ← buf[src + 2]?
      if c₂ = 0 then upOne buf (src + 2) dst
      else if c₂ = slash then
        let src ← skipSlashes buf (buf.length + 1) (src + 3)
        upOne buf src dst
      else copyUp buf src dst
    else copyUp buf src dst
  else copyUp buf src dst

/-- The loop, at most `n` rounds: the buffer and `dst`, or `none` for `return NULL`. -/
def pathLoop : Nat → List Byte → Nat → Nat → Option (Option (List Byte × Nat))
  | 0, _, _, _ => none
  | n + 1, buf, src, dst => do
    match ← pathRound buf src dst with
    | .next buf src dst => pathLoop n buf src dst
    | .stop buf dst => some (some (buf, dst))
    | .null => some none

/-- What is done behind the loop (`:478-493`). -/
def pathEnd (buf : List Byte) (dst : Nat) : Option (List Byte) := do
  let buf ← store buf dst 0
  -- remove '/' in the end of path if exist; there is no byte in front of the buffer
  let buf ←
    match dst with
    | 0 => none
    | 0 + 1 => some buf
    | dst + 2 => do
      let c ← buf[dst + 1]?
      if c = slash then store buf (dst + 1) 0 else some buf
  -- final check fullpath is not empty
  let c ← buf[0]?
  if c = 0 then
    let buf ← store buf 0 slash
    store buf 1 0
  else some buf

inductive PathResult
  | null
  | path (fullpath : List Byte)
  deriving DecidableEq

def normalizeBuffer (buf : List Byte) : Option PathResult := do
  match ← pathLoop (buf.length + 1) buf 0 0 with
  | none => some .null
  | some (buf, dst) =>
    let buf ← pathEnd buf dst
    some (.path (cstr buf))

/-- `dfs_normalize_path` (`:374-496`) without `DFS_USING_WORKDIR`. `fresh` is what the memory of
`rt_malloc` holds. An access outside of the buffer has no result. -/
def dfsNormalizePath (fresh : Nat → Byte) (directory : Option (List Byte)) (filename : List Byte) :
    Option PathResult :=
  if filename.head? = some slash then normalizeBuffer (filename ++ [0])
  else
    match directory with
    | none => some .null
    | some directory => do
      let size := directory.length + filename.length + 2
      let buf ← Printf.rtSnprintf ((range size).map fresh) size Printf.joinFormat
        [.str (some (.ofBytes directory)), .str (some (.ofBytes filename))]
      normalizeBuffer buf

variable {buf s name sep out : List Byte} {src dst n : Nat}

theorem skipSlashes_reads (h : Reads buf src s) (hn : s.length < n) :
    ∃ src', skipSlashes buf n src = some src' ∧ src ≤ src' ∧
      Reads buf src' (s.dropWhile (· = slash)) := by
  induction s generalizing src n with
  | nil =>
    obtain ⟨n, rfl⟩ := exists_eq_succ_of_ne_zero (ne_of_gt hn)
    refine ⟨src, ?_, le_rfl, h⟩
    rw [skipSlashes, h.getElem?_nil]
    rfl
  | cons c s ih =>
    obtain ⟨n, rfl⟩ := exists_eq_succ_of_ne_zero (ne_zero_of_lt hn)
    rw [skipSlashes, h.getElem?_cons, bind_eq_bind, bind_some]
    by_cases hc : c = slash
    · rw [if_pos hc, dropWhile_cons_of_pos (by simpa using hc)]
      obtain ⟨src', hskip, hle, hreads⟩ := ih h.tail (lt_of_succ_lt_succ hn)
      exact ⟨src', hskip, by omega, hreads⟩
    · rw [if_neg hc, dropWhile_cons_of_neg (by simpa using hc)]
      exact ⟨src, rfl, le_rfl, h⟩

/-- The scan has written `out` and has `s` before it. -/
structure Scan (buf : List Byte) (src dst : Nat) (out s : List Byte) : Prop where
  take : buf.take dst = out
  length : dst = out.length
  le : dst ≤ src
  reads : Reads buf src s

theorem Scan.dst_lt (h : Scan buf src dst out s) : dst < buf.length := by
  have := h.reads.lt
  have := h.le
  omega

theorem Scan.store {c d : Byte} (h : Scan buf src dst out (c :: s)) :
    Buffer.store buf dst d = some (buf.set dst d) ∧
    Scan (buf.set dst d) (src + 1) (dst + 1) (out ++ [d]) s := by
  have hle := h.le
  refine ⟨store_of_lt h.dst_lt, ?_, ?_, by omega, h.reads.tail.set (by omega)⟩
  · rw [take_succ_set h.dst_lt, h.take]
  · simp [h.length]

theorem copyName_scan (h : Scan buf src dst out (name ++ sep)) (hname : slash ∉ name)
    (hsep : sep = [] ∨ sep.head? = some slash) (hn : name.length < n) :
    ∃ buf', copyName n buf src dst =
        some (sep.headD 0, buf', src + name.length + 1, dst + name.length) ∧
      Scan buf' (src + name.length) (dst + name.length) (out ++ name) sep := by
  induction name generalizing buf src dst out n with
  | nil =>
    obtain ⟨n, rfl⟩ := exists_eq_succ_of_ne_zero (ne_of_gt hn)
    refine ⟨buf, ?_, by simpa using h⟩
    rw [copyName]
    rcases hsep with rfl | hsep
    · simp [h.reads.getElem?_nil]
    · obtain ⟨sep, rfl⟩ := head?_eq_some_iff.mp hsep
      simp [h.reads.getElem?_cons]
  | cons c name ih =>
    obtain ⟨n, rfl⟩ := exists_eq_succ_of_ne_zero (ne_zero_of_lt hn)
    obtain ⟨hstore, hscan⟩ := h.store
    have hc : c ≠ 0 ∧ c ≠ slash :=
      ⟨h.reads.ne_zero, fun hc => hname (by simp [hc])⟩
    obtain ⟨buf', hcopy, hscan'⟩ := ih hscan (fun hmem => hname (by simp [hmem]))
      (lt_of_succ_lt_succ hn)
    have hsrc : src + 1 + name.length = src + (c :: name).length := by simp; omega
    have hdst : dst + 1 + name.length = dst + (c :: name).length := by simp; omega
    rw [hsrc, hdst] at hcopy hscan'
    refine ⟨buf', ?_, by simpa using hscan'⟩
    rw [copyName, h.reads.getElem?_cons, bind_eq_bind, bind_some, if_pos hc, hstore]
    exact hcopy

theorem backUp_name (hname : slash ∉ name) (hout : out = [] ∨ out.getLast? = some slash)
    (hbuf : buf.take (out.length + name.length) = out ++ name) :
    backUp buf (out.length + name.length) = some out.length := by
  induction name using reverseRecOn with
  | nil =>
    rcases hout with rfl | hlast
    · rfl
    · obtain ⟨out, rfl⟩ := getLast?_eq_some_iff.mp hlast
      rw [append_nil, length_nil, add_zero, length_append, length_singleton] at hbuf
      rw [length_nil, add_zero, length_append, length_singleton, backUp, getElem?_of_take hbuf]
      rfl
  | append_singleton name c ih =>
    have hlen : out.length + (name ++ [c]).length = (out ++ name).length + 1 := by
      simp
      omega
    rw [hlen, ← append_assoc] at hbuf
    have hc : c ≠ slash := fun hc => hname (by simp [hc])
    have hprev := take_of_take_append hbuf
    rw [hlen, backUp, getElem?_of_take hbuf, bind_eq_bind, bind_some, if_pos hc]
    rw [length_append] at hprev ⊢
    exact ih (fun hmem => hname (by simp [hmem])) hprev

theorem copyUp_last (h : Scan buf src dst out name) (hname : slash ∉ name) :
    ∃ buf', copyUp buf src dst = some (.stop buf' (dst + name.length)) ∧
      Scan buf' (src + name.length) (dst + name.length) (out ++ name) [] := by
  have hlt := h.reads.lt
  have hscan : Scan buf src dst out (name ++ []) := by rwa [append_nil]
  obtain ⟨buf', hcopy, hscan'⟩ :=
    copyName_scan hscan hname (.inl rfl) (n := buf.length + 1) (by omega)
  refine ⟨buf', ?_, hscan'⟩
  rw [copyUp, hcopy]
  rfl

theorem copyUp_slash (h : Scan buf src dst out (name ++ slash :: s)) (hname : slash ∉ name) :
    ∃ buf' src', copyUp buf src dst = some (.next buf' src' (dst + name.length + 1)) ∧
      Scan buf' src' (dst + name.length + 1) (out ++ name ++ [slash])
        (s.dropWhile (· = slash)) := by
  have hlt := h.reads.lt
  rw [length_append] at hlt
  obtain ⟨buf1, hcopy, hscan1⟩ :=
    copyName_scan h hname (.inr rfl) (n := buf.length + 1) (by omega)
  obtain ⟨hstore, hscan2⟩ := hscan1.store (d := slash)
  have hlt2 := hscan2.reads.lt
  obtain ⟨src', hskip, hle, hreads⟩ := skipSlashes_reads hscan2.reads
    (n := (buf1.set (dst + name.length) slash).length + 1) (by omega)
  refine ⟨_, src', ?_, hscan2.take, hscan2.length, le_trans hscan2.le hle, hreads⟩
  rw [copyUp, hcopy, bind_eq_bind, bind_some]
  simp only [headD_cons, if_true, hstore, bind_eq_bind, bind_some, hskip]

theorem pathRound_name (dst : Nat) (h : Reads buf src (name ++ sep)) (hne : name ≠ [])
    (hslash : slash ∉ name) (hdot : name ≠ [dot]) (hdotdot : name ≠ [dot, dot]) :
    pathRound buf src dst = copyUp buf src dst := by
  obtain ⟨c, name, rfl⟩ := exists_cons_of_ne_nil hne
  rw [pathRound, h.getElem?_cons, bind_eq_bind, bind_some]
  by_cases hc : c = dot
  · subst hc
    obtain ⟨d, name, rfl⟩ : ∃ d rest, name = d :: rest :=
      exists_cons_of_ne_nil fun hnil => hdot (by rw [hnil])
    have hd : d ≠ 0 ∧ d ≠ slash := ⟨h.tail.ne_zero, fun hd => hslash (by simp [hd])⟩
    rw [if_pos rfl, h.tail.getElem?_cons, bind_some, if_neg hd.1, if_neg hd.2]
    by_cases hd' : d = dot
    · subst hd'
      obtain ⟨e, name, rfl⟩ : ∃ e rest, name = e :: rest :=
        exists_cons_of_ne_nil fun hnil => hdotdot (by rw [hnil])
      have he : e ≠ 0 ∧ e ≠ slash := ⟨h.tail.tail.ne_zero, fun he => hslash (by simp [he])⟩
      rw [if_pos rfl, h.tail.tail.getElem?_cons, bind_some, if_neg he.1, if_neg he.2]
    · rw [if_neg hd']
  · rw [if_neg hc]

theorem pathRound_nil (h : Scan buf src dst out []) :
    ∃ buf', pathRound buf src dst = some (.stop buf' dst) ∧ Scan buf' src dst out [] := by
  obtain ⟨buf', hcopy, hscan⟩ := copyUp_last h not_mem_nil
  refine ⟨buf', ?_, by simpa using hscan⟩
  rw [pathRound, h.reads.getElem?_nil, bind_eq_bind, bind_some, if_neg (by decide)]
  simpa using hcopy

theorem pathRound_dot_last (h : Scan buf src dst out [dot]) :
    ∃ buf', pathRound buf src dst = some (.stop buf' dst) ∧ Scan buf' (src + 1) dst out [] := by
  have hscan : Scan buf (src + 1) dst out [] :=
    ⟨h.take, h.length, le_succ_of_le h.le, h.reads.tail⟩
  obtain ⟨buf', hcopy, hscan'⟩ := copyUp_last hscan not_mem_nil
  refine ⟨buf', ?_, by simpa using hscan'⟩
  rw [pathRound, h.reads.getElem?_cons, bind_eq_bind, bind_some, if_pos rfl,
    h.reads.tail.getElem?_nil, bind_some, if_pos rfl]
  simpa using hcopy

theorem pathRound_dot (h : Scan buf src dst out (dot :: slash :: s)) :
    ∃ src', pathRound buf src dst = some (.next buf src' dst) ∧
      Scan buf src' dst out (s.dropWhile (· = slash)) := by
  have hlt := h.reads.tail.tail.lt
  obtain ⟨src', hskip, hle, hreads⟩ := skipSlashes_reads h.reads.tail.tail (n := buf.length + 1)
    (by omega)
  have hle' := h.le
  refine ⟨src', ?_, h.take, h.length, by omega, hreads⟩
  rw [pathRound, h.reads.getElem?_cons, bind_eq_bind, bind_some, if_pos rfl,
    h.reads.tail.getElem?_cons, bind_some, if_neg (by decide), if_pos rfl, hskip]
  rfl

/-- What `dst` stands behind between two rounds: the names with a slash behind each of them, and the
leading slash if it has not been taken away. -/
def dirText (absolute : Bool) (dir : List (List Byte)) : List Byte :=
  (if absolute then [slash] else []) ++ dir.flatMap (· ++ [slash])

variable {dir names : List (List Byte)} {absolute : Bool}

theorem dirText_snoc (absolute : Bool) (dir : List (List Byte)) (name : List Byte) :
    dirText absolute (dir ++ [name]) = dirText absolute dir ++ name ++ [slash] := by
  simp [dirText]

theorem dirText_true (dir : List (List Byte)) :
    dirText true dir = dir.flatMap (slash :: ·) ++ [slash] := by
  induction dir using reverseRecOn with
  | nil => rfl
  | append_singleton dir name ih => simp [dirText_snoc, ih]

theorem dirText_end (absolute : Bool) (dir : List (List Byte)) :
    dirText absolute dir = [] ∨ (dirText absolute dir).getLast? = some slash := by
  induction dir using reverseRecOn with
  | nil => cases absolute <;> simp [dirText]
  | append_singleton dir name ih => exact .inr (by simp [dirText_snoc])

theorem upOne_scan (h : Scan buf src dst (dirText absolute (dir ++ [name])) s)
    (hname : slash ∉ name) :
    ∃ dst', upOne buf src dst = some (.next buf src dst') ∧
      Scan buf src dst' (dirText absolute dir) s := by
  have htake := h.take
  have hle := h.le
  have hlen := h.length
  rw [dirText_snoc] at htake hlen
  rw [length_append, length_append, length_singleton] at hlen
  have hprev := take_of_take_append htake
  refine ⟨(dirText absolute dir).length, ?_, take_of_take_append hprev, rfl, by omega, h.reads⟩
  rw [length_append] at hprev
  rw [hlen, upOne, backUp_name hname (dirText_end _ _) hprev]
  rfl

/-- At the root, the leading slash is taken away. -/
theorem upOne_root (h : Scan buf src dst (dirText true []) s) :
    upOne buf src dst = some (.next buf src 0) ∧ Scan buf src 0 (dirText false []) s := by
  obtain rfl : dst = 1 := h.length
  exact ⟨rfl, rfl, rfl, Nat.zero_le _, h.reads⟩

theorem upOne_null (h : Scan buf src dst (dirText false []) s) :
    upOne buf src dst = some .null := by
  obtain rfl : dst = 0 := h.length
  rfl

theorem pathRound_dotdot_last (h : Reads buf src [dot, dot]) :
    pathRound buf src dst = upOne buf (src + 2) dst := by
  rw [pathRound, h.getElem?_cons, bind_eq_bind, bind_some, if_pos rfl,
    h.tail.getElem?_cons, bind_some, if_neg (by decide), if_neg (by decide), if_pos rfl,
    h.tail.tail.getElem?_nil, bind_some, if_pos rfl]

theorem pathRound_dotdot (dst : Nat) (h : Reads buf src (dot :: dot :: slash :: s)) :
    ∃ src', pathRound buf src dst = upOne buf src' dst ∧ src ≤ src' ∧
      Reads buf src' (s.dropWhile (· = slash)) := by
  have hlt := h.tail.tail.tail.lt
  obtain ⟨src', hskip, hle, hreads⟩ := skipSlashes_reads h.tail.tail.tail (n := buf.length + 1)
    (by omega)
  refine ⟨src', ?_, by omega, hreads⟩
  rw [pathRound, h.getElem?_cons, bind_eq_bind, bind_some, if_pos rfl,
    h.tail.getElem?_cons, bind_some, if_neg (by decide), if_neg (by decide), if_pos rfl,
    h.tail.tail.getElem?_cons, bind_some, if_neg (by decide), if_pos rfl, hskip]
  rfl

/-- What the loop leaves in the buffer: the spelling of the path, with or without a slash behind
it. -/
def Ended (absolute : Bool) (text : List Byte) (names : List (List Byte)) : Prop :=
  text = dirText absolute names ∨
    ∃ init last, names = init ++ [last] ∧ text = dirText absolute init ++ last

theorem pathLoop_next {buf' : List Byte} {src' dst' : Nat}
    (h : pathRound buf src dst = some (.next buf' src' dst')) :
    pathLoop (n + 1) buf src dst = pathLoop n buf' src' dst' := by
  rw [pathLoop, h]
  rfl

theorem pathLoop_stop {buf' : List Byte} {dst' : Nat}
    (h : pathRound buf src dst = some (.stop buf' dst')) :
    pathLoop (n + 1) buf src dst = some (some (buf', dst')) := by
  rw [pathLoop, h]
  rfl

theorem pathLoop_null (h : pathRound buf src dst = some .null) :
    pathLoop (n + 1) buf src dst = some none := by
  rw [pathLoop, h]
  rfl

/-- What the scan makes of the components in front of it: `none` for `return NULL`, or the names
that the path has at the end, and if it is still absolute. -/
def scanNames (absolute : Bool) (dir : List (List Byte)) :
    List (List Byte) → Option (Bool × List (List Byte))
  | [] => some (absolute, dir)
  | name :: names =>
    if name = [dot] then scanNames absolute dir names
    else if name = [dot, dot] then
      if dir = [] then if absolute then scanNames false [] names else none
      else scanNames absolute dir.dropLast names
    else scanNames absolute (dir ++ [name]) names

section
variable {names' : List (List Byte)} {absolute' : Bool}

theorem scanNames_of_resolve (h : resolve dir names = some names') :
    scanNames absolute dir names = some (absolute, names') := by
  induction names generalizing dir with
  | nil => exact congrArg (·.map (absolute, ·)) h
  | cons name names ih =>
    rw [resolve] at h
    rw [scanNames]
    split_ifs at h ⊢
    all_goals exact ih h

theorem scanNames_of_excess (dir names : List (List Byte)) :
    (excess dir names ≠ 0 → scanNames false dir names = none) ∧
    (excess dir names = 1 → ∃ names', scanNames true dir names = some (false, names')) ∧
    (1 < excess dir names → scanNames true dir names = none) := by
  induction names generalizing dir with
  | nil => simp [excess]
  | cons name names ih =>
    simp only [scanNames, excess]
    split
    · exact ih dir
    · split
      · split
        · refine ⟨fun _ => rfl, fun hone => ?_, fun hmore => ?_⟩
          · have hrest : resolve [] names ≠ none := by
              rw [ne_eq, resolve_eq_none_iff]
              omega
            obtain ⟨names', hnames⟩ := Option.ne_none_iff_exists'.mp hrest
            exact ⟨names', scanNames_of_resolve hnames⟩
          · exact (ih []).1 (by omega)
        · exact ih _
      · exact ih _

theorem mem_of_scanNames (h : scanNames absolute dir names = some (absolute', names')) :
    ∀ name ∈ names', name ∈ dir ∨ name ∈ names ∧ name ≠ [dot] ∧ name ≠ [dot, dot] := by
  induction names generalizing dir absolute with
  | nil =>
    cases h
    exact fun name hname => .inl hname
  | cons first names ih =>
    intro name hname
    rw [mem_cons]
    rw [scanNames] at h
    split at h
    · exact (ih h name hname).imp_right (.imp_left .inr)
    · split at h
      · split at h
        · split at h
          · exact .inr (((ih h name hname).resolve_left not_mem_nil).imp_left .inr)
          · cases h
        · exact (ih h name hname).imp (fun hn => dropLast_subset dir hn) (.imp_left .inr)
      · rcases ih h name hname with hn | hn
        · rcases mem_append.mp hn with hn | hn
          · exact .inl hn
          · obtain rfl := mem_singleton.mp hn
            exact .inr ⟨.inl rfl, ‹_›, ‹_›⟩
        · exact .inr (hn.imp_left .inr)

theorem nameOk_of_scanNames (h : scanNames absolute [] (components s) = some (absolute', names'))
    (hzero : 0 ∉ s) : ∀ name ∈ names', NameOk name ∧ 0 ∉ name := by
  intro name hname
  obtain ⟨hmem, hdot, hdotdot⟩ := (mem_of_scanNames h name hname).resolve_left not_mem_nil
  obtain ⟨hne, hslash, hsubset⟩ := mem_components hmem
  exact ⟨⟨hne, hslash, hdot, hdotdot⟩, fun h0 => hzero (hsubset h0)⟩

end

/-- The loop comes to its end with what the scan makes of the components. -/
def LoopEnds (result : Option (Bool × List (List Byte)))
    (loop : Option (Option (List Byte × Nat))) : Prop :=
  match result with
  | none => loop = some none
  | some (absolute, names) => ∃ buf src dst text, loop = some (some (buf, dst)) ∧
      Scan buf src dst text [] ∧ Ended absolute text names

theorem head_dropWhile_slash : (s.dropWhile (· = slash)).head? ≠ some slash := by
  intro hhead
  have hnot := head?_dropWhile_not (fun c : Byte => decide (c = slash)) s
  rw [hhead] at hnot
  simp at hnot

/-- A `..`, and what the loop does with the rest, which is `s`. -/
theorem loopEnds_up {n' : Nat} (h : Scan buf src dst (dirText absolute dir) s)
    (hdir : ∀ name ∈ dir, slash ∉ name)
    (hrest : ∀ absolute dir dst, (∀ name ∈ dir, slash ∉ name) →
      Scan buf src dst (dirText absolute dir) s →
      LoopEnds (scanNames absolute dir names) (pathLoop n buf src dst))
    {src₀ : Nat} (hround : pathRound buf src₀ dst = upOne buf src dst) (hn : n' = n + 1) :
    LoopEnds (scanNames absolute dir ([dot, dot] :: names)) (pathLoop n' buf src₀ dst) := by
  rw [scanNames, if_neg (by decide), if_pos rfl, hn]
  by_cases hroot : dir = []
  · subst hroot
    rw [if_pos rfl]
    cases absolute with
    | true =>
      obtain ⟨hup, hscan⟩ := upOne_root h
      rw [pathLoop_next (hround.trans hup)]
      exact hrest false [] 0 (by simp) hscan
    | false =>
      rw [pathLoop_null (hround.trans (upOne_null h))]
      rfl
  · obtain ⟨init, last, rfl⟩ : ∃ init last, dir = init ++ [last] :=
      ⟨_, _, (dropLast_append_getLast hroot).symm⟩
    obtain ⟨dst', hup, hscan⟩ := upOne_scan h (hdir last (by simp))
    rw [if_neg hroot, dropLast_concat, pathLoop_next (hround.trans hup)]
    exact hrest absolute init dst' (fun m hm => hdir m (by simp [hm])) hscan

theorem pathLoop_scan (h : Scan buf src dst (dirText absolute dir) s)
    (hhead : s.head? ≠ some slash) (hdir : ∀ name ∈ dir, slash ∉ name) (hn : s.length < n) :
    LoopEnds (scanNames absolute dir (components s)) (pathLoop n buf src dst) := by
  induction hs : s.length using Nat.strongRecOn generalizing s buf src dst dir n absolute with
  | ind len ih =>
    subst hs
    obtain ⟨n, rfl⟩ := exists_eq_succ_of_ne_zero (ne_zero_of_lt hn)
    by_cases hslash : slash ∈ s
    · -- a component with a slash behind it
      obtain ⟨name, more, rfl, hname⟩ := eq_append_cons_of_mem hslash
      have hne : name ≠ [] := by
        rintro rfl
        exact hhead rfl
      rw [components_append hname hne, ← components_dropWhile]
      have hmore : (more.dropWhile (· = slash)).length < (name ++ slash :: more).length := by
        have := (dropWhile_sublist (l := more) (· = slash)).length_le
        simp
        omega
      have hrest : (more.dropWhile (· = slash)).length < n := by omega
      by_cases hdot : name = [dot]
      · subst hdot
        obtain ⟨src', hround, hscan⟩ := pathRound_dot h
        rw [scanNames, if_pos rfl, pathLoop_next hround]
        exact ih _ hmore hscan head_dropWhile_slash hdir hrest rfl
      by_cases hdotdot : name = [dot, dot]
      · subst hdotdot
        obtain ⟨src', hround, hle, hreads⟩ := pathRound_dotdot dst h.reads
        exact loopEnds_up ⟨h.take, h.length, le_trans h.le hle, hreads⟩ hdir
          (fun _ _ _ hdir' hscan => ih _ hmore hscan head_dropWhile_slash hdir' hrest rfl)
          hround rfl
      · obtain ⟨buf', src', hcopy, hscan⟩ := copyUp_slash h hname
        rw [← dirText_snoc] at hscan
        rw [scanNames, if_neg hdot, if_neg hdotdot,
          pathLoop_next ((pathRound_name _ h.reads hne hname hdot hdotdot).trans hcopy)]
        refine ih _ hmore hscan head_dropWhile_slash (fun m hm => ?_) hrest rfl
        rcases mem_append.mp hm with hm | hm
        · exact hdir m hm
        · rwa [mem_singleton.mp hm]
    · by_cases hne : s = []
      · subst hne
        obtain ⟨buf', hround, hscan⟩ := pathRound_nil h
        exact ⟨buf', src, dst, _, pathLoop_stop hround, hscan, .inl rfl⟩
      -- the last component
      rw [components_of_not_mem hslash hne]
      by_cases hdot : s = [dot]
      · subst hdot
        obtain ⟨buf', hround, hscan⟩ := pathRound_dot_last h
        exact ⟨buf', _, dst, _, pathLoop_stop hround, hscan, .inl rfl⟩
      by_cases hdotdot : s = [dot, dot]
      · subst hdotdot
        refine loopEnds_up ⟨h.take, h.length, le_trans h.le (le_add_right _ _), h.reads.tail.tail⟩
          hdir (fun _ _ _ hdir' hscan => ?_) (pathRound_dotdot_last h.reads) rfl
        exact ih 0 (by simp) hscan (by simp) hdir' (by simp at hn ⊢; omega) rfl
      · have hreads : Reads buf src (s ++ []) := by simpa using h.reads
        obtain ⟨buf', hcopy, hscan⟩ := copyUp_last h hslash
        have hround := (pathRound_name dst hreads hne hslash hdot hdotdot).trans hcopy
        rw [scanNames, if_neg hdot, if_neg hdotdot]
        exact ⟨buf', _, _, _, pathLoop_stop hround, hscan, .inr ⟨dir, s, rfl, rfl⟩⟩

/-- The text without a slash at its end, unless it is one byte. -/
def trimSlash (text : List Byte) : List Byte :=
  if 1 < text.length ∧ text.getLast? = some slash then text.dropLast else text

theorem trimSlash_concat (s : List Byte) (c : Byte) :
    trimSlash (s ++ [c]) = if s ≠ [] ∧ c = slash then s else s ++ [c] := by
  simp [trimSlash, length_pos_iff]

/-- The zero byte is put behind the path, or in the place of its last slash. -/
theorem pathEnd_scan {c : Byte} {text : List Byte} (h : Scan buf src dst (c :: text) [])
    (hc : c ≠ 0) : ∃ rest, pathEnd buf dst = some (trimSlash (c :: text) ++ 0 :: rest) := by
  obtain ⟨b, rest, rfl⟩ : ∃ b rest, buf = c :: text ++ b :: rest := by
    have hsplit := take_append_drop dst buf
    rw [h.take, drop_eq_getElem_cons h.dst_lt] at hsplit
    exact ⟨_, _, hsplit.symm⟩
  have hc' : ¬ c = 0#8 := hc
  rw [h.length]
  rcases eq_nil_or_concat' text with rfl | ⟨init, e, rfl⟩
  · exact ⟨rest, by simp [pathEnd, store, trimSlash, hc']⟩
  · rw [← cons_append, trimSlash_concat]
    by_cases he : e = slash
    · exact ⟨0 :: rest, by simp [pathEnd, store, hc', he]⟩
    · exact ⟨rest, by simp [pathEnd, store, hc', he]⟩

theorem trimSlash_render (hok : ∀ name ∈ names, NameOk name) :
    trimSlash (render names) = render names := by
  rcases eq_nil_or_concat' names with rfl | ⟨init, last, rfl⟩
  · rfl
  · have hlast := hok last (by simp)
    obtain ⟨front, c, rfl⟩ := (eq_nil_or_concat' last).resolve_left hlast.ne_nil
    have hc : c ≠ slash := fun hc => hlast.slash (by simp [hc])
    have hrender : render (init ++ [front ++ [c]]) =
        init.flatMap (slash :: ·) ++ slash :: front ++ [c] := by simp [render]
    rw [hrender, trimSlash_concat, if_neg fun h => hc h.2]

theorem trimSlash_ended {text : List Byte} (hend : Ended true text names)
    (hok : ∀ name ∈ names, NameOk name) : trimSlash text = render names := by
  rcases hend with rfl | ⟨init, last, rfl, rfl⟩
  · rw [dirText_true, trimSlash_concat, render]
    cases names with
    | nil => simp
    | cons name names => simp
  · rw [← trimSlash_render hok, dirText_true]
    simp [render]

/-- With its leading slash, the path is the canonical one. -/
theorem pathEnd_absolute {text : List Byte} (h : Scan buf src dst text [])
    (hend : Ended true text names) (hok : ∀ name ∈ names, NameOk name ∧ 0 ∉ name) :
    ∃ buf', pathEnd buf dst = some buf' ∧ cstr buf' = render names := by
  obtain ⟨rest, rfl⟩ : ∃ rest, text = slash :: rest := by
    rcases hend with rfl | ⟨init, last, -, rfl⟩ <;> simp [dirText]
  obtain ⟨tail, hret⟩ := pathEnd_scan h (by decide)
  have hzero : 0 ∉ render names := by
    rw [render]
    split
    · decide
    · simpa [mem_flatMap, show ¬ 0#8 = slash by decide] using fun name hname => (hok name hname).2
  rw [trimSlash_ended hend fun name hname => (hok name hname).1] at hret
  refine ⟨_, hret, (cstr_of_take ?_ ?_).trans take_left⟩
  · rwa [take_left]
  · simp

theorem Ended.first {text : List Byte} (hend : Ended false text names)
    (hok : ∀ name ∈ names, NameOk name ∧ 0 ∉ name) : ∀ c ∈ text.head?, c ≠ slash ∧ c ≠ 0 := by
  have hfirst : ∀ name ∈ names, ∀ tail : List Byte, ∀ c ∈ (name ++ tail).head?, c ≠ slash ∧
    c ≠ 0 := by
    intro name hname tail c hc
    obtain ⟨hname, hzero⟩ := hok name hname
    rw [head?_append_of_ne_nil _ hname.ne_nil] at hc
    have hmem := mem_of_mem_head? hc
    exact ⟨fun h => hname.slash (h ▸ hmem), fun h => hzero (h ▸ hmem)⟩
  rcases hend with rfl | ⟨init, last, rfl, rfl⟩
  · cases names with
    | nil => simp [dirText]
    | cons name names =>
      rw [dirText, flatMap_cons, append_assoc]
      exact hfirst name (by simp) _
  · cases init with
    | nil => simpa [dirText] using hfirst last (by simp) []
    | cons name init =>
      rw [dirText, flatMap_cons, append_assoc, append_assoc, append_assoc]
      exact hfirst name (by simp) _

/-- Without its leading slash, the path stays without it. -/
theorem pathEnd_relative {text : List Byte} (h : Scan buf src dst text [])
    (hend : Ended false text names) (hok : ∀ name ∈ names, NameOk name ∧ 0 ∉ name) :
    ∀ buf' ∈ pathEnd buf dst, (cstr buf').head? ≠ some slash := by
  intro buf' hret
  cases text with
  | nil =>
    obtain rfl : dst = 0 := h.length
    simp [pathEnd, store_of_lt h.dst_lt] at hret
  | cons c text =>
    obtain ⟨hslash, hzero⟩ := hend.first hok c rfl
    obtain ⟨tail, heq⟩ := pathEnd_scan h hzero
    obtain rfl := Option.some.inj (heq.symm.trans hret)
    have hhead : ∃ rest, trimSlash (c :: text) = c :: rest := by
      rcases eq_nil_or_concat' text with rfl | ⟨init, e, rfl⟩
      · exact ⟨[], rfl⟩
      · rw [← cons_append, trimSlash_concat]
        split <;> exact ⟨_, rfl⟩
    obtain ⟨rest, hrest⟩ := hhead
    rw [hrest, cons_append, cstr, takeWhile_cons_of_pos (by simpa using hzero), head?_cons]
    exact fun h => hslash (Option.some.inj h)

def joinedPath (directory filename : List Byte) : List Byte :=
  if filename.head? = some slash then filename else directory ++ slash :: filename

/-- The first round copies the leading slash. -/
theorem pathLoop_absolute (hzero : 0 ∉ slash :: s) :
    LoopEnds (scanNames true [] (components (slash :: s)))
      (pathLoop ((slash :: s ++ [0]).length + 1) (slash :: s ++ [0]) 0 0) := by
  have hscan : Scan (slash :: s ++ [0]) 0 0 [] ([] ++ slash :: s) :=
    ⟨rfl, rfl, le_refl 0, ⟨hzero, [], rfl⟩⟩
  obtain ⟨buf1, src1, hcopy, hscan1⟩ := copyUp_slash hscan not_mem_nil
  have hround : pathRound (slash :: s ++ [0]) 0 0 = copyUp (slash :: s ++ [0]) 0 0 := by
    rw [pathRound, hscan.reads.getElem?_cons, bind_eq_bind, bind_some, if_neg (by decide)]
  have hshort : (s.dropWhile (· = slash)).length < (slash :: s ++ [0]).length := by
    have := (dropWhile_sublist (l := s) (· = slash)).length_le
    simp
    omega
  have hroot : Scan buf1 src1 1 (dirText true []) (s.dropWhile (· = slash)) := hscan1
  rw [pathLoop_next (hround.trans hcopy), components_slash, ← components_dropWhile]
  exact pathLoop_scan hroot head_dropWhile_slash (by simp) hshort

theorem normalizeBuffer_absolute (hzero : 0 ∉ slash :: s)
    (hresolve : resolve [] (components (slash :: s)) = some names) :
    normalizeBuffer (slash :: s ++ [0]) = some (.path (render names)) ∧
      ∀ name ∈ names, NameOk name := by
  have hscan : scanNames true [] (components (slash :: s)) = some (true, names) :=
    scanNames_of_resolve hresolve
  have hok := nameOk_of_scanNames hscan hzero
  have hloop := pathLoop_absolute hzero
  rw [hscan] at hloop
  obtain ⟨buf, src, dst, text, hloop, hscan', hend⟩ := hloop
  obtain ⟨buf', hpathEnd, hcstr⟩ := pathEnd_absolute hscan' hend hok
  refine ⟨?_, fun name hname => (hok name hname).1⟩
  rw [normalizeBuffer, hloop]
  simp only [bind_eq_bind, bind_some, hpathEnd, hcstr]

/-- What is asked of `dfs_normalize_path` for the joined path: the canonical spelling of its lexical
resolution, or `NULL` if there is none. -/
def Normalizes (path : List Byte) : Option PathResult → Prop
  | none => False
  | some .null => resolve [] (components path) = none
  | some (.path fullpath) => ∃ names, resolve [] (components path) = some names ∧
      fullpath = render names ∧ (∀ name ∈ names, NameOk name) ∧ components fullpath = names ∧
      fullpath.head? = some slash

theorem normalizes_iff (hzero : 0 ∉ slash :: s) :
    Normalizes (slash :: s) (normalizeBuffer (slash :: s ++ [0])) ↔
      excess [] (components (slash :: s)) ≠ 1 := by
  have hloop := pathLoop_absolute hzero
  obtain ⟨-, hone, hmore⟩ := scanNames_of_excess [] (components (slash :: s))
  rcases Nat.lt_trichotomy (excess [] (components (slash :: s))) 1 with hlt | heq | hgt
  · refine iff_of_true ?_ hlt.ne
    have hsome : resolve [] (components (slash :: s)) ≠ none := by
      rw [ne_eq, resolve_eq_none_iff]
      omega
    obtain ⟨names, hresolve⟩ := Option.ne_none_iff_exists'.mp hsome
    obtain ⟨hret, hok⟩ := normalizeBuffer_absolute hzero hresolve
    rw [hret]
    exact ⟨names, hresolve, rfl, hok, components_render hok, head_render⟩
  · refine iff_of_false ?_ (not_not.mpr heq)
    obtain ⟨names, hscan⟩ := hone heq
    rw [hscan] at hloop
    obtain ⟨buf, src, dst, text, hloop, hscan', hend⟩ := hloop
    have hrelative := pathEnd_relative hscan' hend (nameOk_of_scanNames hscan hzero)
    rw [normalizeBuffer, hloop]
    cases hret : pathEnd buf dst with
    | none => simp [hret, Normalizes]
    | some buf' =>
      simp only [bind_eq_bind, bind_some, hret]
      rintro ⟨-, -, -, -, -, hhead⟩
      exact hrelative buf' hret hhead
  · refine iff_of_true ?_ hgt.ne'
    rw [hmore hgt] at hloop
    have hnull : normalizeBuffer (slash :: s ++ [0]) = some .null := by
      rw [normalizeBuffer, show pathLoop _ _ 0 0 = some none from hloop]
      rfl
    rw [hnull]
    exact resolve_eq_none_iff.mpr (by omega)

/-- `dfs_normalize_path` does what is asked of it if and only if there is not exactly one `..` that
has nothing to remove. Strings of half the address space cannot be joined in a buffer. -/
theorem dfsNormalizePath_iff {fresh : Nat → Byte} {directory filename : List Byte}
    (habsolute : directory.head? = some slash) (hdirectory : 0 ∉ directory)
    (hfilename : 0 ∉ filename)
    (hlen : directory.length < 2 ^ 31) (hlen' : filename.length < 2 ^ 31) :
    Normalizes (joinedPath directory filename)
        (dfsNormalizePath fresh (some directory) filename) ↔
      excess [] (components (joinedPath directory filename)) ≠ 1 := by
  rw [joinedPath, dfsNormalizePath]
  by_cases hhead : filename.head? = some slash
  · obtain ⟨rest, rfl⟩ := head?_eq_some_iff.mp hhead
    rw [if_pos hhead, if_pos hhead]
    exact normalizes_iff hfilename
  · obtain ⟨rest, rfl⟩ := head?_eq_some_iff.mp habsolute
    have hzero : 0 ∉ slash :: rest ++ slash :: filename := by
      intro h0
      rcases mem_append.1 h0 with h0 | h0
      · exact hdirectory h0
      · rcases mem_cons.1 h0 with h0 | h0
        · exact absurd h0 (by decide)
        · exact hfilename h0
    rw [if_neg hhead, if_neg hhead]
    simp only [bind_eq_bind]
    rw [Printf.rtSnprintf_join hdirectory hfilename hlen hlen' (by simp), bind_some]
    exact normalizes_iff hzero

/-- `dfs_normalize_path("/", "../../a")` is `NULL`, as it may be. -/
theorem dfsNormalizePath_iff_null :
    dfsNormalizePath (fun _ => 0) (some [slash]) (['.', '.', '/', '.', '.', '/', 'a'].map byte) =
      some .null ∧
    Normalizes (joinedPath [slash] (['.', '.', '/', '.', '.', '/', 'a'].map byte))
      (dfsNormalizePath (fun _ => 0) (some [slash])
        (['.', '.', '/', '.', '.', '/', 'a'].map byte)) := by
  refine ⟨by decide +kernel, ?_⟩
  rw [dfsNormalizePath_iff (by decide) (by decide) (by decide) (by decide) (by decide)]
  decide

/-- A `..` at the root removes the leading slash: `dfs_normalize_path("/", "../a")` is `"a"`. And
`dfs_normalize_path("/", "..")` reads in front of the buffer. -/
theorem dotdot_at_root_loses_slash :
    dfsNormalizePath (fun _ => 0) (some [slash]) (['.', '.', '/', 'a'].map byte) =
      some (.path ['a'.byte]) ∧
    dfsNormalizePath (fun _ => 0) (some [slash]) (['.', '.'].map byte) = none := by
  decide +kernel

end RtThread

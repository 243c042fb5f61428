import Mathlib.Data.List.Basic
set_option autoImplicit false

/-! The paths that `join` of Node.js's `path.posix` makes. -/

namespace PosixPath

/-- One segment in the loop of `normalizeString`; the segments kept so far start with the last. -/
def keep (allowAboveRoot : Bool) (kept : List (List Char)) (segment : List Char) :
    List (List Char) :=
  if segment = [] ∨ segment = ['.'] then kept
  else if segment = ['.','.'] ∧ ∀ last ∈ kept.head?, last = ['.','.'] then
    if allowAboveRoot then segment::kept else kept
  else if segment = ['.','.'] then kept.tail
  else segment::kept

def normalizeString (path : List Char) (allowAboveRoot : Bool) : List Char :=
  ['/'].intercalate ((path.splitOn '/').foldl (keep allowAboveRoot) []).reverse

def isAbsolute (path : List Char) : Bool := path.head? = some '/'

def normalize (path : List Char) : List Char :=
  if path = [] then ['.'] else
    let body := normalizeString path (!isAbsolute path)
    let body := if body = [] ∧ isAbsolute path = false then ['.'] else body
    let body := if body ≠ [] ∧ path.getLast? = some '/' then body ++ ['/'] else body
    if isAbsolute path then '/'::body else body

def join (parts : List (List Char)) : List Char :=
  match parts.filter (!·.isEmpty) with
  | [] => ['.']
  | kept => normalize (['/'].intercalate kept)

example : join ["/data/./raw//".toList,"7".toList,"b.gz".toList] = "/data/raw/7/b.gz".toList := by
  decide

example : join ["../raw".toList,"..".toList,"b/".toList] = "../b/".toList := by decide

/-- A segment that stays as it is. -/
structure Plain (segment : List Char) : Prop where
  ne_nil : segment ≠ []
  noSlash : '/' ∉ segment
  ne_dot : segment ≠ ['.']
  ne_dots : segment ≠ ['.','.']

theorem keep_plain {segment : List Char} (h : Plain segment) (allowAboveRoot : Bool)
    (kept : List (List Char)) : keep allowAboveRoot kept segment = segment::kept := by
  simp [keep,h.ne_nil,h.ne_dot,h.ne_dots]

theorem intercalate_append_pair (segments : List (List Char)) (dir file : List Char) :
    ['/'].intercalate (segments ++ [dir,file]) =
      segments.flatMap (· ++ ['/']) ++ (dir ++ '/'::file) := by
  induction segments with
  | nil => simp
  | cons segment segments ih =>
    rw [List.cons_append,List.intercalate_cons_of_ne_nil (by simp),ih]
    simp

/-- What stands before the last two segments of a normalized path. -/
def lead (allowAboveRoot : Bool) (segments : List (List Char)) : List Char :=
  (segments.foldl (keep allowAboveRoot) []).reverse.flatMap (· ++ ['/'])

section
variable {path dir file : List Char} {segments : List (List Char)}

theorem normalizeString_of_splitOn (hdir : Plain dir) (hfile : Plain file)
    (hsplit : path.splitOn '/' = segments ++ [dir,file]) (allowAboveRoot : Bool) :
    normalizeString path allowAboveRoot =
      lead allowAboveRoot segments ++ (dir ++ '/'::file) := by
  rw [normalizeString,hsplit,List.foldl_append,List.foldl_cons,List.foldl_cons,List.foldl_nil,
    keep_plain hdir,keep_plain hfile,List.reverse_cons,List.reverse_cons,List.append_assoc,
    List.singleton_append,intercalate_append_pair,lead]

theorem splitOn_file (hdir : Plain dir) (hfile : Plain file) :
    (dir ++ '/'::file).splitOn '/' = [dir,file] := by
  rw [List.splitOn_append_cons_self_of_not_mem hdir.noSlash,List.splitOn_eq_singleton hfile.noSlash]

theorem getLast?_file (hfile : Plain file) (start : List Char) :
    (start ++ (dir ++ '/'::file)).getLast? = file.getLast? := by
  obtain ⟨front,last,hconcat⟩ := (List.eq_nil_or_concat file).resolve_left hfile.ne_nil
  have hjoined : start ++ (dir ++ '/'::file) = (start ++ dir ++ '/'::front) ++ [last] := by
    rw [hconcat]
    simp
  rw [hjoined,hconcat,List.getLast?_concat,List.concat_eq_append,List.getLast?_concat]

theorem normalize_file (hdir : Plain dir) (hfile : Plain file) (start : List Char)
    (segments : List (List Char))
    (hsplit : (start ++ (dir ++ '/'::file)).splitOn '/' = segments ++ [dir,file]) :
    normalize (start ++ (dir ++ '/'::file)) =
      (if isAbsolute (start ++ (dir ++ '/'::file)) then ['/'] else []) ++
        (lead (!isAbsolute (start ++ (dir ++ '/'::file))) segments ++ (dir ++ '/'::file)) := by
  have hpath : start ++ (dir ++ '/'::file) ≠ [] := by simp
  have hslash : (start ++ (dir ++ '/'::file)).getLast? ≠ some '/' := by
    rw [getLast?_file hfile]
    exact fun h => hfile.noSlash (List.mem_of_getLast? h)
  have hbody : lead (!isAbsolute (start ++ (dir ++ '/'::file))) segments ++
    (dir ++ '/'::file) ≠ [] := by simp
  simp only [normalize,normalizeString_of_splitOn hdir hfile hsplit,hpath,hslash,hbody,if_false,
    false_and,and_false]
  split <;> rfl

end

theorem join_file (base : List Char) : ∃ start, ∀ dir file, Plain dir → Plain file →
    join [base,dir,file] = start ++ (dir ++ '/'::file) := by
  cases base with
  | nil =>
    refine ⟨[],fun dir file hdir hfile => ?_⟩
    have habsolute : isAbsolute (dir ++ '/'::file) = false := by
      cases dir with
      | nil => exact absurd rfl hdir.ne_nil
      | cons c cs =>
        have hc : c ≠ '/' := fun h => hdir.noSlash (h ▸ List.mem_cons_self ..)
        simp [isAbsolute,hc]
    have hnormal := normalize_file hdir hfile [] [] (splitOn_file hdir hfile)
    rw [List.nil_append,habsolute] at hnormal
    simpa [join,lead,hdir.ne_nil,hfile.ne_nil] using hnormal
  | cons c cs =>
    refine ⟨(if isAbsolute (c::cs) then ['/'] else []) ++
      lead (!isAbsolute (c::cs)) ((c::cs).splitOn '/'),fun dir file hdir hfile => ?_⟩
    have hsplit : ((c::cs) ++ ['/'] ++ (dir ++ '/'::file)).splitOn '/' =
        (c::cs).splitOn '/' ++ [dir,file] := by
      rw [List.append_assoc,List.singleton_append,List.splitOn_append_cons_self,
        splitOn_file hdir hfile]
    have hnormal := normalize_file hdir hfile _ _ hsplit
    have habsolute : isAbsolute ((c::cs) ++ ['/'] ++ (dir ++ '/'::file)) = isAbsolute (c::cs) := rfl
    rw [habsolute] at hnormal
    simpa [join,hdir.ne_nil,hfile.ne_nil] using hnormal

theorem join_file_injective (base : List Char) {dir file dir' file' : List Char} (hdir : Plain dir)
    (hfile : Plain file) (hdir' : Plain dir') (hfile' : Plain file')
    (h : join [base,dir,file] = join [base,dir',file']) : dir = dir' ∧ file = file' := by
  obtain ⟨start,hstart⟩ := join_file base
  rw [hstart dir file hdir hfile,hstart dir' file' hdir' hfile'] at h
  have hsplit := congrArg (List.splitOn '/') (List.append_cancel_left h)
  rw [splitOn_file hdir hfile,splitOn_file hdir' hfile'] at hsplit
  simpa using hsplit

end PosixPath
